import LibTorrent.Net.Throttle
import Mathlib.Algebra.Order.BigOperators.Group.List
import Mathlib.Algebra.Order.Group.Nat

namespace LibTorrent

open Lib.Outcome List Nat ThrottleList

namespace Throttle

mutual

def held : Throttle → ℕ
  | ⟨_, _, list, slaves, _, unusedQuota⟩ => unusedQuota + list.held + heldAll slaves

def heldAll : List Throttle → ℕ
  | [] => 0
  | t :: l => t.held + heldAll l

end

theorem held_eq (t : Throttle) : t.held = t.unusedQuota + t.list.held + heldAll t.slaves := by
  obtain ⟨isRoot, maxRate, list, slaves, nextSlave, unusedQuota⟩ := t
  rw [held]

theorem heldAll_eq (l : List Throttle) : heldAll l = (l.map held).sum := by
  induction l with
  | nil => rw [heldAll, map_nil, sum_nil]
  | cons t l ih => rw [heldAll, map_cons, sum_cons, ih]

/-- The throttles at depth `d` and below: every list is balanced. The root and its slaves are enabled together, all
others are always enabled. -/
inductive Arranged (on : Bool) : ℕ → Throttle → Prop
  | mk {d : ℕ} {t : Throttle} (balanced : t.list.Balanced) (isRoot : 0 < d → t.isRoot = false)
      (upper : d ≤ 1 → t.list.enabled = on) (lower : 1 < d → t.list.enabled = true)
      (slaves : ∀ s ∈ t.slaves, Arranged on (d + 1) s) : Arranged on d t

namespace Arranged

variable {on : Bool} {d : ℕ} {t : Throttle}

section

variable (h : Arranged on d t)
include h

theorem balanced : t.list.Balanced := by cases h; assumption

theorem isRoot : 0 < d → t.isRoot = false := by cases h; assumption

theorem upper : d ≤ 1 → t.list.enabled = on := by cases h; assumption

theorem lower : 1 < d → t.list.enabled = true := by cases h; assumption

theorem slaves : ∀ s ∈ t.slaves, Arranged on (d + 1) s := by cases h; assumption

end

theorem enabled (h : Arranged true d t) : t.list.enabled = true := (lt_or_ge 1 d).elim h.lower h.upper

end Arranged

theorem subInt_eq {a : ℕ} {b : ℤ} (hle : b ≤ a) (hlt : (a : ℤ) - b < 2 ^ 32) : (subInt a b : ℤ) = a - b := by
  rw [subInt]
  omega

theorem ensures_receiveList {list : ThrottleList} (h : list.Balanced) (hon : list.enabled = true)
    (quota fraction maxRate numSlaves nextSlave : ℕ) {unusedQuota : ℕ} (hlt : unusedQuota + list.held < 2 ^ 31) :
    Gives (receiveList quota fraction maxRate numSlaves nextSlave unusedQuota list) fun r ↦
      r.1.Balanced ∧ r.1.enabled = true ∧ r.2.2 + r.1.held = unusedQuota + list.held := by
  refine .ite (fun hneed ↦ ?_) fun _ ↦ .ok ⟨h, hon, rfl⟩
  refine (ensures_updateQuota h hon (by omega)).bind fun r hr ↦ .ok ⟨hr.1, hr.2.1, ?_⟩
  have hsub := subInt_eq (a := unusedQuota) (b := r.1) (by omega) (by omega)
  dsimp only
  omega

mutual

theorem ensures_receiveQuota (quota fraction : ℕ) : (t : Throttle) → Arranged true d t →
    t.held + quota < 2 ^ 31 → Gives (receiveQuota quota fraction t) fun r ↦
      Arranged true d r.2 ∧ (r.2.held : ℤ) = t.held + r.1 ∧ r.1 ≤ quota
  | ⟨isRoot, maxRate, list, slaves, nextSlave, unusedQuota⟩, h, hlt => by
    rw [held] at hlt ⊢
    have hlist : list.Balanced := h.balanced
    have hadd : add32 unusedQuota quota = unusedQuota + quota := add32_eq (by omega)
    rw [receiveQuota, hadd]
    refine (ensures_receiveSlaves quota fraction slaves h.slaves nextSlave _ (by omega)).bind ?_
    rintro ⟨slaves', nextSlave', unusedQuota'⟩ ⟨hslaves, htotal⟩
    dsimp only at hslaves htotal ⊢
    refine (ensures_receiveList hlist h.enabled _ _ _ _ _ (by omega)).bind ?_
    rintro ⟨list', next, unused⟩ ⟨hlist', hon, hsum⟩
    dsimp only at hlist' hon hsum ⊢
    obtain ⟨hkeep, hle⟩ := keepUpTo_spec (a := quota) (b := unused) (by omega) (by omega)
    refine .ok ⟨⟨hlist', h.isRoot, fun _ ↦ hon, fun _ ↦ hon, hslaves⟩, ?_, hle⟩
    dsimp only
    rw [held]
    omega

theorem ensures_receiveSlaves (quota fraction : ℕ) : (l : List Throttle) → (∀ s ∈ l, Arranged true d s) →
    (nextSlave unusedQuota : ℕ) → unusedQuota + heldAll l < 2 ^ 31 →
    Gives (receiveSlaves quota fraction l nextSlave unusedQuota) fun r ↦
      (∀ s ∈ r.1, Arranged true d s) ∧ r.2.2 + heldAll r.1 = unusedQuota + heldAll l
  | [], h, nextSlave, unusedQuota, _ => by
    rw [receiveSlaves]
    exact .ok ⟨h, rfl⟩
  | slave :: rest, h, nextSlave + 1, unusedQuota, hlt => by
    rw [heldAll] at hlt ⊢
    have hrest := ensures_receiveSlaves quota fraction rest (fun s hs ↦ h s (mem_cons_of_mem _ hs)) nextSlave
      unusedQuota (by omega)
    rw [receiveSlaves]
    refine hrest.bind ?_
    rintro ⟨rest', place, unused⟩ ⟨hrest', hsum⟩
    dsimp only at hrest' hsum ⊢
    refine .ok ⟨forall_mem_cons.mpr ⟨h slave mem_cons_self, hrest'⟩, ?_⟩
    dsimp only
    rw [heldAll]
    omega
  | slave :: rest, h, 0, unusedQuota, hlt => by
    rw [heldAll] at hlt ⊢
    rw [receiveSlaves]
    refine .ite (fun _ ↦ .ok ⟨h, ?_⟩) fun hneed ↦ ?_
    · dsimp only
      rw [heldAll]
    have hslave := ensures_receiveQuota (need quota fraction slave.maxRate) fraction slave (h slave mem_cons_self)
      (by omega)
    refine hslave.bind ?_
    rintro ⟨used, slave'⟩ ⟨hslave', hheld, hused⟩
    dsimp only at hslave' hheld hused ⊢
    have hsub := subInt_eq (a := unusedQuota) (b := used) (by omega) (by omega)
    have hrest := ensures_receiveSlaves quota fraction rest (fun s hs ↦ h s (mem_cons_of_mem _ hs)) 0
      (subInt unusedQuota used) (by omega)
    refine hrest.bind ?_
    rintro ⟨rest', place, unused⟩ ⟨hrest', hsum⟩
    dsimp only at hrest' hsum ⊢
    refine .ok ⟨forall_mem_cons.mpr ⟨hslave', hrest'⟩, ?_⟩
    dsimp only
    rw [heldAll]
    omega

end

variable {t s : Throttle} {on : Bool} {d : ℕ} {path : List ℕ}

theorem held_at? (h : t.at? path = some s) : s.held ≤ t.held := by
  induction path generalizing t with
  | nil => exact le_of_eq (congrArg held (Option.some.inj h)).symm
  | cons i path ih =>
    obtain ⟨slave, hslave, hs⟩ := Option.bind_eq_some_iff.mp h
    have hle := le_sum_of_mem (mem_map_of_mem (f := held) (mem_of_getElem? hslave))
    have := ih hs
    rw [held_eq t, heldAll_eq]
    omega

theorem held_list_le (t : Throttle) : t.list.held ≤ t.held := by
  rw [held_eq]
  omega

theorem Arranged.modifyAt {f : Throttle → Except ThrottleFault Throttle} {bad : ThrottleFault → Prop}
    (h : Arranged on d t)
    (hf : ∀ s, t.at? path = some s → Arranged on (d + path.length) s →
      Ensures bad (f s) fun s' ↦ Arranged on (d + path.length) s' ∧ s'.held ≤ s.held) :
    Ensures bad (modifyAt f path t) fun t' ↦ Arranged on d t' ∧ t'.held ≤ t.held := by
  induction path generalizing t d with
  | nil => exact hf t rfl h
  | cons i path ih =>
    rw [Throttle.modifyAt]
    cases hslave : t.slaves[i]? with
    | none => exact ⟨h, le_rfl⟩
    | some slave =>
      obtain ⟨hi, hget⟩ := List.getElem?_eq_some_iff.mp hslave
      have hlen : d + (i :: path).length = d + 1 + path.length := by rw [length_cons]; omega
      rw [hlen] at hf
      have hstep := ih (h.slaves slave (hget ▸ getElem_mem hi)) fun s hs ↦ hf s (by rw [at?, hslave]; exact hs)
      refine hstep.bind fun slave' hslave' ↦ .ok ⟨?_, ?_⟩
      · refine ⟨h.balanced, h.isRoot, h.upper, h.lower, fun s hs ↦ ?_⟩
        rcases mem_or_eq_of_mem_set hs with hs | rfl
        · exact h.slaves s hs
        · exact hslave'.1
      have hset := sum_map_set held hi slave'
      rw [hget] at hset
      rw [held_eq, held_eq t, heldAll_eq, heldAll_eq]
      dsimp only
      omega

end Throttle

/-- The fault is an `internal_error` of `throttle_list.cc`. -/
def ThrottleFault.IsList : ThrottleFault → Prop
  | .list _ => True
  | _ => False

namespace ListOp

/-- The owner of a node deactivates it when the list has no quota for it, so that the list is enabled and the node
active. -/
def Admissible (tl : ThrottleList) : ListOp → Prop
  | deactivate id => tl.enabled = true ∧ tl.isActive id = true
  | _ => True

theorem ensures_apply {tl : ThrottleList} (h : tl.Balanced) (hlt : tl.held < 2 ^ 32) {op : ListOp}
    (hop : op.Admissible tl) : Gives (op.apply tl) (Keeps tl) := by
  cases op with
  | insert id => exact keeps_insert h hlt id
  | erase id => exact ensures_erase h hlt id
  | deactivate id => exact ensures_nodeDeactivate h hop.1 hop.2
  | used id bytes => exact ensures_nodeUsed h id bytes
  | usedUnthrottled bytes => exact keeps_nodeUsedUnthrottled h bytes
  | setMinChunkSize v | setMaxChunkSize v =>
    exact ⟨⟨h.outstanding, h.split, h.size_eq, h.disabled_held, h.disabled_split⟩, le_rfl, rfl⟩

end ListOp

namespace ThrottleEvent

/-- The quota that an event gives to the root: that of a tick, and of the first tick when a rate is set where there was
none. -/
def granted (t : Throttle) : ThrottleEvent → ℕ
  | tick countUsec => Throttle.tickQuota countUsec t.maxRate
  | setMaxRate [] v now => if t.maxRate = 0 then Throttle.tickQuota (min now 1000000) v else 0
  | _ => 0

/-- What may happen: the quota in the tree stays below `2 ^ 31`, nodes are deactivated as `node_quota` says, and a slave
gets slaves of its own only while it is enabled. -/
structure Admissible (e : ThrottleEvent) (t : Throttle) : Prop where
  granted_lt : t.held + e.granted t < 2 ^ 31
  onList : ∀ path op s, e = .onList path op → t.at? path = some s → op.Admissible s.list
  createSlave : ∀ path s, e = .createSlave path → path ≠ [] → t.at? path = some s → s.list.enabled = true

end ThrottleEvent

namespace Throttle

variable {t s : Throttle} {on on' : Bool} {d : ℕ}

/-- Every throttle of the tree is arranged. -/
def Sound (t : Throttle) : Prop := Arranged t.list.enabled 0 t

theorem Arranged.sound (h : Arranged on 0 t) : t.Sound := by rwa [Sound, h.upper (zero_le 1)]

theorem Arranged.of_two_le (h : Arranged on d t) (hd : 2 ≤ d) : Arranged on' d t := by
  induction h with
  | mk balanced isRoot upper lower slaves ih =>
    exact ⟨balanced, isRoot, fun hle ↦ absurd hle (by omega), lower, fun s hs ↦ ih s hs (by omega)⟩

theorem Arranged.setList (h : Arranged on 1 t) {list : ThrottleList} (hb : list.Balanced) (hon : list.enabled = on') :
    Arranged on' 1 { t with list := list } :=
  ⟨hb, h.isRoot, fun _ ↦ hon, fun hlt ↦ absurd hlt (by omega), fun s hs ↦ (h.slaves s hs).of_two_le le_rfl⟩

def Enabled (t t' : Throttle) : Prop :=
  ∃ list : ThrottleList, t' = { t with list := list } ∧ list.Balanced ∧ list.held = t.list.held ∧ list.enabled = true

theorem ensures_enableList (h : t.list.Balanced) : Gives t.enableList (Enabled t) :=
  (ensures_enable h).bind fun list hlist ↦ .ok ⟨list, rfl, hlist⟩

theorem ensures_enableSlaves (l : List Throttle) (h : ∀ s ∈ l, Arranged on 1 s) :
    Gives (enableSlaves l) fun l' ↦ (∀ s ∈ l', Arranged true 1 s) ∧ heldAll l' = heldAll l := by
  induction l with
  | nil => exact ⟨nofun, rfl⟩
  | cons slave rest ih =>
    have hslave := h slave mem_cons_self
    refine (ensures_enableList hslave.balanced).bind ?_
    rintro slave' ⟨list, rfl, hbalanced, hheld, hon⟩
    refine (ih fun s hs ↦ h s (mem_cons_of_mem _ hs)).bind fun rest' hrest' ↦ .ok ⟨?_, ?_⟩
    · exact forall_mem_cons.mpr ⟨hslave.setList hbalanced hon, hrest'.1⟩
    · rw [heldAll, heldAll, hrest'.2, held_eq, held_eq slave]
      rw [hheld]

theorem ensures_receiveTick (h : Arranged true 0 t) {countUsec : ℕ}
    (hlt : t.held + tickQuota countUsec t.maxRate < 2 ^ 31) :
    Ensures ThrottleFault.IsList (receiveTick countUsec t) fun t' ↦
      Arranged true 0 t' ∧ t'.held ≤ t.held + tickQuota countUsec t.maxRate := by
  refine .either not_false ?_
  refine (ensures_receiveQuota _ _ t h hlt).always.bind fun r hr ↦ .ok ⟨hr.1, ?_⟩
  omega

theorem ensures_enable_root (h : Arranged on 0 t) {now : ℕ}
    (hlt : t.held + tickQuota (min now 1000000) t.maxRate < 2 ^ 31) :
    Ensures ThrottleFault.IsList (t.enable now) fun t' ↦
      Arranged true 0 t' ∧ t'.held ≤ t.held + tickQuota (min now 1000000) t.maxRate := by
  refine (ensures_enableList h.balanced).always.bind ?_
  rintro t' ⟨list, rfl, hbalanced, hheld, hon⟩
  refine (ensures_enableSlaves t.slaves h.slaves).always.bind fun slaves hslaves ↦ ?_
  have harranged : Arranged true 0 { t with list := list, slaves := slaves } :=
    ⟨hbalanced, nofun, fun _ ↦ hon, nofun, hslaves.1⟩
  have hsum : held { t with list := list, slaves := slaves } = t.held := by
    rw [held_eq, held_eq t]
    rw [hheld, hslaves.2]
  rw [← hsum] at hlt ⊢
  exact ensures_receiveTick harranged hlt

theorem arranged_disable (h : Arranged on 0 t) : Arranged false 0 t.disable ∧ t.disable.held ≤ t.held := by
  obtain ⟨hbalanced, hheld, hoff⟩ := balanced_disable h.balanced
  constructor
  · refine ⟨hbalanced, nofun, fun _ ↦ hoff, nofun, fun s hs ↦ ?_⟩
    obtain ⟨slave, hslave, rfl⟩ := mem_map.mp hs
    have hslave' := h.slaves slave hslave
    exact hslave'.setList (balanced_disable hslave'.balanced).1 (balanced_disable hslave'.balanced).2.2
  have hslaves : heldAll (t.slaves.map fun slave ↦ { slave with list := slave.list.disable }) ≤ heldAll t.slaves := by
    have hall : ∀ s ∈ t.slaves, s.list.Balanced := fun s hs ↦ (h.slaves s hs).balanced
    generalize t.slaves = l at hall
    induction l with
    | nil => exact le_rfl
    | cons slave rest ih =>
      have hrest := ih fun s hs ↦ hall s (mem_cons_of_mem _ hs)
      have hslave := (balanced_disable (hall slave mem_cons_self)).2.1
      rw [map_cons, heldAll, heldAll, held_eq, held_eq slave]
      dsimp only
      omega
  rw [held_eq, held_eq t]
  change t.unusedQuota + _ + heldAll (t.slaves.map _) ≤ _
  change t.unusedQuota + t.list.disable.held + _ ≤ _
  omega

theorem Arranged.setRate (h : Arranged on d t) (v : ℕ) : Arranged on d (t.setRate v) ∧ (t.setRate v).held = t.held := by
  refine ⟨⟨⟨h.balanced.outstanding, h.balanced.split, h.balanced.size_eq, h.balanced.disabled_held,
    h.balanced.disabled_split⟩, h.isRoot, h.upper, h.lower, h.slaves⟩, ?_⟩
  rw [held_eq, held_eq t]
  rfl

theorem ensures_setMaxRate_slave (h : Arranged on d t) (hd : 0 < d) (v now : ℕ) :
    Ensures ThrottleFault.IsList (t.setMaxRate v now) fun t' ↦ Arranged on d t' ∧ t'.held ≤ t.held := by
  refine .either (.ok ⟨h, le_rfl⟩) (.either not_false ?_)
  rw [if_pos (by rw [h.isRoot hd]; rfl)]
  exact ⟨(h.setRate v).1, (h.setRate v).2.le⟩

theorem ensures_setMaxRate_root (h : Arranged on 0 t) {v now : ℕ}
    (hlt : t.held + (if t.maxRate = 0 then tickQuota (min now 1000000) v else 0) < 2 ^ 31) :
    Ensures ThrottleFault.IsList (t.setMaxRate v now) fun t' ↦ (∃ on', Arranged on' 0 t') ∧
      t'.held ≤ t.held + if t.maxRate = 0 then tickQuota (min now 1000000) v else 0 := by
  have hrate := h.setRate v
  refine .either ⟨⟨on, h⟩, le_add_right _ _⟩ (.either not_false ?_)
  refine .either ⟨⟨on, hrate.1⟩, hrate.2 ▸ le_add_right _ _⟩ ?_
  refine .ite (fun hzero ↦ ?_) fun _ ↦ .either ?_ ?_
  · rw [if_pos hzero, ← hrate.2] at hlt
    rw [if_pos hzero, ← hrate.2]
    exact (ensures_enable_root hrate.1 hlt).mono fun t' ht' ↦ ⟨⟨true, ht'.1⟩, ht'.2⟩
  · have hoff := arranged_disable hrate.1
    rw [hrate.2] at hoff
    exact ⟨⟨false, hoff.1⟩, le_add_right_of_le hoff.2⟩
  · exact ⟨⟨on, hrate.1⟩, hrate.2 ▸ le_add_right _ _⟩

structure IsNewSlave (t s : Throttle) : Prop where
  balanced : s.list.Balanced
  enabled : s.list.enabled = t.list.enabled
  isRoot : s.isRoot = false
  slaves : s.slaves = []
  held : s.held = 0

theorem ensures_newSlave (t : Throttle) : Gives t.newSlave (IsNewSlave t) := by
  have hempty : ({} : ThrottleList).Balanced := ⟨rfl, ⟨le_rfl, nofun, nofun⟩, rfl, fun _ ↦ rfl, fun _ ↦ rfl⟩
  refine .ite (fun hon ↦ (ensures_enableList hempty).mono ?_) fun hoff ↦ .ok ?_
  · rintro s ⟨list, rfl, hbalanced, hheld, hlist⟩
    exact ⟨hbalanced, hlist.trans hon.symm, rfl, rfl, by rw [held, hheld]; rfl⟩
  · exact ⟨hempty, ((Bool.not_eq_true _).mp hoff).symm, rfl, rfl, rfl⟩

theorem ensures_createSlave (h : Arranged on d t) (hd : 0 < d → t.list.enabled = true) :
    Ensures ThrottleFault.IsList t.createSlave fun t' ↦ Arranged on d t' ∧ t'.held ≤ t.held := by
  refine (ensures_newSlave t).always.bind fun s hs ↦ .ok ⟨⟨h.balanced, h.isRoot, h.upper, h.lower, ?_⟩, ?_⟩
  · intro u hu
    rcases mem_append.mp hu with hu | hu
    · exact h.slaves u hu
    rw [mem_singleton.mp hu]
    refine ⟨hs.balanced, fun _ ↦ hs.isRoot, fun hle ↦ ?_, fun hlt ↦ ?_, by rw [hs.slaves]; exact nofun⟩
    · exact hs.enabled.trans (h.upper (by omega))
    · exact hs.enabled.trans (hd (by omega))
  · rw [held_eq, held_eq t]
    dsimp only
    rw [heldAll_eq, heldAll_eq, map_append, List.sum_append, map_singleton, sum_singleton, hs.held]
    omega

theorem ensures_onList (h : Arranged on d t) (hlt : t.held < 2 ^ 31) {op : ListOp} (hop : op.Admissible t.list) :
    Ensures ThrottleFault.IsList (do .ok { t with list := ← op.apply t.list }) fun t' ↦
      Arranged on d t' ∧ t'.held ≤ t.held := by
  have hle := held_list_le t
  refine (ListOp.ensures_apply h.balanced (by omega) hop).always.bind fun list hlist ↦ .ok ⟨⟨hlist.balanced,
    h.isRoot, fun hd ↦ hlist.enabled_eq.trans (h.upper hd), fun hd ↦ hlist.enabled_eq.trans (h.lower hd), h.slaves⟩, ?_⟩
  have := hlist.held_le
  rw [held_eq, held_eq t]
  dsimp only
  omega

theorem ensures_step (h : t.Sound) {e : ThrottleEvent} (he : e.Admissible t) :
    Ensures ThrottleFault.IsList (step e t) fun t' ↦ t'.Sound ∧ t'.held ≤ t.held + e.granted t := by
  have hgranted := he.granted_lt
  -- an event that gives nothing
  have hkept {r : Except ThrottleFault Throttle} {on : Bool} (hr : Ensures ThrottleFault.IsList r fun t' ↦
      Arranged on 0 t' ∧ t'.held ≤ t.held) :
      Ensures ThrottleFault.IsList r fun t' ↦ t'.Sound ∧ t'.held ≤ t.held + e.granted t :=
    hr.mono fun t' ht' ↦ ⟨ht'.1.sound, le_add_right_of_le ht'.2⟩
  cases e with
  | onList path op =>
    refine hkept (Arranged.modifyAt h fun s hs harranged ↦ ?_)
    have hle := held_at? hs
    exact ensures_onList harranged (by omega) (he.onList path op s rfl hs)
  | createSlave path =>
    refine hkept (Arranged.modifyAt h fun s hs harranged ↦ ensures_createSlave harranged fun hd ↦ ?_)
    exact he.createSlave path s rfl (fun hnil ↦ by rw [hnil] at hd; exact absurd hd (by decide)) hs
  | setMaxRate path v now =>
    cases path with
    | nil =>
      refine (ensures_setMaxRate_root h hgranted).mono fun t' ⟨⟨on, harranged⟩, hle⟩ ↦ ?_
      exact ⟨harranged.sound, hle⟩
    | cons i path =>
      refine hkept (Arranged.modifyAt h fun s hs harranged ↦ ensures_setMaxRate_slave harranged ?_ v now)
      rw [length_cons]
      omega
  | tick countUsec =>
    refine .ite (fun hon ↦ ?_) fun _ ↦ .ok ⟨h, le_add_right _ _⟩
    rw [Sound, hon] at h
    exact (ensures_receiveTick h hgranted).mono fun t' ht' ↦ ⟨ht'.1.sound, ht'.2⟩

theorem sound_createThrottle : createThrottle.Sound := by
  have hempty : createThrottle.list.Balanced := ⟨rfl, ⟨le_rfl, nofun, nofun⟩, rfl, fun _ ↦ rfl, fun _ ↦ rfl⟩
  have harranged : Arranged false 0 createThrottle := ⟨hempty, nofun, fun _ ↦ rfl, nofun, nofun⟩
  exact harranged.sound

theorem Arranged.at? (h : Arranged on d t) (hs : t.at? path = some s) : Arranged on (d + path.length) s := by
  induction path generalizing t d with
  | nil => exact Option.some.inj hs ▸ h
  | cons i path ih =>
    obtain ⟨slave, hslave, hs⟩ := Option.bind_eq_some_iff.mp hs
    have hrest := ih (h.slaves slave (mem_of_getElem? hslave)) hs
    rwa [show d + 1 + path.length = d + (i :: path).length by rw [length_cons]; omega] at hrest

/-- After every run of admissible events no fault of `throttle_list.cc` has been met, and in every throttle of the tree
the outstanding quota is that of the nodes and the nodes before the split are the active ones. The values of
`update_quota` and `receive_quota` are by how much the quota changes, and no event gives more than its tick. -/
theorem run_conserves (events : List ThrottleEvent)
    (h : Along step (fun e t ↦ e.Admissible t) events createThrottle) :
    Ensures ThrottleFault.IsList (run events createThrottle) fun t ↦
      (∀ path s, t.at? path = some s →
        s.list.outstandingQuota = sumQuota s.list.nodes ∧ Split s.list.splitActive s.list.nodes ∧
        (t.list.enabled = true → ∀ quota fraction, t.held + quota < 2 ^ 31 →
          Ensures (fun _ ↦ True) (s.list.updateQuota quota) (fun r ↦ (r.2.held : ℤ) = s.list.held + r.1) ∧
          Ensures (fun _ ↦ True) (s.receiveQuota quota fraction) (fun r ↦ (r.2.held : ℤ) = s.held + r.1))) ∧
      ∀ e, ThrottleEvent.Admissible e t →
        Ensures ThrottleFault.IsList (step e t) fun t' ↦ t'.held ≤ t.held + e.granted t := by
  have hrun : Ensures ThrottleFault.IsList (run events createThrottle) Sound :=
    ensures_forEach_along (fun e t ht he ↦ (ensures_step ht he).mono fun t' ht' ↦ ht'.1) events sound_createThrottle h
  refine hrun.mono fun t ht ↦ ⟨fun path s hs ↦ ?_, fun e he ↦ (ensures_step ht he).mono fun t' ht' ↦ ht'.2⟩
  have harranged := Arranged.at? ht hs
  refine ⟨harranged.balanced.outstanding, harranged.balanced.split, fun hon quota fraction hlt ↦ ?_⟩
  rw [hon] at harranged
  have hle := held_at? hs
  have hlist := held_list_le s
  constructor
  · exact (ensures_updateQuota harranged.balanced harranged.enabled (by omega)).mono fun r hr ↦ hr.2.2.1
  · exact (ensures_receiveQuota quota fraction s harranged (by omega)).mono fun r hr ↦ hr.2.1

theorem run_conserves_slave : Ensures ThrottleFault.IsList
      (run [.createSlave [], .onList [0] (.insert 7), .setMaxRate [] 1000000 5000000] createThrottle) fun t ↦
        ∀ s, t.at? [0] = some s → s.list.outstandingQuota = sumQuota s.list.nodes := by
  have hadmissible : Along step (fun e t ↦ e.Admissible t)
      [.createSlave [], .onList [0] (.insert 7), .setMaxRate [] 1000000 5000000] createThrottle := by
    refine ⟨⟨by decide, nofun, fun path _ hpath hne ↦ ?_⟩, ?_⟩
    · cases hpath
      exact absurd rfl hne
    rintro t₁ ⟨⟩
    refine ⟨⟨by decide, ?_, nofun⟩, ?_⟩
    · rintro _ _ s ⟨⟩ _
      trivial
    · rintro t₂ ⟨⟩
      exact ⟨⟨by decide, nofun, nofun⟩, fun _ _ ↦ trivial⟩
  exact (run_conserves _ hadmissible).mono fun t ht s hs ↦ (ht.1 [0] s hs).1

/-- The slave of a slave is not enabled with the root, but it is given quota. And a quota that does not fit in an
`int32_t` is returned as a negative amount. -/
theorem run_nested_slave :
    (run [.createSlave [], .createSlave [0], .setMaxRate [] 1000000 5000000, .tick 1000000, .tick 1000000]
        createThrottle).map (fun _ ↦ ()) =
      .error (.list "ThrottleList::update_quota(...) called but the object is not enabled.") ∧
    (updateQuota 3000000000 { enabled := true }).map Prod.fst = .ok (-1294967296) := by
  decide +kernel

end Throttle

end LibTorrent
