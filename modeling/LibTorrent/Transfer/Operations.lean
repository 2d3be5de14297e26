import LibTorrent.Transfer.Phase
import Mathlib.Data.List.TakeWhile

namespace LibTorrent

open Block Function Kept Lib.Outcome Lib.Store List Option World

variable {H : Prop} {w w' : World} {b t : ℕ} {x : BlockTransfer} {off : ℕ → ℕ}

def givenUp (x : BlockTransfer) : Option BlockTransfer :=
  if x.peerInfo = none then none else some { x with block := none }

/-- Block `b` gave up the transfers of the list; its own lists are as they were. -/
structure Invalidated (b : ℕ) (l : List ℕ) (w w' : World) : Prop where
  heap : ∀ t, w'.heap t = if t ∈ l then (w.heap t).bind givenUp else w.heap t
  block : w'.blocks b = { w.blocks b with notStalled := (w'.blocks b).notStalled }
  other : ∀ b' ≠ b, w'.blocks b' = w.blocks b'
  next : w'.next = w.next
  kept : Kept w w'

theorem toNat_sub_one {a : UInt32} (h : a ≠ 0) : (a - 1).toNat = a.toNat - 1 := by
  have h0 : a.toNat ≠ 0 := fun hn ↦ h (UInt32.toNat.inj hn)
  have h1 : (1 : UInt32).toNat = 1 := rfl
  rw [UInt32.toNat_sub_of_le _ _ (UInt32.le_iff_toNat_le.mpr (by omega)), h1]

theorem weight_fresh (b : ℕ) (x : BlockTransfer) :
    weight (Fresh b) (some x) = if x.block = some b ∧ x.stall = 0 then 1 else 0 := by
  simp [weight, Fresh]

theorem tally_pos (h : t < w.next) (hx : w.heap t = some x) (hb : x.block = some b) (hs : x.stall = 0) :
    0 < tally w.heap w.next (Fresh b) := by
  have hw := weight_le_tally w.heap (Fresh b) h
  rw [hx, weight_fresh, if_pos ⟨hb, hs⟩] at hw
  exact hw

section

variable (h : Balanced off w) (ht : t < w.next) (hx : w.heap t = some x) (hb : x.block = some b)
include h ht hx hb

theorem Balanced.leave (hs : x.stall = 0) (hoff : off b = 0) (o : Option BlockTransfer)
    (ho : ∀ b, weight (Fresh b) o = 0) :
    Balanced off { w with
      heap := update w.heap t o
      blocks := update w.blocks b { w.blocks b with notStalled := (w.blocks b).notStalled - 1 } } := by
  intro b'
  have htally := tally_update w.heap (Fresh b') ht o
  rw [ho b', hx, weight_fresh] at htally
  have hbal := h b'
  by_cases hbb : b' = b
  · subst hbb
    rw [if_pos ⟨hb, hs⟩] at htally
    simp only [update_self]
    rw [toNat_sub_one (fun h0 ↦ by rw [h0, UInt32.toNat_zero] at hbal; omega)]
    omega
  rw [if_neg fun hc ↦ hbb (mem_unique hc.1 hb)] at htally
  simp only [update_of_ne hbb]
  omega

theorem Balanced.leave_unit (hoff : off b = 0) (o : Option BlockTransfer) (ho : ∀ b, weight (Fresh b) o = 0) :
    Balanced off { w with
      heap := update w.heap t o
      blocks := update w.blocks b
        { w.blocks b with notStalled := (w.blocks b).notStalled - stallUnit x } } := by
  by_cases hs : x.stall = 0
  · rw [stallUnit, if_pos hs]
    exact h.leave ht hx hb hs hoff o ho
  rw [stallUnit, if_neg hs, UInt32.sub_zero]
  intro b'
  have htally := tally_update w.heap (Fresh b') ht o
  rw [ho b', hx, weight_fresh, if_neg fun hc ↦ hs hc.2] at htally
  have hb' := h b'
  simp only [update_eq_self]
  omega

end

theorem ensures_cancelTransfer {p : ℕ} (hx : w.heap t = some x) (hp : x.peerInfo = some p) :
    Safely H (cancelTransfer p t w) fun w' ↦
      w'.heap = w.heap ∧ w'.blocks = w.blocks ∧ w'.next = w.next ∧ Kept w w' := by
  rw [cancelTransfer, get_eq hx, ok_bind, if_neg (by simp [hp])]
  split_ifs
  · exact ⟨rfl, rfl, rfl, refl w⟩
  · exact ⟨rfl, rfl, rfl, setPeer rfl⟩

variable {y : BlockTransfer} {l : List ℕ}

/-- The counter may go down for a transfer that is fresh and leaves the block, whose
cell then holds `o`. -/
theorem ensures_takeNotStalled {m : String} (hx : w.heap t = some x) (ht : t < w.next)
    (hbal : H → Balanced off w) (hy : y.stall = x.stall)
    (hfresh : H → x.stall = 0 → x.block = some b ∧ off b = 0) (hweight : ∀ b, weight (Fresh b) (some y) = 0) :
    Safely H (takeNotStalled m b x (w.put t y)) fun w' ↦
      w'.heap = update w.heap t (some y) ∧
      w'.blocks b = { w.blocks b with notStalled := (w'.blocks b).notStalled } ∧
      (∀ b' ≠ b, w'.blocks b' = w.blocks b') ∧ w'.next = w.next ∧ w'.peers = w.peers ∧ Kept w w' ∧ (H → Balanced off w') := by
  rw [takeNotStalled]
  by_cases hs : x.stall = 0
  · split_ifs with h0
    · intro hbad
      rcases hbad with hbad | ⟨hH, -⟩
      · exact absurd hbad (by simp)
      obtain ⟨hb, hoff⟩ := hfresh hH hs
      have hpos := tally_pos ht hx hb hs
      have hb' := hbal hH b
      rw [blocks_put] at h0
      rw [h0, UInt32.toNat_zero] at hb'
      omega
    · refine ⟨rfl, by simp, fun b' hbb ↦ by simp [update_of_ne hbb], rfl, rfl, put.trans setBlock, fun hH ↦ ?_⟩
      · obtain ⟨hb, hoff⟩ := hfresh hH hs
        exact (hbal hH).leave ht hx hb hs hoff _ hweight
  · rw [if_neg hs]
    refine ⟨rfl, rfl, fun b' _ ↦ rfl, rfl, rfl, put, fun hH ↦ (hbal hH).of_same rfl (fun _ ↦ rfl) fun s b' ↦ ?_⟩
    by_cases hst : s = t
    · subst hst
      simp [hx, Fresh, hy, hs]
    · simp [update_of_ne hst]

theorem ensures_dropTransfer (hy : w.heap t = some y) (hb : y.block = none)
    (hp : y.peerInfo = x.peerInfo) (ht : t < w.next) (hbal : H → Balanced off w) :
    Safely H (dropTransfer t x w) fun w' ↦
      (∀ s, w'.heap s = if s = t then givenUp y else w.heap s) ∧ w'.blocks = w.blocks ∧ w'.next = w.next ∧
        Kept w w' ∧ (H → Balanced off w') := by
  rw [dropTransfer]
  cases hx : x.peerInfo with
  | none =>
    rw [hx] at hp
    rw [deleteTransfer, get_eq hy, ok_bind, if_neg (by simp [hb]), if_neg (by simp [hp])]
    refine ⟨fun s ↦ ?_, rfl, rfl, ⟨fun _ ↦ rfl, rfl, rfl⟩, fun hH b' ↦ ?_⟩
    · by_cases hst : s = t
      · subst hst
        simp [givenUp, hp]
      · simp [hst]
    have htally := tally_update w.heap (Fresh b') ht none
    rw [hy, weight_fresh, if_neg (by simp [hb])] at htally
    exact (hbal hH b').trans (by simpa [weight] using htally.symm)
  | some p =>
    rw [hx] at hp
    have hsame : ∀ s, w.heap s = if s = t then givenUp y else w.heap s := by
      intro s
      by_cases hst : s = t
      · subst hst
        rw [if_pos rfl, hy, givenUp, if_neg (by simp [hp]), ← hb]
      · rw [if_neg hst]
    simp only
    split_ifs
    · refine (ensures_cancelTransfer hy hp).mono fun w' ⟨h₁, h₂, h₃, h₄⟩ ↦ ?_
      refine ⟨fun s ↦ by rw [h₁]; exact hsame s, h₂, h₃, h₄, fun hH b' ↦ ?_⟩
      rw [h₁, h₂, h₃]
      exact hbal hH b'
    · exact ⟨hsame, rfl, rfl, refl w, hbal⟩

theorem ensures_invalidateTransfer (hx : w.heap t = some x) (ht : t < w.next)
    (hl : (w.blocks b).leader ≠ some t) (hbal : H → Balanced off w)
    (hfresh : H → x.stall = 0 → x.block = some b ∧ off b = 0) :
    Safely H (invalidateTransfer b t w) fun w' ↦
      Invalidated b [t] w w' ∧ (H → Balanced off w') := by
  rw [invalidateTransfer, if_neg hl, get_eq hx, ok_bind]
  refine (ensures_takeNotStalled (y := { x with block := none }) hx ht hbal rfl hfresh
    fun b ↦ by simp [weight_fresh]).bind ?_
  intro w₁ ⟨hheap, hblock, hother, hnext, hpeers, hkept, hbal₁⟩
  have hx₁ : w₁.heap t = some { x with block := none } := by rw [hheap, update_self]
  refine (ensures_dropTransfer hx₁ rfl rfl (hnext ▸ ht) hbal₁).mono ?_
  intro w₂ ⟨h₁, h₂, h₃, h₄, h₅⟩
  refine ⟨⟨fun s ↦ ?_, by rw [h₂]; exact hblock, by rw [h₂]; exact hother, h₃.trans hnext, hkept.trans h₄⟩, h₅⟩
  rw [h₁]
  by_cases hst : s = t
  · subst hst
    simp [hx, givenUp]
  · simp [hst, hheap]

theorem ensures_forEach_invalidate (hnodup : l.Nodup) (hx : ∀ t ∈ l, w.heap t ≠ none)
    (ht : ∀ t ∈ l, t < w.next) (hl : ∀ t ∈ l, (w.blocks b).leader ≠ some t) (hbal : H → Balanced off w)
    (hfresh : H → ∀ t ∈ l, ∀ x, w.heap t = some x → x.stall = 0 → x.block = some b ∧ off b = 0) :
    Safely H (forEach (invalidateTransfer b) l w) fun w' ↦
      Invalidated b l w w' ∧ (H → Balanced off w') := by
  induction l generalizing w with
  | nil => exact ⟨⟨fun t ↦ by simp, rfl, fun b' _ ↦ rfl, rfl, refl w⟩, hbal⟩
  | cons t l ih =>
    rw [nodup_cons] at hnodup
    obtain ⟨x, hxt⟩ := ne_none_iff_exists'.mp (hx t mem_cons_self)
    have hone := ensures_invalidateTransfer hxt (ht t mem_cons_self) (hl t mem_cons_self) hbal
      fun hH ↦ hfresh hH t mem_cons_self x hxt
    refine hone.bind fun w₁ ⟨h₁, hbal₁⟩ ↦ ?_
    have hsame : ∀ s ∈ l, w₁.heap s = w.heap s := by
      intro s hs
      have hne : s ≠ t := fun h ↦ hnodup.1 (h ▸ hs)
      rw [h₁.heap, if_neg (by simpa using hne)]
    refine (ih hnodup.2 ?_ ?_ ?_ hbal₁ ?_).mono fun w₂ ⟨h₂, hbal₂⟩ ↦
      ⟨⟨fun s ↦ ?_, ?_, fun b' hbb ↦ ?_, ?_, ?_⟩, hbal₂⟩
    · exact fun s hs ↦ by rw [hsame s hs]; exact hx s (mem_cons_of_mem t hs)
    · exact fun s hs ↦ by rw [h₁.next]; exact ht s (mem_cons_of_mem t hs)
    · exact fun s hs ↦ by rw [h₁.block]; exact hl s (mem_cons_of_mem t hs)
    · exact fun hH s hs y hy ↦ hfresh hH s (mem_cons_of_mem t hs) y (by rwa [hsame s hs] at hy)
    · rw [h₂.heap, h₁.heap]
      by_cases hst : s = t
      · subst hst
        simp [hnodup.1]
      · simp [hst]
    · rw [h₂.block, h₁.block]
    · rw [h₂.other b' hbb, h₁.other b' hbb]
    · exact h₂.next.trans h₁.next
    · exact h₁.kept.trans h₂.kept

/-- The stable partition of the transfers: those not kept are given up and leave the list. -/
structure Removed (b : ℕ) (keep : ℕ → Bool) (w w' : World) : Prop where
  heap : ∀ t, w'.heap t =
    if t ∈ (w.blocks b).transfers ∧ keep t = false then (w.heap t).bind givenUp else w.heap t
  block : w'.blocks b = { w.blocks b with
    transfers := (w.blocks b).transfers.filter keep, notStalled := (w'.blocks b).notStalled }
  other : ∀ b' ≠ b, w'.blocks b' = w.blocks b'
  next : w'.next = w.next
  kept : Kept w w'

theorem followAll_eq (h : ∀ t ∈ l, w.heap t ≠ none) : followAll l w = .ok w := by
  rw [followAll, if_pos]
  rw [List.all_eq_true]
  exact fun t ht ↦ isSome_iff_ne_none.mpr (h t ht)

theorem ensures_removeTransfers {keep : ℕ → Bool} (hx : ∀ t ∈ (w.blocks b).transfers, w.heap t ≠ none)
    (ht : ∀ t ∈ (w.blocks b).transfers, t < w.next) (hnodup : (w.blocks b).transfers.Nodup)
    (hl : ∀ t ∈ (w.blocks b).transfers, keep t = false → (w.blocks b).leader ≠ some t)
    (hbal : H → Balanced off w)
    (hfresh : H → ∀ t ∈ (w.blocks b).transfers, keep t = false → ∀ x, w.heap t = some x → x.stall = 0 →
      x.block = some b ∧ off b = 0) :
    Safely H (removeTransfers b keep w) fun w' ↦
      Removed b keep w w' ∧ (H → Balanced off w') := by
  rw [removeTransfers, followAll_eq hx, ok_bind]
  have hmem : ∀ t, t ∈ (w.blocks b).transfers.filter (fun t ↦ !keep t) ↔
      t ∈ (w.blocks b).transfers ∧ keep t = false := by
    intro t
    simp
  have hbal₁ : H → Balanced off (w.setBlock b { w.blocks b with
      transfers := (w.blocks b).transfers.filter keep ++ (w.blocks b).transfers.filter fun t ↦ !keep t }) := fun hH ↦
    (hbal hH).of_same rfl (fun b' ↦ by by_cases hb : b' = b <;> simp [hb]) fun _ _ ↦ rfl
  refine (ensures_forEach_invalidate (hnodup.filter _) ?_ ?_ ?_ hbal₁ ?_).bind ?_
  · exact fun t ht' ↦ hx t ((hmem t).mp ht').1
  · exact fun t ht' ↦ ht t ((hmem t).mp ht').1
  · intro t ht'
    rw [blocks_setBlock, update_self]
    exact hl t ((hmem t).mp ht').1 ((hmem t).mp ht').2
  · exact fun hH t ht' ↦ hfresh hH t ((hmem t).mp ht').1 ((hmem t).mp ht').2
  intro w₁ ⟨h₁, hbal₂⟩
  refine .ok ⟨⟨fun t ↦ ?_, ?_, fun b' hbb ↦ ?_, h₁.next, setBlock.trans (h₁.kept.trans setBlock)⟩,
    fun hH ↦ (hbal₂ hH).of_same rfl (fun b' ↦ by by_cases hb : b' = b <;> simp [hb]) fun _ _ ↦ rfl⟩
  · rw [heap_setBlock, h₁.heap, heap_setBlock]
    simp only [hmem]
  · have hblock := h₁.block
    rw [blocks_setBlock, update_self] at hblock
    rw [blocks_setBlock, update_self, hblock]
  have hother := h₁.other b' hbb
  rw [blocks_setBlock, update_of_ne hbb] at hother
  rw [blocks_setBlock, update_of_ne hbb, hother]

open Advance Phase

variable {H C : Prop} {gone busy : ℕ → Prop} {φ : ℕ → Phase}

theorem Settled.move {B B' : Block} {f : Phase} (h : Settled B b φ) (hstate : B'.state = B.state)
    (hf : f ≠ .completed b) (hlead : f = .leading b → B.state ≠ .completed)
    (hled : B.state = .completed → B'.leader ≠ none) (hq : B'.queued.Nodup) (ht : B'.transfers.Nodup) :
    Settled B' b (update φ t f) := by
  refine ⟨fun s hs ↦ ?_, fun s hs ↦ ?_, fun hc ↦ hled (hstate ▸ hc), hq, ht⟩
  · by_cases hst : s = t
    · rw [hst, update_self] at hs
      exact absurd hs hf
    rw [update_of_ne hst] at hs
    rw [hstate]
    exact h.completed s hs
  rw [hstate]
  by_cases hst : s = t
  · rw [hst, update_self] at hs
    exact hlead hs
  · rw [update_of_ne hst] at hs
    exact h.leading s hs

theorem any_fresh_update {y : BlockTransfer} (hx : w.heap t = some x) (hb : y.block = x.block)
    (hs : y.stall = x.stall) (s b : ℕ) :
    (update w.heap t (some y) s).any (Fresh b) = (w.heap s).any (Fresh b) := by
  by_cases hst : s = t
  · subst hst
    simp [hx, Fresh, hb, hs]
  · simp [update_of_ne hst]

section

variable (h : Tracks w φ)
include h

theorem Advance.single {B' : Block} {f : Phase} {o : Option BlockTransfer}
    (hheap : w'.heap = update w.heap t o) (hblocks : w'.blocks = update w.blocks b B')
    (hnext : w'.next = w.next) (hkept : Kept w w') (hbal : H → Level w')
    (hsettled : Settled B' b (update φ t f)) (hgone : ∀ s, gone s → s = t)
    (hq : ∀ s ≠ t, s ∈ B'.queued ↔ s ∈ (w.blocks b).queued)
    (ht : ∀ s ≠ t, s ∈ B'.transfers ↔ s ∈ (w.blocks b).transfers)
    (hl : ∀ s ≠ t, B'.leader = some s ↔ (w.blocks b).leader = some s)
    (home : (φ t).home = some b) (home' : f.home = none ∨ f.home = some b) (hshow : f.Shows o)
    (hqt : t ∈ B'.queued ↔ f = .queued b) (htt : t ∈ B'.transfers ↔ f.active = some b)
    (hlt : B'.leader = some t ↔ f = .leading b ∨ f = .completed b)
    (hheld : f.Held ↔ (φ t).Held ∧ ¬ gone t) (hrest : ¬ busy t → ¬ gone t → (φ t).Resting → f.Resting)
    (hclean : C → ¬ (φ t).Leftover → ¬ f.Leftover)
    (hpeer : f.Held → o.map BlockTransfer.peerInfo = (w.heap t).map BlockTransfer.peerInfo)
    (hfresh : ∀ c, f ≠ .queued c) : Advance H C gone busy w φ w' (update φ t f) := by
  have hB : w'.blocks b = B' := by rw [hblocks, update_self]
  refine of_block h (fun b' hb' ↦ by rw [hblocks, update_of_ne hb']) hnext hkept hbal
    (hB ▸ hsettled) fun s ↦ ?_
  by_cases hst : s = t
  · right
    subst hst
    refine ⟨home, ?_, ?_, ?_, ?_, ?_, ?_, ?_, ?_, ?_, fun c ↦ ?_⟩
    all_goals rw [update_self]
    · exact home'
    · rw [hheap, update_self]
      exact hshow
    · rw [hB, hqt]
    · rw [hB, htt]
    · rw [hB, hlt]
    · exact hheld
    · exact hrest
    · exact hclean
    · rw [hheap, update_self]
      exact hpeer
    · exact hfresh c
  · left
    refine ⟨by rw [update_of_ne hst], by rw [hheap, update_of_ne hst], ?_, ?_, ?_, fun hg ↦ hst (hgone s hg)⟩
    · rw [hB, hq s hst]
    · rw [hB, ht s hst]
    · rw [hB, hl s hst]

theorem advance_lead {g : Phase} {st : TransferState} {o : Option ℕ} (hbal : H → Level w) (hx : w.heap t = some x)
    (hcase : φ t = .leading b ∧ g = .waiting b ∧ st = .notLeader ∧ o = none ∨
      φ t = .waiting b ∧ (w.blocks b).leader = none ∧ g = .leading b ∧ st = .leader ∧ o = some t) :
    Calm H C w φ ((w.put t { x with state := st }).setBlock b { w.blocks b with leader := o }) (update φ t g) := by
  obtain ⟨x', hx', hp, hb, -⟩ := h.alive t (by rcases hcase with ⟨ht, -⟩ | ⟨ht, -⟩ <;> simp [ht])
  obtain rfl : x = x' := mem_unique hx hx'
  have hpl := h.placed t
  have hs := h.settled b
  have hfresh := any_fresh_update (y := { x with state := st }) hx rfl rfl
  obtain ⟨ht, rfl, rfl, rfl⟩ | ⟨ht, hl, rfl, rfl, rfl⟩ := hcase
  all_goals
    rw [ht] at hb hpl
    refine single h rfl rfl rfl ⟨fun _ ↦ rfl, rfl, rfl⟩
      (fun hH ↦ (hbal hH).of_same rfl (fun b' ↦ by by_cases hb : b' = b <;> simp [hb]) hfresh) ?_ (by simp)
      (fun s _ ↦ .rfl) (fun s _ ↦ .rfl) (fun s hst ↦ ?_) (by rw [ht]; rfl) (.inr rfl) ⟨hp, hb, rfl⟩ (by simp [hpl.queued])
      (by simp [hpl.transfers, active]) (by simp) (by simp [ht, Phase.Held]) (by simp [ht, Phase.Resting])
      (by simp [Phase.Leftover]) (by simp [hx]) (by simp)
  · exact hs.move rfl (by simp) (by simp) (fun hc ↦ absurd hc (hs.leading t ht)) hs.nodupQueued hs.nodupTransfers
  · simp [(hpl.leader b).mpr (.inl rfl), Ne.symm hst]
  · exact hs.move rfl (by simp) (fun _ hc ↦ hs.led hc hl) (by simp) hs.nodupQueued hs.nodupTransfers
  · simp [hl, Ne.symm hst]

theorem ensures_transfering (hbal : H → Level w) (ht : φ t = .queued b) : Safely H (transfering b t w) fun r ↦
      ∃ φ', Advance H C (fun _ ↦ False) (· = t) w φ r.2 φ' ∧ ∀ c, φ' t ≠ .queued c := by
  obtain ⟨x, hx, hp, hb, hf⟩ := h.alive t (by simp [ht])
  have hpl := h.placed t
  rw [ht] at hb hf hpl
  have hs := h.settled b
  have herase : ∀ s, s ∈ (w.blocks b).queued.erase t ↔ s ≠ t ∧ s ∈ (w.blocks b).queued := fun s ↦
    hs.nodupQueued.mem_erase_iff
  have hnt : t ∉ (w.blocks b).transfers := by simp [hpl.transfers, active]
  have hnodup : ((w.blocks b).transfers ++ [t]).Nodup :=
    List.concat_eq_append ▸ hs.nodupTransfers.concat hnt
  rw [transfering, get_eq hx, ok_bind, if_neg (by simp [hb, block]), if_neg (by simp [hpl.queued])]
  simp only [blocks_setBlock, update_self]
  have hwait : Advance H C (fun _ ↦ False) (· = t) w φ
      ((w.setBlock b { w.blocks b with
        queued := (w.blocks b).queued.erase t, transfers := (w.blocks b).transfers ++ [t] }).put t
        { x with state := .notLeader }) (update φ t (.waiting b)) := by
    refine single h rfl rfl rfl ⟨fun _ ↦ rfl, rfl, rfl⟩ ?_ ?_ (by simp) ?_ ?_ (fun s _ ↦ .rfl) ?_ (.inr rfl) ?_ ?_ ?_ ?_
      ?_ ?_ ?_ ?_ (by simp)
    · exact fun hH ↦ (hbal hH).of_same rfl (fun b' ↦ by by_cases hb : b' = b <;> simp [hb]) (any_fresh_update hx rfl rfl)
    · exact hs.move rfl (by simp) (by simp) hs.led (hs.nodupQueued.erase t) hnodup
    · exact fun s hst ↦ by simp [herase, hst]
    · exact fun s hst ↦ by simp [hst]
    · rw [ht]; rfl
    · exact ⟨hp, by rw [hb]; rfl, rfl⟩
    · simp [herase]
    · simp [active]
    · simp [hpl.leader]
    · simp [ht, Phase.Held]
    · simp
    · simp [Phase.Leftover]
    · simp [hx]
  split_ifs with hl
  · exact ⟨_, hwait, by simp⟩
  have hlead := advance_lead (C := C) hwait.tracks hwait.balanced (update_self ..)
    (.inr ⟨update_self .., by simpa using hl, rfl, rfl, rfl⟩)
  refine ⟨update φ t (.leading b), ?_, by simp⟩
  simpa [World.setBlock, World.put] using (hwait.trans hlead).congr (by simp) (by simp)

theorem ensures_transferDissimilar (hbal : H → Level w) (ht : φ t = .waiting b) :
    Safely H (transferDissimilar b t w) fun w' ↦
      Sheds H False t w φ w' (update φ t (.dissimilar b)) := by
  obtain ⟨x, hx, hp, hb, hf⟩ := h.alive t (by simp [ht])
  have hlt := h.lt_next t (by simp [ht])
  have hpl := h.placed t
  rw [ht] at hb hf hpl
  have hs := h.settled b
  rw [transferDissimilar, get_eq hx, ok_bind]
  split_ifs with hc
  · simp [Bad, stallFault]
  refine single h rfl rfl rfl
    ⟨fun _ ↦ rfl, rfl, rfl⟩ ?_ ?_ (by simp) (fun s _ ↦ .rfl) (fun s _ ↦ .rfl) (fun s _ ↦ .rfl)
    ?_ (.inr rfl) ?_ ?_ ?_ ?_ ?_ ?_ ?_ ?_ (by simp)
  · exact fun hH ↦ (hbal hH).leave_unit hlt hx hb rfl _ fun b ↦ by simp [weight_fresh]
  · exact hs.move rfl (by simp) (by simp) hs.led hs.nodupQueued hs.nodupTransfers
  · rw [ht]; rfl
  · exact ⟨hp, rfl, rfl⟩
  · simp [hpl.queued]
  · simp [hpl.transfers, active]
  · simp [hpl.leader]
  · simp [ht, Phase.Held]
  · simp
  · simp
  · simp [Phase.Held]

theorem Advance.touch (hheap : ∀ s ≠ t, w'.heap s = w.heap s) (hshow : (φ t).Shows (w'.heap t))
    (hpeer : (w'.heap t).map BlockTransfer.peerInfo = (w.heap t).map BlockTransfer.peerInfo)
    (hblocks : ∀ b, w'.blocks b = { w.blocks b with notStalled := (w'.blocks b).notStalled })
    (hnext : w'.next = w.next) (hkept : Kept w w') (hbal : H → Level w') :
    Calm H C w φ w' φ := by
  refine ⟨⟨fun s ↦ ?_, fun b ↦ ?_, fun s hs ↦ h.next s (hnext ▸ hs)⟩, hbal, fun s ↦ by simp, fun s _ _ ↦ id,
    fun _ hclean ↦ hclean, fun s b ↦ id, fun s _ ↦ ?_, fun s b ↦ id, hkept⟩
  · have hpl := h.placed s
    refine ⟨?_, fun b ↦ ?_, fun b ↦ ?_, fun b ↦ ?_⟩
    · by_cases hst : s = t
      · rw [hst]; exact hshow
      · rw [hheap s hst]; exact hpl.shows
    · rw [hblocks]; exact hpl.queued b
    · rw [hblocks]; exact hpl.transfers b
    · rw [hblocks]; exact hpl.leader b
  · have hs := h.settled b
    rw [hblocks]
    exact ⟨hs.completed, hs.leading, hs.led, hs.nodupQueued, hs.nodupTransfers⟩
  · by_cases hst : s = t
    · rw [hst, hpeer]
    · rw [hheap s hst]

theorem ensures_adjustPosition {length : UInt32} (hbal : H → Level w) (ht : (φ t).Held) :
    Safely H (adjustPosition t length w) fun w' ↦
      Calm H C w φ w' φ := by
  obtain ⟨x, hx, hp, hb, hf⟩ := h.alive t (fun hfree ↦ by rw [hfree] at ht; exact ht)
  rw [adjustPosition, get_eq hx, ok_bind]
  refine touch (t := t) h (fun s hst ↦ by simp [update_of_ne hst]) ?_ (by simp [hx]) (fun b ↦ rfl) rfl Kept.put
    fun hH ↦ (hbal hH).of_same rfl (fun b ↦ rfl) fun s b ↦ ?_
  · rw [heap_put, update_self]
    refine ⟨hp, hb, ?_⟩
    cases hφ : φ t <;> rw [hφ] at ht hf <;> first | exact hf | exact ht.elim
  by_cases hst : s = t
  · subst hst
    simp [hx, Fresh]
  · simp [update_of_ne hst]

theorem ensures_stalled (hbal : H → Level w) (ht : (φ t).Held)
    (hstall : H → ∀ x, w.heap t = some x → x.stall ≠ 0xFFFFFFFF) :
    Safely H (stalled t w) fun w' ↦
      Calm H C w φ w' φ ∧ ∀ s ≠ t, w'.heap s = w.heap s := by
  obtain ⟨x, hx, hp, hb, hf⟩ := h.alive t (fun hfree ↦ by rw [hfree] at ht; exact ht)
  have hlt := h.lt_next t (fun hfree ↦ by rw [hfree] at ht; exact ht)
  have hfits : (φ t).Fits { x with stall := x.stall + 1 } := by
    cases hφ : φ t <;> rw [hφ] at ht hf <;> first | exact hf | exact ht.elim
  rw [stalled, get_eq hx, ok_bind]
  cases hxb : x.block with
  | none =>
    exact ⟨touch h (fun s hst ↦ rfl) (h.placed t).shows rfl (fun b ↦ rfl) rfl (Kept.refl w) hbal, fun _ _ ↦ rfl⟩
  | some b =>
    simp only
    rw [stalledTransfer, get_eq hx, ok_bind, takeNotStalled]
    have hshow : (φ t).Shows (some { x with stall := x.stall + 1 }) := ⟨hp, hb, hfits⟩
    split_ifs with hs h0
    · rintro (hbad | ⟨hH, -⟩)
      · exact absurd hbad (by simp)
      have hpos := tally_pos hlt hx hxb hs
      have hb' := hbal hH b
      simp only [h0, UInt32.toNat_zero] at hb'
      omega
    · refine ⟨touch (t := t) h (fun s hst ↦ by simp [update_of_ne hst]) (by simpa using hshow)
        (by simp [hx]) (fun b' ↦ ?_) rfl ⟨fun _ ↦ rfl, rfl, rfl⟩ fun hH ↦ ?_, fun s hst ↦ by simp [update_of_ne hst]⟩
      · by_cases hbb : b' = b
        · subst hbb
          simp
        · simp [update_of_ne hbb]
      · exact (hbal hH).leave hlt hx hxb hs rfl _ fun b' ↦ by simp [weight_fresh, hs]
    · refine ⟨touch (t := t) h (fun s hst ↦ by simp [update_of_ne hst]) (by simpa using hshow)
        (by simp [hx]) (fun b' ↦ rfl) rfl ⟨fun _ ↦ rfl, rfl, rfl⟩ fun hH ↦ (hbal hH).of_same rfl (fun b ↦ rfl) ?_,
        fun s hst ↦ by simp [update_of_ne hst]⟩
      intro s b'
      by_cases hst : s = t
      · subst hst
        have hne : x.stall + 1 ≠ 0 := by
          grind
        simp [hx, Fresh, hs, hne]
      · simp [update_of_ne hst]

theorem ensures_isFinished : Safely H (isFinished b w) fun f ↦ ∀ l, (w.blocks b).leader = some l →
      ∃ x, w.heap l = some x ∧ f = x.isFinished := by
  rw [isFinished]
  cases hl : (w.blocks b).leader with
  | none => simp
  | some l =>
    have hφ := ((h.placed l).leader b).mp hl
    obtain ⟨x, hx, -⟩ := h.alive l (by rcases hφ with hφ | hφ <;> simp [hφ])
    simp [get_eq hx, hx, Except.map]

end

section

variable (h : Tracks w φ) (hbal : H → Level w)
include h hbal

theorem ensures_changeLeader (ht : φ t = .waiting b) : Safely H (changeLeader b t w) fun w' ↦
      ∃ φ', Calm H C w φ w' φ' := by
  obtain ⟨x, hx, -⟩ := h.alive t (by simp [ht])
  rw [changeLeader]
  split_ifs with hlt
  · simp [Bad, stallFault]
  refine (ensures_isFinished h).bind fun f hfin ↦ ?_
  cases f with
  | true => simp [Bad, stallFault]
  | false =>
    cases hl : (w.blocks b).leader with
    | none =>
      simp only [Bool.false_eq_true, if_false, ok_bind, setState]
      rw [get_eq (by simpa using hx), ok_bind]
      exact ⟨_, advance_lead h hbal hx (.inr ⟨ht, hl, rfl, rfl, rfl⟩)⟩
    | some l =>
      obtain ⟨y, hy, hyfin⟩ := hfin l hl
      have hlφ : φ l = .leading b := by
        refine (((h.placed l).leader b).mp hl).resolve_right fun hc ↦ ?_
        obtain ⟨y', hy', -, -, hfits⟩ := h.alive l (by simp [hc])
        rw [hc] at hfits
        rw [mem_unique hy hy', hfits.2.2] at hyfin
        exact absurd hyfin (by simp)
      have hne : t ≠ l := fun htl ↦ by simp [htl, hlφ] at ht
      have hdown : Advance H C _ _ w φ _ _ := advance_lead h hbal hy (.inl ⟨hlφ, rfl, rfl, rfl⟩)
      have hup := advance_lead (C := C) (t := t) (x := x) hdown.tracks hdown.balanced
        (by simp [update_of_ne hne, hx]) (.inr ⟨by rw [update_of_ne hne, ht], by simp, rfl, rfl, rfl⟩)
      have hget : ∀ B, ((w.put l { y with state := .notLeader }).setBlock b B).get t = .ok x := fun B ↦
        get_eq (by simp [update_of_ne hne, hx])
      simp only [Bool.false_eq_true, if_false, setState, get_eq hy, ok_bind, hget]
      have hall : Calm H C w φ _ _ :=
        (hdown.trans hup).congr (by simp) (by simp)
      refine .ok ⟨update (update φ l (.waiting b)) t (.leading b), ?_⟩
      simpa [World.setBlock, World.put] using hall

end

open List

variable {v : World}

theorem isState_eq {s : TransferState} (hx : w.heap t = some x) : w.isState s t = decide (x.state = s) := by
  simp [World.isState, hx]

theorem maxPosition_spec (h : maxPosition w l = some t) : t ∈ l ∧ ∀ s ∈ l, w.positionOf s ≤ w.positionOf t := by
  cases l with
  | nil => simp [maxPosition] at h
  | cons a l =>
    rw [maxPosition, some.injEq] at h
    subst h
    induction l generalizing a with
    | nil => simp
    | cons c l ih =>
      rw [foldl_cons]
      split_ifs with hlt
      · refine ⟨mem_cons_of_mem a (ih c).1, forall_mem_cons.mpr ⟨?_, (ih c).2⟩⟩
        exact UInt32.le_trans (UInt32.le_of_lt hlt) ((ih c).2 c mem_cons_self)
      have hall := forall_mem_cons.mp (ih a).2
      refine ⟨?_, forall_mem_cons.mpr ⟨hall.1, forall_mem_cons.mpr ⟨?_, hall.2⟩⟩⟩
      · exact mem_cons.mpr ((mem_cons.mp (ih a).1).imp_right (mem_cons_of_mem c))
      · exact UInt32.le_trans (UInt32.not_lt.mp hlt) hall.1

theorem maxPosition_eq_none (h : maxPosition w l = none) : l = [] := by
  cases l with
  | nil => rfl
  | cons a l => simp [maxPosition] at h

theorem partitioned_perm (w : World) (l : List ℕ) : (partitioned w l).Perm l := by
  have hfilter := filter_append_perm (w.isState .notLeader) (l.dropWhile (w.isState .leader))
  refine (hfilter.append_left _).trans ?_
  rw [takeWhile_append_dropWhile]

theorem mem_candidates : t ∈ candidates w l ↔ t ∈ l ∧ w.isState .notLeader t = true := by
  rw [candidates, mem_filter]
  refine and_congr_left fun hn ↦ ⟨fun h ↦ (dropWhile_sublist _).subset h, fun h ↦ ?_⟩
  rw [← takeWhile_append_dropWhile (l := l), mem_append] at h
  refine h.resolve_left fun ht ↦ ?_
  -- a transfer has one state, and those in front are leaders
  have hlead := mem_takeWhile_imp ht
  rw [World.isState, Option.any_eq_true] at hn hlead
  obtain ⟨x, hx, hxs⟩ := hn
  obtain ⟨y, hy, hys⟩ := hlead
  simp_all

/-- What `erase` does after it took the leader out of the list: the furthest of the
waiting transfers leads, or there are none and the dissimilar ones are given up. -/
structure Promoted (b : ℕ) (v v' : World) : Prop where
  queued : (v'.blocks b).queued = (v.blocks b).queued
  state : (v'.blocks b).state = (v.blocks b).state
  nodup : (v'.blocks b).transfers.Nodup
  other : ∀ b' ≠ b, v'.blocks b' = v.blocks b'
  next : v'.next = v.next
  kept : Kept v v'
  cases :
    (∃ n y, n ∈ (v.blocks b).transfers ∧ v.heap n = some y ∧ y.state = .notLeader ∧
      v'.heap = update v.heap n (some { y with state := .leader }) ∧
      (∀ s, s ∈ (v'.blocks b).transfers ↔ s ∈ (v.blocks b).transfers) ∧ (v'.blocks b).leader = some n) ∨
    ((∀ s ∈ (v.blocks b).transfers, v.isState .notLeader s = false) ∧
      (∀ s, v'.heap s = if s ∈ (v.blocks b).transfers ∧ v.isState .erased s = true then (v.heap s).bind givenUp
        else v.heap s) ∧
      (∀ s, s ∈ (v'.blocks b).transfers ↔ s ∈ (v.blocks b).transfers ∧ v.isState .erased s = false) ∧
      (v'.blocks b).leader = none)

theorem ensures_promote (hx : ∀ s ∈ (v.blocks b).transfers, v.heap s ≠ none)
    (ht : ∀ s ∈ (v.blocks b).transfers, s < v.next) (hnodup : (v.blocks b).transfers.Nodup)
    (hbal : H → Balanced off v)
    (hcare : H → (∀ s ∈ (v.blocks b).transfers, v.isState .notLeader s = false) →
      ∀ s ∈ (v.blocks b).transfers, ∀ y, v.heap s = some y → y.state = .erased → y.stall ≠ 0) :
    Safely H (promote b v) fun v' ↦ Promoted b v v' ∧ (H → Balanced off v') := by
  have hperm := partitioned_perm v (v.blocks b).transfers
  rw [promote, followAll_eq hx, ok_bind]
  cases hmax : maxPosition v (candidates v (v.blocks b).transfers) with
  | some n =>
    have hn := (maxPosition_spec hmax).1
    have hnt := (mem_candidates.mp hn).1
    obtain ⟨y, hy⟩ := ne_none_iff_exists'.mp (hx n hnt)
    have hstate : y.state = .notLeader := by
      have := (mem_candidates.mp hn).2
      simpa [isState_eq hy] using this
    simp only [setState]
    rw [get_eq (by simpa using hy), ok_bind]
    refine .ok ⟨⟨by simp, by simp, ?_, fun b' hbb ↦ by simp [update_of_ne hbb], rfl,
      Kept.setBlock.trans Kept.put, .inl ⟨n, y, hnt, hy, hstate, rfl, fun s ↦ ?_, by simp⟩⟩, fun hH ↦ ?_⟩
    · simpa using hperm.nodup_iff.mpr hnodup
    · simpa using hperm.mem_iff
    · exact (hbal hH).of_same rfl (fun b' ↦ by by_cases hb : b' = b <;> simp [hb]) (any_fresh_update hy rfl rfl)
  | none =>
    have hnone : ∀ s ∈ (v.blocks b).transfers, v.isState .notLeader s = false := by
      intro s hs
      by_contra hc
      have := mem_candidates.mpr ⟨hs, Bool.not_eq_false _ ▸ hc⟩
      rw [maxPosition_eq_none hmax] at this
      exact absurd this not_mem_nil
    simp only [removeErasedTransfers]
    generalize hv : v.setBlock b { v.blocks b with
      transfers := partitioned v (v.blocks b).transfers, leader := none } = v₂
    have hB : v₂.blocks b = { v.blocks b with
        transfers := partitioned v (v.blocks b).transfers, leader := none } := by
      rw [← hv, blocks_setBlock, update_self]
    have hheap : v₂.heap = v.heap := by rw [← hv, heap_setBlock]
    have hmem : ∀ s, s ∈ (v₂.blocks b).transfers ↔ s ∈ (v.blocks b).transfers := fun s ↦ by
      rw [hB]; exact hperm.mem_iff
    have hstate : ∀ s, v₂.isState .erased s = v.isState .erased s := fun s ↦ by
      rw [World.isState, World.isState, hheap]
    refine (ensures_removeTransfers ?_ ?_ ?_ ?_ ?_ ?_).mono fun v' ⟨hr, hbal'⟩ ↦ ⟨?_, hbal'⟩
    · exact fun s hs ↦ by rw [hheap]; exact hx s ((hmem s).mp hs)
    · exact fun s hs ↦ by rw [← hv]; exact ht s ((hmem s).mp hs)
    · rw [hB]; exact hperm.nodup_iff.mpr hnodup
    · exact fun s _ _ ↦ by rw [hB]; simp
    · exact fun hH ↦ hv ▸ (hbal hH).of_same rfl (fun b' ↦ by by_cases hb : b' = b <;> simp [hb]) fun _ _ ↦ rfl
    · intro hH s hs hkeep y hy hstall
      rw [hheap] at hy
      rw [hstate, isState_eq hy] at hkeep
      exact absurd hstall (hcare hH hnone s ((hmem s).mp hs) y hy (by simpa using hkeep))
    refine ⟨?_, ?_, ?_, fun b' hbb ↦ ?_, ?_, ?_, .inr ⟨hnone, fun s ↦ ?_, fun s ↦ ?_, ?_⟩⟩
    · rw [hr.block, hB]
    · rw [hr.block, hB]
    · rw [hr.block, hB]; exact (hperm.nodup_iff.mpr hnodup).filter _
    · rw [hr.other b' hbb, ← hv, blocks_setBlock, update_of_ne hbb]
    · rw [hr.next, ← hv, next_setBlock]
    · exact Kept.trans (hv ▸ Kept.setBlock) hr.kept
    · simp [hr.heap, hheap, hmem, hstate]
    · rw [hr.block]
      simp only [mem_filter, hmem, hstate, Bool.not_eq_true']
    · rw [hr.block, hB]

end LibTorrent
