import LibTorrent.Lib.Outcome
import Mathlib.Data.List.Perm.Basic

namespace LibTorrent

open Lib.Outcome List

structure ResourceEntry where
  download : ℕ
  group : ℕ

/-- The pointers to the entries are positions in the memory of the vector, or null. -/
structure ChokeGroup where
  name : String
  first : Option ℕ
  last : Option ℕ

def ChokeGroup.inc (g : ChokeGroup) : ChokeGroup := { g with first := g.first.map (· + 1), last := g.last.map (· + 1) }

def ChokeGroup.dec (g : ChokeGroup) : ChokeGroup := { g with first := g.first.map (· - 1), last := g.last.map (· - 1) }

structure ResourceManager where
  entries : List ResourceEntry := []
  allocated : Bool := false
  groups : List ChokeGroup := []

namespace ResourceManager

def address (s : ResourceManager) (i : ℕ) : Option ℕ := if s.allocated then some i else none

/-- `std::find_if` for an entry of a later group, from position `i` on. -/
def groupEnd (group i : ℕ) (l : List ResourceEntry) : ℕ := i + (l.drop i).findIdx fun v ↦ group < v.group

/-- The loop of `update_group_iterators` from group `k` on. -/
def updateFrom (s : ResourceManager) : ℕ → ℕ → List ChokeGroup → List ChokeGroup
  | _, _, [] => []
  | k, i, g :: gs =>
    let j := groupEnd k i s.entries
    { g with first := s.address i, last := s.address j } :: s.updateFrom (k + 1) j gs

/-- The loop of `validate_group_iterators`, with the `internal_error` that it throws. -/
def validateFrom (s : ResourceManager) : ℕ → ℕ → List ChokeGroup → Option String
  | _, _, [] => none
  | k, i, g :: gs =>
    let j := groupEnd k i s.entries
    if g.first ≠ s.address i then some "ResourceManager::receive_tick() invalid first iterator."
    else if g.last ≠ s.address j then some "ResourceManager::receive_tick() invalid last iterator."
    else s.validateFrom (k + 1) j gs

def validateGroupIterators (s : ResourceManager) : Option String := s.validateFrom 0 0 s.groups

def insertEntry (e : ResourceEntry) (l : List ResourceEntry) : List ResourceEntry := l.insertIdx (groupEnd e.group 0 l) e

def refuses (name : String) (s : ResourceManager) : Bool := name = "" || s.groups.any fun g ↦ g.name = name

def pushGroup (name : String) (s : ResourceManager) : Option String × ResourceManager :=
  if s.refuses name then (some "Duplicate name for choke group.", s)
  else
    let i := if s.entries = [] then none else some s.entries.length
    (none, { s with groups := s.groups ++ [⟨name, i, i⟩] })

/-- Without any group the entry is inserted before `at` throws. -/
def insert (d : ℕ) (s : ResourceManager) : Option String × ResourceManager :=
  let s' := { s with entries := insertEntry ⟨d, 0⟩ s.entries, allocated := true }
  if s.groups = [] then (some "std::out_of_range", s') else (none, { s' with groups := s'.updateFrom 0 0 s.groups })

/-- What `erase` and `set_group` do with the iterators of the groups, of which `k` is one. -/
def shiftErased (group k : ℕ) (g : ChokeGroup) : ChokeGroup :=
  if k < group then g else if k = group then { g with last := g.last.map (· - 1) } else g.dec

def shiftMoved (src dest k : ℕ) (g : ChokeGroup) : ChokeGroup :=
  if dest < src then
    if k = dest then { g with last := g.last.map (· + 1) }
    else if dest < k ∧ k < src then g.inc
    else if k = src then { g with first := g.first.map (· + 1) }
    else g
  else if k = src then { g with last := g.last.map (· - 1) }
  else if src < k ∧ k < dest then g.dec
  else if k = dest then { g with first := g.first.map (· - 1) }
  else g

def erase (d : ℕ) (s : ResourceManager) : Option String × ResourceManager :=
  let i := s.entries.findIdx fun e ↦ e.download = d
  match s.entries[i]? with
  | none => (some "ResourceManager::erase() itr == end().", s)
  | some e =>
    if s.groups.length ≤ e.group then (some "Choke group not found.", s)
    else (none, { s with entries := s.entries.eraseIdx i, groups := s.groups.mapIdx (shiftErased e.group) })

def setGroup (i group : ℕ) (s : ResourceManager) : Option String × ResourceManager :=
  match s.entries[i]? with
  | none => (none, s)
  | some e =>
    if e.group = group then (none, s)
    else if s.groups.length ≤ group then (some "Choke group not found.", s)
    else (none, { s with
      entries := insertEntry { e with group := group } (s.entries.eraseIdx i)
      groups := s.groups.mapIdx (shiftMoved e.group group) })

inductive Event
  | pushGroup (name : String)
  | insert (download : ℕ)
  | erase (download : ℕ)
  | setGroup (i group : ℕ)

/-- The exception that a call throws, and what it leaves. -/
def step : Event → ResourceManager → Option String × ResourceManager
  | .pushGroup name => pushGroup name
  | .insert d => insert d
  | .erase d => erase d
  | .setGroup i group => setGroup i group

/-- The calls go on after an exception. -/
def call (e : Event) (s : ResourceManager) : Except String ResourceManager := .ok (step e s).2

abbrev InOrder (l : List ResourceEntry) : Prop := l.Pairwise fun e e' ↦ e.group ≤ e'.group

/-- The entries are sorted by group, each group has the range of its own entries, and the check finds nothing wrong. -/
structure Ranged (s : ResourceManager) : Prop where
  sorted : InOrder s.entries
  covers : ∀ k g, s.groups[k]? = some g → ∃ i j, g.first = s.address i ∧ g.last = s.address j ∧ i ≤ j ∧
    j ≤ s.entries.length ∧ ∀ n e, s.entries[n]? = some e → (i ≤ n ∧ n < j ↔ e.group = k)
  valid : s.validateGroupIterators = none

/-- A group that is pushed while there are no entries finds a vector that never had any, and otherwise it is not the
first group. -/
def Safe : Event → ResourceManager → Prop
  | .pushGroup name, s => s.refuses name = true ∨ if s.entries = [] then s.allocated = false else s.groups ≠ []
  | _, _ => True

/-- How many entries there are in the groups before `k`. -/
def below (k : ℕ) (l : List ResourceEntry) : ℕ := l.countP fun e ↦ e.group < k

variable {s : ResourceManager} {l : List ResourceEntry} {e : ResourceEntry} {k i : ℕ} {ev : Event}

theorem below_cons : below k (e :: l) = below k l + if e.group < k then 1 else 0 := by
  simp [below, countP_cons]

theorem below_eq_zero (h : InOrder (e :: l)) (hk : k ≤ e.group) : below k l = 0 := by
  refine countP_eq_zero.mpr fun e' he' ↦ ?_
  have := rel_of_pairwise_cons h he'
  simp only [decide_eq_true_eq]
  omega

theorem groupEnd_eq (h : InOrder l) (hi : i ≤ below (k + 1) l) : groupEnd k i l = below (k + 1) l := by
  induction l generalizing i with
  | nil => simp_all [groupEnd, below]
  | cons e l ih =>
    have hl : ∀ {i}, i ≤ below (k + 1) l → groupEnd k i l = _ := ih h.of_cons
    rw [below_cons] at hi ⊢
    by_cases hk : e.group < k + 1
    · cases i with
      | zero =>
        have := hl (Nat.zero_le _)
        rw [groupEnd, drop_zero, findIdx_cons, decide_eq_false (by omega : ¬ k < e.group)]
        simp_all [groupEnd]
      | succ i =>
        have := hl (i := i) (by simp_all)
        simp_all only [groupEnd, drop_succ_cons]
        simp
        omega
    · have := below_eq_zero h (Nat.not_lt.mp hk)
      have hk' : k < e.group := by omega
      simp_all [groupEnd, findIdx_cons]

theorem lt_below_iff (h : InOrder l) (he : l[i]? = some e) : i < below k l ↔ e.group < k := by
  induction l generalizing i with
  | nil => simp at he
  | cons e' l ih =>
    rw [below_cons]
    cases i with
    | zero =>
      obtain rfl : e' = e := by simpa using he
      by_cases hk : e'.group < k
      · simp [hk]
      · simp [hk, below_eq_zero h (Nat.not_lt.mp hk)]
    | succ i =>
      have := ih h.of_cons (by simpa using he)
      have hle := rel_of_pairwise_cons h (mem_of_getElem? (by simpa using he))
      split_ifs <;> omega

theorem below_mono {k' : ℕ} (hk : k ≤ k') : below k l ≤ below k' l :=
  countP_mono_left fun e _ he ↦ by simp_all; omega

theorem below_insertEntry : below k (insertEntry e l) = below k l + if e.group < k then 1 else 0 := by
  rw [← below_cons]
  exact (perm_insertIdx e l (by simp [groupEnd, findIdx_le_length])).countP_eq _

theorem below_eraseIdx (he : l[i]? = some e) : below k (l.eraseIdx i) + (if e.group < k then 1 else 0) = below k l := by
  obtain ⟨hi, rfl⟩ := List.getElem?_eq_some_iff.mp he
  rw [← below_cons]
  exact (getElem_cons_eraseIdx_perm hi).countP_eq _

theorem sorted_insertEntry (h : InOrder l) : InOrder (insertEntry e l) := by
  simp only [insertEntry, groupEnd, Nat.zero_add, drop_zero]
  induction l with
  | nil => simp
  | cons v l ih =>
    rw [findIdx_cons]
    by_cases hk : e.group < v.group
    · simp only [hk, decide_true, cond_true, insertIdx_zero, pairwise_cons]
      refine ⟨fun e' he' ↦ ?_, pairwise_cons.mp h⟩
      rcases mem_cons.mp he' with rfl | he'
      · exact Nat.le_of_lt hk
      · exact Nat.le_trans (Nat.le_of_lt hk) (rel_of_pairwise_cons h he')
    simp only [hk, decide_false, cond_false, insertIdx_succ_cons, pairwise_cons]
    refine ⟨fun e' he' ↦ ?_, ih h.of_cons⟩
    rcases eq_or_mem_of_mem_insertIdx he' with rfl | he'
    · omega
    · exact rel_of_pairwise_cons h he'

/-- What is left by every call. -/
structure Sound (s : ResourceManager) : Prop where
  sorted : InOrder s.entries
  allocated : s.entries ≠ [] → s.allocated = true
  groups : ∀ e ∈ s.entries, e.group = 0 ∨ e.group < s.groups.length

def Bounded (s : ResourceManager) : Prop :=
  ∀ k g, s.groups[k]? = some g → g.first = s.address (below k s.entries) ∧ g.last = s.address (below (k + 1) s.entries)

theorem validateFrom_iff (h : InOrder s.entries) (gs : List ChokeGroup) :
    s.validateFrom k (below k s.entries) gs = none ↔ ∀ n g, gs[n]? = some g →
      g.first = s.address (below (k + n) s.entries) ∧ g.last = s.address (below (k + n + 1) s.entries) := by
  induction gs generalizing k with
  | nil => simp [validateFrom]
  | cons g gs ih =>
    have hend := groupEnd_eq h (below_mono (Nat.le_succ k))
    rw [validateFrom, hend]
    constructor
    · intro hv n g' hg
      split_ifs at hv with hf hl
      cases n with
      | zero => simp_all
      | succ n => simpa [Nat.add_right_comm, Nat.add_assoc] using ih.mp hv n g' (by simpa using hg)
    intro hall
    have h0 := hall 0 g rfl
    rw [Nat.add_zero] at h0
    rw [if_neg (not_not.mpr h0.1), if_neg (not_not.mpr h0.2)]
    refine ih.mpr fun n g' hg ↦ ?_
    simpa [Nat.add_right_comm, Nat.add_assoc] using hall (n + 1) g' (by simpa using hg)

theorem getElem?_updateFrom (h : InOrder s.entries) (gs : List ChokeGroup) (n : ℕ) :
    (s.updateFrom k (below k s.entries) gs)[n]? = gs[n]?.map fun g ↦ { g with
      first := s.address (below (k + n) s.entries), last := s.address (below (k + n + 1) s.entries) } := by
  induction gs generalizing k n with
  | nil => simp [updateFrom]
  | cons g gs ih =>
    have hend := groupEnd_eq h (below_mono (Nat.le_succ k))
    rw [updateFrom, hend]
    cases n with
    | zero => simp
    | succ n => simp [ih, Nat.add_right_comm, Nat.add_assoc]

theorem below_zero : below 0 l = 0 := by simp [below]

theorem ranged_iff (h : Sound s) : Ranged s ↔ Bounded s := by
  have hvalid : s.validateGroupIterators = none ↔ Bounded s := by
    have := validateFrom_iff (k := 0) h.sorted s.groups
    simpa [below_zero, validateGroupIterators, Bounded] using this
  refine ⟨fun hr ↦ hvalid.mp hr.valid, fun hb ↦ ⟨h.sorted, fun k g hg ↦ ?_, hvalid.mpr hb⟩⟩
  refine ⟨_, _, (hb k g hg).1, (hb k g hg).2, below_mono (Nat.le_succ k), countP_le_length, fun n e he ↦ ?_⟩
  rw [lt_below_iff h.sorted he, ← Nat.not_lt, lt_below_iff h.sorted he]
  omega

theorem length_updateFrom (gs : List ChokeGroup) : (s.updateFrom k i gs).length = gs.length := by
  induction gs generalizing k i with
  | nil => rfl
  | cons g gs ih => simp [updateFrom, ih]

theorem Sound.address_eq (h : Sound s) (he : s.entries[i]? = some e) (n : ℕ) : s.address n = some n :=
  if_pos (h.allocated (ne_nil_of_mem (mem_of_getElem? he)))

theorem mem_insertEntry {e' : ResourceEntry} (he : e' ∈ insertEntry e l) : e' = e ∨ e' ∈ l := eq_or_mem_of_mem_insertIdx he

theorem sound_step (h : Sound s) : Sound (step ev s).2 := by
  cases ev with
  | pushGroup name =>
    by_cases hr : s.refuses name = true
    · simpa [step, pushGroup, hr] using h
    simp only [step, pushGroup, hr]
    refine ⟨h.sorted, h.allocated, fun e he ↦ (h.groups e he).imp_right fun hlt ↦ ?_⟩
    exact Nat.lt_of_lt_of_le hlt (by simp)
  | insert d =>
    have hs : ∀ gs : List ChokeGroup, gs.length = s.groups.length →
        Sound ⟨insertEntry ⟨d, 0⟩ s.entries, true, gs⟩ := fun gs hgs ↦ by
      refine ⟨sorted_insertEntry h.sorted, fun _ ↦ rfl, fun e he ↦ ?_⟩
      rcases mem_insertEntry he with rfl | he
      · exact .inl rfl
      · exact hgs ▸ h.groups e he
    simp only [step, insert]
    split_ifs
    · exact hs _ rfl
    · exact hs _ (length_updateFrom _)
  | erase d =>
    simp only [step, erase]
    split
    · exact h
    split_ifs
    · exact h
    refine ⟨h.sorted.sublist (eraseIdx_sublist ..), fun hne ↦ h.allocated fun hnil ↦ hne (by simp [hnil]), fun e he ↦ ?_⟩
    rw [length_mapIdx]
    exact h.groups e (mem_of_mem_eraseIdx he)
  | setGroup i group =>
    simp only [step, setGroup]
    split
    · exact h
    rename_i e he
    split_ifs with hsame hlen
    · exact h
    · exact h
    refine ⟨sorted_insertEntry (h.sorted.sublist (eraseIdx_sublist ..)), fun _ ↦ ?_, fun e' he' ↦ ?_⟩
    · exact h.allocated (ne_nil_of_mem (mem_of_getElem? he))
    rw [length_mapIdx]
    rcases mem_insertEntry he' with rfl | he'
    · exact .inr (Nat.not_le.mp hlen)
    · exact h.groups e' (mem_of_mem_eraseIdx he')

theorem bounded_mapIdx (h : Sound s) (hb : Bounded s) (he : s.entries[i]? = some e) {f : ℕ → ChokeGroup → ChokeGroup}
    (hf : ∀ k name, f k ⟨name, some (below k s.entries), some (below (k + 1) s.entries)⟩ =
      ⟨name, some (below k l), some (below (k + 1) l)⟩) : Bounded { s with entries := l, groups := s.groups.mapIdx f } := by
  intro k g' hg'
  obtain ⟨⟨name, first, last⟩, hg, rfl⟩ : ∃ g, s.groups[k]? = some g ∧ _ = g' := by simpa using hg'
  obtain ⟨rfl, rfl⟩ := hb k _ hg
  rw [h.address_eq he, h.address_eq he, hf]
  exact ⟨(h.address_eq he _).symm, (h.address_eq he _).symm⟩

theorem bounded_push {name : String} {p : Option ℕ} (hb : Bounded s) :
    Bounded { s with groups := s.groups ++ [⟨name, p, p⟩] } ↔
      p = s.address (below s.groups.length s.entries) ∧ p = s.address (below (s.groups.length + 1) s.entries) := by
  constructor
  · intro h
    exact h s.groups.length ⟨name, p, p⟩ (by simp)
  intro hp k g hg
  rw [getElem?_append] at hg
  split_ifs at hg with hk
  · exact hb k g hg
  obtain rfl : k = s.groups.length := by
    have := (List.getElem?_eq_some_iff.mp hg).1
    rw [length_singleton] at this
    omega
  obtain rfl : ⟨name, p, p⟩ = g := by simpa using hg
  exact hp

theorem Sound.below_eq (h : Sound s) (hk : 0 < k) (hlen : s.groups.length ≤ k) : below k s.entries = s.entries.length :=
  countP_eq_length.mpr fun e he ↦ by
    have := h.groups e he
    simp only [decide_eq_true_eq]
    omega

theorem bounded_step (h : Sound s) (hb : Bounded s) : Bounded (step ev s).2 ↔ Safe ev s := by
  cases ev with
  | pushGroup name =>
    by_cases hr : s.refuses name = true
    · simp [step, pushGroup, Safe, hr, hb]
    simp only [step, pushGroup, Safe, hr, Bool.false_eq_true, if_false, false_or]
    rw [bounded_push hb, h.below_eq (Nat.succ_pos _) (Nat.le_succ _)]
    by_cases hnil : s.entries = []
    · cases ha : s.allocated <;> simp [hnil, address, ha, below]
    rw [if_neg hnil, if_neg hnil, address, address, h.allocated hnil]
    by_cases hgroups : s.groups = []
    · simp [hgroups, hnil, below_zero]
    · simp [h.below_eq (length_pos_iff.mpr hgroups) (Nat.le_refl _), hgroups]
  | insert d =>
    simp only [step, insert, Safe, iff_true]
    split_ifs with hnil
    · intro k g hg
      simp [hnil] at hg
    intro k g hg
    have hupdate := getElem?_updateFrom (k := 0) (s := ⟨insertEntry ⟨d, 0⟩ s.entries, true, s.groups⟩)
      (sorted_insertEntry h.sorted) s.groups k
    rw [below_zero] at hupdate
    obtain ⟨g', -, rfl⟩ := Option.map_eq_some_iff.mp (hupdate.symm.trans hg)
    rw [Nat.zero_add]
    exact ⟨rfl, rfl⟩
  | erase d =>
    simp only [step, erase, Safe, iff_true]
    split
    · exact hb
    rename_i e he
    refine (apply_ite (fun r : Option String × ResourceManager ↦ Bounded r.2) _ _ _).mpr ?_
    split_ifs with hlen
    · exact hb
    refine bounded_mapIdx h hb he fun k name ↦ ?_
    have hk := below_eraseIdx (k := k) he
    have hk' := below_eraseIdx (k := k + 1) he
    unfold shiftErased
    split_ifs at hk hk' ⊢ <;> simp [ChokeGroup.dec] <;> omega
  | setGroup i group =>
    simp only [step, setGroup, Safe, iff_true]
    split
    · exact hb
    rename_i e he
    split_ifs with hsame hlen
    · exact hb
    · exact hb
    refine bounded_mapIdx h hb he fun k name ↦ ?_
    have hk := below_eraseIdx (k := k) he
    have hk' := below_eraseIdx (k := k + 1) he
    rw [below_insertEntry, below_insertEntry]
    unfold shiftMoved
    dsimp only
    split_ifs at hk hk' ⊢ <;> simp [ChokeGroup.dec, ChokeGroup.inc] <;> omega

theorem run_sorted (events : List Event) : Yields (forEach call events {}) fun s ↦
    s.entries.Pairwise (·.group ≤ ·.group) ∧ ∀ e ∈ s.entries, e.group = 0 ∨ e.group < s.groups.length :=
  (ensures_forEach_inv (fun _ s (h : Sound s) ↦ .ok (sound_step h)) events ⟨.nil, by simp, by simp⟩).mono fun _ h ↦
    ⟨h.sorted, h.groups⟩

theorem run_ranged_iff (events : List Event) :
    (∀ k, k <+: events → Yields (forEach call k {}) Ranged) ↔ Along call Safe events {} := by
  have hstart : Sound {} := ⟨.nil, nofun, nofun⟩
  refine forall_prefix_iff_along (fun ev s (h : Sound s) hr ↦ ?_) events hstart ((ranged_iff hstart).mpr nofun)
  have hstep : Sound (step ev s).2 := sound_step h
  exact ⟨hstep, (ranged_iff hstep).trans (bounded_step h ((ranged_iff h).mp hr))⟩

/-- All entries are erased before a group is pushed, or one is inserted before there is any group. -/
theorem run_not_ranged :
    (∃ s, forEach call [.pushGroup "a", .insert 1, .erase 1, .pushGroup "b"] {} = .ok s ∧ ¬ Ranged s) ∧
      ∃ s, forEach call [.insert 1, .pushGroup "a"] {} = .ok s ∧ ¬ Ranged s :=
  ⟨⟨_, rfl, fun h ↦ absurd h.valid (by decide)⟩, ⟨_, rfl, fun h ↦ absurd h.valid (by decide)⟩⟩

end ResourceManager

end LibTorrent
