import LibTorrent.Lib.OrderedMap
import Mathlib.Data.List.Induction
import Mathlib.Order.Fin.Basic
import Mathlib.Algebra.Group.Nat.Defs

namespace LibTorrent

open Lib.OrderedMap List Option

/-- `extents`: the start of each range with its end and its value, in the order of the starts. -/
structure Extents (α β : Type) [LinearOrder α] where
  rangeMap : List (α × α × β)
  sorted : Sorted rangeMap

namespace Extents

variable {α β : Type} [LinearOrder α] [DecidableEq β]

def empty : Extents α β := ⟨[], List.Pairwise.nil⟩

variable (t : Extents α β)

/-- `upper_bound(address_start)`, moved back by one unless it is `begin()`. -/
def iter (addressStart : α) : ℕ := upperBound t.rangeMap addressStart - 1

variable (addressStart addressEnd : α)

def doDeleteDueToOverlap (value : β) (p : α × α × β) : Bool :=
  p.1 ≤ addressEnd && addressStart ≤ p.2.1 && p.2.2 ≠ value

def doDeleteDueToTotalOverlap (p : α × α × β) : Bool :=
  addressStart ≤ p.1 && p.2.1 ≤ addressEnd

def doDelete (value : β) (p : α × α × β) : Bool :=
  doDeleteDueToOverlap addressStart addressEnd value p || doDeleteDueToTotalOverlap addressStart addressEnd p

/-- The entries from the iterator on that the loop of `insert` leaves, `ignore_due_to_total_overlap` at its end, and
whether the loop condition has read the end iterator: it reads `iter->first` before it compares with `end()`. -/
def sweep (addressStart addressEnd : α) (value : β) : Bool → List (α × α × β) → List (α × α × β) × Bool × Bool
  | ignore, [] => ([], ignore, true)
  | ignore, p :: m =>
    if p.1 ≤ addressEnd then
      if doDelete addressStart addressEnd value p then sweep addressStart addressEnd value ignore m
      else
        let r := sweep addressStart addressEnd value
          (match m with
          | [] => ignore
          | q :: _ => ignore || (q.1 ≤ addressStart && addressEnd ≤ q.2.1)) m
        (p :: r.1, r.2)
    else (p :: m, ignore, false)

theorem sweep_sublist (s e : α) (v : β) (ignore : Bool) (m : List (α × α × β)) :
    (sweep s e v ignore m).1.Sublist m := by
  fun_induction sweep s e v ignore m with
  | case1 => exact List.Sublist.slnil
  | case2 ignore p m hp hd ih => exact ih.cons p
  | case3 ignore p m hp hd r ih => exact ih.cons_cons p
  | case4 ignore p m hp => exact List.Sublist.refl _

def swept (value : β) : List (α × α × β) :=
  t.rangeMap.take (t.iter addressStart) ++
    (sweep addressStart addressEnd value false (t.rangeMap.drop (t.iter addressStart))).1

theorem sorted_swept (s e : α) (v : β) : Sorted (t.swept s e v) := by
  refine List.Pairwise.sublist ?_ t.sorted
  have h := (sweep_sublist s e v false (t.rangeMap.drop (t.iter s))).append_left (t.rangeMap.take (t.iter s))
  rwa [take_append_drop] at h

def insert (value : β) : Extents α β :=
  if (sweep addressStart addressEnd value false (t.rangeMap.drop (t.iter addressStart))).2.1 then
    ⟨t.swept addressStart addressEnd value, t.sorted_swept addressStart addressEnd value⟩
  else
    ⟨emplace (t.swept addressStart addressEnd value) addressStart (addressEnd, value),
      (t.sorted_swept addressStart addressEnd value).emplace addressStart (addressEnd, value)⟩

def insertReadsEnd (value : β) : Bool :=
  (sweep addressStart addressEnd value false (t.rangeMap.drop (t.iter addressStart))).2.2

/-- The loop of `defined`, with whether its condition has read the end iterator. -/
def definedLoop (addressStart addressEnd : α) : Bool → List (α × α × β) → Bool × Bool
  | defined, [] => (defined, true)
  | defined, p :: m =>
    if p.1 ≤ addressEnd && !defined then
      definedLoop addressStart addressEnd (p.1 ≤ addressEnd && addressStart ≤ p.2.1) m
    else (defined, false)

def defined : Bool :=
  (definedLoop addressStart addressEnd false (t.rangeMap.drop (t.iter addressStart))).1

def definedReadsEnd : Bool :=
  (definedLoop addressStart addressEnd false (t.rangeMap.drop (t.iter addressStart))).2

def keyLoop (addressStart addressEnd : α) : Option α → List (α × α × β) → Option α × Bool
  | key, [] => (key, true)
  | key, p :: m =>
    if p.1 ≤ addressEnd && key.isNone then
      keyLoop addressStart addressEnd (if p.1 ≤ addressEnd && addressStart ≤ p.2.1 then some p.1 else none) m
    else (key, false)

def getMatchingKey : Except String α :=
  match (keyLoop addressStart addressEnd none (t.rangeMap.drop (t.iter addressStart))).1 with
  | some key => .ok key
  | none => .error "nothing defined for specified key"

def keyReadsEnd : Bool :=
  (keyLoop addressStart addressEnd none (t.rangeMap.drop (t.iter addressStart))).2

/-- `extents::at`: `get_matching_key` and `std::map::at` both throw `std::out_of_range`. -/
def atAddress : Except String β := do
  let key ← t.getMatchingKey addressStart addressEnd
  match t.rangeMap.find? (fun p ↦ p.1 = key) with
  | some entry => .ok entry.2.2
  | none => .error "map::at"

/-- The value a lookup of one address finds: that of the last range that starts at or below it, if it ends at or
above it. -/
def Holds (m : List (α × α × β)) (x : α) (w : β) : Prop := ∃ p, IsFloor m x p ∧ x ≤ p.2.1 ∧ p.2.2 = w

omit [DecidableEq β]

theorem definedLoop_eq (s e : α) (key : Option α) (m : List (α × α × β)) :
    definedLoop s e key.isSome m = ((keyLoop s e key m).1.isSome, (keyLoop s e key m).2) := by
  induction m generalizing key with
  | nil => rfl
  | cons p m ih =>
    rw [definedLoop, keyLoop, Option.not_isSome]
    split_ifs with hgo hhit
    · rw [hhit, ← ih]
      rfl
    · rw [Bool.eq_false_iff.mpr hhit, ← ih]
      rfl
    · rfl

theorem definedReadsEnd_eq (s e : α) : t.definedReadsEnd s e = t.keyReadsEnd s e := by
  rw [definedReadsEnd, keyReadsEnd, ← isSome_none (α := α), definedLoop_eq]

theorem keyLoop_above (key : Option α) {m : List (α × α × β)} (h : ∀ q ∈ m, e < q.1) :
    keyLoop s e key m = (key, m.isEmpty) := by
  cases m with
  | nil => rfl
  | cons p m =>
    have hp : ¬ p.1 ≤ e := not_le.mpr (h p mem_cons_self)
    rw [keyLoop, if_neg (by simp [hp])]
    rfl

theorem lt_of_mem_take {x : α} {q : α × α × β} (hq : q ∈ t.rangeMap.take (t.iter x)) : q.1 < x := by
  rw [iter] at hq
  rcases stepBack_cases t.sorted x with ⟨hnil, -, -⟩ | ⟨p, rest, -, hfloor, -, hlt⟩
  · simp [hnil] at hq
  · exact (hlt q hq).trans_le hfloor.le

theorem forall_drop_iff {x e : α} (hx : x ≤ e) :
    (∀ q ∈ t.rangeMap.drop (t.iter x), q.1 ≤ e) ↔ ∀ q ∈ t.rangeMap, q.1 ≤ e := by
  refine ⟨fun h q hq ↦ ?_, fun h q hq ↦ h q (mem_of_mem_drop hq)⟩
  rw [← take_append_drop (t.iter x) t.rangeMap, mem_append] at hq
  exact hq.elim (fun hq ↦ (t.lt_of_mem_take hq).le.trans hx) (h q)

/-- The lookup of one address looks at the range that starts last at or below it only, and reads the end iterator
exactly if no range starts above it. -/
theorem keyLoop_cases (x : α) :
    ((∀ w, ¬ Holds t.rangeMap x w) ∧ (keyLoop x x none (t.rangeMap.drop (t.iter x))).1 = none ∨
      ∃ p, IsFloor t.rangeMap x p ∧ x ≤ p.2.1 ∧ (keyLoop x x none (t.rangeMap.drop (t.iter x))).1 = some p.1) ∧
      (t.keyReadsEnd x x = true ↔ ∀ q ∈ t.rangeMap, q.1 ≤ x) := by
  rw [← t.forall_drop_iff le_rfl, keyReadsEnd, iter]
  have hempty {m : List (α × α × β)} (h : ∀ q ∈ m, x < q.1) : m.isEmpty = true ↔ ∀ q ∈ m, q.1 ≤ x := by
    cases m with
    | nil => simp
    | cons q m => simp [(h q mem_cons_self).not_ge]
  rcases stepBack_cases t.sorted x with ⟨-, hdrop, habove⟩ | ⟨p, rest, hdrop, hfloor, habove, -⟩
  · rw [hdrop, keyLoop_above none habove]
    exact ⟨.inl ⟨fun w ⟨p, hp, _⟩ ↦ (habove p hp.mem).not_ge hp.le, rfl⟩, hempty habove⟩
  rw [hdrop, keyLoop, if_pos (by simp [hfloor.le]), keyLoop_above _ habove, forall_mem_cons]
  refine ⟨?_, (hempty habove).trans (and_iff_right hfloor.le).symm⟩
  by_cases hx : x ≤ p.2.1
  · exact .inr ⟨p, hfloor, hx, by simp [hfloor.le, hx]⟩
  · refine .inl ⟨fun w ⟨q, hq, hxq, _⟩ ↦ hx ?_, by simp [hx]⟩
    rwa [hfloor.unique t.sorted hq]

theorem find_key {p : α × α × β} (hp : p ∈ t.rangeMap) : t.rangeMap.find? (fun q ↦ q.1 = p.1) = some p := by
  obtain ⟨q, hq⟩ : ∃ q, t.rangeMap.find? (fun q ↦ q.1 = p.1) = some q :=
    isSome_iff_exists.mp (find?_isSome.mpr ⟨p, hp, by simp⟩)
  have hkey : q.1 = p.1 := by simpa using find?_some hq
  rw [hq, t.sorted.eq_of_key (mem_of_find?_eq_some hq) hp hkey]

theorem atAddress_eq_ok (x : α) (w : β) : t.atAddress x x = .ok w ↔ Holds t.rangeMap x w := by
  rw [atAddress, getMatchingKey]
  rcases (t.keyLoop_cases x).1 with ⟨hno, hkey⟩ | ⟨p, hfloor, hx, hkey⟩ <;> rw [hkey]
  · exact ⟨nofun, fun h ↦ absurd h (hno w)⟩
  change (match t.rangeMap.find? (fun q ↦ q.1 = p.1) with
    | some entry => Except.ok entry.2.2
    | none => Except.error "map::at") = Except.ok w ↔ _
  rw [t.find_key hfloor.mem]
  refine ⟨fun h ↦ ⟨p, hfloor, hx, Except.ok.inj h⟩, ?_⟩
  rintro ⟨q, hq, -, rfl⟩
  rw [hfloor.unique t.sorted hq]

theorem atAddress_eq_error {x : α} (h : ∀ w, ¬ Holds t.rangeMap x w) :
    t.atAddress x x = .error "nothing defined for specified key" := by
  rw [atAddress, getMatchingKey]
  rcases (t.keyLoop_cases x).1 with ⟨-, hkey⟩ | ⟨p, hfloor, hx, -⟩
  · rw [hkey]
    rfl
  · exact absurd ⟨p, hfloor, hx, rfl⟩ (h p.2.2)

theorem defined_iff (x : α) : t.defined x x = true ↔ ∃ w, Holds t.rangeMap x w := by
  rw [defined, ← isSome_none (α := α), definedLoop_eq]
  rcases (t.keyLoop_cases x).1 with ⟨hno, hkey⟩ | ⟨p, hfloor, hx, hkey⟩ <;> rw [hkey]
  · exact ⟨nofun, fun ⟨w, hw⟩ ↦ absurd hw (hno w)⟩
  · exact ⟨fun _ ↦ ⟨p.2.2, p, hfloor, hx, rfl⟩, fun _ ↦ rfl⟩

end Extents

end LibTorrent

namespace LibTorrent.Extents

open Lib.OrderedMap List

variable {α β : Type} [LinearOrder α] [DecidableEq β]

structure Range (α β : Type) [LE α] where
  first : α
  last : α
  value : β
  le : first ≤ last

def Range.Contains (r : Range α β) (x : α) : Prop := r.first ≤ x ∧ x ≤ r.last

def Range.Overlaps (r r' : Range α β) : Prop := r.first ≤ r'.last ∧ r'.first ≤ r.last

def Proper (m : List (α × α × β)) : Prop := ∀ p ∈ m, p.1 ≤ p.2.1

variable {m : List (α × α × β)} {ignore : Bool} {s e : α} {v : β}

theorem mem_sweep (h : Sorted m) :
    q ∈ (sweep s e v ignore m).1 ↔ q ∈ m ∧ ¬ (q.1 ≤ e ∧ doDelete s e v q = true) := by
  fun_induction sweep s e v ignore m with
  | case1 => simp
  | case2 ignore p m hp hd ih =>
    rw [ih (pairwise_cons.mp h).2, mem_cons]
    constructor
    · exact fun ⟨hq, hk⟩ ↦ ⟨.inr hq, hk⟩
    rintro ⟨rfl | hq, hk⟩
    · exact absurd ⟨hp, hd⟩ hk
    · exact ⟨hq, hk⟩
  | case3 ignore p m hp hd r ih =>
    rw [mem_cons, ih (pairwise_cons.mp h).2, mem_cons, or_and_right]
    refine or_congr ⟨?_, fun hq ↦ hq.1⟩ .rfl
    rintro rfl
    exact ⟨rfl, fun hk ↦ hd hk.2⟩
  | case4 ignore p m hp =>
    refine ⟨fun hq ↦ ⟨hq, fun hk ↦ ?_⟩, fun hq ↦ hq.1⟩
    rcases mem_cons.mp hq with rfl | hq
    · exact hp hk.1
    · exact hp (((pairwise_cons.mp h).1 q hq).le.trans hk.1)

/-- Only the ranges after the first one are looked at for the flag, and these start above the inserted one. -/
theorem sweep_ignore (h : ∀ q ∈ m.tail, s < q.1) (hi : ignore = false) : (sweep s e v ignore m).2.1 = false := by
  fun_induction sweep s e v ignore m with
  | case1 => exact hi
  | case2 ignore p m hp hd ih => exact ih (fun q hq ↦ h q (mem_of_mem_tail hq)) hi
  | case3 ignore p m hp hd r ih =>
    refine ih (fun q hq ↦ h q (mem_of_mem_tail hq)) ?_
    cases m with
    | nil => exact hi
    | cons q m => simp [hi, not_le.mpr (h q mem_cons_self)]
  | case4 => exact hi

theorem sweep_readsEnd (h : Sorted m) : (sweep s e v ignore m).2.2 = true ↔ ∀ q ∈ m, q.1 ≤ e := by
  fun_induction sweep s e v ignore m with
  | case1 => simp
  | case2 ignore p m hp hd ih => simp [ih (pairwise_cons.mp h).2, hp]
  | case3 ignore p m hp hd r ih => simp [r, ih (pairwise_cons.mp h).2, hp]
  | case4 ignore p m hp => simp [hp]

section Insert

variable (t : Extents α β) (r : Range α β)

def insertRange : Extents α β := t.insert r.first r.last r.value

omit [DecidableEq β] in
theorem sorted_drop (n : ℕ) : Sorted (t.rangeMap.drop n) := t.sorted.sublist (drop_sublist n _)

theorem insertRange_rangeMap :
    (t.insertRange r).rangeMap = emplace (t.swept r.first r.last r.value) r.first (r.last, r.value) := by
  have hflag : (sweep r.first r.last r.value false (t.rangeMap.drop (t.iter r.first))).2.1 = false := by
    refine sweep_ignore ?_ rfl
    rw [iter]
    rcases stepBack_cases t.sorted r.first with ⟨-, hdrop, habove⟩ | ⟨p, rest, hdrop, -, habove, -⟩
    · rw [hdrop]
      exact fun q hq ↦ habove q (mem_of_mem_tail hq)
    · rw [hdrop]
      exact habove
  rw [insertRange, insert, hflag]
  rfl

variable {t r} {q : α × α × β}

theorem of_mem_swept (hq : q ∈ t.swept r.first r.last r.value) :
    q ∈ t.rangeMap ∧ (r.first ≤ q.1 → q.1 ≤ r.last → doDelete r.first r.last r.value q = false) := by
  rcases mem_append.mp hq with hq | hq
  · exact ⟨mem_of_mem_take hq, fun hs ↦ absurd hs (t.lt_of_mem_take hq).not_ge⟩
  · obtain ⟨hm, hk⟩ := (mem_sweep (t.sorted_drop _)).mp hq
    exact ⟨mem_of_mem_drop hm, fun _ he ↦ Bool.eq_false_iff.mpr fun hd ↦ hk ⟨he, hd⟩⟩

theorem mem_swept (hq : q ∈ t.rangeMap) (hk : doDelete r.first r.last r.value q = false) :
    q ∈ t.swept r.first r.last r.value := by
  rw [← take_append_drop (t.iter r.first) t.rangeMap, mem_append] at hq
  refine mem_append.mpr (hq.imp_right fun hq ↦ (mem_sweep (t.sorted_drop _)).mpr ⟨hq, ?_⟩)
  simp [hk]

theorem of_mem_insertRange (hq : q ∈ (t.insertRange r).rangeMap) : q = (r.first, r.last, r.value) ∨
      q ∈ t.rangeMap ∧ (r.first ≤ q.1 → q.1 ≤ r.last → doDelete r.first r.last r.value q = false) := by
  rw [insertRange_rangeMap, mem_emplace (t.sorted_swept _ _ _)] at hq
  rcases hq with hq | ⟨rfl, -⟩
  · exact .inr (of_mem_swept hq)
  · exact .inl rfl

theorem mem_insertRange (hq : q ∈ t.rangeMap) (hk : doDelete r.first r.last r.value q = false) :
    q ∈ (t.insertRange r).rangeMap := by
  rw [insertRange_rangeMap, mem_emplace (t.sorted_swept _ _ _)]
  exact .inl (mem_swept hq hk)

theorem doDelete_eq_true (hd : doDelete r.first r.last r.value q = true) (hq : q.1 ≤ q.2.1) :
    q.1 ≤ r.last ∧ r.first ≤ q.2.1 := by
  simp only [doDelete, doDeleteDueToOverlap, doDeleteDueToTotalOverlap, Bool.or_eq_true, Bool.and_eq_true,
    decide_eq_true_eq] at hd
  rcases hd with ⟨⟨hl, hf⟩, -⟩ | ⟨hf, hl⟩
  · exact ⟨hl, hf⟩
  · exact ⟨hq.trans hl, hf.trans hq⟩

/-- A range that the loop leaves although it starts inside the inserted one has the same value and ends later. -/
theorem of_doDelete_eq_false (hd : doDelete r.first r.last r.value q = false) (hs : r.first ≤ q.1)
    (he : q.1 ≤ r.last) : r.last < q.2.1 ∧ q.2.2 = r.value := by
  simp only [doDelete, doDeleteDueToOverlap, doDeleteDueToTotalOverlap, Bool.or_eq_false_iff,
    Bool.and_eq_false_iff, decide_eq_false_iff_not, hs, he, not_true_eq_false, false_or, not_le, not_not] at hd
  obtain ⟨hv, hlt⟩ := hd
  refine ⟨hlt, hv.resolve_left fun h ↦ ?_⟩
  exact absurd (h.trans_le (r.le)) (not_lt.mpr hlt.le)

theorem exists_first : ∃ f, r.last ≤ f ∧ (r.first, f, r.value) ∈ (t.insertRange r).rangeMap := by
  simp only [insertRange_rangeMap, mem_emplace (t.sorted_swept _ _ _)]
  by_cases hkey : ∀ q ∈ t.swept r.first r.last r.value, q.1 ≠ r.first
  · exact ⟨r.last, le_rfl, .inr ⟨rfl, hkey⟩⟩
  push Not at hkey
  obtain ⟨q, hq, hfirst⟩ := hkey
  obtain ⟨-, hkept⟩ := of_mem_swept hq
  obtain ⟨hlast, hvalue⟩ := of_doDelete_eq_false (hkept hfirst.ge (hfirst.trans_le r.le)) hfirst.ge
    (hfirst.trans_le r.le)
  have hq' : (r.first, q.2.1, r.value) = q := Prod.ext hfirst.symm (Prod.ext rfl hvalue.symm)
  exact ⟨q.2.1, hlast.le, .inl (by rwa [hq'])⟩

theorem Proper.insertRange (h : Proper t.rangeMap) : Proper (t.insertRange r).rangeMap := by
  intro q hq
  rcases of_mem_insertRange hq with rfl | ⟨hq, -⟩
  · exact r.le
  · exact h q hq

theorem insertReadsEnd_iff : t.insertReadsEnd r.first r.last r.value = true ↔ ∀ q ∈ t.rangeMap, q.1 ≤ r.last := by
  rw [insertReadsEnd, sweep_readsEnd (t.sorted_drop _)]
  exact t.forall_drop_iff r.le

end Insert

def build (rs : List (Range α β)) : Extents α β := rs.foldl insertRange empty

theorem build_concat (rs : List (Range α β)) (r : Range α β) : build (rs ++ [r]) = (build rs).insertRange r := by
  rw [build, foldl_append]
  rfl

theorem proper_build (rs : List (Range α β)) : Proper (build rs).rangeMap := by
  induction rs using reverseRecOn with
  | nil => exact fun q hq ↦ absurd hq not_mem_nil
  | append_singleton rs r ih =>
    rw [build_concat]
    exact ih.insertRange

section Lookup

variable {t : Extents α β} {r : Range α β} {x : α}

/-- The last range that starts at or below an address of the inserted one has its value and reaches its end. -/
theorem holds_inserted (hx : r.Contains x) : Holds (t.insertRange r).rangeMap x r.value := by
  obtain ⟨f, hf, hmem⟩ := exists_first (t := t)
  obtain ⟨p, hfloor⟩ := exists_floor (t.insertRange r).sorted hmem hx.1
  have hstart : r.first ≤ p.1 := hfloor.greatest _ hmem hx.1
  rcases of_mem_insertRange hfloor.mem with rfl | ⟨-, hkept⟩
  · exact ⟨_, hfloor, hx.2, rfl⟩
  have hend : p.1 ≤ r.last := hfloor.le.trans hx.2
  obtain ⟨hlast, hvalue⟩ := of_doDelete_eq_false (hkept hstart hend) hstart hend
  exact ⟨p, hfloor, hx.2.trans hlast.le, hvalue⟩

/-- No stored range that overlaps the inserted one has the address, nor does the inserted one. -/
def Untouched (t : Extents α β) (r : Range α β) (x : α) : Prop :=
  ¬ r.Contains x ∧ ∀ p ∈ t.rangeMap, p.1 ≤ r.last → r.first ≤ p.2.1 → ¬ (p.1 ≤ x ∧ x ≤ p.2.1)

theorem holds_untouched (hp : Proper t.rangeMap) (hx : Untouched t r x) (w : β) :
    Holds (t.insertRange r).rangeMap x w ↔ Holds t.rangeMap x w := by
  constructor
  · rintro ⟨q, hq, hle, rfl⟩
    rcases of_mem_insertRange hq.mem with rfl | ⟨hmem, -⟩
    · exact absurd ⟨hq.le, hle⟩ hx.1
    refine ⟨q, ⟨hmem, hq.le, fun p hpm hpx ↦ ?_⟩, hle, rfl⟩
    by_contra hlt
    rw [not_le] at hlt
    -- A range between `q` and the address was erased, so it and hence `q` overlap the inserted one.
    have herased : doDelete r.first r.last r.value p = true := by
      by_contra hd
      exact absurd (hq.greatest p (mem_insertRange hpm (Bool.eq_false_iff.mpr hd)) hpx) (not_le.mpr hlt)
    obtain ⟨hl, hf⟩ := doDelete_eq_true herased (hp p hpm)
    have hpast : p.2.1 < x := not_le.mp fun h ↦ hx.2 p hpm hl hf ⟨hpx, h⟩
    exact hx.2 q hmem (hlt.le.trans hl) (hf.trans (hpast.le.trans hle)) ⟨hq.le, hle⟩
  · rintro ⟨p, hfloor, hle, rfl⟩
    have hapart : ¬ (p.1 ≤ r.last ∧ r.first ≤ p.2.1) := fun h ↦ hx.2 p hfloor.mem h.1 h.2 ⟨hfloor.le, hle⟩
    have hkept : doDelete r.first r.last r.value p = false :=
      Bool.eq_false_iff.mpr fun hd ↦ hapart (doDelete_eq_true hd (hp p hfloor.mem))
    refine ⟨p, ⟨mem_insertRange hfloor.mem hkept, hfloor.le, fun q hq hqx ↦ ?_⟩, hle, rfl⟩
    rcases of_mem_insertRange hq with rfl | ⟨hmem, -⟩
    · by_contra hlt
      rw [not_le] at hlt
      exact hapart ⟨hlt.le.trans r.le, hqx.trans hle⟩
    · exact hfloor.greatest q hmem hqx

theorem lookup_untouched (hp : Proper t.rangeMap) (hx : Untouched t r x) :
    (t.insertRange r).defined x x = t.defined x x ∧ (t.insertRange r).atAddress x x = t.atAddress x x := by
  refine ⟨Bool.eq_iff_iff.mpr ?_, ?_⟩
  · rw [defined_iff, defined_iff]
    exact exists_congr (holds_untouched hp hx)
  by_cases h : ∃ w, Holds t.rangeMap x w
  · obtain ⟨w, hw⟩ := h
    rw [(atAddress_eq_ok _ _ _).mpr hw, (atAddress_eq_ok _ _ _).mpr ((holds_untouched hp hx w).mpr hw)]
  · rw [not_exists] at h
    rw [atAddress_eq_error _ h, atAddress_eq_error _ fun w hw ↦ h w ((holds_untouched hp hx w).mp hw)]

end Lookup

/-- No stored range of the same value has the inserted one inside it and ends later, and none but an equal one lies
inside the inserted one. -/
def Unnested (t : Extents α β) (r : Range α β) : Prop :=
  ∀ p ∈ t.rangeMap, p.2.2 = r.value → ¬ (p.1 ≤ r.first ∧ r.last < p.2.1) ∧
    (r.first ≤ p.1 → p.2.1 ≤ r.last → p.1 = r.first ∧ p.2.1 = r.last)

/-- The range is stored as it was inserted, and what starts inside it reaches at least as far, with the same value. -/
structure Stands (t : Extents α β) (a : Range α β) : Prop where
  mem : (a.first, a.last, a.value) ∈ t.rangeMap
  inside : ∀ p ∈ t.rangeMap, a.Contains p.1 → a.last ≤ p.2.1 ∧ p.2.2 = a.value

section Stands

variable {t : Extents α β} {a r : Range α β}

omit [DecidableEq β] in
theorem Stands.holds (h : Stands t a) (hx : a.Contains x) : Holds t.rangeMap x a.value := by
  obtain ⟨p, hfloor⟩ := exists_floor t.sorted h.mem hx.1
  obtain ⟨hlast, hvalue⟩ := h.inside p hfloor.mem ⟨hfloor.greatest _ h.mem hx.1, hfloor.le.trans hx.2⟩
  exact ⟨p, hfloor, hx.2.trans hlast, hvalue⟩

theorem stands_inserted (hr : Unnested t r) : Stands (t.insertRange r) r := by
  refine ⟨?_, fun p hp hin ↦ ?_⟩
  · obtain ⟨f, hf, hmem⟩ := exists_first (t := t)
    rcases of_mem_insertRange hmem with heq | ⟨hold, -⟩
    · exact heq ▸ hmem
    · obtain rfl : f = r.last := hf.antisymm' (not_lt.mp fun hlt ↦ (hr _ hold rfl).1 ⟨le_rfl, hlt⟩)
      exact hmem
  rcases of_mem_insertRange hp with rfl | ⟨-, hkept⟩
  · exact ⟨le_rfl, rfl⟩
  · exact (of_doDelete_eq_false (hkept hin.1 hin.2) hin.1 hin.2).imp_left le_of_lt

theorem Stands.insertRange (h : Stands t a) (hr : Unnested t r) (hv : r.Overlaps a → r.value = a.value) :
    Stands (t.insertRange r) a := by
  refine ⟨?_, fun p hp hin ↦ ?_⟩
  · by_cases hd : doDelete r.first r.last r.value (a.first, a.last, a.value) = true
    · obtain ⟨hl, hf⟩ := doDelete_eq_true hd a.le
      have hvalue := hv ⟨hf, hl⟩
      simp only [doDelete, doDeleteDueToOverlap, doDeleteDueToTotalOverlap, Bool.or_eq_true, Bool.and_eq_true,
        decide_eq_true_eq, hvalue, ne_eq, not_true_eq_false, and_false, false_or] at hd
      obtain ⟨hfirst, hlast⟩ := (hr _ h.mem hvalue.symm).2 hd.1 hd.2
      obtain ⟨f, l, v, hle⟩ := a
      obtain rfl : f = r.first := hfirst
      obtain rfl : l = r.last := hlast
      obtain rfl : r.value = v := hvalue
      exact (stands_inserted hr).mem
    · exact mem_insertRange h.mem (Bool.eq_false_iff.mpr hd)
  · rcases of_mem_insertRange hp with rfl | ⟨hmem, -⟩
    · have hvalue := hv ⟨hin.2, hin.1.trans r.le⟩
      exact ⟨not_lt.mp fun hlt ↦ (hr _ h.mem hvalue.symm).1 ⟨hin.1, hlt⟩, hvalue⟩
    · exact h.inside p hmem hin

end Stands

def AllUnnested (rs : List (Range α β)) : Prop := ∀ pre r post, rs = pre ++ r :: post → Unnested (build pre) r

theorem allUnnested_concat (rs : List (Range α β)) (r : Range α β) :
    AllUnnested (rs ++ [r]) ↔ AllUnnested rs ∧ Unnested (build rs) r := by
  refine ⟨fun h ↦ ⟨fun pre r' post he ↦ h pre r' (post ++ [r]) (by simp [he]), h rs r [] rfl⟩, ?_⟩
  rintro ⟨h, hr⟩ pre r' post he
  rcases eq_nil_or_concat post with rfl | ⟨post, last, rfl⟩
  · obtain ⟨rfl, hl⟩ := append_inj' he rfl
    exact head_eq_of_cons_eq hl ▸ hr
  · have he' : rs ++ [r] = (pre ++ r' :: post) ++ [last] := by simpa using he
    exact h pre r' post (append_inj' he' rfl).1

theorem stands_build {pre post : List (Range α β)} (h : AllUnnested (pre ++ a :: post))
    (hv : ∀ b ∈ post, b.Overlaps a → b.value = a.value) : Stands (build (pre ++ a :: post)) a := by
  induction post using reverseRecOn with
  | nil =>
    rw [build_concat]
    exact stands_inserted (h pre a [] rfl)
  | append_singleton post r ih =>
    have hsplit : pre ++ a :: (post ++ [r]) = (pre ++ a :: post) ++ [r] := by simp
    rw [hsplit] at h ⊢
    rw [build_concat]
    obtain ⟨hbefore, hr⟩ := (allUnnested_concat _ _).mp h
    refine (ih hbefore fun b hb ↦ hv b (mem_append_left _ hb)).insertRange hr ?_
    exact hv r (mem_append_right _ mem_cons_self)

theorem build_lookups (rs : List (Range α β)) (r : Range α β) :
    (∀ x, r.Contains x → (build (rs ++ [r])).defined x x = true ∧
      (build (rs ++ [r])).atAddress x x = .ok r.value) ∧
    (∀ x, Untouched (build rs) r x → (build (rs ++ [r])).defined x x = (build rs).defined x x ∧
      (build (rs ++ [r])).atAddress x x = (build rs).atAddress x x) ∧
    (AllUnnested (rs ++ [r]) → ∀ pre a post, rs ++ [r] = pre ++ a :: post →
      (∀ b ∈ post, b.Overlaps a → b.value = a.value) → ∀ x, a.Contains x →
        (build (rs ++ [r])).defined x x = true ∧ (build (rs ++ [r])).atAddress x x = .ok a.value) ∧
    (∀ x, (build (rs ++ [r])).defined x x = true ↔ ∃ w, (build (rs ++ [r])).atAddress x x = .ok w) ∧
    ((build rs).insertReadsEnd r.first r.last r.value = true ↔ ∀ p ∈ (build rs).rangeMap, p.1 ≤ r.last) ∧
    (∀ x, (build (rs ++ [r])).definedReadsEnd x x = (build (rs ++ [r])).keyReadsEnd x x ∧
      ((build (rs ++ [r])).keyReadsEnd x x = true ↔ ∀ p ∈ (build (rs ++ [r])).rangeMap, p.1 ≤ x)) := by
  have hfound : ∀ {x : α} {w : β}, Holds (build (rs ++ [r])).rangeMap x w →
      (build (rs ++ [r])).defined x x = true ∧ (build (rs ++ [r])).atAddress x x = .ok w :=
    fun h ↦ ⟨(defined_iff _ _).mpr ⟨_, h⟩, (atAddress_eq_ok _ _ _).mpr h⟩
  refine ⟨fun x hx ↦ hfound ?_, fun x hx ↦ ?_, fun h pre a post he hv x hx ↦ hfound ?_,
    by simp only [defined_iff, atAddress_eq_ok, implies_true], insertReadsEnd_iff,
    fun x ↦ ⟨definedReadsEnd_eq _ _ _, (keyLoop_cases _ x).2⟩⟩
  · rw [build_concat]
    exact holds_inserted hx
  · rw [build_concat]
    exact lookup_untouched (proper_build rs) hx
  · rw [he] at h ⊢
    exact (stands_build h hv).holds hx

/-- Two bans that overlap and a range with another value apart from them: an address of the first ban stays banned. -/
theorem build_lookups_banned : (build [⟨10, 20, 1, by decide⟩, ⟨15, 30, 1, by decide⟩, ⟨40, 50, 0, by decide⟩] :
      Extents (Fin (2 ^ 32)) ℤ).atAddress 12 12 = .ok 1 := by
  refine ((build_lookups [⟨10, 20, 1, by decide⟩, ⟨15, 30, 1, by decide⟩] ⟨40, 50, 0, by decide⟩).2.2.1 ?_
    [] ⟨10, 20, 1, by decide⟩ _ rfl ?_ 12 ?_).2
  · refine (allUnnested_concat [_, _] _).mpr ⟨(allUnnested_concat [_] _).mpr
      ⟨(allUnnested_concat [] _).mpr ⟨fun _ _ _ h ↦ by simp at h, ?_⟩, ?_⟩, ?_⟩
    all_goals
      unfold Unnested
      decide
  · unfold Range.Overlaps
    decide
  · unfold Range.Contains
    decide

/-- The second ban lies inside the first: the addresses above it are no longer found, although no other value was
ever inserted. The first `insert` has read the end iterator of the empty table. -/
theorem build_lookups_nested : (∀ b ∈ [(⟨10, 20, 1, by decide⟩ : Range (Fin (2 ^ 32)) ℤ)],
      b.Overlaps ⟨0, 100, 1, by decide⟩ → b.value = 1) ∧
    (build [⟨0, 100, 1, by decide⟩, ⟨10, 20, 1, by decide⟩] : Extents (Fin (2 ^ 32)) ℤ).defined 50 50 = false ∧
    (empty : Extents (Fin (2 ^ 32)) ℤ).insertReadsEnd 0 100 1 = true :=
  ⟨by simp, by decide, by decide⟩

end LibTorrent.Extents
