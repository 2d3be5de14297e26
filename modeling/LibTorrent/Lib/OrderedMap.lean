import Mathlib.Data.List.Basic
import Mathlib.Data.List.TakeWhile
import Mathlib.Order.Lattice

namespace Lib.OrderedMap

open List

section

variable {κ ν : Type} [LE κ] [LT κ] [DecidableLT κ] [DecidableEq κ]

def Sorted (m : List (κ × ν)) : Prop := m.Pairwise (fun p q ↦ p.1 < q.1)

def insert (m : List (κ × ν)) (k : κ) (v : ν) : List (κ × ν) :=
  match m with
  | [] => [(k, v)]
  | p :: m => if k < p.1 then (k, v) :: p :: m else if k = p.1 then (k, v) :: m else p :: insert m k v

omit [LE κ] in
theorem mem_insert {v : ν} {p : κ × ν} (h : p ∈ insert m k v) : p = (k, v) ∨ p ∈ m := by
  induction m with
  | nil => simpa [insert] using h
  | cons q m ih =>
    rw [insert] at h
    split_ifs at h
    · simpa using h
    · exact (mem_cons.mp h).imp_right (mem_cons_of_mem q)
    rcases mem_cons.mp h with rfl | h
    · exact .inr mem_cons_self
    · exact (ih h).imp_right (mem_cons_of_mem q)

variable [Std.LawfulOrderLT κ]

theorem insert_append {k : κ} (v : ν) (h : ∀ p ∈ m, p.1 < k) : insert m k v = m ++ [(k, v)] := by
  induction m with
  | nil => rfl
  | cons q m ih =>
    have hq : q.1 < k := h q mem_cons_self
    have hne : k ≠ q.1 := fun he ↦ Std.lt_irrefl (by simpa [← he] using hq)
    have hlt : ¬ k < q.1 := Std.not_lt_of_ge (Std.le_of_lt hq)
    rw [insert, if_neg hlt, if_neg hne, ih fun p hp ↦ h p (mem_cons_of_mem q hp)]
    rfl

end

variable {κ ν : Type} [LinearOrder κ]

def emplace : List (κ × ν) → κ → ν → List (κ × ν)
  | [], k, v => [(k, v)]
  | p :: m, k, v => if k < p.1 then (k, v) :: p :: m else if k = p.1 then p :: m else p :: emplace m k v

def upperBound (m : List (κ × ν)) (k : κ) : ℕ := (m.takeWhile (fun p ↦ p.1 ≤ k)).length

def lowerBound (m : List (κ × ν)) (k : κ) : List (κ × ν) := m.dropWhile fun p ↦ p.1 < k

structure IsFloor (m : List (κ × ν)) (k : κ) (p : κ × ν) : Prop where
  mem : p ∈ m
  le : p.1 ≤ k
  greatest : ∀ q ∈ m, q.1 ≤ k → q.1 ≤ p.1

variable {m : List (κ × ν)} {k : κ} {p q : κ × ν}

theorem Sorted.eq_of_key (h : Sorted m) (hp : p ∈ m) (hq : q ∈ m) (he : p.1 = q.1) : p = q := by
  induction m with
  | nil => simp at hp
  | cons r m ih =>
    obtain ⟨hr, hm⟩ := pairwise_cons.mp h
    rcases mem_cons.mp hp with hp' | hp' <;> rcases mem_cons.mp hq with hq' | hq'
    · exact hp'.trans hq'.symm
    · exact absurd he (hp' ▸ (hr q hq').ne)
    · exact absurd he (hq' ▸ (hr p hp').ne')
    · exact ih hm hp' hq'

theorem IsFloor.unique (h : Sorted m) (hp : IsFloor m k p) (hq : IsFloor m k q) : p = q :=
  h.eq_of_key hp.mem hq.mem ((hq.greatest p hp.mem hp.le).antisymm (hp.greatest q hq.mem hq.le))

theorem mem_emplace (h : Sorted m) {v : ν} : p ∈ emplace m k v ↔ p ∈ m ∨ p = (k, v) ∧ ∀ q ∈ m, q.1 ≠ k := by
  induction m with
  | nil => simp [emplace]
  | cons r m ih =>
    obtain ⟨hr, hm⟩ := pairwise_cons.mp h
    rw [emplace]
    split_ifs with hlt heq
    · have hfresh : ∀ q ∈ r :: m, q.1 ≠ k := by
        intro q hq
        rcases mem_cons.mp hq with rfl | hq
        · exact hlt.ne'
        · exact (hlt.trans (hr q hq)).ne'
      rw [mem_cons, or_comm]
      exact or_congr_right (and_iff_left hfresh).symm
    · simp [heq]
    · rw [mem_cons, ih hm, mem_cons, or_assoc]
      simp only [forall_mem_cons, Ne, Ne.symm (heq : k ≠ r.1), not_false_eq_true, true_and]

theorem emplace_append {pre post : List (κ × ν)} {v : ν} (hpre : ∀ q ∈ pre, q.1 < k) (hp : k < p.1) :
    emplace (pre ++ p :: post) k v = pre ++ (k, v) :: p :: post := by
  induction pre with
  | nil => exact if_pos hp
  | cons q pre ih =>
    have hq := hpre q mem_cons_self
    rw [cons_append, emplace, if_neg hq.not_gt, if_neg hq.ne', ih fun r hr ↦ hpre r (mem_cons_of_mem q hr)]
    rfl

theorem Sorted.emplace (h : Sorted m) (k : κ) (v : ν) : Sorted (emplace m k v) := by
  induction m with
  | nil => exact pairwise_singleton _ _
  | cons r m ih =>
    obtain ⟨hr, hm⟩ := pairwise_cons.mp h
    rw [OrderedMap.emplace]
    split_ifs with hlt heq
    · refine pairwise_cons.mpr ⟨fun q hq ↦ ?_, h⟩
      rcases mem_cons.mp hq with rfl | hq
      · exact hlt
      · exact hlt.trans (hr q hq)
    · exact h
    refine pairwise_cons.mpr ⟨fun q hq ↦ ?_, ih hm⟩
    rcases (mem_emplace hm).mp hq with hq | ⟨rfl, -⟩
    · exact hr q hq
    · exact lt_of_le_of_ne (not_lt.mp hlt) (Ne.symm heq)

theorem lt_of_mem_dropWhile (h : Sorted m) (hq : q ∈ m.dropWhile (fun p ↦ p.1 ≤ k)) : k < q.1 := by
  induction m with
  | nil => simp at hq
  | cons r m ih =>
    obtain ⟨hr, hm⟩ := pairwise_cons.mp h
    by_cases hk : r.1 ≤ k
    · rw [dropWhile_cons_of_pos (by simpa using hk)] at hq
      exact ih hm hq
    rw [dropWhile_cons_of_neg (by simpa using hk)] at hq
    rcases mem_cons.mp hq with rfl | hq
    · exact not_le.mp hk
    · exact (not_le.mp hk).trans (hr q hq)

/-- One step back from the upper bound: all keys are above `k`, or the floor of `k` comes next and only greater
keys after it. -/
theorem stepBack_cases (h : Sorted m) (k : κ) :
    (m.take (upperBound m k - 1) = [] ∧ m.drop (upperBound m k - 1) = m ∧ ∀ q ∈ m, k < q.1) ∨
      ∃ p rest, m.drop (upperBound m k - 1) = p :: rest ∧ IsFloor m k p ∧ (∀ q ∈ rest, k < q.1) ∧
        ∀ q ∈ m.take (upperBound m k - 1), q.1 < p.1 := by
  have hm : m.takeWhile (fun p ↦ p.1 ≤ k) ++ m.dropWhile (fun p ↦ p.1 ≤ k) = m := takeWhile_append_dropWhile
  have habove : ∀ q ∈ m.dropWhile (fun p ↦ p.1 ≤ k), k < q.1 := fun q hq ↦ lt_of_mem_dropWhile h hq
  rw [upperBound]
  rcases eq_nil_or_concat (m.takeWhile (fun p ↦ p.1 ≤ k)) with hnil | ⟨front, p, hfront⟩
  · rw [hnil, nil_append] at hm
    rw [hm] at habove
    exact .inl ⟨by simp [hnil], by simp [hnil], habove⟩
  right
  generalize hrest : m.dropWhile (fun p ↦ p.1 ≤ k) = rest at hm habove
  have hp : p.1 ≤ k := by
    have hmem : p ∈ m.takeWhile (fun p ↦ p.1 ≤ k) := by simp [hfront]
    simpa using mem_takeWhile_imp hmem
  rw [hfront, concat_eq_append, append_assoc, singleton_append] at hm
  have hlt : ∀ q ∈ front, q.1 < p.1 := by
    rw [← hm] at h
    exact fun q hq ↦ (pairwise_append.mp h).2.2 q hq p mem_cons_self
  have hlen : (m.takeWhile (fun p ↦ p.1 ≤ k)).length - 1 = front.length := by simp [hfront]
  rw [hlen]
  have htake : m.take front.length = front := by rw [← hm, take_left]
  have hdrop : m.drop front.length = p :: rest := by rw [← hm, drop_left]
  refine ⟨p, rest, hdrop, ⟨by simp [← hm], hp, ?_⟩, habove, by rwa [htake]⟩
  intro q hq hqk
  rw [← hm, mem_append, mem_cons] at hq
  rcases hq with hq | rfl | hq
  · exact (hlt q hq).le
  · exact le_rfl
  · exact absurd (habove q hq) (not_lt.mpr hqk)

theorem exists_floor (h : Sorted m) (hq : q ∈ m) (hk : q.1 ≤ k) : ∃ p, IsFloor m k p := by
  rcases stepBack_cases h k with ⟨-, -, habove⟩ | ⟨p, rest, -, hfloor, -, -⟩
  · exact absurd hk (habove q hq).not_ge
  · exact ⟨p, hfloor⟩

theorem lowerBound_of_mem {k' : κ} {v : ν} (h : Sorted m) (hk : ∀ x, x < k' ↔ ¬ k < x) (hv : (k, v) ∈ m) :
    lowerBound m k = (k, v) :: lowerBound m k' := by
  induction m with
  | nil => cases hv
  | cons r m ih =>
    obtain ⟨hr, hm⟩ := pairwise_cons.mp h
    rcases mem_cons.mp hv with rfl | hv
    · have hrest : lowerBound m k' = m := by
        cases m with
        | nil => rfl
        | cons q m => exact dropWhile_cons_of_neg (by simpa [hk] using hr q mem_cons_self)
      rw [lowerBound, lowerBound, dropWhile_cons_of_neg (by simp), dropWhile_cons_of_pos (by simp [hk])]
      exact congrArg _ hrest.symm
    have hlt : r.1 < k := hr _ hv
    rw [lowerBound, lowerBound, dropWhile_cons_of_pos (by simpa using hlt),
      dropWhile_cons_of_pos (by simpa [hk] using hlt.le)]
    exact ih hm hv

end Lib.OrderedMap
