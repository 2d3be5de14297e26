import Mathlib.Order.Lattice

namespace LibTorrent

open List

/-- `torrent::ranges`: half open intervals in order, with a gap between each two of them. -/
structure Ranges (α : Type) [LinearOrder α] where
  list : List (α × α)
  nonempty : ∀ r ∈ list, r.1 < r.2
  sorted : list.Pairwise fun r r' ↦ r.2 < r'.1

namespace Ranges

variable {α : Type} [LinearOrder α]

def find (ranges : Ranges α) (index : α) : List (α × α) := ranges.list.dropWhile fun v ↦ v.2 ≤ index

def has (ranges : Ranges α) (index : α) : Bool :=
  match ranges.find index with
  | [] => false
  | v :: _ => v.1 ≤ index

variable {ranges : Ranges α} {r : α × α} {i : α}

theorem mem_dropWhile {l : List (α × α)} (hne : ∀ r ∈ l, r.1 < r.2) (hsorted : l.Pairwise fun r r' ↦ r.2 < r'.1) :
    r ∈ l.dropWhile (fun v ↦ v.2 ≤ i) ↔ r ∈ l ∧ i < r.2 := by
  induction l with
  | nil => simp
  | cons v l ih =>
    rw [pairwise_cons] at hsorted
    have hl : ∀ r ∈ l, r.1 < r.2 := fun r hr ↦ hne r (mem_cons_of_mem v hr)
    by_cases hv : v.2 ≤ i
    · rw [dropWhile_cons, if_pos (decide_eq_true hv), ih hl hsorted.2, mem_cons]
      refine and_congr_left fun hr ↦ (or_iff_right ?_).symm
      rintro rfl
      exact absurd hr (not_lt.mpr hv)
    rw [dropWhile_cons, if_neg (by simpa using hv)]
    refine (and_iff_left_of_imp fun hr ↦ ?_).symm
    rcases mem_cons.mp hr with rfl | hr
    · exact not_le.mp hv
    · exact (not_le.mp hv).trans ((hsorted.1 r hr).trans (hl r hr))

theorem mem_find : r ∈ ranges.find i ↔ r ∈ ranges.list ∧ i < r.2 := mem_dropWhile ranges.nonempty ranges.sorted

theorem pairwise_find (ranges : Ranges α) (i : α) : (ranges.find i).Pairwise fun r r' ↦ r.2 < r'.1 :=
  ranges.sorted.sublist (dropWhile_sublist _)

theorem has_iff : ranges.has i = true ↔ ∃ r ∈ ranges.list, r.1 ≤ i ∧ i < r.2 := by
  have hsorted := pairwise_find ranges i
  have hmem (r : α × α) : r ∈ ranges.find i ↔ r ∈ ranges.list ∧ i < r.2 := mem_find
  rw [has]
  split
  · rename_i hnil
    refine iff_of_false (by decide) fun ⟨r, hr, _, hlt⟩ ↦ ?_
    have := (hmem r).mpr ⟨hr, hlt⟩
    rw [hnil] at this
    exact not_mem_nil this
  rename_i v l hcons
  rw [hcons] at hsorted hmem
  rw [decide_eq_true_iff]
  constructor
  · intro hv
    have hv' := (hmem v).mp mem_cons_self
    exact ⟨v, hv'.1, hv, hv'.2⟩
  rintro ⟨r, hr, hle, hlt⟩
  rcases mem_cons.mp ((hmem r).mpr ⟨hr, hlt⟩) with rfl | hr'
  · exact hle
  · have hlt' := ((hmem v).mp mem_cons_self).2
    exact absurd hle (not_le.mpr (hlt'.trans (rel_of_pairwise_cons hsorted hr')))

end Ranges

def rangesInsert (r : ℕ × ℕ) (rs : List (ℕ × ℕ)) : List (ℕ × ℕ) :=
  if r.2 ≤ r.1 then rs
  else
    let before := rs.takeWhile fun v ↦ v.2 < r.1
    match rs.dropWhile fun v ↦ v.2 < r.1 with
    | [] => before ++ [r]
    | first :: rest =>
      if r.2 < first.1 then before ++ r :: first :: rest
      else
        let lower := min r.1 first.1
        let upper := max r.2 first.2
        match rest.dropWhile fun v ↦ v.2 ≤ upper with
        | [] => before ++ [(lower, upper)]
        | last :: rest =>
          if last.1 ≤ upper then before ++ (lower, last.2) :: rest else before ++ (lower, upper) :: last :: rest

theorem rangesInsert_spec {r : ℕ × ℕ} (hr : r.1 < r.2) (ranges : Ranges ℕ) : ∃ t : Ranges ℕ,
    t.list = rangesInsert r ranges.list ∧ ∀ i, t.has i = true ↔ r.1 ≤ i ∧ i < r.2 ∨ ranges.has i = true := by
  suffices (∀ w ∈ rangesInsert r ranges.list, w.1 < w.2) ∧
      (rangesInsert r ranges.list).Pairwise (fun r r' ↦ r.2 < r'.1) ∧
      ∀ i, (∃ w ∈ rangesInsert r ranges.list, w.1 ≤ i ∧ i < w.2) ↔
        r.1 ≤ i ∧ i < r.2 ∨ ∃ w ∈ ranges.list, w.1 ≤ i ∧ i < w.2 from
    ⟨⟨_, this.1, this.2.1⟩, rfl, by simpa [Ranges.has_iff] using this.2.2⟩
  obtain ⟨l, hne, hsorted⟩ := ranges
  have hl := takeWhile_append_dropWhile (p := fun v : ℕ × ℕ ↦ decide (v.2 < r.1)) (l := l)
  have hb : ∀ v ∈ l.takeWhile fun v ↦ decide (v.2 < r.1), v.2 < r.1 := fun v hv ↦ by
    simpa using all_eq_true.mp all_takeWhile v hv
  have hd := head?_dropWhile_not (fun v : ℕ × ℕ ↦ decide (v.2 < r.1)) l
  rw [rangesInsert, if_neg hr.not_ge]
  generalize l.takeWhile _ = b, l.dropWhile _ = d at *
  subst hl
  simp only [mem_append, or_imp, forall_and] at hne
  obtain ⟨hb', hd', hbd⟩ := pairwise_append.mp hsorted
  rcases d with _ | ⟨v, d⟩
  on_goal 2 =>
    obtain ⟨hv, hd'⟩ := pairwise_cons.mp hd'
    have hpair := hd'.sublist (dropWhile_sublist fun w ↦ w.2 ≤ max r.2 v.2)
    have hmem (w : ℕ × ℕ) := Ranges.mem_dropWhile (r := w) (i := max r.2 v.2) (forall_mem_cons.mp hne.2).2 hd'
    replace hd : r.1 ≤ v.2 := by simpa using hd
    dsimp only
    generalize d.dropWhile _ = m at *
    have hrest : ∀ w ∈ d, w ∈ m ∨ w.2 ≤ max r.2 v.2 := by grind
    split_ifs with h₁
    on_goal 2 =>
      rcases m with _ | ⟨w, m⟩
      on_goal 2 =>
        have hw := (hmem w).mp mem_cons_self
        dsimp only
        split_ifs with h₂
  all_goals
    refine ⟨by grind, by grind [pairwise_cons], fun i ↦ ?_⟩
    simp only [mem_append, mem_cons, or_and_right, exists_or, exists_eq_left]
    grind

/-- After any inserts the ranges are apart and in order, and cover what was inserted. -/
theorem foldl_rangesInsert (rs : List (ℕ × ℕ)) (ranges : Ranges ℕ) : ∃ t : Ranges ℕ,
    t.list = rs.foldl (fun l r ↦ rangesInsert r l) ranges.list ∧
      ∀ i, t.has i = true ↔ ranges.has i = true ∨ ∃ r ∈ rs, r.1 ≤ i ∧ i < r.2 := by
  induction rs generalizing ranges with
  | nil => exact ⟨ranges, rfl, by simp⟩
  | cons r rs ih =>
    rw [List.foldl_cons]
    by_cases hr : r.1 < r.2
    · obtain ⟨t, ht, hi⟩ := rangesInsert_spec hr ranges
      obtain ⟨u, hu, hj⟩ := ih t
      exact ⟨u, ht ▸ hu, by grind⟩
    · obtain ⟨t, ht, hi⟩ := ih ranges
      rw [rangesInsert, if_pos (Nat.not_lt.mp hr)]
      exact ⟨t, ht, by grind⟩

end LibTorrent
