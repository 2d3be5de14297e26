import Mathlib.Data.List.Nodup
import Mathlib.Data.List.Perm.Subperm
import Mathlib.Data.List.Range

namespace Lib.Store

open Function List

variable {α : Type} {n t : ℕ}

def weight (q : α → Bool) (o : Option α) : ℕ := if o.any q then 1 else 0

def tally (heap : ℕ → Option α) (n : ℕ) (q : α → Bool) : ℕ := (range n).countP fun t ↦ (heap t).any q

theorem tally_succ (heap : ℕ → Option α) (n : ℕ) (q : α → Bool) :
    tally heap (n + 1) q = tally heap n q + weight q (heap n) := by
  rw [tally, range_succ, countP_append, countP_singleton]
  rfl

theorem tally_congr {heap heap' : ℕ → Option α} {q q' : α → Bool}
    (h : ∀ t < n, (heap t).any q = (heap' t).any q') : tally heap n q = tally heap' n q' :=
  countP_congr fun t ht ↦ by rw [h t (mem_range.mp ht)]

theorem tally_update (heap : ℕ → Option α) (q : α → Bool) (ht : t < n) (o : Option α) :
    tally (update heap t o) n q + weight q (heap t) = tally heap n q + weight q o := by
  induction n with
  | zero => omega
  | succ n ih =>
    rw [tally_succ, tally_succ]
    by_cases h : t = n
    · subst h
      have hsame : tally (update heap t o) t q = tally heap t q := by
        apply tally_congr
        intro s hs
        rw [update_of_ne (by omega)]
      rw [update_self]
      omega
    · rw [update_of_ne (Ne.symm h)]
      omega

theorem weight_le_tally (heap : ℕ → Option α) (q : α → Bool) (ht : t < n) :
    weight q (heap t) ≤ tally heap n q := by
  have h := tally_update heap q ht none
  have h0 : weight q none = 0 := rfl
  omega

/-- The tally counts along any list without repetition that has all cells with the property. -/
theorem tally_eq_countP {heap : ℕ → Option α} {q : α → Bool} {l : List ℕ} (hl : l.Nodup) (hn : ∀ t ∈ l, t < n)
    (h : ∀ t, (heap t).any q = true → t ∈ l) : tally heap n q = l.countP fun t ↦ (heap t).any q := by
  have hp : ((range n).filter fun t ↦ (heap t).any q).Perm (l.filter fun t ↦ (heap t).any q) := by
    apply (perm_ext_iff_of_nodup (nodup_range.filter _) (hl.filter _)).mpr
    intro t
    simp only [mem_filter, mem_range]
    exact ⟨fun ht ↦ ⟨h t ht.2, ht.2⟩, fun ht ↦ ⟨hn t ht.1, ht.2⟩⟩
  rw [tally, countP_eq_length_filter, countP_eq_length_filter, hp.length_eq]

theorem perm_set {l : List α} {a : α} (ha : l[n]? = some a) (b : α) :
    ∃ l', l.Perm (a :: l') ∧ (l.set n b).Perm (b :: l') := by
  obtain ⟨hn, rfl⟩ := List.getElem?_eq_some_iff.mp ha
  exact ⟨l.eraseIdx n, (getElem_cons_eraseIdx_perm hn).symm, set_perm_cons_eraseIdx hn b⟩

theorem perm_dropLast_set {l : List α} {a b : α} (ha : l[n]? = some a)
    (hb : l.getLast? = some b) : l.Perm (a :: (l.set n b).dropLast) := by
  obtain ⟨l, rfl⟩ := getLast?_eq_some_iff.mp hb
  obtain ⟨hn, -⟩ := List.getElem?_eq_some_iff.mp ha
  rcases lt_or_ge n l.length with hlt | hge
  · rw [getElem?_append_left hlt] at ha
    obtain ⟨l', h₁, h₂⟩ := perm_set ha b
    rw [set_append_left _ _ hlt, dropLast_concat]
    calc (l ++ [b]).Perm (b :: l) := perm_append_singleton b l
      (b :: l).Perm (b :: a :: l') := h₁.cons b
      (b :: a :: l').Perm (a :: b :: l') := .swap a b l'
      (a :: b :: l').Perm (a :: l.set n b) := h₂.symm.cons a
  · obtain rfl : n = l.length := by simp at hn; omega
    rw [getElem?_concat_length, Option.some.injEq] at ha
    subst ha
    simp

end Lib.Store
