import Mathlib.Data.List.Basic

namespace Lib.Lexicographic

open List

variable {α : Type} {less : α → α → Bool} {a b c : List α}

structure Strict (less : α → α → Bool) : Prop where
  irrefl : ∀ x, less x x = false
  trans : ∀ x y z, less x y = true → less y z = true → less x z = true
  connected : ∀ x y, less x y = false → less y x = false → x = y

def lexCompare (less : α → α → Bool) : List α → List α → Bool
  | _, [] => false
  | [], _ :: _ => true
  | x :: a, y :: b => if less x y then true else if less y x then false else lexCompare less a b

/-- `std::adjacent_find`, and whether it finds anything. -/
def adjacentFind (p : α → α → Bool) : List α → Bool
  | x :: y :: l => p x y || adjacentFind p (y :: l)
  | _ => false

theorem lexCompare_cons (h : Strict less) (x y : α) :
    lexCompare less (x :: a) (y :: b) = true ↔ less x y = true ∨ x = y ∧ lexCompare less a b = true := by
  rw [lexCompare]
  split_ifs with hxy hyx
  · exact iff_of_true rfl (.inl hxy)
  · refine iff_of_false (by decide) ?_
    rintro (hlt | ⟨rfl, -⟩)
    · exact hxy hlt
    · exact hxy hyx
  · have heq : x = y := h.connected x y (by simpa using hxy) (by simpa using hyx)
    exact ⟨fun hlt ↦ .inr ⟨heq, hlt⟩, fun hlt ↦ (hlt.resolve_left hxy).2⟩

theorem Strict.lexCompare (h : Strict less) : Strict (lexCompare less) where
  irrefl a := by
    induction a with
    | nil => rfl
    | cons x a ih => rw [Lexicographic.lexCompare, if_neg (by simp [h.irrefl]), if_neg (by simp [h.irrefl]), ih]
  trans a b c := by
    induction a generalizing b c with
    | nil =>
      intro hab hbc
      cases c with
      | nil => cases b <;> exact hbc
      | cons z c => rfl
    | cons x a ih =>
      intro hab hbc
      cases b with
      | nil => exact absurd hab (by simp [Lexicographic.lexCompare])
      | cons y b =>
        cases c with
        | nil => exact absurd hbc (by simp [Lexicographic.lexCompare])
        | cons z c =>
          rw [lexCompare_cons h] at hab hbc ⊢
          rcases hab with hxy | ⟨rfl, hab⟩
          · rcases hbc with hyz | ⟨rfl, -⟩
            · exact .inl (h.trans x y z hxy hyz)
            · exact .inl hxy
          rcases hbc with hyz | ⟨rfl, hbc⟩
          · exact .inl hyz
          · exact .inr ⟨rfl, ih b c hab hbc⟩
  connected a b := by
    induction a generalizing b with
    | nil =>
      intro hab _
      cases b with
      | nil => rfl
      | cons y b => exact absurd hab (by simp [Lexicographic.lexCompare])
    | cons x a ih =>
      intro hab hba
      cases b with
      | nil => exact absurd hba (by simp [Lexicographic.lexCompare])
      | cons y b =>
        rw [← Bool.not_eq_true, lexCompare_cons h, not_or, not_and, Bool.not_eq_true, Bool.not_eq_true] at hab hba
        have heq : x = y := h.connected x y hab.1 hba.1
        rw [heq, ih b (hab.2 heq) (hba.2 heq.symm)]

theorem lexCompare_prefix_left (h : Strict less) (hab : a <+: b) : lexCompare less b a = false := by
  induction a generalizing b with
  | nil => cases b <;> rfl
  | cons x a ih =>
    obtain ⟨b, rfl, htail⟩ := cons_prefix_iff.mp hab
    rw [lexCompare, if_neg (by simp [h.irrefl]), if_neg (by simp [h.irrefl]), ih htail]

theorem prefix_of_between (h : Strict less) (hab : a <+: b) (hac : lexCompare less c a = false)
    (hcb : lexCompare less b c = false) : a <+: c := by
  induction a generalizing b c with
  | nil => exact nil_prefix
  | cons x a ih =>
    obtain ⟨b, rfl, htail⟩ := cons_prefix_iff.mp hab
    cases c with
    | nil => exact absurd hac (by simp [lexCompare])
    | cons y c =>
      rw [← Bool.not_eq_true, lexCompare_cons h, not_or, not_and, Bool.not_eq_true, Bool.not_eq_true] at hac hcb
      obtain rfl : x = y := h.connected x y hcb.1 hac.1
      exact (prefix_cons_inj x).mpr (ih htail (hac.2 rfl) (hcb.2 rfl))

variable {p : List α → List α → Bool}

/-- In a sorted list it is enough to compare neighbours: if one list begins another, then it begins the next one. -/
theorem pairwise_prefix_free (h : Strict less) (hp : ∀ a b, p a b = true ↔ a <+: b)
    {l : List (List α)} (hsorted : l.Pairwise fun a b ↦ lexCompare less b a = false)
    (hnone : adjacentFind p l = false) : l.Pairwise fun a b ↦ ¬ a <+: b ∧ ¬ b <+: a := by
  induction l with
  | nil => exact .nil
  | cons a l ih =>
    cases l with
    | nil => exact pairwise_singleton ..
    | cons c l =>
      rw [adjacentFind, Bool.or_eq_false_iff, ← Bool.not_eq_true, hp] at hnone
      rw [pairwise_cons] at hsorted
      have hnext (b : List α) (hb : b ∈ c :: l) : ¬ a <+: b := by
        intro hab
        rcases mem_cons.mp hb with rfl | hmem
        · exact hnone.1 hab
        · have hac := hsorted.1 c mem_cons_self
          exact hnone.1 (prefix_of_between h hab hac (rel_of_pairwise_cons hsorted.2 hmem))
      refine pairwise_cons.mpr ⟨fun b hb ↦ ⟨hnext b hb, fun hba ↦ ?_⟩, ih hsorted.2 hnone.2⟩
      have heq : a = b := h.lexCompare.connected a b (lexCompare_prefix_left h hba) (hsorted.1 b hb)
      exact hnext b hb (heq ▸ prefix_rfl)

/-- The sorted order of the lists does not matter for what holds of any two of them. -/
theorem pairwise_of_sort (h : Strict less) (hp : ∀ a b, p a b = true ↔ a <+: b)
    (l : List (List α)) (hnone : adjacentFind p (l.mergeSort fun a b ↦ !lexCompare less b a) = false) :
    l.Pairwise fun a b ↦ ¬ a <+: b ∧ ¬ b <+: a := by
  have hsorted : (l.mergeSort fun a b ↦ !lexCompare less b a).Pairwise fun a b ↦ lexCompare less b a = false := by
    refine (pairwise_mergeSort (fun a b c hab hbc ↦ ?_) (fun a b ↦ ?_) l).imp fun hab ↦ by simpa using hab
    · rw [Bool.not_eq_true'] at hab hbc ⊢
      by_contra hca
      rw [Bool.not_eq_false] at hca
      rcases Bool.eq_false_or_eq_true (lexCompare less a b) with hlt | hge
      · exact absurd (h.lexCompare.trans c a b hca hlt) (by simp [hbc])
      · obtain rfl : a = b := h.lexCompare.connected a b hge hab
        exact absurd hca (by simp [hbc])
    · rw [Bool.or_eq_true, Bool.not_eq_true', Bool.not_eq_true']
      by_contra hn
      rw [not_or, Bool.not_eq_false, Bool.not_eq_false] at hn
      exact absurd (h.lexCompare.trans a b a hn.2 hn.1) (by simp [h.lexCompare.irrefl])
  exact (List.Perm.pairwise_iff And.symm (mergeSort_perm ..)).mp (pairwise_prefix_free h hp hsorted hnone)

end Lib.Lexicographic
