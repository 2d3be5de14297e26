import Mathlib.Data.List.Sort
import Mathlib.Data.List.TakeWhile
import Mathlib.Data.Multiset.AddSub

namespace Lib.SortedList

open List

section Operations

variable {α : Type} (less : α → α → Bool)

def Sorted (l : List α) : Prop := l.Pairwise fun a b ↦ less b a = false

def sort (l : List α) : List α := l.insertionSort fun a b ↦ less b a = false

/-- The values that the first of two sorted lists has more often than the second. What of the second is before a value of
the first is passed over. -/
def setDifference : List α → List α → List α
  | [], _ => []
  | a :: l, l' =>
    match l'.dropWhile fun b ↦ less b a with
    | [] => a :: setDifference l []
    | b :: rest => if less a b then a :: setDifference l (b :: rest) else setDifference l rest

structure Compares : Prop where
  asymm {a b : α} : less a b = true → less b a = false
  trans {a b c : α} : less b a = false → less c b = false → less c a = false
  antisymm {a b : α} : less a b = false → less b a = false → a = b

end Operations

variable {α : Type} {less : α → α → Bool} {l l' : List α}

theorem Compares.irrefl (hc : Compares less) (a : α) : less a a = false := by
  cases h : less a a with
  | false => rfl
  | true => exact h.symm.trans (hc.asymm h)

theorem sort_perm : (sort less l).Perm l := perm_insertionSort _ l

theorem sort_sorted (hc : Compares less) : Sorted less (sort less l) := by
  have htotal : Std.Total fun a b ↦ less b a = false := by
    constructor
    intro a b
    cases h : less b a with
    | false => exact .inl rfl
    | true => exact .inr (hc.asymm h)
  have htrans : IsTrans α fun a b ↦ less b a = false := ⟨fun _ _ _ ↦ hc.trans⟩
  exact pairwise_insertionSort _ l

theorem setDifference_sublist : (setDifference less l l').Sublist l := by
  induction l generalizing l' with
  | nil => exact .slnil
  | cons a l ih =>
    rw [setDifference]
    split
    · exact ih.cons_cons a
    split
    · exact ih.cons_cons a
    · exact ih.cons a

variable [DecidableEq α]

theorem count_setDifference (hc : Compares less) (h : Sorted less l) (h' : Sorted less l') (x : α) :
    (setDifference less l l').count x = l.count x - l'.count x := by
  induction l generalizing l' with
  | nil => rw [setDifference, count_nil, Nat.zero_sub]
  | cons a l ih =>
    obtain ⟨ha, hl⟩ := pairwise_cons.mp h
    by_cases hx : x ∈ a :: l
    · have hxa : less x a = false := by
        rcases mem_cons.mp hx with rfl | hx
        · exact hc.irrefl x
        · exact ha x hx
      have hpassed : (l'.takeWhile fun b ↦ less b a).count x = 0 := by
        refine count_eq_zero_of_not_mem fun hmem ↦ ?_
        have hpass : less x a = true := mem_takeWhile_imp (p := fun b ↦ less b a) hmem
        exact Bool.false_ne_true (hxa.symm.trans hpass)
      have hcount : l'.count x = (l'.dropWhile fun b ↦ less b a).count x := by
        conv_lhs => rw [← takeWhile_append_dropWhile (p := fun b ↦ less b a) (l := l')]
        rw [count_append, hpassed, Nat.zero_add]
      have hrest : Sorted less (l'.dropWhile fun b ↦ less b a) := h'.sublist (dropWhile_sublist _)
      rw [hcount, setDifference]
      cases hdrop : l'.dropWhile fun b ↦ less b a with
      | nil =>
        rw [count_cons, count_cons, ih hl .nil]
        rfl
      | cons b rest =>
        rw [hdrop] at hrest
        have hb : less b a = false := by
          have hhead := head_dropWhile_not (fun b ↦ less b a) (by rw [hdrop]; exact cons_ne_nil b rest)
          simpa only [hdrop, head_cons] using hhead
        dsimp only
        split_ifs with hab
        · have hnone : (b :: rest).count a = 0 := by
            refine count_eq_zero_of_not_mem fun hmem ↦ ?_
            rcases mem_cons.mp hmem with rfl | hmem
            · exact Bool.false_ne_true ((hc.irrefl a).symm.trans hab)
            · exact Bool.false_ne_true (((pairwise_cons.mp hrest).1 a hmem).symm.trans hab)
          rw [count_cons, count_cons, ih hl hrest]
          by_cases hax : a = x
          · subst hax
            rw [hnone, Nat.sub_zero, Nat.sub_zero]
          · rw [if_neg (by simpa using hax), Nat.add_zero, Nat.add_zero]
        · obtain rfl := hc.antisymm (Bool.eq_false_iff.mpr hab) hb
          rw [count_cons, count_cons, ih hl (pairwise_cons.mp hrest).2, Nat.add_sub_add_right]
    · have hnone : (setDifference less (a :: l) l').count x = 0 :=
        count_eq_zero_of_not_mem fun hmem ↦ hx (setDifference_sublist.subset hmem)
      rw [hnone, count_eq_zero_of_not_mem hx, Nat.zero_sub]

theorem coe_setDifference (hc : Compares less) (h : Sorted less l) (h' : Sorted less l') :
    (setDifference less l l' : Multiset α) = (l : Multiset α) - l' := by
  ext x
  rw [Multiset.count_sub, Multiset.coe_count, Multiset.coe_count, Multiset.coe_count, count_setDifference hc h h']

end Lib.SortedList
