import Mathlib.Data.List.Basic

namespace Lib.Memory

open List

variable {α : Type}

def load (m : ℕ → α) (a n : ℕ) : List α := (List.range n).map fun i ↦ m (a + i)

def store (m : ℕ → α) (a : ℕ) (s : List α) : ℕ → α := fun i ↦ if a ≤ i then s.getD (i - a) (m i) else m i

variable {m : ℕ → α} {a b n : ℕ} {s : List α}

@[simp] theorem length_load : (load m a n).length = n := by simp [load]

@[simp] theorem load_zero : load m a 0 = [] := rfl

theorem load_add (k : ℕ) : load m a (n + k) = load m a n ++ load m (a + n) k := by
  simp [load, range_add, Nat.add_assoc, Function.comp_def]

variable {k i : ℕ} {l' l : List α}

theorem take_load (h : k ≤ n) : (load m a n).take k = load m a k := by
  obtain ⟨j, rfl⟩ := Nat.exists_eq_add_of_le h
  rw [load_add, take_left' length_load]

theorem load_congr {m' : ℕ → α} (h : ∀ i < n, m' (a + i) = m (a + i)) : load m' a n = load m a n :=
  map_congr_left fun i hi ↦ h i (mem_range.mp hi)

theorem load_store : load (store m a s) a s.length = s := by
  apply ext_getElem length_load
  intro i h₁ h₂
  simp [load, store, h₂]

theorem load_store_of_disjoint (h : b + n ≤ a ∨ a + s.length ≤ b) : load (store m a s) b n = load m b n := by
  apply load_congr
  intro i hi
  rw [store]
  split_ifs with ha
  · rw [getD_eq_getElem?_getD, List.getElem?_eq_none (by omega)]
    rfl
  · rfl

theorem load_store_append : load (store m (a + n) s) a (n + s.length) = load m a n ++ s := by
  rw [load_add, load_store, load_store_of_disjoint (.inl (Nat.le_refl _))]

theorem drop_load (h : k ≤ n) : (load m a n).drop k = load m (a + k) (n - k) := by
  obtain ⟨j, rfl⟩ := Nat.exists_eq_add_of_le h
  rw [load_add, drop_left' length_load, Nat.add_sub_cancel_left]

def splice (l : List α) (i : ℕ) (s : List α) : List α := l.take i ++ s ++ l.drop (i + s.length)

@[simp] theorem splice_nil (l : List α) (i : ℕ) : splice l i [] = l := by
  rw [splice, append_nil, length_nil, Nat.add_zero, take_append_drop]

theorem splice_append_right (h : l.length ≤ i) : splice (l ++ l') i s = l ++ splice l' (i - l.length) s := by
  have hskip : i + s.length - l.length = i - l.length + s.length := by omega
  rw [splice, splice, take_append, drop_append, take_of_length_le h, drop_eq_nil_of_le (by omega),
    nil_append, hskip]
  simp only [append_assoc]

theorem splice_append {s' : List α} (h : i + s.length = l.length) :
    splice (l ++ l') i (s ++ s') = splice l i s ++ splice l' 0 s' := by
  have hskip : i + (s ++ s').length - l.length = s'.length := by
    rw [length_append]
    omega
  have hend : l.drop (i + (s ++ s').length) = [] := drop_eq_nil_of_le (by rw [length_append]; omega)
  rw [splice, splice, splice, take_append_of_le_length (by omega), drop_append, hend, hskip, h, drop_length,
    take_zero, Nat.zero_add]
  simp only [append_assoc, nil_append]

theorem splice_append_left (h : i + s.length ≤ l.length) : splice (l ++ l') i s = splice l i s ++ l' := by
  rw [splice, splice, take_append_of_le_length (by omega), drop_append_of_le_length h]
  simp only [append_assoc]

theorem load_store_within (h : k + s.length ≤ n) : load (store m (a + k) s) a n = splice (load m a n) k s := by
  obtain ⟨j, rfl⟩ := Nat.exists_eq_add_of_le h
  have hlow : load (store m (a + k) s) a k = load m a k := load_store_of_disjoint (.inl (Nat.le_refl _))
  have hhigh : load (store m (a + k) s) (a + (k + s.length)) j = load m (a + (k + s.length)) j :=
    load_store_of_disjoint (.inr (by omega))
  rw [splice, take_load (by omega), drop_load (by omega), Nat.add_sub_cancel_left, load_add, load_add, hlow, load_store,
    hhigh]

end Lib.Memory
