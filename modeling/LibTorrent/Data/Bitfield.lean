import Mathlib.Data.Fintype.BigOperators

namespace LibTorrent

open Finset

/-- `torrent::Bitfield` of `n` bits, with the number of bits set that it keeps beside them. -/
structure Bitfield (n : ℕ) where
  bits : Fin n → Bool
  sizeSet : ℕ
  sizeSet_eq : sizeSet = #{i | bits i}

namespace Bitfield

variable {n : ℕ}

/-- `update`, after the bits themselves have been written. -/
def update (bits : Fin n → Bool) : Bitfield n := ⟨bits, #{i | bits i}, rfl⟩

variable (b : Bitfield n)

def get (i : ℕ) : Bool := if h : i < n then b.bits ⟨i, h⟩ else false

def isAllSet : Bool := b.sizeSet = n

def isAllUnset : Bool := b.sizeSet = 0

theorem card_update (bits : Fin n → Bool) (i : Fin n) (v : Bool) :
    #{j | Function.update bits i v j} + (bits i).toNat = #{j | bits j} + v.toNat := by
  have h (f : Fin n → Bool) : #{j | f j} = ∑ j, (f j).toNat := by
    rw [card_filter]
    exact sum_congr rfl fun j _ ↦ by cases f j <;> rfl
  have hrest : ∑ j ∈ univ.erase i, (Function.update bits i v j).toNat = ∑ j ∈ univ.erase i, (bits j).toNat :=
    sum_congr rfl fun j hj ↦ by rw [Function.update_of_ne (ne_of_mem_erase hj)]
  rw [h, h, ← add_sum_erase _ _ (mem_univ i), ← add_sum_erase univ (fun j ↦ (bits j).toNat) (mem_univ i), hrest,
    Function.update_self]
  omega

def set (i : Fin n) : Bitfield n where
  bits := Function.update b.bits i true
  sizeSet := b.sizeSet + (!b.bits i).toNat
  sizeSet_eq := by
    have h := card_update b.bits i true
    rw [b.sizeSet_eq]
    cases hb : b.bits i <;> simp [hb] at h ⊢ <;> omega

def unset (i : Fin n) : Bitfield n where
  bits := Function.update b.bits i false
  sizeSet := b.sizeSet - (b.bits i).toNat
  sizeSet_eq := by
    have h := card_update b.bits i false
    rw [b.sizeSet_eq]
    cases hb : b.bits i <;> simp [hb] at h ⊢ <;> omega

variable {b : Bitfield n}

theorem isAllSet_iff : b.isAllSet ↔ ∀ i, b.bits i := by
  have h := card_filter_eq_iff (s := univ) (p := fun i ↦ b.bits i = true)
  rw [card_univ, Fintype.card_fin] at h
  rw [isAllSet, decide_eq_true_iff, b.sizeSet_eq, h]
  simp

theorem isAllUnset_iff : b.isAllUnset ↔ ∀ i, b.bits i = false := by
  rw [isAllUnset, decide_eq_true_iff, b.sizeSet_eq, card_eq_zero, filter_eq_empty_iff]
  simp

theorem sizeSet_lt {i : Fin n} (h : b.bits i = false) : b.sizeSet < n := by
  have hle : b.sizeSet ≤ n := by simpa [b.sizeSet_eq] using card_le_univ ({i | b.bits i} : Finset (Fin n))
  refine lt_of_le_of_ne hle fun heq ↦ ?_
  have hall := isAllSet_iff.mp (decide_eq_true heq) i
  simp [h] at hall

end Bitfield

end LibTorrent
