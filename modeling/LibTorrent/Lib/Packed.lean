import Mathlib.Tactic.IntervalCases

namespace Lib.Packed

open BitVec

def byte (f : ℕ → Bool) (k : ℕ) : BitVec 8 :=
  ofBoolListBE [f (8 * k), f (8 * k + 1), f (8 * k + 2), f (8 * k + 3), f (8 * k + 4), f (8 * k + 5),
    f (8 * k + 6), f (8 * k + 7)]

def maskAt (i : ℕ) : BitVec 8 := 1#8 <<< (7 - i)

def maskBefore (i : ℕ) : BitVec 8 := 0xff#8 <<< (8 - i)

def maskFrom (i : ℕ) : BitVec 8 := 0xff#8 >>> i

variable {i j : ℕ}

theorem getMsbD_byte (f : ℕ → Bool) (k : ℕ) (hi : i < 8) : (byte f k).getMsbD i = f (8 * k + i) := by
  have h : (byte f k).getMsbD i = _ := getMsbD_ofBoolListBE
  rw [h]
  interval_cases i <;> rfl

theorem getMsbD_maskFrom (hj : j < 8) : (maskFrom i).getMsbD j = decide (i ≤ j) := by
  have h : (0xff#8 : BitVec 8) = allOnes 8 := by decide
  rw [maskFrom, h, getMsbD_ushiftRight, getMsbD_allOnes]
  grind

theorem getMsbD_maskBefore (hi : i ≤ 8) : (maskBefore i).getMsbD j = decide (j < i) := by
  have h : (0xff#8 : BitVec 8) = allOnes 8 := by decide
  rw [maskBefore, h, getMsbD_shiftLeft, getMsbD_allOnes]
  grind

theorem and_maskAt_eq_zero {w : BitVec 8} (hi : i < 8) : w &&& maskAt i = 0 ↔ w.getMsbD i = false := by
  have h : maskAt i = twoPow 8 (7 - i) := rfl
  have hne : twoPow 8 (7 - i) ≠ 0#8 := by
    interval_cases i <;> decide
  rw [h, and_twoPow, getMsbD_eq_getLsbD, decide_eq_true hi, Bool.true_and]
  cases w.getLsbD (7 - i)
  · simp
  · simpa using hne

end Lib.Packed
