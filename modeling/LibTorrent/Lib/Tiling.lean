import Mathlib.Data.List.Basic

namespace Lib.Tiling

open List

variable {ι : Type} {first last : ι → ℕ} {lo hi x : ℕ} {l : List ι} {i j : ι}

/-- The pieces lie one after another and fill the numbers from `lo` to below `hi`. -/
def Tiles (first last : ι → ℕ) : ℕ → List ι → ℕ → Prop
  | lo, [], hi => lo = hi
  | lo, i :: l, hi => first i = lo ∧ first i ≤ last i ∧ Tiles first last (last i + 1) l hi

theorem tiles_append {l' : List ι} :
    Tiles first last lo (l ++ l') hi ↔ ∃ mid, Tiles first last lo l mid ∧ Tiles first last mid l' hi := by
  induction l generalizing lo with
  | nil => exact ⟨fun h ↦ ⟨lo, rfl, h⟩, fun ⟨mid, hmid, h⟩ ↦ (hmid : lo = mid) ▸ h⟩
  | cons i l ih =>
    simp only [cons_append, Tiles, ih]
    constructor
    · rintro ⟨h₁, h₂, mid, h₃, h₄⟩
      exact ⟨mid, ⟨h₁, h₂, h₃⟩, h₄⟩
    · rintro ⟨mid, ⟨h₁, h₂, h₃⟩, h₄⟩
      exact ⟨h₁, h₂, mid, h₃, h₄⟩

variable (h : Tiles first last lo l hi)
include h

theorem Tiles.congr {first' last' : ι → ℕ}
    (hl : ∀ i ∈ l, first' i = first i ∧ last' i = last i) : Tiles first' last' lo l hi := by
  induction l generalizing lo with
  | nil => exact h
  | cons i l ih =>
    obtain ⟨hfirst, hlast⟩ := hl i mem_cons_self
    refine ⟨hfirst.trans h.1, by rw [hfirst, hlast]; exact h.2.1, ?_⟩
    rw [hlast]
    exact ih h.2.2 fun j hj ↦ hl j (mem_cons_of_mem i hj)

theorem Tiles.le : lo ≤ hi := by
  induction l generalizing lo with
  | nil => exact Nat.le_of_eq h
  | cons i l ih =>
    have := ih h.2.2
    have := h.1
    have := h.2.1
    omega

theorem Tiles.bounds (hi' : i ∈ l) : lo ≤ first i ∧ first i ≤ last i ∧ last i < hi := by
  obtain ⟨pre, post, rfl⟩ := append_of_mem hi'
  obtain ⟨mid, hpre, hmid, hle, hpost⟩ := tiles_append.mp h
  have hlo := hpre.le
  have hhi := hpost.le
  exact ⟨by omega, hle, by omega⟩

theorem Tiles.nodup : l.Nodup := by
  induction l generalizing lo with
  | nil => exact nodup_nil
  | cons i l ih =>
    refine nodup_cons.mpr ⟨fun hmem ↦ ?_, ih h.2.2⟩
    have hnext := (h.2.2.bounds hmem).1
    have hle := h.2.1
    omega

/-- Each number of the whole lies in one piece, after the pieces that end below it. -/
theorem Tiles.exists_piece (hlo : lo ≤ x) (hhi : x < hi) :
    ∃ pre i post, l = pre ++ i :: post ∧ (∀ j ∈ pre, last j < x) ∧ first i ≤ x ∧ x ≤ last i := by
  induction l generalizing lo with
  | nil =>
    have : lo = hi := h
    omega
  | cons i l ih =>
    obtain ⟨hfirst, hle, hrest⟩ := h
    by_cases hx : x ≤ last i
    · exact ⟨[], i, l, rfl, fun j hj ↦ absurd hj not_mem_nil, by omega, hx⟩
    obtain ⟨pre, i', post, rfl, hpre, hi'⟩ := ih hrest (by omega)
    refine ⟨i :: pre, i', post, rfl, fun j hj ↦ ?_, hi'⟩
    rcases mem_cons.mp hj with rfl | hj
    · omega
    · exact hpre j hj

theorem Tiles.unique (hi' : i ∈ l) (hj : j ∈ l) (hix : first i ≤ x) (hxi : x ≤ last i)
    (hjx : first j ≤ x) (hxj : x ≤ last j) : i = j := by
  induction l generalizing lo with
  | nil => exact absurd hi' not_mem_nil
  | cons k l ih =>
    obtain ⟨-, -, hrest⟩ := h
    rcases mem_cons.mp hi' with rfl | hil <;> rcases mem_cons.mp hj with rfl | hjl
    · rfl
    · have := (hrest.bounds hjl).1
      omega
    · have := (hrest.bounds hil).1
      omega
    · exact ih hrest hil hjl

end Lib.Tiling
