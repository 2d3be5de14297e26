import Mathlib.Data.List.Basic

namespace Lib.Cursor

open List Option

variable {α β : Type} [DecidableEq α]

/-- One turn of a reading loop: it updates the accumulator and moves the cursor, which is
held as the input that is left. -/
abbrev Step (α β : Type) := β → List α → Option (β × List α)

/-- Run `step` until the next item is `stop`, and move past it. The loop fails where the
input ends first. -/
def loop (stop : α) (step : Step α β) : ℕ → Step α β
  | 0, _, _ => none
  | _ + 1, _, [] => none
  | n + 1, b, a :: s =>
    if a = stop then some (b, s) else
      match step b (a :: s) with
      | none => none
      | some (b, r) => loop stop step n b r

/-- The loop with enough fuel for every step that moves the cursor. -/
def readUntil (stop : α) (step : Step α β) : Step α β := fun b s ↦ loop stop step (s.length + 1) b s

def Consumes (step : Step α β) : Prop := ∀ b s b' r, step b s = some (b', r) → r.length < s.length

variable {stop : α} {step : Step α β} {s r : List α} {b b' : β} {γ : Type}

theorem loop_fuel (h : Consumes step) {n m : ℕ} (hn : s.length < n)
    (hm : s.length < m) : loop stop step n b s = loop stop step m b s := by
  induction n generalizing m b s with
  | zero => omega
  | succ n ih =>
    obtain ⟨m, rfl⟩ : ∃ k, m = k + 1 := ⟨m - 1, by omega⟩
    cases s with
    | nil => rfl
    | cons a s =>
      simp only [loop]
      split_ifs
      · rfl
      cases hs : step b (a :: s) with
      | none => rfl
      | some p =>
        have hr := h _ _ _ _ hs
        exact ih (by omega) (by omega)

@[simp] theorem readUntil_nil (b : β) : readUntil stop step b [] = none := rfl

@[simp] theorem readUntil_stop (b : β) (s : List α) : readUntil stop step b (stop :: s) = some (b, s) := by
  simp [readUntil, loop]

section

variable (h : Consumes step)
include h

theorem readUntil_step {a : α} (ha : a ≠ stop) (b : β) (s : List α) : readUntil stop step b (a :: s) =
      (step b (a :: s)).bind fun p ↦ readUntil stop step p.1 p.2 := by
  simp only [readUntil, loop, if_neg ha, length_cons]
  cases hs : step b (a :: s) with
  | none => rfl
  | some p =>
    have hr := h _ _ _ _ hs
    exact loop_fuel h (by simpa using hr) (by omega)

theorem readUntil_turn (hstop : ∀ s, step b (stop :: s) = none) (hs : step b s = some (b', r)) :
    readUntil stop step b s = readUntil stop step b' r := by
  cases s with
  | nil => exact absurd (h _ _ _ _ hs) (Nat.not_lt_zero _)
  | cons a s =>
    have ha : a ≠ stop := by
      rintro rfl
      cases (hstop s).symm.trans hs
    rw [readUntil_step h ha, hs]
    rfl

/-- What every last turn does and every turn carries back holds of the whole loop. -/
theorem readUntil_induction {motive : β → List α → β → List α → Prop} (last : ∀ b s, motive b (stop :: s) b s)
    (turn : ∀ b a s b₁ s₁ b₂ s₂, a ≠ stop → step b (a :: s) = some (b₁, s₁) →
      readUntil stop step b₁ s₁ = some (b₂, s₂) → motive b₁ s₁ b₂ s₂ → motive b (a :: s) b₂ s₂)
    (hs : readUntil stop step b s = some (b', r)) :
    motive b s b' r := by
  induction hl : s.length using Nat.strongRecOn generalizing b s with
  | ind l ih =>
    cases s with
    | nil => simp at hs
    | cons a s =>
      by_cases ha : a = stop
      · subst ha
        obtain ⟨rfl, rfl⟩ : b = b' ∧ s = r := by simpa using hs
        exact last b s
      rw [readUntil_step h ha, bind_eq_some_iff] at hs
      obtain ⟨⟨b₁, s₁⟩, h₁, h₂⟩ := hs
      have hr := h _ _ _ _ h₁
      exact turn b a s b₁ s₁ b' r ha h₁ h₂ (ih _ (by omega) h₂ rfl)

theorem readUntil_consumes : Consumes (readUntil stop step) := by
  intro b s b' r hs
  refine readUntil_induction h (motive := fun _ s _ r ↦ r.length < s.length) ?_ ?_ hs
  · intro b s
    simp
  intro b a s b₁ s₁ b₂ s₂ _ h₁ _ h₂
  have := h _ _ _ _ h₁
  omega

/-- A loop whose turns are taken by another one, in related states, is taken by it. -/
theorem readUntil_simulation {step' : Step α γ} (h' : Consumes step') {R : β → γ → Prop}
    (hsim : ∀ b c s b' r, R b c → step b s = some (b', r) → ∃ c', step' c s = some (c', r) ∧ R b' c')
    {c : γ} (hR : R b c)
    (hs : readUntil stop step b s = some (b', r)) :
    ∃ c', readUntil stop step' c s = some (c', r) ∧ R b' c' := by
  refine readUntil_induction h
    (motive := fun b s b' r ↦ ∀ c, R b c → ∃ c', readUntil stop step' c s = some (c', r) ∧ R b' c')
    ?_ ?_ hs c hR
  · intro b s c hR
    exact ⟨c, readUntil_stop c s, hR⟩
  intro b a s b₁ s₁ b₂ s₂ ha h₁ _ ih c hR
  obtain ⟨c₁, hc₁, hR₁⟩ := hsim b c _ b₁ s₁ hR h₁
  obtain ⟨c₂, hc₂, hR₂⟩ := ih c₁ hR₁
  refine ⟨c₂, ?_, hR₂⟩
  rw [readUntil_step h' ha, hc₁]
  exact hc₂

theorem readUntil_mono {step' : Step α β} (h' : Consumes step')
    (hle : ∀ b s b' r, step b s = some (b', r) → step' b s = some (b', r))
    (hs : readUntil stop step b s = some (b', r)) :
    readUntil stop step' b s = some (b', r) := by
  obtain ⟨c, hc, rfl⟩ := readUntil_simulation h h' (R := Eq)
    (fun b c s b' r hR hb ↦ ⟨b', hR ▸ hle b s b' r hb, rfl⟩) rfl hs
  exact hc

end

def Suffixes (step : Step α β) : Prop := ∀ b s b' r, step b s = some (b', r) → r <:+ s

theorem readUntil_suffixes (h : Consumes step) (hsuf : Suffixes step) : Suffixes (readUntil stop step) := by
  intro b s b' r hs
  refine readUntil_induction h (motive := fun _ s _ r ↦ r <:+ s) ?_ ?_ hs
  · exact fun b s ↦ List.suffix_cons stop s
  · exact fun b a s b₁ s₁ b₂ s₂ _ h₁ _ h₂ ↦ h₂.trans (hsuf _ _ _ _ h₁)

/-- A loop that stops before some end of its input takes the same turns without that end,
if its steps do. -/
theorem readUntil_take {N : ℕ} {x : List α} (h : Consumes step) (hsuf : Suffixes step)
    (hstep : ∀ b s b' r, s.length < N → step b (s ++ x) = some (b', r ++ x) → step b s = some (b', r))
    (hN : s.length < N)
    (hs : readUntil stop step b (s ++ x) = some (b', r ++ x)) :
    readUntil stop step b s = some (b', r) := by
  induction hl : s.length using Nat.strongRecOn generalizing b s with
  | ind l ih =>
    cases s with
    | nil =>
      have := readUntil_consumes h _ _ _ _ hs
      simp only [nil_append, length_append] at this
      omega
    | cons a s =>
      by_cases ha : a = stop
      · subst ha
        obtain ⟨rfl, rfl⟩ : b = b' ∧ s = r := by simpa using hs
        exact readUntil_stop b s
      rw [cons_append, readUntil_step h ha, bind_eq_some_iff] at hs
      obtain ⟨⟨b₁, s₁⟩, h₁, h₂⟩ := hs
      obtain ⟨c, hc⟩ := readUntil_suffixes h hsuf _ _ _ _ h₂
      rw [← append_assoc] at hc
      subst hc
      have hlt := h _ _ _ _ h₁
      simp only [length_append, length_cons] at hlt hl hN
      have h₁' := hstep b (a :: s) b₁ (c ++ r) (by simpa using hN) h₁
      rw [readUntil_step h ha, h₁']
      exact ih _ (by simp only [length_append]; omega) (by simp only [length_append]; omega)
        h₂ rfl

theorem readUntil_lockstep {step' : Step α γ} {y : List α} (h : Consumes step) (h' : Consumes step')
    (hstep : ∀ b s b' r c c' q, step b s = some (b', r) → step' c (s ++ y) = some (c', q) →
      q = r ++ y ∧ c' = c) {c c' : γ} {q : List α} (hs : readUntil stop step b s = some (b', r))
    (hs' : readUntil stop step' c (s ++ y) = some (c', q)) : q = r ++ y ∧ c' = c := by
  refine readUntil_induction h (motive := fun b s b' r ↦ ∀ c c' q,
    readUntil stop step' c (s ++ y) = some (c', q) → q = r ++ y ∧ c' = c) ?_ ?_ hs c c' q hs'
  · intro b s c c' q hq
    obtain ⟨rfl, rfl⟩ : c = c' ∧ s ++ y = q := by simpa using hq
    exact ⟨rfl, rfl⟩
  intro b a s b₁ s₁ b₂ s₂ ha h₁ _ ih c c' q hq
  rw [cons_append, readUntil_step h' ha, bind_eq_some_iff] at hq
  obtain ⟨⟨c₁, q₁⟩, hc₁, hq₁⟩ := hq
  obtain ⟨rfl, rfl⟩ := hstep _ _ _ _ _ _ _ h₁ hc₁
  exact ih _ _ _ hq₁

end Lib.Cursor
