import Mathlib.Logic.Basic
import Mathlib.Tactic.SplitIfs

namespace Lib.Outcome

variable {ε α β : Type} {bad : ε → Prop}

/-- The computation does not fail with a fault in `bad`, and its result satisfies `post`. -/
def Ensures (bad : ε → Prop) (r : Except ε α) (post : α → Prop) : Prop :=
  match r with
  | .ok a => post a
  | .error e => ¬ bad e

variable {post mid inv : α → Prop} {a : α} {e : ε} {r s : Except ε α} {p : Prop} {τ : Type}

@[simp] theorem ensures_ok : Ensures bad (.ok a) post ↔ post a := .rfl

@[simp] theorem ensures_pure : Ensures bad (pure a) post ↔ post a := .rfl

@[simp] theorem ensures_error : Ensures bad (.error e) post ↔ ¬ bad e := .rfl
@[simp] theorem ensures_throw : Ensures bad (throw e) post ↔ ¬ bad e := .rfl

theorem Ensures.ok (h : post a) : Ensures bad (.ok a) post := h

@[simp] theorem ok_bind (a : α) (f : α → Except ε β) : (Except.ok a >>= f) = f a := rfl

@[simp] theorem error_bind (e : ε) (f : α → Except ε β) : (Except.error e >>= f) = .error e := rfl

theorem Ensures.bind {f : α → Except ε β} {post : β → Prop}
    (h : Ensures bad r mid) (hf : ∀ a, mid a → Ensures bad (f a) post) : Ensures bad (r >>= f) post := by
  cases r with
  | ok a => exact hf a h
  | error e => exact h

theorem Ensures.mono (h : Ensures bad r mid) (hmid : ∀ a, mid a → post a) : Ensures bad r post := by
  cases r with
  | ok a => exact hmid a h
  | error e => exact h

theorem Ensures.map {f : α → β} {post : β → Prop} (h : Ensures bad r fun a ↦ post (f a)) :
    Ensures bad (r.map f) post := by
  cases r with
  | ok | error => exact h

theorem Ensures.both {bad' : ε → Prop} {P Q : α → Prop} (h : Ensures bad r P)
    (h' : Ensures bad' r Q) : Ensures bad' r fun a ↦ P a ∧ Q a := by
  cases r with
  | ok a => exact ⟨h, h'⟩
  | error e => exact h'

theorem Ensures.always (h : Ensures (fun _ ↦ True) r post) : Ensures bad r post := by
  cases r with
  | ok a => exact h
  | error e => exact absurd trivial h

theorem Ensures.of_ok (h : Ensures bad r post) (ha : r = .ok a) : post a := by
  rwa [ha] at h

theorem Ensures.ite [Decidable p] (h : p → Ensures bad r post)
    (h' : ¬ p → Ensures bad s post) : Ensures bad (if p then r else s) post := by
  split_ifs with hp
  · exact h hp
  · exact h' hp

theorem Ensures.either [Decidable p] (h : Ensures bad r post)
    (h' : Ensures bad s post) : Ensures bad (if p then r else s) post :=
  .ite (fun _ ↦ h) fun _ ↦ h'

/-- The result, if there is one, satisfies `post`. -/
abbrev Yields (r : Except ε α) (post : α → Prop) : Prop := Ensures (fun _ ↦ False) r post

/-- The computation has a result, and it satisfies `post`. -/
abbrev Gives (r : Except ε α) (post : α → Prop) : Prop := Ensures (fun _ ↦ True) r post

theorem yields_true (r : Except ε α) : Yields r fun _ ↦ True := by
  cases r with
  | ok => trivial
  | error => exact id

theorem yields_eq (r : Except ε α) : Yields r fun a ↦ r = .ok a := by
  cases r with
  | ok => rfl
  | error => exact id

def forEach {τ : Type} (f : τ → α → Except ε α) : List τ → α → Except ε α
  | [], a => .ok a
  | t :: l, a => f t a >>= forEach f l

theorem forEach_append (f : τ → α → Except ε α) (l l' : List τ) (a : α) :
    forEach f (l ++ l') a = forEach f l a >>= forEach f l' := by
  induction l generalizing a with
  | nil => rfl
  | cons t l ih =>
    rw [List.cons_append, forEach, forEach]
    cases f t a with
    | ok b => exact ih b
    | error e => rfl

variable {f : τ → α → Except ε α} {cond : τ → α → Prop}

/-- A loop rule: the assertion speaks of the elements that are still to come. -/
theorem ensures_forEach {inv : List τ → α → Prop}
    (hstep : ∀ t l a, inv (t :: l) a → Ensures bad (f t a) (inv l)) (l : List τ) (h : inv l a) :
    Ensures bad (forEach f l a) (inv []) := by
  induction l generalizing a with
  | nil => exact h
  | cons t l ih => exact (hstep t l a h).bind fun a' h' ↦ ih h'

theorem ensures_forEach_inv
    (hstep : ∀ t a, inv a → Ensures bad (f t a) inv) (l : List τ) (h : inv a) : Ensures bad (forEach f l a) inv :=
  ensures_forEach (fun t _ a ha ↦ hstep t a ha) l h

/-- Each element meets the condition in the state in which the loop comes to it. -/
def Along {τ : Type} (f : τ → α → Except ε α) (cond : τ → α → Prop) : List τ → α → Prop
  | [], _ => True
  | t :: l, a => cond t a ∧ ∀ a', f t a = .ok a' → Along f cond l a'

/-- An invariant that every step keeps under its condition holds after the loop. -/
theorem ensures_forEach_along (hstep : ∀ t a, inv a → cond t a → Ensures bad (f t a) inv) (l : List τ) (h : inv a)
    (hl : Along f cond l a) : Ensures bad (forEach f l a) inv := by
  induction l generalizing a with
  | nil => exact h
  | cons t l ih =>
    have ht := hstep t a h hl.1
    rw [forEach]
    cases hr : f t a with
    | ok a' => exact ih (ht.of_ok hr) (hl.2 a' hr)
    | error e => rw [hr] at ht; exact ht

/-- Where every step that keeps the invariant meets its condition and the other way round, the invariant holds after
every part of the loop if and only if the steps meet their conditions. -/
theorem forall_prefix_iff_along {sound : α → Prop}
    (hstep : ∀ t a, sound a → inv a → Yields (f t a) fun b ↦ sound b ∧ (inv b ↔ cond t a)) (l : List τ)
    (hsound : sound a) (hinv : inv a) :
    (∀ k, k <+: l → Yields (forEach f k a) inv) ↔ Along f (fun t a ↦ Yields (f t a) fun _ ↦ cond t a) l a := by
  induction l generalizing a with
  | nil =>
    refine iff_of_true (fun k hk ↦ ?_) trivial
    rw [List.prefix_nil.mp hk]
    exact hinv
  | cons t l ih =>
    have ht := hstep t a hsound hinv
    rw [Along]
    cases hr : f t a with
    | error e =>
      refine iff_of_true (fun k hk ↦ ?_) ⟨not_false, nofun⟩
      rcases List.prefix_cons_iff.mp hk with rfl | ⟨k', rfl, -⟩
      · exact hinv
      · rw [forEach, hr]
        exact not_false
    | ok b =>
      obtain ⟨hb, hcond⟩ := ht.of_ok hr
      constructor
      · intro h
        have hinvb : inv b := by
          have := h [t] ⟨l, rfl⟩
          rwa [forEach, hr] at this
        refine ⟨hcond.mp hinvb, fun b' hb' ↦ ?_⟩
        cases hb'
        refine (ih hb hinvb).mp fun k hk ↦ ?_
        have := h (t :: k) ((List.prefix_cons_inj t).mpr hk)
        rwa [forEach, hr] at this
      · rintro ⟨hc, hl⟩ k hk
        rcases List.prefix_cons_iff.mp hk with rfl | ⟨k', rfl, hk'⟩
        · exact hinv
        · rw [forEach, hr]
          exact (ih hb (hcond.mpr hc)).mpr (hl b rfl) k' hk'

end Lib.Outcome
