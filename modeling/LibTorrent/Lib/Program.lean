import Mathlib.Logic.Basic
import Mathlib.Tactic.SplitIfs

namespace Lib.Program

variable {ε σ α β : Type} {s : σ} {post : β → σ → Prop} {fails : ε → σ → Prop}

/-- How a program ends: with a value and a state in `post`, or with an exception and a state in `fails`. A state that was
changed before an exception stays changed. -/
def Ends (r : EStateM.Result ε σ α) (post : α → σ → Prop) (fails : ε → σ → Prop) : Prop :=
  match r with
  | .ok a s => post a s
  | .error e s => fails e s

variable {b : β} {e : ε} {g : PUnit → EStateM ε σ β} {f : α → EStateM ε σ β} {r : EStateM.Result ε σ β}
  {fails' : ε → σ → Prop} {p : Prop} {x y : σ → EStateM ε σ β}

@[simp] theorem ends_pure : Ends ((pure b : EStateM ε σ β) s) post fails ↔ post b s := .rfl

@[simp] theorem ends_throw : Ends ((throw e : EStateM ε σ β) s) post fails ↔ fails e s := .rfl

protected theorem Ends.pure (h : post b s) : Ends ((pure b : EStateM ε σ β) s) post fails := h

protected theorem Ends.modify {f : σ → σ} {post : PUnit → σ → Prop} (h : post ⟨⟩ (f s)) :
    Ends ((modify f : EStateM ε σ PUnit) s) post fails := h

theorem Ends.modify_bind {f : σ → σ} (h : Ends (g ⟨⟩ (f s)) post fails) :
    Ends ((modify f >>= g) s) post fails := h

theorem get_bind_apply {g : σ → EStateM ε σ β} : (get >>= g) s = g s s := rfl

theorem Ends.get_bind {g : σ → EStateM ε σ β} (h : Ends (g s s) post fails) : Ends ((get >>= g) s) post fails := h

protected theorem Ends.bind {x : EStateM ε σ α} {mid : α → σ → Prop} (h : Ends (x s) mid fails)
    (hf : ∀ a s', mid a s' → Ends (f a s') post fails) : Ends ((x >>= f) s) post fails := by
  change Ends (match x s with | .ok a s' => f a s' | .error e s' => .error e s') post fails
  cases hx : x s with
  | ok a s' =>
    rw [hx] at h
    exact hf a s' h
  | error e s' =>
    rw [hx] at h
    exact h

theorem Ends.bind_of_ok {x : EStateM ε σ α} {a : α} {s' : σ} (hx : x s = .ok a s')
    (h : Ends (f a s') post fails) : Ends ((x >>= f) s) post fails := by
  change Ends (match x s with | .ok a s' => f a s' | .error e s' => .error e s') post fails
  rwa [hx]

theorem Ends.mono {mid : β → σ → Prop} (h : Ends r mid fails')
    (hpost : ∀ b s', mid b s' → post b s') (hfails : ∀ e s', fails' e s' → fails e s') : Ends r post fails := by
  cases r with
  | ok b s' => exact hpost b s' h
  | error e s' => exact hfails e s' h

theorem Ends.imp {mid : β → σ → Prop} (h : Ends r mid fails) (hpost : ∀ b s', mid b s' → post b s') :
    Ends r post fails := h.mono hpost fun _ _ he ↦ he

theorem Ends.and {post' : β → σ → Prop} (h : Ends r post fails)
    (h' : Ends r post' fails') : Ends r (fun b s' ↦ post b s' ∧ post' b s') fun e s' ↦ fails e s' ∧ fails' e s' := by
  cases r with
  | ok | error => exact ⟨h, h'⟩

theorem Ends.ite [Decidable p] {x y : EStateM ε σ β} (h : p → Ends (x s) post fails)
    (h' : ¬ p → Ends (y s) post fails) : Ends ((if p then x else y) s) post fails := by
  split_ifs with hp
  · exact h hp
  · exact h' hp

theorem Ends.either [Decidable p] {x y : EStateM ε σ β} (h : Ends (x s) post fails)
    (h' : Ends (y s) post fails) : Ends ((if p then x else y) s) post fails :=
  .ite (fun _ ↦ h) fun _ ↦ h'

theorem Ends.get_ite {p : σ → Prop} [DecidablePred p] (h : p s → Ends (x s s) post fails)
    (h' : ¬ p s → Ends (y s s) post fails) :
    Ends ((get >>= fun s ↦ if p s then x s else y s) s) post fails := .get_bind (.ite h h')

theorem Ends.get_either {p : σ → Prop} [DecidablePred p] (h : Ends (x s s) post fails)
    (h' : Ends (y s s) post fails) : Ends ((get >>= fun s ↦ if p s then x s else y s) s) post fails :=
  .get_bind (.either h h')

/-- A program that does not change `view`, and has only the exceptions of `ok`. -/
def Keeps {γ : Type} (view : σ → γ) (ok : ε → Prop) (x : EStateM ε σ α) : Prop :=
  ∀ s, Ends (x s) (fun _ s' ↦ view s' = view s) (fun e s' ↦ view s' = view s ∧ ok e)

section Keeps

variable {γ : Type} {view : σ → γ} {ok : ε → Prop} {x : EStateM ε σ α}

theorem keeps_pure (a : α) : Keeps view ok (pure a : EStateM ε σ α) := fun _ ↦ rfl

theorem keeps_throw (he : ok e) : Keeps view ok (throw e : EStateM ε σ α) := fun _ ↦ ⟨rfl, he⟩

theorem keeps_get : Keeps view ok (get : EStateM ε σ σ) := fun _ ↦ rfl

theorem keeps_modify {f : σ → σ} (hf : ∀ s, view (f s) = view s) :
    Keeps view ok (modify f : EStateM ε σ PUnit) := fun s ↦ hf s

theorem Keeps.bind (hx : Keeps view ok x) (hf : ∀ a, Keeps view ok (f a)) : Keeps view ok (x >>= f) := by
  intro s
  refine (show Ends (x s) (fun _ s' ↦ view s' = view s) fun e s' ↦ view s' = view s ∧ ok e from hx s).bind ?_
  intro a s' h
  exact (hf a s').mono (fun _ _ h' ↦ h'.trans h) fun _ _ h' ↦ ⟨h'.1.trans h, h'.2⟩

theorem keeps_modify_bind {f : σ → σ} (hf : ∀ s, view (f s) = view s)
    (hg : ∀ a, Keeps view ok (g a)) : Keeps view ok (modify f >>= g) := (keeps_modify hf).bind hg

theorem Keeps.ite [Decidable p] {y : EStateM ε σ α} (hx : Keeps view ok x) (hy : Keeps view ok y) :
    Keeps view ok (if p then x else y) := by
  split_ifs
  · exact hx
  · exact hy

theorem Keeps.of_view {δ : Type} {view' : σ → δ} (hx : Keeps view ok x) (w : γ → δ) (hw : ∀ s, view' s = w (view s)) :
    Keeps view' ok x := by
  intro s
  refine (hx s).mono (fun _ s' h ↦ ?_) fun _ s' h ↦ ⟨?_, h.2⟩
  · rw [hw, hw, h]
  · rw [hw, hw, h.1]

end Keeps

end Lib.Program
