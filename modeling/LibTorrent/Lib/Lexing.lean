import LibTorrent.Lib.Cursor

namespace Lib.Lexing

open Lib.Cursor List

variable {α T β : Type} (text : T → List α) (good : T → Prop)

/-- The input from `s` up to `r` is the text of the tokens `ts`. -/
def Cuts (s : List α) (ts : List T) (r : List α) : Prop := (∀ t ∈ ts, good t) ∧ s = ts.flatMap text ++ r

variable {text good} {s m r : List α} {t : T} {ts us : List T}

theorem Cuts.single (t : T) (h : good t) : Cuts text good (text t ++ r) [t] r := by
  refine ⟨?_, ?_⟩
  · intro u hu
    rwa [mem_singleton.mp hu]
  · rw [flatMap_singleton]

theorem Cuts.append (h : Cuts text good s ts m) (h' : Cuts text good m us r) : Cuts text good s (ts ++ us) r := by
  refine ⟨?_, ?_⟩
  · intro u hu
    exact (mem_append.mp hu).elim (h.1 u) (h'.1 u)
  · rw [h.2, h'.2, flatMap_append, append_assoc]

theorem Cuts.cons (t : T) (h : good t) (h' : Cuts text good m ts r) : Cuts text good (text t ++ m) (t :: ts) r :=
  (Cuts.single t h).append h'

theorem Cuts.uncons (h : Cuts text good s (t :: ts) r) : ∃ m, s = text t ++ m ∧ good t ∧ Cuts text good m ts r := by
  refine ⟨ts.flatMap text ++ r, ?_, h.1 t mem_cons_self, fun u hu ↦ h.1 u (mem_cons_of_mem t hu), rfl⟩
  rw [h.2, flatMap_cons, append_assoc]

theorem Cuts.of_append (h : Cuts text good s (ts ++ us) r) :
    ∃ m, Cuts text good s ts m ∧ Cuts text good m us r := by
  refine ⟨us.flatMap text ++ r, ⟨fun u hu ↦ h.1 u (mem_append_left _ hu), ?_⟩,
    fun u hu ↦ h.1 u (mem_append_right _ hu), rfl⟩
  rw [h.2, flatMap_append, append_assoc]

theorem Cuts.length_le (h : Cuts text good s ts r) : r.length ≤ s.length := by
  rw [h.2, length_append]
  exact Nat.le_add_left _ _

theorem cuts_and {more : T → Prop} :
    Cuts text (fun t ↦ good t ∧ more t) s ts r ↔ Cuts text good s ts r ∧ ∀ t ∈ ts, more t := by
  constructor
  · intro h
    exact ⟨⟨fun t ht ↦ (h.1 t ht).1, h.2⟩, fun t ht ↦ (h.1 t ht).2⟩
  · intro h
    exact ⟨fun t ht ↦ ⟨h.1.1 t ht, h.2 t ht⟩, h.1.2⟩

/-- Where each text tells its token, the tokens between two places are determined. -/
theorem Cuts.unique (hne : ∀ t, text t ≠ [])
    (hinj : ∀ t t' s s', good t → good t' → text t ++ s = text t' ++ s' → t = t' ∧ s = s')
    (h : Cuts text good s ts r) (h' : Cuts text good s us r) : ts = us := by
  have hnil {u : T} {us : List T} : r ≠ (u :: us).flatMap text ++ r := by
    intro heq
    have hlen := congrArg List.length heq
    have hpos := length_pos_iff.mpr (hne u)
    simp only [flatMap_cons, length_append] at hlen
    omega
  induction ts generalizing s us with
  | nil =>
    cases us with
    | nil => rfl
    | cons u us => exact absurd (h.2.symm.trans h'.2) hnil
  | cons t ts ih =>
    cases us with
    | nil => exact absurd (h'.2.symm.trans h.2) hnil
    | cons u us =>
      have hs := h.2.symm.trans h'.2
      simp only [flatMap_cons, append_assoc] at hs
      obtain ⟨rfl, hrest⟩ := hinj _ _ _ _ (h.1 t mem_cons_self) (h'.1 u mem_cons_self) hs
      have htail := ih ⟨fun v hv ↦ h.1 v (mem_cons_of_mem t hv), rfl⟩
        ⟨fun v hv ↦ h'.1 v (mem_cons_of_mem t hv), hrest⟩
      rw [htail]

theorem Cuts.prefix_of_all (hne : ∀ t, text t ≠ [])
    (hinj : ∀ t t' s s', good t → good t' → text t ++ s = text t' ++ s' → t = t' ∧ s = s')
    (h : Cuts text good s ts r) (h' : Cuts text good s us []) : ts <+: us := by
  induction ts generalizing s us with
  | nil => exact nil_prefix
  | cons t ts ih =>
    have hs := h.2.symm.trans h'.2
    cases us with
    | nil => simp [hne] at hs
    | cons u us =>
      simp only [flatMap_cons, append_assoc] at hs
      obtain ⟨rfl, hrest⟩ := hinj _ _ _ _ (h.1 t mem_cons_self) (h'.1 u mem_cons_self) hs
      exact (prefix_cons_inj t).mpr (ih ⟨fun v hv ↦ h.1 v (mem_cons_of_mem t hv), rfl⟩
        ⟨fun v hv ↦ h'.1 v (mem_cons_of_mem t hv), hrest⟩)

/-- The tokens of a loop: those of its turns, and the one that closes it. -/
inductive Turns (turn : β → List T → β → Prop) (close : T) : β → List T → β → Prop
  | close (b : β) : Turns turn close b [close] b
  | cons {b b₁ b₂ : β} {ts us : List T} (h : turn b ts b₁) (h' : Turns turn close b₁ us b₂) :
    Turns turn close b (ts ++ us) b₂

/-- A reading loop takes what its grammar derives, if each of its steps does. -/
theorem readUntil_iff_turns [DecidableEq α] {stop : α} {step : Step α β} {turn : β → List T → β → Prop} {close : T}
    {N : ℕ} (h : Consumes step) (hclose : text close = [stop]) (hgood : good close)
    (hstep : ∀ b s b' r, s.length < N → (step b s = some (b', r) ↔ ∃ ts, Cuts text good s ts r ∧ turn b ts b'))
    (hhead : ∀ b b' ts s r, Cuts text good s ts r → turn b ts b' → s.head? ≠ some stop)
    {b b' : β} (hN : s.length < N) :
    readUntil stop step b s = some (b', r) ↔ ∃ ts, Cuts text good s ts r ∧ Turns turn close b ts b' := by
  constructor
  · intro hs
    refine readUntil_induction h (motive := fun b s b' r ↦
      s.length < N → ∃ ts, Cuts text good s ts r ∧ Turns turn close b ts b') ?_ ?_ hs hN
    · intro b s _
      refine ⟨[close], ?_, .close b⟩
      have hcut : Cuts text good (text close ++ s) [close] s := .single close hgood
      rwa [hclose] at hcut
    intro b a s b₁ s₁ b₂ s₂ _ h₁ _ ih hlen
    obtain ⟨ts, hts, hturn⟩ := (hstep _ _ _ _ hlen).mp h₁
    obtain ⟨us, hus, hturns⟩ := ih (Nat.lt_of_le_of_lt hts.length_le hlen)
    exact ⟨ts ++ us, hts.append hus, .cons hturn hturns⟩
  · rintro ⟨ts, hts, hturns⟩
    induction hturns generalizing s with
    | close b =>
      have hs : s = stop :: r := by rw [hts.2, flatMap_singleton, hclose]; rfl
      rw [hs]
      exact readUntil_stop b r
    | cons hturn _ ih =>
      obtain ⟨m, hm, hm'⟩ := hts.of_append
      have hhd := hhead _ _ _ _ _ hm hturn
      have h₁ := (hstep _ _ _ _ hN).mpr ⟨_, hm, hturn⟩
      have hlt := h _ _ _ _ h₁
      cases s with
      | nil => simp at hlt
      | cons a s =>
        have ha : a ≠ stop := fun heq ↦ hhd (congrArg some heq)
        rw [readUntil_step h ha, h₁]
        exact ih (Nat.lt_trans hlt hN) hm'

end Lib.Lexing
