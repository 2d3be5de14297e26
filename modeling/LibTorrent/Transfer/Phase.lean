import LibTorrent.Lib.Store
import LibTorrent.Transfer.RequestList

namespace LibTorrent

open BlockTransfer Function Lib.Outcome Lib.Store

/-- The life of a transfer. It is queued for a block, then it leads the block or waits
behind the leader; `detached` transfers are left to the request list alone. A block keeps
the leader that completed it, transfers with dissimilar data, and leaders of earlier
attempts. `lost` transfers are in no list at all. -/
inductive Phase
  | free
  | queued (b : ℕ)
  | waiting (b : ℕ)
  | leading (b : ℕ)
  | detached
  | dissimilar (b : ℕ)
  | completed (b : ℕ)
  | stale (b : ℕ)
  | lost
  deriving DecidableEq

namespace Phase

def block : Phase → Option ℕ
  | queued b | waiting b | leading b => some b
  | free | detached | dissimilar _ | completed _ | stale _ | lost => none

def active : Phase → Option ℕ
  | waiting b | leading b | dissimilar b | completed b | stale b => some b
  | free | queued _ | detached | lost => none

def Held : Phase → Prop
  | queued _ | waiting _ | leading _ | detached => True
  | free | dissimilar _ | completed _ | stale _ | lost => False

def Resting : Phase → Prop
  | queued _ | detached => True
  | free | waiting _ | leading _ | dissimilar _ | completed _ | stale _ | lost => False

def home : Phase → Option ℕ
  | queued b | waiting b | leading b | dissimilar b | completed b | stale b => some b
  | free | detached | lost => none

def Leftover : Phase → Prop
  | dissimilar _ | stale _ | lost => True
  | free | queued _ | waiting _ | leading _ | detached | completed _ => False

def Fits : Phase → BlockTransfer → Prop
  | free, _ => False
  | queued _, x => x.state = .queued
  | waiting _, x => x.state = .notLeader
  | leading _, x => x.state = .leader
  | dissimilar _, x => x.state = .erased
  | completed _, x => x.state = .leader ∧ x.stall ≠ 0 ∧ x.isFinished
  | stale _, x => x.state = .leader ∧ x.stall ≠ 0
  | detached, _ | lost, _ => True

end Phase

def Phase.Shows (f : Phase) (o : Option BlockTransfer) : Prop :=
  match o with
  | none => f = .free
  | some x => x.peerInfo ≠ none ∧ x.block = f.block ∧ f.Fits x

structure Placed (w : World) (t : ℕ) (f : Phase) : Prop where
  shows : f.Shows (w.heap t)
  queued : ∀ b, t ∈ (w.blocks b).queued ↔ f = .queued b
  transfers : ∀ b, t ∈ (w.blocks b).transfers ↔ f.active = some b
  leader : ∀ b, (w.blocks b).leader = some t ↔ f = .leading b ∨ f = .completed b

structure Settled (B : Block) (b : ℕ) (φ : ℕ → Phase) : Prop where
  completed : ∀ t, φ t = .completed b → B.state = .completed
  leading : ∀ t, φ t = .leading b → B.state ≠ .completed
  led : B.state = .completed → B.leader ≠ none
  nodupQueued : B.queued.Nodup
  nodupTransfers : B.transfers.Nodup

structure Tracks (w : World) (φ : ℕ → Phase) : Prop where
  placed : ∀ t, Placed w t (φ t)
  settled : ∀ b, Settled (w.blocks b) b φ
  next : ∀ t, w.next ≤ t → φ t = .free

def Fresh (b : ℕ) (x : BlockTransfer) : Bool := x.block = some b ∧ x.stall = 0

/-- The counter of each block, up to `off`, is the number of its fresh transfers. -/
def Balanced (off : ℕ → ℕ) (w : World) : Prop :=
  ∀ b, (w.blocks b).notStalled.toNat + off b = tally w.heap w.next (Fresh b)

abbrev Level (w : World) : Prop := Balanced (fun _ ↦ 0) w

def stallFault : Fault → Prop
  | .internal m =>
    m = "Block::invalidate_transfer(...) m_notStalled == 0." ∨ m = "Block::stalled(...) m_notStalled == 0."
  | _ => False

/-- Faults that are ruled out: dangling pointers always, the checks of the counter when `H` holds. -/
def Bad (H : Prop) (e : Fault) : Prop := e = .dangling ∨ H ∧ stallFault e

abbrev Safely {α : Type} (H : Prop) (r : Except Fault α) (post : α → Prop) : Prop := Ensures (Bad H) r post

namespace World

variable {w : World} {t s b p : ℕ} {x : BlockTransfer} {B : Block} {P : Peer}

@[simp] theorem heap_put : (w.put t x).heap = update w.heap t (some x) := rfl

@[simp] theorem blocks_put : (w.put t x).blocks = w.blocks := rfl

@[simp] theorem peers_put : (w.put t x).peers = w.peers := rfl

@[simp] theorem next_put : (w.put t x).next = w.next := rfl

@[simp] theorem heap_setBlock : (w.setBlock b B).heap = w.heap := rfl

@[simp] theorem blocks_setBlock : (w.setBlock b B).blocks = update w.blocks b B := rfl

@[simp] theorem peers_setBlock : (w.setBlock b B).peers = w.peers := rfl

@[simp] theorem next_setBlock : (w.setBlock b B).next = w.next := rfl

@[simp] theorem heap_setPeer : (w.setPeer p P).heap = w.heap := rfl

@[simp] theorem blocks_setPeer : (w.setPeer p P).blocks = w.blocks := rfl

@[simp] theorem peers_setPeer : (w.setPeer p P).peers = update w.peers p P := rfl
@[simp] theorem next_setPeer : (w.setPeer p P).next = w.next := rfl

@[simp] theorem setBlock_setBlock {B' : Block} : (w.setBlock b B).setBlock b B' = w.setBlock b B' := by
  simp [setBlock]

theorem get_eq (h : w.heap t = some x) : w.get t = .ok x := by
  rw [get, h]

end World

variable {x : BlockTransfer} {f : Phase} {w w' w'' : World} {t : ℕ} {φ' φ : ℕ → Phase} {g' k' g k : ℕ → Prop}
  {H C : Prop}

section Lookup

variable {w : World} {φ : ℕ → Phase} {t b : ℕ}

theorem Tracks.alive (h : Tracks w φ) (t : ℕ) (ht : φ t ≠ .free) :
    ∃ x, w.heap t = some x ∧ x.peerInfo ≠ none ∧ x.block = (φ t).block ∧ (φ t).Fits x := by
  have hs := (h.placed t).shows
  cases hx : w.heap t with
  | none => rw [hx] at hs; exact absurd hs ht
  | some x => rw [hx] at hs; exact ⟨x, rfl, hs⟩

theorem Tracks.phase_of_block (h : Tracks w φ) (hx : w.heap t = some x)
    (hb : x.block = some b) : φ t = .queued b ∨ φ t = .waiting b ∨ φ t = .leading b := by
  have hs := (h.placed t).shows
  rw [hx] at hs
  have hblock := hs.2.1
  cases hφ : φ t <;> rw [hφ] at hblock <;> simp_all [Phase.block]

theorem Phase.eq_detached (hf : f.Held) (hb : f.block = none) : f = .detached := by
  cases f with
  | detached => rfl
  | queued | waiting | leading => simp [Phase.block] at hb
  | free | dissimilar | completed | stale | lost => exact hf.elim

theorem Phase.Fits.state (hf : f.Fits x) (ha : f.active = some b) :
    (x.state = .notLeader ↔ f = .waiting b) ∧ (x.state = .erased ↔ f = .dissimilar b) := by
  cases f with
  | free | queued | detached | lost => simp [Phase.active] at ha
  | waiting | leading | dissimilar | completed | stale =>
    simp only [Phase.active, Option.some.injEq] at ha
    simp only [Phase.Fits] at hf
    simp [hf, ha]

theorem Tracks.lt_next (h : Tracks w φ) (t : ℕ) (ht : φ t ≠ .free) : t < w.next := by
  by_contra hn
  exact ht (h.next t (by omega))

end Lookup

theorem Balanced.of_same {off : ℕ → ℕ} (h : Balanced off w) (hnext : w'.next = w.next)
    (hcount : ∀ b, (w'.blocks b).notStalled = (w.blocks b).notStalled)
    (hfresh : ∀ t b, (w'.heap t).any (Fresh b) = (w.heap t).any (Fresh b)) : Balanced off w' := by
  intro b
  rw [hcount, hnext, h b]
  exact tally_congr fun t _ ↦ (hfresh t b).symm

structure Kept (w w' : World) : Prop where
  requests : ∀ p, (w'.peers p).requests = (w.peers p).requests
  size : w'.size = w.size
  present : w'.present = w.present

theorem Kept.refl (w : World) : Kept w w := ⟨fun _ ↦ rfl, rfl, rfl⟩

theorem Kept.trans (h : Kept w w') (h' : Kept w' w'') : Kept w w'' :=
  ⟨fun p ↦ (h'.requests p).trans (h.requests p), h'.size.trans h.size, h'.present.trans h.present⟩

theorem Kept.put : Kept w (w.put t x) := ⟨fun _ ↦ rfl, rfl, rfl⟩

theorem Kept.setBlock : Kept w (w.setBlock b B) := ⟨fun _ ↦ rfl, rfl, rfl⟩

theorem Kept.setPeer (hP : P.requests = (w.peers p).requests) : Kept w (w.setPeer p P) := by
  refine ⟨fun q ↦ ?_, rfl, rfl⟩
  by_cases hq : q = p
  · subst hq
    rw [World.peers_setPeer, update_self, hP]
  · rw [World.peers_setPeer, update_of_ne hq]

/-- The operation leads from phases `φ` to phases `φ'`. The request lists let go of the
transfers `gone`; `busy` ones may have started. Under `C` it leaves nothing over. -/
structure Advance (H C : Prop) (gone busy : ℕ → Prop) (w : World) (φ : ℕ → Phase) (w' : World)
    (φ' : ℕ → Phase) : Prop where
  tracks : Tracks w' φ'
  balanced : H → Balanced (fun _ ↦ 0) w'
  held : ∀ s, (φ' s).Held ↔ (φ s).Held ∧ ¬ gone s
  rest : ∀ s, ¬ busy s → ¬ gone s → (φ s).Resting → (φ' s).Resting
  clean : C → (∀ s, ¬ (φ s).Leftover) → ∀ s, ¬ (φ' s).Leftover
  home : ∀ s b, (φ' s).home = some b → (φ s).home = some b
  peer : ∀ s, (φ' s).Held → (w'.heap s).map peerInfo = (w.heap s).map peerInfo
  fresh : ∀ s b, φ' s = .queued b → φ s = .queued b
  kept : Kept w w'

abbrev Sheds (H C : Prop) (t : ℕ) := Advance H C (· = t) fun _ ↦ False

abbrev Calm (H C : Prop) := Advance H C (fun _ ↦ False) fun _ ↦ False

section Change

variable {H C : Prop} {gone busy : ℕ → Prop} {w w' : World} {φ φ' : ℕ → Phase} {b : ℕ}

structure Unmoved (gone : ℕ → Prop) (b : ℕ) (w : World) (φ : ℕ → Phase) (w' : World) (φ' : ℕ → Phase) (t : ℕ) :
    Prop where
  phase : φ' t = φ t
  heap : w'.heap t = w.heap t
  queued : t ∈ (w'.blocks b).queued ↔ t ∈ (w.blocks b).queued
  transfers : t ∈ (w'.blocks b).transfers ↔ t ∈ (w.blocks b).transfers
  leader : (w'.blocks b).leader = some t ↔ (w.blocks b).leader = some t
  stays : ¬ gone t

/-- The transfer was in a list of block `b`, and now is where its new phase says. -/
structure Moved (C : Prop) (gone busy : ℕ → Prop) (b : ℕ) (w : World) (φ : ℕ → Phase) (w' : World)
    (φ' : ℕ → Phase) (t : ℕ) : Prop where
  home : (φ t).home = some b
  home' : (φ' t).home = none ∨ (φ' t).home = some b
  shows : (φ' t).Shows (w'.heap t)
  queued : t ∈ (w'.blocks b).queued ↔ φ' t = .queued b
  transfers : t ∈ (w'.blocks b).transfers ↔ (φ' t).active = some b
  leader : (w'.blocks b).leader = some t ↔ φ' t = .leading b ∨ φ' t = .completed b
  held : (φ' t).Held ↔ (φ t).Held ∧ ¬ gone t
  rest : ¬ busy t → ¬ gone t → (φ t).Resting → (φ' t).Resting
  clean : C → ¬ (φ t).Leftover → ¬ (φ' t).Leftover
  peer : (φ' t).Held → (w'.heap t).map peerInfo = (w.heap t).map peerInfo
  fresh : ∀ c, φ' t ≠ .queued c

theorem Phase.home_of_active (h : f.active = some b) : f.home = some b := by
  cases f <;> simp_all [Phase.active, Phase.home]

theorem Phase.elsewhere (h : f.home ≠ some b) :
    f ≠ .queued b ∧ f.active ≠ some b ∧ ¬ (f = .leading b ∨ f = .completed b) := by
  refine ⟨fun hq ↦ h ?_, fun ha ↦ h (home_of_active ha), fun hl ↦ h ?_⟩
  · rw [hq]; rfl
  rcases hl with hl | hl
  · rw [hl]; rfl
  · rw [hl]; rfl

theorem Placed.of_unmoved (h : Placed w t (φ t)) (hb : ∀ b' ≠ b, w'.blocks b' = w.blocks b')
    (hu : Unmoved gone b w φ w' φ' t) : Placed w' t (φ' t) := by
  rw [hu.phase]
  refine ⟨hu.heap ▸ h.shows, fun b' ↦ ?_, fun b' ↦ ?_, fun b' ↦ ?_⟩
  · by_cases hbb : b' = b
    · rw [hbb, hu.queued, h.queued]
    · rw [hb b' hbb, h.queued]
  · by_cases hbb : b' = b
    · rw [hbb, hu.transfers, h.transfers]
    · rw [hb b' hbb, h.transfers]
  by_cases hbb : b' = b
  · rw [hbb, hu.leader, h.leader]
  · rw [hb b' hbb, h.leader]

theorem Placed.of_moved (h : Placed w t (φ t)) (hb : ∀ b' ≠ b, w'.blocks b' = w.blocks b')
    (hm : Moved C gone busy b w φ w' φ' t) : Placed w' t (φ' t) := by
  have hbefore : ∀ b' ≠ b, (φ t).home ≠ some b' := fun b' hbb ↦ by simpa [hm.home] using Ne.symm hbb
  have hafter : ∀ b' ≠ b, (φ' t).home ≠ some b' := by
    intro b' hbb
    rcases hm.home' with hf | hf
    · simp [hf]
    · simpa [hf] using Ne.symm hbb
  refine ⟨hm.shows, fun b' ↦ ?_, fun b' ↦ ?_, fun b' ↦ ?_⟩
  · by_cases hbb : b' = b
    · rw [hbb, hm.queued]
    · rw [hb b' hbb, h.queued]
      exact iff_of_false (Phase.elsewhere (hbefore b' hbb)).1 (Phase.elsewhere (hafter b' hbb)).1
  · by_cases hbb : b' = b
    · rw [hbb, hm.transfers]
    · rw [hb b' hbb, h.transfers]
      exact iff_of_false (Phase.elsewhere (hbefore b' hbb)).2.1 (Phase.elsewhere (hafter b' hbb)).2.1
  by_cases hbb : b' = b
  · rw [hbb, hm.leader]
  · rw [hb b' hbb, h.leader]
    exact iff_of_false (Phase.elsewhere (hbefore b' hbb)).2.2 (Phase.elsewhere (hafter b' hbb)).2.2

theorem Advance.of_block (h : Tracks w φ) (hb : ∀ b' ≠ b, w'.blocks b' = w.blocks b') (hnext : w'.next = w.next)
    (hkept : Kept w w') (hbal : H → Level w') (hsettled : Settled (w'.blocks b) b φ')
    (hpoint : ∀ t, Unmoved gone b w φ w' φ' t ∨ Moved C gone busy b w φ w' φ' t) :
    Advance H C gone busy w φ w' φ' := by
  have hother : ∀ b' ≠ b, ∀ t f, f = Phase.completed b' ∨ f = .leading b' → φ' t = f → φ t = f := by
    intro b' hbb t f hf hφ
    rcases hpoint t with hu | hm
    · rwa [hu.phase] at hφ
    have hhome : f.home = some b' := by rcases hf with hf | hf <;> rw [hf] <;> rfl
    have hm' := hm.home'
    rw [hφ, hhome] at hm'
    simp only [reduceCtorEq, Option.some.injEq, false_or] at hm'
    exact absurd hm' hbb
  refine ⟨⟨fun t ↦ ?_, fun b' ↦ ?_, fun t ht ↦ ?_⟩, hbal, fun t ↦ ?_, fun t ↦ ?_, fun hC hclean t ↦ ?_,
    fun t b' ↦ ?_, fun t ↦ ?_, fun t b' ↦ ?_, hkept⟩
  · rcases hpoint t with hu | hm
    · exact (h.placed t).of_unmoved hb hu
    · exact (h.placed t).of_moved hb hm
  · by_cases hbb : b' = b
    · rw [hbb]; exact hsettled
    have hs := h.settled b'
    rw [hb b' hbb]
    exact ⟨fun t ht ↦ hs.completed t (hother b' hbb t _ (.inl rfl) ht),
      fun t ht ↦ hs.leading t (hother b' hbb t _ (.inr rfl) ht), hs.led, hs.nodupQueued, hs.nodupTransfers⟩
  · have hfree := h.next t (hnext ▸ ht)
    rcases hpoint t with hu | hm
    · rw [hu.phase, hfree]
    have hhome := hm.home
    rw [hfree] at hhome
    exact absurd hhome (by simp [Phase.home])
  · rcases hpoint t with hu | hm
    · rw [hu.phase]
      exact (and_iff_left hu.stays).symm
    · exact hm.held
  · rcases hpoint t with hu | hm
    · intro _ _ hr
      rwa [hu.phase]
    · exact hm.rest
  · rcases hpoint t with hu | hm
    · rw [hu.phase]
      exact hclean t
    · exact hm.clean hC (hclean t)
  · rcases hpoint t with hu | hm
    · rw [hu.phase]
      exact id
    intro hhome
    rcases hm.home' with h' | h'
    · simp [h'] at hhome
    · rw [hm.home, ← h', hhome]
  · rcases hpoint t with hu | hm
    · intro _
      rw [hu.heap]
    · exact hm.peer
  · rcases hpoint t with hu | hm
    · rw [hu.phase]
      exact id
    · exact fun hq ↦ absurd hq (hm.fresh b')

end Change

theorem Advance.trans {φ'' : ℕ → Phase} (h : Advance H C g k w φ w' φ') (h' : Advance H C g' k' w' φ' w'' φ'') :
    Advance H C (fun s ↦ g s ∨ g' s) (fun s ↦ k s ∨ k' s) w φ w'' φ'' := by
  refine ⟨h'.tracks, h'.balanced, fun s ↦ ?_, fun s hk hg hr ↦ ?_, fun hC hclean ↦ h'.clean hC (h.clean hC hclean),
    fun s b hs ↦ h.home s b (h'.home s b hs), fun s hs ↦ ?_, fun s b hs ↦ h.fresh s b (h'.fresh s b hs),
    h.kept.trans h'.kept⟩
  · rw [h'.held, h.held, not_or, and_assoc]
  · rw [not_or] at hk hg
    exact h'.rest s hk.2 hg.2 (h.rest s hk.1 hg.1 hr)
  · exact (h'.peer s hs).trans (h.peer s ((h'.held s).mp hs).1)

theorem Advance.congr (h : Advance H C g k w φ w' φ') (hg : ∀ s, g s ↔ g' s) (hk : ∀ s, k s → k' s) :
    Advance H C g' k' w φ w' φ' :=
  ⟨h.tracks, h.balanced, fun s ↦ by rw [h.held, hg], fun s hks hgs ↦ h.rest s (fun hc ↦ hks (hk s hc))
    fun hc ↦ hgs ((hg s).mp hc), h.clean, h.home, h.peer, h.fresh, h.kept⟩

end LibTorrent
