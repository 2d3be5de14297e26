import LibTorrent.Peer.Announcing

namespace LibTorrent

open Lib.Outcome List

theorem ChokeStatus.Listed.listed {c : ChokeStatus} (h : c.Listed) :
    (c.inQueued || c.inUnchoked) = (c.queued && !c.snubbed) := by
  rw [h.queued, h.unchoked]
  cases hu : c.unchoked with
  | true => simp [h.interested hu]
  | false => simp

namespace PeerConnection

/-- The operations of the upload queue on one connection. -/
inductive QueueCall
  | setQueued (room : Bool) (now : ℕ)
  | setNotQueued
  | setSnubbed
  | setNotSnubbed (room : Bool) (now : ℕ)
  | decide (choke : Bool)

namespace QueueCall

def apply : QueueCall → PeerConnection → Except PeerFault PeerConnection
  | setQueued room now => upQueue.setQueued room now
  | setNotQueued => upQueue.setNotQueued
  | setSnubbed => upQueue.setSnubbed
  | setNotSnubbed room now => upQueue.setNotSnubbed room now
  | decide choke => upQueue.decide choke

/-- Whether the peer is interested after the call. -/
def wants (interested : Bool) : QueueCall → Bool
  | setQueued .. => true
  | setNotQueued => false
  | setSnubbed | setNotSnubbed .. | decide _ => interested

def step (e : QueueCall) (p : PeerConnection × Bool) : Except PeerFault (PeerConnection × Bool) := do
  let s ← e.apply p.1
  .ok (s, e.wants p.2)

end QueueCall

variable {p : PeerConnection × Bool}

/-- The connection is unchoked or queued if and only if the peer is interested and not snubbed. -/
def Neutral (p : PeerConnection × Bool) : Prop :=
  (p.1.upChoke.inQueued || p.1.upChoke.inUnchoked) = (p.2 && !p.1.upChoke.snubbed)

/-- The queue still knows of the interest of the peer that it takes back. -/
def Recalls : QueueCall → PeerConnection × Bool → Prop
  | .setNotSnubbed .., p => p.1.upChoke.queued = p.2
  | _, _ => True

theorem neutral_iff (h : p.1.upChoke.Listed) :
    Neutral p ↔ (p.1.upChoke.snubbed = false → p.1.upChoke.queued = p.2) := by
  rw [Neutral, h.listed]
  cases p.1.upChoke.snubbed <;> simp

theorem gives_step (e : QueueCall) (h : p.1.upChoke.Listed) :
    Gives (e.step p) fun p' ↦ p'.1.upChoke.Listed ∧ (Neutral p → (Neutral p' ↔ Recalls e p)) := by
  rw [neutral_iff h]
  cases e with
  | setQueued room now =>
    refine (slots_upQueue.ensures_setQueued room now h).bind fun t ⟨_, hl, hq, _⟩ ↦ ⟨hl, fun hkept ↦ ?_⟩
    exact (neutral_iff hl).trans (iff_true_intro fun _ ↦ hq)
  | setNotQueued =>
    refine (slots_upQueue.ensures_setNotQueued h).bind fun t ⟨_, hl, hq, _⟩ ↦ ⟨hl, fun hkept ↦ ?_⟩
    exact (neutral_iff hl).trans (iff_true_intro fun _ ↦ hq)
  | setSnubbed =>
    refine (slots_upQueue.ensures_setSnubbed h).bind fun t ⟨_, hl, hs⟩ ↦ ⟨hl, fun hkept ↦ ?_⟩
    exact (neutral_iff hl).trans (iff_true_intro fun hc ↦ absurd (hs.symm.trans hc) nofun)
  | setNotSnubbed room now =>
    refine (slots_upQueue.ensures_setNotSnubbed room now h).bind fun t ⟨_, hl, hq, hs⟩ ↦ ⟨hl, fun hkept ↦ ?_⟩
    rw [neutral_iff hl]
    exact ⟨fun hc ↦ hq.symm.trans (hc hs), fun hc _ ↦ hq.trans hc⟩
  | decide choke =>
    refine (slots_upQueue.ensures_decide choke h fun _ _ ↦ trivial).bind fun t ⟨_, hl, hq, hs⟩ ↦ ⟨hl, fun hkept ↦ ?_⟩
    exact (neutral_iff hl).trans (iff_true_intro fun hc ↦ hq.trans (hkept (hs.symm.trans hc)))

/-- Snubbing is neutral to the interest of the peer, if and only if the queue has not dropped the interest whenever it
takes a snubbed peer back. -/
theorem run_neutral_iff (c : Setup) (calls : List QueueCall) :
    Gives (forEach QueueCall.step calls (start c, false)) (fun p ↦ p.1.upChoke.Listed) ∧
      ((∀ l, l <+: calls → Yields (forEach QueueCall.step l (start c, false)) Neutral) ↔
        Along QueueCall.step (fun e p ↦ Yields (e.step p) fun _ ↦ Recalls e p) calls (start c, false)) := by
  have hstart := (sound_start c).up
  refine ⟨ensures_forEach_inv (fun e _ h ↦ (gives_step e h).mono fun _ h' ↦ h'.1) calls hstart, ?_⟩
  refine forall_prefix_iff_along (fun e p (h : p.1.upChoke.Listed) hn ↦ ?_) calls hstart rfl
  exact (gives_step e h).always.mono fun _ ⟨hl, hiff⟩ ↦ ⟨hl, hiff hn⟩

/-- `set_snubbed` takes the interested peer out of the queue and forgets that it was in it. -/
theorem run_not_neutral : ∃ p, forEach QueueCall.step [.setQueued true 20000000, .setSnubbed,
    .setNotSnubbed true 40000000] (start leecher, false) = .ok p ∧ ¬ Neutral p :=
  ⟨_, rfl, nofun⟩

end PeerConnection

end LibTorrent
