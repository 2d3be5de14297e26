import LibTorrent.Handshake.Frames

namespace LibTorrent.Handshake

open Lib.Decimal Lib.Keystream Lib.Program List

variable {host : Host} {h : Handshake} {α : Type} {post : Unit → Handshake → Prop}
  {fails : HandshakeExit → Handshake → Prop}

def stream (h : Handshake) : Bytes := h.socket.sent ++ h.writeBuffer.remaining

variable (host) in
def encoded (e : EncryptionInfo) (s : Bytes) : Bytes := if e.isEncrypted then encrypted host e s else s

variable (host) in
def queued (s : Bytes) (h : Handshake) : Handshake :=
  { h with
    writeBuffer := h.writeBuffer.push (encoded host h.info s)
    info := { h.info with encryptPos := h.info.encryptPos + if h.info.isEncrypted then s.length else 0 } }

theorem queue_eq (s : Bytes) (h : Handshake) : queue host s h = .ok ⟨⟩ (queued host s h) := by
  change (if h.info.isEncrypted = true then queueEncrypted host s else queuePlain s) h = _
  unfold queued encoded
  cases henc : h.info.isEncrypted with
  | true | false => rfl

variable {s body : Bytes} {d : HandshakeDownload}

theorem ends_queue (hq : post ⟨⟩ (queued host s h)) : Ends (queue host s h) post fails := by
  rw [queue_eq]
  exact hq

theorem ends_queue_bind {f : Unit → Part α} {post : α → Handshake → Prop}
    (hf : Ends (f ⟨⟩ (queued host s h)) post fails) : Ends ((queue host s >>= f) h) post fails :=
  .bind_of_ok (queue_eq s h) hf

def Placed (h : Handshake) : Prop := h.writeBuffer.position ≤ h.writeBuffer.content.length

theorem Placed.queued (hp : Placed h) : Placed (queued host s h) := by
  change h.writeBuffer.position ≤ (h.writeBuffer.content ++ _).length
  rw [length_append]
  exact Nat.le_add_right_of_le hp

theorem stream_queued (hp : Placed h) : stream (queued host s h) = stream h ++ encoded host h.info s := by
  change h.socket.sent ++ (h.writeBuffer.content ++ _).drop h.writeBuffer.position = _
  rw [drop_append_of_le_length hp, ← append_assoc]
  rfl

variable (host) in
/-- The stream of a handshake goes on with `body` behind the handshake for a download. -/
def CarriesBody (h : Handshake) (d : HandshakeDownload) (body : Bytes) : Prop :=
  Carries (host.rc4 h.info.encryptKey) (handshakeBytes host d) h.info.isEncrypted h.info.encryptPos body (stream h)

theorem CarriesBody.queued (hc : CarriesBody host h d body) (hp : Placed h)
    (s : Bytes) : CarriesBody host (queued host s h) d (body ++ s) := by
  unfold CarriesBody at hc ⊢
  rw [stream_queued hp]
  change Carries (host.rc4 h.info.encryptKey) _ h.info.isEncrypted (_ + _) _ _
  unfold encoded
  cases henc : h.info.isEncrypted with
  | true =>
    rw [henc] at hc
    exact hc.append_encrypted s
  | false =>
    rw [henc] at hc
    exact hc.append_plain s

theorem carriesBody_start (hp : Placed h) :
    CarriesBody host (Handshake.queued host (handshakeBytes host d) h) d [] := by
  unfold CarriesBody
  rw [stream_queued hp]
  change Carries (host.rc4 h.info.encryptKey) _ h.info.isEncrypted (_ + _) _ _
  unfold encoded
  cases henc : h.info.isEncrypted with
  | true =>
    have hc : Carries (host.rc4 h.info.encryptKey) (handshakeBytes host d) true _ [] _ :=
      .encrypted (stream h) [] h.info.encryptPos
    rwa [append_nil] at hc
  | false =>
    have hc : Carries (host.rc4 h.info.encryptKey) (handshakeBytes host d) false (h.info.encryptPos + 0) [] _ :=
      .plain (stream h) [] _
    rwa [append_nil] at hc

section Writing

/-- The next write of `n` bytes takes all of them, or fails. -/
def Answers (writes : List (Option ℕ)) (n : ℕ) : Prop :=
  match writes with
  | [] => False
  | none :: _ => True
  | some k :: _ => n ≤ k

def wrote (s : Bytes) (n : ℕ) (h : Handshake) : Handshake :=
  { h with socket := { h.socket with sent := h.socket.sent ++ s.take n, writes := h.socket.writes.tail } }

theorem wrote_zero (hw : h.socket.writes = []) : wrote s 0 h = h := by
  have htail : h.socket.writes.tail = h.socket.writes := by
    rw [hw]
    rfl
  simp only [wrote, take_zero, append_nil, htail]

theorem ends_writeUnthrottled (hs : s ≠ []) : Ends (writeUnthrottled s h)
      (fun n h' ↦ n ≤ s.length ∧ h' = wrote s n h ∧ (n = s.length ↔ Answers h.socket.writes s.length))
      (fun e h' ↦ e = .network ∧ h' = h) := by
  refine .get_bind ?_
  rw [if_neg hs]
  have hlen : 0 < s.length := length_pos_of_ne_nil hs
  rcases hw : h.socket.writes with _ | ⟨_ | k, writes⟩
  · exact .pure ⟨Nat.zero_le _, (wrote_zero hw).symm, fun h0 ↦ absurd h0 hlen.ne, False.elim⟩
  · exact ends_throw.mpr ⟨rfl, rfl⟩
  refine .modify_bind (.pure ⟨Nat.min_le_right _ _, ?_, ?_⟩)
  · rw [wrote, hw, tail_cons, ← take_eq_take_min]
  · change min k s.length = s.length ↔ s.length ≤ k
    omega

def flushed (n : ℕ) (h : Handshake) : Handshake :=
  { wrote h.writeBuffer.remaining n h with writeBuffer := h.writeBuffer.consume n }

theorem remaining_flushed (n : ℕ) : (flushed n h).writeBuffer.remaining = h.writeBuffer.remaining.drop n := by
  change h.writeBuffer.content.drop (_ + n) = (h.writeBuffer.content.drop _).drop n
  rw [drop_drop]

theorem stream_flushed (n : ℕ) : stream (flushed n h) = stream h := by
  unfold stream
  rw [remaining_flushed]
  change h.socket.sent ++ h.writeBuffer.remaining.take n ++ _ = _
  rw [append_assoc, take_append_drop]

theorem CarriesBody.flushed (hc : CarriesBody host h d body) (n : ℕ) : CarriesBody host (flushed n h) d body := by
  unfold CarriesBody at hc ⊢
  rw [stream_flushed]
  exact hc

theorem Placed.flushed {n : ℕ} (hp : Placed h) (hn : n ≤ h.writeBuffer.remaining.length) : Placed (flushed n h) := by
  have hlen : h.writeBuffer.remaining.length = h.writeBuffer.content.length - h.writeBuffer.position := length_drop
  change h.writeBuffer.position + n ≤ h.writeBuffer.content.length
  unfold Placed at hp
  omega

theorem unsent_eq (hp : Placed h) : unsent h = .ok h.writeBuffer.remaining h := by
  change (if h.writeBuffer.content.length < h.writeBuffer.position then throw .outOfBounds
    else pure h.writeBuffer.remaining : Part Bytes) h = _
  rw [if_neg (Nat.not_lt.mpr hp)]
  rfl

theorem ends_writeBuffered (hp : Placed h) (hs : h.writeBuffer.remaining ≠ []) : Ends (writeBuffered h)
      (fun b h' ↦ ∃ n ≤ h.writeBuffer.remaining.length, h' = flushed n h ∧
        (b = true ↔ n = h.writeBuffer.remaining.length) ∧
        (b = true ↔ Answers h.socket.writes h.writeBuffer.remaining.length))
      (fun e h' ↦ e = .network ∧ h' = h) := by
  refine .bind_of_ok (unsent_eq hp) ((ends_writeUnthrottled hs).bind ?_)
  intro n h₁ ⟨hn, h₁eq, hall⟩
  subst h₁eq
  refine .modify_bind (.pure ⟨n, hn, rfl, decide_eq_true_iff, ?_⟩)
  rw [← hall]
  exact decide_eq_true_iff

end Writing

end LibTorrent.Handshake
