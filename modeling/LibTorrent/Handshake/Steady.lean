import LibTorrent.Handshake.Stream

namespace LibTorrent

open Lib.Decimal Lib.Program List Nat ProtocolBuffer

variable {s : Bytes}

namespace ProtocolBuffer

variable {b : ProtocolBuffer}

@[simp] theorem length_remaining : b.remaining.length = b.content.length - b.position := length_drop

theorem remaining_push (hb : b.position ≤ b.content.length) : (b.push s).remaining = b.remaining ++ s :=
  drop_append_of_le_length hb

theorem remaining_consume (n : ℕ) : (b.consume n).remaining = b.remaining.drop n := by
  change b.content.drop (b.position + n) = (b.content.drop b.position).drop n
  rw [drop_drop]

theorem length_setRemaining (hb : b.position ≤ b.content.length) (hs : s.length = b.remaining.length) :
    (b.setRemaining s).content.length = b.content.length := by
  change (b.content.take b.position ++ s).length = _
  rw [length_append, length_take, hs, length_remaining]
  omega

theorem peek32_push (hb : b.position ≤ b.content.length) (hlen : 4 ≤ b.remaining.length) :
    (b.push s).peek32 = b.peek32 := by
  unfold peek32
  rw [remaining_push hb, take_append_of_le_length hlen]

end ProtocolBuffer

namespace Handshake

variable {host : Host} {h : Handshake}

def took (s : Bytes) (m : ℕ) (reads : List (Option ℕ)) (pos : ℕ) (h : Handshake) : Handshake :=
  { h with
    readBuffer := h.readBuffer.push s
    info := { h.info with decryptPos := pos }
    socket := { h.socket with inbox := h.socket.inbox.drop m, reads := reads } }

theorem took_nil : took [] 0 h.socket.reads h.info.decryptPos h = h := by
  unfold took push
  rw [append_nil, drop_zero]

variable {n : ℕ} {h' : Handshake}

theorem ends_readUnthrottled (hn : n ≠ 0) : Ends (readUnthrottled n h)
      (fun s h' ↦ ∃ m ≤ n, ∃ reads, s = h.socket.inbox.take m ∧
        h' = { h with socket := { h.socket with inbox := h.socket.inbox.drop m, reads := reads } })
      (fun e h' ↦ e = .network ∧ h' = h) := by
  refine .get_bind ?_
  rw [if_neg hn]
  rcases hr : h.socket.reads with _ | ⟨_ | k, reads⟩
  · refine .pure ⟨0, zero_le n, h.socket.reads, rfl, ?_⟩
    rw [drop_zero]
  · exact ends_throw.mpr ⟨rfl, rfl⟩
  · exact .modify_bind (.pure ⟨min k n, min_le_right k n, reads, rfl, rfl⟩)

def Took (n : ℕ) (h h' : Handshake) : Prop :=
  ∃ s m reads pos, h' = took s m reads pos h ∧ s.length = min m h.socket.inbox.length ∧
    m ≤ n - h.readBuffer.remaining.length

theorem took_refl (n : ℕ) : Took n h h := ⟨[], 0, _, _, took_nil.symm, (zero_min _).symm, zero_le _⟩

theorem ends_readTo (n : ℕ) : Ends (readTo n h) (fun _ h' ↦ Took n h h') (fun e h' ↦ e = .network ∧ h' = h) := by
  refine .get_ite (fun hlt ↦ ?_) fun _ ↦ .pure (took_refl n)
  have hlt' := of_decide_eq_true hlt
  refine (ends_readUnthrottled (by omega)).bind ?_
  rintro _ _ ⟨m, hm, reads, rfl, rfl⟩
  exact .modify ⟨_, m, reads, _, rfl, length_take, hm⟩

abbrev Behind (h : Handshake) : Prop := h.readBuffer.position ≤ h.readBuffer.content.length

theorem ends_fillReadBuffer (n : ℕ) (hb : Behind h) (hroom : h.readBuffer.position + n ≤ reserved) :
    Ends (fillReadBuffer host n h)
      (fun b h' ↦ Took n h h' ∧ b = decide (n ≤ h'.readBuffer.remaining.length))
      (fun e h' ↦ e = .network ∧ h' = h) := by
  have hlen : h.readBuffer.remaining.length = h.readBuffer.content.length - h.readBuffer.position :=
    length_remaining
  refine .get_ite (fun hlt ↦ .ite (fun hover ↦ ?_) fun _ ↦ ?_) fun hge ↦ ?_
  · unfold reservedLeft at hover
    omega
  · refine (ends_readUnthrottled (by omega)).bind ?_
    rintro _ _ ⟨m, hm, reads, rfl, rfl⟩
    refine .modify_bind (.get_bind (.pure ⟨?_, rfl⟩))
    split_ifs
    · exact ⟨_, m, reads, _, rfl, by simp [decrypted], hm⟩
    · exact ⟨_, m, reads, _, rfl, length_take, hm⟩
  · exact .pure ⟨took_refl n, (decide_eq_true (not_lt.mp hge)).symm⟩

theorem Took.outside (ht : Took n h h') : outside h' = outside h := by
  obtain ⟨s, m, reads, pos, rfl, -, -⟩ := ht
  rfl

theorem Took.readPos (ht : Took n h h') : h'.readPos = h.readPos := by
  obtain ⟨s, m, reads, pos, rfl, -, -⟩ := ht
  rfl

def ahead (h : Handshake) : ℕ := h.readBuffer.remaining.length + h.socket.inbox.length

abbrev Grown (n : ℕ) (h h' : Handshake) : Prop :=
  h'.readBuffer.position = h.readBuffer.position ∧ h.readBuffer.content.length ≤ h'.readBuffer.content.length ∧
    h'.readBuffer.content.length ≤ max h.readBuffer.content.length (h.readBuffer.position + n) ∧ ahead h' = ahead h

section

variable (ht : Took n h h') (hb : Behind h)
include ht hb

theorem Took.sizes : Grown n h h' := by
  obtain ⟨s, m, reads, pos, rfl, hs, hm⟩ := ht
  have hcontent : (took s m reads pos h).readBuffer.content.length = h.readBuffer.content.length + s.length :=
    length_append
  have hposition : (took s m reads pos h).readBuffer.position = h.readBuffer.position := rfl
  have hinbox : (took s m reads pos h).socket.inbox.length = h.socket.inbox.length - m := length_drop
  rw [length_remaining] at hm
  refine ⟨hposition, by omega, by omega, ?_⟩
  unfold ahead
  rw [length_remaining, length_remaining, hinbox, hcontent, hposition]
  omega

theorem Took.peek32 (hlen : 4 ≤ h.readBuffer.remaining.length) : h'.readBuffer.peek32 = h.readBuffer.peek32 := by
  obtain ⟨s, m, reads, pos, rfl, -, -⟩ := ht
  exact peek32_push hb hlen

end

theorem ahead_consume (h : Handshake) (n : ℕ) (hn : h.readBuffer.position + n ≤ h.readBuffer.content.length) :
    ahead { h with readBuffer := h.readBuffer.consume n } + n = ahead h := by
  change (h.readBuffer.consume n).remaining.length + h.socket.inbox.length + n =
    h.readBuffer.remaining.length + h.socket.inbox.length
  rw [remaining_consume, length_drop, length_remaining]
  omega

theorem search_le {pattern : Bytes} {i : ℕ} (hi : search pattern s = some i) : i + pattern.length ≤ s.length := by
  induction s generalizing i with
  | nil =>
    unfold search at hi
    split_ifs at hi with hp
    cases hi
    simp [hp]
  | cons c s ih =>
    unfold search at hi
    split_ifs at hi with hp
    · cases hi
      rw [zero_add]
      exact (List.isPrefixOf_iff_prefix.mp hp).length_le
    obtain ⟨j, hj, rfl⟩ := Option.map_eq_some_iff.mp hi
    have hle := ih hj
    rw [length_cons]
    omega

end Handshake

end LibTorrent

namespace LibTorrent.Handshake

open HandshakeState Lib.Decimal Lib.Keystream Lib.Program List ProtocolBuffer

variable (h : Handshake)

/-- What the position and the end of the read buffer are held to in each state, with what is read next. -/
def Within : Prop :=
  let first := h.readBuffer.position
  let last := h.readBuffer.content.length
  first ≤ last ∧
  match h.state with
  | .connecting => last = 0
  | .readEncKey => first = 0 ∧ last < 96
  | .readEncSync => first = 96 ∧ last ≤ 628 ∧ h.sync.length ≤ 20 ∧
      (h.incoming = true → h.sync.length = 20)
  | .readEncSkey => first ≤ 628 ∧ last ≤ 648 ∧
      last ≤ first + 532
  | .readEncNegot => first ≤ 648 ∧ last ≤ 662 ∧
      last ≤ first + 532
  | .readEncPad => first + h.readPos ≤ 1174 ∧ h.readPos ≤ 512 ∧
      last ≤ 1176 ∧ last ≤ first + 518
  | .readEncIa => first ≤ 1176 ∧ last ≤ 1244 ∧
      last ≤ first + 518 ∧ h.lengthIa ≤ 68
  | .readInfo => first ≤ 1176 ∧ last ≤ 1244 ∧
      last ≤ first + 518
  | .readPeer => first ≤ 1224 ∧ last ≤ 1244 ∧
      last ≤ first + 470
  | .readExt | .readPort => last ≤ 1254 ∧
      first + 5 ≤ last ∧
      (last ≤ first + 450 ∨
        last ≤ first + h.readBuffer.peek32 + 4)
  | .readMessage | .readBitfield | .postHandshake => last ≤ 1254 ∧
      last ≤ first + 450
  | .inactive | .proxyWrite | .proxyRead | .proxyDone => False

/-- A state that reads: the socket is polled for it, and for writing only if there is something to write. -/
def Listens : Prop :=
  h.readDone = false ∧ h.inRead = true ∧ (h.inWrite = true → h.writeBuffer.remaining ≠ [])

/-- The messages are exchanged: the socket is polled for writing as long as something is not sent. -/
def Converses (d : HandshakeDownload) : Prop :=
  (h.readDone = false ↔ h.inRead = true) ∧
  (h.inWrite = true ↔ h.writeBuffer.remaining ≠ [] ∨ h.writePos ≠ d.bitfield.length)

def Polls : Prop :=
  match h.state with
  | .connecting => h.incoming = false ∧ h.inRead = false ∧ h.readDone = false ∧ h.inWrite = true ∧
      h.writeBuffer.remaining = []
  | .readEncKey | .readEncSync | .readEncSkey | .readInfo => Listens h
  | .readEncNegot | .readEncPad | .readEncIa | .readPeer => Listens h ∧ h.download.isSome = true
  | .readMessage => ∃ d, h.download = some d ∧ Converses h d
  | .readBitfield | .readExt | .readPort => h.readDone = false ∧ ∃ d, h.download = some d ∧ Converses h d
  | .postHandshake => h.readDone = true ∧ h.inRead = false ∧ h.writeBuffer.remaining ≠ []
  | .inactive | .proxyWrite | .proxyRead | .proxyDone => False

def Founded : Prop :=
  h.proxy = none ∧ (h.incoming = false → h.download.isSome = true ∧ h.hasPeerInfo = true) ∧ Placed h ∧ h.writeDone = false

def Steady : Prop := Founded h ∧ Within h ∧ Polls h

def Tame (e : HandshakeExit) (h : Handshake) : Prop :=
  match e with
  | .succeeded => h.readBuffer.remaining.length ≤ connectionBufferSize
  | .error _ _ | .network => True
  | .internal _ | .outOfBounds => False

structure Advances (h₀ : Handshake) (next : Next) (h : Handshake) : Prop where
  steady : Steady h
  shrinks : next = .again → readMeasure h < readMeasure h₀
  goes : next ≠ .write

abbrev EndsAdvanced (h₀ : Handshake) (r : EStateM.Result HandshakeExit Handshake Next) : Prop :=
  Ends r (Advances h₀) Tame

variable {host : Host} {h h₀ : Handshake}

theorem readMeasure_lt {s : HandshakeState} (hstate : h₀.state = s) (ha : ahead h ≤ ahead h₀)
    (hr : decide (rank h.state < rank s) = true) : readMeasure h < readMeasure h₀ := by
  have hlt := hstate ▸ of_decide_eq_true hr
  change 16 * ahead h + rank h.state < 16 * ahead h₀ + rank h₀.state
  omega

theorem Advances.of_measure {next : Next} {h₁ : Handshake} (ha : Advances h₁ next h)
    (hm : readMeasure h₁ ≤ readMeasure h₀) : Advances h₀ next h :=
  ⟨ha.steady, fun hnext ↦ (ha.shrinks hnext).trans_le hm, ha.goes⟩

variable {h' : Handshake} {n : ℕ}

theorem Took.kept {state : HandshakeState} (ht : Took n h h') (hf : Founded h) (hp : Polls h)
    (hstate : h.state = state) : Founded h' ∧ Polls h' ∧ h'.state = state :=
  ⟨of_outside Founded ht.outside hf, of_outside Polls ht.outside hp, (congrArg Handshake.state ht.outside).trans hstate⟩

theorem Took.measure (ht : Took n h h') (hb : Behind h) : readMeasure h' = readMeasure h := by
  have hstate : h'.state = h.state := of_outside (fun h' ↦ h'.state = h.state) ht.outside rfl
  change 16 * ahead h' + rank h'.state = 16 * ahead h + rank h.state
  rw [(ht.sizes hb).2.2.2, hstate]

theorem ends_readTo_tame (n : ℕ) : Ends (readTo n h) (fun _ h' ↦ Took n h h') Tame := by
  refine (ends_readTo n).mono (fun _ _ ht ↦ ht) ?_
  rintro _ _ ⟨rfl, -⟩
  trivial

theorem ends_fill (n : ℕ) (hb : Behind h) (hroom : h.readBuffer.position + n ≤ reserved) :
    Ends (fillReadBuffer host n h)
      (fun b h' ↦ Took n h h' ∧ (b = true ↔ h'.readBuffer.position + n ≤ h'.readBuffer.content.length)) Tame := by
  refine (ends_fillReadBuffer n hb hroom).mono ?_ ?_
  · rintro _ h' ⟨ht, rfl⟩
    have hle := ht.sizes hb
    refine ⟨ht, ?_⟩
    rw [decide_eq_true_iff, length_remaining]
    omega
  · rintro _ _ ⟨rfl, -⟩
    trivial

theorem endsAdvanced_fill {s : HandshakeState} {go : Part Next} (hs : Steady h) (hstate : h.state = s)
    (hroom : h.readBuffer.position + n ≤ reserved) (hstop : ∀ h₁, Took n h h₁ → Grown n h h₁ → h₁.state = s → Within h₁)
    (hgo : ∀ h₁, Took n h h₁ → Grown n h h₁ → Founded h₁ → Polls h₁ → h₁.state = s →
      h₁.readBuffer.position + n ≤ h₁.readBuffer.content.length → EndsAdvanced h (go h₁)) :
    EndsAdvanced h ((do if !(← fillReadBuffer host n) then pure .stop else go : Part Next) h) := by
  refine Ends.bind (ends_fill n hs.2.1.1 hroom) ?_
  rintro b h₁ ⟨ht, hfull⟩
  obtain ⟨hf₁, hp₁, hstate₁⟩ := ht.kept hs.1 hs.2.2 hstate
  have hgrown := ht.sizes hs.2.1.1
  cases b with
  | false => exact .pure ⟨⟨hf₁, hstop h₁ ht hgrown hstate₁, hp₁⟩, nofun, nofun⟩
  | true => exact hgo h₁ ht hgrown hf₁ hp₁ hstate₁ (hfull.mp rfl)

section Staying

/-- Bytes may have been queued or decrypted, and the sizes on the reading side are as they were. -/
structure Stays (h h' : Handshake) : Prop where
  founded : Founded h → Founded h'
  listens : Founded h → Listens h → Listens h'
  download : h.download.isSome = true → h'.download.isSome = true
  state : h'.state = h.state
  sync : h'.sync = h.sync
  incoming : h'.incoming = h.incoming
  readPos : h'.readPos = h.readPos
  position : h'.readBuffer.position = h.readBuffer.position
  length : h'.readBuffer.content.length = h.readBuffer.content.length
  ahead : ahead h' = ahead h

theorem stays_info (e : EncryptionInfo) : Stays h { h with info := e } :=
  ⟨fun hf ↦ hf, fun _ hl ↦ hl, fun hd ↦ hd, rfl, rfl, rfl, rfl, rfl, rfl, rfl⟩

theorem Stays.trans {h'' : Handshake} (hs : Stays h h') (hs' : Stays h' h'') : Stays h h'' where
  founded hf := hs'.founded (hs.founded hf)
  listens hf hl := hs'.listens (hs.founded hf) (hs.listens hf hl)
  download hd := hs'.download (hs.download hd)
  state := hs'.state.trans hs.state
  sync := hs'.sync.trans hs.sync
  incoming := hs'.incoming.trans hs.incoming
  readPos := hs'.readPos.trans hs.readPos
  position := hs'.position.trans hs.position
  length := hs'.length.trans hs.length
  ahead := hs'.ahead.trans hs.ahead

theorem stays_push (s : Bytes) (e : EncryptionInfo) :
    Stays h { h with writeBuffer := h.writeBuffer.push s, info := e } := by
  refine ⟨fun hf ↦ ⟨hf.1, hf.2.1, ?_, hf.2.2.2⟩, fun hf hl ↦ ⟨hl.1, hl.2.1, fun hin hnil ↦ hl.2.2 hin ?_⟩,
    fun hd ↦ hd, rfl, rfl, rfl, rfl, rfl, rfl, rfl⟩
  · change h.writeBuffer.position ≤ (h.writeBuffer.content ++ s).length
    rw [length_append]
    exact Nat.le_add_right_of_le hf.2.2.1
  · have hr : (h.writeBuffer.push s).remaining = h.writeBuffer.remaining ++ s := remaining_push hf.2.2.1
    exact (append_eq_nil_iff.mp (hr.symm.trans hnil)).1

theorem ends_queueEncrypted_stays (s : Bytes) : Ends (queueEncrypted host s h) (fun _ h' ↦ Stays h h') Tame :=
  .modify (stays_push _ _)

theorem ends_decryptRead (n : ℕ) (hb : Behind h) : Ends (decryptRead host n h) (fun _ h' ↦ Stays h h') Tame := by
  have hlen : (decrypted host h.info (h.readBuffer.remaining.take n) ++ h.readBuffer.remaining.drop n).length =
      h.readBuffer.remaining.length := by
    rw [length_append, decrypted, length_crypt, ← length_append, take_append_drop]
  have hcontent := length_setRemaining hb hlen
  refine .modify ⟨fun hf ↦ hf, fun _ hl ↦ hl, fun hd ↦ hd, rfl, rfl, rfl, rfl, rfl, hcontent, ?_⟩
  unfold ahead
  rw [length_remaining, length_remaining]
  rw [hcontent]
  rfl

variable {d : HandshakeDownload}

theorem ends_prepareHandshake_stays (hd : h.download = some d) :
    Ends (prepareHandshake host h) (fun _ h' ↦ Stays h h') Tame :=
  .bind_of_ok (getDownload_eq hd) (ends_queue (stays_push _ _))

theorem cryptoProvide_isSome (p : EncryptionPolicy) : (cryptoProvide p).isSome = true := by
  unfold cryptoProvide EncryptionPolicy.allowPlaintextStream EncryptionPolicy.allowEncryptedStream
  cases p.streamMode <;> decide

theorem ends_prepareEncNegotiation_stays (hd : h.download = some d) :
    Ends (prepareEncNegotiation host h) (fun _ h' ↦ Stays h h') Tame := by
  refine .bind_of_ok (getDownload_eq hd) (.get_bind (.modify_bind (.modify_bind ?_)))
  obtain ⟨provide, hp⟩ := Option.isSome_iff_exists.mp (cryptoProvide_isSome h.policy)
  rw [hp]
  refine .modify_bind (Ends.imp (ends_prepareHandshake_stays hd) (fun _ h' hs ↦ ?_))
  exact ((stays_push _ _).trans ((stays_info _).trans (stays_push _ _))).trans hs

theorem ends_prepareSync_stays (hout : h.incoming = false → h.download.isSome = true) : Ends (prepareSync host h)
      (fun _ h' ↦ ∃ sync, Stays { h with sync := sync } h' ∧ sync.length ≤ 20 ∧
        (h.incoming = true → sync.length = 20)) Tame := by
  refine .get_ite (fun hin ↦ .modify ?_) fun hin ↦ ?_
  · exact ⟨_, stays_info _, (host.sha1_length _).le, fun _ ↦ host.sha1_length _⟩
  obtain ⟨d, hd⟩ := Option.isSome_iff_exists.mp (hout ((Bool.not_eq_true _).mp hin))
  refine .bind_of_ok (getDownload_eq hd) (.modify_bind ?_)
  refine Ends.imp (ends_prepareEncNegotiation_stays hd) (fun _ h' hq ↦ ⟨_, hq, ?_, fun hyes ↦ absurd hyes hin⟩)
  simp [vc]

end Staying

section Key

theorem endsAdvanced_readKey (hs : Steady h) (hstate : h.state = readEncKey) : EndsAdvanced h (readKey host h) := by
  obtain ⟨hf, hw, hp⟩ := hs
  simp only [Within, hstate] at hw
  refine (ends_readTo_tame _).bind fun _ h₁ ht ↦ ?_
  obtain ⟨hpos, hgrow, hend, hahead⟩ := ht.sizes hw.1
  obtain ⟨hf₁, hp₁, hstate₁⟩ := ht.kept hf hp hstate
  refine .get_ite (fun hlt ↦ .pure ⟨⟨hf₁, ?_, hp₁⟩, nofun, nofun⟩) fun hge ↦ ?_
  · simp only [Within, hstate₁]
    omega
  simp only [Polls, hstate₁] at hp₁
  have hkey : ∀ {h' : Handshake}, Ends (onlyIf h₁.incoming (prepareKeyPlusPad host) h') (fun _ h'' ↦ Stays h' h'') Tame :=
    .either (.either trivial (.modify (stays_push _ _))) (.pure (stays_info _))
  refine .modify_bind (hkey.bind fun _ h₂ hq₂ ↦ ?_)
  have hf₂ : Founded h₂ := hq₂.founded hf₁
  have hl₂ : Listens h₂ := hq₂.listens hf₁ hp₁
  have hpos₂ : h₂.readBuffer.position = h₁.readBuffer.position := hq₂.position
  have hlen₂ : h₂.readBuffer.content.length = h₁.readBuffer.content.length := hq₂.length
  have ha₂ : ahead h₂ = ahead h₁ := hq₂.ahead
  rcases host.computeSecret _ with _ | secret
  · trivial
  refine .modify_bind (Ends.bind (ends_prepareSync_stays fun hout ↦ (hf₂.2.1 hout).1) ?_)
  rintro _ h₃ ⟨sync, hq₃, hsync, hsync'⟩
  have hpos₃ : h₃.readBuffer.position = h₂.readBuffer.position + 96 := hq₃.position
  have hlen₃ : h₃.readBuffer.content.length = h₂.readBuffer.content.length := hq₃.length
  have ha₃ : ahead h₃ + 96 = ahead h₂ := by
    have hc := ahead_consume h₂ 96 (by omega)
    rw [← hc]
    exact congrArg (· + 96) hq₃.ahead
  refine .modify_bind (.pure ⟨⟨hq₃.founded hf₂, ?_, hq₃.listens hf₂ hl₂⟩, fun _ ↦ readMeasure_lt hstate ?_ rfl,
    nofun⟩)
  · simp only [Within]
    rw [hq₃.sync, hq₃.incoming]
    unfold encPadReadSize encPadSize at hend
    exact ⟨by omega, by omega, by omega, hsync, hsync'⟩
  · change ahead h₃ ≤ ahead h
    omega

theorem endsAdvanced_readEncryptionKey (hs : Steady h) (hstate : h.state = readEncKey) :
    EndsAdvanced h (readEncryptionKey host h) := by
  refine .get_either ?_ (endsAdvanced_readKey hs hstate)
  obtain ⟨hf, hw, hp⟩ := hs
  have hw' := hw
  simp only [Within, hstate] at hw'
  refine (ends_readTo_tame _).bind fun _ h₁ ht ↦ ?_
  obtain ⟨hpos, hgrow, hend, hahead⟩ := ht.sizes hw.1
  obtain ⟨hf₁, hp₁, hstate₁⟩ := ht.kept hf hp hstate
  have hw₁ : Within h₁ := by
    simp only [Within, hstate₁]
    omega
  refine .get_either (.pure ⟨⟨hf₁, hw₁, hp₁⟩, nofun, nofun⟩) ?_
  refine .either (.either trivial ?_) ?_
  · simp only [Polls, hstate₁] at hp₁
    refine .modify_bind (.pure ⟨⟨hf₁, ?_, hp₁⟩, fun _ ↦ readMeasure_lt hstate hahead.le rfl, nofun⟩)
    simp only [Within]
    omega
  · exact Ends.imp (endsAdvanced_readKey ⟨hf₁, hw₁, hp₁⟩ hstate₁)
      (fun _ _ ha ↦ ha.of_measure (ht.measure hw.1).le)

end Key

end LibTorrent.Handshake
