import LibTorrent.Handshake.Sending
import LibTorrent.Handshake.Manager

namespace LibTorrent.Handshake

open HandshakeState Lib.Decimal Lib.Program List Option

variable {host : Host} {h : Handshake}

section Info

variable (host) in
def Greeted (h : Handshake) : Prop := Ready h ∧ ∀ d ∈ h.download, CarriesBody host h d []

theorem ends_checkInfoHash_greeted (hash : Bytes) (hearly : Early host h) :
    Ends (checkInfoHash host hash h) (fun _ h' ↦ Greeted host h') (FailsOrderly host) := by
  refine .get_ite (fun _ ↦ ?_) fun hin ↦ ?_
  · have hlookup : Ends (onlyIf h.download.isNone
        (modify fun h' : Handshake ↦ { h' with download := host.downloadInfo hash }) h)
        (fun _ h' ↦ Ready h') (FailsOrderly host) :=
      .either (.modify hearly.1) (.pure hearly.1)
    refine hlookup.bind fun _ h₁ hr₁ ↦ .either (failsOrderly nofun) ?_
    refine reading_validateDownload.andThen fun d h₂ h₂o ↦ ?_
    exact ends_prepareHandshake (ready_of_outside h₂o hr₁)
  · refine .modify_bind (reading_getDownload.andThen fun d h₁ h₁o ↦ .either (failsOrderly nofun) ?_)
    have hgreeted : Greeted host h := ⟨hearly.1, hearly.2 ((Bool.not_eq_true _).mp hin)⟩
    exact .pure (of_outside (Greeted host) h₁o hgreeted)

theorem endsGoing_readHandshakeInfo (ho : Orderly host h) (hstate : h.state = readInfo) :
    EndsGoing host (readHandshakeInfo host h) := by
  have hearly : Early host h := ho.early (by simp [hstate])
  refine (reading_fillReadBuffer _).andThen fun b h₁ h₁o ↦ .get_either (failsOrderly nofun) ?_
  refine .either (.pure (goesOn_stop h₁o ho)) (.modify_bind ?_)
  have hearly₁ : Early host h₁ := early_of_outside h₁o hearly
  refine Ends.bind (ends_checkInfoHash_greeted _ hearly₁) ?_
  rintro _ h₂ ⟨⟨hp, hw, hd, hi⟩, hgreeted⟩
  exact .modify_bind (.modify_bind (.pure ⟨⟨hp, hw, hd, hi, hgreeted⟩, fun _ ↦ hi, nofun⟩))

theorem ends_preparePeerInfo :
    Ends (preparePeerInfo host h) (fun _ h' ↦ outside h' = outside { h with hasPeerInfo := true })
      (FailsOrderly host) := by
  refine ends_getDownload_bind (fun _ ↦ failsOrderly nofun) fun d _ ↦ .get_bind ?_
  refine .either (failsOrderly nofun) (.either (failsOrderly nofun) ?_)
  refine .either (failsOrderly nofun) (.modify_bind ?_)
  refine .either (failsOrderly nofun) (.modify_bind ?_)
  exact .either (failsOrderly nofun) rfl

variable (host) in
def Extended (h : Handshake) : Prop :=
  Ready h ∧ ∀ d ∈ h.download, CarriesBody host h d (if h.supportsExtensions then extensionMessage d else [])

theorem ends_writeExtensionHandshake (hg : Greeted host h) :
    Ends (onlyIf h.supportsExtensions (writeExtensionHandshake host) h) (fun _ h' ↦ Extended host h')
      (FailsOrderly host) := by
  refine .ite (fun hext ↦ ?_) fun hext ↦ .pure ⟨hg.1, fun d hd ↦ ?_⟩
  · refine ends_getDownload_bind (fun _ ↦ failsOrderly nofun) fun d hd ↦ ends_queue ⟨⟨hg.1.1.queued, hg.1.2⟩, ?_⟩
    intro d' hd'
    cases mem_unique hd hd'
    change CarriesBody host _ d (if h.supportsExtensions = true then _ else _)
    rw [if_pos hext]
    exact (hg.2 d hd).queued hg.1.1 _
  · rw [if_neg hext]
    exact hg.2 d hd

theorem ends_prepareMessages (he : Extended host h) : Ends (prepareMessages host h)
      (fun _ h' ↦ Ready h' ∧ ∀ d ∈ h'.download, Sends host h' d) (FailsOrderly host) := by
  refine ends_getDownload_bind (fun _ ↦ failsOrderly nofun) fun d hd ↦ .ite (fun hhide ↦ ?_) fun hhide ↦ ?_
  · refine .modify_bind (ends_queue ⟨⟨Placed.queued he.1.1, he.1.2⟩, ?_⟩)
    intro d' hd'
    cases mem_unique hd hd'
    rw [Sends, if_pos hhide]
    rfl
  refine ends_getDownload_bind (fun _ ↦ failsOrderly nofun) fun d' hd' ↦ ?_
  cases mem_unique hd hd'
  refine ends_queue_bind (.modify ⟨⟨he.1.1.queued, he.1.2⟩, ?_⟩)
  intro d' hd'
  cases mem_unique hd hd'
  rw [Sends, if_neg hhide]
  refine ⟨Nat.zero_le _, ?_, fun _ hpos ↦ absurd hpos (Nat.lt_irrefl 0)⟩
  have hc := (he.2 d hd).queued he.1.1 (bitfieldHeader d)
  unfold messages
  exact hc

theorem endsGoing_readHandshakePeer (ho : Orderly host h) (hstate : h.state = readPeer) :
    EndsGoing host (readHandshakePeer host h) := by
  have hgreeted : Greeted host h := by
    obtain ⟨hp, hw, hc⟩ := ho
    have hc' : h.readDone = false ∧ h.inRead = true ∧ ∀ d ∈ h.download, CarriesBody host h d [] := by
      simpa only [Conveys, hstate] using hc
    exact ⟨⟨hp, hw, hc'.1, hc'.2.1⟩, hc'.2.2⟩
  refine (reading_fillReadBuffer _).andThen fun b h₁ h₁o ↦ .either ?_ ?_
  · exact .pure (goesOn_stop h₁o ho)
  refine ends_preparePeerInfo.bind fun _ h₂ h₂o ↦ .get_bind ?_
  have hgreeted₁ : Greeted host h₁ := of_outside (Greeted host) h₁o hgreeted
  have hgreeted₂ : Greeted host h₂ := of_outside (Greeted host) h₂o hgreeted₁
  refine (ends_writeExtensionHandshake hgreeted₂).bind fun _ h₃ hext ↦ (ends_prepareMessages hext).bind ?_
  rintro _ h₄ ⟨⟨hp, hw, hd, hi⟩, hsends⟩
  exact .modify_bind (.pure ⟨⟨hp, hw, fun _ ↦ hd, fun _ ↦ rfl, hsends⟩, fun _ ↦ hi, by simp⟩)

end Info

section Messages

@[simp] def talking : List HandshakeState := [readMessage, readBitfield, readExt, readPort]

variable (host) in
def Talking (h : Handshake) : Prop :=
  Placed h ∧ h.writeDone = false ∧ (h.inRead = true → h.readDone = false) ∧
    (h.writeBuffer.remaining ≠ [] → h.inWrite = true) ∧ ∀ d ∈ h.download, Sends host h d

theorem Talking.orderly (ht : Talking host h) (hstate : h.state ∈ talking) : Orderly host h := by
  obtain ⟨hp, hw, hc⟩ := ht
  refine ⟨hp, hw, ?_⟩
  simp only [talking, mem_cons, not_mem_nil, or_false] at hstate
  obtain hs | hs | hs | hs := hstate
  all_goals simpa only [Conveys, hs] using hc

theorem Orderly.talking (ho : Orderly host h) (hstate : h.state ∈ talking) : Talking host h := by
  obtain ⟨hp, hw, hc⟩ := ho
  refine ⟨hp, hw, ?_⟩
  simp only [Handshake.talking, mem_cons, not_mem_nil, or_false] at hstate
  obtain hs | hs | hs | hs := hstate
  all_goals simpa only [Conveys, hs] using hc

theorem endsOrderly_preparePostHandshake (mustWrite : Bool) (hp : Placed h) (hw : h.writeDone = false)
    (hread : h.inRead = false) (hdone : h.readDone = true)
    (hmust : ∀ d ∈ h.download, hidesBitfield d = false → mustWrite = false)
    (hsends : ∀ d ∈ h.download, Sends host h d) :
    EndsOrderly host (preparePostHandshake host mustWrite h) := by
  refine ends_getDownload_bind (fun _ ↦ failsOrderly nofun) fun d hd ↦ .get_bind ?_
  refine .ite (fun _ ↦ failsOrderly nofun) fun hpos ↦ .modify_bind (ends_queue_bind ?_)
  have hsendsAll : ∀ d' ∈ h.download, hidesBitfield d' = false →
      SendsAll host (queued host (postMessage host h mustWrite) { h with state := postHandshake }) d' := by
    intro d' hd' hno
    cases mem_unique hd hd'
    refine ⟨not_not.mp hpos, ?_⟩
    have hmessages : SendsMessages host h d := by
      have hs := hsends d hd
      rwa [Sends, if_neg (by simp [hno])] at hs
    have hc := CarriesBody.queued hmessages.2.1 hp
      (postMessage host h mustWrite)
    rw [hmust d hd hno] at hc ⊢
    exact hc
  have hplaced : Placed (queued host (postMessage host h mustWrite) { h with state := postHandshake }) :=
    Placed.queued hp
  refine .bind_of_ok (unsent_eq hplaced) (.ite (fun hnil ↦ ?_) fun _ ↦ ?_)
  · refine .modify_bind (.get_ite (fun _ ↦ fun _ ↦ ⟨hnil, hsendsAll⟩) fun hno ↦ ?_)
    exact absurd hdone hno
  · exact .pure ⟨hplaced, hw, hread, hdone, hsendsAll⟩

section

variable (ht : Talking host h) (hstate : h.state ∈ talking)
include ht hstate

theorem endsOrderly_readFinished : EndsOrderly host (readFinished host h) := by
  obtain ⟨hp, hw, hread, hbusy, hsends⟩ := ht
  refine .get_either (failsOrderly nofun) ?_
  refine ends_getDownload_bind (fun _ ↦ failsOrderly nofun) fun d hd ↦ .modify_bind ?_
  refine Ends.bind (show EndsOrderly host _ from .either ?_ ?_) fun _ h₁ ho₁ ↦ ?_
  · refine endsOrderly_preparePostHandshake _ hp hw rfl rfl ?_ hsends
    intro d' hd' hno
    cases mem_unique hd hd'
    exact hno
  · exact .pure (Talking.orderly ⟨hp, hw, nofun, hbusy, hsends⟩ hstate)
  · refine .get_ite (fun hdone ↦ ?_) fun _ ↦ .pure ho₁
    cases hdone.symm.trans ho₁.2.1

theorem endsGoing_finish : EndsGoing host ((do readFinished host; pure Next.stop : Part Next) h) :=
  (endsOrderly_readFinished ht hstate).bind fun _ _ ho ↦ .pure ⟨ho, nofun, nofun⟩

end

theorem endsGoing_messageDone (done : Bool) (ho : Orderly host h) (hread : h.inRead = true)
    (hstate : h.state ∈ talking) : EndsGoing host (messageDone host done h) := by
  have ht : Talking host h := ho.talking hstate
  refine .either (.pure ⟨ho, nofun, nofun⟩) (.modify_bind (.get_bind ?_))
  refine .either (endsGoing_finish ht (by simp)) (.pure ⟨Talking.orderly ht (by simp), fun _ ↦ hread, nofun⟩)

theorem endsGoing_startBitfield (ht : Talking host h) (hread : h.inRead = true) : EndsGoing host (startBitfield h) := by
  refine .get_bind (ends_getDownload_bind (fun _ ↦ failsOrderly nofun) fun d _ ↦ ?_)
  refine .either (failsOrderly nofun) (.modify_bind (.pure ?_))
  exact ⟨Talking.orderly ht (by simp), fun _ ↦ hread, nofun⟩

theorem endsGoing_readMessagePart (ht : Talking host h) (hread : h.inRead = true) (hstate : h.state = readMessage) :
    EndsGoing host (readMessagePart host h) := by
  refine ends_getDownload_bind (fun _ ↦ failsOrderly nofun) fun d _ ↦ .either ?_ ?_
  · exact .modify_bind (endsGoing_finish ht (by simp [hstate]))
  refine .modify_bind ((reading_fillReadBuffer _).andThen fun b h₁ h₁o ↦ .get_bind ?_)
  have ht₁ : Talking host h₁ := of_outside (Talking host) h₁o ht
  have hread₁ : h₁.inRead = true := (congrArg inRead h₁o).trans hread
  have hstate₁ : h₁.state = readMessage := (congrArg state h₁o).trans hstate
  refine .either (.modify_bind (endsGoing_finish ht₁ (by simp [hstate₁]))) ?_
  refine .either (.pure ⟨ht₁.orderly (by simp [hstate₁]), nofun, nofun⟩) ?_
  refine .either (endsGoing_startBitfield ht₁ hread₁) (.either ?_
    (.either ?_ ?_))
  · exact .modify_bind (.pure ⟨Talking.orderly ht₁ (by simp), fun _ ↦ hread₁, nofun⟩)
  · exact .modify_bind (.pure ⟨Talking.orderly ht₁ (by simp), fun _ ↦ hread₁, nofun⟩)
  · exact .modify_bind (endsGoing_finish ht₁ (by simp [hstate₁]))

end Messages

section Reading

theorem endsGoing_readProxy (ho : Orderly host h) (hstate : h.state = proxyRead) : EndsGoing host (readProxy host h) := by
  obtain ⟨hp, hw, hc⟩ := ho
  obtain ⟨hd, hi⟩ : h.readDone = false ∧ h.inRead = true := by simpa only [Conveys, hstate] using hc
  refine .get_bind ?_
  rcases h.proxy with _ | p
  · exact failsOrderly (by simp)
  refine .either (failsOrderly (by simp)) ((reading_readUnthrottled _).andThen fun s h₁ h₁o ↦ ?_)
  obtain ⟨hp₁, hw₁, hd₁, hi₁⟩ : Ready h₁ := ready_of_outside h₁o ⟨hp, hw, hd, hi⟩
  have hstate₁ : h₁.state = proxyRead := (congrArg state h₁o).trans hstate
  refine .modify_bind (.get_bind (.modify_bind ?_))
  cases host.proxyAction (host.proxyRead p (h₁.readBuffer.push s).remaining).2 with
  | writing => exact .modify_bind (.pure ⟨⟨hp₁, hw₁, hd₁⟩, by simp, by simp⟩)
  | reading =>
    refine .pure ⟨⟨hp₁, hw₁, ?_⟩, by simp, by simp⟩
    simpa only [Conveys, hstate₁] using ⟨hd₁, hi₁⟩
  | done => exact .modify_bind (.pure ⟨⟨hp₁, hw₁, hd₁, hi₁⟩, by simp, fun _ ↦ rfl⟩)
  | error => exact failsOrderly (by simp)

theorem endsGoing_readStep (ho : Orderly host h) (hread : h.inRead = true) : EndsGoing host (readStep host h) := by
  have hdone : ∀ {x : Part Bool}, Reading x → h.state ∈ talking →
      EndsGoing host ((do messageDone host (← x) : Part Next) h) := by
    intro x hx hs
    refine hx.andThen fun b h₁ h₁o ↦ endsGoing_messageDone b (orderly_of_outside h₁o ho) ?_ ?_
    · exact (congrArg inRead h₁o).trans hread
    · exact of_outside (fun h ↦ h.state ∈ talking) h₁o hs
  refine .get_bind ?_
  cases hstate : h.state with
  | proxyRead => exact endsGoing_readProxy ho hstate
  | readEncKey => exact endsGoing_readEncryptionKey ho hstate
  | readEncSync => exact endsGoing_readEncryptionSync ho hstate
  | readEncSkey => exact endsGoing_readEncryptionSkey ho hstate
  | readEncNegot => exact endsGoing_readEncryptionNegotiation ho hstate
  | readEncPad => exact endsGoing_readEncryptionPad ho hstate
  | readEncIa => exact endsGoing_readEncryptionIa ho hstate
  | readInfo => exact endsGoing_readHandshakeInfo ho hstate
  | readPeer => exact endsGoing_readHandshakePeer ho hstate
  | readMessage => exact endsGoing_readMessagePart (ho.talking (by simp [hstate])) hread hstate
  | postHandshake =>
    have hc := ho.2.2
    simp only [Conveys, hstate] at hc
    cases hread.symm.trans hc.1
  | readBitfield => exact hdone reading_readBitfieldPart (by simp [hstate])
  | readExt => exact hdone reading_readExtension (by simp [hstate])
  | readPort => exact hdone reading_readPortPart (by simp [hstate])
  | inactive | connecting | proxyWrite | proxyDone => exact failsOrderly (by simp)

theorem ends_readStates (fuel : ℕ) (ho : Orderly host h) (hread : h.inRead = true) :
    Ends (readStates host fuel h) (fun next h' ↦ Orderly host h' ∧ (next = .write → h'.state = proxyDone))
      (FailsOrderly host) := by
  induction fuel generalizing h with
  | zero => exact failsOrderly nofun
  | succ fuel ih =>
    refine (endsGoing_readStep ho hread).bind fun next h' hgo ↦ ?_
    cases next with
    | again => exact ih hgo.orderly (hgo.again rfl)
    | stop | write => exact .pure ⟨hgo.orderly, hgo.write⟩

end Reading

open Lib.Keystream Nat Origin ProtocolBuffer

variable {n : ℕ}

section Bitfield

abbrev sending : List HandshakeState := [readMessage, readBitfield, readExt]

def blockLength (h : Handshake) (d : HandshakeDownload) : ℕ :=
  min (d.bitfield.length - h.writePos) reserved

def block (h : Handshake) (d : HandshakeDownload) : Bytes := (d.bitfield.drop h.writePos).take (blockLength h d)

@[simp] theorem length_block (d : HandshakeDownload) : (block h d).length = blockLength h d := by
  rw [block, length_take, length_drop]
  exact min_eq_left (min_le_left _ _)

theorem messages_add (n : ℕ) (d : HandshakeDownload) :
    messages { h with writePos := h.writePos + n } d = messages h d ++ (d.bitfield.drop h.writePos).take n := by
  change _ ++ (_ ++ d.bitfield.take (h.writePos + n)) = _ ++ (_ ++ _) ++ _
  rw [take_add]
  simp only [append_assoc]
  rfl

variable {d : HandshakeDownload}

theorem ends_writePlainBitfield (hs : SendsMessages host h d)
    (hnil : h.writeBuffer.remaining = []) (hpos : h.writePos ≠ d.bitfield.length) (henc : h.info.isEncrypted = false) :
    Ends (writePlainBitfield d.bitfield h)
      (fun _ h' ↦ ∃ n s, h' = { wrote s n h with writePos := h.writePos + n } ∧ SendsMessages host h' d)
      (fun e _ ↦ e = .network) := by
  obtain ⟨hle, hc, -⟩ := hs
  have hrest : d.bitfield.drop h.writePos ≠ [] := by
    intro hdrop
    have hlen := congrArg List.length hdrop
    rw [length_drop, length_nil] at hlen
    omega
  refine .get_bind (Ends.bind ((ends_writeUnthrottled hrest).mono (fun _ _ hh ↦ hh) fun _ _ he ↦ he.1) ?_)
  rintro n _ ⟨hn, rfl, -⟩
  refine .modify ⟨n, _, rfl, ?_, ?_, fun hyes ↦ absurd (henc.symm.trans hyes) nofun⟩
  · rw [length_drop] at hn
    change h.writePos + n ≤ _
    omega
  have hstream : stream (wrote (d.bitfield.drop h.writePos) n h) = stream h ++ (d.bitfield.drop h.writePos).take n := by
    change h.socket.sent ++ _ ++ h.writeBuffer.remaining = h.socket.sent ++ h.writeBuffer.remaining ++ _
    rw [hnil, append_nil, append_nil]
  unfold CarriesBody at hc ⊢
  rw [messages_add]
  change Carries (host.rc4 h.info.encryptKey) (handshakeBytes host d) h.info.isEncrypted h.info.encryptPos
    (messages h d ++ _) (stream (wrote _ n h))
  rw [hstream]
  rw [henc] at hc ⊢
  exact hc.append_plain _

variable (host) in
def wroteBlock (d : HandshakeDownload) (h : Handshake) : Handshake :=
  { h with
    writeBuffer := {}
    writePos := h.writePos + blockLength h d
    info := { h.info with encryptPos := h.info.encryptPos + blockLength h d }
    socket := { h.socket with
      sent := h.socket.sent ++ encrypted host h.info (block h d)
      writes := h.socket.writes.tail } }

theorem sendsMessages_wroteBlock (hs : SendsMessages host h d)
    (hnil : h.writeBuffer.remaining = []) (henc : h.info.isEncrypted = true) :
    SendsMessages host (wroteBlock host d h) d := by
  obtain ⟨hle, hc, -⟩ := hs
  refine ⟨?_, ?_, fun _ _ ↦ ⟨rfl, rfl⟩⟩
  · change h.writePos + min (d.bitfield.length - h.writePos) _ ≤ _
    omega
  have hstream : stream (wroteBlock host d h) = stream h ++ encrypted host h.info (block h d) := by
    change h.socket.sent ++ _ ++ [] = h.socket.sent ++ h.writeBuffer.remaining ++ _
    rw [hnil, append_nil, append_nil]
  have hmessages : messages (wroteBlock host d h) d = messages h d ++ block h d := messages_add _ d
  unfold CarriesBody at hc ⊢
  rw [hstream, hmessages]
  change Carries (host.rc4 h.info.encryptKey) (handshakeBytes host d) h.info.isEncrypted
    (h.info.encryptPos + blockLength h d) _ _
  rw [henc] at hc ⊢
  have hc' := hc.append_encrypted (block h d)
  rw [length_block] at hc'
  exact hc'

theorem ends_writeEncryptedBitfield (hs : SendsMessages host h d)
    (hpos : h.writePos ≠ d.bitfield.length) (henc : h.info.isEncrypted = true)
    (hans : Answers h.socket.writes (blockLength h d)) :
    Ends (writeEncryptedBitfield host d.bitfield h) (fun _ h' ↦ h' = wroteBlock host d h) (fun e _ ↦ e = .network) := by
  obtain ⟨hle, -, hempty⟩ := hs
  have hreset : (if h.writePos = 0 then { h with writeBuffer := {} } else h) = { h with writeBuffer := {} } := by
    split_ifs with hzero
    · rfl
    obtain ⟨hcontent, hposition⟩ := hempty henc (pos_of_ne_zero hzero)
    have hbuffer : h.writeBuffer = {} := by
      cases hb : h.writeBuffer
      simp_all
    rw [← hbuffer]
  refine .modify_bind ?_
  rw [hreset]
  have hlen : (encrypted host h.info (block h d)).length = blockLength h d := by
    rw [encrypted, length_crypt, length_block]
  have hne : encrypted host h.info (block h d) ≠ [] := by
    intro hnil
    rw [hnil, length_nil] at hlen
    unfold blockLength reserved at hlen
    omega
  refine .get_ite (fun hlt ↦ absurd hlt (not_lt_zero _)) fun _ ↦ ?_
  refine .modify_bind (.get_bind (Ends.bind ((ends_writeUnthrottled hne).mono (fun _ _ hh ↦ hh)
    fun _ _ he ↦ he.1) ?_))
  rintro n _ ⟨-, rfl, hall⟩
  rw [hlen] at hall
  obtain rfl : n = blockLength h d := hall.mpr hans
  refine .modify ?_
  have htake : (encrypted host h.info (block h d)).take (blockLength h d) = encrypted host h.info (block h d) :=
    take_of_length_le hlen.le
  have hdrop := drop_eq_nil_of_le hlen.le
  change
    { h with
      writePos := h.writePos + blockLength h d
      writeBuffer := ⟨(encrypted host h.info (block h d)).drop (blockLength h d), 0⟩
      info := { h.info with encryptPos := h.info.encryptPos + (block h d).length }
      socket := { h.socket with
        sent := h.socket.sent ++ (encrypted host h.info (block h d)).take (blockLength h d)
        writes := h.socket.writes.tail } } = _
  rw [htake, hdrop, length_block]
  rfl

/-- The answer that the next block of an encrypted bitfield gets is not a part of it. -/
def WholeBlock (h : Handshake) (writes : List (Option ℕ)) : Prop :=
  h.info.isEncrypted = true → ∀ d ∈ h.download, h.writePos ≠ d.bitfield.length → Answers writes (blockLength h d)

def aside (h : Handshake) : Handshake :=
  { h with writeBuffer := {}, writePos := 0, info := {}, socket := { h.socket with sent := [], writes := [] } }

theorem ends_writeBlock (ht : Talking host h) (hd : h.download = some d)
    (hnil : h.writeBuffer.remaining = []) (hwhole : WholeBlock h h.socket.writes) :
    Ends (onlyIf (h.writePos ≠ d.bitfield.length)
        (if h.info.isEncrypted then writeEncryptedBitfield host d.bitfield else writePlainBitfield d.bitfield) h)
      (fun _ h' ↦ Talking host h' ∧ aside h' = aside h ∧ h'.writeBuffer.remaining = []) (fun e _ ↦ e = .network) := by
  obtain ⟨hp, hw, hread, hbusy, hsends⟩ := ht
  refine .ite (fun hne ↦ ?_) fun _ ↦ .pure ⟨⟨hp, hw, hread, hbusy, hsends⟩, rfl, hnil⟩
  have hpos := of_decide_eq_true hne
  have hshow : ¬ hidesBitfield d = true := by
    intro hhide
    have hs := hsends d hd
    rw [Sends, if_pos hhide] at hs
    exact hpos hs
  have hmessages : SendsMessages host h d := by
    have hs := hsends d hd
    rwa [Sends, if_neg hshow] at hs
  refine .ite (fun henc ↦ ?_) fun henc ↦ ?_
  · refine (ends_writeEncryptedBitfield hmessages hpos henc (hwhole henc d hd hpos)).imp ?_
    rintro _ _ rfl
    refine ⟨⟨le_refl 0, hw, hread, fun hno ↦ absurd rfl hno, fun d' hd' ↦ ?_⟩, rfl, rfl⟩
    cases Option.mem_unique hd hd'
    rw [Sends, if_neg hshow]
    exact sendsMessages_wroteBlock hmessages hnil henc
  refine (ends_writePlainBitfield hmessages hnil hpos ((Bool.not_eq_true _).mp henc)).imp ?_
  rintro _ _ ⟨n, s, rfl, hmessages'⟩
  refine ⟨⟨hp, hw, hread, hbusy, fun d' hd' ↦ ?_⟩, rfl, hnil⟩
  cases Option.mem_unique hd hd'
  rw [Sends, if_neg hshow]
  exact hmessages'

theorem endsOrderly_writeBitfieldRest (ht : Talking host h) (hd : h.download = some d)
    (hstate : h.state ∈ talking) (hnil : h.writeBuffer.remaining = [])
    (hwhole : WholeBlock h h.socket.writes) : EndsOrderly host (writeBitfieldRest host d.bitfield h) := by
  refine .get_bind (Ends.bind ((ends_writeBlock ht hd hnil hwhole).mono (fun _ _ hh ↦ hh) ?_) ?_)
  · rintro _ _ rfl
    exact failsOrderly nofun
  rintro _ h₁ ⟨ht₁, haside, hnil₁⟩
  have hstate₁ : h₁.state = h.state := by
    change (aside h₁).state = (aside h).state
    rw [haside]
  rw [← hstate₁] at hstate
  refine .get_ite (fun hpos ↦ ?_) fun _ ↦ .pure (ht₁.orderly hstate)
  obtain ⟨hp, hw, hread, hbusy, hsends⟩ := ht₁
  refine .ite (fun hdone ↦ ?_) fun _ ↦ .modify ?_
  · refine endsOrderly_preparePostHandshake false hp hw ?_ hdone (fun _ _ _ ↦ rfl) hsends
    cases hi : h₁.inRead with
    | false => rfl
    | true => cases hdone.symm.trans (hread hi)
  · exact Talking.orderly ⟨hp, hw, hread, fun hno ↦ absurd hnil₁ hno, hsends⟩ hstate

theorem Talking.flushed (ht : Talking host h) (hn : n ≤ h.writeBuffer.remaining.length) :
    Talking host (flushed n h) := by
  obtain ⟨hp, hw, hread, hbusy, hsends⟩ := ht
  refine ⟨hp.flushed hn, hw, hread, fun hne ↦ hbusy fun hnil ↦ hne ?_, fun d hd ↦ ?_⟩
  · rw [remaining_flushed, hnil, drop_nil]
  have hs := hsends d hd
  unfold Sends at hs ⊢
  split_ifs at hs ⊢ with hhide
  · exact hs
  obtain ⟨hle, hc, hempty⟩ := hs
  refine ⟨hle, hc.flushed n, fun henc hpos ↦ ?_⟩
  obtain ⟨hcontent, hposition⟩ := hempty henc hpos
  refine ⟨hcontent, ?_⟩
  rw [remaining, hcontent, drop_nil, length_nil, le_zero] at hn
  subst hn
  exact hposition

def WholeWrite (h : Handshake) : Prop :=
  if h.writeBuffer.remaining = [] then WholeBlock h h.socket.writes
  else Answers h.socket.writes h.writeBuffer.remaining.length → WholeBlock h h.socket.writes.tail

theorem endsOrderly_writeBitfield (ht : Talking host h) (hstate : h.state ∈ talking)
    (hwhole : WholeWrite h) : EndsOrderly host (writeBitfield host h) := by
  refine ends_getDownload_bind (fun _ ↦ failsOrderly nofun) fun d hd ↦ .get_bind ?_
  refine .ite (fun hdone ↦ failsOrderly nofun) fun _ ↦ .bind_of_ok (unsent_eq ht.1) ?_
  unfold WholeWrite at hwhole
  refine .ite (fun hnil ↦ ?_) fun hne ↦ ?_
  · rw [if_pos hnil] at hwhole
    exact endsOrderly_writeBitfieldRest ht hd hstate hnil hwhole
  rw [if_neg hne] at hwhole
  refine Ends.bind ((ends_writeBuffered ht.1 hne).mono (fun _ _ hh ↦ hh) ?_) ?_
  · rintro _ _ ⟨rfl, -⟩
    exact failsOrderly nofun
  rintro b _ ⟨n, hn, rfl, hall, hans⟩
  have ht' := ht.flushed hn
  refine .ite (fun hb ↦ ?_) fun _ ↦ .pure (ht'.orderly hstate)
  refine endsOrderly_writeBitfieldRest ht' hd hstate ?_ (hwhole (hans.mp hb))
  rw [remaining_flushed, hall.mp hb, drop_length]

end Bitfield

section Events

theorem Orderly.flushed (ho : Orderly host h) (hn : n ≤ h.writeBuffer.remaining.length) :
    Orderly host (flushed n h) := by
  have hstate' : (Handshake.flushed n h).state = h.state := rfl
  have hc := ho.2.2
  cases hstate : h.state with
  | readMessage | readBitfield | readExt | readPort =>
    exact ((ho.talking (by simp [hstate])).flushed hn).orderly (by simp [hstate', hstate])
  | readEncSync | readEncNegot | readEncPad | readEncIa | readInfo =>
    have hearly : Early host h := ho.early (by simp [hstate])
    refine Early.orderly ⟨⟨hearly.1.1.flushed hn, hearly.1.2⟩, fun hout d hd ↦ (hearly.2 hout d hd).flushed n⟩ ?_
    simp [hstate', hstate]
  | readPeer =>
    refine ⟨ho.1.flushed hn, ho.2.1, ?_⟩
    simp only [Conveys, hstate', hstate] at hc ⊢
    exact ⟨hc.1, hc.2.1, fun d hd ↦ (hc.2.2 d hd).flushed n⟩
  | postHandshake =>
    refine ⟨ho.1.flushed hn, ho.2.1, ?_⟩
    simp only [Conveys, hstate', hstate] at hc ⊢
    exact ⟨hc.1, hc.2.1, fun d hd hno ↦ ⟨(hc.2.2 d hd hno).1, (hc.2.2 d hd hno).2.flushed n⟩⟩
  | _ =>
    refine ⟨ho.1.flushed hn, ho.2.1, ?_⟩
    simp only [Conveys, hstate', hstate] at hc ⊢
    exact hc

theorem Orderly.pollWrite {b : Bool} (ho : Orderly host h) (hb : h.writeBuffer.remaining ≠ [] → b = true) :
    Orderly host { h with inWrite := b } := by
  cases hstate : h.state with
  | readMessage | readBitfield | readExt | readPort =>
    obtain ⟨hp, hw, hread, hbusy, hsends⟩ : Talking host h := ho.talking (by simp [hstate])
    refine Talking.orderly ⟨hp, hw, hread, hb, hsends⟩ ?_
    simp
  | _ =>
    refine ⟨ho.1, ho.2.1, ?_⟩
    have hc := ho.2.2
    simp only [Conveys, hstate] at hc ⊢
    exact hc

theorem endsOrderly_flush (ho : Orderly host h) : EndsOrderly host (flush h) := by
  refine .bind_of_ok (unsent_eq ho.1) (.ite (fun _ ↦ failsOrderly nofun) fun hne ↦ ?_)
  refine Ends.bind ((ends_writeBuffered ho.1 hne).mono (fun _ _ hh ↦ hh) ?_) ?_
  · rintro _ _ ⟨rfl, -⟩
    exact failsOrderly nofun
  rintro b _ ⟨n, hn, rfl, hall, -⟩
  have ho' := ho.flushed hn
  refine .ite (fun hb ↦ ?_) fun _ ↦ .pure ho'
  have hnil : (flushed n h).writeBuffer.remaining = [] := by rw [remaining_flushed, hall.mp hb, drop_length]
  refine .get_ite (fun hpost ↦ ?_) fun _ ↦ .modify (ho'.pollWrite fun hno ↦ absurd hnil hno)
  have hc := ho'.2.2
  simp only [Conveys, hpost] at hc
  refine .modify_bind (.get_ite (fun _ _ ↦ ⟨hnil, hc.2.2⟩) fun hno ↦ ?_)
  exact absurd hc.2.1 hno

theorem endsOrderly_prepareFirst (hr : Ready h) : EndsOrderly host (prepareFirst host h) := by
  refine .bind_of_ok (unsent_eq hr.1) (.ite (fun _ ↦ failsOrderly nofun) fun hnil ↦ ?_)
  refine .modify_bind (.get_either ?_ ?_)
  · refine Ends.bind (ends_prepareKeyPlusPad ⟨le_refl 0, hr.2⟩) fun _ h₁ hr₁ ↦ .modify ?_
    exact ⟨hr₁.1, hr₁.2.1, hr₁.2.2⟩
  refine Ends.bind (ends_prepareHandshake ⟨le_refl 0, hr.2⟩) ?_
  rintro _ h₁ ⟨⟨hp, hw, hd, hi⟩, hc⟩
  refine .modify ⟨hp, hw, ?_⟩
  cases hin : h₁.incoming with
  | true => exact ⟨hd, hi, hc⟩
  | false => exact ⟨hd, hi, fun _ ↦ hc⟩

theorem endsOrderly_writeConnected (hp : Placed h) (hw : h.writeDone = false) (hd : h.readDone = false) :
    EndsOrderly host (writeConnected host h) := by
  refine .get_either (.get_bind ?_) (.modify_bind ?_)
  · rcases h.proxy with _ | p
    · exact failsOrderly nofun
    refine .either (failsOrderly nofun) (.either (failsOrderly nofun) ?_)
    refine .modify_bind ?_
    cases host.proxyAction (host.proxyWrite p).2 with
    | reading =>
      refine .modify ⟨?_, hw, hd, rfl⟩
      change h.writeBuffer.position ≤ (h.writeBuffer.content ++ _).length
      rw [length_append]
      exact le_add_right_of_le hp
    | writing | done | error => exact failsOrderly nofun
  · exact endsOrderly_prepareFirst ⟨hp, hw, hd, rfl⟩

theorem mem_talking {state : HandshakeState} (hs : state ∈ sending) : state ∈ talking := by
  simp only [talking, mem_cons, not_mem_nil, or_false] at hs ⊢
  obtain hs | hs | hs := hs <;> simp [hs]

theorem endsOrderly_eventWrite (ho : Orderly host h)
    (hwhole : h.state ∈ sending → WholeWrite h) : EndsOrderly host (eventWrite host h) := by
  have hc := ho.2.2
  have hbitfield : h.state ∈ sending → EndsOrderly host (writeBitfield host h) := by
    intro hs
    have hs' := mem_talking hs
    exact endsOrderly_writeBitfield (ho.talking hs') hs' (hwhole hs)
  refine .get_bind ?_
  cases hstate : h.state with
  | connecting =>
    simp only [Conveys, hstate] at hc
    refine .either (failsOrderly (by simp)) ?_
    exact (endsOrderly_writeConnected ho.1 ho.2.1 hc).bind fun _ _ ho' ↦ endsOrderly_flush ho'
  | proxyWrite =>
    simp only [Conveys, hstate] at hc
    exact (endsOrderly_writeConnected ho.1 ho.2.1 hc).bind fun _ _ ho' ↦ endsOrderly_flush ho'
  | proxyDone =>
    simp only [Conveys, hstate] at hc
    exact (endsOrderly_prepareFirst ⟨ho.1, ho.2.1, hc⟩).bind fun _ _ ho' ↦ endsOrderly_flush ho'
  | readMessage | readBitfield | readExt => exact hbitfield (by simp [hstate])
  | _ => exact endsOrderly_flush ho

theorem endsOrderly_eventRead (ho : Orderly host h) (hread : h.inRead = true) : EndsOrderly host (eventRead host h) := by
  refine .get_bind ((ends_readStates _ ho hread).bind ?_)
  rintro next h₁ ⟨ho₁, hwrite⟩
  have hrest : EndsOrderly host ((do
      let s ← unsent
      let h ← get
      if s ≠ [] ∧ h.inWrite = false then do
        modify fun h ↦ { h with inWrite := true }
        eventWrite host
      else pure () : Part Unit) h₁) := by
    refine .bind_of_ok (unsent_eq ho₁.1) (.get_ite ?_ fun _ ↦ .pure ho₁)
    rintro ⟨hne, hin⟩
    refine .modify_bind (endsOrderly_eventWrite (ho₁.pollWrite fun _ ↦ rfl) fun hs ↦ ?_)
    have hs' := mem_talking hs
    exact absurd ((ho₁.talking hs').2.2.2.1 hne) (by simp [hin])
  cases next with
  | write => exact endsOrderly_eventWrite ho₁ fun hs ↦ by simp [hwrite rfl] at hs
  | again | stop => exact hrest

def WholeEvent (h : Handshake) : SocketEvent → Prop
  | .writable a => h.state ∈ [readMessage, readBitfield, readExt] → WholeWrite (arrive a h)
  | .readable _ | .broken => True

variable (host) in
def WholeRun : Handshake → List SocketEvent → Prop
  | _, [] => True
  | h, e :: es => WholeEvent h e ∧
    match event host h e with
    | .active h' => WholeRun h' es
    | _ => True

variable (host) in
def OrderlyFate : Fate → Prop
  | .active h => Orderly host h
  | .succeeded h => FailsOrderly host .succeeded h
  | .failed _ _ | .refused _ _ | .escaped _ _ => True

theorem orderlyFate_receiveFailed (h : Handshake) : OrderlyFate host (receiveFailed h) := by
  unfold receiveFailed
  split <;> trivial

theorem orderlyFate_handled {r : EStateM.Result HandshakeExit Handshake Unit} (hr : EndsOrderly host r) :
    OrderlyFate host (handled r) := by
  rcases r with ⟨_, h⟩ | ⟨e, h⟩
  · exact hr
  cases e with
  | succeeded =>
    rw [handled, receiveSucceeded]
    split_ifs
    · trivial
    · exact hr
  | error | network => exact orderlyFate_receiveFailed h
  | internal | outOfBounds => trivial

theorem orderlyFate_event (e : SocketEvent) (ho : Orderly host h) (hwhole : WholeEvent h e) :
    OrderlyFate host (h.event host e) := by
  cases e with
  | readable a =>
    dsimp only [event]
    split_ifs with hread
    · exact orderlyFate_handled (endsOrderly_eventRead ho hread)
    · exact ho
  | writable a =>
    dsimp only [event]
    split_ifs
    · exact orderlyFate_handled (endsOrderly_eventWrite ho hwhole)
    · exact ho
  | broken => exact orderlyFate_receiveFailed h

theorem orderlyFate_run (es : List SocketEvent) (ho : Orderly host h) (hwhole : WholeRun host h es) :
    OrderlyFate host (h.run host es) := by
  induction es generalizing h with
  | nil => exact ho
  | cons e es ih =>
    have hfate := orderlyFate_event e ho hwhole.1
    have hrest := hwhole.2
    unfold Handshake.run
    cases hf : h.event host e with
    | active h' =>
      rw [hf] at hfate hrest
      exact ih hfate hrest
    | succeeded h' =>
      rw [hf] at hfate
      exact hfate
    | failed | refused | escaped => trivial

theorem orderly_start (o : Origin) (p : EncryptionPolicy) : Orderly host (o.start p) := by
  cases o with
  | incoming =>
    refine ⟨le_refl 0, rfl, ?_⟩
    cases hallow : p.allowEncryptedHandshake with
    | true | false => simp [start, initializeIncoming, hallow, Conveys]
  | outgoing d proxy => exact ⟨le_refl 0, rfl, rfl⟩

end Events

variable (host) in
/-- What the socket is given from the handshake on, in its order: the extension handshake, the bitfield message up to the
place that was reached, and what is queued behind it. -/
def Delivers : Fate → Prop
  | .active h => ∀ d ∈ h.download, hidesBitfield d = false →
      (h.state ∈ [readMessage, readBitfield, readExt, readPort] →
        h.writePos ≤ d.bitfield.length ∧ CarriesBody host h d (messages h d)) ∧
      (h.state = postHandshake →
        h.writePos = d.bitfield.length ∧ CarriesBody host h d (messages h d ++ postMessage host h false))
  | .succeeded h => ∀ d ∈ h.download, hidesBitfield d = false →
      Carries (host.rc4 h.info.encryptKey) (handshakeBytes host d) h.info.isEncrypted h.info.encryptPos
        ((if h.supportsExtensions then extensionMessage d else []) ++ (bitfieldHeader d ++ d.bitfield) ++
          postMessage host h false) h.socket.sent
  | .failed _ _ | .refused _ _ | .escaped _ _ => True

theorem OrderlyFate.delivers {f : Fate} (hf : OrderlyFate host f) : Delivers host f := by
  cases f with
  | active h =>
    intro d hd hno
    refine ⟨fun hs ↦ ?_, fun hs ↦ ?_⟩
    · have hsends := (Orderly.talking hf hs).2.2.2.2 d hd
      rw [Sends, if_neg (by simp [hno])] at hsends
      exact ⟨hsends.1, hsends.2.1⟩
    have hc := hf.2.2
    simp only [Conveys, hs] at hc
    exact hc.2.2 d hd hno
  | succeeded h =>
    intro d hd hno
    obtain ⟨hnil, hall⟩ := hf rfl
    obtain ⟨hpos, hc⟩ := hall d hd hno
    unfold CarriesBody stream messages at hc
    rwa [hnil, append_nil, hpos, take_length] at hc
  | failed | refused | escaped => trivial

/-- Every byte behind the handshake is sent once and in order, and encrypted once, if a block of an encrypted bitfield is
never taken in part. -/
theorem run_delivers (o : Origin) (p : EncryptionPolicy) (es : List SocketEvent)
    (hwhole : WholeRun host (o.start p) es) : Delivers host ((o.start p).run host es) :=
  (orderlyFate_run es (orderly_start o p) hwhole).delivers

open Link (quietHost quietPeer)

def veiled (s : Bytes) : Bytes := crypt (fun _ ↦ 1) 0 s

@[irreducible] def veiledPeer : Bytes :=
  replicate 96 5 ++ replicate 20 0 ++ replicate 20 7 ++
    veiled (vc ++ [0, 0, 0, 2, 0, 0, 0, 68] ++ quietPeer.take 68)

theorem wholeEvent_of_room (h : Handshake) : WholeEvent h (.writable { writes := [some reserved, some reserved] }) := by
  intro _
  unfold WholeWrite
  split
  · exact fun _ d _ _ ↦ min_le_right _ _
  · exact fun _ _ d _ _ ↦ min_le_right _ _

theorem WholeRun.of_event {e : SocketEvent} {es : List SocketEvent} (he : WholeEvent h e)
    (hes : ∀ h', WholeRun host h' es) : WholeRun host h (e :: es) := by
  refine ⟨he, ?_⟩
  split
  · exact hes _
  · trivial

theorem run_delivers_veiled : ∃ f, (Origin.incoming.start {}).run quietHost
    [.readable { bytes := veiledPeer, reads := [some 20, some 608] },
      .readable { bytes := veiled [0, 0, 0, 0], reads := [some 5] },
      .writable { writes := [some reserved, some reserved] }] = f ∧ (f matches .succeeded _) ∧ Delivers quietHost f := by
  refine ⟨_, rfl, by decide +kernel, run_delivers .incoming {} _ ?_⟩
  exact .of_event trivial fun _ ↦ .of_event trivial fun h ↦ .of_event (wholeEvent_of_room h) fun _ ↦ trivial

/-- A byte of an encrypted bitfield that the socket does not take at once is sent twice. -/
theorem run_resends : ¬ Delivers quietHost ((Origin.incoming.start {}).run quietHost
    [.readable { bytes := veiledPeer, reads := [some 20, some 608] },
      .readable { bytes := veiled [0, 0, 0, 0], reads := [some 5] },
      .writable { writes := [some 1000, some 0] },
      .writable { writes := [some 1000, some 1000] }]) := by
  have hends : (match (Origin.incoming.start {}).run quietHost
      [.readable { bytes := veiledPeer, reads := [some 20, some 608] },
        .readable { bytes := veiled [0, 0, 0, 0], reads := [some 5] },
        .writable { writes := [some 1000, some 0] },
        .writable { writes := [some 1000, some 1000] }] with
      | .succeeded h => h.info.isEncrypted && h.download.any fun d ↦ !hidesBitfield d &&
          let s := handshakeBytes quietHost d ++ ((if h.supportsExtensions then extensionMessage d else []) ++
            (bitfieldHeader d ++ d.bitfield) ++ postMessage quietHost h false)
          h.socket.sent.drop (h.socket.sent.length - s.length) ≠
            crypt (quietHost.rc4 h.info.encryptKey) (h.info.encryptPos - s.length) s
      | _ => false) = true := by decide +kernel
  revert hends
  generalize (Origin.incoming.start {}).run quietHost _ = f
  intro hends hdelivers
  cases f with
  | succeeded h =>
    simp only [Bool.and_eq_true, Option.any_eq_true, Bool.not_eq_true', decide_eq_true_eq] at hends
    obtain ⟨henc, d, hd, hno, hne⟩ := hends
    have hc := hdelivers d hd hno
    rw [henc] at hc
    exact hne hc.ending
  | active | failed | refused | escaped => cases hends

end LibTorrent.Handshake
