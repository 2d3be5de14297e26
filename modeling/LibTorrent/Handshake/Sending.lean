import LibTorrent.Handshake.Stream

namespace LibTorrent.Handshake

open HandshakeState Lib.ByteOrder Lib.Decimal Lib.Program List

variable (host : Host) (h : Handshake)

variable (d : HandshakeDownload)

def extensionMessage : Bytes :=
  store .big 4 (d.extensionHandshake.length + 2) ++ [protocolExtension, 0] ++ d.extensionHandshake

/-- What is sent between the handshake and the messages behind the bitfield, as far as it is queued or sent. -/
def messages : Bytes :=
  (if h.supportsExtensions then extensionMessage d else []) ++ (bitfieldHeader d ++ d.bitfield.take h.writePos)

/-- What was sent for the messages is right up to the place in the bitfield, and nothing of an encrypted bitfield is left
in the write buffer. -/
def SendsMessages : Prop :=
  h.writePos ≤ d.bitfield.length ∧ CarriesBody host h d (messages h d) ∧
    (h.info.isEncrypted = true → 0 < h.writePos → h.writeBuffer.content = [] ∧ h.writeBuffer.position = 0)

def Sends : Prop :=
  if hidesBitfield d then h.writePos = d.bitfield.length else SendsMessages host h d

def SendsAll : Prop :=
  h.writePos = d.bitfield.length ∧ CarriesBody host h d (messages h d ++ postMessage host h false)

def Conveys : Prop :=
  match h.state with
  | .proxyRead | .proxyDone | .readEncKey => h.readDone = false ∧ h.inRead = true
  | .readEncSkey => h.readDone = false ∧ h.inRead = true ∧ h.incoming = true
  | .readEncSync | .readEncNegot | .readEncPad | .readEncIa | .readInfo =>
    h.readDone = false ∧ h.inRead = true ∧ (h.incoming = false → ∀ d ∈ h.download, CarriesBody host h d [])
  | .readPeer => h.readDone = false ∧ h.inRead = true ∧ ∀ d ∈ h.download, CarriesBody host h d []
  | .readMessage | .readBitfield | .readExt | .readPort =>
    (h.inRead = true → h.readDone = false) ∧ (h.writeBuffer.remaining ≠ [] → h.inWrite = true) ∧
      ∀ d ∈ h.download, Sends host h d
  | .postHandshake => h.inRead = false ∧ h.readDone = true ∧ ∀ d ∈ h.download, hidesBitfield d = false → SendsAll host h d
  | .inactive | .connecting | .proxyWrite => h.readDone = false

def Orderly : Prop := Placed h ∧ h.writeDone = false ∧ Conveys host h

def FailsOrderly (e : HandshakeExit) (h : Handshake) : Prop :=
  e = .succeeded → h.writeBuffer.remaining = [] ∧ ∀ d ∈ h.download, hidesBitfield d = false → SendsAll host h d

abbrev EndsOrderly {α : Type} (r : EStateM.Result HandshakeExit Handshake α) : Prop :=
  Ends r (fun _ h ↦ Orderly host h) (FailsOrderly host)

variable {host h} {h₀ : Handshake} {α β : Type}

theorem failsOrderly {e : HandshakeExit} (he : e ≠ .succeeded) : FailsOrderly host e h := fun hsucc ↦ absurd hsucc he

theorem Reading.andThen {x : Part α} {y : α → Part β} {post : β → Handshake → Prop} (hx : Reading x)
    (hy : ∀ a h', outside h' = outside h → Ends (y a h') post (FailsOrderly host)) :
    Ends ((x >>= y) h) post (FailsOrderly host) := by
  have hmid : Ends (x h) (fun _ h' ↦ outside h' = outside h) (FailsOrderly host) :=
    (hx h).mono (fun _ _ he ↦ he) fun _ _ he ↦ failsOrderly he.2
  exact hmid.bind hy

variable {h' : Handshake}

theorem orderly_of_outside (he : outside h' = outside h) (ho : Orderly host h) : Orderly host h' :=
  of_outside (Orderly host) he ho

def Ready (h : Handshake) : Prop := Placed h ∧ h.writeDone = false ∧ h.readDone = false ∧ h.inRead = true

theorem ready_of_outside (he : outside h' = outside h) (hr : Ready h) : Ready h' := of_outside Ready he hr

variable (host) in
/-- An outgoing handshake has sent the first 68 bytes and nothing behind them. -/
def Early (h : Handshake) : Prop := Ready h ∧ (h.incoming = false → ∀ d ∈ h.download, CarriesBody host h d [])

theorem early_of_outside (he : outside h' = outside h) (hearly : Early host h) : Early host h' :=
  of_outside (Early host) he hearly

theorem Early.orderly (hearly : Early host h)
    (hstate : h.state ∈ [readEncSync, readEncNegot, readEncPad, readEncIa, readInfo]) : Orderly host h := by
  obtain ⟨⟨hp, hw, hd, hi⟩, hc⟩ := hearly
  refine ⟨hp, hw, ?_⟩
  simp only [mem_cons, not_mem_nil, or_false] at hstate
  obtain hs | hs | hs | hs | hs := hstate
  all_goals simpa only [Conveys, hs] using ⟨hd, hi, hc⟩

theorem Orderly.early (ho : Orderly host h) (hstate : h.state ∈ [readEncSync, readEncNegot, readEncPad, readEncIa, readInfo]) :
    Early host h := by
  obtain ⟨hp, hw, hc⟩ := ho
  have hc' : h.readDone = false ∧ h.inRead = true ∧ (h.incoming = false → ∀ d ∈ h.download, CarriesBody host h d []) := by
    simp only [mem_cons, not_mem_nil, or_false] at hstate
    obtain hs | hs | hs | hs | hs := hstate
    all_goals simpa only [Conveys, hs] using hc
  exact ⟨⟨hp, hw, hc'.1, hc'.2.1⟩, hc'.2.2⟩

/-- A part of `event_read` leaves the stream in order, goes on only if there is more to read, and writes at once only when
a proxy is done. -/
structure GoesOn (host : Host) (next : Next) (h : Handshake) : Prop where
  orderly : Orderly host h
  again : next = .again → h.inRead = true
  write : next = .write → h.state = proxyDone

abbrev EndsGoing (host : Host) (r : EStateM.Result HandshakeExit Handshake Next) : Prop :=
  Ends r (GoesOn host) (FailsOrderly host)

theorem Early.goesOn (hearly : Early host h)
    (hstate : h.state ∈ [readEncSync, readEncNegot, readEncPad, readEncIa, readInfo]) : GoesOn host .again h :=
  ⟨hearly.orderly hstate, fun _ ↦ hearly.1.2.2.2, nofun⟩

theorem goesOn_stop (he : outside h = outside h₀) (ho : Orderly host h₀) : GoesOn host .stop h :=
  ⟨orderly_of_outside he ho, nofun, nofun⟩

section Encryption

theorem ready_push {s : Bytes} (hr : Ready h) : Ready { h with writeBuffer := h.writeBuffer.push s } := by
  refine ⟨?_, hr.2⟩
  change h.writeBuffer.position ≤ (h.writeBuffer.content ++ s).length
  rw [length_append]
  exact Nat.le_add_right_of_le hr.1

theorem ends_prepareKeyPlusPad (hr : Ready h) :
    Ends (prepareKeyPlusPad host h) (fun _ h' ↦ Ready h') (FailsOrderly host) :=
  .either (failsOrderly nofun) (ready_push hr)

theorem ends_prepareHandshake (hr : Ready h) :
    Ends (prepareHandshake host h) (fun _ h' ↦ Ready h' ∧ ∀ d ∈ h'.download, CarriesBody host h' d [])
      (FailsOrderly host) := by
  refine ends_getDownload_bind (fun _ ↦ failsOrderly nofun) fun d hd ↦ ends_queue ⟨⟨hr.1.queued, hr.2⟩, ?_⟩
  intro d' hd'
  cases Option.mem_unique hd hd'
  exact carriesBody_start hr.1

theorem ends_prepareEncNegotiation_early (hr : Ready h) :
    Ends (prepareEncNegotiation host h) (fun _ h' ↦ Early host h') (FailsOrderly host) := by
  refine reading_getDownload.andThen fun d h₁ h₁o ↦ .get_bind (.modify_bind (.modify_bind ?_))
  have hr₁ : Ready h₁ := ready_of_outside h₁o hr
  rcases cryptoProvide h₁.policy with _ | provide
  · exact failsOrderly nofun
  · refine .modify_bind ((ends_prepareHandshake ?_).imp (fun _ _ hh ↦ ⟨hh.1, fun _ ↦ hh.2⟩))
    exact ready_push (ready_push hr₁)

theorem ends_prepareSync_early (hr : Ready h) :
    Ends (prepareSync host h) (fun _ h' ↦ Early host h') (FailsOrderly host) := by
  refine .get_ite (fun hin ↦ ?_) fun _ ↦ ?_
  · exact .modify ⟨hr, fun hout ↦ absurd (hin.symm.trans hout) nofun⟩
  refine reading_getDownload.andThen fun d h₁ h₁o ↦ .modify_bind (ends_prepareEncNegotiation_early ?_)
  have hr₁ : Ready h₁ := ready_of_outside h₁o hr
  exact hr₁

section

variable (ho : Orderly host h) (hstate : h.state = readEncKey)
include ho hstate

theorem Orderly.ready_key : Ready h := by
  obtain ⟨hp, hw, hc⟩ := ho
  have hc' : h.readDone = false ∧ h.inRead = true := by simpa only [Conveys, hstate] using hc
  exact ⟨hp, hw, hc'⟩

theorem endsGoing_readKey : EndsGoing host (readKey host h) := by
  refine (reading_readTo _).andThen fun _ h₁ h₁o ↦ .get_either ?_ ?_
  · exact .pure (goesOn_stop h₁o ho)
  have hr₁ : Ready h₁ := ready_of_outside h₁o (ho.ready_key hstate)
  have hkey : ∀ {h' : Handshake} {b : Bool}, Ready h' →
      Ends (onlyIf b (prepareKeyPlusPad host) h') (fun _ h'' ↦ Ready h'') (FailsOrderly host) :=
    fun hr ↦ .either (ends_prepareKeyPlusPad hr) (.pure hr)
  refine .modify_bind (Ends.bind (hkey hr₁) fun _ h₂ hr₂ ↦ ?_)
  rcases host.computeSecret _ with _ | secret
  · exact failsOrderly nofun
  refine .modify_bind (Ends.bind (ends_prepareSync_early hr₂) fun _ h₃ hearly ↦ ?_)
  exact .modify_bind (.pure (Early.goesOn hearly (by simp)))

theorem endsGoing_readEncryptionKey : EndsGoing host (readEncryptionKey host h) := by
  refine .get_ite (fun hin ↦ ?_) fun _ ↦ endsGoing_readKey ho hstate
  refine (reading_readTo _).andThen fun _ h₁ h₁o ↦ .get_either ?_ ?_
  · exact .pure (goesOn_stop h₁o ho)
  refine .either (.either (failsOrderly nofun) ?_)
    (endsGoing_readKey (orderly_of_outside h₁o ho) ((congrArg state h₁o).trans hstate))
  have hin₁ : h₁.incoming = true := (congrArg incoming h₁o).trans hin
  have hearly : Early host h₁ :=
    ⟨ready_of_outside h₁o (ho.ready_key hstate), fun hout ↦ absurd (hin₁.symm.trans hout) nofun⟩
  exact .modify_bind (.pure (Early.goesOn hearly (by simp)))

end

theorem endsGoing_syncFound (i : ℕ) (hearly : Early host h) : EndsGoing host (syncFound i h) := by
  refine .get_ite (fun hin ↦ ?_) fun _ ↦ ?_
  · obtain ⟨⟨hp, hw, hd, hi⟩, -⟩ := hearly
    exact .modify_bind (.modify_bind (.pure ⟨⟨hp, hw, hd, hi, hin⟩, fun _ ↦ hi, nofun⟩))
  · exact .modify_bind (.modify_bind (.pure (Early.goesOn hearly (by simp))))

theorem endsGoing_readEncryptionSync (ho : Orderly host h) (hstate : h.state = readEncSync) :
    EndsGoing host (readEncryptionSync h) := by
  have hearly : Early host h := ho.early (by simp [hstate])
  refine .get_bind ?_
  rcases search h.sync h.readBuffer.remaining with _ | i
  · refine .either (failsOrderly nofun) ((reading_readTo _).andThen fun _ h₁ h₁o ↦ .get_bind ?_)
    rcases search h₁.sync h₁.readBuffer.remaining with _ | i
    · exact .pure (goesOn_stop h₁o ho)
    · exact endsGoing_syncFound i (early_of_outside h₁o hearly)
  · exact endsGoing_syncFound i hearly

theorem endsGoing_readEncryptionSkey (ho : Orderly host h) (hstate : h.state = readEncSkey) :
    EndsGoing host (readEncryptionSkey host h) := by
  have hc : h.readDone = false ∧ h.inRead = true ∧ h.incoming = true := by
    have hc := ho.2.2
    simpa only [Conveys, hstate] using hc
  obtain ⟨hdone, hread, hin⟩ := hc
  refine (reading_fillReadBuffer _).andThen fun b h₁ h₁o ↦ .either ?_ ?_
  · exact .pure (goesOn_stop h₁o ho)
  have hin₁ : h₁.incoming = true := (congrArg incoming h₁o).trans hin
  have hr₁ : Ready h₁ := ready_of_outside h₁o ⟨ho.1, ho.2.1, hdone, hread⟩
  refine .modify_bind (reading_validateDownload.andThen fun d h₂ h₂o ↦ .either (failsOrderly nofun) ?_)
  have hin₂ : h₂.incoming = true := (congrArg incoming h₂o).trans hin₁
  have hr₂ : Ready h₂ := ready_of_outside h₂o hr₁
  refine .modify_bind (.modify_bind (.get_bind (.modify_bind (.modify_bind ?_))))
  refine .modify_bind (.pure (Early.goesOn ⟨?_, fun hout ↦ absurd (hin₂.symm.trans hout) nofun⟩ (by simp)))
  exact ready_push hr₂

theorem ends_startDecrypt_early (hearly : Early host h) :
    Ends (startDecrypt host h) (fun _ h' ↦ Early host h') (FailsOrderly host) := by
  refine reading_getDownload.andThen fun d h₁ h₁o ↦ .modify_bind (.modify ?_)
  have hearly₁ : Early host h₁ := early_of_outside h₁o hearly
  exact hearly₁

theorem ends_negotiateMode_early (hearly : Early host h) :
    Ends (negotiateMode host h) (fun _ h' ↦ Early host h') (FailsOrderly host) := by
  refine .get_ite (fun hin ↦ .get_bind ?_) fun _ ↦ .get_bind ?_
  · rcases hm : selectedMode h with e | mode
    · refine failsOrderly fun he ↦ ?_
      subst he
      unfold selectedMode at hm
      split_ifs at hm <;> cases hm
    · refine .modify_bind (.modify ⟨?_, fun hout ↦ absurd (hin.symm.trans hout) nofun⟩)
      exact ready_push hearly.1
  · refine .either (.either (failsOrderly nofun) (.modify hearly)) ?_
    refine .either (.either (failsOrderly nofun) (.modify hearly)) ?_
    exact failsOrderly nofun

theorem endsGoing_readEncryptionNegotiation (ho : Orderly host h) (hstate : h.state = readEncNegot) :
    EndsGoing host (readEncryptionNegotiation host h) := by
  have hearly : Early host h := ho.early (by simp [hstate])
  refine (reading_fillReadBuffer _).andThen fun b h₁ h₁o ↦ .either ?_ (.get_bind ?_)
  · exact .pure (goesOn_stop h₁o ho)
  have hstart : Ends (onlyIf (!h₁.incoming) (startDecrypt host) h₁) (fun _ h' ↦ Early host h') (FailsOrderly host) :=
    .either (ends_startDecrypt_early (early_of_outside h₁o hearly))
      (.pure (early_of_outside h₁o hearly))
  refine hstart.bind fun _ h₂ hearly₂ ↦ .get_either (failsOrderly nofun) ?_
  refine .modify_bind (.get_either (failsOrderly nofun) ?_)
  refine Ends.bind (ends_negotiateMode_early hearly₂) fun _ h₃ hearly₃ ↦ ?_
  exact .modify_bind (.pure (Early.goesOn hearly₃ (by simp)))

theorem endsGoing_settleStream (hearly : Early host h) : EndsGoing host (settleStream h) := by
  have hobf : Ends (onlyIf (h.crypto = 1) (modify fun h ↦ { h with info := h.info.setObfuscated }) h)
      (fun _ h' ↦ Early host h') (FailsOrderly host) := by
    refine .either (.modify ⟨hearly.1, fun hout d hd ↦ ?_⟩) (.pure hearly)
    exact (hearly.2 hout d hd).obfuscate _
  refine .get_bind (hobf.bind fun _ h₁ hearly₁ ↦ ?_)
  exact .modify_bind (.pure (Early.goesOn hearly₁ (by simp)))

theorem endsGoing_readNegotiationReply (ho : Orderly host h) (hstate : h.state = readEncPad) :
    EndsGoing host (readNegotiationReply host h) := by
  have hearly : Early host h := ho.early (by simp [hstate])
  refine .get_either (endsGoing_settleStream hearly) ?_
  refine (reading_fillReadBuffer _).andThen fun b h₁ h₁o ↦ .either ?_ ?_
  · exact .pure (goesOn_stop h₁o ho)
  refine .modify_bind (.get_either (failsOrderly nofun) ?_)
  have hearly₁ : Early host h₁ := early_of_outside h₁o hearly
  exact .modify_bind (.pure (Early.goesOn hearly₁ (by simp)))

theorem endsGoing_readEncryptionPad (ho : Orderly host h) (hstate : h.state = readEncPad) :
    EndsGoing host (readEncryptionPad host h) := by
  refine .get_either (endsGoing_readNegotiationReply ho hstate) ?_
  refine (reading_fillReadBuffer _).andThen fun b h₁ h₁o ↦ .either ?_ ?_
  · exact .pure (goesOn_stop h₁o ho)
  have hstate₁ : h₁.state = readEncPad := (congrArg state h₁o).trans hstate
  have ho₁ : Orderly host h₁ := orderly_of_outside h₁o ho
  exact .modify_bind (.modify_bind (endsGoing_readNegotiationReply ho₁ hstate₁))

theorem endsGoing_readEncryptionIa (ho : Orderly host h) (hstate : h.state = readEncIa) :
    EndsGoing host (readEncryptionIa host h) := by
  have hearly : Early host h := ho.early (by simp [hstate])
  refine .get_bind ((reading_fillReadBuffer _).andThen fun b h₁ h₁o ↦ .either ?_ ?_)
  · exact .pure (goesOn_stop h₁o ho)
  · refine .get_either (failsOrderly nofun) ?_
    exact endsGoing_settleStream (early_of_outside h₁o hearly)

end Encryption

end LibTorrent.Handshake
