import LibTorrent.Handshake.Frames

namespace LibTorrent.Handshake

open Lib.Decimal Lib.Program HandshakeState

structure Footing where
  state : HandshakeState
  incoming : Bool
  policy : EncryptionPolicy
  isEncrypted : Bool
  isObfuscated : Bool
  decryptValid : Bool
  crypto : ℕ

def footing (h : Handshake) : Footing :=
  ⟨h.state, h.incoming, h.policy, h.info.isEncrypted, h.info.isObfuscated, h.info.decryptValid, h.crypto⟩

/-- The parts of a handshake that leave its footing alone. None of them ends the handshake with success. -/
abbrev Neutral {α : Type} (x : Part α) : Prop := Keeps footing (· ≠ .succeeded) x

variable {host : Host}

theorem Reading.neutral (hx : Reading x) : Neutral x := hx.of_view footing fun _ ↦ rfl

section Neutral

variable (s : Bytes)

theorem neutral_writeUnthrottled : Neutral (writeUnthrottled s) := by
  refine keeps_get.bind fun h ↦ .ite (keeps_throw nofun) ?_
  rcases h.socket.writes with _ | ⟨_ | k, writes⟩
  · exact keeps_pure _
  · exact keeps_throw nofun
  · exact keeps_modify_bind (fun _ ↦ rfl) fun _ ↦ keeps_pure _

theorem neutral_queuePlain : Neutral (queuePlain s) := keeps_modify fun _ ↦ rfl

theorem neutral_queueEncrypted : Neutral (queueEncrypted host s) := keeps_modify fun _ ↦ rfl

theorem neutral_queue : Neutral (queue host s) :=
  keeps_get.bind fun _ ↦ .ite (neutral_queueEncrypted s) (neutral_queuePlain s)

theorem neutral_prepareKeyPlusPad : Neutral (prepareKeyPlusPad host) :=
  .ite (keeps_throw nofun) (neutral_queuePlain _)

theorem neutral_prepareHandshake : Neutral (prepareHandshake host) :=
  reading_getDownload.neutral.bind fun _ ↦ neutral_queue _

theorem neutral_preparePeerInfo : Neutral (preparePeerInfo host) := by
  refine reading_getDownload.neutral.bind fun d ↦ keeps_get.bind fun h ↦ .ite (keeps_throw nofun) ?_
  refine .ite (keeps_throw nofun) (.ite (keeps_throw nofun) ?_)
  refine keeps_modify_bind (fun _ ↦ rfl) fun _ ↦ .ite (keeps_throw nofun) ?_
  exact (reading_consumeRead 20).neutral.bind fun _ ↦ .ite (keeps_throw nofun) (keeps_pure _)

theorem neutral_writeExtensionHandshake : Neutral (writeExtensionHandshake host) :=
  reading_getDownload.neutral.bind fun _ ↦ neutral_queue _

theorem neutral_prepareMessages : Neutral (prepareMessages host) :=
  reading_getDownload.neutral.bind fun _ ↦
    .ite (keeps_modify_bind (fun _ ↦ rfl) fun _ ↦ neutral_queue _)
      (reading_getDownload.neutral.bind fun _ ↦ (neutral_queue _).bind fun _ ↦ keeps_modify fun _ ↦ rfl)

theorem neutral_writeBuffered : Neutral writeBuffered :=
  reading_unsent.neutral.bind fun _ ↦ (neutral_writeUnthrottled _).bind fun _ ↦
    keeps_modify_bind (fun _ ↦ rfl) fun _ ↦ keeps_pure _

theorem neutral_writeEncryptedBitfield : Neutral (writeEncryptedBitfield host s) := by
  refine keeps_modify_bind (fun h ↦ ?_) fun _ ↦ keeps_get.bind fun _ ↦ .ite (keeps_throw nofun) ?_
  · split_ifs <;> rfl
  · exact (neutral_queueEncrypted _).bind fun _ ↦ keeps_get.bind fun _ ↦ (neutral_writeUnthrottled _).bind fun _ ↦
      keeps_modify fun _ ↦ rfl

theorem neutral_writePlainBitfield : Neutral (writePlainBitfield s) :=
  keeps_get.bind fun _ ↦ (neutral_writeUnthrottled _).bind fun _ ↦ keeps_modify fun _ ↦ rfl

end Neutral

open EncryptionPolicy

namespace Footing

variable (f : Footing)

def Plain : Prop := f.isEncrypted = false ∧ f.isObfuscated = false ∧ f.decryptValid = false

def Chosen : Prop :=
  f.crypto = 1 ∧ f.policy.streamMode ≠ .require ∨ f.crypto = 2 ∧ f.policy.streamMode ≠ .deny

def Encrypted : Prop := f.isEncrypted = true ∧ f.isObfuscated = true ∧ f.decryptValid = true

def Obfuscated : Prop := f.isEncrypted = false ∧ f.isObfuscated = true ∧ f.decryptValid = false

def Settled : Prop :=
  f.Plain ∧ f.policy.handshakeMode ≠ .require ∨ f.Encrypted ∧ f.policy.streamMode ≠ .deny ∨
    f.Obfuscated ∧ f.policy.streamMode ≠ .require

def IsPast : HandshakeState → Prop
  | .readInfo | .readPeer | .readMessage | .readBitfield | .readExt | .readPort | .postHandshake => True
  | _ => False

instance : DecidablePred IsPast
  | .readInfo | .readPeer | .readMessage | .readBitfield | .readExt | .readPort | .postHandshake => isTrue trivial
  | .inactive | .connecting | .proxyWrite | .proxyRead | .proxyDone | .readEncKey | .readEncSync | .readEncSkey
  | .readEncNegot | .readEncPad | .readEncIa => isFalse id

/-- What a policy allows is allowed by the modes of the configuration, and a stream that has to be encrypted is asked for
with the handshake. -/
structure Conforms (modes : EncryptionModes) (handshake stream : EncryptionMode) : Prop where
  plainHandshake : handshake ≠ .require → modes.1 ≠ .require
  plaintext : stream ≠ .require → modes.2 ≠ .require
  encrypted : stream ≠ .deny → modes.2 ≠ .deny
  required : stream = .require → handshake = .require

structure Retriable (modes : EncryptionModes) (p : EncryptionPolicy) : Prop where
  plaintext : p.retryMode = .deny → p.handshakeMode = .prefer
  encrypted : p.retryMode = .require → p.handshakeMode = .allow
  conforms : Conforms modes p.handshakeMode p.streamMode

def Stage : Prop :=
  match f.state with
  | .readEncSync => if f.incoming then f.Plain else f.isEncrypted = true ∧ f.isObfuscated = true
  | .readEncSkey => f.incoming = true
  | .readEncNegot => f.isEncrypted = true ∧ f.isObfuscated = true ∧ (f.incoming = true → f.decryptValid = true)
  | .readEncPad | .readEncIa => f.Encrypted ∧ f.Chosen
  | .readInfo | .readPeer | .readMessage | .readBitfield | .readExt | .readPort | .postHandshake => f.Settled
  | _ => f.Plain

structure Secured (modes : EncryptionModes) (f : Footing) : Prop where
  retriable : Retriable modes f.policy
  stage : f.Stage

end Footing

open Footing

variable {modes : EncryptionModes} {h : Handshake} {f : Footing} {α β : Type}

/-- An exception leaves a policy that can be retried, and success a stream that it allows. -/
def FailsSecured (modes : EncryptionModes) (e : HandshakeExit) (h : Handshake) : Prop :=
  Retriable modes h.policy ∧ (e = .succeeded → Settled (footing h))

abbrev EndsSecured (modes : EncryptionModes) (r : EStateM.Result HandshakeExit Handshake α) : Prop :=
  Ends r (fun _ h ↦ Secured modes (footing h)) (FailsSecured modes)

theorem retriable_setRetryDisabled {p : EncryptionPolicy} (hr : Retriable modes p) : Retriable modes p.setRetryDisabled :=
  ⟨nofun, nofun, hr.conforms⟩

theorem retriable_of_footing (hf : footing h = f) (hr : Retriable modes f.policy) : Retriable modes h.policy := by
  subst hf
  exact hr

theorem failsSecured {e : HandshakeExit} (hf : footing h = f) (hr : Retriable modes f.policy) (he : e ≠ .succeeded) :
    (FailsSecured modes) e h := ⟨retriable_of_footing hf hr, fun hsucc ↦ absurd hsucc he⟩

variable {x : Part α} {post : β → Handshake → Prop}

theorem Neutral.ends (hx : Neutral x) (hf : footing h = f) (hr : Retriable modes f.policy) :
    Ends (x h) (fun _ h' ↦ footing h' = f) (FailsSecured modes) :=
  (hx h).mono (fun _ _ he ↦ he.trans hf) fun _ _ he ↦ failsSecured (he.1.trans hf) hr he.2

theorem Neutral.andThen {y : α → Part β} (hx : Neutral x) (hf : footing h = f) (hr : Retriable modes f.policy)
    (hy : ∀ a h', footing h' = f → Ends (y a h') post (FailsSecured modes)) : Ends ((x >>= y) h) post (FailsSecured modes) :=
  (hx.ends hf hr).bind hy

theorem modify_andThen {change : Handshake → Handshake} {y : Unit → Part β} (f : Footing)
    (hf : footing (change h) = f) (hy : ∀ h', footing h' = f → Ends (y ⟨⟩ h') post (FailsSecured modes)) :
    Ends ((modify change >>= y) h) post (FailsSecured modes) := hy _ hf

theorem Footing.Secured.stageAt {state : HandshakeState} (hs : Secured modes (footing h)) (hstate : h.state = state) :
    Stage { footing h with state := state } := by
  subst hstate
  exact hs.stage

section Encryption

theorem ends_prepareEncNegotiation (hf : footing h = f) (hr : Retriable modes f.policy) :
    Ends (prepareEncNegotiation host h)
      (fun _ h' ↦ footing h' = { f with isEncrypted := true, isObfuscated := true }) (FailsSecured modes) := by
  refine reading_getDownload.neutral.andThen hf hr fun d h₁ h₁f ↦ .get_bind ?_
  refine (neutral_queuePlain _).andThen h₁f hr fun _ h₂ h₂f ↦ ?_
  refine modify_andThen { f with isEncrypted := true, isObfuscated := true } (h₂f ▸ rfl) fun h₃ h₃f ↦ ?_
  rcases cryptoProvide h₁.policy with _ | provide
  · exact failsSecured h₃f hr nofun
  · refine (neutral_queueEncrypted _).andThen h₃f hr fun _ h₄ h₄f ↦ ?_
    exact neutral_prepareHandshake.ends h₄f hr

theorem ends_prepareSync (hf : footing h = f) (hr : Retriable modes f.policy) : Ends (prepareSync host h)
      (fun _ h' ↦ footing h' = if f.incoming then f else { f with isEncrypted := true, isObfuscated := true })
      (FailsSecured modes) := by
  subst hf
  refine .get_ite (fun hi ↦ ?_) fun hi ↦ ?_
  · exact (if_pos hi).symm
  · refine reading_getDownload.neutral.andThen rfl hr fun d h₁ h₁f ↦ modify_andThen (footing h) (h₁f ▸ rfl) fun h₂ h₂f ↦ ?_
    refine (ends_prepareEncNegotiation h₂f hr).imp (fun _ _ he ↦ he.trans (if_neg hi).symm)

theorem endsSecured_readKey (hs : Secured modes (footing h)) (hstate : h.state = readEncKey) :
    EndsSecured modes (readKey host h) := by
  have hplain : Plain (footing h) := hs.stageAt hstate
  refine (reading_readTo _).neutral.andThen rfl hs.retriable fun _ h₁ h₁f ↦ .get_either ?_ ?_
  · exact .pure (h₁f ▸ hs)
  have hr := retriable_setRetryDisabled (retriable_of_footing h₁f hs.retriable)
  refine modify_andThen { footing h₁ with policy := h₁.policy.setRetryDisabled } rfl fun h₂ h₂f ↦ ?_
  refine Neutral.andThen (keeps_onlyIf neutral_prepareKeyPlusPad) h₂f hr fun _ h₃ h₃f ↦ ?_
  rcases host.computeSecret _ with _ | secret
  · exact failsSecured h₃f hr nofun
  refine modify_andThen { footing h₁ with policy := h₁.policy.setRetryDisabled } (h₃f ▸ rfl) fun h₄ h₄f ↦ ?_
  refine (ends_prepareSync h₄f hr).bind fun _ h₅ h₅f ↦ ?_
  refine modify_andThen { footing h₅ with state := readEncSync } rfl fun h₆ h₆f ↦ .pure ?_
  rw [h₆f, h₅f]
  cases hin : h₁.incoming with
  | false =>
    simp only [footing, hin]
    exact ⟨hr, rfl, rfl⟩
  | true =>
    have hplain' : Plain (footing h₁) := h₁f ▸ hplain
    simp only [footing, hin]
    exact ⟨hr, hplain'⟩

theorem endsSecured_readEncryptionKey (hs : Secured modes (footing h)) (hstate : h.state = readEncKey) :
    EndsSecured modes (readEncryptionKey host h) := by
  have hplain : Plain (footing h) := hs.stageAt hstate
  refine .get_either ?_ (endsSecured_readKey hs hstate)
  refine (reading_readTo _).neutral.andThen rfl hs.retriable fun _ h₁ h₁f ↦ .get_either ?_ ?_
  · exact .pure (h₁f ▸ hs)
  refine .either (.ite (fun _ ↦ failsSecured h₁f hs.retriable nofun) fun hmode ↦ ?_) ?_
  · refine modify_andThen { footing h₁ with state := readInfo } rfl fun h₂ h₂f ↦ .pure ?_
    rw [h₂f, h₁f]
    refine ⟨hs.retriable, .inl ⟨hplain, fun hreq ↦ hmode (decide_eq_true ?_)⟩⟩
    exact (congrArg (handshakeMode ∘ Footing.policy) h₁f).trans hreq
  · exact endsSecured_readKey (h₁f ▸ hs) ((congrArg Footing.state h₁f).trans hstate)

theorem endsSecured_syncFound (i : ℕ) (hs : Secured modes (footing h)) (hstate : h.state = readEncSync) :
    EndsSecured modes (syncFound i h) := by
  have hstage := hs.stageAt hstate
  refine .get_ite (fun hin ↦ ?_) fun hin ↦ ?_
  · refine (reading_consumeRead _).neutral.andThen rfl hs.retriable fun _ h₁ h₁f ↦ ?_
    refine modify_andThen { footing h₁ with state := readEncSkey } rfl fun h₂ h₂f ↦ .pure ?_
    rw [h₂f, h₁f]
    exact ⟨hs.retriable, hin⟩
  refine (reading_consumeRead _).neutral.andThen rfl hs.retriable fun _ h₁ h₁f ↦ ?_
  refine modify_andThen { footing h₁ with state := readEncNegot } rfl fun h₂ h₂f ↦ .pure ?_
  rw [h₂f, h₁f]
  have hboth : (footing h).isEncrypted = true ∧ (footing h).isObfuscated = true := by
    simpa [Stage, footing, hin] using hstage
  exact ⟨hs.retriable, hboth.1, hboth.2, fun hin' ↦ absurd hin' hin⟩

theorem endsSecured_readEncryptionSync (hs : Secured modes (footing h)) (hstate : h.state = readEncSync) :
    EndsSecured modes (readEncryptionSync h) := by
  refine .get_bind ?_
  rcases search h.sync h.readBuffer.remaining with _ | i
  · refine .either (failsSecured rfl hs.retriable nofun) ?_
    refine (reading_readTo _).neutral.andThen rfl hs.retriable fun _ h₁ h₁f ↦ .get_bind ?_
    rcases search h₁.sync h₁.readBuffer.remaining with _ | i
    · exact .pure (h₁f ▸ hs)
    · exact endsSecured_syncFound i (h₁f ▸ hs) ((congrArg Footing.state h₁f).trans hstate)
  · exact endsSecured_syncFound i hs hstate

theorem endsSecured_readEncryptionSkey (hs : Secured modes (footing h)) : EndsSecured modes (readEncryptionSkey host h) := by
  have hr := hs.retriable
  refine (reading_fillReadBuffer _).neutral.andThen rfl hr fun b h₁ h₁f ↦ .either (.pure (h₁f ▸ hs)) ?_
  refine modify_andThen _ h₁f fun h₂ h₂f ↦ reading_validateDownload.neutral.andThen h₂f hr fun d h₃ h₃f ↦ ?_
  refine .either (failsSecured h₃f hr nofun) ?_
  refine modify_andThen { footing h₃ with isEncrypted := true, isObfuscated := true } rfl fun h₄ h₄f ↦ ?_
  refine modify_andThen { footing h₄ with decryptValid := true } rfl fun h₅ h₅f ↦ .get_bind ?_
  have hr₅ : Retriable modes (footing h₅).policy := by
    rw [h₅f, h₄f, h₃f]
    exact hr
  refine (reading_decryptRead _).neutral.andThen rfl hr₅ fun _ h₆ h₆f ↦ (neutral_queueEncrypted _).andThen h₆f hr₅ fun _ h₇ h₇f ↦ ?_
  refine modify_andThen { footing h₇ with state := readEncNegot } rfl fun h₈ h₈f ↦ .pure ?_
  rw [h₈f, h₇f, h₅f, h₄f, h₃f]
  exact ⟨hr, rfl, rfl, fun _ ↦ rfl⟩

theorem selectedMode_chosen (h : Handshake) : match selectedMode h with
    | .ok mode => Chosen { footing h with crypto := mode }
    | .error e => e ≠ .succeeded := by
  unfold selectedMode
  split_ifs with hboth hprefer hplain hno hencrypted hno
  · refine .inr ⟨rfl, fun hdeny ↦ ?_⟩
    change h.policy.streamMode = _ at hdeny
    simp [preferEncryptedStream, hdeny] at hprefer
  · refine .inl ⟨rfl, fun hreq ↦ hprefer ?_⟩
    change h.policy.streamMode = _ at hreq
    simp [preferEncryptedStream, hreq]
  · exact nofun
  · refine .inl ⟨rfl, fun hreq ↦ hno ?_⟩
    change h.policy.streamMode = _ at hreq
    simp [allowPlaintextStream, hreq]
  · exact nofun
  · refine .inr ⟨rfl, fun hdeny ↦ hno ?_⟩
    change h.policy.streamMode = _ at hdeny
    simp [allowEncryptedStream, hdeny]
  · exact nofun

theorem ends_selectMode (hr : Retriable modes h.policy) : Ends (selectMode host h)
      (fun _ h' ↦ ∃ c, footing h' = { footing h with crypto := c } ∧ Chosen { footing h with crypto := c })
      (FailsSecured modes) := by
  refine .get_bind ?_
  have hchosen := selectedMode_chosen h
  rcases hm : selectedMode h with e | mode
  · rw [hm] at hchosen
    exact failsSecured rfl hr hchosen
  rw [hm] at hchosen
  refine modify_andThen { footing h with crypto := mode } rfl fun h₁ h₁f ↦ ?_
  exact ((neutral_queueEncrypted _).ends h₁f hr).imp (fun _ _ he ↦ ⟨mode, he, hchosen⟩)

theorem ends_verifyMode (hr : Retriable modes h.policy) :
    Ends (verifyMode host h) (fun _ h' ↦ footing h' = footing h ∧ Chosen (footing h)) (FailsSecured modes) := by
  refine .get_ite (fun hplain ↦ .ite (fun _ ↦ failsSecured rfl hr nofun) fun hno ↦ ?_) fun _ ↦
    .ite (fun hencrypted ↦ .ite (fun _ ↦ failsSecured rfl hr nofun) fun hno ↦ ?_) fun _ ↦
      failsSecured rfl hr nofun
  · refine ((reading_decryptRead _).neutral.ends rfl hr).imp (fun _ _ he ↦ ⟨he, .inl ⟨hplain, fun hreq ↦ hno ?_⟩⟩)
    exact decide_eq_true hreq
  refine ((reading_decryptRead _).neutral.ends rfl hr).imp (fun _ _ he ↦ ⟨he, .inr ⟨hencrypted, fun hdeny ↦ hno ?_⟩⟩)
  exact decide_eq_true hdeny

theorem ends_negotiateMode (hr : Retriable modes h.policy) : Ends (negotiateMode host h)
      (fun _ h' ↦ ∃ c, footing h' = { footing h with crypto := c } ∧ Chosen { footing h with crypto := c })
      (FailsSecured modes) :=
  .get_either (ends_selectMode hr)
    ((ends_verifyMode hr).imp (fun _ _ he ↦ ⟨h.crypto, he⟩))

theorem ends_startDecrypt (hf : footing h = f) (hr : Retriable modes f.policy) :
    Ends (startDecrypt host h) (fun _ h' ↦ footing h' = { f with decryptValid := true }) (FailsSecured modes) := by
  refine reading_getDownload.neutral.andThen hf hr fun d h₁ h₁f ↦ ?_
  refine modify_andThen { f with decryptValid := true } (h₁f ▸ rfl) fun h₂ h₂f ↦ ?_
  exact (reading_decryptRead _).neutral.ends h₂f hr

theorem endsSecured_readEncryptionNegotiation (hs : Secured modes (footing h)) (hstate : h.state = readEncNegot) :
    EndsSecured modes (readEncryptionNegotiation host h) := by
  have hr := hs.retriable
  obtain ⟨hencrypted, hobfuscated, hdecrypt⟩ := hs.stageAt hstate
  refine (reading_fillReadBuffer _).neutral.andThen rfl hr fun b h₁ h₁f ↦ .either (.pure (h₁f ▸ hs)) ?_
  have hstart : Ends (onlyIf (!h₁.incoming) (startDecrypt host) h₁)
      (fun _ h' ↦ footing h' = { footing h with decryptValid := true }) (FailsSecured modes) := by
    refine .ite (fun _ ↦ ends_startDecrypt h₁f hr) fun hin ↦ .pure ?_
    have hin' : (footing h).incoming = true := by
      rw [← h₁f]
      have hin₁ : h₁.incoming = true := by simpa using hin
      exact hin₁
    rw [h₁f, ← hdecrypt hin']
  refine .get_bind (hstart.bind fun _ h₂ h₂f ↦ .get_either ?_ ?_)
  · exact failsSecured h₂f hr nofun
  obtain ⟨c, hc⟩ : ∃ c, footing (takeNegotiation h₂) = { footing h₂ with crypto := c } := ⟨_, rfl⟩
  rw [h₂f] at hc
  refine modify_andThen _ hc fun h₃ h₃f ↦ ?_
  refine .get_either (failsSecured h₃f hr nofun) ?_
  refine (ends_negotiateMode (retriable_of_footing h₃f hr)).bind ?_
  intro _ h₄ ⟨mode, h₄f, hchosen⟩
  refine modify_andThen { footing h₄ with state := readEncPad } rfl fun h₅ h₅f ↦ .pure ?_
  rw [h₃f] at h₄f hchosen
  rw [h₅f, h₄f]
  exact ⟨hr, ⟨hencrypted, hobfuscated, rfl⟩, hchosen⟩

theorem endsSecured_settleStream (hr : Retriable modes h.policy) (hencrypted : Encrypted (footing h))
    (hchosen : Chosen (footing h)) : EndsSecured modes (settleStream h) := by
  refine .get_bind ?_
  rcases hchosen with ⟨hc, hmode⟩ | ⟨hc, hmode⟩
  · have hplain : (decide (h.crypto = 1)) = true := decide_eq_true hc
    rw [onlyIf, if_pos hplain]
    exact ⟨hr, .inr (.inr ⟨⟨rfl, rfl, rfl⟩, hmode⟩)⟩
  have hplain : ¬ (decide (h.crypto = 1)) = true := by
    have hc' : h.crypto = 2 := hc
    simp [hc']
  rw [onlyIf, if_neg hplain]
  exact ⟨hr, .inr (.inl ⟨hencrypted, hmode⟩)⟩

variable (hs : Secured modes (footing h))
include hs

theorem endsSecured_readNegotiationReply (hstate : h.state = readEncPad) :
    EndsSecured modes (readNegotiationReply host h) := by
  have hr := hs.retriable
  obtain ⟨hencrypted, hchosen⟩ := hs.stageAt hstate
  refine .get_either (endsSecured_settleStream hr hencrypted hchosen) ?_
  refine (reading_fillReadBuffer _).neutral.andThen rfl hr fun b h₁ h₁f ↦ .either (.pure (h₁f ▸ hs)) ?_
  refine modify_andThen _ h₁f fun h₂ h₂f ↦ .get_either ?_ ?_
  · exact failsSecured h₂f hr nofun
  refine modify_andThen { footing h₂ with state := readEncIa } rfl fun h₃ h₃f ↦ .pure ?_
  rw [h₃f, h₂f]
  exact ⟨hr, hencrypted, hchosen⟩

theorem endsSecured_readEncryptionPad (hstate : h.state = readEncPad) :
    EndsSecured modes (readEncryptionPad host h) := by
  have hr := hs.retriable
  refine .get_either (endsSecured_readNegotiationReply hs hstate) ?_
  refine (reading_fillReadBuffer _).neutral.andThen rfl hr fun b h₁ h₁f ↦ .either (.pure (h₁f ▸ hs)) ?_
  refine (reading_consumeRead _).neutral.andThen h₁f hr fun _ h₂ h₂f ↦ modify_andThen _ h₂f fun h₃ h₃f ↦ ?_
  exact endsSecured_readNegotiationReply (h₃f ▸ hs) ((congrArg Footing.state h₃f).trans hstate)

theorem endsSecured_readEncryptionIa (hstate : h.state = readEncIa) :
    EndsSecured modes (readEncryptionIa host h) := by
  have hr := hs.retriable
  obtain ⟨hencrypted, hchosen⟩ := hs.stageAt hstate
  refine .get_bind ((reading_fillReadBuffer _).neutral.andThen rfl hr fun b h₁ h₁f ↦ ?_)
  refine .either (.pure (h₁f ▸ hs)) (.get_either ?_ ?_)
  · exact failsSecured h₁f hr nofun
  have hencrypted₁ : Encrypted (footing h₁) := h₁f ▸ hencrypted
  have hchosen₁ : Chosen (footing h₁) := h₁f ▸ hchosen
  exact endsSecured_settleStream (retriable_of_footing h₁f hr) hencrypted₁ hchosen₁

end Encryption

end LibTorrent.Handshake
