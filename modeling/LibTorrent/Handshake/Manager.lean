import LibTorrent.Handshake.Agreement

namespace LibTorrent.Handshake

open EncryptionPolicy Footing HandshakeState Lib.Decimal Lib.Program

variable {host : Host} {modes : EncryptionModes} {h : Handshake} {f : Footing}

/-- The key exchange is over, with a stream that the policy allows. -/
structure Footing.Through (modes : EncryptionModes) (f : Footing) : Prop where
  retriable : Retriable modes f.policy
  past : IsPast f.state
  settled : f.Settled

theorem Footing.Through.secured (ht : Through modes f) : Secured modes f := by
  refine ⟨ht.retriable, ?_⟩
  have hpast := ht.past
  unfold Stage
  split
  all_goals first | exact ht.settled | simp_all [IsPast]

theorem Footing.Secured.through (hs : Secured modes f) (hpast : IsPast f.state) : Through modes f := by
  refine ⟨hs.retriable, hpast, ?_⟩
  have hstage := hs.stage
  unfold Stage at hstage
  split at hstage
  all_goals first | exact hstage | simp_all [IsPast]

abbrev EndsThrough {α : Type} (modes : EncryptionModes) (r : EStateM.Result HandshakeExit Handshake α) : Prop :=
  Ends r (fun _ h ↦ Through modes (footing h)) (FailsSecured modes)

section Messages

theorem ends_writeDoneAll (hf : footing h = f) (ht : Through modes f) :
    Ends (writeDoneAll h) (fun _ h' ↦ footing h' = f) (FailsSecured modes) := by
  refine modify_andThen f (hf ▸ rfl) fun h₁ h₁f ↦ .get_either ?_ h₁f
  exact ⟨retriable_of_footing h₁f ht.retriable, fun _ ↦ h₁f ▸ ht.settled⟩

variable (ht : Through modes (footing h))
include ht

theorem ends_preparePostHandshake (mustWrite : Bool) : EndsThrough modes (preparePostHandshake host mustWrite h) := by
  have hr := ht.retriable
  refine reading_getDownload.neutral.andThen rfl hr fun d h₁ h₁f ↦ .get_either ?_ ?_
  · exact failsSecured h₁f hr nofun
  have ht' : Through modes { footing h with state := postHandshake } := ⟨hr, trivial, ht.settled⟩
  refine modify_andThen { footing h with state := postHandshake } (h₁f ▸ rfl) fun h₂ h₂f ↦ ?_
  refine (neutral_queue _).andThen h₂f hr fun _ h₃ h₃f ↦ reading_unsent.neutral.andThen h₃f hr fun s h₄ h₄f ↦ ?_
  refine .either ?_ ?_
  · exact (ends_writeDoneAll h₄f ht').imp (fun _ _ he ↦ he ▸ ht')
  · exact .pure (h₄f ▸ ht')

theorem ends_readFinished : EndsThrough modes (readFinished host h) := by
  have hr := ht.retriable
  refine .get_either (failsSecured rfl hr nofun) ?_
  refine reading_getDownload.neutral.andThen rfl hr fun d h₁ h₁f ↦ modify_andThen _ h₁f fun h₂ h₂f ↦ ?_
  have hpost : EndsThrough modes (onlyIf (h.writePos = d.bitfield.length) (preparePostHandshake host (hidesBitfield d)) h₂) :=
    .either (ends_preparePostHandshake (h₂f ▸ ht) _) (.pure (h₂f ▸ ht))
  refine hpost.bind fun _ h₃ ht₃ ↦ .get_either ?_ (.pure ht₃)
  exact ⟨ht₃.retriable, fun _ ↦ ht₃.settled⟩

theorem ends_checkInfoHash (hash : Bytes) : EndsThrough modes (checkInfoHash host hash h) := by
  have hr := ht.retriable
  refine .get_either ?_ ?_
  · have hlookup : Neutral (onlyIf h.download.isNone
        (modify fun h' : Handshake ↦ { h' with download := host.downloadInfo hash })) :=
      keeps_onlyIf (keeps_modify fun _ ↦ rfl)
    refine hlookup.andThen rfl hr fun _ h₁ h₁f ↦ ?_
    refine .either (failsSecured h₁f hr nofun) ?_
    refine reading_validateDownload.neutral.andThen h₁f hr fun d h₂ h₂f ↦ ?_
    exact (neutral_prepareHandshake.ends h₂f hr).imp (fun _ _ he ↦ he ▸ ht)
  · have ht' : Through modes { footing h with policy := h.policy.setRetryDisabled } :=
      ⟨retriable_setRetryDisabled hr, ht.past, ht.settled⟩
    refine modify_andThen { footing h with policy := h.policy.setRetryDisabled } rfl fun h₁ h₁f ↦ ?_
    refine reading_getDownload.neutral.andThen h₁f ht'.retriable fun d h₂ h₂f ↦ ?_
    exact .either (failsSecured h₂f ht'.retriable nofun) (.pure (h₂f ▸ ht'))

theorem ends_readHandshakeInfo : EndsThrough modes (readHandshakeInfo host h) := by
  have hr := ht.retriable
  refine (reading_fillReadBuffer _).neutral.andThen rfl hr fun b h₁ h₁f ↦ .get_either ?_ ?_
  · exact failsSecured h₁f hr nofun
  refine .either (.pure (h₁f ▸ ht)) (modify_andThen _ h₁f fun h₂ h₂f ↦ ?_)
  refine (ends_checkInfoHash (h₂f ▸ ht) _).bind fun _ h₃ ht₃ ↦ ?_
  refine (reading_consumeRead 20).neutral.andThen rfl ht₃.retriable fun _ h₄ h₄f ↦ ?_
  refine modify_andThen { footing h₄ with state := readPeer } rfl fun h₅ h₅f ↦ .pure ?_
  rw [h₅f, h₄f]
  exact ⟨ht₃.retriable, trivial, ht₃.settled⟩

theorem ends_readHandshakePeer : EndsThrough modes (readHandshakePeer host h) := by
  have hr := ht.retriable
  refine (reading_fillReadBuffer _).neutral.andThen rfl hr fun b h₁ h₁f ↦ .either (.pure (h₁f ▸ ht)) ?_
  refine neutral_preparePeerInfo.andThen h₁f hr fun _ h₂ h₂f ↦ .get_bind ?_
  refine Neutral.andThen (keeps_onlyIf neutral_writeExtensionHandshake) h₂f hr fun _ h₃ h₃f ↦ ?_
  refine neutral_prepareMessages.andThen h₃f hr fun _ h₄ h₄f ↦ ?_
  refine modify_andThen { footing h₄ with state := readMessage } rfl fun h₅ h₅f ↦ .pure ?_
  rw [h₅f, h₄f]
  exact ⟨hr, trivial, ht.settled⟩

theorem ends_messageDone (done : Bool) : EndsThrough modes (messageDone host done h) := by
  refine .either (.pure ht) ?_
  have ht' : Through modes { footing h with state := readMessage } := ⟨ht.retriable, trivial, ht.settled⟩
  refine modify_andThen { footing h with state := readMessage } rfl fun h₁ h₁f ↦ ?_
  refine .get_either ?_ (.pure (h₁f ▸ ht'))
  exact (ends_readFinished (h₁f ▸ ht')).bind fun _ h₂ ht₂ ↦ .pure ht₂

theorem ends_startBitfield : EndsThrough modes (startBitfield h) := by
  have hr := ht.retriable
  refine .get_bind (reading_getDownload.neutral.andThen rfl hr fun d h₁ h₁f ↦ .either ?_ ?_)
  · exact failsSecured h₁f hr nofun
  refine modify_andThen { footing h₁ with state := readBitfield } rfl fun h₂ h₂f ↦ .pure ?_
  rw [h₂f, h₁f]
  exact ⟨hr, trivial, ht.settled⟩

theorem ends_readMessagePart : EndsThrough modes (readMessagePart host h) := by
  have hr := ht.retriable
  have hfinish : ∀ {h'}, footing h' = footing h →
      EndsThrough modes ((do readFinished host; pure Next.stop : Part Next) h') :=
    fun he ↦ (ends_readFinished (he ▸ ht)).bind fun _ h₂ ht₂ ↦ .pure ht₂
  have hmove : ∀ {h' : Handshake} {state}, footing h' = footing h → IsPast state →
      Through modes (footing { h' with readPos := 0, state := state }) := by
    intro h' state he hpast
    have hsettled : Settled (footing h') := he ▸ ht.settled
    exact ⟨retriable_of_footing he hr, hpast, hsettled⟩
  refine reading_getDownload.neutral.andThen rfl hr fun d h₁ h₁f ↦ .either ?_ ?_
  · exact modify_andThen _ h₁f fun h₂ h₂f ↦ hfinish h₂f
  refine modify_andThen _ h₁f fun h₂ h₂f ↦ (reading_fillReadBuffer 5).neutral.andThen h₂f hr fun b h₃ h₃f ↦ ?_
  refine .get_either ?_ (.either (.pure (h₃f ▸ ht)) ?_)
  · exact (reading_consumeRead 4).neutral.andThen h₃f hr fun _ h₄ h₄f ↦ hfinish h₄f
  refine .either (ends_startBitfield (h₃f ▸ ht)) (.either ?_
    (.either ?_ ?_))
  · exact hmove h₃f trivial
  · exact hmove h₃f trivial
  · exact modify_andThen _ h₃f fun h₄ h₄f ↦ hfinish h₄f

end Messages

section Events

theorem endsSecured_readProxy (hs : Secured modes (footing h)) (hstate : h.state = proxyRead) :
    EndsSecured modes (readProxy host h) := by
  have hr := hs.retriable
  have hplain : Plain (footing h) := hs.stageAt hstate
  have hmove : ∀ {h' : Handshake}, footing h' = footing h → Retriable modes h'.policy ∧ Plain (footing h') :=
    fun he ↦ ⟨retriable_of_footing he hr, he ▸ hplain⟩
  refine .get_bind ?_
  rcases h.proxy with _ | p
  · exact failsSecured rfl hr nofun
  refine .either (failsSecured rfl hr nofun) ?_
  refine (reading_readUnthrottled _).neutral.andThen rfl hr fun s h₁ h₁f ↦ modify_andThen _ h₁f fun h₂ h₂f ↦ ?_
  refine .get_bind (modify_andThen _ h₂f fun h₃ h₃f ↦ ?_)
  cases host.proxyAction (host.proxyRead p h₂.readBuffer.remaining).2 with
  | writing => exact ⟨(hmove h₃f).1, (hmove h₃f).2⟩
  | reading => exact .pure (h₃f ▸ hs)
  | done => exact ⟨(hmove h₃f).1, (hmove h₃f).2⟩
  | error => exact failsSecured h₃f hr nofun

theorem endsSecured_readStep (hs : Secured modes (footing h)) : EndsSecured modes (readStep host h) := by
  have hthrough : ∀ {x : Part Next}, IsPast h.state →
      (Through modes (footing h) → EndsThrough modes (x h)) → EndsSecured modes (x h) :=
    fun hpast hx ↦ (hx (hs.through hpast)).imp (fun _ _ ht ↦ ht.secured)
  have hdone : ∀ {x : Part Bool}, Neutral x → IsPast h.state →
      EndsSecured modes ((do messageDone host (← x) : Part Next) h) := by
    intro x hx hpast
    refine hthrough hpast fun ht ↦ hx.andThen rfl ht.retriable fun b h₁ h₁f ↦ ?_
    exact ends_messageDone (h₁f ▸ ht) b
  refine .get_bind ?_
  cases hstate : h.state with
  | proxyRead => exact endsSecured_readProxy hs hstate
  | readEncKey => exact endsSecured_readEncryptionKey hs hstate
  | readEncSync => exact endsSecured_readEncryptionSync hs hstate
  | readEncSkey => exact endsSecured_readEncryptionSkey hs
  | readEncNegot => exact endsSecured_readEncryptionNegotiation hs hstate
  | readEncPad => exact endsSecured_readEncryptionPad hs hstate
  | readEncIa => exact endsSecured_readEncryptionIa hs hstate
  | readInfo => exact hthrough (hstate ▸ trivial) ends_readHandshakeInfo
  | readPeer => exact hthrough (hstate ▸ trivial) ends_readHandshakePeer
  | readMessage | postHandshake => exact hthrough (hstate ▸ trivial) ends_readMessagePart
  | readBitfield => exact hdone reading_readBitfieldPart.neutral (hstate ▸ trivial)
  | readExt => exact hdone reading_readExtension.neutral (hstate ▸ trivial)
  | readPort => exact hdone reading_readPortPart.neutral (hstate ▸ trivial)
  | _ => exact failsSecured rfl hs.retriable nofun

theorem endsSecured_readStates (fuel : ℕ) (hs : Secured modes (footing h)) : EndsSecured modes (readStates host fuel h) := by
  induction fuel generalizing h with
  | zero => exact failsSecured rfl hs.retriable nofun
  | succ fuel ih =>
    refine (endsSecured_readStep hs).bind fun next h' hs' ↦ ?_
    cases next with
    | again => exact ih hs'
    | stop | write => exact .pure hs'

theorem endsSecured_flush (hs : Secured modes (footing h)) : EndsSecured modes (flush h) := by
  have hr := hs.retriable
  refine reading_unsent.neutral.andThen rfl hr fun s h₁ h₁f ↦ .either (failsSecured h₁f hr nofun) ?_
  refine neutral_writeBuffered.andThen h₁f hr fun b h₂ h₂f ↦ .either ?_ (.pure (h₂f ▸ hs))
  refine .get_ite (fun hpost ↦ ?_) fun _ ↦ .modify (h₂f ▸ hs : Secured modes (footing h₂))
  have hs₂ : Secured modes (footing h₂) := h₂f ▸ hs
  have ht := hs₂.through (by rw [footing, hpost]; trivial)
  exact (ends_writeDoneAll rfl ht).imp (fun _ _ he ↦ he ▸ hs₂)

theorem retriable_retryPlaintext {p : EncryptionPolicy} (hr : Retriable modes p) (hprefer : p.preferEncryptedHandshake = true) :
    Retriable modes (if !p.retrying && p.allowPlaintextHandshake then p.setRetryPlaintext else p) := by
  split_ifs with hallow
  · refine ⟨fun _ ↦ ?_, nofun, hr.conforms⟩
    simp only [preferEncryptedHandshake, allowPlaintextHandshake, decide_eq_true_eq,
      Bool.and_eq_true] at hprefer hallow
    exact hprefer.resolve_right hallow.2
  · exact hr

theorem retriable_retryEncrypted {p : EncryptionPolicy} (hr : Retriable modes p) (hno : ¬ p.preferEncryptedHandshake = true) :
    Retriable modes (if !p.retrying && p.allowEncryptedHandshake then p.setRetryEncrypted else p) := by
  split_ifs with hallow
  · refine ⟨nofun, fun _ ↦ ?_, hr.conforms⟩
    change p.handshakeMode = .allow
    simp only [preferEncryptedHandshake, allowEncryptedHandshake, decide_eq_true_eq,
      Bool.and_eq_true] at hno hallow
    cases hmode : p.handshakeMode <;> simp_all
  · exact hr

section

variable (hr : Retriable modes h.policy) (hplain : Plain (footing h))
include hr hplain

theorem endsSecured_prepareFirst : EndsSecured modes (prepareFirst host h) := by
  refine reading_unsent.neutral.andThen rfl hr fun s h₁ h₁f ↦ .either (failsSecured h₁f hr nofun) ?_
  refine modify_andThen _ h₁f fun h₂ h₂f ↦ .get_ite (fun hprefer ↦ ?_) fun hno ↦ ?_
  · refine neutral_prepareKeyPlusPad.andThen h₂f hr fun _ h₃ h₃f ↦ .modify ?_
    have hpolicy : h₃.policy = h₂.policy := congrArg Footing.policy (h₃f.trans h₂f.symm)
    have hplain₃ : Plain (footing h₃) := h₃f ▸ hplain
    exact ⟨retriable_retryPlaintext (retriable_of_footing h₃f hr) (hpolicy ▸ hprefer), hplain₃⟩
  refine neutral_prepareHandshake.andThen h₂f hr fun _ h₃ h₃f ↦ .modify ?_
  have hpolicy : h₃.policy = h₂.policy := congrArg Footing.policy (h₃f.trans h₂f.symm)
  have hplain₃ : Plain (footing h₃) := h₃f ▸ hplain
  have hmode : h₃.policy.handshakeMode ≠ .require := by
    intro hreq
    rw [hpolicy] at hreq
    exact hno (decide_eq_true (.inr hreq))
  refine Through.secured ⟨retriable_retryEncrypted (retriable_of_footing h₃f hr) (hpolicy ▸ hno), ?_, .inl ⟨hplain₃, ?_⟩⟩
  · split_ifs <;> trivial
  · split_ifs <;> exact hmode

theorem endsSecured_writeProxy : EndsSecured modes (writeProxy host h) := by
  refine .get_bind ?_
  rcases h.proxy with _ | p
  · exact failsSecured rfl hr nofun
  refine .either (failsSecured rfl hr nofun) (.either (failsSecured rfl hr nofun) ?_)
  refine modify_andThen (footing h) rfl fun h₁ h₁f ↦ ?_
  cases host.proxyAction (host.proxyWrite p).2 with
  | reading =>
    have hplain₁ : Plain (footing h₁) := h₁f ▸ hplain
    exact ⟨retriable_of_footing h₁f hr, hplain₁⟩
  | writing | done | error => exact failsSecured h₁f hr nofun

theorem endsSecured_writeConnected : EndsSecured modes (writeConnected host h) :=
  .get_either (endsSecured_writeProxy hr hplain) (endsSecured_prepareFirst hr hplain)

end

theorem ends_writeBitfieldRest (s : Bytes) (ht : Through modes (footing h)) :
    EndsThrough modes (writeBitfieldRest host s h) := by
  have hr := ht.retriable
  refine .get_bind (Neutral.andThen (keeps_onlyIf ?_) rfl hr fun _ h₁ h₁f ↦ .get_bind ?_)
  · exact .ite (neutral_writeEncryptedBitfield s) (neutral_writePlainBitfield s)
  refine .either (.either ?_ ?_) (.pure (h₁f ▸ ht))
  · exact ends_preparePostHandshake (h₁f ▸ ht) _
  · exact .modify (h₁f ▸ ht : Through modes (footing h₁))

theorem ends_writeBitfield (ht : Through modes (footing h)) : EndsThrough modes (writeBitfield host h) := by
  have hr := ht.retriable
  refine reading_getDownload.neutral.andThen rfl hr fun d h₁ h₁f ↦ .get_either ?_ ?_
  · exact failsSecured h₁f hr nofun
  refine reading_unsent.neutral.andThen h₁f hr fun s h₂ h₂f ↦ .either (ends_writeBitfieldRest _ (h₂f ▸ ht)) ?_
  refine neutral_writeBuffered.andThen h₂f hr fun b h₃ h₃f ↦ ?_
  exact .either (ends_writeBitfieldRest _ (h₃f ▸ ht)) (.pure (h₃f ▸ ht))

theorem endsSecured_eventWrite (hs : Secured modes (footing h)) : EndsSecured modes (eventWrite host h) := by
  have hr := hs.retriable
  have hbitfield : IsPast h.state → EndsSecured modes (writeBitfield host h) := fun hpast ↦
    (ends_writeBitfield (hs.through hpast)).imp (fun _ _ ht ↦ ht.secured)
  refine .get_bind ?_
  cases hstate : h.state with
  | connecting =>
    refine .either (failsSecured rfl hr nofun) ?_
    exact (endsSecured_writeConnected hr (hs.stageAt hstate)).bind fun _ _ hs' ↦ endsSecured_flush hs'
  | proxyWrite => exact (endsSecured_writeConnected hr (hs.stageAt hstate)).bind fun _ _ hs' ↦ endsSecured_flush hs'
  | proxyDone => exact (endsSecured_prepareFirst hr (hs.stageAt hstate)).bind fun _ _ hs' ↦ endsSecured_flush hs'
  | readMessage | readBitfield | readExt => exact hbitfield (hstate ▸ trivial)
  | _ => exact endsSecured_flush hs

theorem endsSecured_eventRead (hs : Secured modes (footing h)) : EndsSecured modes (eventRead host h) := by
  refine .get_bind ((endsSecured_readStates _ hs).bind fun next h₁ hs₁ ↦ ?_)
  have hrest : EndsSecured modes ((do
      let s ← unsent
      let h ← get
      if s ≠ [] ∧ h.inWrite = false then do
        modify fun h ↦ { h with inWrite := true }
        eventWrite host
      else pure () : Part Unit) h₁) := by
    refine reading_unsent.neutral.andThen rfl hs₁.retriable fun s h₂ h₂f ↦ .get_bind ?_
    refine .either ?_ (.pure (h₂f ▸ hs₁))
    exact modify_andThen _ h₂f fun h₃ h₃f ↦ endsSecured_eventWrite (h₃f ▸ hs₁)
  cases next with
  | write => exact endsSecured_eventWrite hs₁
  | again | stop => exact hrest

end Events

end LibTorrent.Handshake

namespace LibTorrent

open EncryptionPolicy Handshake Lib.Decimal
open List (replicate)

inductive Origin
  | incoming
  | outgoing (download : HandshakeDownload) (proxy : Option ℕ)

namespace Origin

def isMetaDownload : Origin → Bool
  | incoming => false
  | outgoing d _ => d.isMetaDownload

/-- The policies of `HandshakeManager::add_incoming` and `add_outgoing`. -/
def policy (modes : EncryptionModes) (o : Origin) : Except String EncryptionPolicy :=
  if o.isMetaDownload then create .deny .deny else create modes.1 modes.2

def start (p : EncryptionPolicy) : Origin → Handshake
  | incoming => initializeIncoming p
  | outgoing d proxy => initializeOutgoing p d proxy

end Origin

/-- A connection before it belongs to a download, over all the attempts of its handshake. -/
inductive Link
  | active (h : Handshake)
  | closed
  | handed (h : Handshake)
  | refused (message : String)
  | escaped (e : HandshakeExit)

namespace Link

variable (host : Host)

/-- An event, and what `create_outgoing` comes to if the handshake has to be tried again: no socket, or one with a proxy
or without. -/
structure Turn where
  event : SocketEvent
  reopened : Option (Option ℕ) := none

def retry (h : Handshake) (p : EncryptionPolicy) (reopened : Option (Option ℕ)) : Link :=
  match h.download, reopened with
  | some d, some proxy => active (initializeOutgoing p d proxy)
  | _, _ => closed

def step (l : Link) (t : Turn) : Link :=
  match l with
  | active h =>
    match h.event host t.event with
    | .active h' => active h'
    | .succeeded h' => handed h'
    | .failed h' (some p) => retry h' p t.reopened
    | .failed _ none => closed
    | .refused _ message => refused message
    | .escaped _ e => escaped e
  | _ => l

def run (l : Link) (ts : List Turn) : Link := ts.foldl (step host) l

def PlainHandshake (h : Handshake) : Prop := Handshake.Footing.IsPast h.state ∧ h.info.isObfuscated = false

def Respects (modes : EncryptionModes) : Link → Prop
  | active h => PlainHandshake h → modes.1 ≠ .require
  | handed h => (h.info.isEncrypted = false ∨ h.info.decryptValid = false → modes.2 ≠ .require) ∧
      (h.info.isEncrypted = true ∨ h.info.decryptValid = true → modes.2 ≠ .deny) ∧
      (h.info.isObfuscated = false → modes.1 ≠ .require)
  | refused _ => False
  | closed | escaped _ => True

instance (modes : EncryptionModes) : DecidablePred (Respects modes)
  | active _ => inferInstanceAs (Decidable (_ ∧ _ → _))
  | handed _ => inferInstanceAs (Decidable ((_ ∨ _ → _) ∧ (_ ∨ _ → _) ∧ (_ → _)))
  | refused _ => isFalse id
  | closed | escaped _ => isTrue trivial

section Respects

open Footing

variable {host : Host} {modes : EncryptionModes} {h : Handshake}

def Kept (modes : EncryptionModes) : Link → Prop
  | active h => Secured modes (footing h)
  | handed h => Conforms modes h.policy.handshakeMode h.policy.streamMode ∧ Settled (footing h)
  | refused _ => False
  | closed | escaped _ => True

variable {l : Link} {p : EncryptionPolicy}

theorem Kept.respects (hl : Kept modes l) : Respects modes l := by
  cases l with
  | active h =>
    rintro ⟨hpast, hplain⟩
    have ht := Footing.Secured.through hl hpast
    rcases ht.settled with ⟨-, hmode⟩ | ⟨⟨-, hobf, -⟩, -⟩ | ⟨⟨-, hobf, -⟩, -⟩
    · exact ht.retriable.conforms.plainHandshake hmode
    · cases hplain.symm.trans hobf
    · cases hplain.symm.trans hobf
  | handed h =>
    obtain ⟨hc, ⟨⟨henc, hobf, hdec⟩, hmode⟩ | ⟨⟨henc, hobf, hdec⟩, hmode⟩ | ⟨⟨henc, hobf, hdec⟩, hmode⟩⟩ := hl
    all_goals dsimp only [footing] at henc hobf hdec hmode
    all_goals simp only [Respects, henc, hobf, hdec]
    · exact ⟨fun _ ↦ hc.plaintext fun hreq ↦ hmode (hc.required hreq), nofun, fun _ ↦ hc.plainHandshake hmode⟩
    · exact ⟨nofun, fun _ ↦ hc.encrypted hmode, nofun⟩
    · exact ⟨fun _ ↦ hc.plaintext hmode, nofun, nofun⟩
  | refused _ => exact hl
  | closed | escaped _ => trivial

theorem retriable_create {a b : EncryptionMode} (hc : Conforms modes a b) :
    ∃ p, create a b = .ok p ∧ Retriable modes p := by
  have hno : ¬ (a = .deny ∧ b = .require) := by
    rintro ⟨rfl, rfl⟩
    cases hc.required rfl
  exact ⟨_, if_neg hno, nofun, nofun, hc⟩

theorem secured_initializeOutgoing {d : HandshakeDownload} {proxy : Option ℕ}
    (hp : Retriable modes p) : Secured modes (footing (initializeOutgoing p d proxy)) := ⟨hp, rfl, rfl, rfl⟩

theorem secured_start (o : Origin) (hp : Retriable modes p) : Secured modes (footing (o.start p)) := by
  cases o with
  | incoming =>
    refine ⟨hp, ?_⟩
    cases hallow : p.allowEncryptedHandshake with
    | true => simp [Origin.start, initializeIncoming, hallow, Stage, footing, Plain]
    | false =>
      have hmode : p.handshakeMode = .deny := by simpa [allowEncryptedHandshake] using hallow
      simp [Origin.start, initializeIncoming, hallow, Stage, footing, Settled, Plain, hmode]
  | outgoing d proxy => exact secured_initializeOutgoing hp

theorem retryPolicy_retriable (hr : Retriable modes h.policy) :
    ∃ next, retryPolicy h = .ok next ∧ ∀ p ∈ next, Retriable modes p := by
  have hc := hr.conforms
  unfold retryPolicy
  split_ifs with hin hplain hencrypted
  · exact ⟨none, rfl, nofun⟩
  · have hmode := hr.plaintext (of_decide_eq_true hplain)
    have hc' : Conforms modes .deny h.policy.streamMode :=
      ⟨fun _ ↦ hc.plainHandshake (by simp [hmode]), hc.plaintext, hc.encrypted,
        fun hreq ↦ absurd (hmode.symm.trans (hc.required hreq)) nofun⟩
    obtain ⟨p, hp, hretriable⟩ := retriable_create hc'
    refine ⟨some p.setRetrying, by rw [hp]; rfl, ?_⟩
    rintro _ ⟨⟩
    exact ⟨hretriable.plaintext, hretriable.encrypted, hretriable.conforms⟩
  · have hc' : Conforms modes .require h.policy.streamMode :=
      ⟨fun hno ↦ absurd rfl hno, hc.plaintext, hc.encrypted, fun _ ↦ rfl⟩
    obtain ⟨p, hp, hretriable⟩ := retriable_create hc'
    refine ⟨some p.setRetrying, by rw [hp]; rfl, ?_⟩
    rintro _ ⟨⟩
    exact ⟨hretriable.plaintext, hretriable.encrypted, hretriable.conforms⟩
  · exact ⟨none, rfl, nofun⟩

def KeptFate (modes : EncryptionModes) : Fate → Prop
  | .active h => Secured modes (footing h)
  | .succeeded h => Retriable modes h.policy ∧ Settled (footing h)
  | .failed _ retry => ∀ p ∈ retry, Retriable modes p
  | .refused _ _ => False
  | .escaped _ _ => True

theorem keptFate_receiveFailed (hr : Retriable modes h.policy) : KeptFate modes (receiveFailed h) := by
  obtain ⟨next, hnext, hp⟩ := retryPolicy_retriable hr
  rw [receiveFailed, hnext]
  exact hp

theorem keptFate_handled {r : EStateM.Result HandshakeExit Handshake Unit} (hr : EndsSecured modes r) :
    KeptFate modes (handled r) := by
  rcases r with ⟨_, h⟩ | ⟨e, h⟩
  · exact hr
  obtain ⟨hretriable, hsettled⟩ := hr
  cases e with
  | succeeded =>
    rw [handled, receiveSucceeded]
    split_ifs
    · trivial
    · exact ⟨hretriable, hsettled rfl⟩
  | error | network => exact keptFate_receiveFailed hretriable
  | internal | outOfBounds => trivial

theorem keptFate_event (e : SocketEvent) (hs : Secured modes (footing h)) : KeptFate modes (h.event host e) := by
  cases e with
  | readable a =>
    dsimp only [event]
    split_ifs
    · exact keptFate_handled (endsSecured_eventRead hs)
    · exact hs
  | writable a =>
    dsimp only [event]
    split_ifs
    · exact keptFate_handled (endsSecured_eventWrite hs)
    · exact hs
  | broken => exact keptFate_receiveFailed hs.retriable

theorem Kept.step (t : Turn) (hl : Kept modes l) : Kept modes (l.step host t) := by
  cases l with
  | active h =>
    have hfate : KeptFate modes (h.event host t.event) := keptFate_event t.event hl
    unfold Link.step
    dsimp only
    cases hf : h.event host t.event with
    | active h' =>
      rw [hf] at hfate
      exact hfate
    | succeeded h' =>
      rw [hf] at hfate
      exact ⟨hfate.1.conforms, hfate.2⟩
    | failed h' next =>
      rw [hf] at hfate
      rcases next with _ | p
      · trivial
      dsimp only [retry]
      split
      · exact secured_initializeOutgoing (hfate p rfl)
      · trivial
    | refused h' message =>
      rw [hf] at hfate
      exact hfate
    | escaped h' e => trivial
  | handed | refused => exact hl
  | closed | escaped _ => trivial

theorem Kept.run (ts : List Turn) (hl : Kept modes l) : Kept modes (l.run host ts) := by
  induction ts generalizing l with
  | nil => exact hl
  | cons t ts ih => exact ih (hl.step t)

end Respects

/-- Every connection is made as the modes of the configuration ask for, if a required stream is required of the handshake
as well, and an outgoing connection for metadata is not required to be encrypted. -/
theorem run_respects (modes : EncryptionModes) (o : Origin) (hrequired : modes.2 = .require → modes.1 = .require)
    (hmeta : o.isMetaDownload = true → modes.1 ≠ .require) :
    ∃ p, o.policy modes = .ok p ∧ ∀ host ts, Respects modes ((active (o.start p)).run host ts) := by
  have hpolicy : ∃ p, o.policy modes = .ok p ∧ Handshake.Footing.Retriable modes p := by
    unfold Origin.policy
    split_ifs with hm
    · exact retriable_create ⟨fun _ ↦ hmeta hm, fun _ hreq ↦ hmeta hm (hrequired hreq), nofun, nofun⟩
    · exact retriable_create ⟨id, id, id, hrequired⟩
  obtain ⟨p, hp, hretriable⟩ := hpolicy
  have hkept : Kept modes (active (o.start p)) := secured_start o hretriable
  exact ⟨p, hp, fun host ts ↦ (hkept.run ts).respects⟩

theorem run_respects_prefer : ∃ p, Origin.incoming.policy (.prefer, .prefer) = .ok p ∧
    ∀ host ts, Respects (.prefer, .prefer) ((active (Origin.incoming.start p)).run host ts) :=
  run_respects (.prefer, .prefer) .incoming nofun nofun

def quietDownload : HandshakeDownload where
  hash := replicate 20 7
  localId := replicate 20 8
  bitfield := [0x80]
  isAllUnset := false
  initialSeeding := false
  isMetaDownload := false
  isActive := true
  isAcceptingNewPeers := true
  extensionHandshake := []
  hash_length := rfl
  localId_length := rfl

/-- Surroundings without DHT and proxies, in which the keys and hashes say nothing. -/
def quietHost : Host where
  publicKey := replicate 96 0
  pad := []
  keyIsValid := true
  computeSecret := some
  sha1 _ := replicate 20 0
  rc4 _ _ := 1
  downloadInfo _ := some quietDownload
  downloadInfoObfuscated _ := some quietDownload
  isDhtActive := false
  dhtReceivesRequests := false
  dhtPort := 0
  connected := .accepted
  parseExtension _ _ := some true
  proxyAction _ := .error
  proxyWrite p := ([], p)
  proxyRead p _ := (0, p)
  publicKey_length := rfl
  pad_length := by decide
  sha1_length _ := rfl

@[irreducible] def quietPeer : Bytes :=
  19 :: Handshake.protocol ++ replicate 8 0 ++ replicate 20 7 ++ replicate 20 9 ++ [0, 0, 0, 0]

/-- A stream that is required is not asked for by every handshake: a plain one is accepted, a retry without encryption is
refused, and an outgoing connection for metadata is plain in any case. -/
theorem run_required : (∃ p, Origin.incoming.policy (.allow, .require) = .ok p ∧
      ¬ Respects (.allow, .require) ((active (Origin.incoming.start p)).run quietHost
        [⟨.readable { bytes := quietPeer, reads := [some 20, some 48, some 5] }, none⟩,
          ⟨.writable { writes := [some 100, some 100] }, none⟩])) ∧
    (∃ p, (Origin.outgoing quietDownload none).policy (.prefer, .require) = .ok p ∧
      ¬ Respects (.prefer, .require) ((active ((Origin.outgoing quietDownload none).start p)).run quietHost
        [⟨.writable { writes := [some 100] }, none⟩, ⟨.broken, none⟩])) ∧
    ∃ p, (Origin.outgoing { quietDownload with isMetaDownload := true } none).policy (.require, .require) = .ok p ∧
      ¬ Respects (.require, .require)
        ((active ((Origin.outgoing { quietDownload with isMetaDownload := true } none).start p)).run quietHost
          [⟨.writable { writes := [some 100] }, none⟩]) := by
  refine ⟨⟨_, rfl, ?_⟩, ⟨_, rfl, ?_⟩, ⟨_, rfl, ?_⟩⟩
  · decide +kernel
  · decide +kernel
  · decide +kernel

end Link

end LibTorrent
