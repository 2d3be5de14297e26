import LibTorrent.Handshake.Conversing
import LibTorrent.Handshake.Sent

namespace LibTorrent.Handshake

open HandshakeState Lib.Decimal Lib.Program List Nat Option Origin

variable {host : Host} {h : Handshake} {d : HandshakeDownload}

def Rests (h : Handshake) : Prop := h.writeBuffer.remaining ≠ [] → h.inWrite = true

abbrev EndsResting (r : EStateM.Result HandshakeExit Handshake Unit) : Prop :=
  Ends r (fun _ h ↦ Steady h ∧ Rests h) Tame

variable {h' : Handshake}

section Flush

theorem Polls.written (hp : Polls h) (hstart : h.state ≠ connecting) (hstate : h'.state = h.state)
    (hread : h'.readDone = h.readDone ∧ h'.inRead = h.inRead ∧ h'.download = h.download)
    (hpost : h.state = postHandshake → h'.writeBuffer.remaining ≠ [])
    (hlisten : h.state ∉ talking → h'.inWrite = true → h'.writeBuffer.remaining ≠ [])
    (htalk : h.state ∈ talking → ∀ d ∈ h.download,
      (h'.inWrite = true ↔ h'.writeBuffer.remaining ≠ [] ∨ h'.writePos ≠ d.bitfield.length)) : Polls h' := by
  obtain ⟨hdone, hin, hd⟩ := hread
  cases hs : h.state with
  | connecting => exact absurd hs hstart
  | readEncKey | readEncSync | readEncSkey | readInfo =>
    simp only [Polls, Listens, hstate, hs, hdone, hin] at hp ⊢
    exact ⟨hp.1, hp.2.1, hlisten (by simp [hs])⟩
  | readEncNegot | readEncPad | readEncIa | readPeer =>
    simp only [Polls, Listens, hstate, hs, hdone, hin, hd] at hp ⊢
    exact ⟨⟨hp.1.1, hp.1.2.1, hlisten (by simp [hs])⟩, hp.2⟩
  | readMessage =>
    simp only [Polls, Converses, hstate, hs, hdone, hin, hd] at hp ⊢
    obtain ⟨d, hd, hc⟩ := hp
    exact ⟨d, hd, hc.1, htalk (by simp [hs]) d hd⟩
  | readBitfield | readExt | readPort =>
    simp only [Polls, Converses, hstate, hs, hdone, hin, hd] at hp ⊢
    obtain ⟨hdone, d, hd, hc⟩ := hp
    exact ⟨hdone, d, hd, hc.1, htalk (by simp [hs]) d hd⟩
  | postHandshake =>
    simp only [Polls, hstate, hs, hdone, hin] at hp ⊢
    exact ⟨hp.1, hp.2.1, hpost hs⟩
  | inactive | proxyWrite | proxyRead | proxyDone => simp only [Polls, hs] at hp

variable {n : ℕ}

theorem Founded.flushed (hf : Founded h) (hn : n ≤ h.writeBuffer.remaining.length) : Founded (flushed n h) :=
  ⟨hf.1, hf.2.1, hf.2.2.1.flushed hn, hf.2.2.2⟩

theorem Polls.not_connecting (hp : Polls h) (hne : h.writeBuffer.remaining ≠ []) : h.state ≠ connecting := by
  intro hstate
  simp only [Polls, hstate] at hp
  exact hne hp.2.2.2.2

theorem Steady.flushed (hs : Steady h) (hn : n < h.writeBuffer.remaining.length) (hin : h.inWrite = true) :
    Steady (flushed n h) ∧ Rests (Handshake.flushed n h) := by
  obtain ⟨hf, hw, hp⟩ := hs
  have hne : (Handshake.flushed n h).writeBuffer.remaining ≠ [] := by
    intro hnil
    have hlen := congrArg List.length hnil
    rw [remaining_flushed, length_drop, length_nil] at hlen
    omega
  have hstart : h.state ≠ connecting := hp.not_connecting (ne_nil_of_length_pos (zero_lt_of_lt hn))
  refine ⟨⟨hf.flushed hn.le, hw, ?_⟩, fun _ ↦ hin⟩
  exact hp.written hstart rfl ⟨rfl, rfl, rfl⟩ (fun _ ↦ hne) (fun _ _ ↦ hne) fun _ d hd ↦ ⟨fun _ ↦ .inl hne, fun _ ↦ hin⟩

theorem Steady.drained (hs : Steady h) (hpost : h.state ≠ postHandshake) (hne : h.writeBuffer.remaining ≠ [])
    (hpos : h.state ∈ talking → ∀ d ∈ h.download, h.writePos = d.bitfield.length) :
    Steady { Handshake.flushed h.writeBuffer.remaining.length h with inWrite := false } ∧
      Rests { Handshake.flushed h.writeBuffer.remaining.length h with inWrite := false } := by
  obtain ⟨hf, hw, hp⟩ := hs
  have hnil : (Handshake.flushed h.writeBuffer.remaining.length h).writeBuffer.remaining = [] := by
    rw [remaining_flushed, drop_length]
  refine ⟨⟨hf.flushed le_rfl, hw, ?_⟩, fun hno ↦ absurd hnil hno⟩
  refine hp.written (hp.not_connecting hne) rfl ⟨rfl, rfl, rfl⟩ (fun hyes ↦ absurd hyes hpost) (fun _ hno ↦ absurd hno nofun)
    fun htalk d hd ↦ ⟨nofun, ?_⟩
  rintro (hno | hno)
  · exact absurd hnil hno
  · exact absurd (hpos htalk d hd) hno

theorem endsResting_flush (hs : Steady h) (hne : h.writeBuffer.remaining ≠ []) (hin : h.inWrite = true)
    (hpos : h.state ∈ talking → ∀ d ∈ h.download, h.writePos = d.bitfield.length) : EndsResting (flush h) := by
  have hplaced : Placed h := hs.1.2.2.1
  refine .bind_of_ok (unsent_eq hplaced) (.ite (fun hnil ↦ absurd hnil hne) fun _ ↦ ?_)
  refine Ends.bind ((ends_writeBuffered hplaced hne).mono (fun _ _ hh ↦ hh) ?_) ?_
  · rintro _ _ ⟨rfl, -⟩
    trivial
  rintro b _ ⟨n, hn, rfl, hall, -⟩
  refine .ite (fun hb ↦ ?_) fun hb ↦ .pure (hs.flushed ?_ hin)
  · obtain rfl := hall.mp hb
    refine .get_ite (fun hpost ↦ ?_) fun hpost ↦ .modify (hs.drained hpost hne hpos)
    have hstate : h.state = postHandshake := hpost
    obtain ⟨-, hw, hp⟩ := hs
    simp only [Within, hstate] at hw
    simp only [Polls, hstate] at hp
    refine .modify_bind (.get_ite (fun _ ↦ ?_) fun hno ↦ absurd hp.1 hno)
    exact Roomy.tame hw
  · exact lt_of_le_of_ne hn fun heq ↦ hb (hall.mpr heq)

end Flush

section Connecting

structure Opened (h : Handshake) : Prop where
  founded : Founded h
  outgoing : h.incoming = false
  reads : h.readDone = false ∧ h.inRead = true
  writes : h.inWrite = true
  empty : h.readBuffer.position = 0 ∧ h.readBuffer.content.length = 0
  queued : h.writeBuffer.remaining ≠ []

variable {state : HandshakeState}

theorem Opened.steady (ho : Opened h) (p : EncryptionPolicy) (hs : state ∈ [readEncKey, readInfo]) :
    Steady { h with policy := p, state := state } := by
  have hempty := ho.empty
  simp only [mem_cons, not_mem_nil, or_false] at hs
  refine ⟨ho.founded, ?_, ?_⟩
  · obtain rfl | rfl := hs
    all_goals
      simp only [Within]
      omega
  · obtain rfl | rfl := hs
    all_goals exact ⟨ho.reads.1, ho.reads.2, fun _ ↦ ho.queued⟩

theorem Opened.endsResting_flush (ho : Opened h) (p : EncryptionPolicy)
    (hs : state ∈ [readEncKey, readInfo]) : EndsResting (flush { h with policy := p, state := state }) := by
  refine Handshake.endsResting_flush (ho.steady p hs) ho.queued ho.writes fun htalk ↦ ?_
  simp only [mem_cons, not_mem_nil, or_false, talking] at hs htalk
  obtain rfl | rfl := hs <;> simp at htalk

section

variable (hf : Founded h) (hout : h.incoming = false) (hreads : h.readDone = false ∧ h.inRead = true)
  (hin : h.inWrite = true) (hempty : h.readBuffer.position = 0 ∧ h.readBuffer.content.length = 0)
include hf hout hreads hin hempty

theorem ends_prepareKeyPlusPad_opened : Ends (prepareKeyPlusPad host h) (fun _ h' ↦ Opened h') Tame := by
  refine .either trivial (.modify
    ⟨(stays_push _ h.info).founded hf, hout, hreads, hin, hempty, fun hnil ↦ ?_⟩)
  have hr : (h.writeBuffer.push (host.publicKey ++ host.pad)).remaining =
      h.writeBuffer.remaining ++ (host.publicKey ++ host.pad) := ProtocolBuffer.remaining_push hf.2.2.1
  have hlen := congrArg List.length (hr.symm.trans hnil)
  rw [length_append, length_append, host.publicKey_length, length_nil] at hlen
  omega

theorem ends_prepareHandshake_opened : Ends (prepareHandshake host h) (fun _ h' ↦ Opened h') Tame := by
  obtain ⟨d, hd⟩ := isSome_iff_exists.mp (hf.2.1 hout).1
  refine .bind_of_ok (getDownload_eq hd) (ends_queue ?_)
  refine ⟨(stays_push _ _).founded hf, hout, hreads, hin, hempty, remaining_queued_ne_nil hf.2.2.1 ?_⟩
  simp [handshakeBytes]

end

theorem endsResting_connecting (hs : Steady h) (hstate : h.state = connecting) : EndsResting ((do
      writeConnected host
      flush : Part Unit) h) := by
  obtain ⟨hf, hw, hp⟩ := hs
  simp only [Within, hstate] at hw
  simp only [Polls, hstate] at hp
  obtain ⟨hout, -, hdone, hin, hnil⟩ := hp
  have hempty : h.readBuffer.position = 0 ∧ h.readBuffer.content.length = 0 := by omega
  have hfirst : Ends (writeConnected host h)
      (fun _ h' ↦ ∃ h₁ p state, h' = { h₁ with policy := p, state := state } ∧ Opened h₁ ∧ state ∈ [readEncKey, readInfo])
      Tame := by
    refine .get_ite (fun hproxy ↦ ?_) fun _ ↦ .modify_bind ?_
    · rw [hf.1] at hproxy
      exact absurd hproxy (by simp)
    have hunsent : Ends (unsent { h with inRead := true }) (fun s h' ↦ s = [] ∧ h' = { h with inRead := true }) Tame := by
      rw [unsent_eq (h := { h with inRead := true }) hf.2.2.1]
      exact ⟨hnil, rfl⟩
    refine Ends.bind hunsent ?_
    rintro _ _ ⟨rfl, rfl⟩
    have hf₀ : Founded { h with inRead := true, writeBuffer := {} } := ⟨hf.1, hf.2.1, zero_le _, hf.2.2.2⟩
    refine .ite (fun hno ↦ absurd rfl hno) fun _ ↦ .modify_bind (.get_either ?_ ?_)
    · refine Ends.bind (ends_prepareKeyPlusPad_opened hf₀ hout ⟨hdone, rfl⟩ hin hempty) fun _ h₁ ho ↦ ?_
      exact .modify ⟨h₁, _, _, rfl, ho, by simp⟩
    · refine Ends.bind (ends_prepareHandshake_opened hf₀ hout ⟨hdone, rfl⟩ hin hempty) fun _ h₁ ho ↦ ?_
      exact .modify ⟨h₁, _, _, rfl, ho, by simp [ho.outgoing]⟩
  refine hfirst.bind ?_
  rintro _ _ ⟨h₁, p, state, rfl, ho, hs⟩
  exact ho.endsResting_flush p hs

end Connecting

section Bitfield

theorem of_aside (P : Handshake → Prop) (he : aside h' = aside h) (hp : P (aside h)) : P (aside h') := he ▸ hp

theorem Polls.finished (hp : Polls h) (hstate : h.state ∈ sending) (hdone : h.readDone = true) :
    h.state = readMessage ∧ h.inRead = false := by
  simp only [mem_cons, not_mem_nil, or_false] at hstate
  obtain hs | hs | hs := hstate
  · simp only [Polls, hs] at hp
    obtain ⟨d, -, hc⟩ := hp
    refine ⟨hs, ?_⟩
    cases hin : h.inRead with
    | false => rfl
    | true => cases hdone.symm.trans (hc.1.mpr hin)
  all_goals
    simp only [Polls, hs] at hp
    cases hdone.symm.trans hp.1

def SameReading (h₀ h : Handshake) : Prop :=
  h.state = h₀.state ∧ h.readDone = h₀.readDone ∧ h.inRead = h₀.inRead ∧ h.download = h₀.download

theorem endsResting_writeBitfieldRest {h₀ : Handshake} (hp : Polls h₀) (hsame : SameReading h₀ h) (hf : Founded h)
    (hw : Within h) (ht : Talking host h) (hd : h.download = some d)
    (hstate : h.state ∈ sending) (hnil : h.writeBuffer.remaining = []) (hin : h.inWrite = true)
    (hwhole : WholeBlock h h.socket.writes) : EndsResting (writeBitfieldRest host d.bitfield h) := by
  refine .get_bind (Ends.bind ((ends_writeBlock ht hd hnil hwhole).mono (fun _ _ hh ↦ hh) ?_) ?_)
  · rintro _ _ rfl
    trivial
  rintro _ h₁ ⟨ht₁, ha, hnil₁⟩
  obtain ⟨hstate₁, hdone₁, hread₁, hin₁, hd₁⟩ : h₁.state = h.state ∧ h₁.readDone = h.readDone ∧ h₁.inRead = h.inRead ∧
      h₁.inWrite = h.inWrite ∧ h₁.download = h.download :=
    of_aside (fun h' ↦ h'.state = h.state ∧ h'.readDone = h.readDone ∧ h'.inRead = h.inRead ∧
      h'.inWrite = h.inWrite ∧ h'.download = h.download) ha ⟨rfl, rfl, rfl, rfl, rfl⟩
  have hf₁ : Founded h₁ := by
    obtain ⟨hproxy, hout⟩ := of_aside
      (fun h ↦ h.proxy = none ∧ (h.incoming = false → h.download.isSome = true ∧ h.hasPeerInfo = true)) ha
      ⟨hf.1, hf.2.1⟩
    exact ⟨hproxy, hout, ht₁.1, ht₁.2.1⟩
  have hw₁ : Within h₁ := of_aside Within ha hw
  obtain ⟨hstate₀, hdone₀, hread₀, hd₀⟩ := hsame
  rw [hstate₀] at hstate
  have hstart : h₀.state ≠ connecting ∧ h₀.state ≠ postHandshake ∧ h₀.state ∈ talking := by
    simp only [mem_cons, not_mem_nil, or_false] at hstate
    obtain hs | hs | hs := hstate <;> simp [hs]
  have hpolls : ∀ b, (b = true ↔ h₁.writePos ≠ d.bitfield.length) → Polls { h₁ with inWrite := b } := by
    intro b hb
    refine hp.written hstart.1 (hstate₁.trans hstate₀) ⟨hdone₁.trans hdone₀, hread₁.trans hread₀, hd₁.trans hd₀⟩
      (fun hpost ↦ absurd hpost hstart.2.1) (fun htalk ↦ absurd hstart.2.2 htalk) fun _ d' hd' ↦ ?_
    cases some.inj ((hd₀.symm.trans hd).symm.trans hd')
    exact ⟨fun hyes ↦ .inr (hb.mp hyes), fun hor ↦ hb.mpr (hor.resolve_left (absurd hnil₁))⟩
  refine .get_ite (fun hpos ↦ ?_) fun hpos ↦ ?_
  · have hpos' := of_decide_eq_true hpos
    refine .ite (fun hdone ↦ ?_) fun _ ↦ .modify ⟨⟨hf₁, hw₁, ?_⟩, fun hno ↦ absurd hnil₁ hno⟩
    · obtain ⟨hmessage, hno⟩ := hp.finished hstate ((hdone₁.trans hdone₀).symm.trans hdone)
      have hr₁ : Roomy h₁ := by simpa only [Within, Roomy, hstate₁.trans (hstate₀.trans hmessage)] using hw₁
      refine (ends_preparePostHandshake_tame false hf₁ (hd₁.trans hd) hpos' hdone (hread₁.trans (hread₀.trans hno)) hr₁).imp
        ?_
      exact fun _ h₂ hs₂ ↦ ⟨hs₂.1, fun _ ↦ hs₂.2.2.trans (hin₁.trans hin)⟩
    · exact hpolls false ⟨by simp, fun hno ↦ absurd hpos' hno⟩
  · have hpolls₁ := hpolls true ⟨fun _ heq ↦ hpos (decide_eq_true heq), fun _ ↦ rfl⟩
    have heq : ({ h₁ with inWrite := true } : Handshake) = h₁ := by rw [← hin, ← hin₁]
    rw [heq] at hpolls₁
    exact .pure ⟨⟨hf₁, hw₁, hpolls₁⟩, fun hno ↦ absurd hnil₁ hno⟩

theorem endsResting_writeBitfield (hs : Steady h) (ht : Talking host h) (hd : h.download = some d)
    (hstate : h.state ∈ sending) (hin : h.inWrite = true) (hwhole : WholeWrite h) :
    EndsResting (writeBitfield host h) := by
  refine .bind_of_ok (getDownload_eq hd) (.get_bind ?_)
  refine .ite (fun hdone ↦ absurd (ht.2.1.symm.trans hdone) nofun) fun _ ↦ .bind_of_ok (unsent_eq ht.1) ?_
  unfold WholeWrite at hwhole
  refine .ite (fun hnil ↦ ?_) fun hne ↦ ?_
  · rw [if_pos hnil] at hwhole
    exact endsResting_writeBitfieldRest hs.2.2 ⟨rfl, rfl, rfl, rfl⟩ hs.1 hs.2.1 ht hd hstate hnil hin hwhole
  rw [if_neg hne] at hwhole
  refine Ends.bind ((ends_writeBuffered ht.1 hne).mono (fun _ _ hh ↦ hh) ?_) ?_
  · rintro _ _ ⟨rfl, -⟩
    trivial
  rintro b _ ⟨n, hn, rfl, hall, hans⟩
  refine .ite (fun hb ↦ ?_) fun hb ↦ .pure (hs.flushed ?_ hin)
  · refine endsResting_writeBitfieldRest hs.2.2 ⟨rfl, rfl, rfl, rfl⟩ (hs.1.flushed hn) hs.2.1
      (ht.flushed hn) hd hstate ?_ hin (hwhole (hans.mp hb))
    rw [remaining_flushed, hall.mp hb, drop_length]
  · exact lt_of_le_of_ne hn fun heq ↦ hb (hall.mpr heq)

end Bitfield

section Events

theorem endsResting_eventWrite (hs : Steady h) (ho : Orderly host h) (hin : h.inWrite = true)
    (hwhole : h.state ∈ sending → WholeWrite h)
    (hport : h.state = readPort → ∀ d ∈ h.download, h.writePos = d.bitfield.length) : EndsResting (eventWrite host h) := by
  have hp := hs.2.2
  have hbitfield : h.state ∈ sending → (∃ d, h.download = some d) →
      EndsResting (writeBitfield host h) := by
    rintro hstate ⟨d, hd⟩
    exact endsResting_writeBitfield hs (ho.talking (mem_talking hstate)) hd hstate hin (hwhole hstate)
  have hflush : h.writeBuffer.remaining ≠ [] → h.state ∉ sending → EndsResting (flush h) := by
    intro hne hstate
    refine endsResting_flush hs hne hin fun htalk d hd ↦ ?_
    simp only [talking, mem_cons, not_mem_nil, or_false, not_or] at htalk hstate
    exact hport (by tauto) d hd
  refine .get_bind ?_
  cases hstate : h.state with
  | connecting => exact .either trivial (endsResting_connecting hs hstate)
  | readMessage =>
    simp only [Polls, hstate] at hp
    obtain ⟨d, hd, -⟩ := hp
    exact hbitfield (by simp [hstate]) ⟨d, hd⟩
  | readBitfield | readExt =>
    simp only [Polls, hstate] at hp
    obtain ⟨-, d, hd, -⟩ := hp
    exact hbitfield (by simp [hstate]) ⟨d, hd⟩
  | readPort =>
    simp only [Polls, hstate] at hp
    obtain ⟨-, d, hd, hc⟩ := hp
    have hne := (hc.2.mp hin).resolve_right fun hno ↦ hno (hport hstate d hd)
    exact hflush hne (by simp [hstate])
  | readEncKey | readEncSync | readEncSkey | readInfo =>
    simp only [Polls, hstate] at hp
    exact hflush (hp.2.2 hin) (by simp [hstate])
  | readEncNegot | readEncPad | readEncIa | readPeer =>
    simp only [Polls, hstate] at hp
    exact hflush (hp.1.2.2 hin) (by simp [hstate])
  | postHandshake =>
    simp only [Polls, hstate] at hp
    exact hflush hp.2.2 (by simp [hstate])
  | inactive | proxyWrite | proxyRead | proxyDone => simp only [Polls, hstate] at hp

theorem ends_readStates_steady (fuel : ℕ) (hs : Steady h) (ho : Orderly host h) (hread : h.inRead = true)
    (hfuel : readMeasure h < fuel) :
    Ends (readStates host fuel h) (fun next h' ↦ next ≠ .write ∧ Steady h') Tame := by
  induction fuel generalizing h with
  | zero => exact absurd hfuel (not_lt_zero _)
  | succ fuel ih =>
    have hstep := (endsAdvanced_readStep hs hread).and (endsGoing_readStep ho hread)
    refine Ends.bind (hstep.mono (fun _ _ hh ↦ hh) fun _ _ he ↦ he.1) ?_
    rintro next h' ⟨hadv, hgo⟩
    cases next with
    | again =>
      have hlt := hadv.shrinks rfl
      exact ih hadv.steady hgo.orderly (hgo.again rfl) (by omega)
    | stop => exact .pure ⟨hadv.goes, hadv.steady⟩
    | write => exact absurd rfl hadv.goes

theorem Polls.conversing (hp : Polls h) (htalk : h.state ∈ talking) : ∃ d, h.download = some d ∧ Converses h d := by
  simp only [talking, mem_cons, not_mem_nil, or_false] at htalk
  obtain hs | hs | hs | hs := htalk
  · simpa only [Polls, hs] using hp
  all_goals
    simp only [Polls, hs] at hp
    exact hp.2

theorem Polls.not_talking (hp : Polls h) (hne : h.writeBuffer.remaining ≠ []) (hin : h.inWrite = false) :
    h.state ∉ talking := by
  intro htalk
  obtain ⟨d, -, hc⟩ := hp.conversing htalk
  cases hin.symm.trans (hc.2.mpr (.inl hne))

theorem endsResting_eventRead (hs : Steady h) (ho : Orderly host h) (hread : h.inRead = true) :
    EndsResting (eventRead host h) := by
  have hstates := (ends_readStates_steady _ hs ho hread (lt_succ_self _)).and
    (ends_readStates (readMeasure h + 1) ho hread)
  refine .get_bind (Ends.bind (hstates.mono (fun _ _ hh ↦ hh) fun _ _ he ↦ he.1) ?_)
  rintro next h₁ ⟨⟨hnext, hs₁⟩, ho₁, -⟩
  have hrest : EndsResting ((do
      let s ← unsent
      let h ← get
      if s ≠ [] ∧ h.inWrite = false then do
        modify fun h ↦ { h with inWrite := true }
        eventWrite host
      else pure () : Part Unit) h₁) := by
    refine .bind_of_ok (unsent_eq ho₁.1) (.get_ite ?_ fun hno ↦ .pure ⟨hs₁, fun hne ↦ ?_⟩)
    · rintro ⟨hne, hin⟩
      have htalk : h₁.state ∉ talking := hs₁.2.2.not_talking hne hin
      have hp : Polls { h₁ with inWrite := true } :=
        hs₁.2.2.written (hs₁.2.2.not_connecting hne) rfl ⟨rfl, rfl, rfl⟩ (fun _ ↦ hne) (fun _ _ ↦ hne)
          fun hyes ↦ absurd hyes htalk
      refine .modify_bind (endsResting_eventWrite ⟨hs₁.1, hs₁.2.1, hp⟩ (ho₁.pollWrite fun _ ↦ rfl) rfl
        (fun hstate ↦ absurd (mem_talking hstate) htalk) fun hstate ↦ ?_)
      have hstate' : h₁.state = readPort := hstate
      exact absurd (by simp [hstate']) htalk
    · exact (Bool.not_eq_false _).mp fun hin ↦ hno ⟨hne, hin⟩
  cases next with
  | write => exact absurd rfl hnext
  | again | stop => exact hrest

end Events

section Runs

/-- The socket is polled in every direction in which a handshake has work: for reading while it waits for the peer, and for
writing while it is connecting, while the write buffer is not empty and while the bitfield is not sent. -/
def Watched (h : Handshake) : Prop :=
  (h.state ≠ connecting → h.readDone = false → h.inRead = true) ∧ (h.state = connecting → h.inWrite = true) ∧
    (h.writeBuffer.remaining ≠ [] → h.inWrite = true) ∧
    (h.state ∈ talking → ∀ d ∈ h.download, h.writePos ≠ d.bitfield.length → h.inWrite = true)

def WatchedFate : Fate → Prop
  | .active h => Watched h
  | .succeeded _ | .failed _ _ => True
  | .refused _ _ | .escaped _ _ => False

/-- The bitfield is not waiting for the socket while a port is read, and its blocks are answered as a whole. -/
def Eased (h : Handshake) (e : SocketEvent) : Prop :=
  WholeEvent h e ∧
    match e with
    | .writable _ => h.state = readPort → ∀ d ∈ h.download, h.writePos = d.bitfield.length
    | .readable _ | .broken => True

variable (host) in
def EasedRun : Handshake → List SocketEvent → Prop
  | _, [] => True
  | h, e :: es => Eased h e ∧
    match event host h e with
    | .active h' => EasedRun h' es
    | _ => True

theorem Steady.watched (hs : Steady h) (hrests : Rests h) : Watched h := by
  obtain ⟨-, -, hp⟩ := hs
  refine ⟨fun hstart hdone ↦ ?_, fun hstate ↦ ?_, hrests, fun htalk d hd hpos ↦ ?_⟩
  · cases hstate : h.state with
    | connecting => exact absurd hstate hstart
    | readEncKey | readEncSync | readEncSkey | readInfo =>
      simp only [Polls, hstate] at hp
      exact hp.2.1
    | readEncNegot | readEncPad | readEncIa | readPeer =>
      simp only [Polls, hstate] at hp
      exact hp.1.2.1
    | readMessage =>
      simp only [Polls, hstate] at hp
      obtain ⟨d, -, hc⟩ := hp
      exact hc.1.mp hdone
    | readBitfield | readExt | readPort =>
      simp only [Polls, hstate] at hp
      obtain ⟨-, d, -, hc⟩ := hp
      exact hc.1.mp hdone
    | postHandshake =>
      simp only [Polls, hstate] at hp
      cases hdone.symm.trans hp.1
    | inactive | proxyWrite | proxyRead | proxyDone => simp only [Polls, hstate] at hp
  · simp only [Polls, hstate] at hp
    exact hp.2.2.2.1
  · obtain ⟨d', hd', hc⟩ : ∃ d, h.download = some d ∧ Converses h d := hp.conversing htalk
    cases mem_unique hd hd'
    exact hc.2.mpr (.inr hpos)

variable {modes : EncryptionModes}

variable (host modes) in
structure Sound (h : Handshake) : Prop where
  steady : Steady h
  rests : Rests h
  orderly : Orderly host h
  secured : Footing.Secured modes (footing h)

variable (host modes) in
def SoundFate : Fate → Prop
  | .active h => Sound host modes h
  | .succeeded _ | .failed _ _ => True
  | .refused _ _ | .escaped _ _ => False

theorem soundFate_receiveFailed (hr : Footing.Retriable modes h.policy) : SoundFate host modes (receiveFailed h) := by
  obtain ⟨next, hnext, -⟩ := Link.retryPolicy_retriable hr
  rw [receiveFailed, hnext]
  trivial

theorem soundFate_handled {r : EStateM.Result HandshakeExit Handshake Unit} (hrest : EndsResting r)
    (hord : EndsOrderly host r) (hsec : EndsSecured modes r) : SoundFate host modes (handled r) := by
  rcases r with ⟨_, h⟩ | ⟨e, h⟩
  · exact ⟨hrest.1, hrest.2, hord, hsec⟩
  have hretry := hsec.1
  cases e with
  | succeeded =>
    rw [handled, receiveSucceeded, if_neg (not_lt.mpr hrest)]
    trivial
  | error | network => exact soundFate_receiveFailed hretry
  | internal | outOfBounds => exact hrest.elim

theorem Sound.event (e : SocketEvent) (hs : Sound host modes h) (heased : Eased h e) :
    SoundFate host modes (h.event host e) := by
  cases e with
  | readable a =>
    dsimp only [Handshake.event]
    split_ifs with hread
    · exact soundFate_handled (endsResting_eventRead hs.steady hs.orderly hread)
        (endsOrderly_eventRead hs.orderly hread) (endsSecured_eventRead hs.secured)
    · exact hs
  | writable a =>
    dsimp only [Handshake.event]
    split_ifs with hin
    · exact soundFate_handled (endsResting_eventWrite hs.steady hs.orderly hin heased.1 heased.2)
        (endsOrderly_eventWrite hs.orderly heased.1) (endsSecured_eventWrite hs.secured)
    · exact hs
  | broken => exact soundFate_receiveFailed hs.secured.retriable

theorem Sound.run (es : List SocketEvent) (hs : Sound host modes h) (heased : EasedRun host h es) :
    SoundFate host modes (h.run host es) := by
  induction es generalizing h with
  | nil => exact hs
  | cons e es ih =>
    have hfate := hs.event e heased.1
    have hrest := heased.2
    unfold Handshake.run
    cases hf : h.event host e with
    | active h' =>
      rw [hf] at hfate hrest
      exact ih hfate hrest
    | succeeded | failed => trivial
    | refused | escaped =>
      rw [hf] at hfate
      exact hfate.elim

theorem steady_start {p : EncryptionPolicy} (o : Origin) (hproxy : (o.start p).proxy = none) :
    Steady (o.start p) ∧ Rests (o.start p) := by
  cases o with
  | incoming =>
    refine ⟨⟨⟨rfl, nofun, le_refl 0, rfl⟩, ?_⟩, fun hno ↦ absurd rfl hno⟩
    cases hallow : p.allowEncryptedHandshake with
    | true | false => simp [start, initializeIncoming, hallow, Within, Polls, Listens]
  | outgoing d proxy =>
    refine ⟨⟨⟨hproxy, fun _ ↦ ⟨rfl, rfl⟩, le_refl 0, rfl⟩, ⟨le_refl 0, rfl⟩, rfl, rfl, rfl, rfl, rfl⟩, fun _ ↦ rfl⟩

theorem SoundFate.watched {f : Fate} (hf : SoundFate host modes f) : WatchedFate f := by
  cases f with
  | active h => exact hf.steady.watched hf.rests
  | succeeded | failed => trivial
  | refused | escaped => exact hf

end Runs

/-- For no exception to leave an event, and the socket to stay polled for all the work of a handshake, it is sufficient that
it has no proxy, a required stream is required of the handshake as well, the blocks of an encrypted bitfield are answered as
a whole, and the bitfield is not waiting for the socket while a port is read. -/
theorem run_watched (o : Origin) (p : EncryptionPolicy) (es : List SocketEvent) (hproxy : (o.start p).proxy = none)
    (hfresh : p.retryMode = .allow) (hrequired : p.streamMode = .require → p.handshakeMode = .require)
    (heased : EasedRun host (o.start p) es) : WatchedFate ((o.start p).run host es) := by
  have hretriable : Footing.Retriable (p.handshakeMode, p.streamMode) p :=
    ⟨fun hno ↦ absurd (hfresh.symm.trans hno) nofun, fun hno ↦ absurd (hfresh.symm.trans hno) nofun, id, id, id, hrequired⟩
  obtain ⟨hsteady, hrests⟩ := steady_start o hproxy
  have hsound : Sound host (p.handshakeMode, p.streamMode) (o.start p) :=
    ⟨hsteady, hrests, orderly_start o p, Link.secured_start o hretriable⟩
  exact (hsound.run es heased).watched

open Link (quietHost quietPeer)

theorem run_watched_plain : ∃ f, (Origin.incoming.start {}).run quietHost
    [.readable { bytes := quietPeer, reads := [some 20, some 48, some 5] },
      .writable { writes := [some ProtocolBuffer.reserved, some ProtocolBuffer.reserved] }] = f ∧
        (f matches .succeeded _) ∧ WatchedFate f := by
  have hstate : (match (Origin.incoming.start {}).event quietHost
      (.readable { bytes := quietPeer, reads := [some 20, some 48, some 5] }) with
      | .active h => decide (h.state ≠ readPort)
      | _ => true) = true := by decide +kernel
  refine ⟨_, rfl, by decide +kernel, run_watched .incoming {} _ rfl rfl nofun ⟨⟨trivial, trivial⟩, ?_⟩⟩
  revert hstate
  generalize (Origin.incoming.start {}).event quietHost _ = f
  intro hstate
  cases f with
  | active h =>
    refine ⟨⟨wholeEvent_of_room h, fun hs ↦ absurd hs (of_decide_eq_true hstate)⟩, ?_⟩
    split <;> trivial
  | succeeded | failed | refused | escaped => trivial

def quietPort : Bytes := quietPeer.take 68 ++ [0, 0, 0, 3, protocolPort]

/-- While a port is read, a writable event sends the write buffer only: the bitfield is given up, and with an empty write
buffer an exception leaves the event. -/
theorem run_unwatched : ¬ WatchedFate ((Origin.incoming.start {}).run quietHost
      [.readable { bytes := quietPort, reads := [some 20, some 48, some 5] }, .writable { writes := [some 1000] }]) ∧
    ¬ WatchedFate ((Origin.incoming.start {}).run quietHost
      [.readable { bytes := quietPort.take 68, reads := [some 20, some 48] }, .writable { writes := [some 1000, some 0] },
        .readable { bytes := quietPort.drop 68, reads := [some 5] }, .writable { writes := [some 1000] }]) := by
  constructor
  · have hends : (match (Origin.incoming.start {}).run quietHost
        [.readable { bytes := quietPort, reads := [some 20, some 48, some 5] }, .writable { writes := [some 1000] }] with
        | .active h => h.state = readPort && !h.inWrite && h.download.any fun d ↦ h.writePos ≠ d.bitfield.length
        | _ => false) = true := by decide +kernel
    revert hends
    generalize (Origin.incoming.start {}).run quietHost _ = f
    intro hends hwatched
    cases f with
    | active h =>
      simp only [Bool.and_eq_true, Option.any_eq_true, Bool.not_eq_true', decide_eq_true_eq] at hends
      obtain ⟨⟨hstate, hin⟩, d, hd, hpos⟩ := hends
      cases hin.symm.trans (hwatched.2.2.2 (by simp [hstate]) d hd hpos)
    | succeeded | failed | refused | escaped => cases hends
  · have hends : (match (Origin.incoming.start {}).run quietHost
        [.readable { bytes := quietPort.take 68, reads := [some 20, some 48] }, .writable { writes := [some 1000, some 0] },
          .readable { bytes := quietPort.drop 68, reads := [some 5] }, .writable { writes := [some 1000] }] with
        | .escaped _ (.internal _) => true
        | _ => false) = true := by decide +kernel
    revert hends
    generalize (Origin.incoming.start {}).run quietHost _ = f
    intro hends hwatched
    cases f with
    | escaped => exact hwatched
    | active | succeeded | failed | refused => cases hends

end LibTorrent.Handshake
