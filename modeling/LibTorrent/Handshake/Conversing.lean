import LibTorrent.Handshake.Steady

namespace LibTorrent.Handshake

open HandshakeState Lib.Decimal Lib.Program Option ProtocolBuffer

variable {host : Host} {h h₀ : Handshake}

section Sync

theorem endsAdvanced_syncFound {i : ℕ} (hs : Steady h) (hstate : h.state = readEncSync)
    (hi : i + h.sync.length ≤ h.readBuffer.remaining.length) : EndsAdvanced h (syncFound i h) := by
  obtain ⟨hf, hw, hp⟩ := hs
  simp only [Within, hstate] at hw
  simp only [Polls, hstate] at hp
  obtain ⟨hle, hpos, hend, -, hsync⟩ := hw
  rw [length_remaining] at hi
  refine .get_ite (fun hin ↦ ?_) fun hin ↦ ?_
  · have hsync' := hsync hin
    have ha := ahead_consume h (i + 20) (by omega)
    refine .modify_bind (.modify_bind (.pure ⟨⟨hf, ?_, hp⟩, fun _ ↦ readMeasure_lt hstate
      (Nat.le.intro ha) rfl, by simp⟩))
    simp only [Within, consume]
    omega
  have ha := ahead_consume h i (by omega)
  refine .modify_bind (.modify_bind (.pure ⟨⟨hf, ?_, hp,
    (hf.2.1 ((Bool.not_eq_true _).mp hin)).1⟩, fun _ ↦ readMeasure_lt hstate (Nat.le.intro ha) rfl, by simp⟩))
  simp only [Within, consume]
  omega

theorem endsAdvanced_readEncryptionSync (hs : Steady h) (hstate : h.state = readEncSync) :
    EndsAdvanced h (readEncryptionSync h) := by
  refine .get_bind ?_
  cases hfound : search h.sync h.readBuffer.remaining with
  | some i => exact endsAdvanced_syncFound hs hstate (search_le hfound)
  | none =>
    refine .ite (fun _ ↦ trivial) fun hroom ↦ (ends_readTo_tame _).bind fun _ h₁ ht ↦ .get_bind ?_
    obtain ⟨hf, hw, hp⟩ := hs
    have hb := hw.1
    simp only [Within, hstate] at hw
    obtain ⟨hpos, hgrow, hend, hahead⟩ := ht.sizes hb
    obtain ⟨hf₁, hp₁, hstate₁⟩ := ht.kept hf hp hstate
    have hsync : h₁.sync = h.sync := of_outside (fun h' ↦ h'.sync = h.sync) ht.outside rfl
    have hin : h₁.incoming = h.incoming := of_outside (fun h' ↦ h'.incoming = h.incoming) ht.outside rfl
    have hs₁ : Steady h₁ := by
      refine ⟨hf₁, ?_, hp₁⟩
      simp only [Within, hstate₁, hsync, hin]
      unfold encPadSize at hend
      exact ⟨by omega, by omega, by omega, hw.2.2.2⟩
    cases hfound₁ : search h₁.sync h₁.readBuffer.remaining with
    | some i =>
      exact (endsAdvanced_syncFound hs₁ hstate₁ (search_le hfound₁)).imp
        (fun _ _ ha ↦ ha.of_measure (ht.measure hb).le)
    | none => exact .pure ⟨hs₁, by simp, by simp⟩

end Sync

section Negotiation

theorem ends_validateDownload : Ends (validateDownload h) (fun d h' ↦ h' = h ∧ h.download = some d) Tame := by
  refine .get_bind ?_
  rcases hd : h.download with _ | d
  · trivial
  · exact .either trivial (.either trivial (.pure ⟨rfl, rfl⟩))

theorem endsAdvanced_readEncryptionSkey (hs : Steady h) (hstate : h.state = readEncSkey) :
    EndsAdvanced h (readEncryptionSkey host h) := by
  have hw := hs.2.1
  simp only [Within, hstate] at hw
  refine endsAdvanced_fill hs hstate (by unfold reserved; omega) ?_ ?_
  · rintro h₁ _ ⟨hpos, hgrow, hend, _⟩ hstate₁
    simp only [Within, hstate₁]
    omega
  rintro h₁ _ ⟨hpos, hgrow, hend, hahead⟩ hf₁ hp₁ hstate₁ hfull
  simp only [Polls, hstate₁] at hp₁
  have ha₁ := ahead_consume h₁ 20 (by omega)
  refine .modify_bind (ends_validateDownload.bind ?_)
  rintro d h₂ ⟨h₂eq, hd⟩
  have hf₂ : Founded h₂ := by
    rw [h₂eq]
    exact ⟨hf₁.1, fun hout ↦ ⟨isSome_of_eq_some hd, (hf₁.2.1 hout).2⟩, hf₁.2.2⟩
  have hl₂ : Listens h₂ := h₂eq ▸ hp₁
  have hd₂ : h₂.download.isSome = true := by
    rw [h₂eq]
    exact isSome_of_eq_some hd
  have hpos₂ : h₂.readBuffer.position = h₁.readBuffer.position + 20 := h₂eq ▸ rfl
  have hlen₂ : h₂.readBuffer.content.length = h₁.readBuffer.content.length := h₂eq ▸ rfl
  have ha₂ : ahead h₂ + 20 = ahead h₁ := by
    rw [h₂eq]
    exact ha₁
  refine .either trivial (.modify_bind (.modify_bind (.get_bind ?_)))
  refine Ends.bind (ends_decryptRead _ (show h₂.readBuffer.position ≤ h₂.readBuffer.content.length by omega))
    fun _ h₃ hs₃ ↦ (ends_queueEncrypted_stays _).bind fun _ h₄ hs₄ ↦ .modify_bind (.pure ?_)
  have hs : Stays h₂ h₄ := ((stays_info _).trans (stays_info _)).trans (hs₃.trans hs₄)
  have hpos₄ := hs.position
  have hlen₄ := hs.length
  have ha₄ := hs.ahead
  refine ⟨⟨hs.founded hf₂, ?_, hs.listens hf₂ hl₂, hs.download hd₂⟩, fun _ ↦ readMeasure_lt hstate ?_ rfl, by simp⟩
  · simp only [Within]
    omega
  · change ahead h₄ ≤ ahead h
    omega

theorem ends_startDecrypt_stays (hd : h.download.isSome = true) (hb : Behind h) :
    Ends (startDecrypt host h) (fun _ h' ↦ Stays h h') Tame := by
  obtain ⟨d, hd⟩ := isSome_iff_exists.mp hd
  refine .bind_of_ok (getDownload_eq hd) (.modify_bind ?_)
  exact Ends.imp (ends_decryptRead _ hb) (fun _ h' hs ↦ (stays_info _).trans hs)

theorem tame_selectedMode {e : HandshakeExit} (he : selectedMode h = .error e) : Tame e h := by
  unfold selectedMode at he
  split_ifs at he
  all_goals cases he; trivial

theorem ends_negotiateMode_stays (hb : Behind h) : Ends (negotiateMode host h) (fun _ h' ↦ Stays h h') Tame := by
  refine .get_either (.get_bind ?_) (.get_bind ?_)
  · cases hmode : selectedMode h with
    | error e => exact tame_selectedMode hmode
    | ok mode =>
      have hs : Stays h { h with crypto := mode } :=
        ⟨fun hf ↦ hf, fun _ hl ↦ hl, fun hd ↦ hd, rfl, rfl, rfl, rfl, rfl, rfl, rfl⟩
      exact .modify_bind (Ends.imp (ends_queueEncrypted_stays _) (fun _ _ hs' ↦ hs.trans hs'))
  · refine .either (.either trivial (ends_decryptRead _ hb)) ?_
    exact .either (.either trivial (ends_decryptRead _ hb)) trivial

theorem endsAdvanced_readEncryptionNegotiation (hs : Steady h) (hstate : h.state = readEncNegot) :
    EndsAdvanced h (readEncryptionNegotiation host h) := by
  have hw := hs.2.1
  simp only [Within, hstate] at hw
  unfold readEncryptionNegotiation encNegotiationSize
  refine endsAdvanced_fill hs hstate (by unfold reserved; omega) ?_ ?_
  · rintro h₁ _ ⟨hpos, hgrow, hend, _⟩ hstate₁
    simp only [Within, hstate₁]
    omega
  rintro h₁ _ ⟨hpos, hgrow, hend, hahead⟩ hf₁ hp₁ hstate₁ hfull
  simp only [Polls, hstate₁] at hp₁
  have hstart : Ends (onlyIf (!h₁.incoming) (startDecrypt host) h₁) (fun _ h' ↦ Stays h₁ h') Tame :=
    .either (ends_startDecrypt_stays hp₁.2 (by omega)) (.pure (stays_info _))
  refine .get_bind (hstart.bind fun _ h₂ hs₂ ↦ .get_either trivial ?_)
  have hpos₂ := hs₂.position
  have hlen₂ := hs₂.length
  have ha₂ := hs₂.ahead
  have hc := ahead_consume h₂ 14 (by omega)
  refine .modify_bind (.get_ite (fun _ ↦ trivial) fun hpad ↦ ?_)
  refine Ends.bind (ends_negotiateMode_stays ?_) fun _ h₃ hs₃ ↦ .modify_bind (.pure ?_)
  · change h₂.readBuffer.position + 14 ≤ h₂.readBuffer.content.length
    omega
  have hpos₃ : h₃.readBuffer.position = h₂.readBuffer.position + 14 := hs₃.position
  have hlen₃ : h₃.readBuffer.content.length = h₂.readBuffer.content.length := hs₃.length
  have ha₃ : ahead h₃ = ahead { h₂ with readBuffer := h₂.readBuffer.consume 14 } := hs₃.ahead
  have hread₃ := hs₃.readPos
  refine ⟨⟨hs₃.founded (hs₂.founded hf₁), ?_, hs₃.listens (hs₂.founded hf₁) (hs₂.listens hf₁ hp₁.1),
    hs₃.download (hs₂.download hp₁.2)⟩, fun _ ↦ readMeasure_lt hstate ?_ rfl, by simp⟩
  · simp only [Within]
    unfold encPadSize at hpad
    omega
  · change ahead h₃ ≤ ahead h
    omega

end Negotiation

section Payload

theorem endsAdvanced_settleStream (hf : Founded h) (hl : Listens h) (hb : Behind h)
    (hroom : h.readBuffer.position ≤ 1176 ∧ h.readBuffer.content.length ≤ 1244 ∧
      h.readBuffer.content.length ≤ h.readBuffer.position + 518)
    (ha : ahead h ≤ ahead h₀) {s : HandshakeState} (hstate : h₀.state = s) (hr : decide (rank readInfo < rank s) = true) :
    EndsAdvanced h₀ (settleStream h) := by
  have hinfo : Ends (onlyIf (h.crypto = 1) (modify fun h ↦ { h with info := h.info.setObfuscated }) h)
      (fun _ h' ↦ Stays h h') Tame := .either (.modify (stays_info _)) (.pure (stays_info _))
  refine .get_bind (hinfo.bind fun _ h₁ hs₁ ↦ .modify_bind (.pure ?_))
  have hpos := hs₁.position
  have hlen := hs₁.length
  refine ⟨⟨hs₁.founded hf, ?_, hs₁.listens hf hl⟩, fun _ ↦ readMeasure_lt hstate ?_ hr, nofun⟩
  · simp only [Within]
    omega
  · exact hs₁.ahead.trans_le ha

theorem endsAdvanced_readNegotiationReply (hs : Steady h) (hstate : h.state = readEncPad) (hpad : h.readPos = 0) :
    EndsAdvanced h (readNegotiationReply host h) := by
  obtain ⟨hf, hw, hp⟩ := id hs
  have hb := hw.1
  simp only [Within, hstate] at hw
  refine .get_either ?_ ?_
  · simp only [Polls, hstate] at hp
    exact endsAdvanced_settleStream hf hp.1 hb (by omega) le_rfl hstate rfl
  refine endsAdvanced_fill hs hstate (by unfold reserved; omega) ?_ ?_
  · rintro h₁ ht ⟨hpos, hgrow, hend, _⟩ hstate₁
    have hread := ht.readPos
    simp only [Within, hstate₁]
    omega
  rintro h₁ ht ⟨hpos, hgrow, hend, hahead⟩ hf₁ hp₁ hstate₁ hfull
  simp only [Polls, hstate₁] at hp₁
  have ha := ahead_consume h₁ 2 (by omega)
  refine .modify_bind (.get_ite (fun _ ↦ trivial) fun hia ↦ .modify_bind ?_)
  refine .pure ⟨⟨hf₁, ?_, hp₁⟩, fun _ ↦ readMeasure_lt hstate ((Nat.le.intro ha).trans hahead.le) rfl, by simp⟩
  simp only [Within, consume]
  exact ⟨by omega, by omega, by omega, by omega, Nat.not_lt.mp hia⟩

theorem endsAdvanced_readEncryptionPad (hs : Steady h) (hstate : h.state = readEncPad) :
    EndsAdvanced h (readEncryptionPad host h) := by
  refine .get_ite (fun hzero ↦ endsAdvanced_readNegotiationReply hs hstate hzero) fun hne ↦ ?_
  have hw := hs.2.1
  simp only [Within, hstate] at hw
  have htwo : (if h.incoming then 2 else 0) ≤ 2 := by split_ifs <;> decide
  refine endsAdvanced_fill hs hstate (by unfold reserved; omega) ?_ ?_
  · rintro h₁ ht ⟨hpos, hgrow, hend, _⟩ hstate₁
    have hread := ht.readPos
    simp only [Within, hstate₁]
    omega
  rintro h₁ ht ⟨hpos, hgrow, hend, hahead⟩ hf₁ hp₁ hstate₁ hfull
  have ha := ahead_consume h₁ (h.readPos) (by omega)
  refine .modify_bind (.modify_bind (Ends.imp (endsAdvanced_readNegotiationReply ⟨hf₁, ?_, ?_⟩ hstate₁ rfl)
    (fun _ _ hadv ↦ hadv.of_measure ?_)))
  · simp only [Within, consume, hstate₁]
    omega
  · exact hp₁
  change 16 * ahead { h₁ with readBuffer := h₁.readBuffer.consume h.readPos } + rank h₁.state ≤
    16 * ahead h + rank h.state
  have hrank : rank h₁.state = rank h.state := by rw [hstate₁, hstate]
  omega

theorem endsAdvanced_readEncryptionIa (hs : Steady h) (hstate : h.state = readEncIa) :
    EndsAdvanced h (readEncryptionIa host h) := by
  have hw := hs.2.1
  simp only [Within, hstate] at hw
  refine .get_bind (endsAdvanced_fill hs hstate (by unfold reserved; omega) ?_ ?_)
  · rintro h₁ ht ⟨hpos, hgrow, hend, _⟩ hstate₁
    have hia : h₁.lengthIa = h.lengthIa := of_outside (fun h' ↦ h'.lengthIa = h.lengthIa) ht.outside rfl
    simp only [Within, hstate₁]
    omega
  rintro h₁ _ ⟨hpos, hgrow, hend, hahead⟩ hf₁ hp₁ hstate₁ hfull
  simp only [Polls, hstate₁] at hp₁
  refine .get_either trivial ?_
  exact endsAdvanced_settleStream hf₁ hp₁.1 (by omega) (by omega) hahead.le hstate rfl

end Payload

section Info

theorem ends_checkInfoHash_stays (hash : Bytes) (hf : Founded h) :
    Ends (checkInfoHash host hash h) (fun _ h' ↦ Stays h h' ∧ h'.download.isSome = true) Tame := by
  refine .get_ite (fun hin ↦ ?_) fun hin ↦ .modify_bind ?_
  · have hlook : Ends (onlyIf h.download.isNone (modify fun h ↦ { h with download := host.downloadInfo hash }) h)
        (fun _ h' ↦ ∃ download, h' = { h with download := download }) Tame :=
      .either (.modify ⟨_, rfl⟩) (.pure ⟨_, rfl⟩)
    refine Ends.bind hlook ?_
    rintro _ _ ⟨download, rfl⟩
    refine .either trivial (ends_validateDownload.bind ?_)
    rintro d _ ⟨rfl, hd⟩
    have hs : Stays h { h with download := download } :=
      ⟨fun hf ↦ ⟨hf.1, fun hout ↦ absurd (hin.symm.trans hout) nofun, hf.2.2⟩, fun _ hl ↦ hl,
        fun _ ↦ isSome_of_eq_some hd, rfl, rfl, rfl, rfl, rfl, rfl, rfl⟩
    refine Ends.imp (ends_prepareHandshake_stays hd) (fun _ h' hs' ↦ ⟨hs.trans hs', ?_⟩)
    exact hs'.download (isSome_of_eq_some hd)
  · have hsome := (hf.2.1 ((Bool.not_eq_true _).mp hin)).1
    refine ends_getDownload_bind (fun hnone ↦ ?_) fun d hd ↦ ?_
    · exact absurd hsome (Option.not_isSome_iff_eq_none.mpr hnone)
    refine .either trivial (.pure ⟨?_, hsome⟩)
    exact ⟨fun hf ↦ hf, fun _ hl ↦ hl, fun hd ↦ hd, rfl, rfl, rfl, rfl, rfl, rfl, rfl⟩

theorem endsAdvanced_readHandshakeInfo (hs : Steady h) (hstate : h.state = readInfo) :
    EndsAdvanced h (readHandshakeInfo host h) := by
  obtain ⟨hf, hw, hp⟩ := hs
  have hb := hw.1
  simp only [Within, hstate] at hw
  refine Ends.bind (ends_fill _ hb (by unfold reserved handshakeSize; omega)) ?_
  rintro b h₁ ⟨ht, -⟩
  unfold handshakeSize at ht
  obtain ⟨hpos, hgrow, hend, hahead⟩ := ht.sizes hb
  obtain ⟨hf₁, hp₁, hstate₁⟩ := ht.kept hf hp hstate
  refine .get_either trivial (.ite (fun _ ↦ ?_) fun hlong ↦ ?_)
  · refine .pure ⟨⟨hf₁, ?_, hp₁⟩, by simp, by simp⟩
    simp only [Within, hstate₁]
    omega
  simp only [Polls, hstate₁] at hp₁
  rw [length_remaining] at hlong
  refine .modify_bind (Ends.bind (ends_checkInfoHash_stays _ hf₁) ?_)
  rintro _ h₂ ⟨hs₂, hd₂⟩
  have hpos₂ : h₂.readBuffer.position = h₁.readBuffer.position + 28 := hs₂.position
  have hlen₂ : h₂.readBuffer.content.length = h₁.readBuffer.content.length := hs₂.length
  have ha₁ := ahead_consume h₁ 28 (by omega)
  have ha₂ : ahead h₂ = ahead { h₁ with readBuffer := h₁.readBuffer.consume 28 } := hs₂.ahead
  have ha₃ := ahead_consume h₂ 20 (by omega)
  refine .modify_bind (.modify_bind (.pure ⟨⟨hs₂.founded hf₁, ?_, hs₂.listens hf₁ hp₁, hd₂⟩,
    fun _ ↦ readMeasure_lt hstate ?_ rfl, by simp⟩))
  · simp only [Within, consume]
    omega
  · change ahead { h₂ with readBuffer := h₂.readBuffer.consume 20 } ≤ ahead h
    omega

end Info

open Lib.ByteOrder Lib.Keystream List Nat

variable {d : HandshakeDownload}

theorem length_encoded (e : EncryptionInfo) (s : Bytes) : (encoded host e s).length = s.length := by
  unfold encoded
  split_ifs
  · exact length_crypt ..
  · rfl

theorem remaining_queued_ne_nil {s : Bytes} (hp : Placed h) (hs : s ≠ []) :
    (queued host s h).writeBuffer.remaining ≠ [] := by
  intro hnil
  have hr : (queued host s h).writeBuffer.remaining = h.writeBuffer.remaining ++ encoded host h.info s :=
    remaining_push hp
  rw [hr, append_eq_nil_iff] at hnil
  have hlen := congrArg List.length hnil.2
  rw [length_encoded] at hlen
  exact hs (eq_nil_of_length_eq_zero hlen)

section Peer

theorem ends_preparePeerInfo_tame (hd : h.download = some d) (hf : Founded h) : Ends (preparePeerInfo host h)
      (fun _ h' ↦ h' = { h with hasPeerInfo := true, readBuffer := h.readBuffer.consume 20 }) Tame := by
  refine .bind_of_ok (getDownload_eq hd) (.get_either trivial ?_)
  refine .ite (fun hno ↦ absurd ((hf.2.1 hno.2).2.symm.trans hno.1) nofun) fun _ ↦ .either trivial ?_
  refine .modify_bind (.either trivial (.modify_bind ?_))
  exact .either trivial (.pure rfl)

theorem ends_prepareMessages_tame (hd : h.download = some d) (hp : Placed h) : Ends (prepareMessages host h)
      (fun _ h' ↦ ∃ s pos, h' = { queued host s h with writePos := pos } ∧ h'.writeBuffer.remaining ≠ []) Tame := by
  refine .bind_of_ok (getDownload_eq hd) (.either ?_ ?_)
  · refine .modify_bind (ends_queue ⟨store .big 4 0, d.bitfield.length, rfl, ?_⟩)
    exact remaining_queued_ne_nil hp (by decide)
  · refine .bind_of_ok (getDownload_eq hd) (ends_queue_bind (.modify ⟨bitfieldHeader d, 0, rfl, ?_⟩))
    exact remaining_queued_ne_nil hp (by simp [bitfieldHeader])

theorem endsAdvanced_readHandshakePeer (hs : Steady h) (hstate : h.state = readPeer) :
    EndsAdvanced h (readHandshakePeer host h) := by
  have hw := hs.2.1
  simp only [Within, hstate] at hw
  refine endsAdvanced_fill hs hstate (by unfold reserved; omega) ?_ ?_
  · rintro h₁ _ ⟨hpos, hgrow, hend, _⟩ hstate₁
    simp only [Within, hstate₁]
    omega
  rintro h₁ _ ⟨hpos, hgrow, hend, hahead⟩ hf₁ hp₁ hstate₁ hfull
  simp only [Polls, hstate₁] at hp₁
  obtain ⟨d, hd⟩ := Option.isSome_iff_exists.mp hp₁.2
  have ha := ahead_consume h₁ 20 (by omega)
  refine Ends.bind (ends_preparePeerInfo_tame hd hf₁) ?_
  rintro _ h₂ rfl
  have hext : Ends (onlyIf h₁.supportsExtensions (writeExtensionHandshake host)
        { h₁ with hasPeerInfo := true, readBuffer := h₁.readBuffer.consume 20 })
      (fun _ h' ↦ ∃ s e, h' = { h₁ with
        hasPeerInfo := true, readBuffer := h₁.readBuffer.consume 20, writeBuffer := h₁.writeBuffer.push s, info := e }
        ∧ Placed h') Tame := by
    refine .either ?_ (.pure ⟨[], h₁.info, ?_, hf₁.2.2.1⟩)
    · refine ends_getDownload_bind (fun hnone ↦ absurd (hd.symm.trans hnone) (by simp)) fun _ _ ↦ ends_queue ⟨_, _, rfl, ?_⟩
      exact Placed.queued hf₁.2.2.1
    · unfold push
      rw [append_nil]
  refine .get_bind (Ends.bind hext ?_)
  rintro _ _ ⟨s, e, rfl, hplaced⟩
  refine Ends.bind (ends_prepareMessages_tame hd hplaced) ?_
  rintro _ h₃ ⟨t, pos, h₃eq, hne⟩
  refine .modify_bind (.pure ⟨⟨?_, ?_, ?_⟩, fun _ ↦ readMeasure_lt hstate ?_ rfl, by simp⟩)
  · subst h₃eq
    exact ⟨hf₁.1, fun hout ↦ ⟨hp₁.2, rfl⟩, Placed.queued hplaced, hf₁.2.2.2⟩
  · subst h₃eq
    simp only [Within, queued, consume]
    omega
  · refine ⟨d, ?_, ?_, fun _ ↦ .inl hne, fun _ ↦ rfl⟩
    · subst h₃eq
      exact hd
    · subst h₃eq
      exact ⟨fun _ ↦ hp₁.1.2.1, fun _ ↦ hp₁.1.1⟩
  · subst h₃eq
    exact (le.intro ha).trans hahead.le

end Peer

section Done

def Roomy (h : Handshake) : Prop :=
  h.readBuffer.position ≤ h.readBuffer.content.length ∧ h.readBuffer.content.length ≤ 1254 ∧
    h.readBuffer.content.length ≤ h.readBuffer.position + 450

theorem Roomy.tame (hr : Roomy h) : Tame .succeeded h := by
  change h.readBuffer.remaining.length ≤ 512
  unfold Roomy at hr
  rw [length_remaining]
  omega

theorem ends_preparePostHandshake_tame (mustWrite : Bool) (hf : Founded h) (hd : h.download = some d)
    (hpos : h.writePos = d.bitfield.length) (hdone : h.readDone = true) (hin : h.inRead = false) (hr : Roomy h) :
    Ends (preparePostHandshake host mustWrite h)
      (fun _ h' ↦ Steady h' ∧ h'.state = postHandshake ∧ h'.inWrite = h.inWrite) Tame := by
  refine .bind_of_ok (getDownload_eq hd) (.get_ite (fun hno ↦ absurd hpos hno) fun _ ↦ ?_)
  refine .modify_bind (ends_queue_bind ?_)
  have hplaced : Placed (queued host (postMessage host h mustWrite) { h with state := postHandshake }) :=
    Placed.queued hf.2.2.1
  refine .bind_of_ok (unsent_eq hplaced) (.ite (fun hnil ↦ ?_) fun hne ↦ ?_)
  · refine .modify_bind (.get_ite (fun _ ↦ hr.tame) fun hno ↦ absurd hdone hno)
  · exact .pure ⟨⟨⟨hf.1, hf.2.1, hplaced, hf.2.2.2⟩, hr, hdone, hin, hne⟩, rfl, rfl⟩

variable (hf : Founded h) (hd : h.download = some d) (hc : Converses h d) (hdone : h.readDone = false)
  (hr : Roomy h) (hstate : h.state = readMessage)
include hf hd hc hdone hr hstate

theorem ends_readFinished_tame : Ends (readFinished host h) (fun _ h' ↦ Steady h') Tame := by
  refine .get_ite (fun hyes ↦ absurd (hdone.symm.trans hyes) (by simp)) fun _ ↦ ?_
  refine .bind_of_ok (getDownload_eq hd) (.modify_bind ?_)
  refine Ends.bind (show Ends _ (fun _ h' ↦ Steady h') Tame from .ite (fun hpos ↦ ?_) fun _ ↦ ?_) fun _ h₁ hs₁ ↦ ?_
  · refine Ends.imp (ends_preparePostHandshake_tame _ hf hd (of_decide_eq_true hpos) rfl rfl hr) (fun _ _ hs ↦ hs.1)
  · refine .pure ⟨hf, ?_, ?_⟩
    · simp only [Within, hstate]
      exact hr
    · simp only [Polls, hstate]
      exact ⟨d, hd, ⟨by simp, by simp⟩, hc.2⟩
  · refine .get_ite (fun hyes ↦ absurd (hs₁.1.2.2.2.symm.trans hyes) (by simp)) fun _ ↦ .pure hs₁

theorem endsAdvanced_finish : EndsAdvanced h₀ ((do readFinished host; pure Next.stop : Part Next) h) :=
  (ends_readFinished_tame hf hd hc hdone hr hstate).bind fun _ _ hs ↦ .pure ⟨hs, nofun, nofun⟩

end Done

section Messages

/-- What a message after its first five bytes comes to: more of it is waited for, or it is taken. -/
structure Receives (h₀ : Handshake) (done : Bool) (h : Handshake) : Prop where
  outside : outside h = outside h₀
  waits : done = false → Within h
  roomy : done = true → Roomy h
  shrinks : done = true → 16 * ahead h + rank readMessage < readMeasure h₀

theorem Polls.converses (hp : Polls h) (hstate : h.state ∈ [readBitfield, readExt, readPort]) :
    h.readDone = false ∧ ∃ d, h.download = some d ∧ Converses h d := by
  simp only [mem_cons, not_mem_nil, or_false] at hstate
  obtain hs | hs | hs := hstate
  all_goals simpa only [Polls, hs] using hp

theorem endsAdvanced_messageDone {done : Bool} (hs : Steady h₀) (hstate : h₀.state ∈ [readBitfield, readExt, readPort])
    (hm : Receives h₀ done h) : EndsAdvanced h₀ (messageDone host done h) := by
  obtain ⟨hf, -, hp⟩ := hs
  have hf₁ : Founded h := of_outside Founded hm.outside hf
  have hp₁ : Polls h := of_outside Polls hm.outside hp
  cases done with
  | false => exact .pure ⟨⟨hf₁, hm.waits rfl, hp₁⟩, nofun, nofun⟩
  | true =>
    have hstate₁ : h.state ∈ [readBitfield, readExt, readPort] :=
      of_outside (fun h ↦ h.state ∈ [readBitfield, readExt, readPort]) hm.outside hstate
    obtain ⟨hdone, d, hd, hc⟩ := hp₁.converses hstate₁
    refine .modify_bind (.get_either ?_ ?_)
    · exact endsAdvanced_finish hf₁ hd hc hdone (hm.roomy rfl) rfl
    · exact .pure ⟨⟨hf₁, hm.roomy rfl, d, hd, hc⟩, fun _ ↦ hm.shrinks rfl, nofun⟩

theorem ends_readBitfieldPart (hs : Steady h) (hstate : h.state = readBitfield) (hd : h.download = some d) :
    Ends (readBitfieldPart host h) (Receives h) Tame := by
  have hw := hs.2.1
  simp only [Within, hstate] at hw
  have hread : Ends (onlyIf (h.readPos < d.bitfield.length) (do
        let t ← readUnthrottled (d.bitfield.length - h.readPos)
        let h' ← get
        let t' := if h'.info.decryptValid then decrypted host h'.info t else t
        modify fun h' ↦ { h' with
          bitfield := some (h.bitfield.getD [] ++ t')
          readPos := h'.readPos + t.length
          info := { h'.info with decryptPos := h'.info.decryptPos + if h'.info.decryptValid then t.length else 0 } }) h)
      (fun _ h' ↦ outside h' = outside h ∧ h'.readBuffer = h.readBuffer ∧ ahead h' ≤ ahead h) Tame := by
    refine .ite (fun hlt ↦ ?_) fun _ ↦ .pure ⟨rfl, rfl, le_rfl⟩
    have hlt' := of_decide_eq_true hlt
    refine Ends.bind ((ends_readUnthrottled (by omega)).mono (fun _ _ hh ↦ hh) ?_) ?_
    · rintro _ _ ⟨rfl, -⟩
      trivial
    rintro _ _ ⟨m, -, reads, rfl, rfl⟩
    refine .get_bind (.modify ⟨rfl, rfl, ?_⟩)
    change h.readBuffer.remaining.length + (h.socket.inbox.drop m).length ≤
      h.readBuffer.remaining.length + h.socket.inbox.length
    rw [length_drop]
    omega
  refine .get_bind (.bind_of_ok (getDownload_eq hd) (Ends.bind hread ?_))
  rintro _ h₁ ⟨ho, hb, ha⟩
  refine .get_bind (.pure ⟨ho, fun _ ↦ ?_, fun _ ↦ ?_, fun _ ↦ ?_⟩)
  · have hstate₁ : h₁.state = readBitfield := (congrArg state ho).trans hstate
    simpa only [Within, hstate₁, hb] using hw
  · rw [Roomy, hb]
    exact hw
  change _ < 16 * ahead h + rank h.state
  have hrank : rank h.state = rank readMessage + 1 := by rw [hstate]; rfl
  omega

theorem ends_makeRoom (hb : Behind h) (hend : h.readBuffer.content.length ≤ 1254) : Ends (makeRoom h)
      (fun _ h' ↦ ∃ b, h' = { h with readBuffer := b } ∧ b.position ≤ b.content.length ∧ b.content.length ≤ 1254 ∧
        b.remaining = h.readBuffer.remaining ∧ b.position + b.peek32 + 9 ≤ 1254) Tame := by
  have hfits : ∀ {b : ProtocolBuffer}, b.position ≤ b.content.length → b.content.length ≤ 1254 → fits b = true →
      b.position + b.peek32 + 9 ≤ 1254 := by
    intro b hb hend hfits
    have hle := of_decide_eq_true hfits
    unfold reservedLeft reserved at hle
    rw [length_remaining] at hle
    omega
  have hlen : h.readBuffer.remaining.length ≤ 1254 := by
    rw [length_remaining]
    omega
  refine .get_either trivial (.ite (fun hfit ↦ ?_) fun _ ↦ ?_)
  · exact .pure ⟨h.readBuffer, rfl, hb, hend, rfl, hfits hb hend hfit⟩
  · refine .modify_bind (.get_ite (fun hfit ↦ ?_) fun _ ↦ trivial)
    exact .pure ⟨_, rfl, zero_le _, hlen, rfl, hfits (zero_le _) hlen hfit⟩

/-- The first bytes of a message are there, and the rest is waited for. -/
def Pending (b : ProtocolBuffer) : Prop :=
  b.position ≤ b.content.length ∧ b.content.length ≤ 1254 ∧ b.position + 5 ≤ b.content.length ∧
    (b.content.length ≤ b.position + 450 ∨ b.content.length ≤ b.position + b.peek32 + 4)

theorem within_iff (hstate : h.state ∈ [readExt, readPort]) : Within h ↔ Pending h.readBuffer := by
  simp only [mem_cons, not_mem_nil, or_false] at hstate
  obtain hs | hs := hstate
  all_goals simp only [Within, hs, Pending]

theorem ends_awaitMessage (take : ℕ → Part Unit) (hs : Steady h) (hstate : h.state ∈ [readExt, readPort])
    (htake : ∀ h' : Handshake, Ends (take (h'.readBuffer.peek32 + 4) h')
      (fun _ h'' ↦ ∃ b, h'' = { h' with
        initialHandshake := b, readBuffer := h'.readBuffer.consume (h'.readBuffer.peek32 + 4) }) Tame) :
    Ends ((do
        makeRoom
        let h ← get
        if !(← fillReadBuffer host (h.readBuffer.peek32 + 4)) then pure false
        else do
          take (h.readBuffer.peek32 + 4)
          pure true : Part Bool) h) (Receives h) Tame := by
  have hw : Pending h.readBuffer := (within_iff hstate).mp hs.2.1
  unfold Pending at hw
  refine Ends.bind (ends_makeRoom hw.1 hw.2.1) ?_
  rintro _ _ ⟨b, rfl, hb, hend, hremaining, hroom⟩
  have hlen := congrArg List.length hremaining
  rw [length_remaining, length_remaining] at hlen
  have hpeek : b.peek32 = h.readBuffer.peek32 := by
    unfold peek32
    rw [hremaining]
  refine .get_bind (Ends.bind (ends_fill _ hb (by unfold reserved; dsimp only; omega)) ?_)
  rintro done h₁ ⟨ht, hfull⟩
  have hpeek₁ : h₁.readBuffer.peek32 = b.peek32 := ht.peek32 hb (by
    rw [length_remaining]
    dsimp only
    omega)
  have ho := ht.outside
  obtain ⟨hpos, hgrow, hle, hahead⟩ := ht.sizes hb
  have hahead₁ : ahead h₁ = ahead h := by
    rw [hahead]
    unfold ahead
    rw [hremaining]
  dsimp only at hpos hgrow hle hfull
  cases done with
  | false =>
    refine .pure ⟨ho, fun _ ↦ (within_iff ?_).mpr ?_, by simp, by simp⟩
    · exact of_outside (fun h ↦ h.state ∈ [readExt, readPort]) ho hstate
    · unfold Pending
      omega
  | true =>
    have hfull' := hfull.mp rfl
    have hc := ahead_consume h₁ (h₁.readBuffer.peek32 + 4) (by omega)
    rw [← hpeek₁]
    refine Ends.bind (htake h₁) ?_
    rintro _ _ ⟨b', rfl⟩
    refine .pure ⟨ho, by simp, fun _ ↦ ?_, fun _ ↦ ?_⟩
    · simp only [Roomy, consume]
      omega
    change 16 * ahead { h₁ with readBuffer := h₁.readBuffer.consume (h₁.readBuffer.peek32 + 4) } + 3 <
      16 * ahead h + rank h.state
    omega

theorem ends_readExtension (hs : Steady h) (hstate : h.state = readExt) :
    Ends (readExtension host h) (Receives h) Tame := by
  refine ends_awaitMessage (fun _ ↦ takeExtension host) hs (by simp [hstate]) fun h' ↦ ?_
  refine .get_either trivial ?_
  rcases host.parseExtension _ _ with _ | isHandshake
  · trivial
  · exact .modify ⟨_, rfl⟩

theorem endsAdvanced_startBitfield (hf : Founded h) (hd : h.download = some d) (hc : Converses h d)
    (hdone : h.readDone = false) (hr : Roomy h) (hlong : 5 ≤ h.readBuffer.remaining.length) (ha : ahead h ≤ ahead h₀) :
    EndsAdvanced h₀ (startBitfield h) := by
  refine .get_bind (.bind_of_ok (getDownload_eq hd) (.either trivial ?_))
  have hlen : ((h.readBuffer.remaining.drop 5).take d.bitfield.length).length ≤ h.readBuffer.remaining.length - 5 := by
    rw [length_take, length_drop]
    exact min_le_right _ _
  generalize (h.readBuffer.remaining.drop 5).take d.bitfield.length = s at hlen
  rw [length_remaining] at hlen hlong
  have hconsume := ahead_consume h (5 + s.length) (by omega)
  refine .modify_bind (.pure ⟨⟨hf, ?_, hdone, d, hd, hc⟩, fun _ ↦ ?_, nofun⟩)
  · unfold Roomy at hr
    simp only [Within, consume]
    omega
  · change 16 * ahead { h with readBuffer := h.readBuffer.consume (5 + s.length) } + 4 < 16 * ahead h₀ + rank h₀.state
    omega

theorem advances_message {state : HandshakeState} (hs : state ∈ [readExt, readPort]) (hf : Founded h)
    (hd : h.download = some d) (hc : Converses h d) (hdone : h.readDone = false) (hr : Roomy h)
    (hlong : 5 ≤ h.readBuffer.remaining.length) (ha : ahead h ≤ ahead h₀) (hstate : h₀.state = readMessage) :
    Advances h₀ .again { h with readPos := 0, state := state } := by
  rw [length_remaining] at hlong
  unfold Roomy at hr
  simp only [mem_cons, not_mem_nil, or_false] at hs
  refine ⟨⟨hf, ?_, ?_⟩, fun _ ↦ readMeasure_lt hstate ha ?_, nofun⟩
  · obtain rfl | rfl := hs
    all_goals
      simp only [Within]
      omega
  · obtain rfl | rfl := hs
    all_goals exact ⟨hdone, d, hd, hc⟩
  · obtain rfl | rfl := hs
    all_goals rfl

theorem endsAdvanced_readMessagePart (hs : Steady h) (hstate : h.state = readMessage) (hread : h.inRead = true) :
    EndsAdvanced h (readMessagePart host h) := by
  obtain ⟨hf, hw, hp⟩ := hs
  simp only [Within, hstate] at hw
  simp only [Polls, hstate] at hp
  obtain ⟨d, hd, hc⟩ := hp
  have hdone : h.readDone = false := hc.1.mpr hread
  refine .bind_of_ok (getDownload_eq hd) (.either ?_ ?_)
  · exact .modify_bind (endsAdvanced_finish hf hd hc hdone hw hstate)
  obtain ⟨b, hbuffer, hb, hend, hremaining, hroom⟩ : ∃ b,
      (if h.readBuffer.reservedLeft < 5 then h.readBuffer.moveUnused else h.readBuffer) = b ∧
      b.position ≤ b.content.length ∧ b.content.length ≤ 1254 ∧ b.remaining = h.readBuffer.remaining ∧
      b.position + 5 ≤ 1254 := by
    refine ⟨_, rfl, ?_⟩
    split_ifs with hleft
    · refine ⟨zero_le _, ?_, rfl, ?_⟩
      · change h.readBuffer.remaining.length ≤ 1254
        rw [length_remaining]
        omega
      · change 0 + 5 ≤ 1254
        decide
    · unfold reservedLeft reserved at hleft
      exact ⟨hw.1, hw.2.1, rfl, by omega⟩
  have hlen := congrArg List.length hremaining
  rw [length_remaining, length_remaining] at hlen
  refine .modify_bind ?_
  rw [hbuffer]
  refine Ends.bind (ends_fill 5 hb hroom) ?_
  rintro _ h₁ ⟨ht, -⟩
  have ho := ht.outside
  obtain ⟨hpos, hgrow, hle, hahead⟩ := ht.sizes hb
  have hahead₁ : ahead h₁ = ahead h := by
    rw [hahead]
    unfold ahead
    rw [hremaining]
  dsimp only at hpos hgrow hle
  have hf₁ : Founded h₁ := of_outside Founded ho hf
  have hd₁ : h₁.download = some d := (congrArg download ho).trans hd
  have hc₁ : Converses h₁ d := of_outside (Converses · d) ho hc
  have hdone₁ : h₁.readDone = false := (congrArg readDone ho).trans hdone
  have hstate₁ : h₁.state = readMessage := (congrArg state ho).trans hstate
  have hr₁ : Roomy h₁ := by
    unfold Roomy
    omega
  refine .get_ite (fun hfour ↦ ?_) fun _ ↦ .ite (fun _ ↦ ?_) fun hlong ↦ ?_
  · refine .modify_bind (endsAdvanced_finish hf₁ hd₁ hc₁ hdone₁ ?_ hstate₁)
    have hfour' := hfour.1
    rw [length_remaining] at hfour'
    unfold Roomy at hr₁ ⊢
    simp only [consume]
    omega
  · refine .pure ⟨⟨hf₁, ?_, ?_⟩, by simp, by simp⟩
    · simp only [Within, hstate₁]
      exact hr₁
    · simp only [Polls, hstate₁]
      exact ⟨d, hd₁, hc₁⟩
  have hlong' := not_lt.mp hlong
  refine .either ?_ (.either ?_ (.either ?_ ?_))
  · exact endsAdvanced_startBitfield hf₁ hd₁ hc₁ hdone₁ hr₁ hlong' hahead₁.le
  · exact .modify_bind (.pure
      (advances_message (by simp) hf₁ hd₁ hc₁ hdone₁ hr₁ hlong' hahead₁.le hstate))
  · exact .modify_bind (.pure
      (advances_message (by simp) hf₁ hd₁ hc₁ hdone₁ hr₁ hlong' hahead₁.le hstate))
  · exact .modify_bind (endsAdvanced_finish hf₁ hd₁ hc₁ hdone₁ hr₁ hstate₁)

end Messages

section States

theorem endsAdvanced_readStep (hs : Steady h) (hread : h.inRead = true) : EndsAdvanced h (readStep host h) := by
  have hp := hs.2.2
  refine .get_bind ?_
  cases hstate : h.state with
  | readEncKey => exact endsAdvanced_readEncryptionKey hs hstate
  | readEncSync => exact endsAdvanced_readEncryptionSync hs hstate
  | readEncSkey => exact endsAdvanced_readEncryptionSkey hs hstate
  | readEncNegot => exact endsAdvanced_readEncryptionNegotiation hs hstate
  | readEncPad => exact endsAdvanced_readEncryptionPad hs hstate
  | readEncIa => exact endsAdvanced_readEncryptionIa hs hstate
  | readInfo => exact endsAdvanced_readHandshakeInfo hs hstate
  | readPeer => exact endsAdvanced_readHandshakePeer hs hstate
  | readMessage => exact endsAdvanced_readMessagePart hs hstate hread
  | readBitfield =>
    simp only [Polls, hstate] at hp
    obtain ⟨-, d, hd, -⟩ := hp
    exact (ends_readBitfieldPart hs hstate hd).bind fun _ _ hm ↦ endsAdvanced_messageDone hs (by simp [hstate]) hm
  | readExt => exact (ends_readExtension hs hstate).bind fun _ _ hm ↦ endsAdvanced_messageDone hs (by simp [hstate]) hm
  | readPort =>
    refine (ends_awaitMessage consumeRead hs (by simp [hstate]) fun h' ↦ .modify ⟨h'.initialHandshake, rfl⟩).bind ?_
    exact fun _ _ hm ↦ endsAdvanced_messageDone hs (by simp [hstate]) hm
  | postHandshake | connecting =>
    simp only [Polls, hstate] at hp
    cases hread.symm.trans hp.2.1
  | inactive | proxyWrite | proxyRead | proxyDone => simp only [Polls, hstate] at hp

end States

end LibTorrent.Handshake
