import LibTorrent.Peer.Choking

namespace LibTorrent

open Lib.Outcome

/-- The interest that the messages announce: that of the last one which speaks of it. -/
def announced (messages : List Message) : Bool :=
  messages.foldl
    (fun shown m ↦
      match m with
      | .interested => true
      | .notInterested => false
      | _ => shown) false

namespace Message

def isInterest : Message → Bool
  | .interested | .notInterested => true
  | _ => false

def indices (ms : List Message) : List ℕ :=
  ms.filterMap fun
    | .have index => some index
    | _ => none

theorem indices_append (ms ms' : List Message) : indices (ms ++ ms') = indices ms ++ indices ms' :=
  List.filterMap_append

end Message

/-- A connection's interest in its peer: what is to be sent, what it is and what was announced, its status in the choke
queue, and whether the peer has unchoked it. -/
structure Interest where
  type : ConnectionType
  send : Bool
  down : Bool
  shown : Bool
  choke : ChokeStatus
  remote : Bool

namespace Interest

/-- Only an interested connection is unchoked, and only one that the peer has unchoked is queued. -/
structure Sound (v : Interest) : Prop where
  listed : v.choke.Listed
  snubbed : v.choke.snubbed = false
  queued : v.choke.queued = true → v.remote = true
  unchoked : v.choke.unchoked = true → v.down = true

def Announces (v : Interest) : Prop := v.send = false → v.shown = v.down

variable {v : Interest} {choke : Bool}

def slot (choke : Bool) (v : Interest) : Interest :=
  if choke then { v with send := if v.remote then v.down else v.send, down := !v.remote && v.down }
  else { v with send := !v.down || v.send, down := true }

theorem Announces.slot (h : v.Announces) (hdown : choke = true → v.down = true) : (v.slot choke).Announces := by
  cases choke with
  | true =>
    cases hremote : v.remote with
    | true => simp [slot, Announces, hremote, hdown rfl]
    | false => simpa [slot, Announces, hremote] using h
  | false =>
    cases hv : v.down with
    | true => simpa [slot, Announces, hv] using h
    | false => simp [slot, Announces, hv]

end Interest

namespace PeerConnection

def interest (s : PeerConnection) : Interest :=
  ⟨s.type, s.sendInterested, s.downInterested, announced s.written, s.downChoke, s.downUnchoked⟩

structure Base where
  interest : Interest
  now : ℕ
  haveQueue : List (ℕ × ℕ)
  upState : UploadState
  position : ℕ

structure Core extends Base where
  upChoke : ChokeStatus
  haveTimer : ℕ
  told : List ℕ

open Message

def core (s : PeerConnection) : Core :=
  ⟨⟨s.interest, s.now, s.haveQueue, s.upState, s.position⟩, s.upChoke, s.haveTimer, indices s.written⟩

/-- What the peer is told of the have queue depends on. -/
structure Outgoing where
  type : ConnectionType
  now : ℕ
  haveQueue : List (ℕ × ℕ)
  haveTimer : ℕ
  told : List ℕ

def Core.outgoing (v : Core) : Outgoing := ⟨v.interest.type, v.now, v.haveQueue, v.haveTimer, v.told⟩

structure Base.Sound (v : Base) : Prop where
  interest : v.interest.Sound
  position : v.upState ≠ .msg → v.position = 0
  sorted : v.haveQueue.Pairwise fun h h' ↦ h'.1 < h.1

/-- The lists agree with the status, interest is sound, the buffer is written from its start, and the have queue has
its newest entries first. -/
structure Core.Sound (v : Core) : Prop extends v.toBase.Sound where
  up : v.upChoke.Listed

variable {s t u : PeerConnection}

section Frame

theorem announced_append (l : List Message) {m : Message} (h : m.isInterest = false) :
    announced (l ++ [m]) = announced l := by
  rw [announced, List.foldl_append, announced]
  cases m <;> first | rfl | exact absurd h nofun

theorem base_have (s : PeerConnection) (index : ℕ) : (s.write (.have index)).core.toBase = s.core.toBase := by
  rw [core, interest, write, announced_append s.written rfl]
  rfl

theorem core_write (s : PeerConnection) (m : Message) (h : m.isInterest = false) (hnone : indices [m] = []) :
    (s.write m).core = s.core := by
  rw [core, interest, write, announced_append s.written h, indices_append, hnone, List.append_nil]
  rfl

theorem core_writeInsertPollSafe (s : PeerConnection) : s.writeInsertPollSafe.core = s.core := by
  rw [polling_writeInsertPollSafe]
  rfl

theorem sound_of_base (h : t.core.toBase = s.core.toBase) (hlisted : t.upChoke.Listed) (hs : s.core.Sound) :
    t.core.Sound :=
  ⟨h ▸ hs.toSound, hlisted⟩

/-- The core is as it was, and the buffer is not shorter. -/
structure Kept (s t : PeerConnection) : Prop where
  core : t.core = s.core
  bufferEnd : s.bufferEnd ≤ t.bufferEnd

theorem Kept.refl (s : PeerConnection) : Kept s s := ⟨rfl, le_rfl⟩

theorem Kept.trans (h : Kept s t) (h' : Kept t u) : Kept s u :=
  ⟨h'.core.trans h.core, h.bufferEnd.trans h'.bufferEnd⟩

theorem kept_write (s : PeerConnection) (m : Message) (h : m.isInterest = false) (hnone : indices [m] = []) :
    Kept s (s.write m) :=
  ⟨core_write s m h hnone, Nat.le_add_right ..⟩

structure UpKept (s t : PeerConnection) : Prop where
  core : t.core = { s.core with upChoke := t.upChoke }
  listed : t.upChoke.Listed
  bufferEnd : s.bufferEnd ≤ t.bufferEnd

theorem upChange_eq {choke : Bool} (h : upQueue.Change ActsUp choke s t) :
    t = { s with upChoke := t.upChoke, sendChoked := t.sendChoked, polling := t.polling } ∧
      (s.sendChoked = true ∨ s.upChoke.unchoked ≠ t.upChoke.unchoked → t.sendChoked = true) := by
  cases h with
  | set c hc => exact ⟨rfl, fun h ↦ h.resolve_right (not_not.mpr hc.symm)⟩
  | slot c c' hs hact hc' =>
    rw [hact]
    exact ⟨rfl, fun _ ↦ rfl⟩

theorem upKept_of_change {choke : Bool} (h : upQueue.Change ActsUp choke s t) (hlisted : t.upChoke.Listed) :
    UpKept s t :=
  ⟨congrArg PeerConnection.core (upChange_eq h).1, hlisted, (congrArg PeerConnection.bufferEnd (upChange_eq h).1).ge⟩

theorem Kept.upKept (h : Kept s t) (hs : s.upChoke.Listed) : UpKept s t := by
  have hup : t.upChoke = s.upChoke := congrArg Core.upChoke h.core
  refine ⟨?_, hup ▸ hs, h.bufferEnd⟩
  rw [h.core, hup]
  rfl

theorem UpKept.base (h : UpKept s t) : t.core.toBase = s.core.toBase := by rw [h.core]

theorem UpKept.outgoing (h : UpKept s t) : t.core.outgoing = s.core.outgoing := by
  rw [h.core]
  rfl

theorem UpKept.trans (h : UpKept s t) (h' : UpKept t u) : UpKept s u := by
  refine ⟨?_, h'.listed, h.bufferEnd.trans h'.bufferEnd⟩
  rw [h'.core, h.core]

theorem core_fillChoke (s : PeerConnection) : s.fillChoke.core = s.core := by
  rw [fillChoke]
  split_ifs
  · exact core_write s .choke rfl rfl
  · exact core_write s .unchoke rfl rfl
  · rfl

/-- Requests are written to the buffer, and nothing else is done. -/
structure Requests (s t : PeerConnection) : Prop extends Kept s t where
  eq : t = { s with written := t.written, bufferEnd := t.bufferEnd }

theorem Requests.refl (s : PeerConnection) : Requests s s := ⟨.refl s, rfl⟩

theorem Requests.trans (h : Requests s t) (h' : Requests t u) : Requests s u := by
  refine ⟨h.toKept.trans h'.toKept, ?_⟩
  rw [h'.eq, h.eq]

theorem requests_foldl (pieces : List Piece) (s : PeerConnection) :
    Requests s (pieces.foldl (fun s p ↦ s.write (.request p)) s) := by
  induction pieces generalizing s with
  | nil => exact .refl s
  | cons p pieces ih => exact .trans ⟨kept_write s (.request p) rfl rfl, rfl⟩ (ih _)

theorem requests_requestRounds (rounds : List (List Piece)) (success : Bool) (s : PeerConnection) :
    Requests s (requestRounds rounds success s).2 := by
  induction rounds generalizing success s with
  | nil => exact .refl s
  | cons pieces rounds ih =>
    rw [requestRounds]
    split_ifs
    · split
      · exact .refl s
      · exact (requests_foldl _ s).trans (ih _ _)
    · exact .refl s

variable (i : FillInput)

theorem requests_tryRequestPieces (s : PeerConnection) : Requests s (s.tryRequestPieces i).2 := by
  rw [tryRequestPieces]
  split_ifs
  · exact .refl s
  · exact requests_requestRounds ..

theorem base_writeHaves (haves : List (ℕ × ℕ)) (s : PeerConnection) :
    (writeHaves haves s).core.toBase = s.core.toBase ∧ (writeHaves haves s).upChoke = s.upChoke := by
  induction haves generalizing s with
  | nil => exact ⟨rfl, rfl⟩
  | cons h haves ih =>
    have hwrite : ({ s.write (.have h.2) with haveTimer := h.1 + 1 } : PeerConnection).core.toBase = s.core.toBase :=
      base_have s h.2
    rw [writeHaves]
    split_ifs
    · exact ⟨(ih _).1.trans hwrite, (ih _).2⟩
    · exact ⟨hwrite, rfl⟩

theorem base_fillHaves (s : PeerConnection) :
    s.fillHaves.core.toBase = s.core.toBase ∧ s.fillHaves.upChoke = s.upChoke := by
  rw [fillHaves]
  split
  · exact ⟨rfl, rfl⟩
  split_ifs
  · exact base_writeHaves ..
  · exact ⟨rfl, rfl⟩

theorem yields_fillOffer (s : PeerConnection) :
    Yields (s.fillOffer i) fun t ↦ t.core.toBase = s.core.toBase ∧ t.upChoke = s.upChoke := by
  refine .either ?_ ⟨rfl, rfl⟩
  rw [offerChunk]
  split
  · exact ⟨rfl, rfl⟩
  · exact not_false
  · rename_i index size _
    exact .either ⟨rfl, rfl⟩ ⟨base_have s index, rfl⟩

theorem kept_writeCancels (queue : List Piece) (s : PeerConnection) : Kept s (writeCancels queue s) := by
  induction queue generalizing s with
  | nil => exact ⟨rfl, le_rfl⟩
  | cons p queue ih =>
    rw [writeCancels]
    split_ifs
    · exact (kept_write s (.cancel p) rfl rfl).trans (ih _)
    · exact ⟨rfl, le_rfl⟩

theorem kept_fillCancels (s : PeerConnection) : Kept s s.fillCancels := by
  rw [fillCancels]
  split_ifs
  · exact kept_writeCancels ..
  · exact .refl s

theorem yields_writePreparePiece (s : PeerConnection) : Yields (s.writePreparePiece i) (Kept s) := by
  rw [writePreparePiece]
  split
  · exact .refl s
  · rename_i p queue _
    exact .either not_false ⟨core_write s (.piece p) rfl rfl, Nat.le_add_right ..⟩

theorem yields_shouldUpload (h : s.upChoke.Listed) : Yields (s.shouldUpload i) fun r ↦ UpKept s r.2 := by
  have hkept {t : PeerConnection} (ht : Kept s t) : UpKept s t := ht.upKept h
  rw [shouldUpload]
  split
  · have hset := slots_upQueue.ensures_setNotQueued (s := ({ s with uploadQueue := [] } : PeerConnection)) h
    refine hset.always.bind fun t ⟨ht, hlisted, _⟩ ↦ ?_
    refine (slots_upQueue.ensures_setQueued i.room t.now hlisted).always.bind fun u ⟨hu, hlisted', _⟩ ↦ ?_
    have hclear : UpKept s { s with uploadQueue := [] } := hkept ⟨rfl, le_rfl⟩
    exact hclear.trans ((upKept_of_change ht hlisted).trans (upKept_of_change hu hlisted'))
  refine .either (.ok ?_) (hkept ⟨rfl, le_rfl⟩)
  split_ifs <;> exact hkept ⟨rfl, le_rfl⟩

theorem yields_fillPiece (h : s.upChoke.Listed) : Yields (s.fillPiece i) (UpKept s) := by
  refine .either (.either ?_ ?_) ((Kept.refl s).upKept h)
  · refine (yields_shouldUpload i h).bind fun r hr ↦ .either ?_ hr
    exact (yields_writePreparePiece i r.2).mono fun t ht ↦ hr.trans (ht.upKept hr.listed)
  · exact (yields_writePreparePiece i s).mono fun t ht ↦ ht.upKept h

theorem yields_fillExtension (h : s.upChoke.Listed) : Yields (s.fillExtension i) (UpKept s) := by
  rw [fillExtension]
  split
  · rename_i length _
    have hwrite : Kept s (s.sendExtMessage length) :=
      ⟨core_write s (.extension s.extensions.metadataId length) rfl rfl, Nat.le_add_right ..⟩
    exact .either (hwrite.upKept h) (yields_fillPiece i h)
  · exact yields_fillPiece i h

theorem yields_sendPexMessage (s : PeerConnection) : Yields (s.sendPexMessage i) fun r ↦ Kept s r.2 := by
  have hsame (mask : PexMask) : Kept s { s with sendPexMask := mask } := ⟨rfl, le_rfl⟩
  refine .either (hsame _) (.either (.either not_false ?_) (.either (.either (hsame _) ?_) (hsame _)))
  · exact ⟨core_write s (.extension 0 toggleLength) rfl rfl, Nat.le_add_right ..⟩
  · exact ⟨core_write s (.extension s.extensions.pexId i.pexLength) rfl rfl, Nat.le_add_right ..⟩

theorem yields_fillLast (h : s.upChoke.Listed) : Yields (s.fillLast i) (UpKept s) := by
  refine .either ?_ (yields_fillExtension i h)
  refine (yields_sendPexMessage i s).bind fun r hr ↦ ?_
  have hkept := hr.upKept h
  exact .either hkept ((yields_fillExtension i hkept.listed).mono fun t ht ↦ hkept.trans ht)

end Frame

section Write

/-- A turn of writing: the rest is as it was, and the buffer is written from its start again once it is empty. -/
structure Wrote (s t : PeerConnection) : Prop where
  core : t.core = { s.core with upState := t.upState, position := t.position }
  position : t.upState ≠ .msg → t.position = 0

theorem Wrote.interest (h : Wrote s t) : t.interest = s.interest := congrArg (fun v ↦ v.interest) h.core

theorem Wrote.sound (h : Wrote s t) (hs : s.core.Sound) : t.core.Sound := by
  rw [h.core]
  exact ⟨⟨hs.interest, h.position, hs.sorted⟩, hs.up⟩

theorem wrote_upChunk (i : TurnInput) (h : s.position = 0) : Wrote s (s.upChunk i).2 := by
  rw [upChunk]
  dsimp only
  split_ifs <;> exact ⟨rfl, fun _ ↦ h⟩

theorem applyExtension_eq (e : ExtensionEffect) (s : PeerConnection) :
    s.applyExtension e = { s with extensions := (s.applyExtension e).extensions } := by
  cases e with
  | handshake pex metadata => rfl
  | reply length =>
    rw [applyExtension]
    split <;> rfl
  | other => rfl

theorem yields_upExtension (i : TurnInput) (h : s.position = 0) :
    Yields (s.upExtension i) fun r ↦ Wrote s r.2 := by
  refine .either not_false (.either ⟨rfl, fun _ ↦ h⟩ ?_)
  rw [applyExtension_eq]
  exact ⟨rfl, fun _ ↦ h⟩

theorem wrote_writeMsg (i : TurnInput) (h : s.upState = .msg) : Wrote s (s.writeMsg i).2 := by
  rw [writeMsg]
  dsimp only
  split_ifs
  · exact ⟨rfl, fun hne ↦ absurd h hne⟩
  split
  · have hpiece := wrote_upChunk i (s := { s with position := 0, bufferEnd := 0, upState := .writePiece }) rfl
    exact ⟨hpiece.core, hpiece.position⟩
  · exact ⟨rfl, fun _ ↦ rfl⟩
  · exact ⟨rfl, fun _ ↦ rfl⟩

end Write

open Interest

variable {choke : Bool}

section Downloads

theorem downChange_eq (h : downQueue.Change ActsDown choke s t) :
    t = { s with
      downChoke := t.downChoke, polling := t.polling, tryRequest := t.tryRequest
      sendInterested := t.sendInterested, downInterested := t.downInterested } := by
  cases h with
  | set c hc => rfl
  | slot c c' hs hact hc' => cases choke <;> rw [hact] <;> rfl

theorem core_downChange (h : downQueue.Change ActsDown choke s t) :
    t.core = { s.core with interest := t.interest } ∧
      (t.downChoke.unchoked = s.downChoke.unchoked ∧ t.interest = { s.interest with choke := t.downChoke } ∨
        s.downChoke.unchoked = choke ∧ t.downChoke.unchoked = (!choke) ∧
          t.interest = { s.interest.slot choke with choke := t.downChoke }) := by
  cases h with
  | set c hc => exact ⟨rfl, .inl ⟨hc, rfl⟩⟩
  | slot c c' hs hact hc' =>
    cases choke with
    | true =>
      rw [hact]
      exact ⟨rfl, .inr ⟨hs, hc', rfl⟩⟩
    | false =>
      rw [hact]
      exact ⟨rfl, .inr ⟨hs, hc', rfl⟩⟩

variable (h : downQueue.Change ActsDown choke s t)
  (hdown : s.downChoke.unchoked = true → s.downInterested = true)
include h hdown

theorem announces_downChange (hs : s.interest.Announces) : t.interest.Announces := by
  obtain ⟨-, ⟨-, ht⟩ | ⟨hu, -, ht⟩⟩ := core_downChange h
  · rw [ht]
    exact hs
  · rw [ht]
    exact hs.slot fun hchoke ↦ hdown (hu.trans hchoke)

theorem sound_downChange (hlisted : t.downChoke.Listed)
    (hsnub : t.downChoke.snubbed = false) (hqueued : t.downChoke.queued = true → s.downUnchoked = true) :
    t.interest.Sound := by
  obtain ⟨-, ⟨hu, ht⟩ | ⟨-, hu, ht⟩⟩ := core_downChange h
  · rw [ht]
    exact ⟨hlisted, hsnub, hqueued, fun hunchoked ↦ hdown (hu ▸ hunchoked)⟩
  rw [ht]
  cases choke with
  | true => exact ⟨hlisted, hsnub, hqueued, fun hunchoked ↦ absurd (hu.symm.trans hunchoked) (by decide)⟩
  | false => exact ⟨hlisted, hsnub, hqueued, fun _ ↦ rfl⟩

end Downloads

/-- A step that keeps the connection sound and drops no change of interest, if `kept` holds. -/
structure Advances (kept : Prop) (s t : PeerConnection) : Prop where
  sound : t.core.Sound
  announces : s.interest.Announces → (t.interest.Announces ↔ kept)

theorem advances_of_interest (ht : t.core.Sound) (h : t.interest = s.interest) : Advances True s t :=
  ⟨ht, fun hs ↦ iff_true_intro (h.symm ▸ hs)⟩

theorem advances_of_core (hs : s.core.Sound) (h : t.core = s.core) : Advances True s t :=
  advances_of_interest (h.symm ▸ hs) (congrArg (fun v ↦ v.interest) h)

theorem Advances.of_core {kept : Prop} (h : Advances kept s t) (hu : u.core = t.core) : Advances kept s u := by
  have hinterest : u.interest = t.interest := congrArg (fun v ↦ v.interest) hu
  exact ⟨hu.symm ▸ h.sound, hinterest.symm ▸ h.announces⟩

/-- A step that also leaves alone what the peer is told of the have queue. -/
structure Aside (s t : PeerConnection) : Prop extends Advances True s t where
  outgoing : t.core.outgoing = s.core.outgoing

theorem aside_of_core (hs : s.core.Sound) (h : t.core = s.core) : Aside s t :=
  ⟨advances_of_core hs h, congrArg Core.outgoing h⟩

theorem Aside.of_core (h : Aside s t) (hu : u.core = t.core) : Aside s u :=
  ⟨h.toAdvances.of_core hu, (congrArg Core.outgoing hu).trans h.outgoing⟩

theorem Aside.trans (h : Aside s t) (h' : Aside t u) : Aside s u :=
  ⟨⟨h'.sound, fun hs ↦ h'.announces ((h.announces hs).mpr trivial)⟩, h'.outgoing.trans h.outgoing⟩

theorem UpKept.aside (h : UpKept s t) (hs : s.core.Sound) : Aside s t :=
  ⟨advances_of_interest (sound_of_base h.base h.listed hs) (congrArg Base.interest h.base), h.outgoing⟩

theorem outgoing_of_core (h : t.core = { s.core with interest := t.interest }) (htype : t.type = s.type) :
    t.core.outgoing = s.core.outgoing := by
  rw [h, Core.outgoing, show t.interest.type = s.interest.type from htype]
  rfl

section Fill

theorem aside_fillInterested (h : s.core.Sound) : Aside s s.fillInterested := by
  rw [fillInterested]
  split
  · refine ⟨⟨⟨⟨⟨h.interest.listed, h.interest.snubbed, h.interest.queued, h.interest.unchoked⟩, h.position, h.sorted⟩,
      h.up⟩, fun _ ↦ iff_true_intro fun _ ↦ ?_⟩, ?_⟩
    · change announced (s.written ++ [if s.downInterested then .interested else .notInterested]) = s.downInterested
      rw [announced, List.foldl_append]
      cases s.downInterested <;> rfl
    · have htold : indices (s.written ++ [if s.downInterested then .interested else .notInterested]) =
          indices s.written := by
        rw [indices_append]
        cases s.downInterested <;> exact List.append_nil _
      exact congrArg (Outgoing.mk s.type s.now s.haveQueue s.haveTimer) htold
  · exact aside_of_core h rfl

def givesUp (i : FillInput) (s : PeerConnection) : Bool :=
  s.type = .leech && s.tryRequest && s.shouldRequest i && !(s.tryRequestPieces i).1 && !i.active

def Tries (s t : PeerConnection) : Prop :=
  t = { s with
    written := t.written, bufferEnd := t.bufferEnd, downChoke := t.downChoke, polling := t.polling
    tryRequest := t.tryRequest, sendInterested := t.sendInterested, downInterested := t.downInterested }

/-- What the attempt does to the connection, beside the requests that it writes. -/
structure Attempted (kept : Prop) (s t : PeerConnection) : Prop extends Advances kept s t where
  core_eq : t.core = { s.core with interest := t.interest }
  send : s.sendInterested = false → t.sendInterested = false
  bufferEnd : s.bufferEnd ≤ t.bufferEnd
  tries : Tries s t

theorem shouldRequest_eq_true {i : FillInput} (h : s.shouldRequest i = true) :
    s.downChoke.unchoked = true ∧ s.downUnchoked = true := by
  rw [shouldRequest] at h
  split_ifs at h with hn
  simp only [ChokeStatus.choked, Bool.or_eq_true, Bool.not_eq_true', not_or, Bool.not_eq_false] at hn
  exact ⟨hn.1.1, hn.2⟩

/-- The choke queue calls the slot, which finds that the interest is gone, and clears the flag that is to announce it. -/
theorem yields_giveUp (h : s.core.Sound) (hu : s.downChoke.unchoked = true) (hremote : s.downUnchoked = true) :
    Yields (downQueue.setNotQueued { s with sendInterested := true, downInterested := false })
      (Attempted (announced s.written = false) s) := by
  have hset := slots_downQueue.ensures_setNotQueued
    (s := ({ s with sendInterested := true, downInterested := false } : PeerConnection)) h.interest.listed
  refine hset.always.mono fun t ⟨hchange, hlisted, hqueued, hunchoked, hsnub⟩ ↦ ?_
  obtain ⟨hcore, ⟨hsame, -⟩ | ⟨-, -, ht⟩⟩ := core_downChange hchange
  · exact absurd ((hunchoked.symm.trans hsame).trans hu) (by decide)
  replace ht : t.interest = { s.interest with send := false, down := false, choke := t.downChoke } := by
    simpa [slot, interest, hremote] using ht
  have hsound : t.interest.Sound := by
    exact ⟨hlisted, hsnub.trans h.interest.snubbed, fun hq ↦ absurd (hqueued.symm.trans hq) (by decide),
      fun hq ↦ absurd (hunchoked.symm.trans hq) (by decide)⟩
  have heq := downChange_eq hchange
  refine ⟨⟨?_, fun _ ↦ ?_⟩, hcore, fun _ ↦ congrArg send ht, (congrArg PeerConnection.bufferEnd heq).ge, ?_⟩
  · rw [hcore]
    exact ⟨⟨hsound, h.position, h.sorted⟩, h.up⟩
  · rw [ht]
    exact ⟨fun hannounces ↦ hannounces rfl, fun hshown _ ↦ hshown⟩
  · rw [Tries, heq]

theorem yields_fillRequests (i : FillInput) (h : s.core.Sound) :
    Yields (s.fillRequests i) (Attempted (s.givesUp i = true → announced s.written = false) s) := by
  have hkeep {t : PeerConnection} (hgive : s.givesUp i = false) (ht : Kept s t) (htries : Tries s t) :
      Attempted (s.givesUp i = true → announced s.written = false) s t := by
    have hinterest : t.interest = s.interest := congrArg (fun v ↦ v.interest) ht.core
    refine ⟨?_, by rw [ht.core, hinterest]; rfl, fun hs ↦ (congrArg send hinterest).trans hs, ht.bufferEnd, htries⟩
    simpa [hgive] using advances_of_core h ht.core
  refine .ite (fun htry ↦ .ite (fun hshould ↦ ?_) fun hshould ↦ ?_) fun htry ↦ ?_
  · have hreq := requests_tryRequestPieces i s
    generalize hr : s.tryRequestPieces i = r at hreq
    have hcore : ({ r.2 with tryRequest := r.1 } : PeerConnection).core = s.core := hreq.core
    refine .ite (fun hgive ↦ ?_) fun hgive ↦ ?_
    · obtain ⟨hunchoked, hremote⟩ := shouldRequest_eq_true hshould
      have hgives : s.givesUp i = true := by
        rw [givesUp, htry, hshould, hr]
        simpa using hgive
      have hinterest : ({ r.2 with tryRequest := r.1 } : PeerConnection).interest = s.interest :=
        congrArg (fun v ↦ v.interest) hcore
      have hup := yields_giveUp (s := ({ r.2 with tryRequest := r.1 } : PeerConnection)) (hcore.symm ▸ h)
        ((congrArg (fun v ↦ v.choke.unchoked) hinterest).trans hunchoked)
        ((congrArg remote hinterest).trans hremote)
      refine hup.mono fun t ht ↦ ?_
      have hshown : announced r.2.written = announced s.written := congrArg shown hinterest
      refine ⟨⟨ht.sound, fun hs ↦ ?_⟩, hcore ▸ ht.core_eq, fun hs ↦ ht.send ((congrArg send hinterest).trans hs),
        hreq.bufferEnd.trans ht.bufferEnd, ?_⟩
      · rw [ht.announces (hinterest.symm ▸ hs), hshown, forall_prop_of_true hgives]
      · have htries := ht.tries
        rw [Tries, hreq.eq] at htries
        exact htries
    · refine hkeep ?_ ⟨hcore, hreq.bufferEnd⟩ ?_
      · rw [givesUp, htry, hshould, hr]
        simpa using hgive
      · rw [Tries, hreq.eq]
  · refine hkeep ?_ ⟨rfl, le_rfl⟩ rfl
    simp [givesUp, show s.shouldRequest i = false by simpa using hshould]
  · refine hkeep ?_ (.refl s) rfl
    rw [givesUp, show (decide (s.type = .leech) && s.tryRequest) = false by simpa using htry]
    rfl

theorem yields_fillRest (i : FillInput) (h : s.upChoke.Listed) : Yields (do
      let s ← s.fillHaves.fillOffer i
      s.fillCancels.fillLast i) fun t ↦ t.core.toBase = s.core.toBase ∧ t.upChoke.Listed := by
  obtain ⟨hhaves, hup⟩ := base_fillHaves s
  refine (yields_fillOffer i s.fillHaves).bind fun t ⟨ht, hup'⟩ ↦ ?_
  have hcancels := (kept_fillCancels t).upKept (hup'.trans hup ▸ h)
  refine (yields_fillLast i hcancels.listed).mono fun u hu ↦ ⟨?_, hu.listed⟩
  exact (hcancels.trans hu).base.trans (ht.trans hhaves)

theorem yields_fillWriteBuffer (i : FillInput) (h : s.core.Sound) : Yields (s.fillWriteBuffer i) fun t ↦
      Advances (s.fillChoke.fillInterested.givesUp i = true → announced s.fillChoke.fillInterested.written = false) s t ∧
        t.position = s.position := by
  have hchoke := core_fillChoke s
  have hinterested := aside_fillInterested (hchoke.symm ▸ h)
  have hposition : s.fillChoke.fillInterested.position = s.position := by
    rw [← show s.fillChoke.position = s.position from congrArg (fun v ↦ v.position) hchoke, fillInterested]
    split <;> rfl
  refine (yields_fillRequests i hinterested.sound).bind fun t ht ↦ ?_
  refine (yields_fillRest i ht.sound.up).mono fun u ⟨hu, hlisted⟩ ↦ ⟨⟨sound_of_base hu hlisted ht.sound, fun hs ↦ ?_⟩, ?_⟩
  · rw [show u.interest = t.interest from congrArg Base.interest hu]
    have hsame : s.fillChoke.interest = s.interest := congrArg (fun v ↦ v.interest) hchoke
    exact ht.announces ((hinterested.announces (hsame.symm ▸ hs)).mpr trivial)
  · exact (congrArg Base.position hu).trans ((congrArg (fun v ↦ v.position) ht.core_eq).trans hposition)

end Fill

open List

/-- A turn that starts to fill the buffer gives up no interest that the peer knows of. What it knows is read after the choke
and interest messages of the same turn, before requests are made. -/
def KeepsInterest (i : FillInput) (s : PeerConnection) : Prop :=
  s.upState = .idle → s.fillChoke.fillInterested.givesUp i = true → announced s.fillChoke.fillInterested.written = false

def Keeps : Event → PeerConnection → Prop
  | .turn i, s => s.polling = true → KeepsInterest i.fill s
  | _, _ => True

section Turns

theorem Wrote.advances {kept : Prop} (h : Wrote s t) (hs : s.core.Sound) (hkept : kept) : Advances kept s t := by
  refine ⟨h.sound hs, fun hannounces ↦ iff_of_true ?_ hkept⟩
  rw [h.interest]
  exact hannounces

theorem yields_writeTurn (i : TurnInput) (h : s.core.Sound) :
    Yields (s.writeTurn i) fun r ↦ Advances (KeepsInterest i.fill s) s r.2 := by
  rw [writeTurn]
  split
  · rename_i hidle
    refine (yields_fillWriteBuffer i.fill h).bind fun t ⟨hadvances, _⟩ ↦ ?_
    rw [KeepsInterest, forall_prop_of_true hidle]
    refine .either (hadvances.of_core rfl) ?_
    have hwrote := wrote_writeMsg i (s := { t with upState := .msg }) rfl
    refine ⟨hwrote.sound ⟨⟨hadvances.sound.interest, nofun, hadvances.sound.sorted⟩, hadvances.sound.up⟩, ?_⟩
    rw [hwrote.interest]
    exact hadvances.announces
  · rename_i hstate
    exact (wrote_writeMsg i hstate).advances h fun hidle ↦ absurd (hidle.symm.trans hstate) (by decide)
  · rename_i hstate
    exact (wrote_upChunk i (h.position (by simp [core, hstate]))).advances h fun hidle ↦
      absurd (hidle.symm.trans hstate) (by decide)
  · rename_i hstate
    refine (yields_upExtension i (h.position (by simp [core, hstate]))).mono fun r hr ↦ ?_
    exact hr.advances h fun hidle ↦ absurd (hidle.symm.trans hstate) (by decide)

end Turns

section Events

theorem aside_downChange {choke remote : Bool} (h : s.core.Sound)
    (hchange : downQueue.Change ActsDown choke { s with downUnchoked := remote } t) (hlisted : t.downChoke.Listed)
    (hsnub : t.downChoke.snubbed = s.downChoke.snubbed) (hqueued : t.downChoke.queued = true → remote = true) :
    Aside s t := by
  have hsound := sound_downChange hchange h.interest.unchoked hlisted (hsnub.trans h.interest.snubbed) hqueued
  have hcore := (core_downChange hchange).1
  refine ⟨⟨?_, fun hs ↦ iff_true_intro (announces_downChange hchange h.interest.unchoked hs)⟩,
    outgoing_of_core hcore (by rw [downChange_eq hchange])⟩
  rw [hcore]
  exact ⟨⟨hsound, h.position, h.sorted⟩, h.up⟩

theorem yields_choke (h : s.core.Sound) :
    Yields (downQueue.setNotQueued { s with downUnchoked := false }) (Aside s) := by
  have hset := slots_downQueue.ensures_setNotQueued (s := ({ s with downUnchoked := false } : PeerConnection))
    h.interest.listed
  refine hset.always.mono fun t ⟨hchange, hlisted, hqueued, _, hsnub⟩ ↦ ?_
  exact aside_downChange h hchange hlisted hsnub fun hq ↦ hqueued.symm.trans hq

theorem yields_queue {remote : Bool} (room : Bool) (now : ℕ) (h : s.core.Sound) (hremote : remote = true) :
    Yields (downQueue.setQueued room now { s with downUnchoked := remote }) (Aside s) := by
  have hset := slots_downQueue.ensures_setQueued room now
    (s := ({ s with downUnchoked := remote } : PeerConnection)) h.interest.listed
  refine hset.always.mono fun t ⟨hchange, hlisted, _, hsnub⟩ ↦ ?_
  exact aside_downChange h hchange hlisted hsnub fun _ ↦ hremote

theorem yields_decideDown (choke : Bool) (h : s.core.Sound) : Yields (downQueue.decide choke s) (Aside s) := by
  have hdecide := slots_downQueue.ensures_decide choke h.interest.listed
    fun _ hu ↦ .inr (h.interest.queued (h.interest.listed.interested hu).1)
  refine hdecide.always.mono fun t ⟨hchange, hlisted, hqueued, hsnub⟩ ↦ ?_
  exact aside_downChange h hchange hlisted hsnub fun hq ↦ h.interest.queued (hqueued.symm.trans hq)

theorem aside_show (h : s.core.Sound) (hdown : s.downInterested = false) :
    Aside s { s with sendInterested := !s.downInterested, downInterested := true } := by
  refine ⟨⟨⟨⟨⟨h.interest.listed, h.interest.snubbed, h.interest.queued, fun _ ↦ rfl⟩, h.position, h.sorted⟩, h.up⟩,
    fun _ ↦ iff_true_intro fun hsend ↦ ?_⟩, rfl⟩
  replace hsend : (!s.downInterested) = false := hsend
  rw [hdown] at hsend
  exact absurd hsend (by decide)

theorem yields_upChange (choke : Bool) {r : Except PeerFault PeerConnection} {P : PeerConnection → Prop}
    (h : s.core.Sound) (hr : Gives r fun t ↦ upQueue.Change ActsUp choke s t ∧ t.upChoke.Listed ∧ P t) :
    Yields r (Aside s) :=
  hr.always.mono fun _ ⟨hchange, hlisted, _⟩ ↦ (upKept_of_change hchange hlisted).aside h

theorem yields_haveSeeder (i : HaveInput) (h : s.core.Sound) : Yields (s.haveSeeder i) (Aside s) := by
  refine .either (.either not_false ?_) (aside_of_core h rfl)
  exact yields_upChange true h (slots_upQueue.ensures_setNotQueued h.up)

theorem yields_haveWanted (i : HaveInput) (h : s.core.Sound) (hdown : s.downInterested = false) :
    Yields (s.haveWanted i) (Aside s) := by
  have hshow := aside_show h hdown
  refine .ite (fun hremote ↦ ?_) fun _ ↦ hshow
  exact (yields_queue i.room s.now hshow.sound hremote).mono fun u hu ↦ hshow.trans hu

theorem yields_readHaveChunk (i : HaveInput) (h : s.core.Sound) : Yields (s.readHaveChunk i) (Aside s) := by
  refine .either not_false (.either (aside_of_core h rfl) ?_)
  refine (yields_haveSeeder i h).bind fun t ht ↦ ?_
  refine .either ht (.ite (fun _ ↦ .ok ?_) fun hdown ↦
    .either ?_ ht)
  · split
    · exact ht.of_core (core_writeInsertPollSafe { t with tryRequest := true })
    · exact ht
  · refine (yields_haveWanted i ht.sound (by simpa using hdown)).bind fun u hu ↦ ?_
    exact (ht.trans hu).of_core (core_writeInsertPollSafe { u with tryRequest := true })

theorem core_readRequestPiece (p : Piece) (s : PeerConnection) : (s.readRequestPiece p).core = s.core := by
  rw [readRequestPiece]
  split_ifs
  · rfl
  · rfl
  · exact core_writeInsertPollSafe { s with uploadQueue := s.uploadQueue ++ [p] }

theorem yields_receiveKeepalive (alive : Bool) (s : PeerConnection) :
    Yields (s.receiveKeepalive alive) fun t ↦ t.core = s.core := by
  refine .either not_false ?_
  have hkeep : (if s.upState = .idle && s.canWrite 4 then s.writeInsertPollSafe.write .keepAlive else s).core =
      s.core := by
    split
    · exact (core_write _ .keepAlive rfl rfl).trans (core_writeInsertPollSafe s)
    · rfl
  generalize (if s.upState = .idle && s.canWrite 4 then s.writeInsertPollSafe.write .keepAlive else s) = t at hkeep
  refine .ok ?_
  split
  · exact hkeep
  · exact hkeep

theorem sound_pushHave (index : ℕ) (h : s.core.Sound) : (s.pushHave index).core.Sound := by
  rw [pushHave]
  split
  · exact ⟨⟨h.interest, h.position, pairwise_singleton ..⟩, h.up⟩
  rename_i newest haves hqueue
  have hsorted : s.haveQueue.Pairwise fun h h' ↦ h'.1 < h.1 := h.sorted
  rw [hqueue] at hsorted
  refine ⟨⟨h.interest, h.position, pairwise_cons.mpr ⟨fun x hx ↦ ?_, hsorted⟩⟩, h.up⟩
  have hle : x.1 ≤ newest.1 := by
    rcases mem_cons.mp hx with rfl | hx
    · exact le_rfl
    · exact (rel_of_pairwise_cons hsorted hx).le
  split_ifs with hnow
  · omega
  · omega

/-- The events that neither fill nor send the buffer, and leave the clock and the have queue alone. -/
def Event.isAside : Event → Bool
  | .tick _ | .completed _ | .expired _ | .turn _ => false
  | _ => true

theorem yields_aside (e : Event) (he : e.isAside = true) (h : s.core.Sound) : Yields (step e s) (Aside s) := by
  cases e with
  | tick | completed | expired | turn => exact absurd he Bool.noConfusion
  | choke => exact .either (aside_of_core h rfl) (yields_choke h)
  | unchoke room =>
    refine .either (aside_of_core h rfl) (.ite (fun hdown ↦ ?_) fun _ ↦
      yields_queue room s.now h rfl)
    exact ⟨⟨⟨⟨⟨h.interest.listed, h.interest.snubbed, fun _ ↦ rfl, h.interest.unchoked⟩, h.position, h.sorted⟩, h.up⟩,
      iff_true_intro⟩, rfl⟩
  | interested allSet room =>
    refine .either (aside_of_core h rfl) ?_
    exact yields_upChange false h (slots_upQueue.ensures_setQueued room s.now h.up)
  | notInterested => exact yields_upChange true h (slots_upQueue.ensures_setNotQueued h.up)
  | «have» i => exact yields_readHaveChunk i h
  | request p =>
    refine aside_of_core h ?_
    split
    · rfl
    · exact (core_readRequestPiece p s.writeInsertPollSafe).trans (core_writeInsertPollSafe s)
  | piece =>
    refine .either not_false (aside_of_core h ?_)
    exact core_writeInsertPollSafe { s with tryRequest := true }
  | cancel p => exact aside_of_core h rfl
  | extension e =>
    have hcore : (s.applyExtension e).core = s.core := by
      rw [applyExtension_eq]
      rfl
    refine aside_of_core h (Eq.trans ?_ hcore)
    split
    · exact core_writeInsertPollSafe (s.applyExtension e)
    · rfl
  | keepalive alive => exact (yields_receiveKeepalive alive s).mono fun t ht ↦ aside_of_core h ht
  | updateInterested =>
    rw [step, updateInterested]
    refine .ok ?_
    split
    · exact aside_of_core h rfl
    rename_i hn
    rw [Bool.or_eq_true, not_or] at hn
    exact aside_show h (Bool.not_eq_true _ ▸ hn.2)
  | cancelTransfer p => exact aside_of_core h (core_writeInsertPollSafe s)
  | chokeUpload choke =>
    exact yields_upChange choke h (slots_upQueue.ensures_decide choke h.up fun _ _ ↦ trivial)
  | chokeDownload choke => exact yields_decideDown choke h
  | snub snubbed room =>
    refine .either (yields_upChange true h (slots_upQueue.ensures_setSnubbed h.up)) ?_
    exact yields_upChange false h (slots_upQueue.ensures_setNotSnubbed room s.now h.up)
  | peerExchange state => exact aside_of_core h (by rw [setPeerExchange]; split <;> rfl)
  | doPeerExchange =>
    refine aside_of_core h ?_
    split <;> rfl
  | activate => exact aside_of_core h rfl

theorem yields_step (e : Event) (h : s.core.Sound) : Yields (step e s) (Advances (Keeps e s) s) := by
  cases e with
  | tick passed => exact advances_of_interest ⟨⟨h.interest, h.position, h.sorted⟩, h.up⟩ rfl
  | completed index =>
    refine advances_of_interest (sound_pushHave index h) ?_
    rw [pushHave]
    split <;> rfl
  | expired left =>
    exact advances_of_interest ⟨⟨h.interest, h.position, h.sorted.sublist (take_sublist ..)⟩, h.up⟩ rfl
  | turn i =>
    refine .ite (fun hpolling ↦ ?_) fun hpolling ↦ ?_
    · rw [Keeps, forall_prop_of_true hpolling]
      exact Ensures.map (yields_writeTurn i h)
    · refine ⟨h, fun hs ↦ iff_of_true hs fun hp ↦ absurd hp hpolling⟩
  | _ => exact (yields_aside _ rfl h).mono fun _ ht ↦ ht.toAdvances

end Events

section Runs

theorem sound_start (c : Setup) : (start c).core.Sound :=
  ⟨⟨⟨⟨rfl, rfl, nofun⟩, rfl, nofun, nofun⟩, fun _ ↦ rfl, c.sorted⟩, ⟨rfl, rfl, nofun⟩⟩

theorem announces_start (c : Setup) : (start c).interest.Announces := by
  intro hsend
  replace hsend : (!c.done) = false := hsend
  change false = !c.done
  rw [hsend]

theorem yields_run (c : Setup) (events : List Event) : Yields (run c events) fun s ↦ s.core.Sound :=
  ensures_forEach_inv (fun e _ hs ↦ (yields_step e hs).mono fun _ ht ↦ ht.sound) events (sound_start c)

/-- The download is queued only while the peer has unchoked it, and unchoked only while there is interest. -/
theorem run_choke (c : Setup) (events : List Event) : Yields (run c events) fun s ↦
    (s.downChoke.queued = true → s.downUnchoked = true) ∧ (s.downChoke.unchoked = true → s.downInterested = true) :=
  (yields_run c events).mono fun _ h ↦ ⟨h.interest.queued, h.interest.unchoked⟩

/-- No change of interest is dropped, if and only if no turn gives up an interest that the peer knows of. -/
theorem run_announces (c : Setup) (events : List Event) :
    (∀ l, l <+: events → Yields (run c l) fun s ↦ s.interest.Announces) ↔
      Along step (fun e s ↦ Yields (step e s) fun _ ↦ Keeps e s) events (start c) :=
  forall_prefix_iff_along
    (fun e _ hs hannounces ↦ (yields_step e hs).mono fun _ ht ↦ ⟨ht.sound, ht.announces hannounces⟩)
    events (sound_start c) (announces_start c)

def leecher : Setup where
  type := .leech
  now := 20000000
  haveQueue := []
  sorted := List.Pairwise.nil
  done := false
  extensions := ⟨true, false, false, 0, 0, none⟩
  haveTimer := 0
  bytesLeft := 0

def nothingFound : TurnInput where
  fill := ⟨true, ⟨false, [[]]⟩, false, .noOffer, fun _ ↦ true, true, 0, fun _ ↦ true⟩
  sent := 512
  quota := 1
  pieceSent := 0
  extensionSent := 0
  deferred := .other

/-- The peer is told of the interest and unchokes the connection, which finds nothing to request. It is not interested
any more and has nothing to send, but the peer was not told. -/
theorem run_drops_interest :
    ∃ s, run leecher [.turn nothingFound, .unchoke true, .turn nothingFound] = .ok s ∧ s.sendInterested = false ∧
      s.downInterested = false ∧ announced s.written = true :=
  ⟨_, rfl, rfl, rfl, rfl⟩

end Runs

end PeerConnection

end LibTorrent
