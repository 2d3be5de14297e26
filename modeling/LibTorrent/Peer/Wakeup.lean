import LibTorrent.Peer.Announcing

namespace LibTorrent

open Lib.Outcome List Nat

namespace PeerConnection

variable {s t : PeerConnection}

structure Quiet (s : PeerConnection) : Prop where
  choked : s.sendChoked = false
  interested : s.type = .leech → s.sendInterested = false
  cancels : s.type = .leech → s.cancelQueue = []
  haves : s.type = .leech → ∀ h ∈ s.haveQueue, h.1 < s.haveTimer
  extension : s.extensions.pending = none
  pieces : s.upChoke.unchoked = true → s.uploadQueue = []

/-- `send_pex_message` claims to have written a message, but the peer has turned `ut_pex` off. -/
def pexSwallows (s : PeerConnection) : Bool :=
  s.sendPexMask.send && !s.sendPexMask.enable && !s.sendPexMask.disable && s.extensions.remotePex &&
    s.extensions.pexId = 0

/-- What the last steps of filling the buffer need, so as to leave nothing behind. -/
structure Settles (i : FillInput) (s : PeerConnection) : Prop where
  pex : s.pexSwallows = true → s.extensions.pending = none ∧ (s.upChoke.unchoked = true → s.uploadQueue = [])
  upload : s.type = .initialSeed → s.upChoke.unchoked = true →
    s.uploadQueue = [] ∨ ∃ p ∈ s.uploadQueue, i.shouldUpload p.index = true

variable {choke : Bool} {i : FillInput}

section First

structure Outbox where
  type : ConnectionType
  sendChoked : Bool
  sendPexMask : PexMask
  extensions : Extensions
  uploadQueue : List Piece
  cancelQueue : List Piece
  haveTimer : ℕ

def outbox (s : PeerConnection) : Outbox :=
  ⟨s.type, s.sendChoked, s.sendPexMask, s.extensions, s.uploadQueue, s.cancelQueue, s.haveTimer⟩

theorem canWrite_of_empty {size : ℕ} (h : s.bufferEnd = 0) (hsize : size ≤ bufferSize) : s.canWrite size = true := by
  rw [canWrite, reservedLeft, h]
  exact decide_eq_true hsize

theorem fillChoke_of_empty (h : s.fillChoke.bufferEnd = 0) : s.fillChoke = s ∧ s.sendChoked = false := by
  rw [fillChoke] at h ⊢
  split_ifs at h ⊢ with hc hchoked
  · exact absurd h (succ_ne_zero _)
  · exact absurd h (succ_ne_zero _)
  · refine ⟨rfl, ?_⟩
    simpa [canWrite_of_empty h (show 5 ≤ bufferSize by decide)] using hc

theorem fillInterested_of_empty (h : s.fillInterested.bufferEnd = 0) :
    s.fillInterested = s ∧ (s.type = .leech → s.sendInterested = false) := by
  rw [fillInterested] at h ⊢
  split at h
  · have hsize := h
    split_ifs at hsize
    · exact absurd hsize (succ_ne_zero _)
    · exact absurd hsize (succ_ne_zero _)
  rename_i hn
  rw [if_neg hn]
  refine ⟨rfl, fun hleech ↦ ?_⟩
  simpa [canWrite_of_empty h (show 5 ≤ bufferSize by decide), hleech] using hn

theorem bufferEnd_writeHaves (h : ℕ × ℕ) (haves : List (ℕ × ℕ)) (s : PeerConnection) :
    s.bufferEnd < (writeHaves (h :: haves) s).bufferEnd := by
  induction haves generalizing h s with
  | nil =>
    rw [writeHaves]
    split <;> exact Nat.lt_add_of_pos_right (by decide : 0 < 9)
  | cons h' haves ih =>
    have hlt : s.bufferEnd < s.bufferEnd + 9 := Nat.lt_add_of_pos_right (by decide)
    rw [writeHaves]
    split
    · exact hlt.trans (ih h' { s.write (.have h.2) with haveTimer := h.1 + 1 })
    · exact hlt

theorem fillHaves_of_empty (hsorted : s.haveQueue.Pairwise fun h h' ↦ h'.1 < h.1) (h : s.fillHaves.bufferEnd = 0) :
    s.fillHaves = s ∧ (s.type = .leech → ∀ e ∈ s.haveQueue, e.1 < s.haveTimer) := by
  rw [fillHaves] at h ⊢
  split at h
  · rename_i hqueue
    rw [hqueue]
    exact ⟨rfl, fun _ ↦ (by simp)⟩
  rename_i newest haves hqueue
  split at h
  · rename_i hc
    simp only [Bool.and_eq_true, decide_eq_true_eq] at hc
    have hne : (s.haveQueue.takeWhile fun h ↦ s.haveTimer ≤ h.1).reverse ≠ [] := by
      simp [hqueue, hc.1.2]
    obtain ⟨oldest, rest, hlist⟩ := exists_cons_of_ne_nil hne
    rw [hlist] at h
    exact absurd h (ne_of_gt (zero_lt_of_lt (bufferEnd_writeHaves oldest rest s)))
  · rename_i hn
    rw [hqueue] at hsorted ⊢
    simp only [hn, Bool.false_eq_true, if_false, true_and]
    intro hleech e he
    have hnewest : newest.1 < s.haveTimer := by
      simpa [hleech, canWrite_of_empty h (show 9 ≤ bufferSize by decide)] using hn
    rcases mem_cons.mp he with rfl | he
    · exact hnewest
    · exact (rel_of_pairwise_cons hsorted he).trans hnewest

theorem fillOffer_of_empty (i : FillInput) (s : PeerConnection) :
    Yields (s.fillOffer i) fun t ↦ t.bufferEnd = 0 → t = s := by
  refine .ite (fun _ ↦ ?_) fun _ _ ↦ rfl
  rw [offerChunk]
  split
  · exact fun _ ↦ rfl
  · exact not_false
  · exact .ite (fun _ _ ↦ rfl) fun _ hempty ↦ absurd hempty (succ_ne_zero _)

theorem fillCancels_of_empty (h : s.fillCancels.bufferEnd = 0) :
    s.fillCancels = s ∧ (s.type = .leech → s.cancelQueue = []) := by
  rw [fillCancels] at h ⊢
  split at h
  · rename_i hleech
    rw [if_pos hleech]
    cases hqueue : s.cancelQueue with
    | nil => exact ⟨by rw [writeCancels, ← hqueue], fun _ ↦ rfl⟩
    | cons p queue =>
      have hempty : s.bufferEnd = 0 := le_zero.mp (h ▸ (kept_writeCancels s.cancelQueue s).bufferEnd)
      rw [hqueue, writeCancels, if_pos (canWrite_of_empty hempty (by decide))] at h
      have hle : s.bufferEnd + 17 ≤ 0 := h ▸ (kept_writeCancels queue (s.write (.cancel p))).bufferEnd
      exact absurd hle (not_succ_le_zero _)
  · rename_i hleech
    exact ⟨if_neg hleech, fun hn ↦ absurd hn hleech⟩

end First

section Last

structure Leeching where
  type : ConnectionType
  sendInterested : Bool
  cancelQueue : List Piece
  haveQueue : List (ℕ × ℕ)
  haveTimer : ℕ

def leeching (s : PeerConnection) : Leeching :=
  ⟨s.type, s.sendInterested, s.cancelQueue, s.haveQueue, s.haveTimer⟩

def Uploaded (s : PeerConnection) : Prop :=
  s.sendChoked = false ∧ (s.upChoke.unchoked = true → s.uploadQueue = [])

def Uploads (i : FillInput) (s : PeerConnection) : Prop :=
  s.type = .initialSeed → s.upChoke.unchoked = true →
    s.uploadQueue = [] ∨ ∃ p ∈ s.uploadQueue, i.shouldUpload p.index = true

theorem yields_shouldUpload_none (i : FillInput) (h : s.upChoke.Listed) (hu : s.upChoke.unchoked = true)
    (hqueue : (s.uploadQueue.dropWhile fun p ↦ !i.shouldUpload p.index) = []) :
    Yields (s.shouldUpload i) fun r ↦ r.1 = false ∧ r.2.sendChoked = true ∧ r.2.bufferEnd = s.bufferEnd ∧
      r.2.leeching = s.leeching ∧ r.2.extensions = s.extensions := by
  rw [shouldUpload]
  split
  · have hset := slots_upQueue.ensures_setNotQueued (s := ({ s with uploadQueue := [] } : PeerConnection)) h
    refine hset.always.bind ?_
    rintro t ⟨ht, hlisted, _, hchoked, _⟩
    refine (slots_upQueue.ensures_setQueued i.room t.now hlisted).always.bind ?_
    rintro v ⟨hv, _⟩
    obtain ⟨ht', hsend⟩ := upChange_eq ht
    obtain ⟨hv', hsend'⟩ := upChange_eq hv
    have hne : s.upChoke.unchoked ≠ t.upChoke.unchoked := fun he ↦
      absurd (hchoked.symm.trans (he.symm.trans hu)) (by decide)
    refine ⟨?_, hsend' (.inl (hsend (.inr hne))), ?_, ?_, ?_⟩
    · rw [hv', ht']
      rfl
    · rw [hv', ht']
    · rw [hv', ht']
      rfl
    · rw [hv', ht']
  · rename_i p queue hdrop
    exact absurd (hdrop.symm.trans hqueue) (cons_ne_nil p queue)

variable {queue : List Piece} {p : Piece}

theorem yields_shouldUpload_some (i : FillInput)
    (hqueue : (s.uploadQueue.dropWhile fun p ↦ !i.shouldUpload p.index) = p :: queue) :
    Yields (s.shouldUpload i) fun r ↦ r.1 = true ∧ r.2.uploadQueue = p :: queue := by
  rw [shouldUpload, hqueue]
  refine .either (.ok ⟨rfl, ?_⟩) ⟨rfl, rfl⟩
  split <;> rfl

theorem yields_writePreparePiece_cons (i : FillInput) (h : s.uploadQueue = p :: queue) :
    Yields (s.writePreparePiece i) fun t ↦ t.bufferEnd ≠ 0 := by
  rw [writePreparePiece, h]
  exact .either not_false (succ_ne_zero _)

structure Empty (quiet settles : Prop) (s t : PeerConnection) : Prop where
  bufferEnd : s.bufferEnd = 0
  leeching : t.leeching = s.leeching
  quiet : s.sendChoked = false → (quiet ↔ settles)

theorem fillPiece_of_empty (i : FillInput) (h : s.upChoke.Listed) :
    Yields (s.fillPiece i) fun t ↦ t.bufferEnd = 0 →
      Empty t.Uploaded (s.Uploads i) s t ∧ t.extensions = s.extensions := by
  refine .ite (fun hc ↦ ?_) fun hn hempty ↦ ?_
  · simp only [ChokeStatus.choked, Bool.not_not, Bool.and_eq_true, Bool.not_eq_true', isEmpty_eq_false_iff] at hc
    obtain ⟨⟨hu, hne⟩, -⟩ := hc
    refine .ite (fun hseed ↦ ?_) fun _ ↦ ?_
    · cases hdrop : s.uploadQueue.dropWhile fun p ↦ !i.shouldUpload p.index with
      | nil =>
        refine (yields_shouldUpload_none i h hu hdrop).bind ?_
        rintro r ⟨hr, hsent, hend, hleech, hext⟩
        rw [hr, if_neg (by decide)]
        refine fun hempty ↦ ⟨⟨hend.symm.trans hempty, hleech, fun _ ↦ iff_of_false ?_ ?_⟩, hext⟩
        · exact fun hquiet ↦ absurd (hquiet.1.symm.trans hsent) (by decide)
        intro huploads
        obtain ⟨p, hp, hup⟩ := (huploads hseed hu).resolve_left hne
        simpa [hup] using dropWhile_eq_nil_iff.mp hdrop p hp
      | cons p queue =>
        refine (yields_shouldUpload_some i hdrop).bind ?_
        rintro r ⟨hr, hqueue⟩
        rw [hr, if_pos rfl]
        exact (yields_writePreparePiece_cons i hqueue).mono fun t ht hempty ↦ absurd hempty ht
    · obtain ⟨p, queue, hqueue⟩ := exists_cons_of_ne_nil hne
      exact (yields_writePreparePiece_cons i hqueue).mono fun t ht hempty ↦ absurd hempty ht
  · have hnothing : s.upChoke.unchoked = true → s.uploadQueue = [] := by
      intro hu
      simpa [canWrite_of_empty hempty (show 13 ≤ bufferSize by decide), ChokeStatus.choked, hu] using hn
    exact ⟨⟨hempty, rfl, fun hsend ↦ iff_of_true ⟨hsend, hnothing⟩ fun _ hu ↦ .inl (hnothing hu)⟩, rfl⟩

theorem fillExtension_of_empty (i : FillInput) (h : s.upChoke.Listed) :
    Yields (s.fillExtension i) fun t ↦ t.bufferEnd = 0 →
      Empty (t.Uploaded ∧ t.extensions.pending = none) (s.Uploads i) s t := by
  have hpiece := fillPiece_of_empty i h
  rw [fillExtension]
  split
  · refine .ite (fun _ hempty ↦ absurd hempty (succ_ne_zero _)) fun hn ↦ ?_
    refine hpiece.mono fun t ht hempty ↦ ?_
    exact absurd (canWrite_of_empty (ht hempty).1.bufferEnd (by decide)) hn
  rename_i hpending
  refine hpiece.mono fun t ht hempty ↦ ?_
  obtain ⟨⟨hend, hleech, hquiet⟩, hext⟩ := ht hempty
  refine ⟨hend, hleech, fun hsend ↦ ?_⟩
  rw [hext, hpending]
  simpa using hquiet hsend

theorem settles_of_not_swallows (h : s.pexSwallows = false) : s.Settles i ↔ s.Uploads i :=
  ⟨fun hs ↦ hs.upload, fun hs ↦ ⟨fun hp ↦ absurd (h.symm.trans hp) (by decide), hs⟩⟩

theorem yields_sendPexMessage_cases (i : FillInput) (h : s.sendPexMask.nonzero = true) :
    Yields (s.sendPexMessage i) fun r ↦ r.1 = true ∧ r.2.bufferEnd ≠ 0 ∨
      r.1 = s.pexSwallows ∧ r.2 = { s with sendPexMask := r.2.sendPexMask } := by
  refine .ite (fun hremote ↦ ?_) fun hremote ↦ .ite (fun _ ↦ ?_) fun htoggle ↦
    .ite (fun hsends ↦ .either ?_ ?_) fun hsends ↦ ?_
  · rw [Bool.not_eq_true'] at hremote
    exact .inr ⟨by simp [pexSwallows, hremote], rfl⟩
  · rw [if_neg hremote]
    exact .inl ⟨rfl, succ_ne_zero _⟩
  · simp only [Bool.and_eq_true, decide_eq_true_eq] at hsends
    exact .inr ⟨by simp [pexSwallows, hsends.2], rfl⟩
  · exact .inl ⟨rfl, succ_ne_zero _⟩
  refine .inr ⟨?_, rfl⟩
  simp only [PexMask.nonzero, Bool.or_eq_true] at h htoggle
  simp_all [pexSwallows]

theorem fillLast_of_empty (i : FillInput) (h : s.upChoke.Listed) : Yields (s.fillLast i) fun t ↦ t.bufferEnd = 0 →
      Empty (t.Uploaded ∧ t.extensions.pending = none) (s.Settles i) s t := by
  have hrest (m : PexMask) (hswallows : s.pexSwallows = false) :
      Yields (({ s with sendPexMask := m } : PeerConnection).fillExtension i) fun t ↦ t.bufferEnd = 0 →
        Empty (t.Uploaded ∧ t.extensions.pending = none) (s.Settles i) s t := by
    rw [settles_of_not_swallows hswallows]
    refine (fillExtension_of_empty (s := { s with sendPexMask := m }) i h).mono fun t ht hempty ↦ ?_
    obtain ⟨hend, hleech, hquiet⟩ := ht hempty
    exact ⟨hend, hleech, hquiet⟩
  refine .ite (fun hc ↦ ?_) fun hn ↦ ?_
  · rw [Bool.and_eq_true] at hc
    refine (yields_sendPexMessage_cases i hc.1).bind fun r hr ↦ ?_
    rcases hr with ⟨hr, hwritten⟩ | ⟨hr, hmask⟩
    · rw [hr, if_pos rfl]
      exact fun hempty ↦ absurd hempty hwritten
    rw [hr, hmask]
    refine .ite (fun hswallows hempty ↦ ⟨hempty, rfl, fun hsend ↦ ?_⟩) fun hswallows ↦
      hrest r.2.sendPexMask (by simpa using hswallows)
    refine ⟨fun ⟨huploaded, hpending⟩ ↦ ?_, fun hsettles ↦ ?_⟩
    · exact ⟨fun _ ↦ ⟨hpending, huploaded.2⟩, fun _ hu ↦ .inl (huploaded.2 hu)⟩
    · obtain ⟨hpending, hqueue⟩ := hsettles.pex hswallows
      exact ⟨⟨hsend, hqueue⟩, hpending⟩
  · by_cases hempty : s.bufferEnd = 0
    · refine hrest s.sendPexMask ?_
      simp only [canWrite_of_empty hempty (show 6 ≤ bufferSize by decide), PexMask.nonzero, Bool.and_true,
        Bool.or_eq_true, not_or, Bool.not_eq_true] at hn
      simp [pexSwallows, hn.1.1]
    · exact (fillExtension_of_empty i h).mono fun t ht hend ↦ absurd (ht hend).bufferEnd hempty

end Last

section Turns

theorem settles_congr (h : t.outbox = s.outbox) (hup : t.upChoke = s.upChoke) : t.Settles i ↔ s.Settles i := by
  have htype : t.type = s.type := congrArg Outbox.type h
  have hmask : t.sendPexMask = s.sendPexMask := congrArg Outbox.sendPexMask h
  have hext : t.extensions = s.extensions := congrArg Outbox.extensions h
  have hqueue : t.uploadQueue = s.uploadQueue := congrArg Outbox.uploadQueue h
  have hpex : t.pexSwallows = s.pexSwallows := by rw [pexSwallows, pexSwallows, hmask, hext]
  constructor
  · rintro ⟨hs, hs'⟩
    rw [hpex, hext, hup, hqueue] at hs
    rw [htype, hup, hqueue] at hs'
    exact ⟨hs, hs'⟩
  rintro ⟨hs, hs'⟩
  rw [← hpex, ← hext, ← hup, ← hqueue] at hs
  rw [← htype, ← hup, ← hqueue] at hs'
  exact ⟨hs, hs'⟩

/-- The buffer is empty after it was filled: nothing was to be written, and the last steps decide what is left. -/
theorem fillWriteBuffer_of_empty (i : FillInput) (h : s.core.Sound) :
    Yields (s.fillWriteBuffer i) fun t ↦ t.bufferEnd = 0 → (t.Quiet ↔ s.Settles i) := by
  have hinterested := aside_fillInterested ((core_fillChoke s).symm ▸ h)
  refine (yields_fillRequests i hinterested.sound).bind fun t ht ↦ ?_
  have hle := ht.bufferEnd
  have hbox : t.outbox = s.fillChoke.fillInterested.outbox := by
    rw [ht.tries]
    rfl
  refine ((yields_fillOffer i t.fillHaves).both (fillOffer_of_empty i t.fillHaves)).bind fun u ⟨⟨_, hup⟩, hu⟩ ↦ ?_
  have hlisted := ((kept_fillCancels u).upKept (hup.trans (base_fillHaves t).2 ▸ ht.sound.up)).listed
  refine (fillLast_of_empty i hlisted).mono fun v hv hempty ↦ ?_
  obtain ⟨hend, hleech, hquiet⟩ := hv hempty
  -- nothing was written, so that every step before the requests has left the connection as it was
  obtain ⟨hucancels, hcancels⟩ := fillCancels_of_empty hend
  rw [hucancels] at hend hleech hquiet
  obtain rfl := hu hend
  obtain ⟨hthaves, hhaves⟩ := fillHaves_of_empty ht.sound.sorted hend
  rw [hthaves] at hend hleech hquiet hcancels
  have hfirst : s.fillChoke.fillInterested.bufferEnd = 0 := le_zero.mp (hend ▸ hle)
  obtain ⟨hsinterested, hsend⟩ := fillInterested_of_empty hfirst
  rw [hsinterested] at hfirst ht hbox
  obtain ⟨hschoke, hchoked⟩ := fillChoke_of_empty hfirst
  rw [hschoke] at ht hbox hsend
  have htype : v.type = s.type := (congrArg Leeching.type hleech).trans (congrArg Outbox.type hbox)
  rw [settles_congr hbox (congrArg Core.upChoke ht.core_eq)] at hquiet
  rw [← hquiet ((congrArg Outbox.sendChoked hbox).trans hchoked)]
  refine ⟨fun hv ↦ ⟨⟨hv.choked, hv.pieces⟩, hv.extension⟩, fun ⟨⟨hchoked, hpieces⟩, hpending⟩ ↦
    ⟨hchoked, fun hv ↦ ?_, fun hv ↦ ?_, fun hv ↦ ?_, hpending, hpieces⟩⟩
  · exact (congrArg Leeching.sendInterested hleech).trans (ht.send (hsend (htype.symm.trans hv)))
  · exact (congrArg Leeching.cancelQueue hleech).trans (hcancels ((congrArg Leeching.type hleech).symm.trans hv))
  have hqueue : v.haveQueue = t.haveQueue := congrArg Leeching.haveQueue hleech
  have htimer : v.haveTimer = t.haveTimer := congrArg Leeching.haveTimer hleech
  rw [hqueue, htimer]
  exact hhaves ((congrArg Leeching.type hleech).symm.trans hv)

theorem Quiet.of_polling (h : s.Quiet) (polling : Bool) : ({ s with polling := polling } : PeerConnection).Quiet :=
  ⟨h.choked, h.interested, h.cancels, h.haves, h.extension, h.pieces⟩

theorem upChunk_ne_removed (i : TurnInput) (s : PeerConnection) : (s.upChunk i).1 ≠ .removed := by
  rw [upChunk]
  dsimp only
  split_ifs <;> simp

theorem writeMsg_ne_removed (i : TurnInput) (s : PeerConnection) : (s.writeMsg i).1 ≠ .removed := by
  rw [writeMsg]
  dsimp only
  split
  · simp
  split
  · exact upChunk_ne_removed i _
  · simp
  · simp

theorem yields_writeTurn_removed (i : TurnInput) (h : s.core.Sound) :
    Yields (s.writeTurn i) fun r ↦ r.1 = .removed → (r.2.Quiet ↔ s.Settles i.fill) := by
  rw [writeTurn]
  split
  · rename_i hidle
    refine ((yields_fillWriteBuffer i.fill h).both (fillWriteBuffer_of_empty i.fill h)).bind ?_
    rintro t ⟨⟨_, hposition⟩, hquiet⟩
    refine .ite (fun hempty _ ↦ ?_) fun _ hremoved ↦ ?_
    · have hzero : t.position = 0 := hposition.trans (h.position (by simp [core, hidle]))
      rw [remaining, hzero, Nat.sub_zero] at hempty
      rw [← hquiet hempty]
      exact ⟨fun ht ↦ ht.of_polling t.polling, fun ht ↦ ht.of_polling false⟩
    · exact absurd hremoved (writeMsg_ne_removed i _)
  · exact fun hremoved ↦ absurd hremoved (writeMsg_ne_removed i s)
  · exact fun hremoved ↦ absurd hremoved (upChunk_ne_removed i s)
  · refine .either not_false (.either (by simp) (by simp))

/-- Whenever a turn removes a reachable connection from polling, nothing is left to be written, if and only if the last
steps of filling the buffer settle. -/
theorem run_quiet (c : Setup) (events : List Event) (i : TurnInput) :
    Yields (run c events) fun s ↦ Yields (s.writeTurn i) fun r ↦ r.1 = .removed → (r.2.Quiet ↔ s.Settles i.fill) :=
  (yields_run c events).mono fun _ hs ↦ yields_writeTurn_removed i hs

def unwanted : TurnInput :=
  { nothingFound with fill := { nothingFound.fill with shouldUpload := fun _ ↦ false } }

/-- The initial seed chokes the peer after it has looked whether there is a choke to write, and leaves it unwritten. A
leecher takes a peer exchange that is turned off for a message, and leaves the reply to a request for metadata. -/
theorem run_removed_pending : (∃ s, run { leecher with type := .initialSeed }
        [.interested false true, .turn unwanted, .request ⟨0, 0, 16384⟩] = .ok s ∧
      ∃ t, s.writeTurn unwanted = .ok (.removed, t) ∧ t.sendChoked = true) ∧
    ∃ s, run { leecher with extensions := ⟨true, false, true, 0, 0, none⟩ }
        [.turn nothingFound, .extension (.handshake (some 1) (some 2)), .doPeerExchange,
          .extension (.handshake (some 0) none), .extension (.reply 100)] = .ok s ∧
      ∃ t, s.writeTurn nothingFound = .ok (.removed, t) ∧ t.extensions.pending = some 100 :=
  ⟨⟨_, rfl, _, rfl, rfl⟩, ⟨_, rfl, _, rfl, rfl⟩⟩

end Turns

end PeerConnection

end LibTorrent
