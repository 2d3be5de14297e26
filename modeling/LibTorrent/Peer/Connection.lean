import LibTorrent.Protocol.Upload

namespace LibTorrent

inductive PeerFault
  | internal (message : String)
  | communication (message : String)
  | closed
  deriving DecidableEq

/-- The status of a connection in a choke queue, and whether the lists of its group entry hold it. -/
structure ChokeStatus where
  queued : Bool := false
  unchoked : Bool := false
  snubbed : Bool := false
  timeLastChoke : ℕ := 0
  inQueued : Bool := false
  inUnchoked : Bool := false

namespace ChokeStatus

variable (c : ChokeStatus)

def choked : Bool := !c.unchoked

def connectionUnchoked : Except PeerFault ChokeStatus :=
  if c.inUnchoked then .error (.internal "group_entry::connection_unchoked(pcb) failed.")
  else .ok { c with inUnchoked := true }

def connectionQueued : Except PeerFault ChokeStatus :=
  if c.inQueued then .error (.internal "group_entry::connection_queued(pcb) failed.")
  else .ok { c with inQueued := true }

def connectionChoked : Except PeerFault ChokeStatus :=
  if !c.inUnchoked then .error (.internal "group_entry::connection_choked(pcb) failed.")
  else .ok { c with inUnchoked := false }

def connectionUnqueued : Except PeerFault ChokeStatus :=
  if !c.inQueued then .error (.internal "group_entry::connection_unqueued(pcb) failed.")
  else .ok { c with inQueued := false }

/-- The first part of `receive_upload_choke` and `receive_download_choke`. -/
def receiveChoke (choke : Bool) (now : ℕ) (c : ChokeStatus) : Except PeerFault ChokeStatus :=
  let c := { c with unchoked := !choke, timeLastChoke := now }
  if choke then c.connectionChoked >>= connectionQueued else c.connectionUnqueued >>= connectionUnchoked

end ChokeStatus

/-- A choke queue as a connection sees it: its status there, and the slot that chokes or unchokes it. -/
structure ChokeQueue (σ : Type) where
  status : σ → ChokeStatus
  setStatus : ChokeStatus → σ → σ
  slotConnection : Bool → σ → Except PeerFault σ

namespace ChokeQueue

variable {σ : Type} (q : ChokeQueue σ)

def entry (f : ChokeStatus → Except PeerFault ChokeStatus) (s : σ) : Except PeerFault σ := do
  let c ← f (q.status s)
  .ok (q.setStatus c s)

/-- The queue may unchoke a connection that it last choked more than ten seconds ago, if it has room. -/
def unchokeNew (room : Bool) (now : ℕ) (s : σ) : Except PeerFault σ :=
  if room && (q.status s).timeLastChoke + 10000000 < now then q.slotConnection false s else .ok s

def setQueued (room : Bool) (now : ℕ) (s : σ) : Except PeerFault σ :=
  if (q.status s).queued || (q.status s).unchoked then .ok s
  else
    let s := q.setStatus { q.status s with queued := true } s
    if (q.status s).snubbed then .ok s
    else do
      let s ← q.entry ChokeStatus.connectionQueued s
      q.unchokeNew room now s

def setNotQueued (s : σ) : Except PeerFault σ :=
  if !(q.status s).queued then .ok s
  else
    let s := q.setStatus { q.status s with queued := false } s
    if (q.status s).snubbed then .ok s
    else if (q.status s).unchoked then do
      let s ← q.slotConnection true s
      q.entry ChokeStatus.connectionUnqueued s
    else q.entry ChokeStatus.connectionUnqueued s

def setSnubbed (s : σ) : Except PeerFault σ :=
  if (q.status s).snubbed then .ok s
  else
    let s := q.setStatus { q.status s with snubbed := true } s
    if (q.status s).unchoked then do
      let s ← q.slotConnection true s
      let s ← q.entry ChokeStatus.connectionUnqueued s
      .ok (q.setStatus { q.status s with queued := false } s)
    else if !(q.status s).queued then .ok s
    else do
      let s ← q.entry ChokeStatus.connectionUnqueued s
      .ok (q.setStatus { q.status s with queued := false } s)

def setNotSnubbed (room : Bool) (now : ℕ) (s : σ) : Except PeerFault σ :=
  if !(q.status s).snubbed then .ok s
  else
    let s := q.setStatus { q.status s with snubbed := false } s
    if !(q.status s).queued then .ok s
    else if (q.status s).unchoked then .error (.internal "choke_queue::set_not_snubbed(...) base->unchoked().")
    else do
      let s ← q.entry ChokeStatus.connectionQueued s
      q.unchokeNew room now s

/-- A decision of the queue in `balance`, `balance_entry` or `cycle`, which takes the connection from one of the
lists. -/
def decide (choke : Bool) (s : σ) : Except PeerFault σ :=
  if if choke then (q.status s).inUnchoked else (q.status s).inQueued then q.slotConnection choke s else .ok s

end ChokeQueue

open Lib.Outcome

inductive ConnectionType
  | leech
  | seed
  | initialSeed
  deriving DecidableEq

inductive Message
  | keepAlive
  | choke
  | unchoke
  | interested
  | notInterested
  | have (index : ℕ)
  | request (piece : Piece)
  | cancel (piece : Piece)
  | piece (piece : Piece)
  | extension (id : UInt8) (length : ℕ)
  deriving DecidableEq

namespace Message

def size : Message → ℕ
  | keepAlive => 4
  | choke | unchoke | interested | notInterested => 5
  | .have _ => 9
  | request _ | cancel _ => 17
  | piece _ => 13
  | extension _ _ => 6

end Message

/-- The extensions of the peer: whether its first handshake is to come, whether it has announced `ut_pex`, the ids it
uses, whether `ut_pex` is enabled here, and the length of a reply that is to be sent. -/
structure Extensions where
  initialHandshake : Bool
  remotePex : Bool
  localPex : Bool
  pexId : UInt8
  metadataId : UInt8
  pending : Option ℕ

structure PexMask where
  send : Bool
  enable : Bool
  disable : Bool

namespace PexMask

def zero : PexMask := ⟨false, false, false⟩

def nonzero (m : PexMask) : Bool := m.send || m.enable || m.disable

end PexMask

/-- A connection, with the time and the have queue of its download. The messages written so far are not in the
source; the last one is its `m_lastCommand`. -/
structure PeerConnection where
  type : ConnectionType
  now : ℕ
  haveQueue : List (ℕ × ℕ)
  upState : UploadState
  position : ℕ
  bufferEnd : ℕ
  written : List Message
  upChoke : ChokeStatus
  downChoke : ChokeStatus
  downInterested : Bool
  downUnchoked : Bool
  sendChoked : Bool
  sendInterested : Bool
  tryRequest : Bool
  sendPexMask : PexMask
  extensions : Extensions
  upPieceLength : ℕ
  extensionLeft : ℕ
  uploadQueue : List Piece
  cancelQueue : List Piece
  haveTimer : ℕ
  lastIndex : Option ℕ
  bytesLeft : UInt32
  polling : Bool

namespace PeerConnection

section Buffer

def bufferSize : ℕ := 512

def reservedLeft (s : PeerConnection) : ℕ := bufferSize - s.bufferEnd

def remaining (s : PeerConnection) : ℕ := s.bufferEnd - s.position

def canWrite (size : ℕ) (s : PeerConnection) : Bool := size ≤ s.reservedLeft

def write (m : Message) (s : PeerConnection) : PeerConnection :=
  { s with written := s.written ++ [m], bufferEnd := s.bufferEnd + m.size }

end Buffer

section Choking

def writeInsertPollSafe (s : PeerConnection) : PeerConnection :=
  if s.upState = .idle then { s with polling := true } else s

def receiveUploadChoke (choke : Bool) (s : PeerConnection) : Except PeerFault PeerConnection :=
  if choke = s.upChoke.choked then
    .error (.internal "PeerConnectionBase::receive_upload_choke(...) already set to the same state.")
  else do
    let s := s.writeInsertPollSafe
    let c ← s.upChoke.receiveChoke choke s.now
    .ok { s with sendChoked := true, upChoke := c }

def upQueue : ChokeQueue PeerConnection := ⟨upChoke, fun c s ↦ { s with upChoke := c }, receiveUploadChoke⟩

/-- The queue that `receive_download_choke` calls back. The connection is choked by then, so that the slot of this
queue is not called. -/
def chokedQueue : ChokeQueue PeerConnection :=
  ⟨downChoke, fun c s ↦ { s with downChoke := c }, fun _ _ ↦ .error (.internal "called back while choked")⟩

def receiveDownloadChoke (choke : Bool) (s : PeerConnection) : Except PeerFault PeerConnection :=
  if choke = s.downChoke.choked then
    .error (.internal "PeerConnectionBase::receive_download_choke(...) already set to the same state.")
  else do
    let s := s.writeInsertPollSafe
    let c ← s.downChoke.receiveChoke choke s.now
    let s := { s with downChoke := c }
    if choke then
      if s.downUnchoked then .ok { s with sendInterested := s.downInterested, downInterested := false }
      else chokedQueue.setNotQueued s
    else if !s.downInterested then
      .ok { s with tryRequest := true, sendInterested := !s.downInterested, downInterested := true }
    else .ok { s with tryRequest := true }

def downQueue : ChokeQueue PeerConnection := ⟨downChoke, fun c s ↦ { s with downChoke := c }, receiveDownloadChoke⟩

end Choking

section Fill

/-- An attempt to request pieces: whether enough of them are in the pipe, and what `delegate` returns each time. -/
structure Attempt where
  full : Bool
  rounds : List (List Piece)

inductive Offer
  | noOffer
  | chunk (index : ℕ) (size : UInt32)
  | done

/-- What the rest of the client answers while the write buffer is filled. `eager` is the part of `should_request` that
looks at the rates and `active` is `is_interested_in_active`. -/
structure FillInput where
  eager : Bool
  attempt : Attempt
  active : Bool
  offer : Offer
  shouldUpload : UInt32 → Bool
  room : Bool
  pexLength : ℕ
  validPiece : Piece → Bool

variable (i : FillInput)

variable (s : PeerConnection)

def fillChoke : PeerConnection :=
  if s.sendChoked && s.canWrite 5 then
    if s.upChoke.choked then { s.write .choke with sendChoked := false, uploadQueue := [] }
    else { s.write .unchoke with sendChoked := false }
  else s

def fillInterested : PeerConnection :=
  if s.type = .leech && s.sendInterested && s.canWrite 5 then
    { s.write (if s.downInterested then .interested else .notInterested) with sendInterested := false }
  else s

def shouldRequest : Bool :=
  if s.downChoke.choked || !s.downInterested || !s.downUnchoked then false else i.eager

def requestRounds : List (List Piece) → Bool → PeerConnection → Bool × PeerConnection
  | [], success, s => (success, s)
  | pieces :: rounds, success, s =>
    if s.canWrite 17 then
      match pieces.take (s.reservedLeft / 17) with
      | [] => (false, s)
      | p :: ps => requestRounds rounds true ((p :: ps).foldl (fun s p ↦ s.write (.request p)) s)
    else (success, s)

def tryRequestPieces : Bool × PeerConnection :=
  if i.attempt.full then (false, s) else requestRounds i.attempt.rounds false s

def fillRequests : Except PeerFault PeerConnection :=
  if s.type = .leech && s.tryRequest then
    if s.shouldRequest i then
      let r := s.tryRequestPieces i
      let s := { r.2 with tryRequest := r.1 }
      if !r.1 && !i.active then downQueue.setNotQueued { s with sendInterested := true, downInterested := false }
      else .ok s
    else .ok { s with tryRequest := true }
  else .ok s

/-- The loop that writes the haves, the oldest first; the timer is set to after the last one. -/
def writeHaves : List (ℕ × ℕ) → PeerConnection → PeerConnection
  | [], s => s
  | h :: haves, s =>
    let s := { s.write (.have h.2) with haveTimer := h.1 + 1 }
    if s.canWrite 9 then writeHaves haves s else s

def fillHaves : PeerConnection :=
  match s.haveQueue with
  | [] => s
  | h :: _ =>
    if s.type = .leech && s.haveTimer ≤ h.1 && s.canWrite 9 then
      writeHaves (s.haveQueue.takeWhile fun h ↦ s.haveTimer ≤ h.1).reverse s
    else s

def offerChunk : Except PeerFault PeerConnection :=
  match i.offer with
  | .noOffer => .ok s
  | .done => .error .closed
  | .chunk index size =>
    if some index = s.lastIndex then .ok s
    else .ok { s.write (.have index) with lastIndex := some index, bytesLeft := size }

def fillOffer : Except PeerFault PeerConnection :=
  if s.type = .initialSeed && s.canWrite 9 then s.offerChunk i else .ok s

def writeCancels : List Piece → PeerConnection → PeerConnection
  | [], s => { s with cancelQueue := [] }
  | p :: queue, s =>
    if s.canWrite 17 then writeCancels queue (s.write (.cancel p)) else { s with cancelQueue := p :: queue }

def fillCancels : PeerConnection :=
  if s.type = .leech then writeCancels s.cancelQueue s else s

def writePrepareExtension (id : UInt8) (length : ℕ) (s : PeerConnection) : PeerConnection :=
  { s.write (.extension id length) with extensionLeft := length }

/-- The length of the message that `generate_toggle_message` makes for `ut_pex`. -/
def toggleLength : ℕ := 18

def sendPexMessage : Except PeerFault (Bool × PeerConnection) :=
  if !s.extensions.remotePex then .ok (false, { s with sendPexMask := .zero })
  else if s.sendPexMask.enable || s.sendPexMask.disable then
    if !s.extensions.remotePex then
      .error (.internal "PeerConnectionBase::send_pex_message() Not supported by peer.")
    else
      .ok (true, { s.writePrepareExtension 0 toggleLength with
        sendPexMask := { s.sendPexMask with enable := false, disable := false } })
  else if s.sendPexMask.send && s.extensions.pexId ≠ 0 then
    let s := { s with sendPexMask := { s.sendPexMask with send := false } }
    if i.pexLength = 0 then .ok (false, s) else .ok (true, s.writePrepareExtension s.extensions.pexId i.pexLength)
  else .ok (true, { s with sendPexMask := .zero })

def sendExtMessage (length : ℕ) (s : PeerConnection) : PeerConnection :=
  { s.writePrepareExtension s.extensions.metadataId length with extensions := { s.extensions with pending := none } }

def shouldUpload (s : PeerConnection) : Except PeerFault (Bool × PeerConnection) :=
  match s.uploadQueue.dropWhile fun p ↦ !i.shouldUpload p.index with
  | [] => do
    let s ← upQueue.setNotQueued { s with uploadQueue := [] }
    let s ← upQueue.setQueued i.room s.now s
    .ok (!s.uploadQueue.isEmpty, s)
  | p :: queue =>
    let s := { s with uploadQueue := p :: queue }
    if s.lastIndex = some p.index.toNat then
      let s := { s with bytesLeft := s.bytesLeft - p.length }
      .ok (true, if s.bytesLeft = 0 then { s with lastIndex := none } else s)
    else .ok (true, s)

def writePreparePiece : Except PeerFault PeerConnection :=
  match s.uploadQueue with
  | [] => .ok s
  | p :: queue =>
    if !i.validPiece p then .error (.communication "Peer requested an invalid piece")
    else .ok { s.write (.piece p) with uploadQueue := queue, upPieceLength := p.length.toNat }

def fillPiece : Except PeerFault PeerConnection :=
  if !s.upChoke.choked && !s.uploadQueue.isEmpty && s.canWrite 13 then
    if s.type = .initialSeed then do
      let r ← s.shouldUpload i
      if r.1 then r.2.writePreparePiece i else .ok r.2
    else s.writePreparePiece i
  else .ok s

def fillExtension : Except PeerFault PeerConnection :=
  match s.extensions.pending with
  | some length => if s.canWrite 6 then .ok (s.sendExtMessage length) else s.fillPiece i
  | none => s.fillPiece i

def fillLast : Except PeerFault PeerConnection :=
  if s.sendPexMask.nonzero && s.canWrite 6 then do
    let r ← s.sendPexMessage i
    if r.1 then .ok r.2 else r.2.fillExtension i
  else s.fillExtension i

def fillWriteBuffer : Except PeerFault PeerConnection := do
  let s ← (s.fillChoke.fillInterested).fillRequests i
  let s ← s.fillHaves.fillOffer i
  s.fillCancels.fillLast i

end Fill

section Write

inductive ExtensionEffect
  | handshake (pex metadata : Option UInt8)
  | reply (length : ℕ)
  | other

def applyExtension : ExtensionEffect → PeerConnection → PeerConnection
  | .handshake pex metadata, s =>
    let remotePex := s.extensions.remotePex || pex.isSome
    { s with extensions := { s.extensions with
      initialHandshake := false
      remotePex := remotePex
      localPex := s.extensions.localPex && !(s.extensions.initialHandshake && !remotePex)
      pexId := pex.getD s.extensions.pexId
      metadataId := metadata.getD s.extensions.metadataId } }
  | .reply length, s =>
    match s.extensions.pending with
    | none => { s with extensions := { s.extensions with pending := some length } }
    | some _ => s
  | .other, s => s

/-- How a turn of the loop of `event_write` ends: with another turn, or with the return of the function. -/
inductive WriteEnd
  | again
  | blocked
  | throttled
  | removed
  deriving DecidableEq

/-- One turn: what the client answers, the bytes that the socket takes, the quota of the throttle, and the extension
message that was kept back while a reply was sent. -/
structure TurnInput where
  fill : FillInput
  sent : ℕ
  quota : ℕ
  pieceSent : ℕ
  extensionSent : ℕ
  deferred : ExtensionEffect

variable (i : TurnInput)

variable (s : PeerConnection)

def upChunk : WriteEnd × PeerConnection :=
  if i.quota = 0 then (.throttled, { s with polling := false })
  else
    let s := { s with upPieceLength := s.upPieceLength - min i.quota i.pieceSent }
    if s.upPieceLength = 0 then (.again, { s with upState := .idle }) else (.blocked, s)

def upExtension : Except PeerFault (WriteEnd × PeerConnection) :=
  if s.extensionLeft = 0 then .error (.internal "PeerConnectionBase::up_extension bad offset.")
  else
    let s := { s with extensionLeft := s.extensionLeft - i.extensionSent }
    if s.extensionLeft ≠ 0 then .ok (.blocked, s)
    else .ok (.again, { s.applyExtension i.deferred with upState := .idle })

def writeMsg : WriteEnd × PeerConnection :=
  let s := { s with position := s.position + min i.sent s.remaining }
  if s.remaining ≠ 0 then (.blocked, s)
  else
    let s := { s with position := 0, bufferEnd := 0 }
    match s.written.getLast? with
    | some (.piece _) => { s with upState := .writePiece }.upChunk i
    | some (.extension _ _) => (.again, { s with upState := .writeExtension })
    | _ => (.again, { s with upState := .idle })

def writeTurn : Except PeerFault (WriteEnd × PeerConnection) :=
  match s.upState with
  | .idle => do
    let s ← s.fillWriteBuffer i.fill
    if s.remaining = 0 then .ok (.removed, { s with polling := false })
    else .ok ({ s with upState := .msg }.writeMsg i)
  | .msg => .ok (s.writeMsg i)
  | .writePiece => .ok (s.upChunk i)
  | .writeExtension => s.upExtension i

end Write

section Events

/-- A received have: whether there is such a chunk, the peer had it, is a seeder now, all chunks are completed here,
and the chunk selector wants the chunk. -/
structure HaveInput where
  inRange : Bool
  known : Bool
  allSet : Bool
  done : Bool
  wanted : Bool
  room : Bool

def haveSeeder (h : HaveInput) (s : PeerConnection) : Except PeerFault PeerConnection :=
  if h.allSet then
    if s.type = .seed || (s.type ≠ .initialSeed && h.done) then .error .closed else upQueue.setNotQueued s
  else .ok s

def haveWanted (h : HaveInput) (s : PeerConnection) : Except PeerFault PeerConnection :=
  let s := { s with sendInterested := !s.downInterested, downInterested := true }
  if s.downUnchoked then downQueue.setQueued h.room s.now s else .ok s

def readHaveChunk (h : HaveInput) (s : PeerConnection) : Except PeerFault PeerConnection :=
  if !h.inRange then .error (.communication "Peer sent HAVE message with out-of-range index.")
  else if h.known then .ok s
  else do
    let s ← s.haveSeeder h
    if s.type ≠ .leech || h.done then .ok s
    else if s.downInterested then
      .ok (if !s.tryRequest && h.wanted then { s with tryRequest := true }.writeInsertPollSafe else s)
    else if h.wanted then do
      let s ← s.haveWanted h
      .ok { s with tryRequest := true }.writeInsertPollSafe
    else .ok s

def maxRequestQueueSize : ℕ := 2048

def readRequestPiece (p : Piece) (s : PeerConnection) : PeerConnection :=
  if s.upChoke.choked || maxRequestQueueSize ≤ s.uploadQueue.length || ((1 : UInt32) <<< 17) < p.length then s
  else if p ∈ s.uploadQueue then s
  else { s with uploadQueue := s.uploadQueue ++ [p] }.writeInsertPollSafe

def updateInterested (s : PeerConnection) : PeerConnection :=
  if s.type ≠ .leech || s.downInterested then s
  else { s with sendInterested := !s.downInterested, downInterested := true }

def receiveKeepalive (alive : Bool) (s : PeerConnection) : Except PeerFault PeerConnection :=
  if !alive then .error .closed
  else
    let s := if s.upState = .idle && s.canWrite 4 then s.writeInsertPollSafe.write .keepAlive else s
    .ok (if s.type ≠ .leech then s else { s with tryRequest := true })

def setPeerExchange (state : Bool) (s : PeerConnection) : PeerConnection :=
  if !s.extensions.remotePex then s
  else
    { s with
      sendPexMask := if state then { s.sendPexMask with enable := true, disable := false }
        else { s.sendPexMask with enable := false, disable := true }
      extensions := { s.extensions with localPex := state } }

/-- A chunk is completed: the entries of the have queue have different times. -/
def pushHave (index : ℕ) (s : PeerConnection) : PeerConnection :=
  match s.haveQueue with
  | [] => { s with haveQueue := [(s.now, index)] }
  | h :: haves =>
    { s with haveQueue := (if s.now ≤ h.1 then h.1 + 1 else s.now, index) :: h :: haves }

/-- What happens to a connection: time passes and chunks are completed, messages arrive, the client and the choke
queues act on it, the throttle activates it, and `event_write` takes a turn. -/
inductive Event
  | tick (passed : ℕ)
  | completed (index : ℕ)
  | expired (left : ℕ)
  | choke
  | unchoke (room : Bool)
  | interested (allSet room : Bool)
  | notInterested
  | have (h : HaveInput)
  | request (p : Piece)
  | piece
  | cancel (p : Piece)
  | extension (e : ExtensionEffect)
  | keepalive (alive : Bool)
  | updateInterested
  | cancelTransfer (p : Piece)
  | chokeUpload (choke : Bool)
  | chokeDownload (choke : Bool)
  | snub (snubbed room : Bool)
  | peerExchange (state : Bool)
  | doPeerExchange
  | activate
  | turn (i : TurnInput)

def step : Event → PeerConnection → Except PeerFault PeerConnection
  | .tick passed, s => .ok { s with now := s.now + passed }
  | .completed index, s => .ok (s.pushHave index)
  | .expired left, s => .ok { s with haveQueue := s.haveQueue.take left }
  | .choke, s =>
    if s.type ≠ .leech then .ok s else downQueue.setNotQueued { s with downUnchoked := false }
  | .unchoke room, s =>
    if s.type ≠ .leech then .ok s
    else if !s.downInterested then .ok { s with downUnchoked := true }
    else downQueue.setQueued room s.now { s with downUnchoked := true }
  | .interested allSet room, s =>
    if s.type = .leech && allSet then .ok s else upQueue.setQueued room s.now s
  | .notInterested, s => upQueue.setNotQueued s
  | .have h, s => s.readHaveChunk h
  | .request p, s => .ok (if s.upChoke.choked then s else s.writeInsertPollSafe.readRequestPiece p)
  | .piece, s =>
    if s.type ≠ .leech then
      .error (.communication "Received a piece but the connection is strictly for seeding.")
    else .ok { s with tryRequest := true }.writeInsertPollSafe
  | .cancel p, s => .ok { s with uploadQueue := s.uploadQueue.erase p }
  | .extension e, s =>
    let s := s.applyExtension e
    .ok (if s.extensions.pending.isSome then s.writeInsertPollSafe else s)
  | .keepalive alive, s => s.receiveKeepalive alive
  | .updateInterested, s => .ok s.updateInterested
  | .cancelTransfer p, s => .ok { s.writeInsertPollSafe with cancelQueue := s.cancelQueue ++ [p] }
  | .chokeUpload choke, s => upQueue.decide choke s
  | .chokeDownload choke, s => downQueue.decide choke s
  | .snub snubbed room, s => if snubbed then upQueue.setSnubbed s else upQueue.setNotSnubbed room s.now s
  | .peerExchange state, s => .ok (s.setPeerExchange state)
  | .doPeerExchange, s =>
    .ok (if s.extensions.remotePex && s.extensions.localPex then
      { s with sendPexMask := { s.sendPexMask with send := true } } else s)
  | .activate, s => .ok { s with polling := true }
  | .turn i, s => if s.polling then (s.writeTurn i).map Prod.snd else .ok s

/-- How a connection starts: its type, the time and the have queue with the newest first, and whether all chunks are
completed. -/
structure Setup where
  type : ConnectionType
  now : ℕ
  haveQueue : List (ℕ × ℕ)
  sorted : haveQueue.Pairwise fun h h' ↦ h'.1 < h.1
  done : Bool
  extensions : Extensions
  haveTimer : ℕ
  bytesLeft : UInt32

def start (c : Setup) : PeerConnection where
  type := c.type
  now := c.now
  haveQueue := c.haveQueue
  upState := .idle
  position := 0
  bufferEnd := 0
  written := []
  upChoke := {}
  downChoke := {}
  downInterested := !c.done
  downUnchoked := false
  sendChoked := false
  sendInterested := !c.done
  tryRequest := false
  sendPexMask := .zero
  extensions := { c.extensions with pending := none }
  upPieceLength := 0
  extensionLeft := 0
  uploadQueue := []
  cancelQueue := []
  haveTimer := c.haveTimer
  lastIndex := none
  bytesLeft := c.bytesLeft
  polling := true

def run (c : Setup) (events : List Event) : Except PeerFault PeerConnection := forEach step events (start c)

end Events

end PeerConnection

end LibTorrent
