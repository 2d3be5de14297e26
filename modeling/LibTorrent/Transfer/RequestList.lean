import LibTorrent.Transfer.Basic

namespace LibTorrent

open Block Lib.Outcome

namespace World

variable (w : World) (p : ℕ)

def requests : RequestList := (w.peers p).requests

def setRequests (r : RequestList) : World := w.setPeer p { w.peers p with requests := r }

end World

namespace RequestList

def setQueue (r : RequestList) (i : Bucket) (l : List ℕ) : RequestList :=
  { r with queues := Function.update r.queues i l }

/-- `queue_buckets::move_to` for the first elements of a queue. -/
def moveTo (r : RequestList) (src : Bucket) (l rest : List ℕ) (dst : Bucket) : RequestList :=
  (r.setQueue src rest).setQueue dst ((r.setQueue src rest).queues dst ++ l)

def moveAllTo (r : RequestList) (src dst : Bucket) : RequestList := r.moveTo src (r.queues src) [] dst

variable (p : ℕ)

/-- `queue_buckets::destroy` for the first `n` elements of a queue. -/
def destroy (i : Bucket) (n : ℕ) (w : World) : Except Fault World := do
  let w ← forEach release (((w.requests p).queues i).take n) w
  .ok (w.setRequests p ((w.requests p).setQueue i (((w.requests p).queues i).drop n)))

def clearQueue (i : Bucket) (w : World) : Except Fault World :=
  destroy p i ((w.requests p).queues i).length w

def delegate (p : ℕ) : List ℕ → World → Except Fault World
  | [], w => .ok w
  | b :: bs, w => do
    let f ← isFinished b w
    if f then delegate p bs w
    else
      let (t, w) ← insert b p w
      match t with
      | none => delegate p bs w
      | some t =>
        delegate p bs (w.setRequests p ((w.requests p).setQueue .queued ((w.requests p).queues .queued ++ [t])))

variable (w : World)

def stallQueues : Except Fault World := do
  let w ← forEach stalled ((w.requests p).queues .queued) w
  let w := w.setRequests p ((w.requests p).moveAllTo .queued .stalled)
  let w ← forEach stalled ((w.requests p).queues .unordered) w
  .ok (w.setRequests p ((w.requests p).moveAllTo .unordered .stalled))

def stallInitial : Except Fault World := stallQueues p w

def stallProlonged : Except Fault World := do
  let w ← match (w.requests p).transfer with
    | none => .ok w
    | some t => stalled t w
  stallQueues p w

def choked (p : ℕ) (w : World) : Except Fault World :=
  if (w.requests p).queues .queued = [] ∧ (w.requests p).queues .unordered = [] then .ok w
  else .ok (w.setRequests p
    ((((w.requests p).moveAllTo .queued .choked).moveAllTo .unordered .choked).moveAllTo .stalled .choked))

def delayRemoveChoked : Except Fault World := clearQueue p .choked w

def prepareProcessUnordered (r : RequestList) (t : ℕ) : RequestList :=
  let r' := r.moveTo .queued ((r.queues .queued).takeWhile (· ≠ t)) ((r.queues .queued).dropWhile (· ≠ t)) .unordered
  if r.unorderedScheduled then r'
  else { r' with unorderedScheduled := true, lastUnorderedPosition := (r'.queues .unordered).length }

def delayProcessUnordered : Except Fault World := do
  let n := min (w.requests p).lastUnorderedPosition ((w.requests p).queues .unordered).length
  let w ← destroy p .unordered n w
  let left := ((w.requests p).queues .unordered).length
  .ok (w.setRequests p { w.requests p with lastUnorderedPosition := left, unorderedScheduled := left ≠ 0 })

def createDummy (piece : Piece) (position : UInt32) (w : World) : Except Fault (ℕ × World) :=
  newTransfer ⟨none, none, piece, .erased, position, 0⟩ p w

def samePiece (piece : Piece) (x : BlockTransfer) : Bool :=
  piece.index = x.piece.index ∧ piece.offset = x.piece.offset

def findIfInAny (r : RequestList) (f : BlockTransfer → Bool) (w : World) :
    List Bucket → Except Fault (Option (Bucket × ℕ))
  | [] => .ok none
  | i :: is => do
    let t ← findIf f (r.queues i) w
    match t with
    | some t => .ok (some (i, t))
    | none => findIfInAny r f w is

/-- The switch of `downloading`: the request list after `t` was taken out of the queue. -/
def takeFrom (r : RequestList) (i : Bucket) (t : ℕ) : RequestList :=
  let r := match i with
    | .queued => if (r.queues .queued).head? = some t then r else prepareProcessUnordered r t
    | .unordered =>
      if (r.queues .unordered).idxOf t < r.lastUnorderedPosition then
        { r with lastUnorderedPosition := r.lastUnorderedPosition - 1 }
      else r
    | .stalled | .choked => r
  { r.setQueue i ((r.queues i).erase t) with transfer := some t }

inductive Started
  | wanted
  | unwanted
  | wrongLength

def downloadingError (piece : Piece) (w : World) : Except Fault (Started × World) := do
  let (t, w) ← createDummy p piece 0 w
  .ok (.unwanted, w.setRequests p { w.requests p with transfer := some t })

def downloading (p : ℕ) (piece : Piece) (w : World) : Except Fault (Started × World) := do
  if (w.requests p).transfer ≠ none then
    .error (.internal "RequestList::downloading(...) m_transfer != nullptr.")
  else
    let found ← findIfInAny (w.requests p) (samePiece piece) w [.queued, .unordered, .stalled, .choked]
    match found with
    | none => downloadingError p piece w
    | some (i, t) =>
      let w := w.setRequests p (takeFrom (w.requests p) i t)
      let x ← w.get t
      if piece.length ≠ x.piece.length then
        if piece.length ≠ 0 then .ok (.wrongLength, w)
        else
          let w ← release t w
          downloadingError p piece w
      else
        match x.block with
        | none => .ok (.unwanted, w)
        | some b =>
          let (_, w) ← transfering b t w
          .ok (.wanted, w)

def finished (p : ℕ) (w : World) : Except Fault World :=
  match (w.requests p).transfer with
  | none => .error (.internal "RequestList::finished() called but no transfer is in progress.")
  | some t => do
    let x ← w.get t
    match x.block with
    | none => .error (.internal "RequestList::finished() called but transfer is invalid.")
    | some b =>
      let w := w.setRequests p { w.requests p with transfer := none }
      let (_, w) ← completed b t w
      .ok w

def skipped : Except Fault World :=
  match (w.requests p).transfer with
  | none => .error (.internal "RequestList::skip() called but no transfer is in progress.")
  | some t => do
    let w ← release t w
    .ok (w.setRequests p { w.requests p with transfer := none })

def transferDissimilar (p : ℕ) (w : World) : Except Fault World :=
  match (w.requests p).transfer with
  | none => .error (.internal "RequestList::transfer_dissimilar() called but no transfer is in progress.")
  | some t => do
    let x ← w.get t
    let (dummy, w) ← createDummy p x.piece x.position w
    match x.block with
    | none => .error .dangling
    | some b =>
      let w ← Block.transferDissimilar b t w
      .ok (w.setRequests p { w.requests p with transfer := some dummy })

def clear : Except Fault World := do
  let w ← if (w.requests p).transfer = none then .ok w else skipped p w
  let w ← clearQueue p .queued w
  let w ← clearQueue p .unordered w
  let w ← clearQueue p .stalled w
  clearQueue p .choked w

end RequestList

open RequestList

def adjustPosition (t : ℕ) (length : UInt32) (w : World) : Except Fault World := do
  let x ← w.get t
  .ok (w.put t { x with position := x.position + length })

def downChunkProcess (p : ℕ) (length : UInt32) (w : World) : Except Fault World :=
  match (w.requests p).transfer with
  | none => .error .dangling
  | some t => do
    let x ← w.get t
    adjustPosition t (min (x.piece.length - x.position) length) w

/-- `down_chunk_skip_process`. Whether the data is that of the leader is up to the peer. -/
def downChunkSkipProcess (p : ℕ) (length : UInt32) (same : Bool) (w : World) : Except Fault World :=
  match (w.requests p).transfer with
  | none => .error .dangling
  | some t => do
    let x ← w.get t
    let length := min length (x.piece.length - x.position)
    match x.block with
    | none => adjustPosition t length w
    | some b =>
      let active ← isTransfering b w
      if active = false then .error (.internal
        "PeerConnectionBase::down_chunk_skip_process(...) block is not transferring, yet we have non-leaders.")
      else
        let position := ((w.blocks b).leader.map w.positionOf).getD 0
        if x.position > position then .error (.internal
          "PeerConnectionBase::down_chunk_skip_process(...) transfer is past the Block's position.")
        else
          let compareLength := min length (position - x.position)
          if same = false then
            let w ← transferDissimilar p w
            match (w.requests p).transfer with
            | none => .error .dangling
            | some dummy => adjustPosition dummy length w
          else
            let w ← adjustPosition t compareLength w
            if compareLength = length then .ok w
            else
              let w ← changeLeader b t w
              downChunkProcess p (length - compareLength) w

inductive Action
  | delegate (p : ℕ) (bs : List ℕ)
  | stallInitial (p : ℕ)
  | stallProlonged (p : ℕ)
  | choked (p : ℕ)
  | delayRemoveChoked (p : ℕ)
  | delayProcessUnordered (p : ℕ)
  | downloading (p : ℕ) (piece : Piece)
  | process (p : ℕ) (length : UInt32)
  | skipProcess (p : ℕ) (length : UInt32) (same : Bool)
  | finished (p : ℕ)
  | skipped (p : ℕ)
  | clear (p : ℕ)
  | connection (p : ℕ) (connected : Bool)
  | doAllFailed
  | destroy

/-- One action. A peer handles the data of a piece only while it downloads one, and as
that of the leader only while its transfer leads. The `communication_error` for a wrong
length closes the connection. The hash of the piece is checked once all its blocks are
completed. -/
def step : Action → World → Except Fault World
  | .delegate p bs, w => if w.present then delegate p (bs.filter (· < w.size)) w else .ok w
  | .stallInitial p, w => stallInitial p w
  | .stallProlonged p, w => stallProlonged p w
  | .choked p, w => choked p w
  | .delayRemoveChoked p, w => delayRemoveChoked p w
  | .delayProcessUnordered p, w => delayProcessUnordered p w
  | .downloading p piece, w => do
    let (started, w) ← downloading p piece w
    match started with
    | .wanted | .unwanted => .ok w
    | .wrongLength => clear p w
  | .process p length, w =>
    match (w.requests p).transfer with
    | none => .ok w
    | some t => do
      let x ← w.get t
      if x.block ≠ none ∧ x.state = .leader then downChunkProcess p length w else .ok w
  | .skipProcess p length same, w =>
    match (w.requests p).transfer with
    | none => .ok w
    | some t => do
      let x ← w.get t
      if x.state = .leader then .ok w else downChunkSkipProcess p length same w
  | .finished p, w => finished p w
  | .skipped p, w => skipped p w
  | .clear p, w => clear p w
  | .connection p connected, w => .ok (w.setPeer p { w.peers p with connected := connected })
  | .doAllFailed, w =>
    if (List.range w.size).all fun b ↦ (w.blocks b).state = .completed then BlockList.doAllFailed w else .ok w
  | .destroy, w => BlockList.destroy w

/-- The state before the first request: `counters` are what the peers hold elsewhere. -/
def World.start (pieces : List Piece) (counters : ℕ → ℕ) (connected : ℕ → Bool) : World where
  heap _ := none
  next := 0
  released := []
  blocks b := ⟨(pieces.getD b ⟨0, 0, 0⟩), .incomplete, 0, [], [], none⟩
  size := pieces.length
  finished := 0
  present := true
  peers p := ⟨counters p, connected p, ⟨none, fun _ ↦ [], 0, false⟩, []⟩

def run (as : List Action) (w : World) : Except Fault World := forEach step as w

end LibTorrent
