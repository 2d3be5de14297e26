import LibTorrent.Lib.Outcome
import Mathlib.Logic.Function.Basic
import Mathlib.Algebra.Group.Nat.Defs

namespace LibTorrent

open Function Lib.Outcome

/-- What ends a run: an `internal_error`, a failed assertion, or the use of a transfer
that is not allocated. -/
inductive Fault
  | internal (message : String)
  | assertion (message : String)
  | dangling
  deriving DecidableEq

structure Piece where
  index : UInt32
  offset : UInt32
  length : UInt32
  deriving DecidableEq

inductive TransferState
  | erased
  | queued
  | leader
  | notLeader
  deriving DecidableEq

structure BlockTransfer where
  peerInfo : Option ℕ
  block : Option ℕ
  piece : Piece
  state : TransferState
  position : UInt32
  stall : UInt32
  deriving DecidableEq

def BlockTransfer.isFinished (x : BlockTransfer) : Bool := x.position = x.piece.length

inductive BlockState
  | incomplete
  | completed
  | invalid
  deriving DecidableEq

structure Block where
  piece : Piece
  state : BlockState
  notStalled : UInt32
  queued : List ℕ
  transfers : List ℕ
  leader : Option ℕ

inductive Bucket
  | queued
  | unordered
  | stalled
  | choked
  deriving DecidableEq

structure RequestList where
  transfer : Option ℕ
  queues : Bucket → List ℕ
  lastUnorderedPosition : ℕ
  unorderedScheduled : Bool

/-- A peer: its `PeerInfo` and, while it is connected, its connection. -/
structure Peer where
  transferCounter : ℕ
  connected : Bool
  requests : RequestList
  cancelQueue : List Piece

/-- The blocks of one block list, the transfers that were allocated, and the peers. -/
structure World where
  heap : ℕ → Option BlockTransfer
  next : ℕ
  released : List ℕ
  blocks : ℕ → Block
  size : ℕ
  finished : ℕ
  present : Bool
  peers : ℕ → Peer

namespace World

variable (w : World)

def get (t : ℕ) : Except Fault BlockTransfer :=
  match w.heap t with
  | some x => .ok x
  | none => .error .dangling

def put (t : ℕ) (x : BlockTransfer) : World := { w with heap := update w.heap t (some x) }

def setBlock (b : ℕ) (B : Block) : World := { w with blocks := update w.blocks b B }

def setPeer (p : ℕ) (P : Peer) : World := { w with peers := update w.peers p P }

def isState (s : TransferState) (t : ℕ) : Bool := (w.heap t).any fun x ↦ x.state = s

def positionOf (t : ℕ) : UInt32 := ((w.heap t).map BlockTransfer.position).getD 0

end World

def followAll (l : List ℕ) (w : World) : Except Fault World :=
  if l.all fun t ↦ (w.heap t).isSome then .ok w else .error .dangling

def incTransferCounter (p : ℕ) (w : World) : Except Fault World :=
  if (w.peers p).transferCounter = 2 ^ 32 - 1 then
    .error (.internal "PeerInfo::inc_transfer_counter() m_transferCounter overflow")
  else .ok (w.setPeer p { w.peers p with transferCounter := (w.peers p).transferCounter + 1 })

def decTransferCounter (p : ℕ) (w : World) : Except Fault World :=
  if (w.peers p).transferCounter = 0 then
    .error (.internal "PeerInfo::dec_transfer_counter() m_transferCounter underflow")
  else .ok (w.setPeer p { w.peers p with transferCounter := (w.peers p).transferCounter - 1 })

def countPeer (count : ℕ → World → Except Fault World) (p : Option ℕ) (w : World) : Except Fault World :=
  match p with
  | some q => count q w
  | none => .ok w

def setPeerInfo (t : ℕ) (p : Option ℕ) (w : World) : Except Fault World := do
  let x ← w.get t
  let w ← countPeer decTransferCounter x.peerInfo w
  countPeer incTransferCounter p (w.put t { x with peerInfo := p })

/-- `new BlockTransfer`, with the values that its creator sets, and then its peer. -/
def newTransfer (x : BlockTransfer) (p : ℕ) (w : World) : Except Fault (ℕ × World) := do
  let t := w.next
  let w := { w with heap := update w.heap t (some { x with peerInfo := none }), next := t + 1 }
  let w ← setPeerInfo t (some p) w
  .ok (t, w)

def deleteTransfer (t : ℕ) (w : World) : Except Fault World := do
  let x ← w.get t
  if x.block ≠ none then .error (.assertion "BlockTransfer::~BlockTransfer() block not NULL")
  else if x.peerInfo ≠ none then .error (.assertion "BlockTransfer::~BlockTransfer() peer_info not NULL")
  else .ok { w with heap := update w.heap t none, released := t :: w.released }

def findIf (f : BlockTransfer → Bool) : List ℕ → World → Except Fault (Option ℕ)
  | [], _ => .ok none
  | t :: l, w => do
    let x ← w.get t
    if f x then .ok (some t) else findIf f l w

def cancelTransfer (p t : ℕ) (w : World) : Except Fault World := do
  let x ← w.get t
  if x.peerInfo ≠ some p then
    .error (.internal "PeerConnectionBase::cancel_transfer(...) peer info doesn't match")
  else if (w.peers p).requests.transfer = some t then .ok w
  else .ok (w.setPeer p { w.peers p with cancelQueue := (w.peers p).cancelQueue ++ [x.piece] })

namespace Block

def isFinished (b : ℕ) (w : World) : Except Fault Bool :=
  match (w.blocks b).leader with
  | none => .ok false
  | some l => (w.get l).map BlockTransfer.isFinished

variable (b : ℕ)

variable (w : World)

def isTransfering : Except Fault Bool :=
  match (w.blocks b).leader with
  | none => .ok false
  | some l => (w.get l).map fun x ↦ !x.isFinished

def insert (b p : ℕ) (w : World) : Except Fault (Option ℕ × World) := do
  let q ← findIf (fun x ↦ x.peerInfo = some p) (w.blocks b).queued w
  if q ≠ none then .ok (none, w)
  else
    let q ← findIf (fun x ↦ x.peerInfo = some p) (w.blocks b).transfers w
    if q ≠ none then .ok (none, w)
    else
      let w := w.setBlock b { w.blocks b with notStalled := (w.blocks b).notStalled + 1 }
      let (t, w) ← newTransfer ⟨none, some b, (w.blocks b).piece, .queued, 0, 0⟩ p w
      .ok (some t, w.setBlock b { w.blocks b with queued := (w.blocks b).queued ++ [t] })

/-- The check and the decrement of `m_notStalled` that two functions share. -/
def takeNotStalled (message : String) (b : ℕ) (x : BlockTransfer) (w : World) : Except Fault World :=
  if x.stall = 0 then
    if (w.blocks b).notStalled = 0 then .error (.internal message)
    else .ok (w.setBlock b { w.blocks b with notStalled := (w.blocks b).notStalled - 1 })
  else .ok w

def dropTransfer (t : ℕ) (x : BlockTransfer) (w : World) : Except Fault World :=
  match x.peerInfo with
  | none => deleteTransfer t w
  | some p => if (w.peers p).connected then cancelTransfer p t w else .ok w

def invalidateTransfer (b t : ℕ) (w : World) : Except Fault World :=
  if (w.blocks b).leader = some t then
    .error (.internal "Block::invalidate_transfer(...) transfer == m_leader.")
  else do
    let x ← w.get t
    let w ← takeNotStalled "Block::invalidate_transfer(...) m_notStalled == 0." b x (w.put t { x with block := none })
    dropTransfer t x w

def removeTransfers (keep : ℕ → Bool) (w : World) : Except Fault World := do
  let w ← followAll (w.blocks b).transfers w
  let kept := (w.blocks b).transfers.filter keep
  let dropped := (w.blocks b).transfers.filter fun t ↦ !keep t
  let w := w.setBlock b { w.blocks b with transfers := kept ++ dropped }
  let w ← forEach (invalidateTransfer b) dropped w
  .ok (w.setBlock b { w.blocks b with transfers := kept })

def removeErasedTransfers : Except Fault World :=
  removeTransfers b (fun t ↦ !w.isState .erased t) w

def removeNonLeaderTransfers : Except Fault World :=
  removeTransfers b (w.isState .leader) w

/-- `std::max_element` by position, the first of the largest. -/
def maxPosition : List ℕ → Option ℕ
  | [] => none
  | t :: l => some (l.foldl (fun best t ↦ if w.positionOf best < w.positionOf t then t else best) t)

def setState (t : ℕ) (s : TransferState) (w : World) : Except Fault World := do
  let x ← w.get t
  .ok (w.put t { x with state := s })

def candidates (l : List ℕ) : List ℕ :=
  (l.dropWhile (w.isState .leader)).filter (w.isState .notLeader)

def partitioned (l : List ℕ) : List ℕ :=
  l.takeWhile (w.isState .leader) ++
    (candidates w l ++ (l.dropWhile (w.isState .leader)).filter fun t ↦ !w.isState .notLeader t)

def promote : Except Fault World := do
  let w ← followAll (w.blocks b).transfers w
  let newLeader := maxPosition w (candidates w (w.blocks b).transfers)
  let w := w.setBlock b { w.blocks b with transfers := partitioned w (w.blocks b).transfers, leader := newLeader }
  match newLeader with
  | some t => setState t .leader w
  | none => removeErasedTransfers b w

def stallUnit (x : BlockTransfer) : UInt32 := if x.stall = 0 then 1 else 0

def eraseFromLists (b t : ℕ) (x : BlockTransfer) (w : World) : Except Fault World :=
  if x.state = .queued then
    if t ∉ (w.blocks b).queued then .error (.internal "Block::erase(...) Could not find transfer.")
    else .ok (w.setBlock b { w.blocks b with queued := (w.blocks b).queued.erase t })
  else if x.isFinished then .error (.internal "Block::erase(...) Transfer is finished.")
  else if t ∉ (w.blocks b).transfers then .error (.internal "Block::erase(...) Could not find transfer.")
  else if (w.blocks b).leader = some t then
    if (w.blocks b).state = .completed then
      .error (.internal "Block::erase with 'transfer == m_transfer && m_state == STATE_COMPLETED'")
    else promote b (w.setBlock b { w.blocks b with transfers := (w.blocks b).transfers.erase t })
  else .ok (w.setBlock b { w.blocks b with transfers := (w.blocks b).transfers.erase t })

def erase (b t : ℕ) (w : World) : Except Fault World := do
  let x ← w.get t
  if x.state = .erased then .error (.internal "Block::erase(...) transfer already erased")
  else if x.peerInfo ≠ none then .error (.internal "Block::erase(...) transfer has non-null peer info")
  else
    let w := w.setBlock b { w.blocks b with notStalled := (w.blocks b).notStalled - stallUnit x }
    let w ← eraseFromLists b t x w
    let x ← w.get t
    deleteTransfer t (w.put t { x with block := none })

def transfering (b t : ℕ) (w : World) : Except Fault (Bool × World) := do
  let x ← w.get t
  if x.block = none then .error (.internal "Block::transfering(...) transfer->block() == NULL.")
  else if t ∉ (w.blocks b).queued then .error (.internal "Block::transfering(...) not queued.")
  else
    let w := w.setBlock b { w.blocks b with
      queued := (w.blocks b).queued.erase t, transfers := (w.blocks b).transfers ++ [t] }
    if (w.blocks b).leader ≠ none then .ok (false, w.put t { x with state := .notLeader })
    else .ok (true, (w.setBlock b { w.blocks b with leader := some t }).put t { x with state := .leader })

def countFinished (w : World) : ℕ → Except Fault ℕ
  | 0 => .ok 0
  | n + 1 => do
    let f ← isFinished n w
    let k ← countFinished w n
    .ok (k + f.toNat)

def completed (b t : ℕ) (w : World) : Except Fault (Bool × World) := do
  let x ← w.get t
  if x.block = none then .error (.internal "Block::completed(...) transfer->block() == NULL.")
  else if x.state ≠ .leader then .error (.internal "Block::completed(...) transfer is not the leader.")
  else
    let f ← isFinished b w
    if f = false then .error (.internal "Block::completed(...) !is_finished().")
    else if (w.blocks b).leader ≠ some t then .error (.internal "Block::completed(...) transfer != m_leader.")
    else
      let w := { w with finished := w.finished + 1 }
      let n ← countFinished w w.size
      if n < w.finished then .error (.internal "Block::completed(...) Finished blocks too large.")
      else
        let w := w.setBlock b { w.blocks b with notStalled := (w.blocks b).notStalled - stallUnit x }
        let w := w.put t { x with block := none, stall := 0xFFFFFFFF }
        let w ← forEach (invalidateTransfer b) (w.blocks b).queued w
        let w := w.setBlock b { w.blocks b with queued := [] }
        let w ← removeNonLeaderTransfers b w
        if (w.blocks b).transfers.getLast? ≠ some t then
          .error (.internal "Block::completed(...) m_transfers.empty() || m_transfers.back() != transfer.")
        else
          let w := w.setBlock b { w.blocks b with state := .completed }
          .ok (w.finished = w.size, w)

def retryTransfer : Except Fault World :=
  .ok (w.setBlock b { w.blocks b with state := .incomplete })

def transferDissimilar (b t : ℕ) (w : World) : Except Fault World := do
  let x ← w.get t
  if x.state ≠ .notLeader ∨ (w.blocks b).leader = some t then
    .error (.internal "Block::transfer_dissimilar(...) transfer is the leader.")
  else
    let w := w.setBlock b { w.blocks b with notStalled := (w.blocks b).notStalled - stallUnit x }
    .ok (w.put t { x with state := .erased, position := 0, block := none })

def stalledTransfer (b t : ℕ) (w : World) : Except Fault World := do
  let x ← w.get t
  let w ← takeNotStalled "Block::stalled(...) m_notStalled == 0." b x w
  .ok (w.put t { x with stall := x.stall + 1 })

def stalled (t : ℕ) (w : World) : Except Fault World := do
  let x ← w.get t
  match x.block with
  | none => .ok w
  | some b => stalledTransfer b t w

def changeLeader (b t : ℕ) (w : World) : Except Fault World :=
  if (w.blocks b).leader = some t then .error (.internal "Block::change_leader(...) m_leader == transfer.")
  else do
    let f ← isFinished b w
    if f then .error (.internal "Block::change_leader(...) is_finished().")
    else
      let w ← match (w.blocks b).leader with
        | none => .ok w
        | some l => setState l .notLeader w
      setState t .leader (w.setBlock b { w.blocks b with leader := some t })

def failedLeader : Except Fault World := do
  let f ← isFinished b w
  if f = false then .error (.internal "Block::failed_leader(...) !is_finished().")
  else .ok (w.setBlock b { w.blocks b with leader := none })

def release (t : ℕ) (w : World) : Except Fault World := do
  let w ← setPeerInfo t none w
  let x ← w.get t
  match x.block with
  | none => deleteTransfer t w
  | some b => erase b t w

def dropLeaderPeer : Except Fault World :=
  match (w.blocks b).state, (w.blocks b).leader with
  | .invalid, _ =>
    .error (.assertion "Block dtor with 'm_state != STATE_INCOMPLETE && m_state != STATE_COMPLETED'")
  | .incomplete, _ => .ok w
  | .completed, none => .error (.assertion "Block dtor with 'm_state == STATE_COMPLETED && m_leader == NULL'")
  | .completed, some l => setPeerInfo l none w

def destroy : Except Fault World := do
  let w ← dropLeaderPeer b w
  let w := w.setBlock b { w.blocks b with leader := none, state := .invalid }
  let w ← forEach (invalidateTransfer b) (w.blocks b).queued w
  let w := w.setBlock b { w.blocks b with queued := [] }
  let w ← forEach (invalidateTransfer b) (w.blocks b).transfers w
  let w := w.setBlock b { w.blocks b with transfers := [] }
  if (w.blocks b).notStalled ≠ 0 then .error (.assertion "Block::clear() m_stalled != 0.")
  else .ok w

end Block

namespace BlockList

def doAllFailed (w : World) : Except Fault World := do
  if w.present = false then .error (.internal "TransferList::hash_failed(...) Could not find index.")
  else
    let w ← forEach Block.failedLeader (List.range w.size) { w with finished := 0 }
    forEach Block.retryTransfer (List.range w.size) w

def destroy (w : World) : Except Fault World :=
  if w.present = false then .error (.internal "TransferList::erase(...) itr == m_chunks.end().")
  else do
    let w ← forEach Block.destroy (List.range w.size) w
    .ok { w with present := false }

end BlockList

end LibTorrent
