import LibTorrent.Lib.Decimal
import LibTorrent.Lib.Memory
import LibTorrent.Transfer.RequestList

namespace LibTorrent

open Function Lib.Decimal Lib.Memory Lib.Outcome List RequestList UInt32

/-- The places of the blocks in a piece: none is empty, and they lie one after the other. -/
structure BlockLayout where
  pieces : List Piece
  positive : ∀ q ∈ pieces, 0 < q.length.toNat
  within : ∀ q ∈ pieces, q.offset.toNat + q.length.toNat < 2 ^ 32
  ordered : pieces.Pairwise fun q r ↦ q.offset.toNat + q.length.toNat ≤ r.offset.toNat

/-- `torrent::BlockFailed`: the data sets that failed, with how often each of them came. -/
structure BlockFailed where
  entries : List (Bytes × UInt32)
  current : ℕ

def invalidIndex : UInt32 := 0xFFFFFFFF

namespace BlockFailed

def maxElement : List (Bytes × UInt32) → Option ℕ
  | [] => none
  | e :: l =>
    match maxElement l with
    | none => some 0
    | some i => if e.2 < (l.getD i e).2 then some (i + 1) else some 0

def reverseMaxElement : List (Bytes × UInt32) → Option ℕ
  | [] => none
  | e :: l =>
    match reverseMaxElement l with
    | none => some 0
    | some i => if (l.getD i e).2 < e.2 then some 0 else some (i + 1)

end BlockFailed

/-- A piece that is downloaded: its block list, the memory of its chunk, the failed data of the
blocks, and the peers reported for corrupt data. `received` are the bytes each transfer has
received since it started; no function reads it. -/
structure Assembly where
  world : World
  memory : ℕ → UInt8
  received : ℕ → Bytes
  failedIndex : ℕ → UInt32
  failedList : ℕ → Option BlockFailed
  failed : UInt32
  attempt : UInt32
  corrupt : List ℕ

namespace Assembly

def start (layout : BlockLayout) (memory : ℕ → UInt8) (counters : ℕ → ℕ) (connected : ℕ → Bool) : Assembly where
  world := .start layout.pieces counters connected
  memory := memory
  received _ := []
  failedIndex _ := invalidIndex
  failedList _ := none
  failed := 0
  attempt := 0
  corrupt := []

def lift (f : World → Except Fault World) (d : Assembly) : Except Fault Assembly := do
  let w ← f d.world
  .ok { d with world := w }

def note (t : ℕ) (s : Bytes) (d : Assembly) : Assembly :=
  { d with received := update d.received t (d.received t ++ s) }

/-- `down_chunk_process`, which also stands for `down_chunk`: data of the leader. -/
def downChunkProcess (p : ℕ) (buffer : Bytes) (d : Assembly) : Except Fault (UInt32 × Assembly) :=
  match (d.world.requests p).transfer with
  | none => .error .dangling
  | some t => do
    let x ← d.world.get t
    let length := min (x.piece.length - x.position) (ofNat buffer.length)
    let w ← adjustPosition t length d.world
    let memory := store d.memory (x.piece.offset + x.position).toNat (buffer.take length.toNat)
    .ok (length, note t (buffer.take length.toNat) { d with world := w, memory := memory })

/-- `down_chunk_skip_process`: data of a transfer that does not lead. -/
def downChunkSkipProcess (p : ℕ) (buffer : Bytes) (d : Assembly) : Except Fault (UInt32 × Assembly) :=
  match (d.world.requests p).transfer with
  | none => .error .dangling
  | some t => do
    let x ← d.world.get t
    let length := min (ofNat buffer.length) (x.piece.length - x.position)
    match x.block with
    | none =>
      let w ← adjustPosition t length d.world
      .ok (length, note t (buffer.take length.toNat) { d with world := w })
    | some b =>
      let active ← Block.isTransfering b d.world
      if active = false then .error (.internal
        "PeerConnectionBase::down_chunk_skip_process(...) block is not transferring, yet we have non-leaders.")
      else
        let position := ((d.world.blocks b).leader.map d.world.positionOf).getD 0
        if x.position > position then .error (.internal
          "PeerConnectionBase::down_chunk_skip_process(...) transfer is past the Block's position.")
        else
          let compareLength := min length (position - x.position)
          if load d.memory (x.piece.offset + x.position).toNat compareLength.toNat ≠
              buffer.take compareLength.toNat then
            let w ← transferDissimilar p d.world
            match (w.requests p).transfer with
            | none => .error .dangling
            | some dummy =>
              let w ← adjustPosition dummy length w
              .ok (length, { d with world := w })
          else
            let w ← adjustPosition t compareLength d.world
            let d := note t (buffer.take compareLength.toNat) { d with world := w }
            if compareLength = length then .ok (length, d)
            else
              let w ← Block.changeLeader b t d.world
              let rest := (buffer.drop compareLength.toNat).take (length - compareLength).toNat
              let (n, d) ← downChunkProcess p rest { d with world := w }
              if n ≠ length - compareLength then .error (.internal
                "PeerConnectionBase::down_chunk_skip_process(...) down_chunk_process(...) returned wrong value.")
              else .ok (length, d)

def downChunkFinished (p : ℕ) (d : Assembly) : Except Fault Assembly :=
  match (d.world.requests p).transfer with
  | none => .error .dangling
  | some t => do
    let x ← d.world.get t
    if x.isFinished then
      if x.state = .leader then d.lift (finished p) else d.lift (skipped p)
    else .ok d

/-- A read of piece data: at most what is left of the piece. A transfer with a block leads it
or skips; one that leads without a block reads nothing. -/
def receive (p : ℕ) (bytes : Bytes) (d : Assembly) : Except Fault Assembly :=
  match (d.world.requests p).transfer with
  | none => .ok d
  | some t => do
    let x ← d.world.get t
    let buffer := bytes.take (x.piece.length - x.position).toNat
    if x.state = .leader then
      if x.block = none then .ok d
      else
        let (_, d) ← downChunkProcess p buffer d
        downChunkFinished p d
    else
      let (n, d) ← downChunkSkipProcess p buffer d
      if n ≠ ofNat buffer.length then .error (.internal
        "PeerConnectionBase::down_chunk_skip() down_chunk_skip_process(m_nullBuffer, length) != length.")
      else downChunkFinished p d

variable (d : Assembly)

def data (b : ℕ) : Bytes :=
  load d.memory (d.world.blocks b).piece.offset.toNat (d.world.blocks b).piece.length.toNat

/-- The body of the first loop of `mark_and_disconnect_if_single_peer`, and the blocks after it. -/
def firstPeer (w : World) : List ℕ → Except Fault (Option ℕ × List ℕ)
  | [] => .ok (none, [])
  | b :: bs =>
    match (w.blocks b).transfers with
    | [] => firstPeer w bs
    | t :: _ => do
      let x ← w.get t
      .ok (x.peerInfo, bs)

def allFrom (w : World) (p : Option ℕ) : List ℕ → Except Fault Bool
  | [] => .ok true
  | b :: bs => do
    let other ← findIf (fun x ↦ x.peerInfo ≠ p) (w.blocks b).transfers w
    if other ≠ none then .ok false else allFrom w p bs

/-- The peer that `mark_and_disconnect_if_single_peer` reports. -/
def singlePeer (w : World) : Except Fault (Option ℕ) := do
  let (p, bs) ← firstPeer w (range w.size)
  let all ← allFrom w p bs
  .ok (if all then p else none)

def updateFailed (b : ℕ) (s : ℕ × Assembly) : Except Fault (ℕ × Assembly) :=
  let (promoted, d) := s
  let list := (d.failedList b).getD ⟨[], invalidIndex.toNat⟩
  let i := list.entries.findIdx fun e ↦ e.1 = d.data b
  match (d.world.blocks b).leader with
  | none => .error .dangling
  | some l =>
    let first := BlockFailed.maxElement list.entries
    let last := BlockFailed.reverseMaxElement list.entries
    let count := fun j ↦ (list.entries.getD j ([], 0)).2
    let promoted := if i < list.entries.length ∧ first.map count = some (count i) ∧ first ≠ last then promoted + 1
      else promoted
    let entries := if i < list.entries.length then list.entries.modify i fun e ↦ (e.1, e.2 + 1)
      else list.entries ++ [(d.data b, 1)]
    .ok (promoted, { d with
      failedList := update d.failedList b (some ⟨entries, i⟩)
      failedIndex := update d.failedIndex l (ofNat i) })

def retryMostPopular (b : ℕ) (d : Assembly) : Except Fault Assembly :=
  match d.failedList b with
  | none => .error .dangling
  | some list =>
    match BlockFailed.reverseMaxElement list.entries with
    | none => .error (.internal "TransferList::retry_most_popular(...) No failed list entry found.")
    | some i =>
      if i = list.current then .ok d
      else .ok { d with
        memory := store d.memory (d.world.blocks b).piece.offset.toNat (list.entries.getD i ([], 0)).1
        failedList := update d.failedList b (some { list with current := i }) }

def doAllFailed (d : Assembly) : Except Fault Assembly := do
  let w ← BlockList.doAllFailed d.world
  .ok { d with
    world := w
    attempt := 0
    failedList b := if b < w.size then (d.failedList b).map fun l ↦ { l with current := invalidIndex.toNat }
      else d.failedList b }

def allFinished (w : World) : Except Fault Bool := do
  let n ← Block.countFinished w w.size
  .ok (n = w.size)

/-- The end of `TransferList::hash_failed`: the most popular data is tried once, and then the
blocks are downloaded again. -/
def retry : Except Fault Assembly :=
  if d.attempt ≠ 0 then doAllFailed d
  else do
    let (promoted, d) ← forEach updateFailed (range d.world.size) (0, { d with failed := d.failed + 1 })
    if 0 < promoted ∨ promoted < d.world.size then
      forEach retryMostPopular (range d.world.size) { d with attempt := 1 }
    else doAllFailed d

def hashFailed : Except Fault Assembly := do
  if d.world.present = false then .error (.internal "TransferList::hash_failed(...) Could not find index.")
  else
    let finished ← allFinished d.world
    if finished = false then
      .error (.internal "TransferList::hash_failed(...) Finished blocks does not match size.")
    else
      let peer ← singlePeer d.world
      retry { d with corrupt := d.corrupt ++ peer.toList }

def badTransfers (d : Assembly) (current : ℕ) : List ℕ → Finset ℕ → Except Fault (Finset ℕ)
  | [], s => .ok s
  | t :: l, s => do
    let x ← d.world.get t
    if (d.failedIndex t).toNat ≠ current ∧ d.failedIndex t ≠ invalidIndex then
      match x.peerInfo with
      | none => .error .dangling
      | some p => badTransfers d current l (insert p s)
    else badTransfers d current l s

def badPeers (d : Assembly) : List ℕ → Finset ℕ → Except Fault (Finset ℕ)
  | [], s => .ok s
  | b :: bs, s =>
    match d.failedList b with
    | none => .error .dangling
    | some list => do
      let s ← badTransfers d (list.entries.findIdx fun e ↦ e.1 = d.data b) (d.world.blocks b).transfers s
      badPeers d bs s

def markFailedPeers : Except Fault (Finset ℕ) := badPeers d (range d.world.size) ∅

/-- The peers that `TransferList::hash_succeeded` reports, and the state it leaves. -/
def hashSucceeded : Except Fault (Finset ℕ × Assembly) := do
  let finished ← allFinished d.world
  if finished = false then
    .error (.internal "TransferList::hash_succeeded(...) Finished blocks does not match size.")
  else
    let bad ← if d.failed ≠ 0 then markFailedPeers d else .ok ∅
    let d ← d.lift BlockList.destroy
    .ok (bad, d)

def Checking : Prop := d.world.present = true ∧
  (range d.world.size).all fun b ↦ (d.world.blocks b).state = .completed

instance (d : Assembly) : Decidable d.Checking := inferInstanceAs (Decidable (_ ∧ _))

end Assembly

/-- What a peer does with its requests. Piece data and hash checks are events of their own. -/
def Action.IsRequest : Action → Bool
  | .process .. | .skipProcess .. | .finished _ | .skipped _ | .doAllFailed | .destroy => false
  | _ => true

inductive Event
  | request (a : Action) (h : a.IsRequest)
  | receive (p : ℕ) (bytes : Bytes)
  | hashFailed

namespace Assembly

def step : Event → Assembly → Except Fault Assembly
  | .request a _, d => d.lift (LibTorrent.step a)
  | .receive p bytes, d => d.receive p bytes
  | .hashFailed, d => if d.Checking then d.hashFailed else .ok d

def run (es : List Event) (d : Assembly) : Except Fault Assembly := forEach step es d

end Assembly

end LibTorrent
