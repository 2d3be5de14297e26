import LibTorrent.Lib.Outcome
import LibTorrent.Lib.Store
import Mathlib.Data.List.Sort
import Mathlib.Data.List.Count

namespace LibTorrent

open Lib.Outcome

/-- What ends a call: an `internal_error`, `std::vector::at` with a bad index, or a use of a null chunk. -/
inductive Thrown
  | internalError (message : String)
  | outOfRange
  | nullChunk
  deriving DecidableEq

structure Chunk where
  isWritable : Bool
  deriving DecidableEq

structure ChunkListNode where
  chunk : Option Chunk := none
  references : ℤ := 0
  writable : ℤ := 0
  blocking : ℤ := 0
  syncTriggered : Bool := false

structure ChunkHandle where
  node : Option ℕ
  writable : Bool
  blocking : Bool
  errno : ℕ

/-- `ChunkHandle::from_error`: an error of zero becomes `ENOENT`. -/
def ChunkHandle.fromError (err : ℕ) : ChunkHandle := ⟨none, false, false, if err = 0 then 2 else err⟩

structure MemoryManager where
  memoryUsage : ℕ
  memoryBlockCount : ℕ
  syncQueueMemoryUsage : ℕ
  syncQueueBlockCount : ℕ

namespace MemoryManager

def accountMemoryBlock (bytes : ℕ) (m : MemoryManager) : MemoryManager :=
  { m with memoryUsage := m.memoryUsage + bytes, memoryBlockCount := m.memoryBlockCount + 1 }

def releaseMemoryBlock (bytes : ℕ) (m : MemoryManager) : Except Thrown MemoryManager :=
  if m.memoryBlockCount = 0 then
    .error (.internalError "MemoryManager::release_memory_block() previous_count == 0.")
  else if m.memoryUsage < bytes then
    .error (.internalError "MemoryManager::release_memory_block() previous_usage < bytes.")
  else .ok { m with memoryUsage := m.memoryUsage - bytes, memoryBlockCount := m.memoryBlockCount - 1 }

def accountSyncQueue (bytes : ℕ) (m : MemoryManager) : MemoryManager :=
  { m with syncQueueMemoryUsage := m.syncQueueMemoryUsage + bytes, syncQueueBlockCount := m.syncQueueBlockCount + 1 }

def releaseSyncQueue (count chunkSize : ℕ) (m : MemoryManager) : Except Thrown MemoryManager :=
  if m.syncQueueBlockCount < count then
    .error (.internalError "MemoryManager::release_sync_queue() previous_count < count.")
  else if m.syncQueueMemoryUsage < count * chunkSize then
    .error (.internalError "MemoryManager::release_sync_queue() previous_usage < bytes.")
  else .ok { m with
    syncQueueMemoryUsage := m.syncQueueMemoryUsage - count * chunkSize
    syncQueueBlockCount := m.syncQueueBlockCount - count }

end MemoryManager

/-- The nodes are those below `size`; the queue holds node indices for the node pointers. -/
structure ChunkList where
  chunkSize : ℕ
  size : ℕ
  nodes : ℕ → ChunkListNode
  queue : List ℕ
  memory : MemoryManager

structure GetFlags where
  writable : Bool := false
  blocking : Bool := false
  nonblock : Bool := false
  hashing : Bool := false
  notHashing : Bool := false
  dontLog : Bool := false

structure SyncFlags where
  all : Bool := false
  force : Bool := false
  safe : Bool := false
  sloppy : Bool := false
  useTimeout : Bool := false
  ignoreError : Bool := false

inductive SyncType
  | sync
  | async

/-- What a call of `sync_chunks` finds outside the list: the `safe_sync` setting, whether the free disk space is at or
below its limit, which nodes were modified long enough ago, and which syncs succeed. -/
structure SyncEnv where
  safeSync : Bool
  lowDiskspace : Bool
  checkNode : ℕ → Bool
  synced : ℕ → SyncType → Bool

/-- What a call of `get` finds outside the list: the memory limit, whether `try_free_memory` goes through with a sync
of this list, and what the slot that creates the chunk returns. -/
structure GetEnv where
  maxMemoryUsage : ℕ
  tryFreeMemory : Bool
  sync : SyncEnv
  createChunk : Except ℕ Chunk

namespace ChunkList

def setNode (i : ℕ) (n : ChunkListNode) (s : ChunkList) : ChunkList :=
  { s with nodes := Function.update s.nodes i n }

def clearChunk (i : ℕ) (s : ChunkList) : Except Thrown ChunkList :=
  if (s.nodes i).chunk.isNone then .error (.internalError "ChunkList::clear_chunk(...) !node->is_valid().")
  else do
    let memory ← s.memory.releaseMemoryBlock s.chunkSize
    .ok { s.setNode i { s.nodes i with chunk := none } with memory := memory }

section Sync

def syncOptions (n : ChunkListNode) (flags : SyncFlags) : SyncType × Bool :=
  if flags.force then
    if flags.safe then (.sync, true) else (.async, true)
  else if flags.safe then
    if n.syncTriggered then (.sync, true) else (.async, false)
  else (.async, true)

variable (env : SyncEnv)

def syncChunk (i : ℕ) (options : SyncType × Bool) (s : ChunkList) :
    Except Thrown (Bool × ChunkList) :=
  if (s.nodes i).references ≤ 0 ∨ (s.nodes i).writable ≤ 0 then
    .error (.internalError "ChunkList::sync_chunk(...) got a node with invalid reference count.")
  else if (s.nodes i).chunk.isNone then .error .nullChunk
  else if !env.synced i options.1 then .ok (false, s)
  else if !options.2 then .ok (true, s.setNode i { s.nodes i with syncTriggered := true })
  else
    let n := { s.nodes i with
      syncTriggered := true
      references := (s.nodes i).references - 1
      writable := (s.nodes i).writable - 1 }
    if n.references = 0 then do
      let s ← (s.setNode i n).clearChunk i
      .ok (true, s)
    else .ok (true, s.setNode i n)

def seekRange (prevIndex : ℕ) : List ℕ → ℕ
  | [] => 0
  | i :: q => if 5 < i - prevIndex then 0 else seekRange i q + 1

/-- `std::swap_ranges` of `l` entries from `a` and from `b`. -/
def swapRanges (a b l : ℕ) (q : List ℕ) : List ℕ :=
  q.take a ++ ((q.drop b).take l ++ ((q.take b).drop (a + l) ++ ((q.drop a).take l ++ q.drop (b + l))))

/-- The loop of `partition_optimize`: `passed` are the entries before `itr`, `rest` those from it on. -/
def optimizeLoop (env : SyncEnv) (maxDistance : ℕ) :
    ℕ → List ℕ → ℕ → List ℕ → ℤ → Bool → List ℕ × ℕ × ℤ × Bool
  | 0, passed, first, rest, weight, dontSkip => (passed ++ rest, first, weight, dontSkip)
  | _ + 1, passed, first, [], weight, dontSkip => (passed, first, weight, dontSkip)
  | fuel + 1, passed, first, i :: rest, weight, dontSkip =>
    let distance := seekRange i rest + 1
    let range := (i :: rest).take distance
    let required := range.any env.checkNode
    if !required && distance < maxDistance then
      let l := min distance (passed.length - first)
      optimizeLoop env maxDistance fuel (swapRanges first (passed.length + distance - l) l (passed ++ range))
        (first + l) ((i :: rest).drop distance) weight (dontSkip || required)
    else
      optimizeLoop env maxDistance fuel (passed ++ range) first ((i :: rest).drop distance)
        (weight - distance * distance) (dontSkip || required)

def partitionOptimize (q : List ℕ) (weight : ℤ) (maxDistance : ℕ) (dontSkip : Bool) :
    List ℕ × List ℕ :=
  let r := optimizeLoop env maxDistance q.length [] 0 q weight dontSkip
  if !r.2.2.2 && 0 < r.2.2.1 then (r.1, []) else (r.1.take r.2.1, r.1.drop r.2.1)

structure SyncProgress where
  kept : List ℕ := []
  released : ℕ := 0
  failed : ℕ := 0

/-- The loop of `sync_chunks`: what is not released is swapped to the front of the range and stays in the queue. -/
def syncLoop (env : SyncEnv) (flags : SyncFlags) :
    List ℕ → SyncProgress → ChunkList → Except Thrown (SyncProgress × ChunkList)
  | [], p, s => .ok (p, s)
  | i :: rest, p, s => do
    let options := syncOptions (s.nodes i) flags
    let r ← syncChunk env i options s
    if !r.1 then syncLoop env flags rest { p with kept := p.kept ++ [i], failed := p.failed + 1 } r.2
    else if !options.2 then syncLoop env flags rest { p with kept := p.kept ++ [i] } r.2
    else syncLoop env flags rest { p with released := p.released + 1 } r.2

def resolveFlags (flags : SyncFlags) : SyncFlags :=
  if flags.safe || flags.sloppy then flags
  else if env.safeSync then { flags with safe := true }
  else if env.lowDiskspace then { flags with safe := true }
  else { flags with force := true }

def splitQueue (flags : SyncFlags) (s : ChunkList) : List ℕ × List ℕ :=
  let front := if flags.all then [] else s.queue.filter fun i ↦ (s.nodes i).writable ≠ 1
  let back := if flags.all then s.queue else s.queue.filter fun i ↦ (s.nodes i).writable = 1
  let sorted := back.insertionSort (· ≤ ·)
  let resolved := resolveFlags env flags
  if resolved.useTimeout && !resolved.force then
    let r := partitionOptimize env sorted 50 5 false
    (front ++ r.1, r.2)
  else (front, sorted)

def syncChunks (flags : SyncFlags) (s : ChunkList) : Except Thrown ((ℕ × Bool) × ChunkList) :=
  if s.queue.isEmpty then .ok ((0, false), s)
  else do
    let split := splitQueue env flags s
    let r ← syncLoop env (resolveFlags env flags) split.2 {} s
    let memory ← r.2.memory.releaseSyncQueue r.1.released s.chunkSize
    .ok ((r.1.failed, r.1.failed ≠ 0 && !flags.ignoreError),
      { r.2 with queue := split.1 ++ r.1.kept, memory := memory })

end Sync

def tryFreeMemory (env : GetEnv) (s : ChunkList) : Except Thrown ChunkList :=
  if 3 * env.maxMemoryUsage / 4 < s.memory.memoryUsage + s.chunkSize && env.tryFreeMemory then
    (syncChunks env.sync {} s).map Prod.snd
  else .ok s

/-- `ChunkManager::allocate`: the usage is read before memory is freed. -/
def allocate (env : GetEnv) (s : ChunkList) : Except Thrown (Bool × ChunkList) := do
  let freed ← s.tryFreeMemory env
  if env.maxMemoryUsage < s.memory.memoryUsage + s.chunkSize then .ok (false, freed)
  else .ok (true, { freed with memory := freed.memory.accountMemoryBlock s.chunkSize })

def acquire (index : ℕ) (flags : GetFlags) (chunk : Option Chunk) (s : ChunkList) : ChunkHandle × ChunkList :=
  let n := s.nodes index
  (⟨some index, flags.writable, flags.blocking, 0⟩, s.setNode index
    { chunk := chunk
      references := n.references + 1
      writable := if flags.writable then n.writable + 1 else n.writable
      blocking := if flags.blocking then n.blocking + 1 else n.blocking
      syncTriggered := if flags.writable then false else n.syncTriggered })

def get (index : ℕ) (flags : GetFlags) (env : GetEnv) (s : ChunkList) : Except Thrown (ChunkHandle × ChunkList) :=
  if s.size ≤ index then .error .outOfRange
  else
    match (s.nodes index).chunk with
    | none => do
      let r ← allocate env s
      if !r.1 then .ok (.fromError 12, r.2)
      else if !flags.hashing && !flags.notHashing then
        .error (.internalError "ChunkList::get(...) called with get_hashing and get_not_hashing flags set.")
      else
        match env.createChunk with
        | .ok chunk => .ok (acquire index flags (some chunk) r.2)
        | .error err => do
          let memory ← r.2.memory.releaseMemoryBlock s.chunkSize
          .ok (.fromError err, { r.2 with memory := memory })
    | some chunk =>
      if flags.writable && !chunk.isWritable then
        if (s.nodes index).blocking ≠ 0 then
          if flags.nonblock then .ok (.fromError 11, s)
          else .error (.internalError "No support yet for getting write permission for blocked chunk.")
        else
          match env.createChunk with
          | .ok chunk' => .ok (acquire index flags (some chunk') s)
          | .error err => .ok (.fromError err, s)
      else .ok (acquire index flags (some chunk) s)

def release (handle : ChunkHandle) (s : ChunkList) : Except Thrown ChunkList :=
  match handle.node with
  | none => .error (.internalError "ChunkList::release(...) received an invalid handle.")
  | some i =>
    let n := s.nodes i
    if s.size ≤ i then .error (.internalError "ChunkList::release(...) received an unknown handle.")
    else if n.references ≤ 0 ∨ (handle.writable = true ∧ n.writable ≤ 0) ∨
        (handle.blocking = true ∧ n.blocking ≤ 0) then
      .error (.internalError "ChunkList::release(...) received a node with bad reference count.")
    else
      let n := { n with blocking := if handle.blocking then n.blocking - 1 else n.blocking }
      if handle.writable then
        if n.writable = 1 then
          if i ∈ s.queue then
            .error (.internalError "ChunkList::release(...) tried to queue an already queued chunk.")
          else .ok { s.setNode i n with
            queue := s.queue ++ [i]
            memory := s.memory.accountSyncQueue s.chunkSize }
        else .ok (s.setNode i { n with references := n.references - 1, writable := n.writable - 1 })
      else
        let n := { n with references := n.references - 1 }
        if n.references = 0 then
          if i ∈ s.queue then .error (.internalError "ChunkList::release(...) tried to unmap a queued chunk.")
          else (s.setNode i n).clearChunk i
        else .ok (s.setNode i n)

end ChunkList

structure ChunkUse where
  list : ChunkList
  handles : List ChunkHandle

namespace ChunkUse

/-- The calls on a list. The callers of `get` always say whether they hash; a handle is released by its position among
those held. -/
inductive Event
  | get (index : ℕ) (flags : GetFlags) (mapped : flags.hashing = true ∨ flags.notHashing = true) (env : GetEnv)
  | release (k : ℕ)
  | syncChunks (flags : SyncFlags) (env : SyncEnv)

def step : Event → ChunkUse → Except Thrown ChunkUse
  | .get index flags _ env, x => do
    let r ← x.list.get index flags env
    .ok ⟨r.2, if r.1.node.isSome then x.handles ++ [r.1] else x.handles⟩
  | .release k, x =>
    match x.handles[k]? with
    | none => .ok x
    | some handle => do
      let list ← x.list.release handle
      .ok ⟨list, x.handles.eraseIdx k⟩
  | .syncChunks flags env, x => do
    let r ← x.list.syncChunks env flags
    .ok { x with list := r.2 }

def start (chunkSize size : ℕ) (memory : MemoryManager) : ChunkUse :=
  ⟨⟨chunkSize, size, fun _ ↦ {}, [], memory⟩, []⟩

def run (chunkSize size : ℕ) (memory : MemoryManager) (events : List Event) : Except Thrown ChunkUse :=
  forEach step events (start chunkSize size memory)

end ChunkUse

open Function Lib.Store

def held (i : ℕ) (handles : List ChunkHandle) : ℕ := handles.countP fun h ↦ h.node = some i

def heldWritable (i : ℕ) (handles : List ChunkHandle) : ℕ := handles.countP fun h ↦ h.node = some i && h.writable

def heldBlocking (i : ℕ) (handles : List ChunkHandle) : ℕ := handles.countP fun h ↦ h.node = some i && h.blocking

theorem MemoryManager.releaseMemoryBlock_eq {m : MemoryManager} {bytes : ℕ} (husage : bytes ≤ m.memoryUsage)
    (hblocks : 0 < m.memoryBlockCount) :
    m.releaseMemoryBlock bytes =
      .ok { m with memoryUsage := m.memoryUsage - bytes, memoryBlockCount := m.memoryBlockCount - 1 } := by
  rw [releaseMemoryBlock, if_neg hblocks.ne', if_neg (not_lt.mpr husage)]

namespace ChunkList

def loaded (s : ChunkList) : ℕ := tally (fun i ↦ (s.nodes i).chunk) s.size fun _ ↦ true

/-- The counters of a node for the given handles and queue. -/
@[mk_iff]
structure Counts (handles : List ChunkHandle) (queue : List ℕ) (i : ℕ) (n : ChunkListNode) : Prop where
  references : n.references = held i handles + if i ∈ queue then 1 else 0
  writable : n.writable = heldWritable i handles + if i ∈ queue then 1 else 0
  blocking : n.blocking = heldBlocking i handles

/-- The counters of all nodes, and the memory for the given share of other lists. -/
structure Counted (base : MemoryManager) (handles : List ChunkHandle) (queue : List ℕ) (s : ChunkList) : Prop where
  node : ∀ i, Counts handles queue i (s.nodes i)
  chunk : ∀ i, (s.nodes i).chunk.isSome = true ↔ 0 < (s.nodes i).references
  outside : ∀ i, s.size ≤ i → (s.nodes i).references = 0
  nodup : queue.Nodup
  usage : s.memory.memoryUsage = base.memoryUsage + s.chunkSize * s.loaded
  blocks : s.memory.memoryBlockCount = base.memoryBlockCount + s.loaded

variable {base : MemoryManager} {handles handles' : List ChunkHandle} {queue queue' q : List ℕ} {s s' : ChunkList}
  {i : ℕ} {n : ChunkListNode} {m : MemoryManager}

theorem Counts.perm (h : Counts handles queue i n) (hh : handles.Perm handles') (hq : queue.Perm queue') :
    Counts handles' queue' i n where
  references := by rw [h.references, held, held, hh.countP_eq]; simp only [hq.mem_iff]
  writable := by rw [h.writable, heldWritable, heldWritable, hh.countP_eq]; simp only [hq.mem_iff]
  blocking := by rw [h.blocking, heldBlocking, heldBlocking, hh.countP_eq]

theorem Counted.perm (h : Counted base handles queue s) (hh : handles.Perm handles') (hq : queue.Perm queue') :
    Counted base handles' queue' s :=
  { h with node := fun j ↦ (h.node j).perm hh hq, nodup := hq.nodup_iff.mp h.nodup }

theorem Counted.lt_size (h : Counted base handles queue s) (hpos : 0 < (s.nodes i).references) : i < s.size :=
  Nat.lt_of_not_le fun hle ↦ hpos.ne' (h.outside i hle)

theorem Counted.write (h : Counted base handles queue s) (queue' : List ℕ) (hi : i < s.size) (hn : Counts handles' queue' i n)
    (hchunk : n.chunk.isSome = true ↔ 0 < n.references)
    (hother : ∀ j, j ≠ i → ∀ n, Counts handles queue j n → Counts handles' queue' j n) (hnodup : queue'.Nodup)
    (husage : m.memoryUsage + s.chunkSize * weight (fun _ ↦ true) (s.nodes i).chunk =
      s.memory.memoryUsage + s.chunkSize * weight (fun _ ↦ true) n.chunk)
    (hblocks : m.memoryBlockCount + weight (fun _ ↦ true) (s.nodes i).chunk =
      s.memory.memoryBlockCount + weight (fun _ ↦ true) n.chunk) :
    Counted base handles' queue' { s.setNode i n with queue := q, memory := m } := by
  let t : ChunkList := { s.setNode i n with queue := q, memory := m }
  have hself : t.nodes i = n := update_self ..
  have hne (j : ℕ) (hj : j ≠ i) : t.nodes j = s.nodes j := update_of_ne hj ..
  have hloaded : t.loaded + weight (fun _ ↦ true) (s.nodes i).chunk = s.loaded + weight (fun _ ↦ true) n.chunk := by
    have hheap : (fun j ↦ (t.nodes j).chunk) = update (fun j ↦ (s.nodes j).chunk) i n.chunk := by
      funext j
      by_cases hj : j = i
      · rw [hj, hself, update_self]
      · rw [hne j hj, update_of_ne hj]
    rw [loaded, hheap]
    exact tally_update (fun j ↦ (s.nodes j).chunk) (fun _ ↦ true) hi n.chunk
  have hmul := congrArg (s.chunkSize * ·) hloaded
  simp only [Nat.mul_add] at hmul
  have husage' := h.usage
  have hblocks' := h.blocks
  refine ⟨fun j ↦ ?_, fun j ↦ ?_, fun j hj ↦ ?_, hnodup, ?_, ?_⟩
  · by_cases hj : j = i
    · rwa [hj, hself]
    · rw [hne j hj]
      exact hother j hj _ (h.node j)
  · by_cases hj : j = i
    · rwa [hj, hself]
    · rw [hne j hj]
      exact h.chunk j
  · rw [hne j (hi.trans_le hj).ne']
    exact h.outside j hj
  · change m.memoryUsage = base.memoryUsage + s.chunkSize * t.loaded
    omega
  · change m.memoryBlockCount = base.memoryBlockCount + t.loaded
    omega

theorem weight_isSome {c : Option Chunk} (h : c.isSome = true) : weight (fun _ ↦ true) c = 1 := by
  cases c with
  | none => simp at h
  | some c => rfl

theorem Counted.releasable (h : Counted base handles queue s) (hpos : 0 < (s.nodes i).references) :
    s.chunkSize ≤ s.memory.memoryUsage ∧ 0 < s.memory.memoryBlockCount := by
  have hone : 1 ≤ s.loaded := by
    have hle := weight_le_tally (fun j ↦ (s.nodes j).chunk) (fun _ ↦ true) (h.lt_size hpos)
    rwa [weight_isSome ((h.chunk i).mpr hpos)] at hle
  have hmul : s.chunkSize ≤ s.chunkSize * s.loaded := Nat.le_mul_of_pos_right _ hone
  have husage := h.usage
  have hblocks := h.blocks
  exact ⟨by omega, by omega⟩

theorem clearChunk_setNode (hchunk : n.chunk.isSome = true) (husage : s.chunkSize ≤ s.memory.memoryUsage)
    (hblocks : 0 < s.memory.memoryBlockCount) :
    (s.setNode i n).clearChunk i = .ok { s.setNode i { n with chunk := none } with
      memory := { s.memory with
        memoryUsage := s.memory.memoryUsage - s.chunkSize
        memoryBlockCount := s.memory.memoryBlockCount - 1 } } := by
  have hnone : n.chunk.isNone = false := by simpa using hchunk
  simp only [clearChunk, setNode, update_self, update_idem, hnone, Bool.false_eq_true, if_false,
    MemoryManager.releaseMemoryBlock_eq husage hblocks, ok_bind]

structure Framed (s s' : ChunkList) : Prop where
  size : s'.size = s.size
  chunkSize : s'.chunkSize = s.chunkSize
  queue : s'.queue = s.queue
  queueUsage : s'.memory.syncQueueMemoryUsage = s.memory.syncQueueMemoryUsage
  queueBlocks : s'.memory.syncQueueBlockCount = s.memory.syncQueueBlockCount

theorem Framed.refl (s : ChunkList) : Framed s s := ⟨rfl, rfl, rfl, rfl, rfl⟩

theorem Framed.trans {s'' : ChunkList} (h : Framed s s') (h' : Framed s' s'') : Framed s s'' :=
  ⟨h'.size.trans h.size, h'.chunkSize.trans h.chunkSize, h'.queue.trans h.queue, h'.queueUsage.trans h.queueUsage,
    h'.queueBlocks.trans h.queueBlocks⟩

theorem Counted.lower (h : Counted base handles queue s) (hpos : 0 < (s.nodes i).references)
    (hchunk : n.chunk = (s.nodes i).chunk) (hn : Counts handles' queue' i n)
    (hother : ∀ j, j ≠ i → ∀ n, Counts handles queue j n → Counts handles' queue' j n) (hnodup : queue'.Nodup) :
    (n.references = 0 → Gives ((s.setNode i n).clearChunk i) fun s' ↦
      Counted base handles' queue' s' ∧ Framed s s') ∧
    (n.references ≠ 0 → Counted base handles' queue' (s.setNode i n) ∧ Framed s (s.setNode i n)) := by
  have hi := h.lt_size hpos
  have hsome := (h.chunk i).mpr hpos
  refine ⟨fun hzero ↦ ?_, fun hzero ↦ ?_⟩
  · obtain ⟨husage, hblocks⟩ := h.releasable hpos
    rw [clearChunk_setNode (hchunk ▸ hsome) husage hblocks]
    refine ⟨h.write _ hi ⟨hn.references, hn.writable, hn.blocking⟩ (by simp [hzero]) hother hnodup ?_ ?_,
      ⟨rfl, rfl, rfl, rfl, rfl⟩⟩
    · rw [weight_isSome hsome]
      change s.memory.memoryUsage - s.chunkSize + s.chunkSize * 1 = s.memory.memoryUsage + s.chunkSize * 0
      omega
    rw [weight_isSome hsome]
    change s.memory.memoryBlockCount - 1 + 1 = s.memory.memoryBlockCount + 0
    omega
  · have hkept : n.chunk.isSome = true ↔ 0 < n.references := by
      rw [hchunk]
      have href := hn.references
      refine iff_of_true hsome ?_
      split_ifs at href <;> omega
    exact ⟨h.write _ hi hn hkept hother hnodup (by rw [hchunk]) (by rw [hchunk]), ⟨rfl, rfl, rfl, rfl, rfl⟩⟩

theorem ensures_syncChunk (h : Counted base handles (i :: queue) s) (env : SyncEnv) (options : SyncType × Bool) :
    Gives (s.syncChunk env i options) fun r ↦
      Counted base handles (if r.1 && options.2 then queue else i :: queue) r.2 ∧ Framed s r.2 := by
  obtain ⟨href, hwr, hbl⟩ := h.node i
  have hkept := And.intro href hwr
  rw [if_pos List.mem_cons_self] at href hwr
  have hpos : 0 < (s.nodes i).references := by omega
  obtain ⟨hfresh, hnodup⟩ := List.nodup_cons.mp h.nodup
  have hsome := (h.chunk i).mpr hpos
  rw [syncChunk, if_neg (by omega), if_neg (by simp [Option.isNone_eq_false_iff.mpr hsome])]
  refine .either ⟨h, Framed.refl s⟩ ?_
  refine .ite (fun hopt ↦ ?_) fun hopt ↦ ?_
  · have hopt' : options.2 = false := by simpa using hopt
    rw [ensures_ok, hopt', Bool.and_false]
    exact ⟨h.write _ (h.lt_size hpos) ⟨hkept.1, hkept.2, hbl⟩ (h.chunk i) (fun _ _ _ ↦ id) h.nodup rfl rfl,
      ⟨rfl, rfl, rfl, rfl, rfl⟩⟩
  have hopt' : options.2 = true := by simpa using hopt
  rw [hopt']
  have hlower := h.lower (n := { s.nodes i with
      syncTriggered := true
      references := (s.nodes i).references - 1
      writable := (s.nodes i).writable - 1 }) hpos rfl
    ⟨by rw [if_neg hfresh]; dsimp only; omega, by rw [if_neg hfresh]; dsimp only; omega, hbl⟩
    (fun j hj n hn ↦ by simpa [counts_iff, hj] using hn) hnodup
  refine .ite (fun hzero ↦ ?_) fun hzero ↦ ?_
  · exact (hlower.1 hzero).bind fun s' hs' ↦ hs'
  · exact hlower.2 hzero

open List

section Partition

theorem swapRanges_perm {a b l : ℕ} (h : a + l ≤ b) (q : List ℕ) : (swapRanges a b l q).Perm q := by
  have hq : q = q.take a ++ ((q.drop a).take l ++ ((q.take b).drop (a + l) ++ ((q.drop b).take l ++ q.drop (b + l)))) := by
    have htail : (q.drop b).take l ++ q.drop (b + l) = q.drop b := by rw [← drop_drop, take_append_drop]
    have hmid : (q.take b).drop (a + l) ++ q.drop b = q.drop (a + l) := by
      have hdrop : q.drop b = (q.drop (a + l)).drop (b - (a + l)) := by rw [drop_drop, Nat.add_sub_cancel' h]
      rw [drop_take, hdrop, take_append_drop]
    rw [htail, hmid, ← drop_drop, take_append_drop, take_append_drop]
  rw [perm_iff_count]
  intro x
  conv_rhs => rw [hq]
  simp only [swapRanges, count_append]
  omega

theorem optimizeLoop_perm (env : SyncEnv) (maxDistance fuel : ℕ) {passed : List ℕ} {first : ℕ} (rest : List ℕ)
    (weight : ℤ) (dontSkip : Bool) (h : first ≤ passed.length) :
    (optimizeLoop env maxDistance fuel passed first rest weight dontSkip).1.Perm (passed ++ rest) := by
  fun_induction optimizeLoop env maxDistance fuel passed first rest weight dontSkip with
  | case1 => exact .refl _
  | case2 passed => rw [append_nil]
  | case3 fuel passed first i rest weight dontSkip distance range required hskip l ih =>
    have hswap := swapRanges_perm (by omega : first + l ≤ passed.length + distance - l) (passed ++ range)
    refine (ih ?_).trans ?_
    · rw [hswap.length_eq, length_append]
      omega
    · refine (hswap.append_right _).trans ?_
      rw [append_assoc, take_append_drop]
  | case4 fuel passed first i rest weight dontSkip distance range required hskip ih =>
    refine (ih (by rw [length_append]; omega)).trans ?_
    rw [append_assoc, take_append_drop]

theorem partitionOptimize_perm (env : SyncEnv) (q : List ℕ) (weight : ℤ) (maxDistance : ℕ) (dontSkip : Bool) :
    ((partitionOptimize env q weight maxDistance dontSkip).1 ++
      (partitionOptimize env q weight maxDistance dontSkip).2).Perm q := by
  have hloop := optimizeLoop_perm env maxDistance q.length q weight dontSkip (Nat.zero_le ([] : List ℕ).length)
  rw [partitionOptimize]
  split_ifs
  · rwa [append_nil]
  · rwa [take_append_drop]

theorem splitQueue_perm (env : SyncEnv) (flags : SyncFlags) (s : ChunkList) :
    ((splitQueue env flags s).1 ++ (splitQueue env flags s).2).Perm s.queue := by
  rw [splitQueue]
  generalize hfront : (if flags.all then [] else s.queue.filter fun i ↦ (s.nodes i).writable ≠ 1) = front
  generalize hback : (if flags.all then s.queue else s.queue.filter fun i ↦ (s.nodes i).writable = 1) = back
  have hqueue : (front ++ back).Perm s.queue := by
    rw [← hfront, ← hback]
    split_ifs
    · exact .refl _
    · refine perm_append_comm.trans ?_
      simpa only [decide_not] using filter_append_perm (fun i ↦ decide ((s.nodes i).writable = 1)) s.queue
  have hsorted := perm_insertionSort (· ≤ ·) back
  split_ifs
  · rw [append_assoc]
    exact (((partitionOptimize_perm env _ 50 5 false).trans hsorted).append_left front).trans hqueue
  · exact (hsorted.append_left front).trans hqueue

end Partition

structure Accounted (base : MemoryManager) (handles : List ChunkHandle) (s : ChunkList) : Prop where
  counted : Counted base handles s.queue s
  queueUsage : s.memory.syncQueueMemoryUsage = base.syncQueueMemoryUsage + s.chunkSize * s.queue.length
  queueBlocks : s.memory.syncQueueBlockCount = base.syncQueueBlockCount + s.queue.length

theorem ensures_syncLoop (env : SyncEnv) (flags : SyncFlags) (front rest : List ℕ) (p : SyncProgress)
    (h : Counted base handles (rest ++ (front ++ p.kept)) s) :
    Gives (syncLoop env flags rest p s) fun r ↦
      Counted base handles (front ++ r.1.kept) r.2 ∧ Framed s r.2 ∧ r.1.kept ⊆ p.kept ++ rest ∧
        r.1.released + r.1.kept.length = p.released + p.kept.length + rest.length := by
  induction rest generalizing p s with
  | nil => exact ⟨h, Framed.refl s, by simp, rfl⟩
  | cons i rest ih =>
    refine (ensures_syncChunk h env _).bind fun r hr ↦ ?_
    obtain ⟨hcounted, hframed⟩ := hr
    have hstay : (i :: (rest ++ (front ++ p.kept))).Perm (rest ++ (front ++ (p.kept ++ [i]))) := by
      rw [← append_assoc front, ← append_assoc rest (front ++ p.kept)]
      exact (perm_append_singleton _ _).symm
    have hnext : ∀ {p' : SyncProgress}, Counted base handles (rest ++ (front ++ p'.kept)) r.2 →
        p'.kept ⊆ p.kept ++ [i] → p'.released + p'.kept.length = p.released + p.kept.length + 1 →
        Gives (syncLoop env flags rest p' r.2) fun r ↦
          Counted base handles (front ++ r.1.kept) r.2 ∧ Framed s r.2 ∧ r.1.kept ⊆ p.kept ++ i :: rest ∧
            r.1.released + r.1.kept.length = p.released + p.kept.length + (i :: rest).length := by
      intro p' hp' hsub hlength
      refine (ih p' hp').mono fun r' hr' ↦ ⟨hr'.1, hframed.trans hr'.2.1, fun j hj ↦ ?_, ?_⟩
      · rw [append_cons]
        exact mem_append.mpr ((mem_append.mp (hr'.2.2.1 hj)).imp_left fun hk ↦ hsub hk)
      · rw [length_cons, hr'.2.2.2]
        omega
    refine .ite (fun hfail ↦ ?_) fun hdone ↦ .ite (fun hopt ↦ ?_) fun hopt ↦ ?_
    · rw [Bool.not_eq_true'] at hfail
      rw [hfail, Bool.false_and, if_neg Bool.false_ne_true] at hcounted
      exact hnext (hcounted.perm (.refl _) hstay) (List.Subset.refl _)
        (by simp only [length_append, length_singleton]; omega)
    · rw [Bool.not_eq_true'] at hopt
      rw [hopt, Bool.and_false, if_neg Bool.false_ne_true] at hcounted
      exact hnext (hcounted.perm (.refl _) hstay) (List.Subset.refl _)
        (by simp only [length_append, length_singleton]; omega)
    rw [Bool.not_eq_true', Bool.not_eq_false] at hdone hopt
    rw [hdone, hopt, Bool.and_true, if_pos rfl] at hcounted
    exact hnext hcounted (subset_append_left _ _) (by dsimp only; omega)

theorem ensures_syncChunks (h : Accounted base handles s) (env : SyncEnv) (flags : SyncFlags) :
    Gives (s.syncChunks env flags) fun r ↦
      Accounted base handles r.2 ∧ r.2.queue ⊆ s.queue ∧ r.2.size = s.size ∧ r.2.chunkSize = s.chunkSize := by
  refine .either ⟨h, List.Subset.refl _, rfl, rfl⟩ ?_
  have hperm := splitQueue_perm env flags s
  have hcounted : Counted base handles ((splitQueue env flags s).2 ++ ((splitQueue env flags s).1 ++ [])) s := by
    rw [append_nil]
    exact h.counted.perm (.refl _) (hperm.symm.trans perm_append_comm)
  refine (ensures_syncLoop env (resolveFlags env flags) _ _ {} hcounted).bind fun r hr ↦ ?_
  obtain ⟨hkept, hframed, hsub, hlength⟩ := hr
  have htotal := hperm.length_eq
  rw [length_append] at htotal
  have hcount : r.1.released + ((splitQueue env flags s).1 ++ r.1.kept).length = s.queue.length := by
    rw [length_append]
    simp only [length_nil] at hlength
    omega
  have hblocks := h.queueBlocks
  have husage := h.queueUsage
  rw [← hcount] at hblocks husage
  rw [Nat.mul_add, Nat.mul_comm _ r.1.released] at husage
  rw [← hframed.queueBlocks] at hblocks
  rw [← hframed.queueUsage] at husage
  rw [MemoryManager.releaseSyncQueue, if_neg (by omega), if_neg (by omega), ok_bind, ensures_ok]
  refine ⟨⟨{ hkept with }, ?_, ?_⟩, ?_, hframed.size, hframed.chunkSize⟩
  · dsimp only
    rw [hframed.chunkSize]
    omega
  · dsimp only
    omega
  · exact fun j hj ↦ hperm.subset (mem_append.mpr ((mem_append.mp hj).imp_right fun hk ↦ hsub hk))

end ChunkList

end LibTorrent
