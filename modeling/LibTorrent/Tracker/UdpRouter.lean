import LibTorrent.Lib.Outcome
import Mathlib.Data.List.Pairwise
import Mathlib.Data.List.Nodup
import Mathlib.Data.List.TakeWhile
import Mathlib.Order.Nat

namespace LibTorrent

open Function Lib.Outcome

/-- The callbacks of a connection that is disconnected before its address is known are dropped. -/
structure UdpConnection where
  resolved : Bool
  registered : Bool := true
  retryCount : ℕ := 0

inductive WriteResult
  | sent
  | again
  | unreachable
  | failed
  deriving DecidableEq

/-- What the router throws: `misuse` is what a caller or the system brings about. -/
inductive RouterFault
  | internal (message : String)
  | misuse (message : String)
  | dangling

/-- The deadlines and the time are in seconds, and `polled` is about writing. An entry that is cleared stays in its
queue as `none`. -/
structure UdpRouter where
  now : ℕ := 0
  isOpen : Bool := false
  connections : ℕ → Option UdpConnection := fun _ ↦ none
  lookups : List ℕ := []
  writeQueue : List (Option ℕ) := []
  polled : Bool := false
  timeoutQueue : List (Option ℕ × ℕ) := []
  task : Option ℕ := none

namespace UdpRouter

def ids (q : List (Option ℕ × ℕ)) : List (Option ℕ) := q.map Prod.fst

def deadlines (q : List (Option ℕ × ℕ)) : List ℕ := q.map Prod.snd

variable (id : ℕ)

def unlink (e : Option ℕ) : Option ℕ := if e = some id then none else e

def setConnection (c : UdpConnection) (s : UdpRouter) : UdpRouter :=
  { s with connections := update s.connections id (some c) }

def clearTimeout (s : UdpRouter) : UdpRouter :=
  { s with timeoutQueue := s.timeoutQueue.map fun e ↦ (unlink id e.1, e.2) }

def disconnectUnsafe (s : UdpRouter) : UdpRouter :=
  { s.clearTimeout id with connections := update s.connections id none, writeQueue := s.writeQueue.map (unlink id) }

def queueTimeout (c : UdpConnection) (s : UdpRouter) : Except RouterFault UdpRouter :=
  if some id ∈ ids s.timeoutQueue then
    .error (.internal "UdpRouter::queue_timeout() called for connection that is already queued for timeout.")
  else if s.timeoutQueue.isEmpty && s.task.isSome then
    .error (.internal "Scheduler::wait_until(...) called on an already scheduled entry.")
  else
    let deadline := s.now + (c.retryCount + 1) * 15
    .ok { s.setConnection id { c with retryCount := c.retryCount + 1 } with
      task := if s.timeoutQueue.isEmpty then some deadline else s.task
      timeoutQueue := s.timeoutQueue ++ [(some id, deadline)] }

def queueWrite (s : UdpRouter) : Except RouterFault UdpRouter :=
  if some id ∈ s.writeQueue then
    .error (.internal "UdpRouter::queue_write() called for connection that is already queued for writing.")
  else .ok { s with polled := s.writeQueue.isEmpty || s.polled, writeQueue := s.writeQueue ++ [some id] }

def tryWrite (r : WriteResult) (id : ℕ) (c : UdpConnection) (s : UdpRouter) : Except RouterFault UdpRouter :=
  if !s.isOpen then .error (.internal "UdpRouter::try_write() called but router is not open.")
  else if 3 ≤ c.retryCount then .error (.internal "UdpRouter::try_write() called but retry_count is not 0.")
  else if !c.resolved then .error (.internal "assert(info->address != nullptr)")
  else
    match r with
    | .unreachable => .ok (s.disconnectUnsafe id)
    | .failed => .error (.misuse "UdpRouter::try_write() failed to write datagram")
    | _ => .ok s

def tryWriteWithQueues (r : WriteResult) (id : ℕ) (c : UdpConnection) (s : UdpRouter) :
    Except RouterFault UdpRouter := do
  let s ← tryWrite r id c (s.clearTimeout id)
  match r with
  | .again => s.queueWrite id
  | .sent => s.queueTimeout id c
  | _ => .ok s

/-- One turn of the loop of `receive_timeout`. -/
def expire (r : WriteResult) (s : UdpRouter) : Except RouterFault UdpRouter :=
  match s.timeoutQueue with
  | [] => .ok s
  | (info, deadline) :: q =>
    if s.now < deadline then .ok s
    else
      match info with
      | none => .ok { s with timeoutQueue := q }
      | some id =>
        match s.connections id with
        | none => .error .dangling
        | some c =>
          if some id ∈ ids q then
            .error (.internal "UdpRouter::receive_timeout() timeout queue entry does not match connection info.")
          else if !c.registered then
            .error (.internal "UdpRouter::receive_timeout() connection info failure callback is null.")
          else if 3 ≤ c.retryCount then .ok (disconnectUnsafe id { s with timeoutQueue := q })
          else if some id ∈ s.writeQueue then
            .error (.internal "UdpRouter::receive_timeout() connection is currently queued for writing.")
          else tryWriteWithQueues r id c { s with timeoutQueue := q }

/-- The loop ends with the last of the entries it starts with, as those it adds are not due. -/
def receiveTimeout (results : ℕ → WriteResult) (s : UdpRouter) : Except RouterFault UdpRouter := do
  let s ← forEach (fun i ↦ expire (results i)) (List.range s.timeoutQueue.length) { s with task := none }
  .ok (match s.timeoutQueue with
    | [] => s
    | e :: _ => { s with task := some e.2 })

/-- The write queue without the cleared entries at its front. -/
def pending (s : UdpRouter) : List (Option ℕ) := s.writeQueue.dropWhile Option.isNone

/-- One turn of the loop of `event_write`, with a write that does not block. -/
def writeNext (r : WriteResult) (s : UdpRouter) : Except RouterFault UdpRouter :=
  match s.pending with
  | some id :: q =>
    match s.connections id with
    | none => .error .dangling
    | some c =>
      if some id ∈ ids s.timeoutQueue then .error (.internal "assert(info->timeout_ptr == nullptr)")
      else do
        let s' ← tryWrite r id c { s with writeQueue := q }
        if r = .sent then s'.queueTimeout id c else .ok s'
  | _ => .ok s

/-- The results of the loop of `event_write`: it ends where the socket would block. -/
def writes (results : List WriteResult) : List WriteResult := results.takeWhile (· ≠ .again)

def eventWrite (results : List WriteResult) (s : UdpRouter) : Except RouterFault UdpRouter := do
  let s ← forEach writeNext (writes results) s
  .ok { s with writeQueue := s.pending, polled := !s.pending.isEmpty && s.polled }

def resolvedHostname (found : Bool) (r : WriteResult) (s : UdpRouter) : Except RouterFault UdpRouter :=
  match s.connections id with
  | none => .ok s
  | some c =>
    if c.resolved then
      .error (.internal "UdpRouter::resolved_hostname() called but connection already has an address.")
    else if !c.registered || !found then .ok (s.disconnectUnsafe id)
    else tryWriteWithQueues r id { c with resolved := true } (s.setConnection id { c with resolved := true })

/-- New ids are drawn until one is not in use. -/
inductive Event
  | tick
  | open (bound : Bool)
  | close
  | connect (id : ℕ) (r : WriteResult)
  | lookup (id : ℕ)
  | resolved (id : ℕ) (found : Bool) (r : WriteResult)
  | transfer (id new : ℕ) (r : WriteResult)
  | disconnect (id : ℕ)
  | reply (id : ℕ)
  | writable (results : List WriteResult)
  | timeout (results : ℕ → WriteResult)

def step : Event → UdpRouter → Except RouterFault UdpRouter
  | .tick, s => .ok { s with now := s.now + 1 }
  | .open bound, s =>
    if s.isOpen then .error (.misuse "UdpRouter::open() called but router is already open.")
    else .ok { s with isOpen := bound }
  | .close, s =>
    .ok (if s.isOpen then { s with isOpen := false, task := none, lookups := [], polled := false } else s)
  | .connect id r, s =>
    if s.isOpen && (s.connections id).isNone then
      tryWriteWithQueues r id { resolved := true } (s.setConnection id { resolved := true })
    else .ok s
  | .lookup id, s =>
    .ok (if s.isOpen && (s.connections id).isNone then
      { s.setConnection id { resolved := false } with lookups := id :: s.lookups } else s)
  | .resolved id found r, s =>
    if id ∈ s.lookups then resolvedHostname id found r { s with lookups := s.lookups.erase id } else .ok s
  | .transfer id new r, s =>
    match s.connections id with
    | none => .error (.misuse "UdpRouter::transfer_connection() called with invalid connection ID.")
    | some c =>
      if !c.resolved then
        .error (.misuse "UdpRouter::transfer_connection() called but connection does not have an address.")
      else if !s.isOpen then .error (.misuse "assert(is_open())")
      else if (s.connections new).isNone then
        tryWriteWithQueues r new { resolved := true } ((s.disconnectUnsafe id).setConnection new { resolved := true })
      else .ok s
  | .disconnect id, s =>
    match s.connections id with
    | none => .error (.misuse "UdpRouter::disconnect() called with invalid connection ID.")
    | some c =>
      if c.resolved then .ok (s.disconnectUnsafe id)
      else if some id ∈ s.writeQueue ∨ some id ∈ ids s.timeoutQueue then
        .error (.internal "assert(itr->second.queue_ptr == nullptr); assert(itr->second.timeout_ptr == nullptr)")
      else .ok (s.setConnection id { c with registered := false })
  | .reply id, s =>
    .ok (match s.connections id with
      | some c => if s.isOpen && c.resolved then s.disconnectUnsafe id else s
      | none => s)
  | .writable results, s => if s.isOpen && s.polled then s.eventWrite results else .ok s
  | .timeout results, s =>
    match s.task with
    | some time => if time ≤ s.now then s.receiveTimeout results else .ok s
    | none => .ok s

/-- A deadline that is put behind the others in the queue is not before them. -/
def PutsLast (r : WriteResult) (retryCount : ℕ) (s : UdpRouter) : Prop :=
  r = .sent → ∀ d ∈ deadlines s.timeoutQueue, d ≤ s.now + (retryCount + 1) * 15

/-- The same for the connection at the front of a queue. -/
def FrontPutsLast (r : WriteResult) (q : List (Option ℕ)) (s : UdpRouter) : Prop :=
  ∀ id c, q.head? = some (some id) → s.connections id = some c → PutsLast r c.retryCount s

/-- A router is only closed with nothing left to wait for, and its deadlines are queued in their order. -/
def Orderly : Event → UdpRouter → Prop
  | .close, s => s.isOpen = true → s.lookups = [] ∧ s.writeQueue = [] ∧ s.timeoutQueue = []
  | .connect _ r, s | .resolved _ _ r, s | .transfer _ _ r, s => PutsLast r 0 s
  | .writable results, s => Along writeNext (fun r s ↦ FrontPutsLast r s.pending s) (writes results) s
  | .timeout results, s =>
    Along (fun i ↦ expire (results i)) (fun i s ↦ FrontPutsLast (results i) (ids s.timeoutQueue) s)
      (List.range s.timeoutQueue.length) { s with task := none }
  | _, _ => True

/-- While the router is open, every connection that is still wanted waits at one place, for what will come. -/
def Waits (s : UdpRouter) : Prop :=
  s.isOpen = true → ∀ id c, s.connections id = some c → c.registered = true →
    c.retryCount + s.writeQueue.count (some id) ≤ 3 ∧
    s.lookups.count id + s.writeQueue.count (some id) + (ids s.timeoutQueue).count (some id) = 1 ∧
    (id ∈ s.lookups → c.resolved = false) ∧
    (some id ∈ s.writeQueue → s.polled = true) ∧
    ∀ d, (some id, d) ∈ s.timeoutQueue → ∃ time, s.task = some time ∧ time ≤ d

/-- How much a connection has still before it: the lookup, and the writing and the timeout of three tries. -/
def stage (s : UdpRouter) (id : ℕ) : ℕ :=
  match s.connections id with
  | none => 0
  | some c => if c.resolved then 2 * (3 - c.retryCount) + if some id ∈ s.writeQueue then 0 else 1 else 7

/-- What a connection waits for happens. -/
def Serves : Event → UdpRouter → ℕ → Prop
  | .resolved id _ _, s, j => id = j ∧ id ∈ s.lookups
  | .reply id, s, j => id = j ∧ s.isOpen = true ∧ ∃ c ∈ s.connections id, c.resolved = true
  | .writable results, s, j => writes results ≠ [] ∧ s.pending.head? = some (some j)
  | .timeout _, s, j => ∃ d ≤ s.now, (some j, d) ∈ s.timeoutQueue
  | _, _, _ => False

/-- No connection gets further from its end, and one that is served comes closer to it. -/
def Proceeds (e : Event) (s t : UdpRouter) : Prop :=
  ∀ id, (s.connections id).isSome = true → t.stage id ≤ s.stage id ∧ (Serves e s id → t.stage id < s.stage id)

end UdpRouter

def RouterFault.Internal : RouterFault → Prop
  | .misuse _ => False
  | _ => True

open List

namespace UdpRouter

variable {s t u : UdpRouter} {id j n : ℕ} {c : UdpConnection} {r : WriteResult} {ex : Option ℕ} {firing : Bool}

section Places

/-- How often a connection is looked up, is to be written, and waits for a timeout. -/
def Placed : Option UdpConnection → ℕ → ℕ → ℕ → Prop
  | none, looked, queued, waiting => looked = 0 ∧ queued = 0 ∧ waiting = 0
  | some c, looked, queued, waiting =>
    if c.resolved then c.registered = true ∧ looked = 0 ∧ queued + waiting = 1 ∧ c.retryCount + queued ≤ 3
    else looked = 1 ∧ queued = 0 ∧ waiting = 0 ∧ c.retryCount = 0

/-- `ex` is a connection that is in no queue for the moment. The task is not scheduled while it is `firing`, unless
for an entry that was added meanwhile. -/
structure Sound (ex : Option ℕ) (firing : Bool) (s : UdpRouter) : Prop where
  placed : ∀ j, some j ≠ ex → Placed (s.connections j) (s.lookups.count j) (s.writeQueue.count (some j))
    ((ids s.timeoutQueue).count (some j))
  polled : s.writeQueue ≠ [] → s.polled = true
  armed : if firing then s.task ≠ none → ∃ d ∈ deadlines s.timeoutQueue, s.now < d
    else s.task = (deadlines s.timeoutQueue).head?
  sorted : (deadlines s.timeoutQueue).Pairwise (· ≤ ·)
  idle : s.isOpen = true ∨ s.lookups = [] ∧ s.writeQueue = [] ∧ s.timeoutQueue = []

abbrev Settled (s : UdpRouter) : Prop := Sound none false s

abbrev Safe (r : Except RouterFault UdpRouter) (post : UdpRouter → Prop) : Prop := Ensures RouterFault.Internal r post

theorem Sound.except (h : Sound none firing s) (id : ℕ) : Sound (some id) firing s :=
  { h with placed := fun j _ ↦ h.placed j nofun }

theorem Sound.placed_some (h : Sound none firing s) (hc : s.connections id = some c) :
    Placed (some c) (s.lookups.count id) (s.writeQueue.count (some id)) ((ids s.timeoutQueue).count (some id)) :=
  hc ▸ h.placed id nofun

/-- What is known of a connection with an entry in a queue. -/
theorem Sound.of_queued (h : Sound none firing s) (id : ℕ)
    (hq : 0 < s.writeQueue.count (some id) + (ids s.timeoutQueue).count (some id)) :
    ∃ c, s.connections id = some c ∧ c.resolved = true ∧ c.registered = true ∧ id ∉ s.lookups ∧ s.isOpen = true ∧
      s.writeQueue.count (some id) + (ids s.timeoutQueue).count (some id) = 1 ∧
      c.retryCount + s.writeQueue.count (some id) ≤ 3 := by
  have hplaced := h.placed id nofun
  cases hc : s.connections id with
  | none =>
    rw [hc, Placed] at hplaced
    omega
  | some c =>
    rw [hc, Placed] at hplaced
    split_ifs at hplaced with hr
    · refine ⟨c, rfl, hr, hplaced.1, count_eq_zero.mp hplaced.2.1, h.idle.resolve_right ?_, hplaced.2.2⟩
      rintro ⟨-, hw, ht⟩
      simp [hw, ht, ids] at hq
    · omega

@[simp] theorem count_unlink (q : List (Option ℕ)) :
    (q.map (unlink id)).count (some j) = if j = id then 0 else q.count (some j) := by
  induction q with
  | nil => simp
  | cons e q ih =>
    rw [map_cons, count_cons, count_cons, ih]
    unfold unlink
    split_ifs <;> simp_all

@[simp] theorem ids_clear (q : List (Option ℕ × ℕ)) :
    ids (q.map fun e ↦ (unlink id e.1, e.2)) = (ids q).map (unlink id) := by
  simp [ids, comp_def]

@[simp] theorem deadlines_clear (q : List (Option ℕ × ℕ)) :
    deadlines (q.map fun e ↦ (unlink id e.1, e.2)) = deadlines q := by
  simp [deadlines, comp_def]

theorem count_pending (s : UdpRouter) : s.pending.count (some j) = s.writeQueue.count (some j) := by
  unfold pending
  induction s.writeQueue with
  | nil => rfl
  | cons e q ih => cases e <;> simp [ih]

theorem stage_congr (hc : t.connections j = s.connections j)
    (hw : t.writeQueue.count (some j) = s.writeQueue.count (some j)) : t.stage j = s.stage j := by
  simp only [stage, hc, ← count_pos_iff, hw]

end Places

section Moves

def due (s : UdpRouter) : ℕ := (deadlines s.timeoutQueue).countP (· ≤ s.now)

/-- The other connections and their entries stay where they are. -/
structure Spares (id : ℕ) (s t : UdpRouter) : Prop where
  now : t.now = s.now
  other : ∀ j, j ≠ id → t.stage j = s.stage j
  kept : ∀ j d, j ≠ id → (some j, d) ∈ s.timeoutQueue → (some j, d) ∈ t.timeoutQueue

theorem Spares.trans (h : Spares id s t) (h' : Spares id t u) : Spares id s u where
  now := h'.now.trans h.now
  other j hj := (h'.other j hj).trans (h.other j hj)
  kept j d hj hd := h'.kept j d hj (h.kept j d hj hd)

/-- A connection that was in no queue is put somewhere. -/
structure Moves (firing : Bool) (id n : ℕ) (s t : UdpRouter) : Prop extends Sound none firing t, Spares id s t where
  stage : t.stage id ≤ n
  due : t.due = s.due

theorem Moves.of_spares (h : Moves firing id n u t) (hu : Spares id s u) (hdue : u.due = s.due) :
    Moves firing id n s t :=
  ⟨h.toSound, hu.trans h.toSpares, h.stage, h.due.trans hdue⟩

theorem spares_clear : Spares id s (s.clearTimeout id) :=
  ⟨rfl, fun _ _ ↦ rfl, fun j d hj hd ↦ mem_map.mpr ⟨_, hd, by simp [unlink, hj]⟩⟩

theorem due_clear : (s.clearTimeout id).due = s.due := congrArg (countP _) (deadlines_clear _)

theorem spares_setConnection : Spares id s (s.setConnection id c) :=
  ⟨rfl, fun _ hj ↦ stage_congr (update_of_ne hj ..) rfl, fun _ _ _ hd ↦ hd⟩

theorem Sound.clear (h : Sound (some id) firing s) : Sound (some id) firing (s.clearTimeout id) := by
  refine ⟨fun j hj ↦ ?_, h.polled, by simpa [clearTimeout] using h.armed, by simpa [clearTimeout] using h.sorted,
    by simpa [clearTimeout] using h.idle⟩
  simpa [clearTimeout, mt (congrArg some) hj] using h.placed j hj

theorem Sound.disconnect (h : Sound (some id) firing s) (hl : id ∉ s.lookups) :
    Moves firing id 0 s (s.disconnectUnsafe id) := by
  refine ⟨⟨fun j _ ↦ ?_, fun hq ↦ h.polled (by simpa [disconnectUnsafe] using hq), h.clear.armed, h.clear.sorted,
    by simpa [disconnectUnsafe, clearTimeout] using h.idle⟩,
    ⟨rfl, fun j hj ↦ stage_congr (update_of_ne hj ..) ((count_unlink _).trans (if_neg hj)), spares_clear.kept⟩,
    by simp [stage, disconnectUnsafe], congrArg (countP _) (deadlines_clear _)⟩
  by_cases hj : j = id
  · subst hj
    simp [disconnectUnsafe, clearTimeout, Placed, count_eq_zero.mpr hl]
  · simpa [disconnectUnsafe, clearTimeout, hj] using h.placed j (mt Option.some.inj hj)

/-- A connection that is about to be written. -/
structure Held (id : ℕ) (c : UdpConnection) (firing : Bool) (s : UdpRouter) : Prop
    extends Sound (some id) firing s where
  connection : s.connections id = some c
  resolved : c.resolved = true
  registered : c.registered = true
  retry : c.retryCount < 3
  looked : id ∉ s.lookups
  queued : some id ∉ s.writeQueue
  isOpen : s.isOpen = true

theorem Held.tryWrite_eq (h : Held id c firing s) (r : WriteResult) : tryWrite r id c s = match r with
    | .unreachable => .ok (s.disconnectUnsafe id)
    | .failed => .error (.misuse "UdpRouter::try_write() failed to write datagram")
    | _ => .ok s := by
  unfold tryWrite
  rw [if_neg (by simp [h.isOpen]), if_neg (Nat.not_le.mpr h.retry), if_neg (by simp [h.resolved])]

theorem Held.queueTimeout (h : Held id c firing s) (hclear : (ids s.timeoutQueue).count (some id) = 0)
    (hlast : PutsLast .sent c.retryCount s) :
    Safe (s.queueTimeout id c) (Moves firing id (2 * (3 - c.retryCount) - 1) s) := by
  have harmed := h.armed
  have hretry := h.retry
  refine .ite (fun hin ↦ absurd hin (count_eq_zero.mp hclear)) fun _ ↦ .ite (fun htask ↦ absurd htask ?_) fun _ ↦ ?_
  · cases firing <;> simp_all [deadlines]
  refine ⟨⟨fun j _ ↦ ?_, h.polled, ?_, ?_, .inl h.isOpen⟩,
    ⟨rfl, spares_setConnection.other, fun j d _ ↦ mem_append_left _⟩, ?_, ?_⟩
  · by_cases hj : j = id
    · subst hj
      unfold ids at hclear
      simp [setConnection, Placed, ids, h.resolved, h.registered, count_eq_zero.mpr h.looked,
        count_eq_zero.mpr h.queued, hclear]
      omega
    · simpa [setConnection, hj, ids, Ne.symm hj] using h.placed j (mt Option.some.inj hj)
  · cases firing with
    | true => exact fun _ ↦ ⟨s.now + (c.retryCount + 1) * 15, by simp [deadlines], Nat.lt_add_of_pos_right (by omega)⟩
    | false => cases hq : s.timeoutQueue <;> simp_all [deadlines]
  · simp only [deadlines, map_append, map_cons, map_nil, pairwise_append, mem_singleton]
    refine ⟨h.sorted, pairwise_singleton .., ?_⟩
    rintro d hd _ rfl
    exact hlast rfl d hd
  · simp [stage, setConnection, h.resolved, h.queued]
    omega
  · change countP (· ≤ s.now) (deadlines (s.timeoutQueue ++ _)) = countP (· ≤ s.now) (deadlines s.timeoutQueue)
    simp [deadlines]

theorem Held.queueWrite (h : Held id c firing s) (hclear : (ids s.timeoutQueue).count (some id) = 0) :
    Safe (s.queueWrite id) (Moves firing id (2 * (3 - c.retryCount)) s) := by
  refine .ite (fun hin ↦ absurd hin h.queued) fun _ ↦ ⟨⟨fun j _ ↦ ?_, fun _ ↦ ?_, h.armed, h.sorted, .inl h.isOpen⟩,
    ⟨rfl, fun j hj ↦ stage_congr rfl (by simp [Ne.symm hj]), fun j d _ hd ↦ hd⟩, ?_, rfl⟩
  · by_cases hj : j = id
    · subst hj
      have hretry := h.retry
      simp [Placed, h.connection, h.resolved, h.registered, count_eq_zero.mpr h.looked,
        count_eq_zero.mpr h.queued, hclear]
      omega
    · simpa [Ne.symm hj] using h.placed j (mt Option.some.inj hj)
  · cases hq : s.writeQueue with
    | nil => rfl
    | cons e q => simp [h.polled (by simp [hq])]
  · simp [stage, h.connection, h.resolved]

theorem Held.tryWriteWithQueues (h : Held id c firing s) (hlast : PutsLast r c.retryCount s) :
    Safe (s.tryWriteWithQueues r id c) (Moves firing id (2 * (3 - c.retryCount)) s) := by
  have hheld : Held id c firing (s.clearTimeout id) := { h with toSound := h.clear }
  have hclear : (ids (s.clearTimeout id).timeoutQueue).count (some id) = 0 := by simp [clearTimeout]
  have hmoves {n : ℕ} {t : UdpRouter} (ht : Moves firing id n (s.clearTimeout id) t)
      (hn : n ≤ 2 * (3 - c.retryCount)) : Moves firing id (2 * (3 - c.retryCount)) s t :=
    { ht.of_spares spares_clear due_clear with stage := ht.stage.trans hn }
  unfold UdpRouter.tryWriteWithQueues
  rw [hheld.tryWrite_eq]
  cases r with
  | sent =>
    refine (hheld.queueTimeout hclear fun _ ↦ ?_).mono fun t ht ↦ hmoves ht (Nat.sub_le ..)
    simpa [clearTimeout] using hlast rfl
  | again => exact (hheld.queueWrite hclear).mono fun t ht ↦ hmoves ht le_rfl
  | failed => exact not_false
  | unreachable => exact hmoves (hheld.disconnect h.looked) (Nat.zero_le _)

end Moves

section Loops

/-- No connection has more before it than at first, and one whose entry has gone has less. -/
structure Ages (s t : UdpRouter) : Prop where
  now : t.now = s.now
  stage : ∀ j, t.stage j ≤ s.stage j
  kept : ∀ j d, (some j, d) ∈ s.timeoutQueue → t.stage j < s.stage j ∨ (some j, d) ∈ t.timeoutQueue

theorem Ages.refl (s : UdpRouter) : Ages s s := ⟨rfl, fun _ ↦ le_rfl, fun _ _ h ↦ .inr h⟩

theorem Ages.trans (h : Ages s t) (h' : Ages t u) : Ages s u := by
  refine ⟨h'.now.trans h.now, fun j ↦ (h'.stage j).trans (h.stage j), fun j d hd ↦ ?_⟩
  rcases h.kept j d hd with hlt | hd
  · exact .inl ((h'.stage j).trans_lt hlt)
  · exact (h'.kept j d hd).imp_left fun hlt ↦ hlt.trans_le (h.stage j)

theorem Spares.ages (h : Spares id s t) (hlt : t.stage id < s.stage id) : Ages s t := by
  refine ⟨h.now, fun j ↦ ?_, fun j d hd ↦ ?_⟩ <;> by_cases hj : j = id
  · exact hj ▸ hlt.le
  · exact (h.other j hj).le
  · exact .inl (hj ▸ hlt)
  · exact .inr (h.kept j d hj hd)

theorem ensures_expire (h : Sound none true s) (hlast : FrontPutsLast r (ids s.timeoutQueue) s) :
    Safe (expire r s) fun t ↦ Sound none true t ∧ Ages s t ∧ t.due ≤ s.due - 1 := by
  unfold expire
  split
  · rename_i hq
    exact ⟨h, .refl s, by simp [due, hq, deadlines]⟩
  rename_i info deadline q hq
  have hdeadlines : deadlines s.timeoutQueue = deadline :: deadlines q := congrArg deadlines hq
  obtain ⟨hbefore, hsorted⟩ := pairwise_cons.mp (hdeadlines ▸ h.sorted)
  refine .ite (fun hlate ↦ ⟨h, .refl s, ?_⟩) fun hlate ↦ ?_
  · rw [due, hdeadlines, countP_eq_zero.mpr]
    intro d hd
    rcases mem_cons.mp hd with rfl | hd
    · simpa using hlate
    · simpa using hlate.trans_le (hbefore d hd)
  have hdue : countP (· ≤ s.now) (deadlines q) = s.due - 1 := by
    rw [due, hdeadlines, countP_cons_of_pos (by simpa using hlate)]
    rfl
  have hpop : Sound info true { s with timeoutQueue := q } := by
    refine ⟨fun j hj ↦ ?_, h.polled, fun htask ↦ ?_, hsorted, h.idle.imp_right (by simp [hq])⟩
    · simpa [hq, ids, Ne.symm hj] using h.placed j nofun
    · obtain ⟨d, hd, hlt⟩ := h.armed htask
      rw [hdeadlines] at hd
      exact ⟨d, (mem_cons.mp hd).resolve_left fun heq ↦ hlate (heq ▸ hlt), hlt⟩
  cases info with
  | none =>
    refine ⟨hpop, ⟨rfl, fun _ ↦ le_rfl, fun j d hd ↦ .inr ?_⟩, hdue.le⟩
    simpa [hq] using hd
  | some id =>
    have hwaits : (ids s.timeoutQueue).count (some id) = (ids q).count (some id) + 1 := by simp [hq, ids]
    obtain ⟨c, hc, hr, hreg, hl, hopen, hone, hretry⟩ := h.of_queued id (by omega)
    have hw : some id ∉ s.writeQueue := count_eq_zero.mp (by omega)
    have hstage : s.stage id = 2 * (3 - c.retryCount) + 1 := by simp [stage, hc, hr, hw]
    have hspares : Spares id s { s with timeoutQueue := q } :=
      ⟨rfl, fun _ _ ↦ rfl, fun j d hj hd ↦ by simpa [hq, hj] using hd⟩
    have hages {n : ℕ} {t : UdpRouter} (ht : Moves true id n { s with timeoutQueue := q } t)
        (hn : n ≤ 2 * (3 - c.retryCount)) : Sound none true t ∧ Ages s t ∧ t.due ≤ s.due - 1 :=
      ⟨ht.toSound, (hspares.trans ht.toSpares).ages (hstage ▸ Nat.lt_succ_of_le (ht.stage.trans hn)),
        (ht.due.trans hdue).le⟩
    simp only [hc]
    refine .ite (fun hin ↦ ?_) fun _ ↦ .ite (fun hno ↦ ?_) fun _ ↦ .ite (fun _ ↦ ?_) fun hfew ↦
      .ite (absurd · hw) fun _ ↦ ?_
    · exact absurd (count_pos_iff.mpr hin) (by omega)
    · simp [hreg] at hno
    · exact hages (hpop.disconnect hl) (Nat.zero_le _)
    · have hheld : Held id c true { s with timeoutQueue := q } := ⟨hpop, hc, hr, hreg, by omega, hl, hw, hopen⟩
      refine (hheld.tryWriteWithQueues fun hsent d hd ↦ ?_).mono fun t ht ↦ hages ht le_rfl
      exact hlast id c (by simp [hq, ids]) hc hsent d (hdeadlines ▸ mem_cons_of_mem _ hd)

theorem ensures_receiveTimeout {results : ℕ → WriteResult} (h : Settled s)
    (ho : Orderly (.timeout results) s) : Safe (receiveTimeout results s) fun t ↦
      Settled t ∧ Proceeds (.timeout results) s t := by
  let inv (l : List ℕ) (t : UdpRouter) : Prop :=
    Along (fun i ↦ expire (results i)) (fun i s ↦ FrontPutsLast (results i) (ids s.timeoutQueue) s) l t ∧
      Sound none true t ∧ Ages { s with task := none } t ∧ t.due ≤ l.length
  have hstep (i : ℕ) (l : List ℕ) (t : UdpRouter) (ht : inv (i :: l) t) :
      Safe (expire (results i) t) (inv l) := by
    obtain ⟨halong, ht, hages, hdue⟩ := ht
    refine ((yields_eq _).both (ensures_expire ht halong.1)).mono ?_
    rintro u ⟨heq, hu, hages', hdue'⟩
    exact ⟨halong.2 u heq, hu, hages.trans hages', hdue'.trans (Nat.sub_le_of_le_add hdue)⟩
  have hinit : inv (List.range s.timeoutQueue.length) { s with task := none } :=
    ⟨ho, ⟨h.placed, h.polled, by simp, h.sorted, h.idle⟩, .refl _, by simpa [due, deadlines] using countP_le_length⟩
  refine (ensures_forEach hstep _ hinit).bind ?_
  rintro t ⟨-, ht, hages, hdue⟩
  have hnone : ∀ d ∈ deadlines t.timeoutQueue, s.now < d := fun d hd ↦ by
    simpa [hages.now] using countP_eq_zero.mp (Nat.le_zero.mp hdue) d hd
  refine ⟨?_, fun j _ ↦ ?_⟩
  · split <;> rename_i hq <;> refine ⟨ht.placed, ht.polled, ?_, ht.sorted, ht.idle⟩
    · have harmed := ht.armed
      simp_all [deadlines]
    · simp [hq, deadlines]
  · rw [show stage _ j = t.stage j by split <;> rfl]
    refine ⟨hages.stage j, fun ⟨d, hd, hin⟩ ↦ (hages.kept j d hin).resolve_right fun hin ↦ ?_⟩
    exact absurd (hnone d (mem_map_of_mem hin)) (Nat.not_lt.mpr hd)

theorem ensures_writeNext (h : Settled s) (hr : r ≠ .again) (hlast : FrontPutsLast r s.pending s) :
    Safe (writeNext r s) fun t ↦
      Settled t ∧ Ages s t ∧ ∀ j, s.pending.head? = some (some j) → t.stage j < s.stage j := by
  unfold writeNext
  split
  · rename_i id q hq
    have hcount (j : ℕ) : s.writeQueue.count (some j) = q.count (some j) + if id = j then 1 else 0 := by
      rw [← count_pending, hq, count_cons]
      simp
    have hid := hcount id
    rw [if_pos rfl] at hid
    obtain ⟨c, hc, hres, hreg, hl, hopen, hone, hretry⟩ := h.of_queued id (by omega)
    have hin : some id ∈ s.writeQueue := count_pos_iff.mp (by omega)
    have hclear : (ids s.timeoutQueue).count (some id) = 0 := by omega
    have hout : q.count (some id) = 0 := by omega
    have hheld : Held id c false { s with writeQueue := q } := by
      refine ⟨⟨fun j hj ↦ ?_, fun _ ↦ h.polled (ne_nil_of_mem hin), h.armed, h.sorted, .inl hopen⟩, hc, hres, hreg,
        by omega, hl, count_eq_zero.mp hout, hopen⟩
      simpa [hcount, Ne.symm (mt (congrArg some) hj)] using h.placed j nofun
    have hstage : s.stage id = 2 * (3 - c.retryCount) := by simp [stage, hc, hres, hin]
    have hspares : Spares id s { s with writeQueue := q } :=
      ⟨rfl, fun j hj ↦ stage_congr rfl (by rw [hcount, if_neg (Ne.symm hj), Nat.add_zero]), fun _ _ _ hd ↦ hd⟩
    have hages {n : ℕ} {t : UdpRouter} (ht : Moves false id n { s with writeQueue := q } t)
        (hn : n < 2 * (3 - c.retryCount)) :
        Settled t ∧ Ages s t ∧ ∀ j, (some id :: q).head? = some (some j) → t.stage j < s.stage j := by
      have hlt : t.stage id < s.stage id := hstage ▸ ht.stage.trans_lt hn
      refine ⟨ht.toSound, (hspares.trans ht.toSpares).ages hlt, ?_⟩
      rintro j ⟨⟩
      exact hlt
    simp only [hc]
    refine .ite (fun hin ↦ absurd hin (count_eq_zero.mp hclear)) fun _ ↦ ?_
    rw [hheld.tryWrite_eq, hq]
    cases r with
    | again => exact absurd rfl hr
    | sent => exact (hheld.queueTimeout hclear (hlast id c (by simp [hq]) hc)).mono fun t ht ↦ hages ht (by omega)
    | failed => exact not_false
    | unreachable => exact hages (hheld.disconnect hl) (by omega)
  · rename_i hno
    refine ⟨h, .refl s, fun j hj ↦ ?_⟩
    obtain ⟨q, hq⟩ := head?_eq_some_iff.mp hj
    exact absurd hq (hno j q)

theorem ensures_writes {l : List WriteResult} (h : Settled s) (hl : .again ∉ l)
    (ho : Along writeNext (fun r s ↦ FrontPutsLast r s.pending s) l s) :
    Safe (forEach writeNext l s) fun t ↦ Settled t ∧ ∀ j, t.stage j ≤ s.stage j ∧
      (l ≠ [] ∧ s.pending.head? = some (some j) → t.stage j < s.stage j) := by
  induction l generalizing s with
  | nil => exact ⟨h, fun j ↦ ⟨le_rfl, fun hj ↦ absurd rfl hj.1⟩⟩
  | cons r l ih =>
    obtain ⟨hr, hl⟩ := not_or.mp (mt mem_cons.mpr hl)
    refine ((yields_eq _).both (ensures_writeNext h (Ne.symm hr) ho.1)).bind ?_
    rintro t ⟨heq, ht, hages, hserved⟩
    refine (ih ht hl (ho.2 t heq)).mono ?_
    rintro u ⟨hu, hle⟩
    exact ⟨hu, fun j ↦ ⟨(hle j).1.trans (hages.stage j), fun hj ↦ (hle j).1.trans_lt (hserved j hj.2)⟩⟩

theorem ensures_eventWrite {results : List WriteResult} (h : Settled s) (ho : Orderly (.writable results) s) :
    Safe (eventWrite results s) fun t ↦
      Settled t ∧ Proceeds (.writable results) s t := by
  have hagain : .again ∉ writes results := fun hin ↦ by simpa using mem_takeWhile_imp hin
  refine (ensures_writes h hagain ho).bind ?_
  rintro t ⟨ht, hproceeds⟩
  have hempty (hq : t.writeQueue = []) : t.pending = [] := by rw [pending, hq, dropWhile_nil]
  refine ⟨⟨fun j hj ↦ ?_, fun hq ↦ ?_, ht.armed, ht.sorted, ht.idle.imp_right fun hidle ↦ ?_⟩, fun j _ ↦ ?_⟩
  · rw [count_pending]
    exact ht.placed j hj
  · simpa [hq] using ht.polled (mt hempty hq)
  · exact ⟨hidle.1, hempty hidle.2.1, hidle.2.2⟩
  · have hstage : stage { t with writeQueue := t.pending, polled := !t.pending.isEmpty && t.polled } j = t.stage j :=
      stage_congr rfl (count_pending t)
    rw [hstage]
    exact hproceeds j

end Loops

section Steps

theorem Sound.scheduled {d : ℕ} (h : Settled s) (hd : (some id, d) ∈ s.timeoutQueue) :
    ∃ time, s.task = some time ∧ time ≤ d := by
  have hin : d ∈ deadlines s.timeoutQueue := mem_map_of_mem hd
  have harmed : s.task = (deadlines s.timeoutQueue).head? := h.armed
  have hsorted := h.sorted
  cases hq : deadlines s.timeoutQueue with
  | nil => simp [hq] at hin
  | cons time q =>
    rw [hq] at harmed hin hsorted
    refine ⟨time, harmed, ?_⟩
    rcases mem_cons.mp hin with rfl | hin
    · exact le_rfl
    · exact rel_of_pairwise_cons hsorted hin

/-- A connection with an address is written for the first time. -/
theorem Sound.connect (h : Sound (some id) false s) (hopen : s.isOpen = true) (hl : id ∉ s.lookups)
    (hw : some id ∉ s.writeQueue) (hlast : PutsLast r 0 s) :
    Safe (tryWriteWithQueues r id { resolved := true } (s.setConnection id { resolved := true }))
      (Moves false id 6 s) := by
  have hheld : Held id { resolved := true } false (s.setConnection id { resolved := true }) := by
    refine ⟨⟨fun j hj ↦ ?_, h.polled, h.armed, h.sorted, h.idle⟩, update_self .., rfl, rfl, by decide, hl, hw, hopen⟩
    simpa [setConnection, mt (congrArg some) hj] using h.placed j hj
  exact (hheld.tryWriteWithQueues hlast).mono fun t ht ↦ ht.of_spares spares_setConnection rfl

theorem Sound.connect_new (h : Settled s) (hopen : s.isOpen = true) (hnew : s.connections id = none)
    (hlast : PutsLast r 0 s) :
    Safe (tryWriteWithQueues r id { resolved := true } (s.setConnection id { resolved := true }))
      (Moves false id 6 s) := by
  have hplaced := h.placed id nofun
  rw [hnew] at hplaced
  exact (h.except id).connect hopen (count_eq_zero.mp hplaced.1) (count_eq_zero.mp hplaced.2.1) hlast

theorem ensures_resolved {found : Bool} (h : Settled s) (hin : id ∈ s.lookups) (hlast : PutsLast r 0 s) :
    Safe (resolvedHostname id found r { s with lookups := s.lookups.erase id }) fun t ↦
      Settled t ∧ Proceeds (.resolved id found r) s t := by
  have hplaced := h.placed id nofun
  have hlooked : 0 < s.lookups.count id := count_pos_iff.mpr hin
  have hopen : s.isOpen = true := h.idle.resolve_right fun hidle ↦ by simp [hidle.1] at hin
  unfold resolvedHostname
  cases hc : s.connections id with
  | none => exact absurd (hc ▸ hplaced).1 hlooked.ne'
  | some c =>
    rw [hc, Placed] at hplaced
    split_ifs at hplaced with hr
    · omega
    obtain ⟨hone, hw, hq, hretry⟩ := hplaced
    have hstage : s.stage id = 7 := by simp [stage, hc, hr]
    have hout : id ∉ s.lookups.erase id := count_eq_zero.mp (by simp [hone])
    have hsound : Sound (some id) false { s with lookups := s.lookups.erase id } := by
      refine ⟨fun j hj ↦ ?_, h.polled, h.armed, h.sorted, .inl hopen⟩
      simpa [count_erase_of_ne (mt (congrArg some) hj)] using h.placed j nofun
    have hproceeds {n : ℕ} {t : UdpRouter} (ht : Moves false id n { s with lookups := s.lookups.erase id } t)
        (hn : n ≤ 6) : Settled t ∧ Proceeds (.resolved id found r) s t := by
      have hlt : t.stage id < s.stage id := hstage ▸ Nat.lt_succ_of_le (ht.stage.trans hn)
      refine ⟨ht.toSound, fun j _ ↦ ?_⟩
      by_cases hj : j = id
      · subst hj
        exact ⟨hlt.le, fun _ ↦ hlt⟩
      · exact ⟨(ht.other j hj).le, fun hs ↦ absurd hs.1.symm hj⟩
    dsimp only
    rw [if_neg hr]
    refine .ite (fun _ ↦ hproceeds (hsound.disconnect hout) (Nat.zero_le _)) fun hcan ↦ ?_
    have hnew : { c with resolved := true } = ({ resolved := true } : UdpConnection) := by
      cases c
      simp_all
    rw [hnew]
    exact (hsound.connect hopen hout (count_eq_zero.mp hw) hlast).mono fun t ht ↦ hproceeds ht le_rfl

/-- A connection with an address is given up. -/
theorem Sound.drop (h : Settled s) (hc : s.connections id = some c) (hr : c.resolved = true) :
    Settled (s.disconnectUnsafe id) ∧ (s.disconnectUnsafe id).stage id < s.stage id ∧
      ∀ j, (s.disconnectUnsafe id).stage j ≤ s.stage j := by
  have hplaced := h.placed_some hc
  rw [Placed, if_pos hr] at hplaced
  have hmoves := (h.except id).disconnect (count_eq_zero.mp hplaced.2.1)
  have hlt : (s.disconnectUnsafe id).stage id < s.stage id := by
    refine hmoves.stage.trans_lt ?_
    simp only [stage, hc, hr, ← count_pos_iff]
    grind
  exact ⟨hmoves.toSound, hlt, (hmoves.ages hlt).stage⟩

theorem ensures_step (e : Event) (h : Settled s) (ho : Orderly e s) :
    Safe (step e s) fun t ↦ Settled t ∧ Proceeds e s t := by
  have hunserved {e : Event} {t : UdpRouter} (ht : Settled t ∧ ∀ j, t.stage j ≤ s.stage j)
      (he : ∀ j, ¬ Serves e s j := by exact fun _ ↦ not_false) : Settled t ∧ Proceeds e s t :=
    ⟨ht.1, fun j _ ↦ ⟨ht.2 j, fun hs ↦ absurd hs (he j)⟩⟩
  have hstays : Settled s ∧ ∀ j, s.stage j ≤ s.stage j := ⟨h, fun _ ↦ le_rfl⟩
  cases e with
  | tick => exact hunserved ⟨⟨h.placed, h.polled, h.armed, h.sorted, h.idle⟩, fun _ ↦ le_rfl⟩
  | «open» bound =>
    refine .ite (fun _ ↦ not_false) fun hclosed ↦
      hunserved ⟨⟨h.placed, h.polled, h.armed, h.sorted, ?_⟩, fun _ ↦ le_rfl⟩
    exact .inr (h.idle.resolve_left hclosed)
  | close =>
    rw [step]
    split_ifs with hopen
    · obtain ⟨hl, hw, hq⟩ := ho hopen
      refine hunserved ⟨⟨?_, fun hne ↦ absurd hw hne, ?_, h.sorted, .inr ⟨rfl, hw, hq⟩⟩, fun _ ↦ le_rfl⟩
      · simpa [hl] using h.placed
      · simp [hq, deadlines]
    · exact hunserved hstays
  | connect id r =>
    refine .ite (fun hnew ↦ ?_) fun _ ↦ hunserved hstays
    simp only [Bool.and_eq_true, Option.isNone_iff_eq_none] at hnew
    refine (h.connect_new hnew.1 hnew.2 ho).mono fun t ht ↦
      ⟨ht.toSound, fun j hj ↦ ⟨(ht.other j ?_).le, False.elim⟩⟩
    rintro rfl
    simp [hnew.2] at hj
  | lookup id =>
    rw [step]
    split_ifs with hnew
    · simp only [Bool.and_eq_true, Option.isNone_iff_eq_none] at hnew
      refine ⟨⟨fun j _ ↦ ?_, h.polled, h.armed, h.sorted, .inl hnew.1⟩,
        fun j hj ↦ ⟨(spares_setConnection.other j ?_).le, False.elim⟩⟩
      · have hplaced := h.placed j nofun
        by_cases hj : j = id
        · subst hj
          rw [hnew.2] at hplaced
          simpa [setConnection, Placed] using hplaced
        · simpa [setConnection, hj, Ne.symm hj] using hplaced
      · rintro rfl
        simp [hnew.2] at hj
    · exact hunserved hstays
  | resolved id found r =>
    refine .ite (fun hin ↦ ensures_resolved h hin ho) fun hout ↦ hunserved hstays fun j hs ↦ hout hs.2
  | transfer id new r =>
    rw [step]
    split
    · exact not_false
    rename_i c hc
    refine .ite (fun _ ↦ not_false) fun hr ↦ .ite (fun _ ↦ not_false) fun hopen ↦ .ite (fun hnew ↦ ?_)
      fun _ ↦ hunserved hstays
    obtain ⟨hdrop, -, hle⟩ := h.drop hc (by simpa using hr)
    have hne : new ≠ id := by
      rintro rfl
      simp [hc] at hnew
    have hlast : PutsLast r 0 (s.disconnectUnsafe id) := fun hsent ↦ by
      simpa [disconnectUnsafe, clearTimeout] using ho hsent
    refine (hdrop.connect_new (by simpa using hopen : s.isOpen = true) ?_ hlast).mono fun t ht ↦
      ⟨ht.toSound, fun j hj ↦ ⟨(ht.other j ?_).trans_le (hle j), False.elim⟩⟩
    · simpa [disconnectUnsafe, hne] using hnew
    · rintro rfl
      simp_all
  | disconnect id =>
    rw [step]
    split
    · exact not_false
    rename_i c hc
    refine .ite (fun hr ↦ hunserved ⟨(h.drop hc hr).1, (h.drop hc hr).2.2⟩) fun hr ↦ ?_
    have hplaced := h.placed_some hc
    rw [Placed, if_neg hr] at hplaced
    refine .ite (fun hin ↦ ?_) fun _ ↦ hunserved ⟨⟨fun j _ ↦ ?_, h.polled, h.armed, h.sorted, h.idle⟩, fun j ↦ ?_⟩
    · rw [← count_pos_iff, ← count_pos_iff] at hin
      omega
    · by_cases hj : j = id
      · subst hj
        simpa [setConnection, Placed, hr] using hplaced
      · simpa [setConnection, hj] using h.placed j nofun
    · by_cases hj : j = id
      · subst hj
        simp [stage, setConnection, hc, hr]
      · exact (spares_setConnection.other j hj).le
  | reply id =>
    rw [step]
    split
    · rename_i c hc
      split_ifs with hr
      · obtain ⟨hdrop, hlt, hle⟩ := h.drop hc (by simp_all)
        exact ⟨hdrop, fun j _ ↦ ⟨hle j, fun hs ↦ hs.1 ▸ hlt⟩⟩
      · exact hunserved hstays fun j hs ↦ by simp_all [Serves]
    · exact hunserved hstays fun j hs ↦ by simp_all [Serves]
  | writable results =>
    refine .ite (fun _ ↦ ensures_eventWrite h ho) fun hoff ↦ hunserved hstays fun j hs ↦ hoff ?_
    have hin : some j ∈ s.writeQueue := by
      rw [← count_pos_iff, ← count_pending, count_pos_iff]
      exact mem_of_mem_head? hs.2
    simp [h.polled (ne_nil_of_mem hin), h.idle.resolve_right fun hidle ↦ by simp [hidle.2.1] at hin]
  | timeout results =>
    have hserved (j : ℕ) (hs : Serves (.timeout results) s j) : ∃ time ≤ s.now, s.task = some time := by
      obtain ⟨d, hd, hin⟩ := hs
      obtain ⟨time, htask, hle⟩ := h.scheduled hin
      exact ⟨time, hle.trans hd, htask⟩
    rw [step]
    split
    · rename_i time htask
      refine .ite (fun _ ↦ ensures_receiveTimeout h ho) fun hlate ↦ hunserved hstays fun j hs ↦ ?_
      obtain ⟨_, hle, htask'⟩ := hserved j hs
      cases htask.symm.trans htask'
      exact hlate hle
    · rename_i htask
      refine hunserved hstays fun j hs ↦ ?_
      obtain ⟨_, -, htask'⟩ := hserved j hs
      cases htask.symm.trans htask'

theorem Sound.waits (h : Settled s) : Waits s := by
  intro hopen id c hc hreg
  have hplaced := h.placed_some hc
  rw [Placed] at hplaced
  refine ⟨?_, ?_, fun hin ↦ ?_, fun hin ↦ h.polled (ne_nil_of_mem hin), fun d hd ↦ h.scheduled hd⟩
  · split_ifs at hplaced <;> omega
  · split_ifs at hplaced <;> omega
  · rw [← count_pos_iff] at hin
    split_ifs at hplaced with hr
    · omega
    · simpa using hr

end Steps

end UdpRouter

end LibTorrent
