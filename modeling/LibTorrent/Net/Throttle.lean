import LibTorrent.Lib.Outcome
import Mathlib.Data.Int.Basic
import Mathlib.Algebra.BigOperators.Group.List.Basic
import Mathlib.Algebra.GroupWithZero.Nat

namespace LibTorrent

def add32 (a b : ℕ) : ℕ := (a + b) % 2 ^ 32

def sub32 (a b : ℕ) : ℕ := (a + 2 ^ 32 - b) % 2 ^ 32

def int32 (a : ℕ) : ℤ := if a < 2 ^ 31 then a else a - 2 ^ 32

/-- Of a pool at most `quota` is kept. With what is used up, which is negative if more than `quota` is given back. -/
def keepUpTo (quota pool : ℕ) : ℤ × ℕ :=
  if quota < pool then (int32 (sub32 quota (pool - quota)), quota) else (int32 quota, pool)

/-- A node of a throttle list, with what its owner was told last: a node is active when it is put in the list and
when `activate` is called, and inactive once it is deactivated. -/
structure ThrottleNode where
  id : ℕ
  quota : ℕ
  active : Bool
  deriving DecidableEq

inductive ThrottleFault
  /-- An `internal_error` of `throttle_list.cc`. -/
  | list (message : String)
  | internal (message : String)
  | input (message : String)
  deriving DecidableEq

/-- `torrent::ThrottleList`. The iterator `m_splitActive` is the number of nodes before it. -/
structure ThrottleList where
  enabled : Bool := false
  size : ℕ := 0
  outstandingQuota : ℕ := 0
  unallocatedQuota : ℕ := 0
  unusedUnthrottledQuota : ℕ := 0
  minChunkSize : ℕ := 2 * 2 ^ 10
  maxChunkSize : ℕ := 16 * 2 ^ 10
  nodes : List ThrottleNode := []
  splitActive : ℕ := 0

namespace ThrottleList

variable (tl : ThrottleList)

variable (id : ℕ)

def position : Option (Fin tl.nodes.length) := tl.nodes.findFinIdx? (·.id == id)

def isActive : Bool := (tl.position id).any fun i ↦ i < tl.splitActive

def isInactive : Bool := (tl.position id).any fun i ↦ tl.splitActive ≤ i

def isThrottled : Bool := (tl.position id).isSome

def share (node : ThrottleNode) : ℕ :=
  if tl.minChunkSize ≤ node.quota then 0 else min (sub32 tl.maxChunkSize node.quota) tl.unallocatedQuota

/-- `allocate_quota`, on the node and on the pools of the list. -/
def allocateNode (node : ThrottleNode) : ThrottleNode :=
  { node with quota := add32 node.quota (tl.share node) }

def allocatePools (node : ThrottleNode) : ThrottleList :=
  { tl with
    outstandingQuota := add32 tl.outstandingQuota (tl.share node)
    unallocatedQuota := sub32 tl.unallocatedQuota (tl.share node) }

def enable (tl : ThrottleList) : Except ThrottleFault ThrottleList :=
  if tl.enabled then .ok tl
  else if tl.nodes ≠ [] ∧ tl.splitActive = 0 then .error (.list "ThrottleList::enable() m_splitActive is invalid.")
  else .ok { tl with enabled := true }

def disable : ThrottleList :=
  if !tl.enabled then tl
  else
    { tl with
      enabled := false
      outstandingQuota := 0
      unallocatedQuota := 0
      unusedUnthrottledQuota := 0
      nodes := tl.nodes.mapIdx fun i node ↦ { node with quota := 0, active := node.active || tl.splitActive ≤ i }
      splitActive := tl.nodes.length }

/-- The loop of `update_quota`, over the nodes that are inactive: the nodes after it, how many of them it passed, and
the pools. -/
def distribute (tl : ThrottleList) : List ThrottleNode → List ThrottleNode × ℕ × ThrottleList
  | [] => ([], 0, tl)
  | node :: rest =>
    let node' := tl.allocateNode node
    let tl' := tl.allocatePools node
    if node'.quota < tl.minChunkSize then (node' :: rest, 0, tl')
    else
      let (rest', passed, tl'') := tl'.distribute rest
      ({ node' with active := true } :: rest', passed + 1, tl'')

def updateQuota (quota : ℕ) (tl : ThrottleList) : Except ThrottleFault (ℤ × ThrottleList) :=
  if !tl.enabled then
    .error (.list "ThrottleList::update_quota(...) called but the object is not enabled.")
  else
    let tl := { tl with
      unallocatedQuota := add32 tl.unallocatedQuota tl.unusedUnthrottledQuota
      unusedUnthrottledQuota := quota }
    let (inactive, passed, tl') := tl.distribute (tl.nodes.drop tl.splitActive)
    let (used, unallocatedQuota) := keepUpTo quota tl'.unallocatedQuota
    .ok (used, { tl' with
      unallocatedQuota := unallocatedQuota
      nodes := tl.nodes.take tl.splitActive ++ inactive
      splitActive := tl.splitActive + passed })

def nodeQuota : Except ThrottleFault ℕ :=
  if !tl.enabled then .ok (2 ^ 31 - 1)
  else
    match tl.position id with
    | none => .error (.list "ThrottleList::node_quota(...) could not find node.")
    | some i =>
      if tl.splitActive ≤ i then .error (.list "ThrottleList::node_quota(...) called on an inactive node.")
      else if tl.minChunkSize ≤ add32 tl.nodes[i].quota tl.unallocatedQuota then
        .ok (add32 tl.nodes[i].quota tl.unallocatedQuota)
      else .ok 0

def nodeUsed (id used : ℕ) (tl : ThrottleList) : Except ThrottleFault ThrottleList :=
  match tl.position id with
  | none => .ok tl
  | some i =>
    if used = 0 ∨ !tl.enabled then .ok tl
    else
      let quota := min used tl.nodes[i].quota
      if tl.outstandingQuota < quota then .error (.list "ThrottleList::node_used(...) used too much quota.")
      else
        .ok { tl with
          nodes := tl.nodes.set i { tl.nodes[i] with quota := tl.nodes[i].quota - quota }
          outstandingQuota := tl.outstandingQuota - quota
          unallocatedQuota := tl.unallocatedQuota - min (used - quota) tl.unallocatedQuota }

def nodeUsedUnthrottled (used : ℕ) (tl : ThrottleList) : ThrottleList :=
  let avail := min used tl.unusedUnthrottledQuota
  { tl with
    unusedUnthrottledQuota := tl.unusedUnthrottledQuota - avail
    unallocatedQuota := tl.unallocatedQuota - min (used - avail) tl.unallocatedQuota }

def nodeDeactivate (id : ℕ) (tl : ThrottleList) : Except ThrottleFault ThrottleList :=
  match tl.position id with
  | none => .error (.list "ThrottleList::node_deactivate(...) could not find node.")
  | some i =>
    if tl.splitActive ≤ i then .error (.list "ThrottleList::node_deactivate(...) called on an inactive node.")
    else
      -- the node that the split points to moves up, and if there was none, the split is the node itself
      .ok { tl with
        nodes := tl.nodes.eraseIdx i ++ [{ tl.nodes[i] with active := false }]
        splitActive := tl.splitActive - 1 }

def insert (id : ℕ) (tl : ThrottleList) : ThrottleList :=
  if tl.isThrottled id then tl
  else if !tl.enabled then
    { tl with
      nodes := tl.nodes ++ [⟨id, 0, true⟩]
      -- an iterator to the end stays one
      splitActive := if tl.splitActive = tl.nodes.length then tl.splitActive + 1 else tl.splitActive
      size := tl.size + 1 }
  else
    { tl.allocatePools ⟨id, 0, true⟩ with
      nodes := tl.nodes.take tl.splitActive ++ tl.allocateNode ⟨id, 0, true⟩ :: tl.nodes.drop tl.splitActive
      splitActive := tl.splitActive + 1
      size := tl.size + 1 }

def erase (id : ℕ) (tl : ThrottleList) : Except ThrottleFault ThrottleList :=
  match tl.position id with
  | none => .ok tl
  | some i =>
    if tl.size = 0 then .error (.list "ThrottleList::erase(...) called on an empty list.")
    else if tl.nodes[i].quota ≠ 0 ∧ tl.outstandingQuota < tl.nodes[i].quota then
      .error (.list "ThrottleList::erase(...) node->quota() > m_outstandingQuota.")
    else
      .ok { tl with
        outstandingQuota := tl.outstandingQuota - tl.nodes[i].quota
        unallocatedQuota := add32 tl.unallocatedQuota tl.nodes[i].quota
        nodes := tl.nodes.eraseIdx i
        splitActive := if i < tl.splitActive then tl.splitActive - 1 else tl.splitActive
        size := tl.size - 1 }

end ThrottleList

/-- `torrent::Throttle` with its slaves. The iterator `m_next_slave` is the number of slaves before it. -/
structure Throttle where
  isRoot : Bool
  maxRate : ℕ
  list : ThrottleList
  slaves : List Throttle
  nextSlave : ℕ
  unusedQuota : ℕ

namespace Throttle

def createThrottle : Throttle := ⟨true, 0, {}, [], 0, 0⟩

def need (quota fraction maxRate : ℕ) : ℕ := min quota (fraction * maxRate / 2 ^ 16 % 2 ^ 32)

def subInt (a : ℕ) (b : ℤ) : ℕ := ((a - b) % 2 ^ 32).toNat

/-- The part of `receive_quota` for the throttle's own list, with the next slave and the unused quota after it. -/
def receiveList (quota fraction maxRate numSlaves nextSlave unusedQuota : ℕ) (list : ThrottleList) :
    Except ThrottleFault (ThrottleList × ℕ × ℕ) :=
  if nextSlave = numSlaves ∧ need quota fraction maxRate ≤ unusedQuota then do
    let (used, list) ← list.updateQuota (need quota fraction maxRate)
    .ok (list, 0, subInt unusedQuota used)
  else .ok (list, nextSlave, unusedQuota)

mutual

def receiveQuota (quota fraction : ℕ) : Throttle → Except ThrottleFault (ℤ × Throttle)
  | ⟨isRoot, maxRate, list, slaves, nextSlave, unusedQuota⟩ => do
    let (slaves, nextSlave, unusedQuota) ← receiveSlaves quota fraction slaves nextSlave (add32 unusedQuota quota)
    let (list, nextSlave, unusedQuota) ←
      receiveList quota fraction maxRate slaves.length nextSlave unusedQuota list
    let (used, unusedQuota) := keepUpTo quota unusedQuota
    .ok (used, ⟨isRoot, maxRate, list, slaves, nextSlave, unusedQuota⟩)

/-- The loop of `receive_quota` over the slaves, from the next one on. With the place that it stops at. -/
def receiveSlaves (quota fraction : ℕ) :
    List Throttle → ℕ → ℕ → Except ThrottleFault (List Throttle × ℕ × ℕ)
  | [], _, unusedQuota => .ok ([], 0, unusedQuota)
  | slave :: rest, nextSlave + 1, unusedQuota => do
    let (rest, place, unusedQuota) ← receiveSlaves quota fraction rest nextSlave unusedQuota
    .ok (slave :: rest, place + 1, unusedQuota)
  | slave :: rest, 0, unusedQuota =>
    if unusedQuota < need quota fraction slave.maxRate then .ok (slave :: rest, 0, unusedQuota)
    else do
      let (used, slave) ← receiveQuota (need quota fraction slave.maxRate) fraction slave
      let (rest, place, unusedQuota) ← receiveSlaves quota fraction rest 0 (subInt unusedQuota used)
      .ok (slave :: rest, place + 1, unusedQuota)

end

def tickQuota (countUsec maxRate : ℕ) : ℕ := countUsec * maxRate % 2 ^ 64 / 1000000 % 2 ^ 32

def tickFraction (countUsec : ℕ) : ℕ := countUsec * 2 ^ 16 % 2 ^ 64 / 1000000 % 2 ^ 32

def receiveTick (countUsec : ℕ) (t : Throttle) : Except ThrottleFault Throttle :=
  if countUsec < 90000 then
    .error (.internal "ThrottleInternal::receive_tick() called at a to short interval.")
  else do
    let (_, t) ← receiveQuota (tickQuota countUsec t.maxRate) (tickFraction countUsec) t
    .ok t

def enableList (t : Throttle) : Except ThrottleFault Throttle := do
  let list ← t.list.enable
  .ok { t with list := list }

def enableSlaves : List Throttle → Except ThrottleFault (List Throttle)
  | [] => .ok []
  | slave :: rest => do
    let slave ← slave.enableList
    let rest ← enableSlaves rest
    .ok (slave :: rest)

def enable (now : ℕ) (t : Throttle) : Except ThrottleFault Throttle := do
  let t ← t.enableList
  let slaves ← enableSlaves t.slaves
  receiveTick (min now 1000000) { t with slaves := slaves }

def disable (t : Throttle) : Throttle :=
  { t with
    slaves := t.slaves.map fun slave ↦ { slave with list := slave.list.disable }
    list := t.list.disable }

def newSlave (t : Throttle) : Except ThrottleFault Throttle :=
  let slave : Throttle := ⟨false, t.maxRate, {}, [], 0, 0⟩
  if t.list.enabled then slave.enableList else .ok slave

def createSlave (t : Throttle) : Except ThrottleFault Throttle := do
  let slave ← t.newSlave
  .ok { t with slaves := t.slaves ++ [slave], nextSlave := t.slaves.length + 1 }

def calculateMinChunkSize (maxRate : ℕ) : ℕ :=
  if maxRate ≤ 8 * 2 ^ 10 then 1 * 2 ^ 9
  else if maxRate ≤ 32 * 2 ^ 10 then 2 * 2 ^ 9
  else if maxRate ≤ 64 * 2 ^ 10 then 3 * 2 ^ 9
  else if maxRate ≤ 128 * 2 ^ 10 then 4 * 2 ^ 9
  else if maxRate ≤ 512 * 2 ^ 10 then 8 * 2 ^ 9
  else if maxRate ≤ 2048 * 2 ^ 10 then 16 * 2 ^ 9
  else 32 * 2 ^ 9

def calculateMaxChunkSize (maxRate : ℕ) : ℕ := calculateMinChunkSize maxRate * 4

def setRate (v : ℕ) (t : Throttle) : Throttle :=
  { t with
    maxRate := v
    list := { t.list with minChunkSize := calculateMinChunkSize v, maxChunkSize := calculateMaxChunkSize v } }

def setMaxRate (v now : ℕ) (t : Throttle) : Except ThrottleFault Throttle :=
  if v = t.maxRate then .ok t
  else if 2 ^ 32 - 1 - 1 < v then .error (.input "Throttle rate must be between 0 and 4294967295.")
  else if !t.isRoot then .ok (t.setRate v)
  else if t.maxRate = 0 then (t.setRate v).enable now
  else if v = 0 then .ok (t.setRate v).disable
  else .ok (t.setRate v)

def at? : List ℕ → Throttle → Option Throttle
  | [], t => some t
  | i :: path, t => t.slaves[i]?.bind (at? path)

def modifyAt (f : Throttle → Except ThrottleFault Throttle) : List ℕ → Throttle → Except ThrottleFault Throttle
  | [], t => f t
  | i :: path, t =>
    match t.slaves[i]? with
    | none => .ok t
    | some slave => do
      let slave ← modifyAt f path slave
      .ok { t with slaves := t.slaves.set i slave }

end Throttle

inductive ListOp
  | insert (id : ℕ)
  | erase (id : ℕ)
  | deactivate (id : ℕ)
  | used (id bytes : ℕ)
  | usedUnthrottled (bytes : ℕ)
  | setMinChunkSize (v : ℕ)
  | setMaxChunkSize (v : ℕ)

namespace ListOp

def apply : ListOp → ThrottleList → Except ThrottleFault ThrottleList
  | insert id, tl => .ok (tl.insert id)
  | erase id, tl => tl.erase id
  | deactivate id, tl => tl.nodeDeactivate id
  | used id bytes, tl => tl.nodeUsed id bytes
  | usedUnthrottled bytes, tl => .ok (tl.nodeUsedUnthrottled bytes)
  | setMinChunkSize v, tl => .ok { tl with minChunkSize := v }
  | setMaxChunkSize v, tl => .ok { tl with maxChunkSize := v }

end ListOp

inductive ThrottleEvent
  | onList (path : List ℕ) (op : ListOp)
  | createSlave (path : List ℕ)
  | setMaxRate (path : List ℕ) (v now : ℕ)
  | tick (countUsec : ℕ)

namespace Throttle

open Lib.Outcome

def step (e : ThrottleEvent) (t : Throttle) : Except ThrottleFault Throttle :=
  match e with
  | .onList path op => modifyAt (fun s ↦ do .ok { s with list := ← op.apply s.list }) path t
  | .createSlave path => modifyAt createSlave path t
  | .setMaxRate path v now => modifyAt (setMaxRate v now) path t
  | .tick countUsec => if t.list.enabled then t.receiveTick countUsec else .ok t

def run : List ThrottleEvent → Throttle → Except ThrottleFault Throttle := forEach step

end Throttle

open Lib.Outcome List Nat

variable {a b : ℕ}

theorem add32_eq (h : a + b < 2 ^ 32) : add32 a b = a + b := mod_eq_of_lt h

theorem sub32_eq (h : b ≤ a) (ha : a < 2 ^ 32) : sub32 a b = a - b := by
  rw [sub32]
  omega

theorem int32_eq (h : a < 2 ^ 31) : int32 a = a := if_pos h

theorem int32_sub32 (ha : a < 2 ^ 31) (hb : b < 2 ^ 31) : int32 (sub32 a b) = a - b := by
  rw [int32, sub32]
  split_ifs <;> omega

theorem keepUpTo_spec (ha : a < 2 ^ 31) (hb : b < 2 ^ 31) :
    ((keepUpTo a b).2 : ℤ) + a = b + (keepUpTo a b).1 ∧ (keepUpTo a b).1 ≤ a := by
  rw [keepUpTo]
  split_ifs with hlt
  · rw [int32_sub32 ha (by omega)]
    omega
  · rw [int32_eq ha]
    omega

/-- The first `k` nodes are active, and no others are. -/
structure Split (k : ℕ) (l : List ThrottleNode) : Prop where
  le : k ≤ l.length
  active : ∀ node ∈ l.take k, node.active = true
  inactive : ∀ node ∈ l.drop k, node.active = false

variable {i : ℕ} {l : List ThrottleNode}

theorem split_iff {k : ℕ} : Split k l ↔ k ≤ l.length ∧ ∀ i (hi : i < l.length), l[i].active = decide (i < k) := by
  refine ⟨fun h ↦ ⟨h.le, fun i hi ↦ ?_⟩, fun ⟨hle, h⟩ ↦ ⟨hle, fun node hnode ↦ ?_, fun node hnode ↦ ?_⟩⟩
  · by_cases hlt : i < k
    · rw [h.active _ (mem_take_iff_getElem.mpr ⟨i, by omega, rfl⟩), decide_eq_true hlt]
    · rw [h.inactive _ (mem_drop_iff_getElem.mpr ⟨i - k, by omega, by simp [Nat.add_sub_of_le (not_lt.mp hlt)]⟩),
        decide_eq_false hlt]
  · obtain ⟨i, hi, rfl⟩ := mem_take_iff_getElem.mp hnode
    rw [h, decide_eq_true (by omega)]
  · obtain ⟨i, hi, rfl⟩ := mem_drop_iff_getElem.mp hnode
    rw [h, decide_eq_false (by omega)]

namespace Split

variable {k : ℕ} {node : ThrottleNode}

variable (h : Split k l)
include h

theorem cons (hnode : node.active = true) : Split (k + 1) (node :: l) := by
  refine ⟨succ_le_succ h.le, fun n hn ↦ ?_, h.inactive⟩
  rcases mem_cons.mp hn with rfl | hn
  · exact hnode
  · exact h.active n hn

theorem append_split {m : List ThrottleNode} {j : ℕ} (hm : Split j m) : Split (k + j) (l.take k ++ m) := by
  rw [split_iff] at h hm ⊢
  have hlen : (l.take k).length = k := length_take_of_le h.1
  refine ⟨by rw [length_append, hlen]; exact Nat.add_le_add_left hm.1 k, fun i hi ↦ ?_⟩
  rw [getElem_append]
  split_ifs with hlt
  · rw [getElem_take, h.2]
    exact decide_eq_decide.mpr (by omega)
  · rw [hm.2]
    exact decide_eq_decide.mpr (by omega)

theorem set (hi : i < l.length) (hnode : node.active = l[i].active) : Split k (l.set i node) := by
  rw [split_iff] at h ⊢
  refine ⟨by simpa using h.1, fun j hj ↦ ?_⟩
  rw [getElem_set]
  split_ifs with heq
  · subst heq
    rw [hnode, h.2]
  · exact h.2 j _

theorem eraseIdx (hi : i < l.length) : Split (if i < k then k - 1 else k) (l.eraseIdx i) := by
  rw [split_iff] at h ⊢
  refine ⟨by rw [length_eraseIdx_of_lt hi]; split_ifs <;> omega, fun j hj ↦ ?_⟩
  rw [getElem_eraseIdx]
  split_ifs <;> rw [h.2] <;> exact decide_eq_decide.mpr (by omega)

theorem push (node : ThrottleNode) (hnode : node.active = false) : Split k (l ++ [node]) := by
  rw [split_iff] at h ⊢
  refine ⟨by simp; omega, fun j hj ↦ ?_⟩
  rw [getElem_append]
  split_ifs with hlt
  · exact h.2 j hlt
  · rw [getElem_singleton, hnode, decide_eq_false (by omega)]

theorem insert (node : ThrottleNode) (hnode : node.active = true) :
    Split (k + 1) (l.take k ++ node :: l.drop k) :=
  h.append_split (cons ⟨zero_le _, nofun, h.inactive⟩ hnode)

end Split

def sumQuota (l : List ThrottleNode) : ℕ := (l.map ThrottleNode.quota).sum

@[simp] theorem sumQuota_nil : sumQuota [] = 0 := rfl

@[simp] theorem sumQuota_cons (node : ThrottleNode) (l : List ThrottleNode) :
    sumQuota (node :: l) = node.quota + sumQuota l := by
  rw [sumQuota, map_cons, sum_cons, sumQuota]

@[simp] theorem sumQuota_append (l m : List ThrottleNode) : sumQuota (l ++ m) = sumQuota l + sumQuota m := by
  rw [sumQuota, map_append, List.sum_append, sumQuota, sumQuota]

theorem sumQuota_take_drop (k : ℕ) (l : List ThrottleNode) : sumQuota (l.take k) + sumQuota (l.drop k) = sumQuota l := by
  rw [← sumQuota_append, take_append_drop]

theorem sumQuota_eraseIdx (hi : i < l.length) : l[i].quota + sumQuota (l.eraseIdx i) = sumQuota l := by
  exact ((getElem_cons_eraseIdx_perm hi).map _).sum_nat

theorem sum_map_set {α : Type} (f : α → ℕ) {l : List α} (hi : i < l.length) (a : α) :
    ((l.set i a).map f).sum + f l[i] = (l.map f).sum + f a := by
  have hset : ((l.set i a).map f).sum = f a + ((l.eraseIdx i).map f).sum :=
    ((set_perm_cons_eraseIdx hi a).map f).sum_nat
  have herase : f l[i] + ((l.eraseIdx i).map f).sum = (l.map f).sum := ((getElem_cons_eraseIdx_perm hi).map f).sum_nat
  omega

namespace ThrottleList

variable {tl : ThrottleList} {node : ThrottleNode}

def held (tl : ThrottleList) : ℕ := tl.outstandingQuota + tl.unallocatedQuota + tl.unusedUnthrottledQuota

/-- The quotas of the nodes are accounted for, the split is that of the active nodes, and a list that is not enabled has
no quota and only active nodes. -/
structure Balanced (tl : ThrottleList) : Prop where
  outstanding : tl.outstandingQuota = sumQuota tl.nodes
  split : Split tl.splitActive tl.nodes
  size_eq : tl.size = tl.nodes.length
  disabled_held : tl.enabled = false → tl.held = 0
  disabled_split : tl.enabled = false → tl.splitActive = tl.nodes.length

theorem share_le (tl : ThrottleList) (node : ThrottleNode) : tl.share node ≤ tl.unallocatedQuota := by
  rw [share]
  split_ifs
  · exact zero_le _
  · exact min_le_right _ _

theorem quota_allocateNode (h : node.quota + tl.unallocatedQuota < 2 ^ 32) :
    (tl.allocateNode node).quota = node.quota + tl.share node :=
  add32_eq (by have := tl.share_le node; omega)

theorem outstandingQuota_allocatePools (h : tl.outstandingQuota + tl.unallocatedQuota < 2 ^ 32) :
    (tl.allocatePools node).outstandingQuota = tl.outstandingQuota + tl.share node :=
  add32_eq (by have := tl.share_le node; omega)

theorem unallocatedQuota_allocatePools (h : tl.outstandingQuota + tl.unallocatedQuota < 2 ^ 32) :
    (tl.allocatePools node).unallocatedQuota = tl.unallocatedQuota - tl.share node :=
  sub32_eq (tl.share_le node) (by omega)

structure Distributed (tl : ThrottleList) (l : List ThrottleNode) (r : List ThrottleNode × ℕ × ThrottleList) : Prop where
  pools : ∃ o u, r.2.2 = { tl with outstandingQuota := o, unallocatedQuota := u }
  total : r.2.2.outstandingQuota + r.2.2.unallocatedQuota = tl.outstandingQuota + tl.unallocatedQuota
  quotas : sumQuota r.1 + tl.outstandingQuota = sumQuota l + r.2.2.outstandingQuota
  split : Split r.2.1 r.1
  ids : r.1.map ThrottleNode.id = l.map ThrottleNode.id

theorem distributed (l : List ThrottleNode) (hinactive : ∀ node ∈ l, node.active = false)
    (hle : sumQuota l ≤ tl.outstandingQuota) (hlt : tl.outstandingQuota + tl.unallocatedQuota < 2 ^ 32) :
    Distributed tl l (tl.distribute l) := by
  induction l generalizing tl with
  | nil => exact ⟨⟨_, _, rfl⟩, rfl, rfl, ⟨le_rfl, nofun, nofun⟩, rfl⟩
  | cons node rest ih =>
    rw [sumQuota_cons] at hle
    have hshare := tl.share_le node
    have hquota : (tl.allocateNode node).quota = node.quota + tl.share node := quota_allocateNode (by omega)
    have hout : (tl.allocatePools node).outstandingQuota = _ := outstandingQuota_allocatePools hlt
    have hun : (tl.allocatePools node).unallocatedQuota = _ := unallocatedQuota_allocatePools hlt
    have hrest : ∀ n ∈ rest, n.active = false := fun n hn ↦ hinactive n (mem_cons_of_mem _ hn)
    rw [distribute]
    split_ifs with hsmall
    · refine ⟨⟨_, _, rfl⟩, by dsimp only; omega, ?_, ⟨zero_le _, by simp, ?_⟩, rfl⟩
      · dsimp only
        rw [sumQuota_cons, sumQuota_cons]
        omega
      intro n hn
      rcases mem_cons.mp hn with rfl | hn
      · exact hinactive node mem_cons_self
      · exact hrest n hn
    · have hstep : Distributed (tl.allocatePools node) rest ((tl.allocatePools node).distribute rest) :=
        ih hrest (by omega) (by omega)
      generalize (tl.allocatePools node).distribute rest = r at hstep ⊢
      obtain ⟨rest', passed, tl'⟩ := r
      obtain ⟨⟨o, u, hpools⟩, htotal, hquotas, hsplit, hids⟩ := hstep
      dsimp only at hpools htotal hquotas hsplit hids
      refine ⟨⟨o, u, hpools⟩, by dsimp only; omega, ?_, hsplit.cons rfl, ?_⟩
      · rw [sumQuota_cons, sumQuota_cons]
        dsimp only
        omega
      · rw [map_cons, map_cons, hids]
        rfl

theorem ensures_updateQuota (h : tl.Balanced) (henabled : tl.enabled = true) {quota : ℕ}
    (hlt : tl.held + quota < 2 ^ 31) :
    Gives (tl.updateQuota quota) fun r ↦
      r.2.Balanced ∧ r.2.enabled = true ∧ (r.2.held : ℤ) = tl.held + r.1 ∧ r.1 ≤ quota := by
  have hsum := sumQuota_take_drop tl.splitActive tl.nodes
  have hout := h.outstanding
  simp only [held] at hlt ⊢
  have hadd : add32 tl.unallocatedQuota tl.unusedUnthrottledQuota = _ := add32_eq (by omega)
  have hdist := @distributed { tl with
      unallocatedQuota := tl.unallocatedQuota + tl.unusedUnthrottledQuota, unusedUnthrottledQuota := quota }
    _ h.split.inactive (by dsimp only; omega) (by dsimp only; omega)
  rw [updateQuota, if_neg (by simp [henabled]), hadd]
  dsimp only
  generalize distribute _ _ = r at hdist ⊢
  obtain ⟨inactive, passed, tl'⟩ := r
  obtain ⟨⟨o, u, rfl⟩, htotal, hquotas, hsplit, hids⟩ := hdist
  dsimp only at htotal hquotas hsplit hids ⊢
  have hlen : inactive.length = (tl.nodes.drop tl.splitActive).length := by
    rw [← length_map, hids, length_map]
  obtain ⟨hkeep, hle⟩ := keepUpTo_spec (a := quota) (b := u) (by omega) (by omega)
  refine .ok ⟨⟨?_, h.split.append_split hsplit, ?_, fun hoff ↦ absurd (henabled.symm.trans hoff) nofun,
    fun hoff ↦ absurd (henabled.symm.trans hoff) nofun⟩, henabled, ?_, hle⟩
  · dsimp only
    rw [sumQuota_append]
    omega
  · rw [length_append, hlen, h.size_eq, ← length_append, take_append_drop]
  · dsimp only
    omega

/-- What an operation between two ticks does to a list: no quota is added. -/
structure Keeps (tl tl' : ThrottleList) : Prop where
  balanced : tl'.Balanced
  held_le : tl'.held ≤ tl.held
  enabled_eq : tl'.enabled = tl.enabled

variable (h : tl.Balanced)
include h

theorem Balanced.quota_le {i : ℕ} (hi : i < tl.nodes.length) : tl.nodes[i].quota ≤ tl.outstandingQuota := by
  rw [h.outstanding, ← sumQuota_eraseIdx hi]
  exact le_add_right _ _

theorem keeps_insert (hlt : tl.held < 2 ^ 32) (id : ℕ) : Keeps tl (tl.insert id) := by
  rw [insert]
  split_ifs with hin hoff hend
  · exact ⟨h, le_rfl, rfl⟩
  · refine ⟨⟨?_, ?_, ?_, h.disabled_held, fun _ ↦ ?_⟩, le_rfl, rfl⟩
    · rw [sumQuota_append]
      exact h.outstanding
    · have hsplit := h.split.insert ⟨id, 0, true⟩ rfl
      rw [hend, take_length, drop_length] at hsplit
      rwa [hend]
    · rw [length_append, h.size_eq]
      rfl
    · rw [length_append, hend]
      rfl
  · exact absurd (h.disabled_split (by simpa using hoff)) hend
  · have hon : tl.enabled = true := by simpa using hoff
    have hshare := tl.share_le ⟨id, 0, true⟩
    have hsum := sumQuota_take_drop tl.splitActive tl.nodes
    have hout := h.outstanding
    simp only [held] at hlt
    have hquota : (tl.allocateNode ⟨id, 0, true⟩).quota = 0 + tl.share ⟨id, 0, true⟩ :=
      quota_allocateNode (by dsimp only; omega)
    have hout' : (tl.allocatePools ⟨id, 0, true⟩).outstandingQuota = _ := outstandingQuota_allocatePools (by omega)
    have hun' : (tl.allocatePools ⟨id, 0, true⟩).unallocatedQuota = _ := unallocatedQuota_allocatePools (by omega)
    refine ⟨⟨?_, h.split.insert _ rfl, ?_, fun hoff ↦ absurd (hon.symm.trans hoff) nofun,
      fun hoff ↦ absurd (hon.symm.trans hoff) nofun⟩, ?_, rfl⟩
    · dsimp only
      rw [sumQuota_append, sumQuota_cons]
      omega
    · change tl.size + 1 = (tl.nodes.take tl.splitActive ++ _ :: tl.nodes.drop tl.splitActive).length
      rw [length_append, length_cons, length_take, length_drop, h.size_eq]
      omega
    simp only [held]
    change _ + _ + tl.unusedUnthrottledQuota ≤ _
    omega

theorem ensures_erase (hlt : tl.held < 2 ^ 32) (id : ℕ) : Gives (tl.erase id) (Keeps tl) := by
  rw [erase]
  cases hpos : tl.position id with
  | none => exact ⟨h, le_rfl, rfl⟩
  | some i =>
    have hsize : tl.size ≠ 0 := by
      have := i.isLt
      rw [h.size_eq]
      omega
    have hquota : tl.nodes[i].quota ≤ _ := h.quota_le i.isLt
    have hsum := sumQuota_eraseIdx i.isLt
    have hout := h.outstanding
    simp only [held] at hlt
    have hadd : add32 tl.unallocatedQuota tl.nodes[i].quota = _ := add32_eq (by omega)
    dsimp only
    rw [if_neg hsize, if_neg (by omega), hadd]
    refine .ok ⟨⟨?_, h.split.eraseIdx i.isLt, ?_, fun hoff ↦ ?_, fun hoff ↦ ?_⟩, ?_, rfl⟩
    · dsimp only [Fin.getElem_fin] at hsum ⊢
      omega
    · rw [length_eraseIdx_of_lt i.isLt, h.size_eq]
    · have := h.disabled_held hoff
      simp only [held] at this ⊢
      omega
    · have := h.disabled_split hoff
      rw [length_eraseIdx_of_lt i.isLt, if_pos (by omega), this]
    · simp only [held]
      omega

theorem ensures_nodeUsed (id used : ℕ) : Gives (tl.nodeUsed id used) (Keeps tl) := by
  rw [nodeUsed]
  cases hpos : tl.position id with
  | none => exact ⟨h, le_rfl, rfl⟩
  | some i =>
    refine .ite (fun _ ↦ ⟨h, le_rfl, rfl⟩) fun huse ↦ ?_
    have hon : tl.enabled = true := by simpa using (not_or.mp huse).2
    have hquota : tl.nodes[i].quota ≤ _ := h.quota_le i.isLt
    have hset := sum_map_set ThrottleNode.quota i.isLt { tl.nodes[i] with quota := tl.nodes[i].quota - min used tl.nodes[i].quota }
    have hout := h.outstanding
    rw [if_neg (by omega)]
    refine .ok ⟨⟨?_, h.split.set i.isLt rfl, ?_, fun hoff ↦ by simp [hon] at hoff,
      fun hoff ↦ by simp [hon] at hoff⟩, ?_, rfl⟩
    · dsimp only [Fin.getElem_fin, sumQuota] at hset hout ⊢
      omega
    · rw [length_set, h.size_eq]
    · simp only [held]
      omega

theorem keeps_nodeUsedUnthrottled (used : ℕ) : Keeps tl (tl.nodeUsedUnthrottled used) := by
  refine ⟨⟨h.outstanding, h.split, h.size_eq, fun hoff ↦ ?_, h.disabled_split⟩, ?_, rfl⟩
  · have := h.disabled_held hoff
    simp only [held, nodeUsedUnthrottled] at this ⊢
    omega
  · simp only [held, nodeUsedUnthrottled]
    omega

theorem ensures_nodeDeactivate (hon : tl.enabled = true) {id : ℕ} (hactive : tl.isActive id = true) :
    Gives (tl.nodeDeactivate id) (Keeps tl) := by
  rw [nodeDeactivate]
  cases hpos : tl.position id with
  | none => exact absurd hactive (by simp [isActive, hpos])
  | some i =>
    have hlt : (i : ℕ) < tl.splitActive := by simpa [isActive, hpos] using hactive
    have hsum := sumQuota_eraseIdx i.isLt
    have hsplit := (h.split.eraseIdx i.isLt).push { tl.nodes[i] with active := false } rfl
    rw [if_pos hlt] at hsplit
    dsimp only
    rw [if_neg (not_le.mpr hlt)]
    refine .ok ⟨⟨?_, hsplit, ?_, fun hoff ↦ by simp [hon] at hoff, fun hoff ↦ by simp [hon] at hoff⟩, le_rfl, rfl⟩
    · rw [sumQuota_append, sumQuota_cons, sumQuota_nil, h.outstanding, ← hsum]
      exact add_comm _ _
    rw [length_append, length_eraseIdx_of_lt i.isLt, h.size_eq, length_singleton]
    omega

theorem balanced_disable : tl.disable.Balanced ∧ tl.disable.held ≤ tl.held ∧ tl.disable.enabled = false := by
  rw [disable]
  split_ifs with hoff
  · exact ⟨h, le_rfl, by simpa using hoff⟩
  refine ⟨⟨?_, ?_, ?_, fun _ ↦ rfl, fun _ ↦ ?_⟩, zero_le _, rfl⟩
  · refine (sum_eq_zero fun q hq ↦ ?_).symm
    obtain ⟨node, hnode, rfl⟩ := mem_map.mp hq
    obtain ⟨i, hi, rfl⟩ := mem_mapIdx.mp hnode
    rfl
  · refine split_iff.mpr ⟨le_of_eq length_mapIdx.symm, fun i hi ↦ ?_⟩
    rw [length_mapIdx] at hi
    rw [getElem_mapIdx, (split_iff.mp h.split).2 i hi, decide_eq_true hi, Bool.or_eq_true, decide_eq_true_iff,
      decide_eq_true_iff]
    exact lt_or_ge ..
  · rw [length_mapIdx, h.size_eq]
  · rw [length_mapIdx]

theorem ensures_enable : Gives tl.enable fun tl' ↦ tl'.Balanced ∧ tl'.held = tl.held ∧ tl'.enabled = true := by
  refine .ite (fun hon ↦ ⟨h, rfl, hon⟩) fun hoff ↦ ?_
  have hsplit := h.disabled_split (by simpa using hoff)
  rw [if_neg]
  · exact ⟨⟨h.outstanding, h.split, h.size_eq, nofun, nofun⟩, rfl, rfl⟩
  · rintro ⟨hne, hzero⟩
    exact hne (length_eq_zero_iff.mp (hsplit.symm.trans hzero))

end ThrottleList

end LibTorrent
