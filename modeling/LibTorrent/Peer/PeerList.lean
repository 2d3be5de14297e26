import Mathlib.Algebra.Group.Nat.Defs
import Mathlib.Data.List.Nodup

namespace LibTorrent

open List

/-- `socket_address_key`. An address is a number with its first byte on top. -/
structure SocketKey where
  inet6 : Bool
  address : ℕ
  deriving DecidableEq

/-- `sa_less_addr`. -/
def SocketKey.lessAddr (a b : SocketKey) : Bool := if a.inet6 ≠ b.inet6 then b.inet6 else a.address < b.address

/-- Addresses with their ports. One that is neither inet nor inet6 has no key. -/
abbrev AddressList := List (Option SocketKey × ℕ)

/-- `connected` is the flag, and `connection` says that there is a `PeerConnectionBase`. -/
structure PeerInfo where
  connected : Bool := false
  connection : Bool := false
  lastHandshake : ℕ := 0
  listenPort : ℕ := 0
  deriving DecidableEq

/-- The test `last_handshake() + 600 > cached_seconds`, in 32 bits. -/
def PeerInfo.isRecent (now : ℕ) (p : PeerInfo) : Bool := now % 2 ^ 32 < (p.lastHandshake + 600) % 2 ^ 32

/-- The multimap has the entries of a key in the order in which they were inserted. -/
structure PeerList where
  available : List (SocketKey × ℕ) := []
  maxSize : ℕ
  peers : SocketKey → List PeerInfo := fun _ ↦ []

namespace PeerList

def insertUnique (sa : SocketKey × ℕ) (l : List (SocketKey × ℕ)) : List (SocketKey × ℕ) :=
  if sa ∈ l then l else l ++ [sa]

/-- The loop of `insert_available`. The rest is what lies between `avail_itr` and `avail_last`. -/
def insertLoop (maxSize : ℕ) (busy : SocketKey → Bool) :
    AddressList → List (SocketKey × ℕ) → List (SocketKey × ℕ) → ℕ → List (SocketKey × ℕ) × ℕ
  | [], _, l, inserted => (l, inserted)
  | (key, port) :: al, rest, l, inserted =>
    if maxSize ≤ l.length then (l, inserted)
    else
      match key with
      | none => insertLoop maxSize busy al rest l inserted
      | some k =>
        if port = 0 then insertLoop maxSize busy al rest l inserted
        else
          let rest := rest.dropWhile fun sa ↦ !sa.1.lessAddr k
          if (rest.head?.any fun sa ↦ !sa.1.lessAddr k) || busy k then insertLoop maxSize busy al rest l inserted
          else insertLoop maxSize busy al rest (insertUnique (k, port) l) (inserted + 1)

/-- Only the first entry of a key is looked at. -/
def busy (now : ℕ) (s : PeerList) (k : SocketKey) : Bool :=
  (s.peers k).head?.any fun p ↦ p.connection || p.isRecent now

def insertAvailable (now : ℕ) (al : AddressList) (s : PeerList) : PeerList × ℕ :=
  let (l, inserted) := insertLoop s.maxSize (s.busy now) al s.available s.available 0
  ({ s with available := l }, inserted)

/-- `pop_random` with the index it draws. -/
def popRandom (i : ℕ) (s : PeerList) : PeerList :=
  match s.available.getLast? with
  | none => s
  | some last => { s with available := s.available.dropLast.set i last }

def setPeers (k : SocketKey) (l : List PeerInfo) (s : PeerList) : PeerList :=
  { s with peers := Function.update s.peers k l }

def makeAvailable (sa : SocketKey × ℕ) (s : PeerList) : PeerList := { s with available := insertUnique sa s.available }

def insertAddress (sa : SocketKey × ℕ) (available : Bool) (s : PeerList) : PeerList :=
  if s.peers sa.1 ≠ [] then s
  else (if available && sa.2 ≠ 0 then s.makeAvailable sa else s).setPeers sa.1 [{ listenPort := sa.2 }]

/-- `PeerList::connected`, for an address that the IP filter may not want. -/
def connected (now : ℕ) (sa : SocketKey × ℕ) (unwanted filterRecent incoming : Bool) (s : PeerList) : PeerList :=
  if unwanted then s
  else s.setPeers sa.1 (match s.peers sa.1 with
    | [] => [accept {}]
    | p :: ps => if p.connected then p :: (ps ++ [accept {}]) else accept p :: ps)
where
  accept (p : PeerInfo) : PeerInfo :=
    if filterRecent && p.isRecent now then p
    else { p with
      connected := true, lastHandshake := now % 2 ^ 32, listenPort := if incoming then p.listenPort else sa.2 }

/-- `PeerList::disconnected` for the entry `i` of a key, after `set_connection(NULL)`. The port of the address is reset
before it is made available. -/
def disconnected (k : SocketKey) (i : ℕ) (available : Bool) (s : PeerList) : PeerList :=
  match (s.peers k)[i]? with
  | none => s
  | some p =>
    (if available && p.listenPort ≠ 0 then s.makeAvailable (k, 0) else s).setPeers k
      ((s.peers k).set i { p with connected := false, connection := false })

/-- `attach` is `ConnectionList::insert`, and `cull_peers` drops entries that are not connected. -/
inductive Event
  | insert (now : ℕ) (al : AddressList)
  | pop (i : ℕ)
  | insertAddress (sa : SocketKey × ℕ) (available : Bool)
  | connected (now : ℕ) (sa : SocketKey × ℕ) (unwanted filterRecent incoming : Bool)
  | attach (k : SocketKey) (i : ℕ)
  | disconnected (k : SocketKey) (i : ℕ) (available : Bool)
  | cull (old : PeerInfo → Bool)

/-- An address is made available past `insert_available`, whatever the maximum is. -/
def Event.adds : Event → Bool
  | .insertAddress _ available | .disconnected _ _ available => available
  | _ => false

def step (s : PeerList) : Event → PeerList
  | .insert now al => (s.insertAvailable now al).1
  | .pop i => s.popRandom i
  | .insertAddress sa available => s.insertAddress sa available
  | .connected now sa unwanted filterRecent incoming => s.connected now sa unwanted filterRecent incoming
  | .attach k i => s.setPeers k ((s.peers k).modify i fun p ↦ { p with connection := true })
  | .disconnected k i available => s.disconnected k i available
  | .cull old => { s with peers := fun k ↦ (s.peers k).filter fun p ↦ p.connected || !old p }

/-- No address is available twice, and at most `extra` past the maximum. -/
structure Sound (extra : ℕ) (s : PeerList) : Prop where
  nodup : s.available.Nodup
  le : s.available.length ≤ s.maxSize + extra

/-- A peer with the address is connected, or was handshaking in the last ten minutes. -/
def Known (now : ℕ) (s : PeerList) (k : SocketKey) : Prop :=
  ∃ p ∈ s.peers k, p.connected = true ∨ p.connection = true ∨ now % 2 ^ 32 < p.lastHandshake + 600

/-- New addresses are added, each once, and those that are added are counted. -/
def Inserts (now : ℕ) (al : AddressList) (s : PeerList) (r : PeerList × ℕ) : Prop :=
  r.1.Sound 0 ∧ ∃ added, r.1.available = s.available ++ added ∧ r.2 = added.length ∧
    ∀ sa ∈ added, (some sa.1, sa.2) ∈ al ∧ sa.2 ≠ 0 ∧ ¬ s.Known now sa.1

/-- The addresses that are not skipped. -/
def wanted (busy : SocketKey → Bool) (al : AddressList) : List (SocketKey × ℕ) :=
  al.filterMap fun (k, port) ↦ k.bind fun k ↦ if port = 0 ∨ busy k then none else some (k, port)

/-- The wanted addresses that there is room for. -/
def fresh (now : ℕ) (al : AddressList) (s : PeerList) : List (SocketKey × ℕ) :=
  (wanted (s.busy now) al).take (s.maxSize - s.available.length)

variable {l : List (SocketKey × ℕ)} {s : PeerList} {extra : ℕ}

theorem insertLoop_spec (maxSize : ℕ) (busy : SocketKey → Bool) (al : AddressList) (rest : List (SocketKey × ℕ)) (n : ℕ)
    (h : l.Nodup) : ∃ added m, insertLoop maxSize busy al rest l n = (l ++ added, n + m) ∧ (l ++ added).Nodup ∧
      added ⊆ wanted busy al ∧ added.length ≤ maxSize - l.length ∧ added.length ≤ m ∧
      (m = added.length ↔ (l ++ (wanted busy al).take (maxSize - l.length)).Nodup) ∧
      (m = added.length → added = (wanted busy al).take (maxSize - l.length)) := by
  induction al generalizing rest l n with
  | nil => exact ⟨[], 0, by simp [insertLoop], by simpa, by simp, by simp, by simp, by simpa [wanted], by simp [wanted]⟩
  | cons addr al ih =>
    obtain ⟨key, port⟩ := addr
    by_cases hfull : maxSize ≤ l.length
    · have hzero := Nat.sub_eq_zero_of_le hfull
      exact ⟨[], 0, by simp [insertLoop, hfull], by simpa, by simp, by simp, by simp, by simpa [hzero], by simp [hzero]⟩
    obtain ⟨room, hroom⟩ := Nat.exists_eq_add_of_lt (Nat.not_le.mp hfull)
    cases key with
    | none =>
      rw [insertLoop, if_neg hfull]
      exact ih rest n h
    | some k =>
      -- The search ends at an address below the new one, so the test behind it finds nothing.
      have hhead : ((rest.dropWhile fun sa ↦ !sa.1.lessAddr k).head?.any fun sa ↦ !sa.1.lessAddr k) = false := by
        have hnot := head?_dropWhile_not (fun sa : SocketKey × ℕ ↦ !sa.1.lessAddr k) rest
        cases hd : (rest.dropWhile fun sa ↦ !sa.1.lessAddr k).head? with
        | none => rfl
        | some sa => simpa [hd] using hnot
      have hwanted : wanted busy ((some k, port) :: al) =
          if port = 0 ∨ busy k then wanted busy al else (k, port) :: wanted busy al := by
        split_ifs with hskip <;> simp [hskip, wanted]
      rw [insertLoop, if_neg hfull, hwanted]
      simp only [hhead, Bool.false_or]
      generalize (rest.dropWhile fun sa ↦ !sa.1.lessAddr k) = rest'
      by_cases hport : port = 0
      · simpa only [hport, true_or, if_true] using ih rest n h
      by_cases hbusy : busy k = true
      · simpa only [hport, hbusy, false_or, if_true, if_false] using ih rest' n h
      simp only [hport, hbusy, Bool.false_eq_true, or_self, if_false, insertUnique]
      by_cases hmem : (k, port) ∈ l
      · obtain ⟨added, m, hloop, hnodup, hsub, hlen, hle, -⟩ := ih rest' (n + 1) h
        rw [if_pos hmem, hloop]
        refine ⟨added, 1 + m, by rw [Nat.add_assoc], hnodup, fun x hx ↦ mem_cons_of_mem _ (hsub hx), hlen, by omega, ?_,
          fun hm ↦ by omega⟩
        refine iff_of_false (by omega) fun hno ↦ ?_
        rw [show maxSize - l.length = room + 1 by omega, take_succ_cons] at hno
        exact (nodup_append.mp hno).2.2 _ hmem _ mem_cons_self rfl
      obtain ⟨added, m, hloop, hnodup, hsub, hlen, hle, hiff, hall⟩ :=
        ih rest' (n + 1) (concat_eq_append ▸ h.concat hmem)
      simp only [length_append, length_singleton, append_assoc, singleton_append] at hloop hnodup hlen hiff hall
      rw [show maxSize - (l.length + 1) = room by omega] at hiff hall
      rw [if_neg hmem, hloop, show maxSize - l.length = room + 1 by omega, take_succ_cons, ← hiff]
      refine ⟨(k, port) :: added, 1 + m, by rw [Nat.add_assoc], hnodup, cons_subset_cons _ hsub, ?_, ?_, ?_, fun hm ↦ ?_⟩
      on_goal 4 =>
        rw [length_cons] at hm
        rw [hall (by omega)]
      all_goals
        rw [length_cons]
        omega

theorem insertAvailable_spec (now : ℕ) (al : AddressList) (h : s.Sound extra) :
    (s.insertAvailable now al).1.Sound extra ∧ (Inserts now al s (s.insertAvailable now al) ↔
      s.available.length ≤ s.maxSize ∧ (s.available ++ s.fresh now al).Nodup ∧ ∀ sa ∈ s.fresh now al, ¬ s.Known now sa.1) := by
  obtain ⟨added, m, hloop, hnodup, hsub, hroom, -, hiff, hall⟩ :=
    insertLoop_spec s.maxSize (s.busy now) al s.available 0 h.nodup
  rw [Nat.zero_add] at hloop
  simp only [insertAvailable, hloop, fresh]
  have hsound (n : ℕ) (hn : s.available.length ≤ s.maxSize + n) : Sound n { s with available := s.available ++ added } := by
    refine ⟨hnodup, ?_⟩
    change (s.available ++ added).length ≤ s.maxSize + n
    rw [length_append]
    omega
  rw [← hiff]
  refine ⟨hsound extra h.le, ?_, ?_⟩
  · rintro ⟨⟨-, hle⟩, added', hadded, hcount, hknown⟩
    obtain rfl := append_cancel_left hadded
    refine ⟨?_, hcount, hall hcount ▸ fun sa hsa ↦ (hknown sa hsa).2.2⟩
    simp only [length_append] at hle
    omega
  rintro ⟨hle, hm, hknown⟩
  refine ⟨hsound 0 hle, added, rfl, hm, fun sa hsa ↦ ?_⟩
  obtain ⟨⟨_ | k, port⟩, hmem, hsome⟩ := mem_filterMap.mp (hsub hsa)
  · cases hsome
  simp only [Option.bind_some, Option.ite_none_left_eq_some, not_or] at hsome
  obtain ⟨hskip, heq⟩ := hsome
  cases heq
  exact ⟨hmem, hskip.1, hknown _ (hall hm ▸ hsa)⟩

theorem Sound.makeAvailable (h : s.Sound extra) (sa : SocketKey × ℕ) : (s.makeAvailable sa).Sound (extra + 1) := by
  rw [PeerList.makeAvailable, insertUnique]
  split_ifs with hmem
  · exact ⟨h.nodup, Nat.le_succ_of_le h.le⟩
  · refine ⟨concat_eq_append ▸ h.nodup.concat hmem, ?_⟩
    rw [length_append]
    exact Nat.succ_le_succ h.le

theorem Sound.setPeers (h : s.Sound extra) (k : SocketKey) (l : List PeerInfo) : (s.setPeers k l).Sound extra :=
  ⟨h.nodup, h.le⟩

theorem Sound.mono (h : s.Sound extra) (n : ℕ) : s.Sound (extra + n) := ⟨h.nodup, by have := h.le; omega⟩

theorem Sound.step (h : s.Sound extra) (e : Event) : (s.step e).Sound (extra + e.adds.toNat) := by
  cases e with
  | insert now al => exact (insertAvailable_spec now al h).1
  | pop i =>
    rw [PeerList.step, popRandom]
    split
    · exact h
    rename_i last hlast
    obtain ⟨l, hl⟩ := getLast?_eq_some_iff.mp hlast
    have hnodup := nodup_append.mp (hl ▸ h.nodup)
    have hle := h.le
    simp only [hl, dropLast_concat, length_append, length_singleton] at hle ⊢
    refine ⟨hnodup.1.set fun hmem ↦ hnodup.2.2 last hmem last mem_cons_self rfl, ?_⟩
    rw [length_set]
    exact Nat.le_of_lt hle
  | insertAddress sa available =>
    rw [PeerList.step, PeerList.insertAddress]
    split_ifs with hold hadd
    · exact h.mono _
    · obtain ⟨rfl, -⟩ := Bool.and_eq_true_iff.mp hadd
      exact (h.makeAvailable sa).setPeers _ _
    · exact (h.mono _).setPeers _ _
  | connected now sa unwanted filterRecent incoming =>
    rw [PeerList.step, PeerList.connected]
    split_ifs
    · exact h
    · exact h.setPeers _ _
  | attach k i => exact h.setPeers _ _
  | disconnected k i available =>
    rw [PeerList.step, PeerList.disconnected]
    split
    · exact h.mono _
    split_ifs with hadd
    · obtain ⟨rfl, -⟩ := Bool.and_eq_true_iff.mp hadd
      exact (h.makeAvailable _).setPeers _ _
    · exact (h.mono _).setPeers _ _
  | cull old => exact ⟨h.nodup, h.le⟩

theorem Sound.run (events : List Event) (h : s.Sound extra) :
    (events.foldl PeerList.step s).Sound (extra + events.countP Event.adds) := by
  induction events generalizing s extra with
  | nil => exact h
  | cons e events ih =>
    have hrest := ih (h.step e)
    rw [foldl_cons, countP_cons, Nat.add_comm (events.countP _), ← Nat.add_assoc]
    cases hadds : e.adds <;> simpa [hadds] using hrest

theorem sound_start (maxSize : ℕ) : Sound 0 { maxSize := maxSize } := ⟨nodup_nil, Nat.zero_le _⟩

/-- In every run no address is available twice, and there are at most as many more than the maximum as were made available
by `insert_address` and `disconnected`. -/
theorem run_available (maxSize : ℕ) (events : List Event) :
    (events.foldl step { maxSize := maxSize }).Sound (events.countP Event.adds) := by
  simpa using (sound_start maxSize).run events

/-- After any tracker lists, PEX lists and connects, a list of addresses is inserted as it should be and counted exactly if
the wanted addresses that there is room for are new, and no peer behind the first of an address is connected or recent. -/
theorem run_inserts_iff (maxSize : ℕ) (events : List Event) (now : ℕ) (al : AddressList) :
    let s := events.foldl step { maxSize := maxSize }
    ((∀ e ∈ events, e.adds = false) → s.available.length ≤ s.maxSize) ∧
    (Inserts now al s (s.insertAvailable now al) ↔ s.available.length ≤ s.maxSize ∧
      (s.available ++ s.fresh now al).Nodup ∧ ∀ sa ∈ s.fresh now al, ¬ s.Known now sa.1) := by
  intro s
  have hrun := (sound_start maxSize).run events
  refine ⟨fun hno ↦ ?_, (insertAvailable_spec now al hrun).2⟩
  have hle := hrun.le
  rwa [countP_eq_zero.mpr fun e he ↦ by simp [hno e he]] at hle

/-- A list that repeats an available address: nothing is added, and one is counted. And a second peer of an address stays
connected while the first has left long ago: the address is added. -/
theorem run_inserts_twice : ¬ Inserts 0 [(some ⟨false, 1⟩, 6881)]
      (step { maxSize := 1000 } (.insert 0 [(some ⟨false, 1⟩, 6881)]))
      (insertAvailable 0 [(some ⟨false, 1⟩, 6881)] (step { maxSize := 1000 } (.insert 0 [(some ⟨false, 1⟩, 6881)]))) ∧
    ∃ s : PeerList, s = [Event.connected 1000 (⟨false, 1⟩, 6881) false false true,
        .connected 1001 (⟨false, 1⟩, 6882) false false true, .attach ⟨false, 1⟩ 1,
        .disconnected ⟨false, 1⟩ 0 false].foldl step { maxSize := 1000 } ∧
      s.Known 2000 ⟨false, 1⟩ ∧
      (s.insertAvailable 2000 [(some ⟨false, 1⟩, 6881)]).1.available = [(⟨false, 1⟩, 6881)] := by
  refine ⟨?_, _, rfl, ⟨⟨true, true, 1001, 0⟩, by decide, .inl rfl⟩, by decide⟩
  rintro ⟨-, added, hadded, hcount, -⟩
  have hnil : added = [] := append_cancel_left (hadded.symm.trans (append_nil _).symm)
  rw [hnil] at hcount
  revert hcount
  decide

end PeerList

end LibTorrent
