import LibTorrent.Lib.ByteOrder
import LibTorrent.Lib.Outcome

namespace LibTorrent

open Lib.Decimal Lib.ByteOrder Lib.Outcome

/-- `SocketAddressCompact`: both fields as the machine reads them from memory. -/
structure SocketAddressCompact where
  addr : UInt32
  port : UInt16
  deriving DecidableEq, Repr

namespace SocketAddressCompact

def bytes (o : Endian) (p : SocketAddressCompact) : Bytes := store o 4 p.addr.toNat ++ store o 2 p.port.toNat

/-- `BencodeAddress`: the packed structure with its header. -/
def bencode (o : Endian) (p : SocketAddressCompact) : Bytes := ch '6' :: ch ':' :: p.bytes o

end SocketAddressCompact

def parseAddressBencode (o : Endian) : Bytes → List SocketAddressCompact
  | c :: c' :: a :: a' :: a'' :: a''' :: p :: p' :: s =>
    if c ≠ ch '6' || c' ≠ ch ':' then []
    else ⟨UInt32.ofNat (load o [a, a', a'', a''']), UInt16.ofNat (load o [p, p'])⟩ :: parseAddressBencode o s
  | _ => []

def ntohs (o : Endian) (p : UInt16) : UInt16 := UInt16.ofNat (load .big (store o 2 p.toNat))

structure DhtTracker where
  peers : List SocketAddressCompact
  lastSeen : List UInt32

namespace DhtTracker

def empty : DhtTracker := ⟨[], []⟩

def maxSize : ℕ := 128

/-- The loop of `add_peer` from index `i` on: the index of the address, or that of the oldest peer. -/
def seek (addr : UInt32) (lastSeen : List UInt32) : ℕ → ℕ → UInt32 → List SocketAddressCompact → ℕ ⊕ ℕ
  | _, oldest, _, [] => .inr oldest
  | i, oldest, minSeen, p :: peers =>
    if p.addr = addr then .inl i
    else if lastSeen.getD i 0 < minSeen then seek addr lastSeen (i + 1) i (lastSeen.getD i 0) peers
    else seek addr lastSeen (i + 1) oldest minSeen peers

def addPeer (now addr : UInt32) (port : UInt16) (t : DhtTracker) : DhtTracker :=
  if port = 0 then t
  else
    match seek addr t.lastSeen 0 0 (~~~ 0) t.peers with
    | .inl i => ⟨t.peers.modify i fun p ↦ { p with port := port }, t.lastSeen.set i now⟩
    | .inr oldest =>
      if t.peers.length < maxSize then ⟨t.peers ++ [⟨addr, port⟩], t.lastSeen ++ [now]⟩
      else ⟨t.peers.set oldest ⟨addr, port⟩, t.lastSeen.set oldest now⟩

/-- The loop of `prune` that clears the ports of the old peers. -/
def mark (minSeen : UInt32) : List SocketAddressCompact → List UInt32 → List SocketAddressCompact
  | p :: peers, seen :: lastSeen => (if seen < minSeen then { p with port := 0 } else p) :: mark minSeen peers lastSeen
  | peers, _ => peers

def prune (now maxAge : UInt32) (t : DhtTracker) : Except String DhtTracker :=
  let peers := (mark (now - maxAge) t.peers t.lastSeen).filter fun p ↦ p.port ≠ 0
  let lastSeen := t.lastSeen.filter fun seen ↦ ¬ seen < now - maxAge
  if peers.length ≠ lastSeen.length then .error "DhtTracker::prune did inconsistent peer pruning."
  else .ok ⟨peers, lastSeen⟩

/-- The first peer of the block that `get_peers` picks when it has more than `maxPeers`. -/
def blockStart (size maxPeers random : ℕ) : ℕ :=
  random % ((size + maxPeers - 1) / maxPeers) * (size - maxPeers) / ((size + maxPeers - 1) / maxPeers - 1)

/-- The peers whose bytes `get_peers` returns; the number of blocks is a division by `maxPeers`. -/
def getPeers (maxPeers random : ℕ) (t : DhtTracker) : Except String (List SocketAddressCompact) :=
  if maxPeers < t.peers.length then
    if maxPeers = 0 then .error "division by zero"
    else .ok ((t.peers.drop (blockStart t.peers.length maxPeers random)).take maxPeers)
  else .ok t.peers

/-- What the server sends for `get_peers`: the memory from the first peer to the last. -/
def reply (o : Endian) (peers : List SocketAddressCompact) : Bytes :=
  peers.flatMap (SocketAddressCompact.bencode o)

inductive Event
  | addPeer (now addr : UInt32) (port : UInt16)
  | prune (now maxAge : UInt32)

def step : Event → DhtTracker → Except String DhtTracker
  | .addPeer now addr port, t => .ok (t.addPeer now addr port)
  | .prune now maxAge, t => t.prune now maxAge

def run (events : List Event) : Except String DhtTracker := forEach step events empty

def lastAnnounced (addr : UInt32) : List Event → Option (UInt16 × UInt32)
  | [] => none
  | .addPeer now a port :: events =>
    (lastAnnounced addr events).or (if a = addr ∧ port ≠ 0 then some (port, now) else none)
  | .prune _ _ :: events => lastAnnounced addr events

end DhtTracker

open List

namespace DhtTracker

def entries (t : DhtTracker) : List (SocketAddressCompact × UInt32) := t.peers.zip t.lastSeen

/-- The two lists belong together, and each entry is what was announced last for its address. -/
structure Tracked (events : List Event) (t : DhtTracker) : Prop where
  length : t.peers.length = t.lastSeen.length
  size : t.peers.length ≤ maxSize
  nodup : (t.peers.map SocketAddressCompact.addr).Nodup
  port : ∀ p ∈ t.peers, p.port ≠ 0
  recorded : ∀ e ∈ t.entries, lastAnnounced e.1.addr events = some (e.1.port, e.2)

theorem seek_cases (addr : UInt32) (lastSeen : List UInt32) (i oldest : ℕ) (minSeen : UInt32)
    (peers : List SocketAddressCompact) :
    (∃ j p, seek addr lastSeen i oldest minSeen peers = .inl (i + j) ∧ peers[j]? = some p ∧ p.addr = addr) ∨
      (∃ j, seek addr lastSeen i oldest minSeen peers = .inr j) ∧ ∀ p ∈ peers, p.addr ≠ addr := by
  fun_induction seek addr lastSeen i oldest minSeen peers with
  | case1 i oldest minSeen => exact .inr ⟨⟨oldest, rfl⟩, fun p hp ↦ absurd hp not_mem_nil⟩
  | case2 i oldest minSeen p peers hp => exact .inl ⟨0, p, rfl, rfl, hp⟩
  | case3 i oldest minSeen p peers hp hlt ih | case4 i oldest minSeen p peers hp hlt ih =>
    rcases ih with ⟨j, q, hj, hq, ha⟩ | ⟨hj, ha⟩
    · exact .inl ⟨j + 1, q, by rw [hj, Nat.add_assoc, Nat.add_comm 1], hq, ha⟩
    · exact .inr ⟨hj, forall_mem_cons.mpr ⟨hp, ha⟩⟩

theorem lastAnnounced_append (addr : UInt32) (events events' : List Event) :
    lastAnnounced addr (events ++ events') = (lastAnnounced addr events').or (lastAnnounced addr events) := by
  induction events with
  | nil => rw [nil_append, lastAnnounced, Option.or_none]
  | cons e events ih =>
    cases e with
    | addPeer now a port => rw [cons_append, lastAnnounced, lastAnnounced, ih, Option.or_assoc]
    | prune now maxAge => rw [cons_append, lastAnnounced, lastAnnounced, ih]

variable {t : DhtTracker} {events : List Event}

theorem Tracked.announce {t' : DhtTracker} (h : Tracked events t) {now addr : UInt32}
    {port : UInt16} (hport : port ≠ 0) (hlength : t'.peers.length = t'.lastSeen.length)
    (hsize : t'.peers.length ≤ maxSize) (hnodup : (t'.peers.map SocketAddressCompact.addr).Nodup)
    (hentries : ∀ (i : ℕ) (p : SocketAddressCompact) (seen : UInt32), t'.peers[i]? = some p → t'.lastSeen[i]? = some seen →
      p = ⟨addr, port⟩ ∧ seen = now ∨ t.peers[i]? = some p ∧ t.lastSeen[i]? = some seen ∧ p.addr ≠ addr) :
    Tracked (events ++ [.addPeer now addr port]) t' := by
  refine ⟨hlength, hsize, hnodup, fun p hp ↦ ?_, fun e he ↦ ?_⟩
  · obtain ⟨i, hi, rfl⟩ := mem_iff_getElem.mp hp
    rcases hentries i _ _ (getElem?_eq_getElem hi) (getElem?_eq_getElem (hlength ▸ hi)) with
      ⟨heq, -⟩ | ⟨hold, -, -⟩
    · rw [heq]
      exact hport
    · exact h.port _ (mem_of_getElem? hold)
  obtain ⟨i, hi⟩ := mem_iff_getElem?.mp he
  obtain ⟨hp, hseen⟩ := getElem?_zip_eq_some.mp hi
  rw [lastAnnounced_append]
  rcases hentries i _ _ hp hseen with ⟨heq, hnow⟩ | ⟨hold, holdSeen, hne⟩
  · rw [heq, hnow]
    simp [lastAnnounced, hport]
  have hmem : e ∈ t.entries := mem_iff_getElem?.mpr ⟨i, getElem?_zip_eq_some.mpr ⟨hold, holdSeen⟩⟩
  rw [h.recorded e hmem]
  simp [lastAnnounced, Ne.symm hne]

theorem Tracked.addPeer (h : Tracked events t) (now addr : UInt32)
    (port : UInt16) : Tracked (events ++ [.addPeer now addr port]) (t.addPeer now addr port) := by
  by_cases hport : port = 0
  · rw [DhtTracker.addPeer, if_pos hport]
    refine { h with recorded := fun e he ↦ ?_ }
    rw [lastAnnounced_append, h.recorded e he]
    simp [lastAnnounced, hport]
  rw [DhtTracker.addPeer, if_neg hport]
  rcases seek_cases addr t.lastSeen 0 0 (~~~ 0) t.peers with ⟨j, q, hj, hq, rfl⟩ | ⟨⟨oldest, hj⟩, hnew⟩
  · rw [hj, Nat.zero_add]
    have haddr : (t.peers.modify j fun p ↦ { p with port := port }).map SocketAddressCompact.addr =
        t.peers.map SocketAddressCompact.addr := by
      apply ext_getElem?
      intro i
      rw [getElem?_map, getElem?_map, getElem?_modify]
      split_ifs <;> cases t.peers[i]? <;> rfl
    refine h.announce hport (by simp [h.length]) (by simpa using h.size) (by simpa only [haddr] using h.nodup) ?_
    intro i p seen hp hseen
    simp only [getElem?_modify, getElem?_set] at hp hseen
    by_cases hij : j = i
    · subst hij
      left
      rw [hq] at hp
      have hlt : j < t.lastSeen.length := h.length ▸ (List.getElem?_eq_some_iff.mp hq).1
      simp only [if_true, hlt, Option.map_eq_map, Option.map_some, Option.some.injEq] at hp hseen
      exact ⟨hp.symm, hseen.symm⟩
    right
    simp only [hij, if_false, id_map'] at hp hseen
    refine ⟨hp, hseen, fun he ↦ hij ?_⟩
    have hi : (t.peers.map SocketAddressCompact.addr)[i]? = some q.addr := by simp [hp, he]
    have hj' : (t.peers.map SocketAddressCompact.addr)[j]? = some q.addr := by simp [hq]
    exact (List.getElem?_inj (List.getElem?_eq_some_iff.mp hj').1 h.nodup).mp (hj'.trans hi.symm)
  · rw [hj]
    have hfresh : addr ∉ t.peers.map SocketAddressCompact.addr := by
      simpa [mem_map] using hnew
    split_ifs with hroom
    · refine h.announce hport (by simp [h.length]) (by simpa using hroom) ?_ ?_
      · rw [map_append]
        exact h.nodup.append (nodup_singleton addr) (by simpa using hnew)
      intro i p seen hp hseen
      by_cases hi : i < t.peers.length
      · rw [getElem?_append_left hi] at hp
        rw [getElem?_append_left (h.length ▸ hi)] at hseen
        exact .inr ⟨hp, hseen, hnew p (mem_of_getElem? hp)⟩
      rw [getElem?_append_right (not_lt.mp hi)] at hp
      rw [getElem?_append_right (h.length ▸ not_lt.mp hi)] at hseen
      exact .inl ⟨mem_singleton.mp (mem_of_getElem? hp), mem_singleton.mp (mem_of_getElem? hseen)⟩
    · refine h.announce hport (by simp [h.length]) (by simpa using h.size) ?_ ?_
      · rw [map_set]
        exact h.nodup.set hfresh
      intro i p seen hp hseen
      rw [getElem?_set] at hp hseen
      by_cases hi : oldest = i
      · split_ifs at hp hseen
        exact .inl ⟨(Option.some.inj hp).symm, (Option.some.inj hseen).symm⟩
      · rw [if_neg hi] at hp hseen
        exact .inr ⟨hp, hseen, hnew p (mem_of_getElem? hp)⟩

theorem mark_filter (minSeen : UInt32) {peers : List SocketAddressCompact} {lastSeen : List UInt32}
    (hlength : peers.length = lastSeen.length) (hport : ∀ p ∈ peers, p.port ≠ 0) :
    (mark minSeen peers lastSeen).filter (fun p ↦ p.port ≠ 0) =
        ((peers.zip lastSeen).filter fun e ↦ ¬ e.2 < minSeen).map Prod.fst ∧
      lastSeen.filter (fun seen ↦ ¬ seen < minSeen) =
        ((peers.zip lastSeen).filter fun e ↦ ¬ e.2 < minSeen).map Prod.snd := by
  induction peers generalizing lastSeen with
  | nil =>
    cases lastSeen with
    | nil => exact ⟨rfl, rfl⟩
    | cons seen lastSeen => simp at hlength
  | cons p peers ih =>
    cases lastSeen with
    | nil => simp at hlength
    | cons seen lastSeen =>
      obtain ⟨hp, hport⟩ := forall_mem_cons.mp hport
      obtain ⟨ih₁, ih₂⟩ := ih (Nat.succ.inj hlength) hport
      rw [mark, zip_cons_cons]
      by_cases hold : seen < minSeen
      · rw [if_pos hold, filter_cons_of_neg (by simp), filter_cons_of_neg (by simpa using hold),
          filter_cons_of_neg (by simpa using hold)]
        exact ⟨ih₁, ih₂⟩
      rw [if_neg hold, filter_cons_of_pos (by simpa using hp), filter_cons_of_pos (by simpa using hold),
        filter_cons_of_pos (by simpa using hold), ih₁, ih₂]
      exact ⟨rfl, rfl⟩

theorem prune_eq (hlength : t.peers.length = t.lastSeen.length) (hport : ∀ p ∈ t.peers, p.port ≠ 0)
    (now maxAge : UInt32) :
    t.prune now maxAge = .ok ⟨(t.entries.filter fun e ↦ ¬ e.2 < now - maxAge).map Prod.fst,
      (t.entries.filter fun e ↦ ¬ e.2 < now - maxAge).map Prod.snd⟩ := by
  obtain ⟨hpeers, hseen⟩ := mark_filter (now - maxAge) hlength hport
  simp only [prune, hpeers, hseen, length_map, ne_eq, not_true_eq_false, if_false]
  rfl

theorem Tracked.sublist (h : Tracked events t)
    {kept : List (SocketAddressCompact × UInt32)} (hkept : kept.Sublist t.entries) :
    Tracked events ⟨kept.map Prod.fst, kept.map Prod.snd⟩ := by
  have hpeers : (kept.map Prod.fst).Sublist t.peers := by
    have hmap := hkept.map Prod.fst
    rwa [entries, map_fst_zip h.length.le] at hmap
  refine ⟨by simp, hpeers.length_le.trans h.size, h.nodup.sublist (hpeers.map _),
    fun p hp ↦ h.port p (hpeers.subset hp), fun e he ↦ h.recorded e (hkept.subset ?_)⟩
  rwa [entries, ← zip_of_prod rfl rfl] at he

theorem Tracked.step (h : Tracked events t) (e : Event) :
    ∃ t', t.step e = .ok t' ∧ Tracked (events ++ [e]) t' := by
  cases e with
  | addPeer now addr port => exact ⟨_, rfl, h.addPeer now addr port⟩
  | prune now maxAge =>
    have hpruned := h.sublist (filter_sublist (p := fun e ↦ ¬ e.2 < now - maxAge))
    refine ⟨_, prune_eq h.length h.port now maxAge, { hpruned with recorded := fun e he ↦ ?_ }⟩
    rw [lastAnnounced_append]
    exact hpruned.recorded e he

theorem run_tracked (events : List Event) : ∃ t, run events = .ok t ∧ Tracked events t := by
  induction events using reverseRecOn with
  | nil =>
    exact ⟨empty, rfl, rfl, Nat.zero_le _, nodup_nil, fun p hp ↦ absurd hp not_mem_nil,
      fun e he ↦ absurd he not_mem_nil⟩
  | append_singleton events e ih =>
    obtain ⟨t, ht, h⟩ := ih
    obtain ⟨t', ht', h'⟩ := h.step e
    refine ⟨t', ?_, h'⟩
    rw [run, forEach_append]
    rw [run] at ht
    rw [ht, ok_bind, forEach, ht']
    rfl

end DhtTracker

open List SocketAddressCompact

def NetworkOrder (o : Endian) (port : UInt16) : Prop := o = .big ∨ port.toNat % 256 = port.toNat / 256

theorem store_two_eq (o : Endian) (port : UInt16) :
    store o 2 port.toNat = store .big 2 port.toNat ↔ NetworkOrder o port := by
  cases o with
  | big => simp [NetworkOrder]
  | little =>
    have hlt : port.toNat < 65536 := port.toNat_lt
    simp only [store, digits, reverse_cons, reverse_nil, nil_append, singleton_append,
      cons.injEq, and_true, NetworkOrder, reduceCtorEq, false_or, ← UInt8.toNat_inj, UInt8.toNat_ofNat']
    omega

theorem ntohs_eq (o : Endian) (port : UInt16) : ntohs o port = port ↔ NetworkOrder o port := by
  rw [← store_two_eq, ntohs]
  have hport : port.toNat < 256 ^ 2 := port.toNat_lt
  constructor
  · intro h
    have hload : load .big (store o 2 port.toNat) = port.toNat := by
      have hlt : load .big (store o 2 port.toNat) < 2 ^ 16 := by
        cases o with
        | big => rwa [load_store .big hport]
        | little =>
          simp only [store, digits, load, reverse_cons, reverse_nil, nil_append, singleton_append, number]
          have h₀ := (UInt8.ofNat port.toNat).toNat_lt
          have h₁ := (UInt8.ofNat (port.toNat / 256)).toNat_lt
          omega
      rw [← UInt16.toNat_inj, UInt16.toNat_ofNat', Nat.mod_eq_of_lt hlt] at h
      exact h
    cases o with
    | big => rfl
    | little =>
      simp only [store, digits, load, reverse_cons, reverse_nil, nil_append,
        singleton_append, number, UInt8.toNat_ofNat', cons.injEq, and_true, ← UInt8.toNat_inj] at hload ⊢
      omega
  · intro h
    rw [h, load_store .big hport, UInt16.ofNat_toNat]

theorem store_four (o : Endian) (n : ℕ) : ∃ a b c d, store o 4 n = [a, b, c, d] := by
  cases o with
  | little | big => exact ⟨_, _, _, _, rfl⟩

theorem store_two (o : Endian) (n : ℕ) : ∃ a b, store o 2 n = [a, b] := by
  cases o with
  | little | big => exact ⟨_, _, rfl⟩

namespace DhtTracker

theorem parseAddressBencode_reply (o : Endian) (peers : List SocketAddressCompact) :
    parseAddressBencode o (reply o peers) = peers := by
  induction peers with
  | nil => rfl
  | cons p peers ih =>
    obtain ⟨a, b, c, d, haddr⟩ := store_four o p.addr.toNat
    obtain ⟨e, f, hport⟩ := store_two o p.port.toNat
    have haddr' : UInt32.ofNat (load o [a, b, c, d]) = p.addr := by
      rw [← haddr, load_store o p.addr.toNat_lt, UInt32.ofNat_toNat]
    have hport' : UInt16.ofNat (load o [e, f]) = p.port := by
      rw [← hport, load_store o p.port.toNat_lt, UInt16.ofNat_toNat]
    have hcons : reply o (p :: peers) = ch '6' :: ch ':' :: a :: b :: c :: d :: e :: f :: reply o peers := by
      simp [reply, bencode, bytes, haddr, hport]
    rw [hcons, parseAddressBencode, if_neg (by simp), haddr', hport', ih]

variable {maxPeers : ℕ} {t : DhtTracker} {maxAge now : UInt32}

theorem exists_blockStart {size i : ℕ} (hmax : 0 < maxPeers) (hsize : maxPeers < size) (hi : i < size) :
    ∃ random < size, blockStart size maxPeers random ≤ i ∧ i < blockStart size maxPeers random + maxPeers := by
  generalize hblocks : (size + maxPeers - 1) / maxPeers = blocks
  have hle : size ≤ blocks * maxPeers := by
    have h := Nat.lt_div_mul_add (a := size + maxPeers - 1) hmax
    rw [hblocks] at h
    omega
  have htwo : 2 ≤ blocks := by
    rw [← hblocks, Nat.le_div_iff_mul_le hmax]
    omega
  have hblocks_le : blocks ≤ size := by
    rw [← hblocks]
    refine Nat.div_le_of_le_mul (Nat.sub_le_of_le_add ?_)
    obtain ⟨m, rfl⟩ := Nat.exists_eq_add_of_lt hmax
    obtain ⟨s, rfl⟩ := Nat.exists_eq_add_of_lt (hmax.trans hsize)
    nlinarith [Nat.zero_le (m * s)]
  obtain ⟨gaps, rfl⟩ : ∃ gaps, blocks = gaps + 1 := ⟨blocks - 1, by omega⟩
  have hgaps : 0 < gaps := by omega
  have hstart : ∀ r, r ≤ gaps → blockStart size maxPeers r = r * (size - maxPeers) / gaps := by
    intro r hr
    rw [blockStart, hblocks, Nat.mod_eq_of_lt (Nat.lt_succ_of_le hr), Nat.add_sub_cancel]
  have hspread : size - maxPeers ≤ maxPeers * gaps := by
    rw [Nat.add_mul, one_mul, Nat.mul_comm] at hle
    omega
  -- The first block that reaches past `i`: the one before it ends at `i` or below.
  have hreach : ∃ r, r ≤ gaps ∧ i < blockStart size maxPeers r + maxPeers := by
    refine ⟨gaps, le_rfl, ?_⟩
    rw [hstart gaps le_rfl, Nat.mul_div_cancel_left _ hgaps]
    omega
  obtain ⟨hr, hlt⟩ := Nat.find_spec hreach
  refine ⟨Nat.find hreach, by omega, ?_, hlt⟩
  cases hfind : Nat.find hreach with
  | zero => simp [blockStart]
  | succ r =>
    have hbefore := Nat.find_min hreach (m := r) (by omega)
    rw [hfind] at hr
    rw [hstart r (by omega)] at hbefore
    rw [hstart (r + 1) hr, Nat.add_mul, one_mul]
    have hstep : (r * (size - maxPeers) + (size - maxPeers)) / gaps ≤ r * (size - maxPeers) / gaps + maxPeers := by
      rw [← Nat.add_mul_div_right _ _ hgaps]
      exact Nat.div_le_div_right (Nat.add_le_add_left hspread _)
    omega

theorem getPeers_slice (t : DhtTracker) (maxPeers random : ℕ) (h : 0 < maxPeers ∨ t.peers = []) :
    ∃ first count, first + count ≤ t.peers.length ∧ count ≤ maxPeers ∧
      t.getPeers maxPeers random = .ok ((t.peers.drop first).take count) := by
  rw [getPeers]
  split_ifs with hlt hzero
  · rcases h with h | h
    · omega
    · simp [h] at hlt
  · refine ⟨blockStart t.peers.length maxPeers random, maxPeers, ?_, le_rfl, rfl⟩
    have hblocks : 2 ≤ (t.peers.length + maxPeers - 1) / maxPeers := by
      rw [Nat.le_div_iff_mul_le (Nat.pos_of_ne_zero hzero)]
      omega
    rw [blockStart]
    generalize (t.peers.length + maxPeers - 1) / maxPeers = blocks at hblocks ⊢
    have hmod : random % blocks ≤ blocks - 1 := Nat.le_sub_one_of_lt (Nat.mod_lt _ (by omega))
    have hstart : random % blocks * (t.peers.length - maxPeers) / (blocks - 1) ≤ t.peers.length - maxPeers :=
      Nat.div_le_of_le_mul (Nat.mul_le_mul_right _ hmod)
    omega
  · exact ⟨0, t.peers.length, by omega, by omega, by simp⟩

theorem exists_getPeers (hmax : 0 < maxPeers) {p : SocketAddressCompact} (hp : p ∈ t.peers) :
    ∃ random ≤ t.peers.length, ∃ peers, t.getPeers maxPeers random = .ok peers ∧ p ∈ peers := by
  by_cases hlt : maxPeers < t.peers.length
  · obtain ⟨i, hi, rfl⟩ := mem_iff_getElem.mp hp
    obtain ⟨random, hrandom, hle, hend⟩ := exists_blockStart hmax hlt hi
    refine ⟨random, hrandom.le, _, by rw [getPeers, if_pos hlt, if_neg hmax.ne'], ?_⟩
    refine mem_iff_getElem?.mpr ⟨i - blockStart t.peers.length maxPeers random, ?_⟩
    rw [getElem?_take_of_lt (by omega), getElem?_drop, Nat.add_sub_cancel' hle, getElem?_eq_getElem hi]
  · exact ⟨0, Nat.zero_le _, t.peers, by rw [getPeers, if_neg hlt], hp⟩

def Older (now maxAge seen : UInt32) : Prop := seen.toNat + maxAge.toNat < now.toNat

instance (now maxAge seen : UInt32) : Decidable (Older now maxAge seen) := inferInstanceAs (Decidable (_ < _))

theorem lt_minSeen_iff (h : maxAge ≤ now) (seen : UInt32) : seen < now - maxAge ↔ Older now maxAge seen := by
  rw [UInt32.lt_iff_toNat_lt, UInt32.toNat_sub_of_le _ _ h, Older]
  omega

theorem lt_minSeen_wrapped (h : ¬ maxAge ≤ now) (seen : UInt32) :
    seen < now - maxAge ↔ seen.toNat + maxAge.toNat < now.toNat + 2 ^ 32 := by
  have hlt := UInt32.le_iff_toNat_le.not.mp h
  have hmax := maxAge.toNat_lt
  rw [UInt32.lt_iff_toNat_lt, UInt32.toNat_sub]
  omega

theorem filter_eq_filter_iff {α : Type} {p q : α → Bool} {l : List α} :
    l.filter p = l.filter q ↔ ∀ a ∈ l, p a = q a := by
  refine ⟨fun h a ha ↦ Bool.eq_iff_iff.mpr ?_, filter_congr⟩
  have hiff : a ∈ l.filter p ↔ a ∈ l.filter q := by rw [h]
  simpa [ha] using hiff

theorem prune_exact {events : List Event} (h : Tracked events t) (now maxAge : UInt32) :
    ∃ t', t.prune now maxAge = .ok t' ∧ (t'.entries = t.entries.filter (fun e ↦ ¬ Older now maxAge e.2) ↔
      maxAge ≤ now ∨ ∀ seen ∈ t.lastSeen, now.toNat + 2 ^ 32 ≤ seen.toNat + maxAge.toNat) := by
  refine ⟨_, prune_eq h.length h.port now maxAge, ?_⟩
  rw [entries, ← zip_of_prod rfl rfl, filter_eq_filter_iff]
  by_cases hle : maxAge ≤ now
  · simp [hle, lt_minSeen_iff hle]
  have hno : ∀ seen, ¬ Older now maxAge seen := fun seen ↦ by
    have hlt := UInt32.le_iff_toNat_le.not.mp hle
    rw [Older]
    omega
  simp only [hle, false_or, hno, not_false_eq_true, decide_true, decide_eq_true_eq, lt_minSeen_wrapped hle, not_lt]
  rw [← map_snd_zip h.length.ge, forall_mem_map]
  rfl

theorem run_replies (o : Endian) (events : List Event) :
    ∃ t, run events = .ok t ∧ t.peers.length = t.lastSeen.length ∧ t.peers.length ≤ 128 ∧
      (∀ e ∈ t.entries, lastAnnounced e.1.addr events = some (e.1.port, e.2)) ∧
      (t.peers.map addr).Nodup ∧
      (∀ now maxAge, ∃ t', t.prune now maxAge = .ok t' ∧
        (t'.entries = t.entries.filter (fun e ↦ ¬ Older now maxAge e.2) ↔
          maxAge ≤ now ∨ ∀ seen ∈ t.lastSeen, now.toNat + 2 ^ 32 ≤ seen.toNat + maxAge.toNat)) ∧
      (∀ maxPeers random, (∃ first count, first + count ≤ t.peers.length ∧ count ≤ maxPeers ∧
        t.getPeers maxPeers random = .ok ((t.peers.drop first).take count)) ↔ 0 < maxPeers ∨ t.peers = []) ∧
      (∀ maxPeers, 0 < maxPeers → ∀ p ∈ t.peers, ∃ random ≤ t.peers.length, ∃ peers,
        t.getPeers maxPeers random = .ok peers ∧ p ∈ peers) ∧
      (∀ peers, parseAddressBencode o (reply o peers) = peers) ∧
      ∀ p ∈ t.peers, (p.bytes o = store o 4 p.addr.toNat ++ store .big 2 p.port.toNat ↔ NetworkOrder o p.port) ∧
        (ntohs o p.port = p.port ↔ NetworkOrder o p.port) := by
  obtain ⟨t, ht, h⟩ := run_tracked events
  refine ⟨t, ht, h.length, h.size, h.recorded, h.nodup, prune_exact h, fun maxPeers random ↦ ⟨?_, ?_⟩,
    fun maxPeers hmax p hp ↦ exists_getPeers hmax hp, parseAddressBencode_reply o, fun p hp ↦ ⟨?_, ntohs_eq o p.port⟩⟩
  · rintro ⟨first, count, -, -, hget⟩
    by_contra hno
    obtain ⟨hzero, hne⟩ := not_or.mp hno
    obtain rfl : maxPeers = 0 := Nat.eq_zero_of_not_pos hzero
    rw [getPeers, if_pos (length_pos_iff.mpr hne), if_pos rfl] at hget
    cases hget
  · exact getPeers_slice t maxPeers random
  · rw [bytes, append_cancel_left_eq, store_two_eq]

/-- Port 6881 announced to a little-endian machine comes back as port 57626. -/
theorem run_replies_swapped : ∃ t p, run [.addPeer 1000 16777343 6881] = .ok t ∧ t.getPeers 32 0 = .ok [p] ∧
      lastAnnounced p.addr [.addPeer 1000 16777343 6881] = some (6881, 1000) ∧
      parseAddressBencode .little (reply .little [p]) = [p] ∧ ntohs .little p.port = 57626 :=
  ⟨⟨[⟨16777343, 6881⟩], [1000]⟩, ⟨16777343, 6881⟩, rfl, rfl, rfl, parseAddressBencode_reply _ _, by decide⟩

end DhtTracker

end LibTorrent
