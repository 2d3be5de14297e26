import LibTorrent.Lib.SortedList
import LibTorrent.Peer.Connection
import LibTorrent.Dht.Tracker
import LibTorrent.Object.RoundTrip

namespace LibTorrent

open Lib.ByteOrder Lib.Decimal Lib.SortedList SocketAddressCompact

namespace SocketAddressCompact

def less (a b : SocketAddressCompact) : Bool := a.addr < b.addr || (a.addr == b.addr && a.port < b.port)

def text (o : Endian) (l : List SocketAddressCompact) : Bytes := l.flatMap (bytes o)

end SocketAddressCompact

/-- `htons`: the bytes of the number, most significant first, as the machine reads them. -/
def htons (o : Endian) (p : UInt16) : UInt16 := UInt16.ofNat (load o (store .big 2 p.toNat))

def parseAddressCompact (o : Endian) : Bytes → List SocketAddressCompact
  | a :: a' :: a'' :: a''' :: p :: p' :: s =>
    ⟨UInt32.ofNat (load o [a, a', a'', a''']), UInt16.ofNat (load o [p, p'])⟩ :: parseAddressCompact o s
  | _ => []

def generateUtPexMessage (o : Endian) (added removed : List SocketAddressCompact) : Except String Bytes :=
  if added = [] ∧ removed = [] then .ok []
  else
    let message := ascii "d5:added" ++ decimal (added.length * 6) ++ ch ':' :: text o added ++
      ascii "7:dropped" ++ decimal (removed.length * 6) ++ ch ':' :: text o removed ++ [ch 'e']
    if 32 + added.length * 6 + removed.length * 6 < message.length then
      .error "ProtocolExtension::ut_pex_message wrote beyond buffer."
    else .ok message

/-- What the exchange reads of a connection: the address if it is of the family `AF_INET`, and its extensions. -/
structure PexPeer where
  inet : Option UInt32
  listenPort : UInt16
  isDefault : Bool
  remoteSupported : Bool
  localEnabled : Bool
  sendPexMask : PexMask

structure PexInfo where
  isPexActive : Bool
  sizePex : UInt32
  maxSizePex : UInt32

namespace PexPeer

def setPeerExchange (state : Bool) (p : PexPeer) (i : PexInfo) : PexPeer × PexInfo :=
  if p.isDefault || !p.remoteSupported then (p, i)
  else if state then
    ({ p with sendPexMask := { p.sendPexMask with enable := true, disable := false }, localEnabled := true },
      if p.localEnabled then i else { i with sizePex := i.sizePex + 1 })
  else
    ({ p with sendPexMask := { p.sendPexMask with enable := false, disable := true }, localEnabled := false },
      if p.localEnabled then { i with sizePex := i.sizePex - 1 } else i)

def doPeerExchange (p : PexPeer) : PexPeer := { p with sendPexMask := { p.sendPexMask with send := true } }

def address (o : Endian) (p : PexPeer) : Option SocketAddressCompact :=
  if p.listenPort ≠ 0 then p.inet.map fun addr ↦ ⟨addr, htons o p.listenPort⟩ else none

end PexPeer

inductive TogglePex
  | none
  | enable
  | disable

/-- The end of the loop over the connections: what is set in one of them, and whether the toggle goes on. -/
def exchangePeer (p : PexPeer) (toggle : TogglePex) (i : PexInfo) : PexPeer × TogglePex × PexInfo :=
  if !p.remoteSupported then (p, toggle, i)
  else
    match toggle with
    | .enable =>
      let (p, i) := p.setPeerExchange true i
      (p.doPeerExchange, if i.maxSizePex ≤ i.sizePex then .none else .enable, i)
    | .none => if !p.localEnabled then (p, .none, i) else (p.doPeerExchange, .none, i)
    | .disable =>
      if !p.localEnabled then (p, .disable, i)
      else
        let (p, i) := p.setPeerExchange false i
        (p, .disable, i)

def exchangePeers : List PexPeer → TogglePex → PexInfo → List PexPeer × PexInfo
  | [], _, i => ([], i)
  | p :: peers, toggle, i =>
    let (p, toggle, i) := exchangePeer p toggle i
    let (peers, i) := exchangePeers peers toggle i
    (p :: peers, i)

structure PexRound where
  isActive : Bool
  info : PexInfo
  minSize : ℕ
  availableSize : ℕ
  availableMaxSize : ℕ
  connections : List PexPeer

namespace PexRound

def addresses (o : Endian) (r : PexRound) : List SocketAddressCompact := r.connections.filterMap (PexPeer.address o)

def toggle (r : PexRound) : TogglePex × PexInfo :=
  if !r.info.isPexActive ∧ r.connections.length < r.minSize / 2 ∧ r.availableSize < r.availableMaxSize / 4 then
    (if r.info.sizePex < r.info.maxSizePex then .enable else .none, { r.info with isPexActive := true })
  else if r.info.isPexActive ∧ r.minSize ≤ r.connections.length then (.disable, { r.info with isPexActive := false })
  else (.none, r.info)

end PexRound

structure PexState where
  list : List SocketAddressCompact
  delta : Bytes
  initial : Bytes
  deriving DecidableEq

namespace PexState

def fresh : PexState := ⟨[], [], []⟩

def maxSizePexList : ℕ := 200

/-- The new list with what is added to the old one and what is removed from it. When there are too many addresses the last
of the added ones are dropped. The difference with the removed ones is written over the list it is taken of. -/
def updateList (current list : List SocketAddressCompact) :
    Except String (List SocketAddressCompact × List SocketAddressCompact × List SocketAddressCompact) :=
  let added := setDifference less current list
  let removed := setDifference less list current
  if maxSizePexList < current.length then
    if added.length < current.length - maxSizePexList then
      .error "DownloadMain::do_peer_exchange() added.size() < current.size() - m_info->max_size_pex_list()."
    else
      let added := added.take (added.length - (current.length - maxSizePexList))
      .ok (sort less (setDifference less list removed ++ added), added, removed)
  else .ok (current, added, removed)

/-- `DownloadMain::do_peer_exchange`. A connection that still sends one of the old messages gets a copy of it. -/
def doPeerExchange (o : Endian) (r : PexRound) (s : PexState) : Except String (List PexPeer × PexInfo × PexState) :=
  if !r.isActive then .error "DownloadMain::do_peer_exchange called on inactive download."
  else do
    let (toggle, info) := r.toggle
    let (connections, info) := exchangePeers r.connections toggle info
    let (list, added, removed) ← updateList (sort less (r.addresses o)) s.list
    if added ≠ [] ∨ list ≠ [] then do
      let delta ← generateUtPexMessage o added removed
      let initial ← generateUtPexMessage o list []
      .ok (connections, info, ⟨list, delta, initial⟩)
    else .ok (connections, info, ⟨list, [], s.initial⟩)

def exchanges (o : Endian) : List PexRound → PexState → Except String (List PexState)
  | [], _ => .ok []
  | r :: rounds, s => do
    let (_, _, s) ← s.doPeerExchange o r
    let states ← exchanges o rounds s
    .ok (s :: states)

end PexState

def readUtPexMessage (o : Endian) (s : Bytes) : Option (List SocketAddressCompact × List SocketAddressCompact) :=
  match objectReadBencodeC s 0 with
  | some ((.map _ m, false), []) =>
    match m.lookup (ascii "added"), m.lookup (ascii "dropped") with
    | some (.string _ added), some (.string _ dropped) => some (parseAddressCompact o added, parseAddressCompact o dropped)
    | _, _ => none
  | _ => none

open List Object

variable {o : Endian} {added removed : List SocketAddressCompact}

theorem length_text : (text o added).length = added.length * 6 := by
  induction added with
  | nil => rfl
  | cons p added ih =>
    have hp : (bytes o p).length = 6 := by rw [bytes, length_append, length_store, length_store]
    rw [text, flatMap_cons, length_append, hp, length_cons]
    rw [text] at ih
    omega

theorem parseAddressCompact_text : parseAddressCompact o (text o added) = added := by
  induction added with
  | nil => rfl
  | cons p added ih =>
    obtain ⟨a, a', a'', a''', haddr⟩ := store_four o p.addr.toNat
    obtain ⟨b, b', hport⟩ := store_two o p.port.toNat
    have hp : load o [a, a', a'', a'''] = p.addr.toNat := by
      rw [← haddr]
      exact load_store o p.addr.toNat_lt
    have hp' : load o [b, b'] = p.port.toNat := by
      rw [← hport]
      exact load_store o p.port.toNat_lt
    have htext : text o (p :: added) = a :: a' :: a'' :: a''' :: b :: b' :: text o added := by
      rw [text, flatMap_cons, bytes, haddr, hport]
      rfl
    rw [htext, parseAddressCompact, ih, hp, hp', UInt32.ofNat_toNat, UInt16.ofNat_toNat]

def pexObject (o : Endian) (added removed : List SocketAddressCompact) : Object :=
  .map 0 [(ascii "added", .string 0 (text o added)), (ascii "dropped", .string 0 (text o removed))]

theorem not_skipped {s : Bytes} : ¬ ((Object.string 0 s).isEmpty = true ∨ (Object.string 0 s).flags &&& 0 ≠ 0) := by
  simp [Object.isEmpty]

theorem encode_pexObject : (pexObject o added removed).encode 0 =
    ascii "d5:added" ++ decimal (added.length * 6) ++ ch ':' :: text o added ++
      ascii "7:dropped" ++ decimal (removed.length * 6) ++ ch ':' :: text o removed ++ [ch 'e'] := by
  have hadded : ch 'd' :: stringText (ascii "added") = ascii "d5:added" := by decide
  have hdropped : stringText (ascii "dropped") = ascii "7:dropped" := by decide
  have hstring : ∀ l, stringText (text o l) = decimal (l.length * 6) ++ ch ':' :: text o l := fun l ↦ by
    rw [stringText, length_text]
  rw [pexObject, encode, encodeMap, if_neg not_skipped, encodeMap, if_neg not_skipped, encodeMap,
    hdropped, ← hadded, encode, encode, hstring, hstring]
  simp only [append_assoc, cons_append, append_nil]

theorem generateUtPexMessage_eq (hadded : added.length < 1000) (hremoved : removed.length < 1000) :
    generateUtPexMessage o added removed =
      .ok (if added = [] ∧ removed = [] then [] else (pexObject o added removed).encode 0) := by
  have hlen : (decimal (added.length * 6)).length ≤ 4 := length_decimal_le (by decide) (by omega)
  have hlen' : (decimal (removed.length * 6)).length ≤ 4 := length_decimal_le (by decide) (by omega)
  have hhead : (ascii "d5:added").length = 8 := rfl
  have hhead' : (ascii "7:dropped").length = 9 := rfl
  rw [generateUtPexMessage, encode_pexObject]
  split_ifs with hempty
  · rfl
  rw [if_neg]
  simp only [length_append, length_cons, length_nil, length_text, hhead, hhead']
  omega

theorem readUtPexMessage_encode (hadded : added.length < 1000) (hremoved : removed.length < 1000) :
    readUtPexMessage o ((pexObject o added removed).encode 0) = some (added, removed) := by
  have hplain : (pexObject o added removed).Plain 1023 := by
    have hkeys : ascii "added" < ascii "dropped" := by decide
    refine .map 0 _ (pairwise_pair.mpr hkeys) ?_ ?_
    · simp only [mem_cons, not_mem_nil, or_false, forall_eq_or_imp, forall_eq]
      exact ⟨by decide, by decide⟩
    · simp only [mem_cons, not_mem_nil, or_false, forall_eq_or_imp, forall_eq]
      refine ⟨.string 0 _ ?_, .string 0 _ ?_⟩ <;> rw [length_text] <;> omega
  have hlen : (decimal (added.length * 6)).length ≤ 4 := length_decimal_le (by decide) (by omega)
  have hlen' : (decimal (removed.length * 6)).length ≤ 4 := length_decimal_le (by decide) (by omega)
  have hfits : (pexObject o added removed).Fits 0 := by
    have hkey : (ascii "added").length = 5 := rfl
    have hkey' : (ascii "dropped").length = 7 := rfl
    have hseven : (decimal 7).length ≤ 1 := length_decimal_le (by decide) (by decide)
    simp only [pexObject, Object.Fits, Object.FitsMap, Object.encodeMap, Object.encode, stringText, Object.isEmpty,
      Object.flags, length_append, length_cons, length_nil, length_text, hkey, hkey']
    simp only [Bool.false_eq_true, UInt32.zero_and, ne_eq, not_true_eq_false, or_self, if_false, length_append,
      length_cons, length_text, hkey', length_nil, and_true]
    simp (disch := omega) only [Nat.mod_eq_of_lt]
    omega
  have hread := (readsIf_levels hplain []).1 hfits
  rw [append_nil] at hread
  rw [readUtPexMessage, objectReadBencodeC, hread]
  have hclear : (pexObject o added removed).clearFlags = pexObject o added removed := rfl
  rw [hclear, pexObject]
  have hlookup : List.lookup (ascii "dropped") [(ascii "added", Object.string 0 (text o added)),
      (ascii "dropped", Object.string 0 (text o removed))] = some (.string 0 (text o removed)) := rfl
  have hlookup' : List.lookup (ascii "added") [(ascii "added", Object.string 0 (text o added)),
      (ascii "dropped", Object.string 0 (text o removed))] = some (.string 0 (text o added)) := rfl
  simp only [hlookup, hlookup', parseAddressCompact_text]

end LibTorrent
