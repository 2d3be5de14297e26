import LibTorrent.Data.Bitfield
import LibTorrent.Lib.Outcome
import Mathlib.Data.UInt

namespace LibTorrent

open Lib.Outcome

structure PeerChunks (n : ℕ) where
  bitfield : Bitfield n
  usingCounter : Bool

/-- `torrent::ChunkStatistics` for a download of `n` chunks. The vector has `size` entries,
none or all of them. The flag `wrapped` is not in the source. It records that an entry was
counted past an end of its 8 bits. -/
structure ChunkStatistics (n : ℕ) where
  size : ℕ
  rarity : Fin n → UInt8
  complete : UInt32
  accounted : UInt32
  wrapped : Bool

namespace ChunkStatistics

variable {n : ℕ}

def maxAccounted : UInt32 := 255

variable (s : ChunkStatistics n)

def shouldAdd : Bool := s.accounted < maxAccounted

def initializeTo (size : ℕ) : Except String (ChunkStatistics n) :=
  if s.size ≠ 0 then .error "ChunkStatistics::initialize(...) called on an initialized object."
  else .ok { s with size := size, rarity := fun _ ↦ 0 }

def clear (s : ChunkStatistics n) : Except String (ChunkStatistics n) :=
  if s.complete ≠ 0 then .error "ChunkStatistics::clear() m_complete != 0."
  else .ok { s with size := 0 }

def increment (marks : Fin n → Bool) : ChunkStatistics n :=
  { s with
    rarity := fun i ↦ if marks i then s.rarity i + 1 else s.rarity i
    wrapped := s.wrapped || decide (∃ i, marks i ∧ s.rarity i = 255) }

def decrement (marks : Fin n → Bool) : ChunkStatistics n :=
  { s with
    rarity := fun i ↦ if marks i then s.rarity i - 1 else s.rarity i
    wrapped := s.wrapped || decide (∃ i, marks i ∧ s.rarity i = 0) }

variable (pc : PeerChunks n)

def receivedConnect :
    Except String (ChunkStatistics n × PeerChunks n) :=
  if pc.usingCounter then
    .error "ChunkStatistics::received_connect(...) pc->using_counter() == true."
  else if pc.bitfield.isAllSet then
    .ok ({ s with complete := s.complete + 1 }, { pc with usingCounter := true })
  else if !pc.bitfield.isAllUnset && s.shouldAdd then
    .ok ({ s with accounted := s.accounted + 1 }.increment pc.bitfield.bits, { pc with usingCounter := true })
  else .ok (s, pc)

def receivedDisconnect :
    Except String (ChunkStatistics n × PeerChunks n) :=
  if !pc.usingCounter then .ok (s, pc)
  else if pc.bitfield.isAllSet then
    .ok ({ s with complete := s.complete - 1 }, { pc with usingCounter := false })
  else if s.accounted = 0 then
    .error "ChunkStatistics::received_disconnect(...) m_accounted == 0."
  else
    .ok ({ s with accounted := s.accounted - 1 }.decrement pc.bitfield.bits, { pc with usingCounter := false })

def addUnset : Except String (ChunkStatistics n × PeerChunks n) :=
  if pc.bitfield.isAllUnset && s.shouldAdd then
    if pc.usingCounter then
      .error "ChunkStatistics::received_have_chunk(...) pc->using_counter() == true."
    else .ok ({ s with accounted := s.accounted + 1 }, { pc with usingCounter := true })
  else .ok (s, pc)

def countHave (index : Fin n) :
    Except String (ChunkStatistics n × PeerChunks n) :=
  if pc.usingCounter then
    let s := s.increment (· = index)
    if pc.bitfield.isAllSet then
      if s.accounted = 0 then
        .error "ChunkStatistics::received_disconnect(...) m_accounted == 0."
      else
        .ok ({ s with complete := s.complete + 1, accounted := s.accounted - 1 }.decrement fun _ ↦ true, pc)
    else .ok (s, pc)
  else if pc.bitfield.isAllSet then
    .ok ({ s with complete := s.complete + 1 }, { pc with usingCounter := true })
  else .ok (s, pc)

def receivedHaveChunk (index : Fin n) :
    Except String (ChunkStatistics n × PeerChunks n) := do
  let (s, pc) ← s.addUnset pc
  s.countHave { pc with bitfield := pc.bitfield.set index } index

end ChunkStatistics

structure Download (n : ℕ) where
  statistics : ChunkStatistics n
  connections : List (PeerChunks n)
  maxSize : UInt32
  isOpen : Bool
  isActive : Bool

namespace Download

variable {n : ℕ}

def fresh (n : ℕ) : Download n := ⟨⟨0, fun _ ↦ 0, 0, 0, false⟩, [], 100, false, false⟩

/-- `ConnectionList::set_max_size`. Zero stands for no limit, and a larger size than `2 ^ 16`
is refused. -/
def setMaxSize (v : UInt32) (d : Download n) : Download n :=
  if 2 ^ 16 < v then d else { d with maxSize := if v = 0 then 2 ^ 32 - 1 else v }

/-- `ConnectionList::insert` for a handshake that has succeeded, with the bitfield that was
received in it. -/
def insert (bits : Fin n → Bool) (d : Download n) : Except String (Download n) :=
  if !d.isActive then .ok d
  else if d.maxSize.toNat ≤ d.connections.length then .ok d
  else do
    let (s, pc) ← d.statistics.receivedConnect ⟨.update bits, false⟩
    .ok { d with statistics := s, connections := d.connections ++ [pc] }

/-- `ConnectionList::erase`: the last connection takes the place of the one erased. -/
def erase (k : ℕ) (d : Download n) : Except String (Download n) :=
  match d.connections[k]?, d.connections.getLast? with
  | some pc, some back => do
    let (s, _) ← d.statistics.receivedDisconnect pc
    .ok { d with statistics := s, connections := (d.connections.set k back).dropLast }
  | _, _ => .ok d

/-- `read_have_chunk`. An index out of range ends the connection. -/
def readHaveChunk (k index : ℕ) (d : Download n) : Except String (Download n) :=
  match d.connections[k]? with
  | none => .ok d
  | some pc =>
    if h : index < n then
      if pc.bitfield.bits ⟨index, h⟩ then .ok d
      else do
        let (s, pc) ← d.statistics.receivedHaveChunk pc ⟨index, h⟩
        .ok { d with statistics := s, connections := d.connections.set k pc }
    else d.erase k

/-- `DownloadMain::open`. -/
def openUp (d : Download n) : Except String (Download n) :=
  if d.isOpen then .ok d
  else do
    let s ← d.statistics.initializeTo n
    .ok { d with statistics := s, isOpen := true }

def start (d : Download n) : Download n := if d.isOpen then { d with isActive := true } else d

/-- `DownloadMain::stop`, with `erase_remaining`. -/
def stop (d : Download n) : Except String (Download n) :=
  if !d.isActive then .ok d
  else forEach (fun _ d ↦ d.erase (d.connections.length - 1)) d.connections { d with isActive := false }

/-- `Download::close`. -/
def close (d : Download n) : Except String (Download n) := do
  let d ← d.stop
  if !d.isOpen then .ok d
  else do
    let s ← d.statistics.clear
    .ok { d with statistics := s, isOpen := false }

inductive Event (n : ℕ)
  | setMaxSize (v : UInt32)
  | openUp
  | start
  | stop
  | close
  | connect (bits : Fin n → Bool)
  | haveChunk (peer index : ℕ)
  | disconnect (peer : ℕ)

def step : Event n → Download n → Except String (Download n)
  | .setMaxSize v, d => .ok (d.setMaxSize v)
  | .openUp, d => d.openUp
  | .start, d => .ok d.start
  | .stop, d => d.stop
  | .close, d => d.close
  | .connect bits, d => d.insert bits
  | .haveChunk peer index, d => d.readHaveChunk peer index
  | .disconnect peer, d => d.erase peer

def run (es : List (Event n)) : Except String (Download n) := forEach step es (fresh n)

end Download

end LibTorrent
