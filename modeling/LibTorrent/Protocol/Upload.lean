import LibTorrent.Lib.Keystream
import LibTorrent.Transfer.Basic
import LibTorrent.Object.Basic

namespace LibTorrent

open Lib.Decimal Lib.Keystream Lib.Outcome

inductive UploadFault
  | internal (message : String)
  | closed
  deriving DecidableEq

inductive UploadState
  | idle
  | msg
  | writePiece
  | writeExtension
  deriving DecidableEq

/-- The last command in the write buffer, as far as `event_write` tells commands apart. -/
inductive UploadCommand
  | piece
  | extension
  | other
  deriving DecidableEq

structure EncryptBuffer where
  data : Bytes
  position : ℕ

namespace EncryptBuffer

def reserved : ℕ := 16384

def remaining (e : EncryptBuffer) : ℕ := e.data.length - e.position

def reservedLeft (e : EncryptBuffer) : ℕ := reserved - e.data.length

def reset : EncryptBuffer := ⟨[], 0⟩

def unread (e : EncryptBuffer) : Bytes := e.data.drop e.position

end EncryptBuffer

/-- The writing side of an encrypted peer connection. The piece has its offset and length
moved on as its bytes are sent. An extension message without an offset is still to be
encrypted. The last two fields are not in the source: the bytes that were handed to the
socket, and the plain bytes of all messages in the order in which they were prepared. -/
structure Upload where
  state : UploadState
  buffer : Bytes
  lastCommand : UploadCommand
  index : UInt32
  offset : ℕ
  length : ℕ
  upChunk : Option UInt32
  encryptBuffer : Option EncryptBuffer
  extensionMessage : Bytes
  extensionOffset : Option ℕ
  choked : Bool
  sendChoked : Bool
  uploadQueue : List Piece
  keyPosition : ℕ
  sent : Bytes
  prepared : Bytes

namespace Upload

def fresh : Upload where
  state := .idle
  buffer := []
  lastCommand := .other
  index := 0
  offset := 0
  length := 0
  upChunk := none
  encryptBuffer := none
  extensionMessage := []
  extensionOffset := none
  choked := true
  sendChoked := false
  uploadQueue := []
  keyPosition := 0
  sent := []
  prepared := []

def bufferSize : ℕ := 512

def reservedLeft (c : Upload) : ℕ := bufferSize - c.buffer.length

def write32 (n : UInt32) : Bytes := [(n >>> 24).toUInt8, (n >>> 16).toUInt8, (n >>> 8).toUInt8, n.toUInt8]

def writeChoke (s : Bool) : Bytes := write32 1 ++ [if s then 0 else 1]

def writePiece (p : Piece) : Bytes := write32 (9 + p.length) ++ (7 :: (write32 p.index ++ write32 p.offset))

def writeExtension (id : UInt8) (message : Bytes) : Bytes :=
  write32 (2 + UInt32.ofNat message.length) ++ [20, id]

variable (ks : ℕ → UInt8) (chunks : UInt32 → Option Bytes)

def append (b : Bytes) (c : Upload) : Upload :=
  { c with
    buffer := c.buffer ++ crypt ks c.keyPosition b
    keyPosition := c.keyPosition + b.length
    prepared := c.prepared ++ b }

def receiveKeepalive (c : Upload) : Upload :=
  if c.state = .idle ∧ 4 ≤ c.reservedLeft then { c.append ks (write32 0) with lastCommand := .other } else c

/-- `receive_upload_choke`, which the choke queue calls only to change the state. -/
def receiveUploadChoke (choke : Bool) (c : Upload) : Upload :=
  if choke = c.choked then c else { c with sendChoked := true, choked := choke }

def maxRequestQueueSize : ℕ := 2048

def readRequestPiece (p : Piece) (c : Upload) : Upload :=
  if c.choked ∨ maxRequestQueueSize ≤ c.uploadQueue.length ∨ ((1 : UInt32) <<< 17) < p.length ∨ p ∈ c.uploadQueue then c
  else { c with uploadQueue := c.uploadQueue ++ [p] }

def readCancelPiece (p : Piece) (c : Upload) : Upload := { c with uploadQueue := c.uploadQueue.erase p }

/-- `is_valid_piece`, for a chunk that is completed. -/
def isValidPiece (p : Piece) : Bool :=
  match chunks p.index with
  | none => false
  | some d => p.length ≠ 0 ∧ p.offset ≤ p.offset + p.length ∧ (p.offset + p.length).toNat ≤ d.length

def pieceBytes (index : UInt32) (offset length : ℕ) : Bytes :=
  (((chunks index).getD []).drop offset).take length

def fillChoke (c : Upload) : Except UploadFault Upload :=
  if c.sendChoked ∧ 5 ≤ c.reservedLeft then
    let c := { c.append ks (writeChoke c.choked) with sendChoked := false, lastCommand := .other }
    if c.choked then
      let c := { c with upChunk := none, uploadQueue := [] }
      match c.encryptBuffer with
      | none => .ok c
      | some e =>
        if e.remaining ≠ 0 then .error (.internal "Deleting encryptBuffer with encrypted data remaining.")
        else .ok { c with encryptBuffer := none }
    else .ok c
  else .ok c

/-- The messages between the choke state and the pieces: any bytes that fit. -/
def fillOther (other : Bytes) (c : Upload) : Upload :=
  let other := other.take c.reservedLeft
  if other = [] then c else { c.append ks other with lastCommand := .other }

def writePreparePiece (p : Piece) (queue : List Piece) (c : Upload) : Except UploadFault Upload :=
  if !isValidPiece chunks p then .error .closed
  else
    let c := c.append ks (writePiece p)
    .ok { c with
      uploadQueue := queue
      index := p.index
      offset := p.offset.toNat
      length := p.length.toNat
      lastCommand := .piece
      prepared := c.prepared ++ pieceBytes chunks p.index p.offset.toNat p.length.toNat }

def writePrepareExtension (id : UInt8) (message : Bytes) (c : Upload) : Upload :=
  let c := c.append ks (writeExtension id message)
  { c with
    extensionMessage := message
    extensionOffset := none
    lastCommand := .extension
    prepared := c.prepared ++ message }

/-- The last part of `fill_write_buffer`: an extension message if there is one, or else a
piece. Initial seeding first skips the pieces that are seeded well. -/
def fillLast (id : UInt8) (message : Bytes) (skip : ℕ) (c : Upload) : Except UploadFault Upload :=
  if message ≠ [] ∧ 6 ≤ c.reservedLeft then .ok (c.writePrepareExtension ks id message)
  else if !c.choked ∧ c.uploadQueue ≠ [] ∧ 13 ≤ c.reservedLeft then
    match c.uploadQueue.drop skip with
    | [] => .ok { c with uploadQueue := [] }
    | p :: queue => c.writePreparePiece ks chunks p queue
  else .ok c

def fillWriteBuffer (other : Bytes) (id : UInt8) (message : Bytes) (skip : ℕ) (c : Upload) :
    Except UploadFault Upload := do
  let c ← c.fillChoke ks
  let c ← (c.fillOther ks other).fillLast ks chunks id message skip
  .ok (if c.buffer = [] then c else { c with state := .msg })

def loadUpChunk (c : Upload) : Except UploadFault Upload :=
  if c.upChunk = some c.index then .ok c
  else if chunks c.index = none then .error .closed
  else .ok { c with upChunk := some c.index, encryptBuffer := some (c.encryptBuffer.getD .reset) }

/-- The message case of `event_write`, in which the socket takes `n` bytes. -/
def writeBuffer (n : ℕ) (c : Upload) : Except UploadFault Upload :=
  let c := { c with sent := c.sent ++ c.buffer.take n, buffer := c.buffer.drop n }
  if c.buffer ≠ [] then .ok c
  else
    match c.lastCommand with
    | .piece => do
      let c ← c.loadUpChunk chunks
      .ok { c with state := .writePiece }
    | .extension => .ok { c with state := .writeExtension }
    | .other => .ok { c with state := .idle }

def toBuffer (d : Bytes) (position length : ℕ) : Except UploadFault Bytes :=
  if d.length < position + length then
    .error (.internal "Chunk::to_buffer(...) position + length > m_chunkSize.")
  else .ok ((d.drop position).take length)

def upChunkEncrypt (quota : ℕ) (c : Upload) : Except UploadFault (ℕ × Upload) :=
  match c.encryptBuffer with
  | none => .error (.internal "PeerConnectionBase::up_chunk: m_encrypt_buffer is NULL.")
  | some e =>
    if quota ≤ e.remaining then .ok (quota, c)
    else do
      let (e, quota) :=
        if e.remaining = 0 then (EncryptBuffer.reset, min quota EncryptBuffer.reserved)
        else (e, min (quota - e.remaining) e.reservedLeft)
      let d ← toBuffer ((c.upChunk.bind chunks).getD []) (c.offset + e.remaining) quota
      let e := { e with data := e.data ++ crypt ks c.keyPosition d }
      .ok (e.remaining, { c with encryptBuffer := some e, keyPosition := c.keyPosition + quota })

/-- `up_chunk`, in which the socket takes `n` bytes of those offered. -/
def upChunkWrite (quota n : ℕ) (c : Upload) : Except UploadFault Upload :=
  if quota = 0 then .ok c
  else do
    let (quota, c) ← c.upChunkEncrypt ks chunks (min quota c.length)
    if quota = 0 then .error (.internal "Tried to write to buffer length 0.")
    else
      let n := min n quota
      let e := c.encryptBuffer.getD .reset
      let c := { c with
        sent := c.sent ++ e.unread.take n
        encryptBuffer := some { e with position := e.position + n }
        offset := c.offset + n
        length := c.length - n }
      .ok (if c.length = 0 then { c with state := .idle } else c)

/-- `up_extension`, in which the socket takes `n` bytes. -/
def upExtension (n : ℕ) (c : Upload) : Except UploadFault Upload :=
  let (o, c) := match c.extensionOffset with
    | none => (0, { c with
        extensionMessage := crypt ks c.keyPosition c.extensionMessage
        keyPosition := c.keyPosition + c.extensionMessage.length })
    | some o => (o, c)
  if c.extensionMessage.length ≤ o then .error (.internal "PeerConnectionBase::up_extension bad offset.")
  else
    let n := min n (c.extensionMessage.length - o)
    let c := { c with
      sent := c.sent ++ (c.extensionMessage.drop o).take n
      extensionOffset := some (o + n) }
    .ok (if o + n < c.extensionMessage.length then c else { c with extensionMessage := [], state := .idle })

/-- What can happen to the writing side. The last four are the cases of `event_write`, with
what the rest of the program and the socket do in them. -/
inductive Event
  | keepalive
  | choke (choke : Bool)
  | request (p : Piece)
  | cancel (p : Piece)
  | fill (other : Bytes) (id : UInt8) (message : Bytes) (skip : ℕ)
  | buffer (n : ℕ)
  | chunk (quota n : ℕ)
  | extension (n : ℕ)

def step : Event → Upload → Except UploadFault Upload
  | .keepalive, c => .ok (c.receiveKeepalive ks)
  | .choke choke, c => .ok (c.receiveUploadChoke choke)
  | .request p, c => .ok (c.readRequestPiece p)
  | .cancel p, c => .ok (c.readCancelPiece p)
  | .fill other id message skip, c =>
    if c.state = .idle then c.fillWriteBuffer ks chunks other id message skip else .ok c
  | .buffer n, c => if c.state = .msg then c.writeBuffer chunks n else .ok c
  | .chunk quota n, c => if c.state = .writePiece then c.upChunkWrite ks chunks quota n else .ok c
  | .extension n, c => if c.state = .writeExtension then c.upExtension ks n else .ok c

def run (es : List Event) : Except UploadFault Upload := forEach (step ks chunks) es fresh

end Upload

end LibTorrent
