import LibTorrent.Lib.ByteOrder
import LibTorrent.Lib.Keystream
import LibTorrent.Lib.Program

namespace LibTorrent

inductive EncryptionMode
  | deny
  | allow
  | prefer
  | require
  deriving DecidableEq

open EncryptionMode

structure EncryptionPolicy where
  retrying : Bool := false
  handshakeMode : EncryptionMode := allow
  streamMode : EncryptionMode := allow
  retryMode : EncryptionMode := allow
  deriving DecidableEq

namespace EncryptionPolicy

def create (handshakeMode streamMode : EncryptionMode) : Except String EncryptionPolicy :=
  if handshakeMode = deny ∧ streamMode = require then
    .error "EncryptionPolicy::validate_modes() Invalid mode: handshake_deny/stream_require"
  else .ok { handshakeMode := handshakeMode, streamMode := streamMode }

variable (p : EncryptionPolicy)

def setRetrying : EncryptionPolicy := { p with retrying := true }

def setRetryDisabled : EncryptionPolicy := { p with retryMode := prefer }

def setRetryPlaintext : EncryptionPolicy := { p with retryMode := deny }

def setRetryEncrypted : EncryptionPolicy := { p with retryMode := require }

def allowPlaintextHandshake : Bool := p.handshakeMode ≠ require

def allowEncryptedHandshake : Bool := p.handshakeMode ≠ deny

def preferEncryptedHandshake : Bool := p.handshakeMode = prefer ∨ p.handshakeMode = require

def requireEncryptedHandshake : Bool := p.handshakeMode = require

def allowPlaintextStream : Bool := p.streamMode ≠ require

def allowEncryptedStream : Bool := p.streamMode ≠ deny

def preferEncryptedStream : Bool := p.streamMode = prefer ∨ p.streamMode = require

def requirePlaintextStream : Bool := p.streamMode = deny

def requireEncryptedStream : Bool := p.streamMode = require

def retryPlaintextHandshake : Bool := p.retryMode = deny

def retryEncryptedHandshake : Bool := p.retryMode = require

end EncryptionPolicy

abbrev EncryptionModes := EncryptionMode × EncryptionMode

def setEncryptionModes (handshake stream : EncryptionMode) : Except String EncryptionModes :=
  if handshake = deny ∧ stream = require then .error "Invalid encryption modes: handshake_deny/stream_require"
  else .ok (handshake, stream)

open Lib.ByteOrder Lib.Decimal Lib.Keystream

/-- `ProtocolBuffer`: what lies between its begin and its end, and its position. -/
structure ProtocolBuffer where
  content : Bytes := []
  position : ℕ := 0

namespace ProtocolBuffer

def reserved : ℕ := 1254

variable (b : ProtocolBuffer)

def remaining : Bytes := b.content.drop b.position

def reservedLeft : ℕ := reserved - b.content.length

def consume (n : ℕ) (b : ProtocolBuffer) : ProtocolBuffer := { b with position := b.position + n }

def push (s : Bytes) (b : ProtocolBuffer) : ProtocolBuffer := { b with content := b.content ++ s }

def moveUnused : ProtocolBuffer := ⟨b.remaining, 0⟩

def setRemaining (s : Bytes) (b : ProtocolBuffer) : ProtocolBuffer :=
  { b with content := b.content.take b.position ++ s }

def peek32 : ℕ := load .big (b.remaining.take 4)

end ProtocolBuffer

inductive HandshakeState
  | inactive
  | connecting
  | postHandshake
  | proxyWrite
  | proxyRead
  | proxyDone
  | readEncKey
  | readEncSync
  | readEncSkey
  | readEncNegot
  | readEncPad
  | readEncIa
  | readInfo
  | readPeer
  | readMessage
  | readBitfield
  | readExt
  | readPort
  deriving DecidableEq

inductive HandshakeError
  | notBittorrent
  | notAcceptingConnections
  | unknownDownload
  | inactiveDownload
  | unwantedConnection
  | isSelf
  | invalidValue
  | unencryptedRejected
  | invalidEncryption
  | encryptionSyncFailed
  | networkUnreachable
  | networkTimeout
  | tooManyFailed
  | noPeerInfo
  | networkSocketError
  | networkReadError
  | networkWriteError
  deriving DecidableEq

/-- The exceptions of a handshake. Reading memory that does not belong to a buffer is one of its own. -/
inductive HandshakeExit
  | succeeded
  | error (dropped : Bool) (error : HandshakeError)
  | network
  | internal (message : String)
  | outOfBounds
  deriving DecidableEq

/-- `EncryptionInfo`: a key and a place in its keystream for each direction. -/
structure EncryptionInfo where
  isEncrypted : Bool := false
  isObfuscated : Bool := false
  decryptValid : Bool := false
  encryptKey : Bytes := []
  encryptPos : ℕ := 0
  decryptKey : Bytes := []
  decryptPos : ℕ := 0

def EncryptionInfo.setObfuscated (e : EncryptionInfo) : EncryptionInfo :=
  { e with isObfuscated := true, isEncrypted := false, decryptValid := false }

structure HandshakeDownload where
  hash : Bytes
  localId : Bytes
  /-- The bytes of the completed bitfield. -/
  bitfield : Bytes
  isAllUnset : Bool
  initialSeeding : Bool
  isMetaDownload : Bool
  isActive : Bool
  isAcceptingNewPeers : Bool
  /-- The bencoded extension handshake. -/
  extensionHandshake : Bytes
  hash_length : hash.length = 20
  localId_length : localId.length = 20

/-- What `PeerList::connected` says of an incoming connection. -/
inductive Connected
  | accepted
  | noPeerInfo
  | tooManyFailed
  deriving DecidableEq

inductive ProxyAction
  | writing
  | reading
  | done
  | error
  deriving DecidableEq

/-- What a handshake asks of its surroundings. The state of a proxy is a number, and `parseExtension` says whether an
extension message is accepted and whether it was an extension handshake. -/
structure Host where
  publicKey : Bytes
  pad : Bytes
  keyIsValid : Bool
  computeSecret : Bytes → Option Bytes
  sha1 : Bytes → Bytes
  rc4 : Bytes → ℕ → UInt8
  downloadInfo : Bytes → Option HandshakeDownload
  downloadInfoObfuscated : Bytes → Option HandshakeDownload
  isDhtActive : Bool
  dhtReceivesRequests : Bool
  dhtPort : ℕ
  connected : Connected
  parseExtension : UInt8 → Bytes → Option Bool
  proxyAction : ℕ → ProxyAction
  proxyWrite : ℕ → Bytes × ℕ
  proxyRead : ℕ → Bytes → ℕ × ℕ
  publicKey_length : publicKey.length = 96
  pad_length : pad.length < 512
  sha1_length : ∀ s, (sha1 s).length = 20

/-- The socket: what has arrived and is not read, what has been sent, and what the next calls of an event are answered
with: a number of bytes at most, or an error. -/
structure Socket where
  inbox : Bytes := []
  sent : Bytes := []
  reads : List (Option ℕ) := []
  writes : List (Option ℕ) := []
  connectError : Bool := false

structure Handshake where
  state : HandshakeState
  incoming : Bool
  policy : EncryptionPolicy
  proxy : Option ℕ := none
  download : Option HandshakeDownload := none
  hasPeerInfo : Bool := false
  /-- The bitfield of the peer. -/
  bitfield : Option Bytes := none
  readPos : ℕ := 0
  writePos : ℕ := 0
  readDone : Bool := false
  writeDone : Bool := false
  options : Bytes := []
  /-- `is_initial_handshake` of the extensions. -/
  initialHandshake : Bool := true
  secret : Bytes := []
  sync : Bytes := []
  crypto : ℕ := 0
  lengthIa : ℕ := 0
  info : EncryptionInfo := {}
  readBuffer : ProtocolBuffer := {}
  writeBuffer : ProtocolBuffer := {}
  inRead : Bool := false
  inWrite : Bool := false
  socket : Socket := {}

namespace Handshake

open HandshakeState

def initializeIncoming (policy : EncryptionPolicy) : Handshake where
  state := if policy.allowEncryptedHandshake then readEncKey else readInfo
  incoming := true
  policy := policy
  inRead := true

def initializeOutgoing (policy : EncryptionPolicy) (download : HandshakeDownload) (proxy : Option ℕ) : Handshake where
  state := connecting
  incoming := false
  policy := policy
  proxy := proxy
  download := some download
  hasPeerInfo := true
  inWrite := true

def supportsDht (h : Handshake) : Bool := (h.options.getD 7 0) &&& 1 ≠ 0

def supportsExtensions (h : Handshake) : Bool := (h.options.getD 5 0) &&& 0x10 ≠ 0

/-- A part of a handshake: it may end with an exception, and what it changed before stays. -/
abbrev Part := EStateM HandshakeExit Handshake

def setState (state : HandshakeState) : Part Unit := modify fun h ↦ { h with state := state }

def onlyIf (p : Bool) (x : Part Unit) : Part Unit := if p then x else pure ()

/-- `read_unthrottled`: at most `n` bytes. No bytes at all are taken for the end of the stream. -/
def readUnthrottled (n : ℕ) : Part Bytes := do
  let h ← get
  if n = 0 then throw (.internal "Tried to read to buffer length 0.")
  else match h.socket.reads with
    | [] => pure []
    | none :: _ => throw .network
    | some k :: reads => do
      modify fun h ↦ { h with socket := { h.socket with inbox := h.socket.inbox.drop (min k n), reads := reads } }
      pure (h.socket.inbox.take (min k n))

def writeUnthrottled (s : Bytes) : Part ℕ := do
  let h ← get
  if s = [] then throw (.internal "Tried to write to buffer length 0.")
  else match h.socket.writes with
    | [] => pure 0
    | none :: _ => throw .network
    | some k :: writes => do
      modify fun h ↦ { h with socket := { h.socket with sent := h.socket.sent ++ s.take k, writes := writes } }
      pure (min k s.length)

def consumeRead (n : ℕ) : Part Unit := modify fun h ↦ { h with readBuffer := h.readBuffer.consume n }

/-- Bytes are read and put at the end of the read buffer until there are `n`, without being decrypted. -/
def readTo (n : ℕ) : Part Unit := do
  let h ← get
  onlyIf (h.readBuffer.remaining.length < n) do
    let s ← readUnthrottled (n - h.readBuffer.remaining.length)
    modify fun h ↦ { h with readBuffer := h.readBuffer.push s }

variable (host : Host)

def decrypted (e : EncryptionInfo) (s : Bytes) : Bytes := crypt (host.rc4 e.decryptKey) e.decryptPos s

def encrypted (e : EncryptionInfo) (s : Bytes) : Bytes := crypt (host.rc4 e.encryptKey) e.encryptPos s

def decryptRead (n : ℕ) : Part Unit := modify fun h ↦
  let s := h.readBuffer.remaining
  { h with
    readBuffer := h.readBuffer.setRemaining (decrypted host h.info (s.take n) ++ s.drop n)
    info := { h.info with decryptPos := h.info.decryptPos + (s.take n).length } }

def pushRead (s : Bytes) : Part Unit := modify fun h ↦
  if h.info.decryptValid then
    { h with
      readBuffer := h.readBuffer.push (decrypted host h.info s)
      info := { h.info with decryptPos := h.info.decryptPos + s.length } }
  else { h with readBuffer := h.readBuffer.push s }

def fillReadBuffer (size : ℕ) : Part Bool := do
  let h ← get
  if h.readBuffer.remaining.length < size then
    if h.readBuffer.reservedLeft < size - h.readBuffer.remaining.length then
      throw (.internal "Handshake::fill_read_buffer(...) Buffer overflow.")
    else do
      let s ← readUnthrottled (size - h.readBuffer.remaining.length)
      pushRead host s
      let h ← get
      pure (size ≤ h.readBuffer.remaining.length)
  else pure true

def queuePlain (s : Bytes) : Part Unit := modify fun h ↦ { h with writeBuffer := h.writeBuffer.push s }

def queueEncrypted (s : Bytes) : Part Unit := modify fun h ↦
  { h with
    writeBuffer := h.writeBuffer.push (encrypted host h.info s)
    info := { h.info with encryptPos := h.info.encryptPos + s.length } }

def queue (s : Bytes) : Part Unit := do
  let h ← get
  if h.info.isEncrypted then queueEncrypted host s else queuePlain s

/-- `HandshakeEncryption::initialize_decrypt`. The first 1024 bytes of the keystream are discarded. -/
def initializeDecrypt (hash : Bytes) : Part Unit := modify fun h ↦
  { h with
    info := { h.info with
      decryptKey := host.sha1 (ascii (if h.incoming then "keyA" else "keyB") ++ h.secret ++ hash)
      decryptPos := 1024
      decryptValid := true } }

def initializeEncrypt (hash : Bytes) : Part Unit := modify fun h ↦
  { h with
    info := { h.info with
      encryptKey := host.sha1 (ascii (if h.incoming then "keyB" else "keyA") ++ h.secret ++ hash)
      encryptPos := 1024
      isEncrypted := true
      isObfuscated := true } }

def getDownload : Part HandshakeDownload := do
  match (← get).download with
  | some d => pure d
  | none => throw .outOfBounds

end Handshake

end LibTorrent
