import LibTorrent.Handshake.Reading

namespace LibTorrent.Handshake

open Lib.Decimal HandshakeState

variable (host : Host)

/-- `consume` of what `write_unthrottled` takes of the write buffer: whether nothing is left. -/
def writeBuffered : Part Bool := do
  let s ← unsent
  let n ← writeUnthrottled s
  modify fun h ↦ { h with writeBuffer := h.writeBuffer.consume n }
  pure (n = s.length)

def writeProxy : Part Unit := do
  match (← get).proxy with
  | none => throw .outOfBounds
  | some p =>
    if host.proxyAction p ≠ .writing then throw (.internal "Handshake::write_proxy() next_action != state_writing.")
    else
      let (s, p') := host.proxyWrite p
      if s = [] then throw (.internal "Handshake::write_proxy() m_proxy->write() returned 0.")
      else do
        modify fun h ↦ { h with writeBuffer := h.writeBuffer.push s, proxy := some p' }
        match host.proxyAction p' with
        | .writing => throw (.internal "Handshake::write_proxy() next_action == state_writing after write.")
        | .reading => modify fun h ↦ { h with inWrite := false, inRead := true, state := proxyRead }
        | .done => throw (.internal "Handshake::write_proxy() next_action == state_finished after write.")
        | .error => throw (.internal "Handshake::write_proxy() next_action == state_error after write.")

def writeEncryptedBitfield (bitfield : Bytes) : Part Unit := do
  modify fun h ↦ if h.writePos = 0 then { h with writeBuffer := {} } else h
  let h ← get
  let held := h.writeBuffer.content.length
  if min (bitfield.length - h.writePos) ProtocolBuffer.reserved < held then throw .outOfBounds
  else do
    let s := (bitfield.drop (h.writePos + held)).take
      (min (bitfield.length - h.writePos) ProtocolBuffer.reserved - held)
    queueEncrypted host s
    let h ← get
    let n ← writeUnthrottled h.writeBuffer.content
    modify fun h ↦ { h with
      writePos := h.writePos + n
      writeBuffer := { h.writeBuffer with content := h.writeBuffer.content.drop n } }

def writePlainBitfield (bitfield : Bytes) : Part Unit := do
  let h ← get
  let n ← writeUnthrottled (bitfield.drop h.writePos)
  modify fun h ↦ { h with writePos := h.writePos + n }

def writeBitfieldRest (bitfield : Bytes) : Part Unit := do
  let h ← get
  onlyIf (h.writePos ≠ bitfield.length)
    (if h.info.isEncrypted then writeEncryptedBitfield host bitfield else writePlainBitfield bitfield)
  let h ← get
  onlyIf (h.writePos = bitfield.length)
    (if h.readDone then preparePostHandshake host false else modify fun h ↦ { h with inWrite := false })

def writeBitfield : Part Unit := do
  let d ← getDownload
  let h ← get
  if h.writeDone then throw (.internal "Handshake::event_write() m_writeDone != false.")
  else do
    let s ← unsent
    if s = [] then writeBitfieldRest host d.bitfield
    else if ← writeBuffered then writeBitfieldRest host d.bitfield
    else pure ()

def prepareFirst : Part Unit := do
  let s ← unsent
  if s ≠ [] then throw (.error false .notBittorrent)
  else do
    modify fun h ↦ { h with writeBuffer := {} }
    let h ← get
    if h.policy.preferEncryptedHandshake then do
      prepareKeyPlusPad host
      modify fun h ↦ { h with
        policy := if !h.policy.retrying && h.policy.allowPlaintextHandshake then h.policy.setRetryPlaintext else h.policy
        state := readEncKey }
    else do
      prepareHandshake host
      modify fun h ↦ { h with
        policy := if !h.policy.retrying && h.policy.allowEncryptedHandshake then h.policy.setRetryEncrypted else h.policy
        state := if h.incoming then readPeer else readInfo }

/-- The states `CONNECTING` and `PROXY_WRITE`, when the connection is there. -/
def writeConnected : Part Unit := do
  let h ← get
  if h.proxy.isSome then writeProxy host
  else do
    modify fun h ↦ { h with inRead := true }
    prepareFirst host

def flush : Part Unit := do
  let s ← unsent
  if s = [] then throw (.internal "event_write called with empty write buffer.")
  else if ← writeBuffered then do
    let h ← get
    if h.state = postHandshake then writeDoneAll else modify fun h ↦ { h with inWrite := false }
  else pure ()

/-- `event_write` without its handlers of exceptions. -/
def eventWrite : Part Unit := do
  let h ← get
  match h.state with
  | .connecting =>
    if h.socket.connectError then throw (.error false .networkUnreachable)
    else do
      writeConnected host
      flush
  | .proxyWrite => do
    writeConnected host
    flush
  | .proxyDone => do
    prepareFirst host
    flush
  | .readMessage | .readBitfield | .readExt => writeBitfield host
  | _ => flush

end LibTorrent.Handshake

namespace LibTorrent

open Lib.Decimal List

namespace Handshake

variable (host : Host)

def rank : HandshakeState → ℕ
  | .readEncKey => 12
  | .readEncSync => 11
  | .readEncSkey => 10
  | .readEncNegot => 9
  | .readEncPad => 8
  | .readEncIa => 7
  | .readInfo => 6
  | .readPeer => 5
  | .readBitfield => 4
  | .readMessage | .postHandshake => 3
  | .readExt | .readPort => 2
  | _ => 0

/-- What bounds the number of states that `event_read` goes through: each round of `READ_MESSAGE` takes bytes. -/
def readMeasure (h : Handshake) : ℕ :=
  16 * (h.readBuffer.remaining.length + h.socket.inbox.length) + rank h.state

def readStates : ℕ → Part Next
  | 0 => throw .outOfBounds
  | fuel + 1 => do
    match ← readStep host with
    | .again => readStates fuel
    | next => pure next

/-- `event_read` without its handlers of exceptions. -/
def eventRead : Part Unit := do
  let h ← get
  match ← readStates host (readMeasure h + 1) with
  | .write => eventWrite host
  | _ => do
    let s ← unsent
    let h ← get
    if s ≠ [] ∧ h.inWrite = false then do
      modify fun h ↦ { h with inWrite := true }
      eventWrite host
    else pure ()

end Handshake

/-- What an event of the socket brings: bytes that have arrived, how the calls of the event are answered, and whether
connecting has failed. -/
structure Arrival where
  bytes : Bytes := []
  reads : List (Option ℕ) := []
  writes : List (Option ℕ) := []
  connectError : Bool := false

inductive SocketEvent
  | readable (a : Arrival)
  | writable (a : Arrival)
  /-- An error of the socket, or a timeout. -/
  | broken

/-- What becomes of a handshake. A handshake that failed may be tried again with another policy, which may be refused
with an exception. -/
inductive Fate
  | active (h : Handshake)
  | succeeded (h : Handshake)
  | failed (h : Handshake) (retry : Option EncryptionPolicy)
  | refused (h : Handshake) (message : String)
  | escaped (h : Handshake) (e : HandshakeExit)

namespace Handshake

variable (host : Host)

/-- `HandshakeManager::receive_failed`: the policy of the next attempt. -/
def retryPolicy (h : Handshake) : Except String (Option EncryptionPolicy) :=
  if h.incoming then .ok none
  else if h.policy.retryPlaintextHandshake then
    (EncryptionPolicy.create .deny h.policy.streamMode).map fun p ↦ some p.setRetrying
  else if h.policy.retryEncryptedHandshake then
    (EncryptionPolicy.create .require h.policy.streamMode).map fun p ↦ some p.setRetrying
  else .ok none

def receiveFailed (h : Handshake) : Fate :=
  match retryPolicy h with
  | .error message => .refused h message
  | .ok retry => .failed h retry

def connectionBufferSize : ℕ := 512

/-- `HandshakeManager::receive_succeeded`: what was not read has to fit in the buffer of the connection. -/
def receiveSucceeded (h : Handshake) : Fate :=
  if connectionBufferSize < h.readBuffer.remaining.length then
    .escaped h (.internal "HandshakeManager::receive_succeeded(...) Unread data won't fit PCB's read buffer.")
  else .succeeded h

/-- The handlers of exceptions of `event_read` and `event_write`. -/
def handled : EStateM.Result HandshakeExit Handshake Unit → Fate
  | .ok _ h => .active h
  | .error .succeeded h => receiveSucceeded h
  | .error (.error _ _) h => receiveFailed h
  | .error .network h => receiveFailed h
  | .error e h => .escaped h e

def arrive (a : Arrival) (h : Handshake) : Handshake :=
  { h with socket := { h.socket with
      inbox := h.socket.inbox ++ a.bytes, reads := a.reads, writes := a.writes, connectError := a.connectError } }

/-- An event, which the socket has only if it is polled for it. -/
def event (h : Handshake) : SocketEvent → Fate
  | .readable a => if h.inRead then handled (eventRead host (arrive a h)) else .active h
  | .writable a => if h.inWrite then handled (eventWrite host (arrive a h)) else .active h
  | .broken => receiveFailed h

def run (h : Handshake) : List SocketEvent → Fate
  | [] => .active h
  | e :: es =>
    match event host h e with
    | .active h' => run h' es
    | fate => fate

end Handshake

end LibTorrent
