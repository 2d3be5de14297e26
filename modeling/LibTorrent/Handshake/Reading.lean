import LibTorrent.Handshake.Basic

namespace LibTorrent.Handshake

open Lib.ByteOrder Lib.Decimal HandshakeState

variable (host : Host)

def protocol : Bytes := ascii "BitTorrent protocol"

def protocolBitfield : UInt8 := 5

def protocolPort : UInt8 := 9

def protocolExtension : UInt8 := 20

def handshakeSize : ℕ := 68

def encPadSize : ℕ := 512

def encPadReadSize : ℕ := 96 + encPadSize + 20

def encNegotiationSize : ℕ := 8 + 4 + 2

def vc : Bytes := List.replicate 8 0

def xorBytes (s t : Bytes) : Bytes := List.zipWith (· ^^^ ·) s t

/-- What is not sent of the write buffer. A position behind the end gives memory that lies elsewhere. -/
def unsent : Part Bytes := do
  let h ← get
  if h.writeBuffer.content.length < h.writeBuffer.position then throw .outOfBounds
  else pure h.writeBuffer.remaining

def prepareKeyPlusPad : Part Unit :=
  if !host.keyIsValid then throw (.error false .invalidValue) else queuePlain (host.publicKey ++ host.pad)

variable (d : HandshakeDownload)

def handshakeBytes : Bytes :=
  19 :: protocol ++ [0, 0, 0, 0, 0, 0x10, 0, if host.isDhtActive then 1 else 0] ++ d.hash ++ d.localId

def prepareHandshake : Part Unit := do
  let d ← getDownload
  queue host (handshakeBytes host d)

def hashObfuscated : Bytes := host.sha1 (ascii "req2" ++ d.hash)

def cryptoProvide (p : EncryptionPolicy) : Option ℕ :=
  if p.allowPlaintextStream && p.allowEncryptedStream then some 3
  else if p.allowPlaintextStream then some 1
  else if p.allowEncryptedStream then some 2
  else none

def prepareEncNegotiation : Part Unit := do
  let d ← getDownload
  let h ← get
  queuePlain (host.sha1 (ascii "req1" ++ h.secret) ++
    xorBytes (hashObfuscated host d) (host.sha1 (ascii "req3" ++ h.secret)))
  initializeEncrypt host d.hash
  match cryptoProvide h.policy with
  | none => throw (.internal "Handshake::prepare_enc_negotiation() invalid policy")
  | some provide => do
    queueEncrypted host (vc ++ store .big 4 provide ++ store .big 2 0 ++ store .big 2 handshakeSize)
    prepareHandshake host

def preparePeerInfo : Part Unit := do
  let d ← getDownload
  let h ← get
  if h.readBuffer.remaining.take 20 = d.localId then throw (.error false .isSelf)
  else if h.hasPeerInfo = false ∧ h.incoming = false then
    throw (.internal "Handshake::prepare_peer_info() !m_incoming.")
  else if h.hasPeerInfo = false ∧ host.connected = .noPeerInfo then throw (.error false .noPeerInfo)
  else do
    modify fun h ↦ { h with hasPeerInfo := true }
    if h.hasPeerInfo = false ∧ host.connected = .tooManyFailed then throw (.error true .tooManyFailed)
    else do
      consumeRead 20
      if d.isMetaDownload ∧ h.supportsExtensions = false then throw (.error true .unwantedConnection)
      else pure ()

def writeExtensionHandshake : Part Unit := do
  let d ← getDownload
  queue host (store .big 4 (d.extensionHandshake.length + 2) ++ [protocolExtension, 0] ++ d.extensionHandshake)

def bitfieldHeader : Bytes := store .big 4 (d.bitfield.length + 1) ++ [protocolBitfield]

def prepareBitfield : Part Unit := do
  let d ← getDownload
  queue host (bitfieldHeader d)
  modify fun h ↦ { h with writePos := 0 }

def hidesBitfield : Bool := d.isAllUnset || d.initialSeeding

def prepareMessages : Part Unit := do
  let d ← getDownload
  if hidesBitfield d then do
    modify fun h ↦ { h with writePos := d.bitfield.length }
    queue host (store .big 4 0)
  else prepareBitfield host

def writeDoneAll : Part Unit := do
  modify fun h ↦ { h with writeDone := true, inWrite := false }
  let h ← get
  if h.readDone then throw .succeeded else pure ()

def postMessage (h : Handshake) (mustWrite : Bool) : Bytes :=
  if h.supportsDht && host.dhtReceivesRequests then store .big 4 3 ++ [protocolPort] ++ store .big 2 host.dhtPort
  else if mustWrite then store .big 4 0
  else []

def preparePostHandshake (mustWrite : Bool) : Part Unit := do
  let d ← getDownload
  let h ← get
  if h.writePos ≠ d.bitfield.length then
    throw (.internal "Handshake::prepare_post_handshake called while bitfield not written completely.")
  else do
    setState postHandshake
    queue host (postMessage host h mustWrite)
    let s ← unsent
    if s = [] then writeDoneAll else pure ()

/-- `read_done`. -/
def readFinished : Part Unit := do
  let h ← get
  if h.readDone then throw (.internal "Handshake::read_done() m_readDone != false.")
  else do
    let d ← getDownload
    modify fun h ↦ { h with
      readDone := true
      inRead := false
      bitfield := some (h.bitfield.getD (List.replicate d.bitfield.length 0)) }
    onlyIf (h.writePos = d.bitfield.length) (preparePostHandshake host (hidesBitfield d))
    let h ← get
    if h.writeDone then throw .succeeded else pure ()

open Lib.Keystream

/-- `std::search`: the first place at which the pattern begins. -/
def search (pattern : Bytes) : Bytes → Option ℕ
  | [] => if pattern = [] then some 0 else none
  | c :: s => if pattern.isPrefixOf (c :: s) then some 0 else (search pattern s).map (· + 1)

/-- How `event_read` goes on: with the next state, with its end, or with `event_write`. -/
inductive Next
  | again
  | stop
  | write
  deriving DecidableEq

def readProxy : Part Next := do
  let h ← get
  match h.proxy with
  | none => throw .outOfBounds
  | some p =>
    if h.readBuffer.reservedLeft = 0 then throw (.error true .invalidValue)
    else do
      let s ← readUnthrottled h.readBuffer.reservedLeft
      modify fun h ↦ { h with readBuffer := h.readBuffer.push s }
      let h ← get
      let (used, p') := host.proxyRead p h.readBuffer.remaining
      modify fun h ↦ { h with readBuffer := h.readBuffer.consume used, proxy := some p' }
      match host.proxyAction p' with
      | .writing => do
        modify fun h ↦ { h with inRead := false, inWrite := true, state := proxyWrite }
        pure .stop
      | .reading => pure .stop
      | .done => do
        modify fun h ↦ { h with readBuffer := h.readBuffer.moveUnused, state := proxyDone }
        pure .write
      | .error => throw (.error true .invalidValue)

/-- The sync string is determined, and an outgoing handshake writes as much as it can. -/
def prepareSync : Part Unit := do
  let h ← get
  if h.incoming then modify fun h ↦ { h with sync := host.sha1 (ascii "req1" ++ h.secret) }
  else do
    let d ← getDownload
    modify fun h ↦ { h with
      sync := crypt (host.rc4 (host.sha1 (ascii "keyB" ++ h.secret ++ d.hash))) 1024 vc }
    prepareEncNegotiation host

/-- The part of `read_encryption_key` for a peer that does not begin with a plain handshake. -/
def readKey : Part Next := do
  readTo encPadReadSize
  let h ← get
  if h.readBuffer.content.length < 96 then pure .stop
  else do
    modify fun h ↦ { h with policy := h.policy.setRetryDisabled }
    onlyIf h.incoming (prepareKeyPlusPad host)
    match host.computeSecret (h.readBuffer.remaining.take 96) with
    | none => throw (.error false .invalidEncryption)
    | some secret => do
      modify fun h ↦ { h with secret := secret, readBuffer := h.readBuffer.consume 96 }
      prepareSync host
      setState readEncSync
      pure .again

def readEncryptionKey : Part Next := do
  let h ← get
  if h.incoming then do
    readTo 20
    let h ← get
    if h.readBuffer.remaining.length < 20 then pure .stop
    else if h.readBuffer.remaining.take 20 = 19 :: protocol then
      if h.policy.requireEncryptedHandshake then throw (.error true .unencryptedRejected)
      else do
        setState readInfo
        pure .again
    else readKey host
  else readKey host

def syncFound (i : ℕ) : Part Next := do
  let h ← get
  if h.incoming then do
    consumeRead (i + 20)
    setState readEncSkey
    pure .again
  else do
    consumeRead i
    setState readEncNegot
    pure .again

def readEncryptionSync : Part Next := do
  let h ← get
  match search h.sync h.readBuffer.remaining with
  | some i => syncFound i
  | none =>
    if encPadSize + h.sync.length ≤ h.readBuffer.remaining.length then throw (.error false .encryptionSyncFailed)
    else do
      readTo (encPadSize + h.sync.length)
      let h ← get
      match search h.sync h.readBuffer.remaining with
      | some i => syncFound i
      | none => pure .stop

def validateDownload : Part HandshakeDownload := do
  match (← get).download with
  | none => throw (.error true .unknownDownload)
  | some d =>
    if !d.isActive then throw (.error true .inactiveDownload)
    else if !d.isAcceptingNewPeers then throw (.error true .notAcceptingConnections)
    else pure d

def readEncryptionSkey : Part Next := do
  if !(← fillReadBuffer host 20) then pure .stop
  else do
    modify fun h ↦ { h with
      download := host.downloadInfoObfuscated
        (xorBytes (h.readBuffer.remaining.take 20) (host.sha1 (ascii "req3" ++ h.secret)))
      readBuffer := h.readBuffer.consume 20 }
    let d ← validateDownload
    if d.isMetaDownload then throw (.error true .invalidEncryption)
    else do
      initializeEncrypt host d.hash
      initializeDecrypt host d.hash
      let h ← get
      decryptRead host h.readBuffer.remaining.length
      queueEncrypted host vc
      setState readEncNegot
      pure .again

def selectedMode (h : Handshake) : Except HandshakeExit ℕ :=
  if h.crypto &&& 1 ≠ 0 ∧ h.crypto &&& 2 ≠ 0 then .ok (if h.policy.preferEncryptedStream then 2 else 1)
  else if h.crypto &&& 1 ≠ 0 then
    if !h.policy.allowPlaintextStream then .error (.error false .unencryptedRejected) else .ok 1
  else if h.crypto &&& 2 ≠ 0 then
    if !h.policy.allowEncryptedStream then .error (.error false .invalidEncryption) else .ok 2
  else .error (.error false .invalidEncryption)

def selectMode : Part Unit := do
  let h ← get
  match selectedMode h with
  | .error e => throw e
  | .ok mode => do
    modify fun h ↦ { h with crypto := mode }
    queueEncrypted host (store .big 4 mode ++ store .big 2 0)

def verifyMode : Part Unit := do
  let h ← get
  if h.crypto = 1 then
    if h.policy.requireEncryptedStream then throw (.error false .unencryptedRejected)
    else decryptRead host (min h.readPos h.readBuffer.remaining.length)
  else if h.crypto = 2 then
    if h.policy.requirePlaintextStream then throw (.error false .invalidEncryption)
    else decryptRead host h.readBuffer.remaining.length
  else throw (.error false .invalidEncryption)

def negotiateMode : Part Unit := do
  let h ← get
  if h.incoming then selectMode host else verifyMode host

/-- An outgoing handshake begins to decrypt, not further than what is surely encrypted. -/
def startDecrypt : Part Unit := do
  let d ← getDownload
  initializeDecrypt host d.hash
  decryptRead host encNegotiationSize

def takeNegotiation (h : Handshake) : Handshake :=
  let s := h.readBuffer.remaining
  { h with
    crypto := load .big ((s.drop 8).take 4)
    readPos := load .big ((s.drop 12).take 2)
    readBuffer := h.readBuffer.consume encNegotiationSize }

def readEncryptionNegotiation : Part Next := do
  if !(← fillReadBuffer host encNegotiationSize) then pure .stop
  else do
    let h ← get
    onlyIf (!h.incoming) (startDecrypt host)
    let h ← get
    if h.readBuffer.remaining.take 8 ≠ vc then throw (.error false .invalidValue)
    else do
      modify takeNegotiation
      let h ← get
      if encPadSize < h.readPos then throw (.error false .invalidValue)
      else do
        negotiateMode host
        setState readEncPad
        pure .again

/-- The negotiation is over, and with a plaintext stream nothing is encrypted from here on. -/
def settleStream : Part Next := do
  let h ← get
  onlyIf (h.crypto = 1) (modify fun h ↦ { h with info := h.info.setObfuscated })
  setState readInfo
  pure .again

def readNegotiationReply : Part Next := do
  let h ← get
  if !h.incoming then settleStream
  else if !(← fillReadBuffer host 2) then pure .stop
  else do
    modify fun h ↦ { h with
      lengthIa := load .big (h.readBuffer.remaining.take 2), readBuffer := h.readBuffer.consume 2 }
    let h ← get
    if handshakeSize < h.lengthIa then throw (.error false .invalidValue)
    else do
      setState readEncIa
      pure .again

/-- The state `READ_ENC_PAD`: padC and the length of IA, or padD. -/
def readEncryptionPad : Part Next := do
  let h ← get
  if h.readPos = 0 then readNegotiationReply host
  else if !(← fillReadBuffer host (h.readPos + if h.incoming then 2 else 0)) then pure .stop
  else do
    consumeRead h.readPos
    modify fun h ↦ { h with readPos := 0 }
    readNegotiationReply host

/-- The state `READ_ENC_IA`: the initial payload stays in the buffer. -/
def readEncryptionIa : Part Next := do
  let h ← get
  if !(← fillReadBuffer host h.lengthIa) then pure .stop
  else do
    let h ← get
    if h.lengthIa < h.readBuffer.remaining.length then throw (.error false .invalidValue)
    else settleStream

/-- The info hash is checked against the download, which an incoming handshake may have to look up. -/
def checkInfoHash (hash : Bytes) : Part Unit := do
  let h ← get
  if h.incoming then do
    onlyIf h.download.isNone (modify fun h ↦ { h with download := host.downloadInfo hash })
    if h.download.any fun d ↦ d.hash ≠ hash then throw (.error false .invalidValue)
    else do
      let _ ← validateDownload
      prepareHandshake host
  else do
    modify fun h ↦ { h with policy := h.policy.setRetryDisabled }
    let d ← getDownload
    if d.hash ≠ hash then throw (.error false .invalidValue) else pure ()

def readHandshakeInfo : Part Next := do
  let _ ← fillReadBuffer host handshakeSize
  let h ← get
  let s := h.readBuffer.remaining
  if (1 ≤ s.length ∧ s.headD 0 ≠ 19) ∨ (20 ≤ s.length ∧ (s.drop 1).take 19 ≠ protocol) then
    throw (.error false .notBittorrent)
  else if s.length < 48 then pure .stop
  else do
    modify fun h ↦ { h with options := (s.drop 20).take 8, readBuffer := h.readBuffer.consume 28 }
    checkInfoHash host ((s.drop 28).take 20)
    consumeRead 20
    setState readPeer
    pure .again

def readHandshakePeer : Part Next := do
  if !(← fillReadBuffer host 20) then pure .stop
  else do
    preparePeerInfo host
    let h ← get
    onlyIf h.supportsExtensions (writeExtensionHandshake host)
    prepareMessages host
    modify fun h ↦ { h with state := readMessage, inWrite := true }
    pure .again

def readBitfieldPart : Part Bool := do
  let h ← get
  let s := h.bitfield.getD []
  let d ← getDownload
  onlyIf (h.readPos < d.bitfield.length) do
    let t ← readUnthrottled (d.bitfield.length - h.readPos)
    let h ← get
    let t' := if h.info.decryptValid then decrypted host h.info t else t
    modify fun h ↦ { h with
      bitfield := some (s ++ t')
      readPos := h.readPos + t.length
      info := { h.info with decryptPos := h.info.decryptPos + if h.info.decryptValid then t.length else 0 } }
  let h ← get
  pure (h.readPos = d.bitfield.length)

/-- Whether the message at the position fits in the buffer, with five bytes behind it for the next one. -/
def fits (b : ProtocolBuffer) : Bool := b.peek32 + 4 + 5 ≤ b.remaining.length + b.reservedLeft

def makeRoom : Part Unit := do
  let h ← get
  if ProtocolBuffer.reserved < h.readBuffer.peek32 then throw (.error false .invalidValue)
  else if fits h.readBuffer then pure ()
  else do
    modify fun h ↦ { h with readBuffer := h.readBuffer.moveUnused }
    let h ← get
    if fits h.readBuffer then pure () else throw (.error false .invalidValue)

/-- The message at the position of the buffer. Extensions that a peer does not support are refused, as is a message
that is too short to have an id. -/
def takeExtension : Part Unit := do
  let h ← get
  let length := h.readBuffer.peek32
  let s := h.readBuffer.remaining
  if h.supportsExtensions = false ∨ length < 2 then throw .network
  else
    match host.parseExtension (s.getD 5 0) ((s.drop 6).take (length - 2)) with
    | none => throw .network
    | some isHandshake =>
      modify fun h ↦ { h with
        initialHandshake := h.initialHandshake && !isHandshake
        readBuffer := h.readBuffer.consume (length + 4) }

def readExtension : Part Bool := do
  makeRoom
  let h ← get
  if !(← fillReadBuffer host (h.readBuffer.peek32 + 4)) then pure false
  else do
    takeExtension host
    pure true

/-- `read_port`: the port is handed to the DHT. -/
def readPortPart : Part Bool := do
  makeRoom
  let h ← get
  if !(← fillReadBuffer host (h.readBuffer.peek32 + 4)) then pure false
  else do
    consumeRead (h.readBuffer.peek32 + 4)
    pure true

/-- The states `READ_BITFIELD`, `READ_EXT` and `READ_PORT`, after their own part. -/
def messageDone (done : Bool) : Part Next :=
  if !done then pure .stop
  else do
    setState readMessage
    let h ← get
    if h.bitfield.isSome ∧ (h.supportsExtensions = false ∨ h.initialHandshake = false) then do
      readFinished host
      pure .stop
    else pure .again

def startBitfield : Part Next := do
  let h ← get
  let d ← getDownload
  if h.bitfield.isSome ∨ h.readBuffer.peek32 ≠ d.bitfield.length + 1 then throw (.error false .invalidValue)
  else
    let s := (h.readBuffer.remaining.drop 5).take d.bitfield.length
    do
      modify fun h ↦ { h with
        bitfield := some s
        readPos := s.length
        readBuffer := h.readBuffer.consume (5 + s.length)
        state := readBitfield }
      pure .again

def readMessagePart : Part Next := do
  let d ← getDownload
  if d.isMetaDownload then do
    modify fun h ↦ { h with bitfield := some [0x80] }
    readFinished host
    pure .stop
  else do
    modify fun h ↦
      { h with readBuffer := if h.readBuffer.reservedLeft < 5 then h.readBuffer.moveUnused else h.readBuffer }
    let _ ← fillReadBuffer host 5
    let h ← get
    if 4 ≤ h.readBuffer.remaining.length ∧ h.readBuffer.peek32 = 0 then do
      consumeRead 4
      readFinished host
      pure .stop
    else if h.readBuffer.remaining.length < 5 then pure .stop
    else
      let id := h.readBuffer.remaining.getD 4 0
      if id = protocolBitfield then startBitfield
      else if id = protocolExtension ∧ h.initialHandshake then do
        modify fun h ↦ { h with readPos := 0, state := readExt }
        pure .again
      else if id = protocolPort then do
        modify fun h ↦ { h with readPos := 0, state := readPort }
        pure .again
      else do
        modify fun h ↦ { h with readPos := 0 }
        readFinished host
        pure .stop

def readStep : Part Next := do
  match (← get).state with
  | .proxyRead => readProxy host
  | .readEncKey => readEncryptionKey host
  | .readEncSync => readEncryptionSync
  | .readEncSkey => readEncryptionSkey host
  | .readEncNegot => readEncryptionNegotiation host
  | .readEncPad => readEncryptionPad host
  | .readEncIa => readEncryptionIa host
  | .readInfo => readHandshakeInfo host
  | .readPeer => readHandshakePeer host
  | .readMessage | .postHandshake => readMessagePart host
  | .readBitfield => do messageDone host (← readBitfieldPart host)
  | .readExt => do messageDone host (← readExtension host)
  | .readPort => do messageDone host (← readPortPart host)
  | _ => throw (.internal "Handshake::event_read() called in invalid state.")

end LibTorrent.Handshake
