import Tuntom.Packet
import Tuntom.Primitives

/-! `ProtocolV5`: the wire layout of packets, authenticated only or encrypted. A
datagram is the metadata in the clear, a 16-byte tag and the payload. -/
namespace Tuntom

def PacketType.metadataSize : PacketType → Bool → ℕ
  | .data, fragment => if fragment then 21 else 9
  | .ipc, fragment => if fragment then 25 else 9
  | .ping, _ | .pong, _ | .confirm, _ | .confirmAck, _ => 17
  | .mtuProbe, _ | .mtuReply, _ => 19
  | .init, _ | .response, _ => 18
  | _, _ => 9

namespace Packet

def fragmented (p : Packet) : Bool :=
  p.type.carriesFragments && (p.fragmentOffset != 0 || p.originalLength.toNat != p.payload.length)

def metadataSize (p : Packet) : ℕ := p.type.metadataSize p.fragmented

def headerSize (p : Packet) : ℕ := p.metadataSize + 16

/-- INIT and RESPONSE: the suite and the length of the public key close the fixed part. -/
def handshakeRules (p : Packet) (expected : ℕ) : Bool :=
  let suite := loadBe16 p.payload (expected - 4)
  let dhSize := loadBe16 p.payload (expected - 2)
  p.sequence == 0 && p.messageId != 0 && p.fragmentOffset == 0 && p.originalLength == 0 &&
    expected ≤ p.payload.length && suite ≤ 2 && dhSize == (if suite = 2 then 32 else 0) &&
    p.payload.length == expected + dhSize.toNat

/-- The per-type checks at the end of `decode_with_scratch`. -/
def acceptable (p : Packet) : Bool :=
  match p.type with
  | .init => p.handshakeRules 44
  | .response => p.handshakeRules 68
  | .control | .controlChallenge => 32 ≤ p.payload.length
  | .info => (Info.decode p.payload).isSome
  | .authChallenge | .authResponse | .authOk | .authFailed | .relocate | .config | .relocateBind
  | .relocateOk => p.payload != []
  | .confirm | .confirmAck =>
    p.messageId != 0 && p.fragmentOffset == 0 && p.originalLength == 0 && p.payload == [] &&
      p.sequence &&& 0x0000ffffffffffff == 0
  | .data | .ipc =>
    p.messageId != 0 && p.originalLength != 0 && p.payload != [] &&
      p.fragmentOffset.toNat + p.payload.length ≤ p.originalLength.toNat
  | .ping | .pong =>
    p.messageId != 0 && p.fragmentOffset == 0 && p.originalLength == 0 && p.payload == []
  | .mtuProbe =>
    p.messageId != 0 && p.fragmentOffset == 0 && minTransportMtu ≤ p.originalLength.toNat &&
      p.originalLength.toNat ≤ maxIpPacketSize
  | .mtuReply =>
    p.messageId != 0 && p.fragmentOffset == 0 && minTransportMtu ≤ p.originalLength.toNat &&
      p.originalLength.toNat ≤ maxIpPacketSize && p.payload == []
  | .hello | .keepalive =>
    p.messageId == 0 && p.fragmentOffset == 0 && p.originalLength == 0 && p.payload == []

end Packet

structure Codec where
  tunnelId : UInt16
  txKey : Key
  rxKey : Key
  encrypt : Bool := false
  deriving DecidableEq, Repr

namespace Codec

variable (P : Primitives) (c : Codec)

/-- The `ProtocolV5` constructor for the handshake: keys derived from the master key. -/
def handshake (tunnelId : UInt16) (master : Key) (serverMode : Bool) : Codec where
  tunnelId := tunnelId
  txKey := deriveDirectionKey P master tunnelId (!serverMode)
  rxKey := deriveDirectionKey P master tunnelId serverMode

def peer : Codec := { c with txKey := c.rxKey, rxKey := c.txKey }

@[simp] theorem peer_peer : c.peer.peer = c := rfl

/-- The first byte: the type, bit 7 for encryption, bit 6 for the fragment extension. -/
def flags (type : PacketType) (encrypt fragment : Bool) : UInt8 :=
  type.toByte ||| (if encrypt then 0x80 else 0) ||| (if fragment then 0x40 else 0)

def extension (p : Packet) : Bytes :=
  if p.type.handshake then protocolVersionV5 :: storeBe64 p.messageId
  else if p.metadataSize > 9 then
    storeBe64 p.messageId ++
      (if p.fragmented then
        if p.type = .ipc then storeBe32 p.fragmentOffset ++ storeBe32 p.originalLength
        else storeBe16 p.fragmentOffset.toUInt16 ++ storeBe16 p.originalLength.toUInt16
      else if p.metadataSize = 19 then storeBe16 p.originalLength.toUInt16
      else [])
  else []

def metadata (p : Packet) : Bytes :=
  flags p.type c.encrypt p.fragmented :: (storeBe64 p.sequence ++ extension p)

def nonce (sequence : Bytes) : Bytes := List.replicate 8 0 ++ sequence

def sealPayload (header sequence payload : Bytes) : Bytes × Tag :=
  if c.encrypt then P.encrypt c.txKey (nonce sequence) header payload
  else (payload, P.mac c.txKey c.tunnelId (header ++ payload))

/-- The output of `encode_into` for a packet it does not reject. -/
def layout (p : Packet) : Bytes :=
  let sealed := c.sealPayload P (c.metadata p) (storeBe64 p.sequence) p.payload
  c.metadata p ++ (sealed.2.toList ++ sealed.1)

/-- `encode_into`. -/
def encode (p : Packet) : Except String Bytes :=
  if p.fragmentOffset.toNat > p.type.limit ∨ p.originalLength.toNat > p.type.limit ∨
      p.payload.length > p.type.limit then
    .error "Invalid V5 packet metadata"
  else if p.type.handshake ∧ c.encrypt then
    .error "INIT/RESPONSE must use handshake authentication"
  else .ok (c.layout P p)

/-- Authentication and decryption of a datagram with `size` bytes of metadata. -/
def openPayload (data : Bytes) (size : ℕ) : Option Bytes :=
  let header := data.take size
  let tag : Tag := block 16 (field data size 16)
  let body := data.drop (size + 16)
  if c.encrypt then P.decrypt c.rxKey (nonce (field data 1 8)) header body tag
  else if tag = P.mac c.rxKey c.tunnelId (header ++ body) then some body else none

def readFields (type : PacketType) (fragment : Bool) (data payload : Bytes) : Option Packet :=
  let size := type.metadataSize fragment
  let base : Packet :=
    { type, tunnelId := c.tunnelId, sequence := loadBe64 data 1, payload }
  if type.handshake then some { base with messageId := loadBe64 data 10 }
  else if size > 9 then
    if fragment then
      let offset := if type = .ipc then loadBe32 data 17 else (loadBe16 data 17).toUInt32
      let length := if type = .ipc then loadBe32 data 21 else (loadBe16 data 19).toUInt32
      if length.toNat > type.limit then none
      -- a redundant fragment extension is not the canonical layout
      else if offset = 0 ∧ length.toNat = payload.length then none
      else some { base with messageId := loadBe64 data 9, fragmentOffset := offset,
                            originalLength := length }
    else if size = 19 then
      some { base with messageId := loadBe64 data 9,
                       originalLength := (loadBe16 data 17).toUInt32 }
    else some { base with messageId := loadBe64 data 9 }
  else if type.carriesFragments then
    some { base with messageId := base.sequence, originalLength := UInt32.ofNat payload.length }
  else some base

/-- `decode_with_scratch`. -/
def decode (data : Bytes) : Option Packet :=
  let first := data.headD 0
  if data.length < protocolHeaderV5Size then none
  else if (first &&& 0x80 != 0) != c.encrypt ∨ first &&& 0x20 ≠ 0 then none
  else
    match PacketType.ofByte (first &&& 0x1f) with
    | none => none
    | some type =>
      let fragment := first &&& 0x40 != 0
      if fragment ∧ ¬ type.carriesFragments then none
      else
        let size := type.metadataSize fragment
        if data.length < size + 16 ∨ data.length - (size + 16) > type.limit then none
        else if type.handshake ∧ (c.encrypt ∨ data.getD 9 0 ≠ protocolVersionV5) then none
        else do
          let payload ← c.openPayload P data size
          let p ← c.readFields type fragment data payload
          if p.acceptable then some p else none

end Codec

end Tuntom
