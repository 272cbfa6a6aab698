import Tuntom.Wire

/-! The packets of `packet_types.hpp`, the limits of `protocol_constants.hpp`, and
the INFO payload reader of `info_codec.hpp`. -/
namespace Tuntom

def protocolVersionV5 : UInt8 := 5
def protocolHeaderV5Size : ℕ := 25
def minTransportMtu : ℕ := 500
def maxIpPacketSize : ℕ := 65535
def maxIpcPacketSize : ℕ := maxIpPacketSize + 72 + 32

abbrev Time := ℤ

def second : Time := 1000000000

inductive PacketType
  | hello | keepalive | data | ping | pong | mtuProbe | mtuReply | init | response | confirm
  | confirmAck | ipc | info | control | controlChallenge | authChallenge | authResponse | authOk
  | authFailed | relocate | config | relocateBind | relocateOk
  deriving DecidableEq, Repr

namespace PacketType

def toByte : PacketType → UInt8
  | hello => 1
  | keepalive => 2
  | data => 3
  | ping => 4
  | pong => 5
  | mtuProbe => 6
  | mtuReply => 7
  | init => 8
  | response => 9
  | confirm => 10
  | confirmAck => 11
  | ipc => 12
  | info => 13
  | control => 14
  | controlChallenge => 15
  | authChallenge => 16
  | authResponse => 17
  | authOk => 18
  | authFailed => 19
  | relocate => 20
  | config => 21
  | relocateBind => 22
  | relocateOk => 23

def all : List PacketType :=
  [hello, keepalive, data, ping, pong, mtuProbe, mtuReply, init, response, confirm, confirmAck, ipc,
    info, control, controlChallenge, authChallenge, authResponse, authOk, authFailed, relocate,
    config, relocateBind, relocateOk]

/-- The cast from the wire; values without an enumerator have no metadata layout. -/
def ofByte (b : UInt8) : Option PacketType := all.find? fun t => t.toByte == b

@[simp] theorem ofByte_toByte (t : PacketType) : ofByte t.toByte = some t := by
  cases t <;> rfl

theorem toByte_of_ofByte {b : UInt8} {t : PacketType} (h : ofByte b = some t) : t.toByte = b := by
  simpa using List.find?_some h

def handshake (t : PacketType) : Bool := t == init || t == response

def carriesFragments (t : PacketType) : Bool := t == data || t == ipc

def limit (t : PacketType) : ℕ := if t = ipc then maxIpcPacketSize else maxIpPacketSize

end PacketType

@[ext]
structure Packet where
  type : PacketType := .data
  tunnelId : UInt16 := 0
  protocolVersion : UInt8 := protocolVersionV5
  sequence : UInt64 := 0
  messageId : UInt64 := 0
  fragmentOffset : UInt32 := 0
  originalLength : UInt32 := 0
  payload : Bytes := []
  deriving DecidableEq, Repr

/-! ### INFO -/

namespace Info

def maxPayload : ℕ := 4096

/-- `std::map<std::string, std::string>`, in key order. -/
abbrev Fields := List (Bytes × Bytes)

/-- `std::map::emplace(...).second`: an existing key is not replaced. -/
def emplace (key value : Bytes) : Fields → Option Fields
  | [] => some [(key, value)]
  | (k, v) :: rest =>
    match compare key k with
    | .lt => some ((key, value) :: (k, v) :: rest)
    | .eq => none
    | .gt => (emplace key value rest).map ((k, v) :: ·)

def lowercase (c : UInt8) : Bool := 97 ≤ c && c ≤ 122

def validKey : Bytes → Bool
  | [] => false
  | c :: rest =>
    lowercase c && (c :: rest).all fun c => lowercase c || (48 ≤ c && c ≤ 57) || c == 95

def blank (c : UInt8) : Bool := c == 32 || c == 9

def trimValue (value : Bytes) : Bytes := ((value.dropWhile blank).reverse.dropWhile blank).reverse

/-- The lines of the decoding loop: a final newline ends the last line, it opens no other. -/
def lines : Bytes → List Bytes
  | [] => []
  | c :: rest =>
    if c = 10 then [] :: lines rest
    else match lines rest with
      | [] => [[c]]
      | line :: more => (c :: line) :: more

def decodeLine (fields : Fields) (line : Bytes) : Option Fields :=
  if 61 ∈ line then
    let key := line.takeWhile (· != 61)
    if validKey key then emplace key (trimValue (line.drop (key.length + 1))) fields else none
  else none

def decode (payload : Bytes) : Option Fields :=
  if payload.length = 0 ∨ payload.length > maxPayload then none
  else if payload.any fun c => (c < 0x20 || c > 0x7e) && c != 9 && c != 10 then none
  else (lines payload).foldlM decodeLine []

end Info

end Tuntom
