import Tuntom.Packet
import Tuntom.Primitives

/-! The V5 session extension messages of `v5_extension.hpp`. An encoder that refuses its
value returns no bytes. -/
namespace Tuntom

def extensionFormat : UInt8 := 1
def maxAuthField : ℕ := 4096
def maxConfigSize : ℕ := 16384

inductive AuthMethod
  | passwordChallenge
  deriving DecidableEq, Repr

def AuthMethod.toByte : AuthMethod → UInt8
  | .passwordChallenge => 1

/-- `v5ext::method`. -/
def AuthMethod.ofByte (b : UInt8) : Option AuthMethod :=
  if b = 1 then some .passwordChallenge else none

inductive AuthFailure
  | rejected | expired | unsupported | malformed | temporaryFailure | serverError
  deriving DecidableEq, Repr

def AuthFailure.toUInt16 : AuthFailure → UInt16
  | .rejected => 1
  | .expired => 2
  | .unsupported => 3
  | .malformed => 4
  | .temporaryFailure => 5
  | .serverError => 6

structure AuthChallenge where
  method : AuthMethod := .passwordChallenge
  id : UInt64 := 0
  lifetimeSeconds : UInt32 := 0
  challenge : Bytes := []
  deriving DecidableEq, Repr

def AuthChallenge.encode (v : AuthChallenge) : Bytes :=
  if v.id = 0 ∨ v.lifetimeSeconds = 0 ∨ maxAuthField < v.challenge.length then []
  else
    [extensionFormat, v.method.toByte] ++ storeBe16 0 ++ storeBe64 v.id ++
      storeBe32 v.lifetimeSeconds ++ storeBe32 (UInt32.ofNat v.challenge.length) ++ v.challenge

structure AuthResponse where
  method : AuthMethod := .passwordChallenge
  id : UInt64 := 0
  username : Bytes := []
  response : Bytes := []
  deriving DecidableEq, Repr

def AuthResponse.encode (v : AuthResponse) : Bytes :=
  if v.id = 0 ∨ v.username = [] ∨ 255 < v.username.length ∨ maxAuthField < v.response.length then []
  else
    [extensionFormat, v.method.toByte, UInt8.ofNat v.username.length, 0] ++ storeBe64 v.id ++
      storeBe32 (UInt32.ofNat v.response.length) ++ v.username ++ v.response

def AuthResponse.decode (b : Bytes) : Option AuthResponse :=
  if b.length < 16 ∨ b.getD 0 0 ≠ extensionFormat ∨ b.getD 3 0 ≠ 0 then none
  else
    match AuthMethod.ofByte (b.getD 1 0) with
    | none => none
    | some method =>
      let un := (b.getD 2 0).toNat
      let rn := (loadBe32 b 12).toNat
      let id := loadBe64 b 4
      if id = 0 ∨ un = 0 ∨ maxAuthField < rn ∨ b.length ≠ 16 + un + rn then none
      else if (field b 16 un).any fun c => c < 0x21 || 0x7e < c then none
      else some
        { method := method, id := id, username := field b 16 un, response := b.drop (16 + un) }

theorem AuthResponse.id_ne_zero_of_decode {b : Bytes} {v : AuthResponse}
    (h : AuthResponse.decode b = some v) : v.id ≠ 0 := by
  unfold decode at h
  split at h
  · cases h
  split at h
  · cases h
  dsimp only at h
  split at h
  · cases h
  next hsizes =>
  split at h
  · cases h
  · cases h
    exact fun hzero => hsizes (.inl hzero)

/-- `AUTH_OK`, by the id of the challenge. -/
def encodeAuthOk (id : UInt64) : Bytes :=
  if id = 0 then [] else [extensionFormat, 0, 0, 0] ++ storeBe64 id

structure AuthFailed where
  id : UInt64 := 0
  reason : AuthFailure := .rejected
  retryAfterSeconds : UInt32 := 0
  deriving DecidableEq, Repr

def AuthFailed.encode (v : AuthFailed) : Bytes :=
  if v.id = 0 then []
  else [extensionFormat, 0] ++ storeBe16 v.reason.toUInt16 ++ storeBe64 v.id ++
    storeBe32 v.retryAfterSeconds

structure Relocate where
  port : UInt16 := 0
  lifetimeSeconds : UInt32 := 0
  /-- 0 stands for the source address of the message. -/
  family : UInt8 := 0
  address : Block 16 := Vector.replicate 16 0
  token : Block 32 := Vector.replicate 32 0
  binder : Block 32 := Vector.replicate 32 0
  deriving DecidableEq, Repr

/-- The address bytes of a family; other families are refused. -/
def Relocate.addressSize (family : UInt8) : Option ℕ :=
  if family = 0 then some 0 else if family = 4 then some 4 else if family = 6 then some 16 else none

def Relocate.encode (v : Relocate) : Bytes :=
  match addressSize v.family with
  | none => []
  | some an =>
    if v.port = 0 ∨ v.lifetimeSeconds = 0 then []
    else
      [extensionFormat, v.family] ++ storeBe16 v.port ++ storeBe32 v.lifetimeSeconds ++
        storeBe16 32 ++ storeBe16 32 ++ v.token.toList ++ v.binder.toList ++ v.address.toList.take an

structure ConfigItem where
  type : UInt16
  required : Bool
  value : Bytes
  deriving DecidableEq, Repr

structure AccessConfig where
  id : UInt64
  items : List ConfigItem
  deriving DecidableEq, Repr

/-- The items of a CONFIG message from position `position` on. -/
def AccessConfig.decodeItems (b : Bytes) : ℕ → ℕ → Option (List ConfigItem)
  | 0, position => if position = b.length then some [] else none
  | count + 1, position =>
    let flags := loadBe16 b (position + 2)
    let size := (loadBe16 b (position + 4)).toNat
    if b.length < position + 8 then none
    else if 1 < flags ∨ loadBe16 b (position + 6) ≠ 0 ∨ b.length < position + 8 + size then none
    else
      (decodeItems b count (position + 8 + size)).map fun items =>
        ⟨loadBe16 b position, flags = 1, field b (position + 8) size⟩ :: items

def AccessConfig.decode (b : Bytes) : Option AccessConfig :=
  if b.length < 16 ∨ maxConfigSize < b.length ∨ b.getD 0 0 ≠ extensionFormat ∨ b.getD 1 0 ≠ 0 ∨
      loadBe16 b 2 ≠ 0 ∨ loadBe16 b 14 ≠ 0 then none
  else
    let id := loadBe64 b 4
    if id = 0 then none
    else (decodeItems b (loadBe16 b 12).toNat 16).map fun items => ⟨id, items⟩

/-! ### What a client and a worker read -/

def AuthChallenge.decode (b : Bytes) : Option AuthChallenge :=
  if b.length < 20 ∨ b.getD 0 0 ≠ extensionFormat ∨ loadBe16 b 2 ≠ 0 then none
  else
    match AuthMethod.ofByte (b.getD 1 0) with
    | none => none
    | some method =>
      let id := loadBe64 b 4
      let lifetime := loadBe32 b 12
      let n := (loadBe32 b 16).toNat
      if id = 0 ∨ lifetime = 0 ∨ maxAuthField < n ∨ b.length ≠ 20 + n then none
      else some { method := method, id := id, lifetimeSeconds := lifetime, challenge := b.drop 20 }

/-- The id of an `AUTH_OK`. -/
def decodeAuthOk (b : Bytes) : Option UInt64 :=
  if b.length ≠ 12 ∨ b.getD 0 0 ≠ extensionFormat ∨ b.getD 1 0 ≠ 0 ∨ loadBe16 b 2 ≠ 0 then none
  else if loadBe64 b 4 = 0 then none else some (loadBe64 b 4)

def AuthFailure.ofUInt16 (v : UInt16) : Option AuthFailure :=
  [rejected, expired, unsupported, malformed, temporaryFailure, serverError].find? (·.toUInt16 = v)

def AuthFailed.decode (b : Bytes) : Option AuthFailed :=
  if b.length ≠ 16 ∨ b.getD 0 0 ≠ extensionFormat ∨ b.getD 1 0 ≠ 0 ∨ loadBe64 b 4 = 0 then none
  else
    (AuthFailure.ofUInt16 (loadBe16 b 2)).map fun reason =>
      { id := loadBe64 b 4, reason := reason, retryAfterSeconds := loadBe32 b 12 }

def Relocate.decode (b : Bytes) : Option Relocate :=
  if b.length < 12 ∨ b.getD 0 0 ≠ extensionFormat then none
  else
    match addressSize (b.getD 1 0) with
    | none => none
    | some an =>
      if b.length ≠ 12 + 32 + 32 + an ∨ loadBe16 b 8 ≠ 32 ∨ loadBe16 b 10 ≠ 32 then none
      else if loadBe16 b 2 = 0 ∨ loadBe32 b 4 = 0 then none
      else some
        { port := loadBe16 b 2, lifetimeSeconds := loadBe32 b 4, family := b.getD 1 0
          address := block 16 (field b 76 an), token := block 32 (field b 12 32)
          binder := block 32 (field b 44 32) }

structure RelocateBind where
  token : Block 32
  binder : Block 32
  deriving DecidableEq, Repr

def RelocateBind.encode (v : RelocateBind) : Bytes :=
  [extensionFormat, 0, 0, 0] ++ v.token.toList ++ v.binder.toList

def RelocateBind.decode (b : Bytes) : Option RelocateBind :=
  if b.length ≠ 4 + 32 + 32 ∨ b.getD 0 0 ≠ extensionFormat ∨ b.getD 1 0 ≠ 0 ∨ loadBe16 b 2 ≠ 0 then
    none
  else some ⟨block 32 (field b 4 32), block 32 (field b 36 32)⟩

/-- `RELOCATE_OK`, by the token. -/
def encodeRelocateOk (token : Block 32) : Bytes := [extensionFormat, 0, 0, 0] ++ token.toList

def decodeRelocateOk (b : Bytes) : Option (Block 32) :=
  if b.length ≠ 4 + 32 ∨ b.getD 0 0 ≠ extensionFormat ∨ b.getD 1 0 ≠ 0 ∨ loadBe16 b 2 ≠ 0 then none
  else some (block 32 (field b 4 32))

/-- The loop of `encode` over the items; a message that grows too long is given up. -/
def AccessConfig.encodeItems : Bytes → List ConfigItem → Bytes
  | b, [] => b
  | b, i :: items =>
    if 65535 < i.value.length then []
    else
      let b := b ++ storeBe16 i.type ++ storeBe16 (if i.required then 1 else 0) ++
        storeBe16 (UInt16.ofNat i.value.length) ++ storeBe16 0 ++ i.value
      if maxConfigSize < b.length then [] else encodeItems b items

def AccessConfig.encode (v : AccessConfig) : Bytes :=
  if v.id = 0 then []
  else
    encodeItems ([extensionFormat, 0, 0, 0] ++ storeBe64 v.id ++
      storeBe16 (UInt16.ofNat v.items.length) ++ storeBe16 0) v.items

end Tuntom
