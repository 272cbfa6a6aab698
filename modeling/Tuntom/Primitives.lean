import Tuntom.Wire

/-! The cryptographic functions behind the protocol code, and the key derivations
that `ascon.hpp`, `akdf.hpp` and `x25519.hpp` build from them. The protocol is
modelled over any such functions; `Tuntom.Ascon` has the ones of the source. -/
namespace Tuntom

/-- `std::array<std::uint8_t, n>`. -/
abbrev Block (n : ℕ) := Vector UInt8 n

abbrev Key := Block 16
abbrev Tag := Block 16

/-- `std::copy_n` of `n` bytes into a fixed array. -/
def block (n : ℕ) (bytes : Bytes) : Block n := Vector.ofFn fun i => bytes.getD i.val 0

theorem toList_block {n : ℕ} {bytes : Bytes} (h : bytes.length = n) :
    (block n bytes).toList = bytes := by
  subst h
  apply List.ext_getElem
  · simp
  · intro i h₁ h₂
    simp [block]

theorem block_toList {n : ℕ} (b : Block n) : block n b.toList = b := by
  apply Vector.ext
  intro i hi
  simp [block]

/-- Authentication, authenticated encryption and Diffie-Hellman. Decryption
succeeds exactly on what encryption produces, and the ciphertext is as long as
the plaintext. -/
structure Primitives where
  mac : Key → UInt16 → Bytes → Tag
  encrypt : Key → Bytes → Bytes → Bytes → Bytes × Tag
  decrypt : Key → Bytes → Bytes → Bytes → Tag → Option Bytes
  publicKey : Block 32 → Block 32
  x25519 : Block 32 → Block 32 → Block 32
  encrypt_length : ∀ key nonce ad input, (encrypt key nonce ad input).1.length = input.length
  decrypt_iff : ∀ key nonce ad input tag output,
    decrypt key nonce ad input tag = some output ↔ encrypt key nonce ad output = (input, tag)

variable (P : Primitives)

/-- `ascon::derive_direction_key`. -/
def deriveDirectionKey (master : Key) (id : UInt16) (clientToServer : Bool) : Key :=
  P.mac master id
    (ascii (if clientToServer then "TUNTOM-V4-CLIENT-TO-SERVER" else "TUNTOM-V4-SERVER-TO-CLIENT"))

/-- `akdf::extract`: the label carries its terminating NUL. -/
def akdfExtract (psk : Key) (id : UInt16) (dh : Block 32) : Key :=
  P.mac psk id (ascii "TUNTOM-AKDF-v1-EXTRACT" ++ [0] ++ dh.toList)

/-- `akdf::expand`. -/
def akdfExpand (prk : Key) (id : UInt16) (label : String) (transcript : Bytes) : Key :=
  P.mac prk id (ascii label ++ [0] ++ storeBe64 (UInt64.ofNat transcript.length) ++ transcript ++ [1])

/-- `x25519::shared`: an all-zero result is rejected. -/
def shared (secret peer : Block 32) : Option (Block 32) :=
  if P.x25519 secret peer = Vector.replicate 32 0 then none else some (P.x25519 secret peer)

end Tuntom
