import Tuntom.ControlProtocol
import Tuntom.Primitives

/-! The frames of `remote_control.hpp` and their bytes. -/
namespace Tuntom.Control
open BigEndian List

abbrev Id := Block 16

def zeroBlock (n : ℕ) : Block n := Vector.replicate n 0

def proofSize : ℕ := 88
def challengeSize : ℕ := 80

inductive Kind
  | put | status | reply | finish | confirmed | challenge
  deriving DecidableEq, Repr

def Kind.toByte : Kind → UInt8
  | put => 1
  | status => 2
  | reply => 3
  | finish => 4
  | confirmed => 5
  | challenge => 6

def Kind.ofByte (b : UInt8) : Option Kind :=
  [put, status, reply, finish, confirmed, challenge].find? fun k => k.toByte == b

@[simp] theorem Kind.ofByte_toByte (k : Kind) : ofByte k.toByte = some k := by
  cases k <;> rfl

/-- Replies and confirmations travel from the executing side to the submitting one. -/
def Kind.answers (k : Kind) : Bool := k == reply || k == confirmed

inductive State
  | receiving | ready | running | succeeded | failed | rejected | expired | notFound
  deriving DecidableEq, Repr

namespace State

def toByte : State → UInt8
  | receiving => 1
  | ready => 2
  | running => 3
  | succeeded => 4
  | failed => 5
  | rejected => 6
  | expired => 7
  | notFound => 8

def ofByte (b : UInt8) : Option State :=
  [receiving, ready, running, succeeded, failed, rejected, expired, notFound].find?
    fun s => s.toByte == b

@[simp] theorem ofByte_toByte (s : State) : ofByte s.toByte = some s := by
  cases s <;> rfl

def terminal : State → Bool
  | succeeded | failed | rejected | expired => true
  | _ => false

def name : State → Bytes
  | receiving => ascii "RECEIVING"
  | ready => ascii "READY"
  | running => ascii "RUNNING"
  | succeeded => ascii "SUCCEEDED"
  | failed => ascii "FAILED"
  | rejected => ascii "REJECTED"
  | expired => ascii "EXPIRED"
  | notFound => ascii "NOT_FOUND"

end State

structure Frame where
  kind : Kind := .status
  state : State := .receiving
  id : Id := zeroBlock 16
  offset : UInt32 := 0
  total : UInt32 := 0
  command : Bytes := []
  data : Bytes := []
  auth : Bytes := []
  deriving DecidableEq, Repr

namespace Frame

variable (f : Frame)

def version : UInt8 := if f.auth ≠ [] ∨ f.kind = .challenge then 3 else 1

def fixed : Bytes :=
  f.id.toList ++ (storeBe32 f.offset ++ (storeBe32 f.total ++
    (storeBe16 (UInt16.ofNat f.command.length) ++ storeBe16 (UInt16.ofNat f.auth.length))))

def bytes : Bytes :=
  [f.version, f.kind.toByte, f.state.toByte, 0] ++ (f.fixed ++ (f.auth ++ (f.command ++ f.data)))

/-- What `encode` does not throw on. -/
def Encodable : Prop :=
  f.command.length ≤ 256 ∧ (f.auth = [] ∨ f.auth.length = proofSize)

instance (f : Frame) : Decidable f.Encodable := inferInstanceAs (Decidable (_ ∧ _))

def encode : Option Bytes := if f.Encodable then some f.bytes else none

/-- The checks that `decode` makes on a frame once it is read. -/
def acceptable (version : UInt8) (f : Frame) : Bool :=
  if f.kind = .challenge then
    f.id ≠ zeroBlock 16 ∧ version = 3 ∧ f.auth = [] ∧ f.command = [] ∧ f.state = .receiving ∧
      f.offset = 0 ∧ f.total = 0 ∧ f.data.length = challengeSize
  else if f.kind ≠ .put ∧ f.command ≠ [] then false
  else if (f.kind = .status ∨ f.kind = .finish ∨ f.kind = .confirmed) ∧ f.data ≠ [] then false
  else f.id ≠ zeroBlock 16

/-- The variable part behind the header, with the lengths the header gives. -/
def readBody (b : Bytes) (version : UInt8) (kind : Kind) (state : State) : Option Frame :=
  let n := (loadBe16 b 28).toNat
  let auth := (loadBe16 b 30).toNat
  if (version = 1 ∧ (auth ≠ 0 ∨ kind = .challenge)) ∨ (auth ≠ 0 ∧ auth ≠ proofSize) then none
  else if 256 < n ∨ b.length < 32 + n + auth then none
  else some
    { kind, state
      id := block 16 (field b 4 16)
      offset := loadBe32 b 20
      total := loadBe32 b 24
      auth := field b 32 auth
      command := field b (32 + auth) n
      data := b.drop (32 + auth + n) }

def read (b : Bytes) : Option Frame :=
  if b.length < 32 ∨ (b.getD 0 0 ≠ 1 ∧ b.getD 0 0 ≠ 3) ∨ b.getD 3 0 ≠ 0 then none
  else
    match Kind.ofByte (b.getD 1 0), State.ofByte (b.getD 2 0) with
    | some kind, some state => readBody b (b.getD 0 0) kind state
    | _, _ => none

def decode (b : Bytes) : Option Frame := (read b).filter (acceptable (b.getD 0 0))

theorem version_eq : f.version = 1 ∨ f.version = 3 := by
  rw [version]
  split
  · exact .inr rfl
  · exact .inl rfl

theorem length_fixed : f.fixed.length = 28 := by
  simp [fixed]

theorem length_bytes :
    f.bytes.length = 32 + f.auth.length + f.command.length + f.data.length := by
  simp only [bytes, length_append, length_cons, length_nil, length_fixed]
  omega

theorem auth_length_lt {f : Frame} (h : f.Encodable) : f.auth.length < 2 ^ 16 := by
  rcases h.2 with ha | ha
  · rw [ha]; decide
  · rw [ha]; decide

theorem readBody_lengths {f : Frame} (h : f.Encodable) :
    (loadBe16 f.bytes 28).toNat = f.command.length ∧ (loadBe16 f.bytes 30).toNat = f.auth.length := by
  have hc : f.command.length < 2 ^ 16 := by have := h.1; omega
  have ha := auth_length_lt h
  constructor
  · have hload : loadBe16 f.bytes 28 = UInt16.ofNat f.command.length := by
      have hsplit : f.bytes = ([f.version, f.kind.toByte, f.state.toByte, 0] ++ f.id.toList ++
          storeBe32 f.offset ++ storeBe32 f.total) ++ (storeBe16 (UInt16.ofNat f.command.length) ++
          (storeBe16 (UInt16.ofNat f.auth.length) ++ (f.auth ++ (f.command ++ f.data)))) := by
        simp only [bytes, fixed, append_assoc]
      rw [hsplit]
      exact loadBe16_store _ (by simp)
    rw [hload, UInt16.toNat_ofNat_of_lt' hc]
  · have hload : loadBe16 f.bytes 30 = UInt16.ofNat f.auth.length := by
      have hsplit : f.bytes = ([f.version, f.kind.toByte, f.state.toByte, 0] ++ f.id.toList ++
          storeBe32 f.offset ++ storeBe32 f.total ++ storeBe16 (UInt16.ofNat f.command.length)) ++
          (storeBe16 (UInt16.ofNat f.auth.length) ++ (f.auth ++ (f.command ++ f.data))) := by
        simp only [bytes, fixed, append_assoc]
      rw [hsplit]
      exact loadBe16_store _ (by simp)
    rw [hload, UInt16.toNat_ofNat_of_lt' ha]

theorem readBody_header :
    field f.bytes 4 16 = f.id.toList ∧ loadBe32 f.bytes 20 = f.offset ∧
      loadBe32 f.bytes 24 = f.total := by
  refine ⟨?_, ?_, ?_⟩
  · rw [bytes, fixed, append_assoc]
    exact field_append rfl (by simp)
  · have hsplit : f.bytes = ([f.version, f.kind.toByte, f.state.toByte, 0] ++ f.id.toList) ++
        (storeBe32 f.offset ++ (storeBe32 f.total ++ (storeBe16 (UInt16.ofNat f.command.length) ++
        (storeBe16 (UInt16.ofNat f.auth.length) ++ (f.auth ++ (f.command ++ f.data)))))) := by
      simp only [bytes, fixed, append_assoc]
    rw [hsplit]
    exact loadBe32_store _ (by simp)
  · have hsplit : f.bytes = ([f.version, f.kind.toByte, f.state.toByte, 0] ++ f.id.toList ++
        storeBe32 f.offset) ++ (storeBe32 f.total ++ (storeBe16 (UInt16.ofNat f.command.length) ++
        (storeBe16 (UInt16.ofNat f.auth.length) ++ (f.auth ++ (f.command ++ f.data))))) := by
      simp only [bytes, fixed, append_assoc]
    rw [hsplit]
    exact loadBe32_store _ (by simp)

theorem readBody_tail :
    field f.bytes 32 f.auth.length = f.auth ∧
      field f.bytes (32 + f.auth.length) f.command.length = f.command ∧
      f.bytes.drop (32 + f.auth.length + f.command.length) = f.data := by
  have hfront : ([f.version, f.kind.toByte, f.state.toByte, 0] ++ f.fixed).length = 32 := by
    simp [length_fixed]
  refine ⟨?_, ?_, ?_⟩
  · rw [bytes, ← append_assoc]
    exact field_append hfront rfl
  · rw [bytes, ← append_assoc, ← append_assoc]
    refine field_append ?_ rfl
    rw [length_append, hfront]
  · rw [bytes, ← append_assoc, ← append_assoc, ← append_assoc]
    refine drop_left' ?_
    rw [length_append, length_append, hfront]

theorem readBody_bytes {f : Frame} (h : f.Encodable) :
    readBody f.bytes f.version f.kind f.state = some f := by
  obtain ⟨hcommand, hauth⟩ := readBody_lengths h
  obtain ⟨hid, hoffset, htotal⟩ := readBody_header f
  obtain ⟨htail, hmid, hdata⟩ := readBody_tail f
  have hversion : ¬((f.version = 1 ∧ (f.auth.length ≠ 0 ∨ f.kind = .challenge)) ∨
      (f.auth.length ≠ 0 ∧ f.auth.length ≠ proofSize)) := by
    rintro (⟨hv, hbad⟩ | ⟨hne, hsize⟩)
    · rw [version] at hv
      split at hv
      next => exact absurd hv (by decide)
      next hnone =>
      refine hnone (hbad.imp_left fun hlen hnil => hlen ?_)
      rw [hnil, length_nil]
    · rcases h.2 with hnil | hlen
      · exact hne (by rw [hnil, length_nil])
      · exact hsize hlen
  have hroom : ¬(256 < f.command.length ∨
      f.bytes.length < 32 + f.command.length + f.auth.length) := by
    have hlen := length_bytes f
    have hle := h.1
    omega
  rw [readBody, hcommand, hauth]
  simp only [if_neg hversion, if_neg hroom, hid, hoffset, htotal, htail, hmid, hdata, block_toList]

theorem read_bytes {f : Frame} (h : f.Encodable) : read f.bytes = some f := by
  have hlen := length_bytes f
  have hfirst : f.bytes.getD 0 0 = f.version ∧ f.bytes.getD 1 0 = f.kind.toByte ∧
      f.bytes.getD 2 0 = f.state.toByte ∧ f.bytes.getD 3 0 = 0 := ⟨rfl, rfl, rfl, rfl⟩
  have hpass : ¬(f.bytes.length < 32 ∨ (f.version ≠ 1 ∧ f.version ≠ 3) ∨ (0 : UInt8) ≠ 0) := by
    rintro (hshort | ⟨h1, h3⟩ | h0)
    · omega
    · exact (version_eq f).elim h1 h3
    · exact h0 rfl
  obtain ⟨h0, h1, h2, h3⟩ := hfirst
  rw [read, h0, h1, h2, h3, if_neg hpass, Kind.ofByte_toByte, State.ofByte_toByte]
  exact readBody_bytes h

theorem decode_encode {f g : Frame} {b : Bytes} (h : f.encode = some b) (hd : decode b = some g) :
    g = f := by
  rw [encode] at h
  split at h
  next hf =>
    cases h
    rw [decode, read_bytes hf, Option.filter_eq_some_iff] at hd
    exact (Option.some.inj hd.1).symm
  next => cases h

end Frame

end Tuntom.Control
