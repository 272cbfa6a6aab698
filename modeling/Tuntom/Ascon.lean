import Tuntom.Primitives

/-! The primitives of `ascon.hpp`: the permutation, the AMAC sponge and
Ascon-AEAD128. Every loop of `Aead128::crypt` runs the same number of times in
both directions, and one direction undoes the other block by block. -/
namespace Tuntom.Ascon
open List

/-- `std::array<std::uint64_t, 5>`. -/
structure Lanes where
  s0 : UInt64
  s1 : UInt64
  s2 : UInt64
  s3 : UInt64
  s4 : UInt64
  deriving DecidableEq, Repr

def rotateRight (value shift : UInt64) : UInt64 := (value >>> shift) ||| (value <<< (64 - shift))

def roundConstants : List UInt64 :=
  [0xf0, 0xe1, 0xd2, 0xc3, 0xb4, 0xa5, 0x96, 0x87, 0x78, 0x69, 0x5a, 0x4b]

/-- One pass of the loop in `permute`. -/
def permuteRound (s : Lanes) (constant : UInt64) : Lanes :=
  let x0 := s.s0 ^^^ s.s4
  let x1 := s.s1
  let x2 := (s.s2 ^^^ constant) ^^^ s.s1
  let x3 := s.s3
  let x4 := s.s4 ^^^ s.s3
  -- 64 parallel S-boxes
  let t0 := ~~~x0 &&& x1
  let t1 := ~~~x1 &&& x2
  let t2 := ~~~x2 &&& x3
  let t3 := ~~~x3 &&& x4
  let t4 := ~~~x4 &&& x0
  let y0 := x0 ^^^ t1
  let y1 := x1 ^^^ t2
  let y2 := x2 ^^^ t3
  let y3 := x3 ^^^ t4
  let y4 := x4 ^^^ t0
  let z1 := y1 ^^^ y0
  let z0 := y0 ^^^ y4
  let z3 := y3 ^^^ y2
  let z2 := ~~~y2
  ⟨z0 ^^^ (rotateRight z0 19 ^^^ rotateRight z0 28),
   z1 ^^^ (rotateRight z1 61 ^^^ rotateRight z1 39),
   z2 ^^^ (rotateRight z2 1 ^^^ rotateRight z2 6),
   z3 ^^^ (rotateRight z3 10 ^^^ rotateRight z3 17),
   y4 ^^^ (rotateRight y4 7 ^^^ rotateRight y4 41)⟩

def permute (s : Lanes) (rounds : ℕ) : Lanes :=
  (roundConstants.drop (12 - rounds)).foldl permuteRound s

def loadLe64 (data : Bytes) (offset : ℕ) : UInt64 :=
  UInt64.ofNat (BigEndian.value (field data offset 8).reverse)

def storeLe64 (v : UInt64) : Bytes := (BigEndian.digits 8 v.toNat).reverse

/-! ### AMAC -/

/-- `while (size >= 8)` of `ascon::mac`. -/
def macBlocks : ℕ → Lanes → Bytes → Lanes × Bytes
  | 0, s, data => (s, data)
  | n + 1, s, data =>
    macBlocks n (permute { s with s0 := s.s0 ^^^ loadBe64 data 0 } 8) (data.drop 8)

def mac (key : Key) (tunnelId : UInt16) (data : Bytes) : Tag :=
  let k0 := loadBe64 key.toList 0
  let k1 := loadBe64 key.toList 8
  let id := tunnelId.toUInt64
  let s := permute ⟨0x54554e544f4d4d41, k0, k1, id, ~~~id⟩ 12
  let (s, rest) := macBlocks (data.length / 8) { s with s3 := s.s3 ^^^ k0, s4 := s.s4 ^^^ k1 } data
  let finalBlock := rest ++ [0x80] ++ List.replicate (7 - rest.length) 0
  let s := permute
    ⟨s.s0 ^^^ loadBe64 finalBlock 0, s.s1 ^^^ k0, s.s2 ^^^ k1, s.s3, s.s4 ^^^ 1⟩ 12
  block 16 (storeBe64 (s.s3 ^^^ k0) ++ storeBe64 (s.s4 ^^^ k1))

/-! ### Ascon-AEAD128 -/

/-- `s[i]` for the two lanes of the rate. -/
def Lanes.rate (s : Lanes) (i : ℕ) : UInt64 := if i = 0 then s.s0 else s.s1

def Lanes.setRate (s : Lanes) (i : ℕ) (v : UInt64) : Lanes :=
  if i = 0 then { s with s0 := v } else { s with s1 := v }

/-- `while (ad_size >= 16)`. -/
def adBlocks : ℕ → Lanes → Bytes → Lanes × Bytes
  | 0, s, ad => (s, ad)
  | n + 1, s, ad =>
    adBlocks n (permute { s with s0 := s.s0 ^^^ loadLe64 ad 0, s1 := s.s1 ^^^ loadLe64 ad 8 } 8)
      (ad.drop 16)

/-- `s[i / 8] ^= byte << (8 * (i % 8))`. -/
def xorByte (s : Lanes) (i : ℕ) (b : UInt64) : Lanes :=
  s.setRate (i / 8) (s.rate (i / 8) ^^^ (b <<< UInt64.ofNat (8 * (i % 8))))

def adTail : ℕ → Lanes → Bytes → Lanes
  | i, s, [] => xorByte s i 1
  | i, s, b :: rest => adTail (i + 1) (xorByte s i b.toUInt64) rest

def absorb (s : Lanes) (ad : Bytes) : Lanes :=
  if ad.length = 0 then s else
    let (s, rest) := adBlocks (ad.length / 16) s ad
    permute (adTail 0 s rest) 8

/-- `while (size >= 16)`: the output, the state and the unread input. -/
def bulk (decrypting : Bool) : ℕ → Lanes → Bytes → Bytes × Lanes × Bytes
  | 0, s, input => ([], s, input)
  | n + 1, s, input =>
    let a := loadLe64 input 0
    let b := loadLe64 input 8
    let s' := if decrypting then { s with s0 := a, s1 := b }
      else { s with s0 := s.s0 ^^^ a, s1 := s.s1 ^^^ b }
    let rest := bulk decrypting n (permute s' 8) (input.drop 16)
    (storeLe64 (s.s0 ^^^ a) ++ storeLe64 (s.s1 ^^^ b) ++ rest.1, rest.2)

def tailByte (decrypting : Bool) (lane shift : UInt64) (b : UInt8) : UInt8 × UInt64 :=
  (((lane >>> shift) ^^^ b.toUInt64).toUInt8,
    if decrypting then (lane &&& ~~~(255 <<< shift)) ||| (b.toUInt64 <<< shift)
    else lane ^^^ (b.toUInt64 <<< shift))

def tail (decrypting : Bool) : ℕ → Lanes → Bytes → Bytes × Lanes
  | _, s, [] => ([], s)
  | i, s, b :: input =>
    let step := tailByte decrypting (s.rate (i / 8)) (UInt64.ofNat (8 * (i % 8))) b
    let rest := tail decrypting (i + 1) (s.setRate (i / 8) step.2) input
    (step.1 :: rest.1, rest.2)

/-- `Aead128::crypt` up to the associated data and its domain separator. -/
def start (key : Key) (nonce ad : Bytes) : Lanes :=
  let k0 := loadLe64 key.toList 0
  let k1 := loadLe64 key.toList 8
  let s := permute ⟨0x00001000808c0001, k0, k1, loadLe64 nonce 0, loadLe64 nonce 8⟩ 12
  let s := absorb { s with s3 := s.s3 ^^^ k0, s4 := s.s4 ^^^ k1 } ad
  { s with s4 := s.s4 ^^^ 0x8000000000000000 }

def body (decrypting : Bool) (s : Lanes) (input : Bytes) : Bytes × Lanes :=
  let (out, s, rest) := bulk decrypting (input.length / 16) s input
  let (last, s) := tail decrypting 0 s rest
  (out ++ last, xorByte s rest.length 1)

def finish (key : Key) (s : Lanes) : Tag :=
  let k0 := loadLe64 key.toList 0
  let k1 := loadLe64 key.toList 8
  let s := permute { s with s2 := s.s2 ^^^ k0, s3 := s.s3 ^^^ k1 } 12
  block 16 (storeLe64 (s.s3 ^^^ k0) ++ storeLe64 (s.s4 ^^^ k1))

/-- `Aead128::crypt`. -/
def crypt (decrypting : Bool) (key : Key) (nonce ad input : Bytes) : Bytes × Tag :=
  let (out, s) := body decrypting (start key nonce ad) input
  (out, finish key s)

def encrypt (key : Key) (nonce ad input : Bytes) : Bytes × Tag := crypt false key nonce ad input

def decrypt (key : Key) (nonce ad input : Bytes) (tag : Tag) : Option Bytes :=
  if (crypt true key nonce ad input).2 = tag then some (crypt true key nonce ad input).1 else none

/-! ### Each direction of `crypt` undoes the other -/

theorem xor_xor_cancel (a b : UInt64) : a ^^^ (a ^^^ b) = b := by
  rw [← UInt64.xor_assoc, UInt64.xor_self, UInt64.zero_xor]

@[simp] theorem length_storeLe64 (v : UInt64) : (storeLe64 v).length = 8 := by
  simp [storeLe64]

theorem loadLe64_store {front back : Bytes} {offset : ℕ} (v : UInt64) (h : front.length = offset) :
    loadLe64 (front ++ (storeLe64 v ++ back)) offset = v := by
  have hv : v.toNat < 256 ^ 8 := v.toNat_lt
  rw [loadLe64, field_append h (length_storeLe64 v), storeLe64, reverse_reverse,
    BigEndian.value_digits_of_lt hv]
  exact UInt64.ofNat_toNat

theorem storeLe64_load {data : Bytes} {offset : ℕ} (h : offset + 8 ≤ data.length) :
    storeLe64 (loadLe64 data offset) = field data offset 8 := by
  have hl : (field data offset 8).reverse.length = 8 := by
    rw [length_reverse, length_field h]
  have hv := BigEndian.value_lt (field data offset 8).reverse
  rw [hl] at hv
  rw [storeLe64, loadLe64, UInt64.toNat_ofNat_of_lt' hv, BigEndian.digits_value_of_length hl,
    reverse_reverse]

theorem laneByte_cancel (lane : BitVec 64) (b : BitVec 8) (n : ℕ) :
    ((lane >>> n) ^^^ (((lane >>> n) ^^^ b.setWidth 64).setWidth 8).setWidth 64).setWidth 8 =
      b := by
  ext i hi
  have h64 : i < 64 := by omega
  simp only [BitVec.getElem_setWidth, BitVec.getLsbD_xor, BitVec.getLsbD_ushiftRight,
    BitVec.getLsbD_setWidth, hi, h64, decide_true, Bool.true_and]
  simp [BitVec.getLsbD_eq_getElem hi]

theorem laneByte_set (lane : BitVec 64) (b : BitVec 8) (n : ℕ) (hn : n + 8 ≤ 64) :
    (lane &&& ~~~(255#64 <<< n)) |||
        ((((lane >>> n) ^^^ b.setWidth 64).setWidth 8).setWidth 64 <<< n) =
      lane ^^^ (b.setWidth 64 <<< n) := by
  ext i hi
  have h255 : ∀ j, (255#64).getLsbD j = decide (j < 8) := by
    intro j
    rw [show (255#64) = (BitVec.allOnes 8).setWidth 64 from rfl, BitVec.getLsbD_setWidth,
      BitVec.getLsbD_allOnes]
    by_cases hj : j < 8
    · have : j < 64 := by omega
      simp [hj, this]
    · simp [hj]
  simp only [BitVec.getElem_or, BitVec.getElem_and, BitVec.getElem_xor, BitVec.getElem_not,
    BitVec.getElem_shiftLeft]
  by_cases h1 : i < n
  · simp [h1]
  have hb : i - n < 64 := by omega
  by_cases h2 : i - n < 8
  · have he : n + (i - n) = i := by omega
    simp [h1, h2, h255, ← BitVec.getLsbD_eq_getElem, hb, he]
  · have : b.getLsbD (i - n) = false := BitVec.getLsbD_of_ge b (i - n) (by omega)
    simp [h1, h2, h255, ← BitVec.getLsbD_eq_getElem, hb, this]

theorem tailByte_fst (d d' : Bool) (lane shift : UInt64) (b : UInt8) :
    (tailByte d' lane shift (tailByte d lane shift b).1).1 = b := by
  apply UInt8.eq_of_toBitVec_eq
  simp only [tailByte, UInt64.toBitVec_toUInt8, UInt64.toBitVec_xor, UInt64.toBitVec_shiftRight,
    UInt8.toBitVec_toUInt64, BitVec.ushiftRight_eq']
  exact laneByte_cancel _ _ _

theorem tailByte_snd (d : Bool) (lane : UInt64) {k : ℕ} (hk : k < 8) (b : UInt8) :
    (tailByte (!d) lane (UInt64.ofNat (8 * k)) (tailByte d lane (UInt64.ofNat (8 * k)) b).1).2 =
      (tailByte d lane (UInt64.ofNat (8 * k)) b).2 := by
  have hshift : ((UInt64.ofNat (8 * k)).toBitVec % 64).toNat = 8 * k := by
    have h64 : (64 : BitVec 64).toNat = 64 := rfl
    simp only [UInt64.toBitVec_ofNat', BitVec.toNat_umod, BitVec.toNat_ofNat, h64]
    omega
  have hset := fun c => laneByte_set lane.toBitVec c (8 * k) (by omega)
  have hcancel := laneByte_cancel lane.toBitVec b.toBitVec (8 * k)
  apply UInt64.eq_of_toBitVec_eq
  cases d <;>
    simp only [tailByte, Bool.not_false, Bool.not_true, if_true, Bool.false_eq_true, if_false,
      UInt64.toBitVec_or, UInt64.toBitVec_and, UInt64.toBitVec_not, UInt64.toBitVec_shiftLeft,
      UInt64.toBitVec_toUInt8, UInt64.toBitVec_xor, UInt64.toBitVec_shiftRight,
      UInt8.toBitVec_toUInt64, BitVec.ushiftRight_eq', BitVec.shiftLeft_eq', hshift]
  · exact hset _
  · rw [← hset, hcancel]
    rfl

theorem tail_not (d : Bool) (i : ℕ) (s : Lanes) (input : Bytes) :
    tail (!d) i s (tail d i s input).1 = (input, (tail d i s input).2) := by
  induction input generalizing i s with
  | nil => rfl
  | cons b input ih =>
    have hk : i % 8 < 8 := Nat.mod_lt _ (by omega)
    simp only [tail, tailByte_fst, tailByte_snd d _ hk, ih]

theorem length_tail (d : Bool) (i : ℕ) (s : Lanes) (input : Bytes) :
    (tail d i s input).1.length = input.length := by
  induction input generalizing i s with
  | nil => rfl
  | cons b input ih => simp only [tail, length_cons, ih]

theorem length_bulk (d : Bool) (n : ℕ) (s : Lanes) (input : Bytes) :
    (bulk d n s input).1.length = 16 * n := by
  induction n generalizing s input with
  | zero => rfl
  | succ n ih =>
    simp only [bulk, length_append, length_storeLe64, ih]
    omega

theorem bulk_rest (d : Bool) (n : ℕ) (s : Lanes) (input : Bytes) :
    (bulk d n s input).2.2 = input.drop (16 * n) := by
  induction n generalizing s input with
  | zero => rfl
  | succ n ih =>
    simp only [bulk, ih, drop_drop]
    congr 1
    omega

theorem bulk_not (d : Bool) (n : ℕ) (s : Lanes) (input last : Bytes) (h : 16 * n ≤ input.length) :
    bulk (!d) n s ((bulk d n s input).1 ++ last) =
      (input.take (16 * n), (bulk d n s input).2.1, last) := by
  induction n generalizing s input with
  | zero => simp [bulk]
  | succ n ih =>
    have hrest : 16 * n ≤ (input.drop 16).length := by
      rw [length_drop]
      omega
    have htake : input.take (16 * (n + 1)) =
        field input 0 8 ++ (field input 8 8 ++ (input.drop 16).take (16 * n)) := by
      rw [show 16 * (n + 1) = 8 + (8 + 16 * n) by omega]
      simp only [field, take_add, drop_drop, drop_zero]
    have h0 : ∀ (x y : UInt64) (tl : Bytes), loadLe64 (storeLe64 x ++ (storeLe64 y ++ tl)) 0 = x :=
      fun x y tl => @loadLe64_store [] (storeLe64 y ++ tl) 0 x rfl
    have h8 : ∀ (x y : UInt64) (tl : Bytes), loadLe64 (storeLe64 x ++ (storeLe64 y ++ tl)) 8 = y :=
      fun x y tl => loadLe64_store y (length_storeLe64 x)
    have hdrop : ∀ (x y : UInt64) (tl : Bytes), (storeLe64 x ++ (storeLe64 y ++ tl)).drop 16 = tl := by
      intro x y tl
      rw [← append_assoc]
      exact drop_left' (by simp)
    have hih := fun s => ih s (input.drop 16) hrest
    have hb0 : storeLe64 (loadLe64 input 0) = field input 0 8 := storeLe64_load (by omega)
    have hb8 : storeLe64 (loadLe64 input 8) = field input 8 8 := storeLe64_load (by omega)
    cases d <;>
    · simp only [Bool.not_false, Bool.not_true] at hih ⊢
      simp only [bulk, Bool.false_eq_true, if_false, if_true, append_assoc, h0, h8, hdrop,
        xor_xor_cancel, hih, hb0, hb8, htake]

theorem length_body (d : Bool) (s : Lanes) (input : Bytes) :
    (body d s input).1.length = input.length := by
  simp only [body, length_append, length_bulk, length_tail, bulk_rest, length_drop]
  omega

theorem body_not (d : Bool) (s : Lanes) (input : Bytes) :
    body (!d) s (body d s input).1 = (input, (body d s input).2) := by
  have hlen := length_body d s input
  have hblocks : 16 * (input.length / 16) ≤ input.length := by omega
  have hsplit : input.take (16 * (input.length / 16)) ++ input.drop (16 * (input.length / 16)) =
      input := take_append_drop _ _
  simp only [body] at hlen ⊢
  simp only [hlen, bulk_not d _ _ input _ hblocks, tail_not, length_tail]
  simp only [bulk_rest, hsplit]

theorem crypt_not (d : Bool) (key : Key) (nonce ad input : Bytes) :
    crypt (!d) key nonce ad (crypt d key nonce ad input).1 =
      (input, (crypt d key nonce ad input).2) := by
  simp only [crypt, body_not]

theorem decrypt_eq_some_iff (key : Key) (nonce ad input : Bytes) (tag : Tag) (output : Bytes) :
    decrypt key nonce ad input tag = some output ↔ encrypt key nonce ad output = (input, tag) := by
  simp only [decrypt, encrypt]
  constructor
  · intro h
    split at h
    · next htag =>
      cases h
      rw [← htag]
      exact crypt_not true key nonce ad input
    · cases h
  · intro h
    have hback := crypt_not false key nonce ad output
    rw [h] at hback
    simp only [Bool.not_false] at hback
    rw [hback, if_pos rfl]

/-- The functions of the source; the field arithmetic of X25519 stays a parameter. -/
def primitives (publicKey : Block 32 → Block 32) (x25519 : Block 32 → Block 32 → Block 32) :
    Primitives where
  mac := mac
  encrypt := encrypt
  decrypt := decrypt
  publicKey := publicKey
  x25519 := x25519
  encrypt_length := fun key nonce ad input => length_body false (start key nonce ad) input
  decrypt_iff := decrypt_eq_some_iff

end Tuntom.Ascon

/-- Ascon with a stand-in for X25519, which the suites without forward secrecy never call. -/
def Tuntom.samplePrimitives : Tuntom.Primitives :=
  Tuntom.Ascon.primitives id fun secret _ => secret
