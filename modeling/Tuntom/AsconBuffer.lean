import Tuntom.Ascon
import Tuntom.Overwrite

/-! `Aead128` of `ascon.hpp` on memory: the loops read the input and write the output block
by block and byte by byte, and the two may be the same buffer. -/
namespace Tuntom.Ascon
open List
open Overwrite (write getElem?_write length_write write_write write_over)

/-- `while (size >= 16)`, by the number of rounds. -/
def bulkAt (decrypting : Bool) : ℕ → Lanes → Bytes → ℕ → ℕ → Bytes × Lanes
  | 0, s, memory, _, _ => (memory, s)
  | n + 1, s, memory, input, output =>
    let a := loadLe64 memory input
    let b := loadLe64 memory (input + 8)
    let memory := write memory output (storeLe64 (s.s0 ^^^ a))
    let memory := write memory (output + 8) (storeLe64 (s.s1 ^^^ b))
    let s' := if decrypting then { s with s0 := a, s1 := b }
      else { s with s0 := s.s0 ^^^ a, s1 := s.s1 ^^^ b }
    bulkAt decrypting n (permute s' 8) memory (input + 16) (output + 16)

/-- The loop over the last bytes, from byte `i` on, by the number of rounds. -/
def tailAt (decrypting : Bool) : ℕ → ℕ → Lanes → Bytes → ℕ → ℕ → Bytes × Lanes
  | 0, _, s, memory, _, _ => (memory, s)
  | n + 1, i, s, memory, input, output =>
    let step := tailByte decrypting (s.rate (i / 8)) (UInt64.ofNat (8 * (i % 8)))
      (memory.getD (input + i) 0)
    tailAt decrypting n (i + 1) (s.setRate (i / 8) step.2) (write memory (output + i) [step.1])
      input output

/-- `Aead128::crypt`: the memory afterwards and the tag. -/
def cryptAt (decrypting : Bool) (key : Key) (nonce ad memory : Bytes) (input size output : ℕ) :
    Bytes × Tag :=
  let blocks := size / 16
  let (memory, s) := bulkAt decrypting blocks (start key nonce ad) memory input output
  let (memory, s) := tailAt decrypting (size % 16) 0 s memory (input + 16 * blocks)
    (output + 16 * blocks)
  (memory, finish key (xorByte s (size % 16) 1))

def encryptAt (key : Key) (nonce ad memory : Bytes) (input size output : ℕ) : Bytes × Tag :=
  cryptAt false key nonce ad memory input size output

def difference (expected tag : Bytes) : UInt8 :=
  (expected.zip tag).foldl (fun acc p => acc ||| (p.1 ^^^ p.2)) 0

def decryptAt (key : Key) (nonce ad memory : Bytes) (input size : ℕ) (tag : Tag) (output : ℕ) :
    Bool × Bytes :=
  let (memory, expected) := cryptAt true key nonce ad memory input size output
  if difference expected.toList tag.toList = 0 then (true, memory)
  else (false, write memory output (List.replicate size 0))

/-! ### The comparison -/

theorem foldl_or_eq_zero_iff (pairs : List (UInt8 × UInt8)) (acc : UInt8) :
    pairs.foldl (fun acc p => acc ||| (p.1 ^^^ p.2)) acc = 0 ↔
      acc = 0 ∧ ∀ p ∈ pairs, p.1 = p.2 := by
  induction pairs generalizing acc with
  | nil => simp
  | cons p rest ih =>
    have hor : acc ||| (p.1 ^^^ p.2) = 0 ↔ acc = 0 ∧ p.1 = p.2 := by
      rw [UInt8.or_eq_zero_iff, UInt8.xor_eq_zero_iff]
    rw [foldl_cons, ih, hor, forall_mem_cons, and_assoc]

theorem difference_eq_zero_iff {a b : Bytes} (h : a.length = b.length) :
    difference a b = 0 ↔ a = b := by
  rw [difference, foldl_or_eq_zero_iff, and_iff_right rfl]
  constructor
  · intro hall
    refine ext_getElem h fun i ha hb => ?_
    exact hall (a[i], b[i]) (mem_of_getElem? (List.getElem?_zip_eq_some.mpr
      ⟨List.getElem?_eq_getElem ha, List.getElem?_eq_getElem hb⟩))
  · rintro rfl p hp
    obtain ⟨i, hi⟩ := List.getElem?_of_mem hp
    obtain ⟨h1, h2⟩ := List.getElem?_zip_eq_some.mp hi
    exact Option.some.inj (h1.symm.trans h2)

/-! ### Memory -/

def Apart (input output size : ℕ) : Prop :=
  input = output ∨ input + size ≤ output ∨ output + size ≤ input

theorem getElem?_field (data : Bytes) (offset size i : ℕ) :
    (field data offset size)[i]? = if i < size then data[offset + i]? else none := by
  rw [field, List.getElem?_take, List.getElem?_drop]

theorem field_write_apart {memory block : Bytes} {start offset size : ℕ}
    (hfit : start + block.length ≤ memory.length)
    (h : offset + size ≤ start ∨ start + block.length ≤ offset) :
    field (write memory start block) offset size = field memory offset size := by
  refine ext_getElem? fun i => ?_
  rw [getElem?_field, getElem?_field, getElem?_write hfit]
  split
  · rw [if_neg (by omega)]
  · rfl

theorem field_write_self {memory block : Bytes} {start : ℕ}
    (hfit : start + block.length ≤ memory.length) :
    field (write memory start block) start block.length = block := by
  refine ext_getElem? fun i => ?_
  rw [getElem?_field, getElem?_write hfit]
  split
  · rw [if_pos (by omega), Nat.add_sub_cancel_left]
  · rw [List.getElem?_eq_none (by omega)]

theorem field_field {data : Bytes} {offset size start n : ℕ} (h : start + n ≤ size) :
    field (field data offset size) start n = field data (offset + start) n := by
  refine ext_getElem? fun i => ?_
  simp only [getElem?_field]
  split
  · rw [if_pos (by omega), Nat.add_assoc]
  · rfl

theorem loadLe64_field {data : Bytes} {offset size start : ℕ} (h : start + 8 ≤ size) :
    loadLe64 (field data offset size) start = loadLe64 data (offset + start) := by
  rw [loadLe64, loadLe64, field_field h]

theorem drop_field (data : Bytes) (offset size n : ℕ) :
    (field data offset size).drop n = field data (offset + n) (size - n) := by
  rw [field, field, drop_take, drop_drop]

theorem length_block (x y : UInt64) : (storeLe64 x ++ storeLe64 y).length = 16 := by
  rw [length_append, length_storeLe64, length_storeLe64]

theorem write_block {memory : Bytes} {output : ℕ} (h : output + 16 ≤ memory.length) (x y : UInt64) :
    write (write memory output (storeLe64 x)) (output + 8) (storeLe64 y) =
      write memory output (storeLe64 x ++ storeLe64 y) := by
  have hboth := @write_write _ memory (storeLe64 x) (storeLe64 y) output
    (by rw [length_storeLe64]; omega)
  rwa [length_storeLe64] at hboth

/-- Each direction on memory: the output of the pure loop is written, and the state is its
state. A block is read before it is overwritten. -/
theorem bulkAt_eq (d : Bool) {n : ℕ} {s : Lanes} {memory : Bytes} {input output size : ℕ}
    (hblocks : 16 * n ≤ size) (hin : input + size ≤ memory.length)
    (hout : output + size ≤ memory.length) (hapart : Apart input output size) :
    bulkAt d n s memory input output =
      (write memory output (bulk d n s (field memory input size)).1,
        (bulk d n s (field memory input size)).2.1) := by
  induction n generalizing s memory input output size with
  | zero => simp [bulkAt, bulk]
  | succ n ih =>
    have ha : loadLe64 (field memory input size) 0 = loadLe64 memory input :=
      loadLe64_field (by omega)
    have hb : loadLe64 (field memory input size) 8 = loadLe64 memory (input + 8) :=
      loadLe64_field (by omega)
    rw [bulkAt, bulk, ha, hb, drop_field]
    dsimp only
    rw [write_block (by omega)]
    generalize hblock : storeLe64 (s.s0 ^^^ loadLe64 memory input) ++
      storeLe64 (s.s1 ^^^ loadLe64 memory (input + 8)) = block
    have hlen : block.length = 16 := by rw [← hblock, length_block]
    have hfit : output + block.length ≤ memory.length := by omega
    have hsame := length_write hfit
    have hrest : field (write memory output block) (input + 16) (size - 16) =
        field memory (input + 16) (size - 16) :=
      field_write_apart hfit (by rw [hlen]; rcases hapart with h | h | h <;> omega)
    have hnext : Apart (input + 16) (output + 16) (size - 16) := by
      rcases hapart with h | h | h
      · exact .inl (by omega)
      · exact .inr (.inl (by omega))
      · exact .inr (.inr (by omega))
    rw [ih (by omega) (by omega) (by omega) hnext, hrest]
    have hjoin := @write_write _ memory block
    rw [hlen] at hjoin
    rw [hjoin (by omega)]

theorem tailAt_eq (d : Bool) {n i : ℕ} {s : Lanes} {memory : Bytes} {input output : ℕ}
    (hin : input + i + n ≤ memory.length) (hout : output + i + n ≤ memory.length)
    (hapart : Apart (input + i) (output + i) n) :
    tailAt d n i s memory input output =
      (write memory (output + i) (tail d i s (field memory (input + i) n)).1,
        (tail d i s (field memory (input + i) n)).2) := by
  induction n generalizing i s memory with
  | zero => simp [tailAt, tail, field]
  | succ n ih =>
    have hcons : field memory (input + i) (n + 1) =
        memory.getD (input + i) 0 :: field memory (input + (i + 1)) n := by
      rw [field, ← getD_cons_drop (by omega), take_succ_cons]
      rfl
    rw [tailAt, hcons, tail]
    dsimp only
    generalize (tailByte d (s.rate (i / 8)) (UInt64.ofNat (8 * (i % 8)))
      (memory.getD (input + i) 0)) = step
    have hfit : output + i + [step.1].length ≤ memory.length := by
      rw [length_singleton]
      omega
    have hsame := length_write hfit
    have hrest : field (write memory (output + i) [step.1]) (input + (i + 1)) n =
        field memory (input + (i + 1)) n :=
      field_write_apart hfit (by
        rw [length_singleton]
        rcases hapart with h | h | h <;> omega)
    have hnext : Apart (input + (i + 1)) (output + (i + 1)) n := by
      rcases hapart with h | h | h
      · exact .inl (by omega)
      · exact .inr (.inl (by omega))
      · exact .inr (.inr (by omega))
    rw [ih (by omega) (by omega) hnext, hrest]
    have hjoin := @write_write _ memory [step.1]
    rw [length_singleton] at hjoin
    rw [← Nat.add_assoc, hjoin (by omega)]
    rfl

theorem length_crypt (d : Bool) (key : Key) (nonce ad input : Bytes) :
    (crypt d key nonce ad input).1.length = input.length :=
  length_body d (start key nonce ad) input

/-- `Aead128::crypt` on memory writes the output of the pure function and returns its tag,
whether the buffers are one or two. -/
theorem cryptAt_eq (d : Bool) (key : Key) (nonce ad : Bytes) {memory : Bytes}
    {input size output : ℕ} (hin : input + size ≤ memory.length)
    (hout : output + size ≤ memory.length) (hapart : Apart input output size) :
    cryptAt d key nonce ad memory input size output =
      (write memory output (crypt d key nonce ad (field memory input size)).1,
        (crypt d key nonce ad (field memory input size)).2) := by
  have hlen := length_field hin
  have hblocks : 16 * (size / 16) ≤ size := by omega
  rw [cryptAt, crypt, body, hlen]
  dsimp only
  rw [bulkAt_eq d hblocks hin hout hapart, bulk_rest, drop_field,
    show size - 16 * (size / 16) = size % 16 by omega]
  have hout1 := length_bulk d (size / 16) (start key nonce ad) (field memory input size)
  generalize bulk d (size / 16) (start key nonce ad) (field memory input size) = whole at hout1 ⊢
  have hfit : output + whole.1.length ≤ memory.length := by omega
  have hsame := length_write hfit
  have hrest : field (write memory output whole.1) (input + 16 * (size / 16)) (size % 16) =
      field memory (input + 16 * (size / 16)) (size % 16) :=
    field_write_apart hfit (by rcases hapart with h | h | h <;> omega)
  have htail : Apart (input + 16 * (size / 16)) (output + 16 * (size / 16)) (size % 16) := by
    rcases hapart with h | h | h
    · exact .inl (by omega)
    · exact .inr (.inl (by omega))
    · exact .inr (.inr (by omega))
  have hjoin := @write_write _ memory whole.1
  rw [hout1] at hjoin
  have hlength : (field memory (input + 16 * (size / 16)) (size % 16)).length = size % 16 :=
    length_field (by omega)
  have hlast := @tailAt_eq d (size % 16) 0 whole.2.1 (write memory output whole.1)
    (input + 16 * (size / 16)) (output + 16 * (size / 16)) (by omega) (by omega) htail
  rw [Nat.add_zero, Nat.add_zero, hrest, hjoin (by omega)] at hlast
  dsimp only
  rw [hlast, hlength]

/-! ### Authenticated encryption -/

theorem decryptAt_eq (key : Key) (nonce ad : Bytes) {memory : Bytes} {input size output : ℕ}
    (tag : Tag) (hin : input + size ≤ memory.length) (hout : output + size ≤ memory.length)
    (hapart : Apart input output size) :
    decryptAt key nonce ad memory input size tag output =
      (decrypt key nonce ad (field memory input size) tag).elim
        (false, write memory output (List.replicate size 0))
        fun plain => (true, write memory output plain) := by
  have hlen : (crypt true key nonce ad (field memory input size)).1.length = size := by
    rw [length_crypt, length_field hin]
  rw [decryptAt, cryptAt_eq true key nonce ad hin hout hapart, decrypt]
  dsimp only
  by_cases htag : (crypt true key nonce ad (field memory input size)).2 = tag
  · rw [if_pos htag, if_pos]
    · rfl
    · rw [difference_eq_zero_iff (by simp), htag]
  rw [if_neg htag, if_neg, write_over (by omega) (by rw [hlen, length_replicate])]
  · rfl
  · rw [difference_eq_zero_iff (by simp)]
    exact fun h => htag (Vector.toList_inj.mp h)

theorem field_write_of_length {memory block : Bytes} {start size : ℕ} (hlen : block.length = size)
    (hfit : start + size ≤ memory.length) : field (write memory start block) start size = block := by
  subst hlen
  exact field_write_self hfit

/-- Encryption and decryption in memory, with one buffer or two. -/
theorem aead_correct (key : Key) (nonce ad memory : Bytes) (input size output : ℕ)
    (hin : input + size ≤ memory.length) (hout : output + size ≤ memory.length)
    (hapart : Apart input output size) :
    -- what is encrypted comes back, into the place of the ciphertext or another
    (∀ back, back + size ≤ memory.length → Apart output back size →
      decryptAt key nonce ad (encryptAt key nonce ad memory input size output).1 output size
          (encryptAt key nonce ad memory input size output).2 back =
        (true, write (encryptAt key nonce ad memory input size output).1 back
          (field memory input size))) ∧
    -- a ciphertext and tag are accepted exactly if they are an encryption of the result
    (∀ tag plain, (decryptAt key nonce ad memory input size tag output).1 = true ∧
        field (decryptAt key nonce ad memory input size tag output).2 output size = plain ↔
      encrypt key nonce ad plain = (field memory input size, tag)) ∧
    (∃! tag, (decryptAt key nonce ad memory input size tag output).1 = true) ∧
    (∀ tag, (decryptAt key nonce ad memory input size tag output).1 = false →
      field (decryptAt key nonce ad memory input size tag output).2 output size =
        List.replicate size 0) ∧
    -- the code's encryption is the function above, and nothing else is written
    (encryptAt key nonce ad memory input size output =
      (write memory output (encrypt key nonce ad (field memory input size)).1,
        (encrypt key nonce ad (field memory input size)).2)) ∧
    ∀ tag offset n, offset + n ≤ output ∨ output + size ≤ offset →
      field (decryptAt key nonce ad memory input size tag output).2 offset n =
        field memory offset n := by
  have hlen := length_field hin
  have hplain : ∀ tag plain, decrypt key nonce ad (field memory input size) tag = some plain →
      plain.length = size := by
    intro tag plain h
    have hencrypt := (decrypt_eq_some_iff ..).mp h
    have hlength := length_crypt false key nonce ad plain
    rw [show crypt false key nonce ad plain = _ from hencrypt, hlen] at hlength
    exact hlength.symm
  have hencrypted := cryptAt_eq false key nonce ad hin hout hapart
  have hcipher : (crypt false key nonce ad (field memory input size)).1.length = size := by
    rw [length_crypt, hlen]
  refine ⟨fun back hback hbackApart => ?_, fun tag plain => ?_, ?_, fun tag hfail => ?_, hencrypted,
    fun tag offset n hframe => ?_⟩
  · rw [encryptAt, hencrypted]
    dsimp only
    have hsame := length_write (show output + (crypt false key nonce ad
      (field memory input size)).1.length ≤ memory.length by omega)
    have hback' : decrypt key nonce ad (crypt false key nonce ad (field memory input size)).1
        (crypt false key nonce ad (field memory input size)).2 = some (field memory input size) :=
      (decrypt_eq_some_iff ..).mpr rfl
    rw [decryptAt_eq key nonce ad _ (by omega) (by omega) hbackApart,
      field_write_of_length hcipher hout, hback', Option.elim_some]
  · rw [decryptAt_eq key nonce ad tag hin hout hapart, ← decrypt_eq_some_iff]
    cases hdecrypt : decrypt key nonce ad (field memory input size) tag with
    | none => simp
    | some p =>
      rw [Option.elim_some]
      dsimp only
      rw [field_write_of_length (hplain tag p hdecrypt) hout]
      simp
  · refine ⟨(crypt true key nonce ad (field memory input size)).2, ?_, fun tag htag => ?_⟩
    · dsimp only
      rw [decryptAt_eq key nonce ad _ hin hout hapart, decrypt, if_pos rfl]
      rfl
    · by_contra hne
      dsimp only at htag
      rw [decryptAt_eq key nonce ad tag hin hout hapart, decrypt, if_neg (Ne.symm hne)] at htag
      cases htag
  · rw [decryptAt_eq key nonce ad tag hin hout hapart] at hfail ⊢
    cases hdecrypt : decrypt key nonce ad (field memory input size) tag with
    | none => exact field_write_of_length (List.length_replicate ..) hout
    | some p =>
      rw [hdecrypt] at hfail
      cases hfail
  · rw [decryptAt_eq key nonce ad tag hin hout hapart]
    cases hdecrypt : decrypt key nonce ad (field memory input size) tag with
    | none =>
      exact field_write_apart (by rw [List.length_replicate]; exact hout)
        (by rw [List.length_replicate]; exact hframe)
    | some p =>
      have hp := hplain tag p hdecrypt
      exact field_write_apart (by omega) (by omega)

/-- Three bytes encrypted and decrypted in place. -/
theorem aead_correct_sample :
    (decryptAt (Vector.replicate 16 0) [] [] (encryptAt (Vector.replicate 16 0) [] [] [1, 2, 3] 0 3 0).1 0 3
      (encryptAt (Vector.replicate 16 0) [] [] [1, 2, 3] 0 3 0).2 0).1 = true := by
  rw [(aead_correct (Vector.replicate 16 0) [] [] [1, 2, 3] 0 3 0 (by decide) (by decide) (.inl rfl)).1 0
    (by decide) (.inl rfl)]

end Tuntom.Ascon
