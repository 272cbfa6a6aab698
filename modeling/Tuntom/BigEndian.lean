import Mathlib

/-! Fixed-width big-endian numerals over bytes: `digits` writes a number into a
given number of bytes, `value` reads a byte string back. -/
namespace BigEndian

def value (bs : List UInt8) : ℕ := bs.foldl (fun acc b => acc * 256 + b.toNat) 0

/-- The `n` least significant base-256 digits of `v`, most significant first. -/
def digits : ℕ → ℕ → List UInt8
  | 0, _ => []
  | n + 1, v => digits n (v / 256) ++ [UInt8.ofNat v]

@[simp] theorem length_digits (n v : ℕ) : (digits n v).length = n := by
  induction n generalizing v with
  | zero => rfl
  | succ n ih => simp [digits, ih]

@[simp] theorem value_nil : value [] = 0 := rfl

@[simp] theorem value_append_singleton (bs : List UInt8) (b : UInt8) :
    value (bs ++ [b]) = value bs * 256 + b.toNat := by
  simp [value, List.foldl_append]

theorem value_lt (bs : List UInt8) : value bs < 256 ^ bs.length := by
  induction bs using List.reverseRecOn with
  | nil => simp
  | append_singleton bs b ih =>
    have hb : b.toNat < 256 := b.toNat_lt
    rw [value_append_singleton, List.length_append, List.length_singleton, pow_succ]
    omega

@[simp] theorem value_digits (n v : ℕ) : value (digits n v) = v % 256 ^ n := by
  induction n generalizing v with
  | zero => simp [digits, Nat.mod_one]
  | succ n ih =>
    have hb : (UInt8.ofNat v).toNat = v % 256 := by simp
    rw [digits, value_append_singleton, ih, hb, pow_succ', Nat.mod_mul]
    omega

theorem digits_value (bs : List UInt8) : digits bs.length (value bs) = bs := by
  induction bs using List.reverseRecOn with
  | nil => rfl
  | append_singleton bs b ih =>
    have hb : b.toNat < 256 := b.toNat_lt
    have hdiv : (value bs * 256 + b.toNat) / 256 = value bs := by omega
    have hbyte : UInt8.ofNat (value bs * 256 + b.toNat) = b := by
      apply UInt8.toNat_inj.mp
      simp only [UInt8.toNat_ofNat']
      omega
    rw [value_append_singleton, List.length_append, List.length_singleton, digits, hdiv, ih, hbyte]

theorem digits_value_of_length {n : ℕ} {bs : List UInt8} (h : bs.length = n) :
    digits n (value bs) = bs := h ▸ digits_value bs

theorem value_digits_of_lt {n v : ℕ} (h : v < 256 ^ n) : value (digits n v) = v := by
  rw [value_digits, Nat.mod_eq_of_lt h]

end BigEndian
