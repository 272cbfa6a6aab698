import Tuntom.ControlProtocol
import Tuntom.Positional

/-! The integer literals of the control plane: `rules_number` and `rules_label_value` of
`switch_ruleset.hpp`, and `control_length` of `control_protocol.hpp`. -/
namespace Tuntom
open Positional List
open Control (digit? controlLength lengthFrom)

def uint64Max : UInt64 := 0xffffffffffffffff

/-- The digit loop of `rules_number`. -/
def numberFrom : UInt64 → Bytes → Except String UInt64
  | n, [] => .ok n
  | n, c :: rest =>
    let digit := (c - 48).toUInt64
    if (uint64Max - digit) / 10 < n then .error "integer exceeds uint64"
    else numberFrom (n * 10 + digit) rest

def rulesNumber (s : Bytes) : Except String UInt64 :=
  if s = [] ∨ s.any (fun c => (digit? c).isNone) then
    .error "expected an unsigned decimal integer"
  else numberFrom 0 s

/-- `for (; bytes < 8; ++bytes) value <<= 8`, by the number of rounds. -/
def padded (value : UInt64) : ℕ → UInt64
  | 0 => value
  | rounds + 1 => padded (value <<< 8) rounds

/-- The loop over a quoted text, from `text[i]` on; its last byte is the closing quote. -/
def labelString : UInt64 → ℕ → Bytes → Except String UInt64
  | value, bytes, c :: next :: rest =>
    if c = 92 then
      if rest = [] ∨ (next ≠ 92 ∧ next ≠ 34) then
        .error "label strings support only escaped quote and backslash"
      else if 8 < bytes + 1 then .error "label string exceeds 8 bytes"
      else labelString (value <<< 8 ||| next.toUInt64) (bytes + 1) rest
    else if 8 < bytes + 1 then .error "label string exceeds 8 bytes"
    else labelString (value <<< 8 ||| c.toUInt64) (bytes + 1) (next :: rest)
  | value, bytes, _ => .ok (padded value (8 - bytes))

def labelDigit (c : UInt8) : UInt64 :=
  if 48 ≤ c ∧ c ≤ 57 then (c - 48).toUInt64
  else if 97 ≤ c ∧ c ≤ 102 then (c - 97).toUInt64 + 10
  else if 65 ≤ c ∧ c ≤ 70 then (c - 65).toUInt64 + 10
  else 16

def labelFrom (base : UInt64) : UInt64 → Bytes → Except String UInt64
  | value, [] => .ok value
  | value, c :: rest =>
    let digit := labelDigit c
    if base ≤ digit then .error "invalid digit in label literal"
    else if (uint64Max - digit) / base < value then .error "label literal exceeds uint64"
    else labelFrom base (value * base + digit) rest

def labelBase (text : Bytes) : UInt64 × ℕ :=
  if 2 ≤ text.length ∧ text[0]? = some 48 ∧ (text[1]? = some 120 ∨ text[1]? = some 88) then (16, 2)
  else if 2 ≤ text.length ∧ text[0]? = some 48 ∧ (text[1]? = some 98 ∨ text[1]? = some 66) then
    (2, 2)
  else if text ≠ [] ∧ (text[0]? = some 98 ∨ text[0]? = some 66) then (2, 1)
  else (10, 0)

def rulesLabelValue (text : Bytes) : Except String UInt64 :=
  if text ≠ [] ∧ text.head? = some 34 then
    if text.length < 2 ∨ text.getLast? ≠ some 34 then .error "unterminated label string"
    else labelString 0 0 (text.drop 1)
  else
    let (base, start) := labelBase text
    if start = text.length then .error "label literal needs digits"
    else labelFrom base 0 (text.drop start)

/-! ### Decimal numbers -/

theorem guard_toNat {base digit n : UInt64} : (uint64Max - digit) / base < n ↔
    2 ^ 64 - 1 < digit.toNat ∨ (2 ^ 64 - 1 - digit.toNat) / base.toNat < n.toNat := by
  have hdigit := digit.toNat_lt
  have hle : digit ≤ uint64Max := by
    rw [UInt64.le_iff_toNat_le, show uint64Max.toNat = 2 ^ 64 - 1 from rfl]
    omega
  rw [UInt64.lt_iff_toNat_lt, UInt64.toNat_div, UInt64.toNat_sub_of_le _ _ hle]
  exact (or_iff_right (by omega)).symm

theorem step_toNat {base digit n : UInt64} (hbase : 0 < base.toNat)
    (h : ¬(uint64Max - digit) / base < n) :
    (n * base + digit).toNat = n.toNat * base.toNat + digit.toNat := by
  rw [guard_toNat, guard_iff hbase] at h
  have hproduct : n.toNat * base.toNat < 2 ^ 64 := by omega
  rw [UInt64.toNat_add, UInt64.toNat_mul, Nat.mod_eq_of_lt hproduct, Nat.mod_eq_of_lt (by omega)]

variable {c : UInt8} {s text : Bytes} {value : UInt64}

theorem digit_toNat {d : ℕ} (h : digit? c = some d) : (c - 48).toUInt64.toNat = d := by
  rw [digit?] at h
  split at h
  next hrange =>
    cases h
    have hle : (48 : UInt8) ≤ c := by
      rw [UInt8.le_iff_toNat_le]
      exact hrange.1
    rw [UInt8.toNat_toUInt64, UInt8.toNat_sub_of_le _ _ hle]
    rfl
  next => cases h

theorem numberFrom_scan {n : UInt64} (hs : ∀ c ∈ s, (digit? c).isSome) (v : UInt64) :
    numberFrom n s = .ok v ↔
      scan (10 : UInt64).toNat (2 ^ 64 - 1) digit? n.toNat s = some v.toNat := by
  induction s generalizing n with
  | nil => simp [numberFrom, scan, UInt64.toNat_inj]
  | cons c rest ih =>
    obtain ⟨d, hd⟩ := Option.isSome_iff_exists.mp (hs c mem_cons_self)
    rw [scan, hd, Option.bind_eq_bind, Option.bind_some, numberFrom, ← digit_toNat hd]
    by_cases hguard : (uint64Max - (c - 48).toUInt64) / 10 < n
    · rw [if_pos hguard, if_pos (guard_toNat.mp hguard)]
      simp
    · rw [if_neg hguard, if_neg fun h => hguard (guard_toNat.mpr h),
        ih fun x hx => hs x (mem_cons_of_mem _ hx), step_toNat (by decide) hguard]

theorem mapM_isSome {α β : Type} {f : α → Option β} {l : List α} :
    (l.mapM f).isSome ↔ ∀ x ∈ l, (f x).isSome := by
  induction l with
  | nil => simp
  | cons a rest ih =>
    rw [forall_mem_cons, ← ih, mapM_cons]
    cases f a <;> cases rest.mapM f <;> simp

theorem value?_none {base : ℕ} {digit : UInt8 → Option ℕ} (hc : c ∈ s) (hnone : digit c = none) :
    value? base digit s = none := by
  have hmap : s.mapM digit = none := by
    rw [← Option.not_isSome_iff_eq_none, mapM_isSome]
    intro h
    simpa [hnone] using h c hc
  rw [value?, hmap]
  simp

theorem rulesNumber_eq_ok_iff {v : UInt64} :
    rulesNumber s = .ok v ↔ value? 10 digit? s = some v.toNat := by
  rw [rulesNumber]
  split
  next hbad =>
    refine iff_of_false (by simp) ?_
    rcases hbad with rfl | hbad
    · simp [value?]
    obtain ⟨c, hc, hnone⟩ := any_eq_true.mp hbad
    rw [value?_none hc (Option.isNone_iff_eq_none.mp hnone)]
    simp
  next hgood =>
  rw [not_or, Bool.not_eq_true, any_eq_false] at hgood
  have hlt := v.toNat_lt
  rw [numberFrom_scan (fun c hc => by simpa [Option.isSome_iff_ne_none] using hgood.2 c hc),
    show (0 : UInt64).toNat = 0 from rfl, scan_zero_iff (by decide) hgood.1]
  exact and_iff_left (by omega)

/-! ### Lengths -/

theorem lengthFrom_scan {maximum n v : ℕ} {digits : List ℕ} (hs : s.mapM digit? = some digits) :
    lengthFrom maximum n digits = .ok v ↔ scan 10 maximum digit? n s = some v := by
  induction s generalizing n digits with
  | nil =>
    cases hs
    simp [lengthFrom, scan]
  | cons c rest ih =>
    obtain ⟨d, hd, others, hothers, rfl⟩ : ∃ d, digit? c = some d ∧ ∃ others,
        rest.mapM digit? = some others ∧ d :: others = digits := by
      simpa [mapM_cons, Option.bind_eq_some_iff] using hs
    rw [lengthFrom, scan, hd, Option.bind_eq_bind, Option.bind_some]
    split
    · simp
    · exact ih hothers

theorem controlLength_eq_ok_iff {maximum v : ℕ} :
    controlLength s maximum = .ok v ↔ value? 10 digit? s = some v ∧ v ≤ maximum := by
  rw [controlLength]
  split
  next first rest hs =>
    have hne : s ≠ [] := by
      rintro rfl
      cases hs
    rw [lengthFrom_scan hs, scan_zero_iff (by decide) hne]
  next hnot =>
  refine iff_of_false (by simp) ?_
  rintro ⟨hvalue, -⟩
  rw [value?] at hvalue
  split at hvalue
  · cases hvalue
  next hne =>
  obtain ⟨digits, hdigits, -⟩ := Option.map_eq_some_iff.mp hvalue
  obtain ⟨c, rest, rfl⟩ := exists_cons_of_ne_nil hne
  obtain ⟨d, hd, others, hothers, rfl⟩ : ∃ d, digit? c = some d ∧ ∃ others,
      rest.mapM digit? = some others ∧ d :: others = digits := by
    simpa [mapM_cons, Option.bind_eq_some_iff] using hdigits
  exact hnot d others hdigits

/-! ### Label literals -/

def hexDigit? (c : UInt8) : Option ℕ :=
  if 48 ≤ c.toNat ∧ c.toNat ≤ 57 then some (c.toNat - 48)
  else if 97 ≤ c.toNat ∧ c.toNat ≤ 102 then some (c.toNat - 87)
  else if 65 ≤ c.toNat ∧ c.toNat ≤ 70 then some (c.toNat - 55)
  else none

def digitIn? (base : ℕ) (c : UInt8) : Option ℕ := (hexDigit? c).filter (· < base)

inductive Announced : Bytes → ℕ → Bytes → Prop
  | hexadecimal {x : UInt8} {digits : Bytes} (hx : x = 120 ∨ x = 88) :
    Announced (48 :: x :: digits) 16 digits
  | binary {x : UInt8} {digits : Bytes} (hx : x = 98 ∨ x = 66) :
    Announced (48 :: x :: digits) 2 digits
  | shortBinary {x : UInt8} {digits : Bytes} (hx : x = 98 ∨ x = 66) :
    Announced (x :: digits) 2 digits
  | decimal {digits : Bytes} (hshort : ∀ x rest, digits = x :: rest → x ≠ 98 ∧ x ≠ 66)
    (hlong : ∀ x rest, digits = 48 :: x :: rest → x ∉ [120, 88, 98, 66]) :
    Announced digits 10 digits

theorem labelDigit_toNat (c : UInt8) : (labelDigit c).toNat = (hexDigit? c).getD 16 := by
  have h : ∀ n < 256, (labelDigit (UInt8.ofNat n)).toNat = (hexDigit? (UInt8.ofNat n)).getD 16 := by
    decide +kernel
  simpa using h c.toNat c.toNat_lt

theorem labelFrom_scan {base n : UInt64} (hbase : 0 < base.toNat) (hle : base.toNat ≤ 16)
    (v : UInt64) :
    labelFrom base n s = .ok v ↔
      scan base.toNat (2 ^ 64 - 1) (digitIn? base.toNat) n.toNat s = some v.toNat := by
  induction s generalizing n with
  | nil => simp [labelFrom, scan, UInt64.toNat_inj]
  | cons c rest ih =>
    have hdigit := labelDigit_toNat c
    rw [scan, digitIn?, labelFrom]
    by_cases hvalid : base ≤ labelDigit c
    · have hnone : (hexDigit? c).filter (fun d => decide (d < base.toNat)) = none := by
        rw [UInt64.le_iff_toNat_le, hdigit] at hvalid
        cases hc : hexDigit? c with
        | none => rfl
        | some d =>
          rw [hc, Option.getD_some] at hvalid
          simp [Option.filter, hvalid]
      rw [if_pos hvalid, hnone]
      simp
    have hsome : (hexDigit? c).filter (fun d => decide (d < base.toNat)) =
        some (labelDigit c).toNat := by
      rw [UInt64.le_iff_toNat_le, hdigit] at hvalid
      cases hc : hexDigit? c with
      | none =>
        rw [hc, Option.getD_none] at hvalid
        omega
      | some d =>
        rw [hc, Option.getD_some] at hvalid hdigit
        simp only [Option.filter, hdigit]
        rw [if_pos (by simpa using hvalid)]
    rw [if_neg hvalid, hsome, Option.bind_eq_bind, Option.bind_some]
    by_cases hguard : (uint64Max - labelDigit c) / base < n
    · rw [if_pos hguard, if_pos (guard_toNat.mp hguard)]
      simp
    · rw [if_neg hguard, if_neg fun h => hguard (guard_toNat.mpr h), ih, step_toNat hbase hguard]

theorem labelBase_decimal (hshort : ∀ x rest, text = x :: rest → x ≠ 98 ∧ x ≠ 66)
    (hlong : ∀ x rest, text = 48 :: x :: rest → x ∉ [120, 88, 98, 66]) :
    labelBase text = (10, 0) := by
  rcases text with _ | ⟨x, _ | ⟨y, rest⟩⟩
  · rfl
  · simp [labelBase, hshort x [] rfl]
  have hx := hshort x (y :: rest) rfl
  by_cases hzero : x = 48
  · subst hzero
    have hy : (y ≠ 120 ∧ y ≠ 88) ∧ y ≠ 98 ∧ y ≠ 66 := by
      simpa [and_assoc] using hlong y rest rfl
    simp [labelBase, hy]
  · simp [labelBase, hx, hzero]

theorem Announced.unique {digits : Bytes} {base : ℕ} (h : Announced text base digits) :
    base = (labelBase text).1.toNat ∧ digits = text.drop (labelBase text).2 := by
  cases h with
  | hexadecimal hx | binary hx | shortBinary hx => rcases hx with rfl | rfl <;> simp [labelBase]
  | decimal hshort hlong =>
    rw [labelBase_decimal hshort hlong]
    simp

theorem announced_labelBase (text : Bytes) :
    Announced text (labelBase text).1.toNat (text.drop (labelBase text).2) := by
  by_cases hshort : ∀ x rest, text = x :: rest → x ≠ 98 ∧ x ≠ 66
  · by_cases hlong : ∀ x rest, text = 48 :: x :: rest → x ∉ [120, 88, 98, 66]
    · rw [labelBase_decimal hshort hlong]
      exact .decimal hshort hlong
    · push Not at hlong
      obtain ⟨x, rest, rfl, hx⟩ := hlong
      have h : ∃ base, Announced (48 :: x :: rest) base rest := by
        simp only [mem_cons, not_mem_nil, or_false] at hx
        rcases hx with hx | hx | hx | hx
        · exact ⟨16, .hexadecimal (.inl hx)⟩
        · exact ⟨16, .hexadecimal (.inr hx)⟩
        · exact ⟨2, .binary (.inl hx)⟩
        · exact ⟨2, .binary (.inr hx)⟩
      obtain ⟨base, h⟩ := h
      rw [← h.unique.1, ← h.unique.2]
      exact h
  push Not at hshort
  obtain ⟨x, rest, rfl, hx⟩ := hshort
  have h : Announced (x :: rest) 2 rest := .shortBinary (or_iff_not_imp_left.mpr hx)
  rw [← h.unique.1, ← h.unique.2]
  exact h

theorem labelBase_cases (text : Bytes) :
    labelBase text = (16, 2) ∨ labelBase text = (2, 2) ∨ labelBase text = (2, 1) ∨
      labelBase text = (10, 0) := by
  rw [labelBase]
  split_ifs <;> simp

theorem labelBase_start (text : Bytes) : (labelBase text).2 ≤ text.length := by
  rw [labelBase]
  split_ifs with h h h
  · exact h.1
  · exact h.1
  · exact length_pos_iff.mpr h.1
  · exact Nat.zero_le _

theorem rulesLabelValue_unquoted (h : text.head? ≠ some 34) {v : UInt64} :
    rulesLabelValue text = .ok v ↔ ∃ base digits, Announced text base digits ∧
      value? base (digitIn? base) digits = some v.toNat := by
  have hbase : 0 < (labelBase text).1.toNat ∧ (labelBase text).1.toNat ≤ 16 := by
    rcases labelBase_cases text with hb | hb | hb | hb <;> rw [hb] <;> decide
  have hunique : (∃ base digits, Announced text base digits ∧
      value? base (digitIn? base) digits = some v.toNat) ↔
      value? (labelBase text).1.toNat (digitIn? (labelBase text).1.toNat)
        (text.drop (labelBase text).2) = some v.toNat := by
    constructor
    · rintro ⟨base, digits, hannounced, hvalue⟩
      rw [← hannounced.unique.1, ← hannounced.unique.2]
      exact hvalue
    · exact fun hvalue => ⟨_, _, announced_labelBase text, hvalue⟩
  rw [hunique, rulesLabelValue, if_neg fun hq => h hq.2]
  split
  next base start hb =>
  rw [hb] at hbase ⊢
  have hstart : start ≤ text.length := by
    have hle := labelBase_start text
    rw [hb] at hle
    exact hle
  by_cases hend : start = text.length
  · rw [if_pos hend, hend, drop_length]
    simp [value?]
  have hne : text.drop start ≠ [] := by
    rw [ne_eq, drop_eq_nil_iff]
    omega
  have hlt := v.toNat_lt
  rw [if_neg hend, labelFrom_scan hbase.1 hbase.2, show (0 : UInt64).toNat = 0 from rfl,
    scan_zero_iff hbase.1 hne]
  exact and_iff_left (by omega)

/-! ### Quoted labels -/

/-- The text between the quotes and the bytes it stands for: a backslash takes the next
byte as it is, which has to be a backslash or a quote, and a byte that may stand `bare`
stands for itself. -/
inductive Escaped (bare : UInt8 → Prop) : Bytes → Bytes → Prop
  | nil : Escaped bare [] []
  | plain {c : UInt8} {text raw : Bytes} (hc : bare c) (h : Escaped bare text raw) :
    Escaped bare (c :: text) (c :: raw)
  | escape {c : UInt8} {text raw : Bytes} (hc : c = 92 ∨ c = 34) (h : Escaped bare text raw) :
    Escaped bare (92 :: c :: text) (c :: raw)

theorem appended_toNat (c : UInt8) (h : value.toNat < 2 ^ 56) :
    (value <<< 8 ||| c.toUInt64).toNat = value.toNat * 256 + c.toNat := by
  have hc : c.toNat < 2 ^ 8 := c.toNat_lt
  have hshift : value.toNat <<< 8 < 2 ^ 64 := by
    rw [Nat.shiftLeft_eq]
    omega
  rw [UInt64.toNat_or, UInt64.toNat_shiftLeft, UInt8.toNat_toUInt64,
    show (8 : UInt64).toNat % 64 = 8 from rfl, Nat.mod_eq_of_lt hshift,
    ← Nat.shiftLeft_add_eq_or_of_lt hc, Nat.shiftLeft_eq]

theorem read_lt {read : Bytes} (h : read.length < 8) : BigEndian.value read < 2 ^ 56 := by
  have hpow : 256 ^ read.length ≤ 256 ^ 7 := Nat.pow_le_pow_right (by decide) (by omega)
  exact (BigEndian.value_lt read).trans_le hpow

theorem padded_toNat {read : Bytes} {rounds : ℕ} (hvalue : value.toNat = BigEndian.value read)
    (hlen : read.length + rounds ≤ 8) :
    (padded value rounds).toNat = BigEndian.value (read ++ List.replicate rounds 0) := by
  induction rounds generalizing value read with
  | zero => simpa [padded] using hvalue
  | succ rounds ih =>
    have hstep : (value <<< 8).toNat = BigEndian.value (read ++ [0]) := by
      have h := appended_toNat 0 (hvalue ▸ read_lt (by omega))
      rw [BigEndian.value_append_singleton, ← hvalue, ← h]
      simp
    have hall := ih hstep (by simp; omega)
    rw [padded, hall, replicate_succ, append_assoc, singleton_append]

theorem labelString_plain {bytes : ℕ} (hc : c ≠ 92) (body : Bytes) (last : UInt8) :
    labelString value bytes (c :: (body ++ [last])) =
      if 8 < bytes + 1 then .error "label string exceeds 8 bytes"
      else labelString (value <<< 8 ||| c.toUInt64) (bytes + 1) (body ++ [last]) := by
  obtain ⟨next, rest, h⟩ : ∃ next rest, body ++ [last] = next :: rest :=
    exists_cons_of_ne_nil (by simp)
  rw [h, labelString, if_neg hc]

theorem labelString_escape {bytes : ℕ} (c : UInt8) (body : Bytes) (last : UInt8) :
    labelString value bytes (92 :: c :: (body ++ [last])) =
      if c ≠ 92 ∧ c ≠ 34 then .error "label strings support only escaped quote and backslash"
      else if 8 < bytes + 1 then .error "label string exceeds 8 bytes"
      else labelString (value <<< 8 ||| c.toUInt64) (bytes + 1) (body ++ [last]) := by
  rw [labelString, if_pos rfl]
  simp

theorem escaped_nil_iff {bare : UInt8 → Prop} {raw : Bytes} : Escaped bare [] raw ↔ raw = [] := by
  constructor
  · intro h
    cases h
    rfl
  · rintro rfl
    exact .nil

theorem escaped_bare_iff (hc : c ≠ 92) {body raw : Bytes} :
    Escaped (· ≠ 92) (c :: body) raw ↔
      ∃ others, raw = c :: others ∧ Escaped (· ≠ 92) body others := by
  constructor
  · intro h
    cases h with
    | plain _ h => exact ⟨_, rfl, h⟩
    | escape => exact absurd rfl hc
  · rintro ⟨others, rfl, h⟩
    exact .plain hc h

theorem escaped_escape_iff {body raw : Bytes} :
    Escaped (· ≠ 92) (92 :: c :: body) raw ↔
      (c = 92 ∨ c = 34) ∧ ∃ others, raw = c :: others ∧ Escaped (· ≠ 92) body others := by
  constructor
  · intro h
    cases h with
    | plain hc _ => exact absurd rfl hc
    | escape hc h => exact ⟨hc, _, rfl, h⟩
  · rintro ⟨hc, others, rfl, h⟩
    exact .escape hc h

theorem labelString_eq_ok_iff {v : UInt64} {read body : Bytes} {last : UInt8}
    (hvalue : value.toNat = BigEndian.value read) (hlen : read.length ≤ 8) :
    labelString value read.length (body ++ [last]) = .ok v ↔ ∃ raw, Escaped (· ≠ 92) body raw ∧
      read.length + raw.length ≤ 8 ∧ v.toNat = BigEndian.value
        (read ++ raw ++ List.replicate (8 - (read ++ raw).length) 0) := by
  induction hn : body.length using Nat.strong_induction_on generalizing body value read with
  | _ n ih =>
    -- What both kinds of characters do with the byte they stand for.
    have hstep : ∀ (c : UInt8) (rest : Bytes), rest.length < n →
        ((if 8 < read.length + 1 then .error "label string exceeds 8 bytes"
          else labelString (value <<< 8 ||| c.toUInt64) (read.length + 1) (rest ++ [last])) =
            Except.ok v ↔ ∃ raw, (∃ others, raw = c :: others ∧ Escaped (· ≠ 92) rest others) ∧
              read.length + raw.length ≤ 8 ∧ v.toNat = BigEndian.value
                (read ++ raw ++ List.replicate (8 - (read ++ raw).length) 0)) := by
      intro c rest hrest
      by_cases hfull : 8 < read.length + 1
      · rw [if_pos hfull]
        refine iff_of_false (by simp) ?_
        rintro ⟨raw, ⟨others, rfl, -⟩, hle, -⟩
        rw [length_cons] at hle
        omega
      have hnext : (value <<< 8 ||| c.toUInt64).toNat = BigEndian.value (read ++ [c]) := by
        rw [BigEndian.value_append_singleton, ← hvalue]
        exact appended_toNat c (hvalue ▸ read_lt (by omega))
      have hlength : (read ++ [c]).length = read.length + 1 := by simp
      rw [if_neg hfull, ← hlength, ih rest.length hrest hnext (by omega) rfl]
      constructor
      · rintro ⟨raw, hraw, hle, hv⟩
        refine ⟨c :: raw, ⟨raw, rfl, hraw⟩, ?_, ?_⟩
        · rw [length_cons]
          omega
        · simpa using hv
      · rintro ⟨raw, ⟨others, rfl, hothers⟩, hle, hv⟩
        refine ⟨others, hothers, ?_, ?_⟩
        · rw [length_cons] at hle
          omega
        · simpa using hv
    rcases body with _ | ⟨c, body⟩
    · have hpad : (padded value (8 - read.length)).toNat =
          BigEndian.value (read ++ List.replicate (8 - read.length) 0) :=
        padded_toNat hvalue (by omega)
      simp only [escaped_nil_iff, exists_eq_left, length_nil, add_zero, append_nil,
        nil_append]
      rw [← hpad, labelString, Except.ok.injEq, ← UInt64.toNat_inj, eq_comm]
      · exact (and_iff_right hlen).symm
      · simp
    have hshorter : body.length < n := by
      rw [← hn, length_cons]
      omega
    by_cases hc : c = 92
    · subst hc
      rcases body with _ | ⟨c, body⟩
      · -- A backslash that would escape the closing quote.
        refine iff_of_false (by simp [labelString]) ?_
        rintro ⟨raw, hraw, -⟩
        cases hraw with
        | plain hc _ => exact hc rfl
      rw [cons_append, cons_append, labelString_escape]
      simp only [escaped_escape_iff]
      by_cases hcode : c = 92 ∨ c = 34
      · rw [if_neg (by tauto), hstep c body (by rw [length_cons] at hshorter; omega)]
        simp [hcode]
      · rw [if_pos (by tauto)]
        simp [hcode]
    · rw [cons_append, labelString_plain hc, hstep c body hshorter]
      simp only [escaped_bare_iff hc]

theorem rulesLabelValue_quoted (h : text.head? = some 34) {v : UInt64} :
    rulesLabelValue text = .ok v ↔ ∃ body raw, text = 34 :: (body ++ [34]) ∧
      Escaped (· ≠ 92) body raw ∧ raw.length ≤ 8 ∧
        v.toNat = BigEndian.value (raw ++ List.replicate (8 - raw.length) 0) := by
  obtain ⟨rest, rfl⟩ : ∃ rest, text = 34 :: rest := by
    cases text with
    | nil => cases h
    | cons c rest =>
      cases h
      exact ⟨rest, rfl⟩
  rw [rulesLabelValue, if_pos ⟨by simp, rfl⟩]
  rcases eq_nil_or_concat rest with rfl | ⟨body, last, hrest⟩
  · simp
  rw [concat_eq_append] at hrest
  subst hrest
  have hlast : (34 :: (body ++ [last])).getLast? = some last := by
    rw [← cons_append, List.getLast?_append]
    rfl
  by_cases hquote : last = 34
  · subst hquote
    have hscan := @labelString_eq_ok_iff 0 v [] body 34 rfl (by decide)
    rw [if_neg (by simp [hlast]), drop_one, tail_cons]
    refine hscan.trans ?_
    simp
  rw [if_pos (.inr (by simpa [hlast] using hquote))]
  refine iff_of_false (by simp) ?_
  rintro ⟨body', raw, htext, -⟩
  rw [List.cons.injEq] at htext
  have hlast' := (append_inj' htext.2 rfl).2
  exact hquote (singleton_injective hlast')

theorem exists_ok_toNat_iff {r : Except String UInt64} {P : ℕ → Prop}
    (h : ∀ v, r = .ok v ↔ P v.toNat) (n : ℕ) :
    (∃ v, r = .ok v ∧ v.toNat = n) ↔ P n ∧ n < 2 ^ 64 := by
  constructor
  · rintro ⟨v, hv, rfl⟩
    exact ⟨(h v).mp hv, v.toNat_lt⟩
  · rintro ⟨hP, hlt⟩
    have hn : (UInt64.ofNat n).toNat = n := UInt64.toNat_ofNat_of_lt' hlt
    exact ⟨UInt64.ofNat n, (h _).mpr (hn.symm ▸ hP), hn⟩

/-- The three parsers return the number that their text denotes, and nothing for any other
text. Inside a quoted label a quote without a backslash stands for itself. -/
theorem integer_literals_exact :
    (∀ s n, (∃ v, rulesNumber s = .ok v ∧ v.toNat = n) ↔
      value? 10 digit? s = some n ∧ n < 2 ^ 64) ∧
    (∀ text n, text.head? ≠ some 34 → ((∃ v, rulesLabelValue text = .ok v ∧ v.toNat = n) ↔
      (∃ base digits, Announced text base digits ∧ value? base (digitIn? base) digits = some n) ∧
        n < 2 ^ 64)) ∧
    (∀ text v, text.head? = some 34 → (rulesLabelValue text = .ok v ↔
      ∃ body raw, text = 34 :: (body ++ [34]) ∧ Escaped (· ≠ 92) body raw ∧ raw.length ≤ 8 ∧
        v.toNat = BigEndian.value (raw ++ List.replicate (8 - raw.length) 0))) ∧
    ∀ s maximum n, controlLength s maximum = .ok n ↔
      value? 10 digit? s = some n ∧ n ≤ maximum := by
  refine ⟨fun s n => ?_, fun text n h => ?_, fun _ _ h => rulesLabelValue_quoted h,
    fun _ _ _ => controlLength_eq_ok_iff⟩
  · exact @exists_ok_toNat_iff _ (fun n => value? 10 digit? s = some n)
      (fun _ => rulesNumber_eq_ok_iff) n
  · exact @exists_ok_toNat_iff _ (fun n => ∃ base digits, Announced text base digits ∧
      value? base (digitIn? base) digits = some n) (fun _ => rulesLabelValue_unquoted h) n

/-- Three quotes are read as the label of one quote, though the inner quote is not escaped. -/
theorem bare_quote_accepted :
    rulesLabelValue (ascii "\"\"\"") = .ok 0x2200000000000000 ∧
      ¬∃ body raw, ascii "\"\"\"" = 34 :: (body ++ [34]) ∧
        Escaped (fun c => c ≠ 92 ∧ c ≠ 34) body raw := by
  refine ⟨by decide +kernel, ?_⟩
  rintro ⟨body, raw, htext, hescaped⟩
  have hbody : body = [34] := by
    have hquotes : ascii "\"\"\"" = [34, 34, 34] := by decide
    rw [hquotes, List.cons.injEq] at htext
    exact (List.append_inj' (show [34] ++ [34] = body ++ [34] from htext.2) rfl).1.symm
  subst hbody
  cases hescaped with
  | plain hc _ => exact hc.2 rfl

end Tuntom
