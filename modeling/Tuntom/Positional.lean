import Mathlib.Data.Nat.Digits.Defs
import Mathlib.Tactic.Ring

/-! Numbers written in a base, read digit by digit into a counter with an upper limit.
The guard of each step divides before it multiplies, so no intermediate value passes the
limit. -/
namespace Positional

variable {α : Type}

/-- The number that a text of digits denotes; a text without digits denotes none. -/
def value? (base : ℕ) (digit : α → Option ℕ) (text : List α) : Option ℕ :=
  if text = [] then none
  else (text.mapM digit).map fun digits => Nat.ofDigits base digits.reverse

def scan (base limit : ℕ) (digit : α → Option ℕ) : ℕ → List α → Option ℕ
  | n, [] => some n
  | n, c :: rest => do
    let d ← digit c
    if limit < d ∨ (limit - d) / base < n then none
    else scan base limit digit (n * base + d) rest

theorem guard_iff {base limit d n : ℕ} (hbase : 0 < base) :
    (limit < d ∨ (limit - d) / base < n) ↔ limit < n * base + d := by
  rw [Nat.div_lt_iff_lt_mul hbase]
  omega

theorem ofDigits_reverse_cons (base d : ℕ) (digits : List ℕ) :
    Nat.ofDigits base (d :: digits).reverse =
      d * base ^ digits.length + Nat.ofDigits base digits.reverse := by
  rw [List.reverse_cons, Nat.ofDigits_append, Nat.ofDigits_singleton, List.length_reverse]
  ring

/-- The loop computes the value of the whole text, and fails exactly if a character is no
digit or the value passes the limit. -/
theorem scan_eq_some_iff {base limit : ℕ} {digit : α → Option ℕ} (hbase : 0 < base)
    {text : List α} {n v : ℕ} (hn : n ≤ limit) :
    scan base limit digit n text = some v ↔ ∃ digits, text.mapM digit = some digits ∧
      n * base ^ digits.length + Nat.ofDigits base digits.reverse = v ∧ v ≤ limit := by
  induction text generalizing n with
  | nil =>
    simp [scan]
    omega
  | cons c rest ih =>
    cases hc : digit c with
    | none => simp [scan, hc]
    | some d =>
      have hvalue : ∀ digits : List ℕ, n * base ^ (d :: digits).length +
          Nat.ofDigits base (d :: digits).reverse =
            (n * base + d) * base ^ digits.length + Nat.ofDigits base digits.reverse := by
        intro digits
        rw [ofDigits_reverse_cons, List.length_cons, pow_succ]
        ring
      have hcons : (∃ digits, (c :: rest).mapM digit = some digits ∧
          n * base ^ digits.length + Nat.ofDigits base digits.reverse = v ∧ v ≤ limit) ↔
          ∃ digits, rest.mapM digit = some digits ∧
            (n * base + d) * base ^ digits.length + Nat.ofDigits base digits.reverse = v ∧
              v ≤ limit := by
        constructor
        · rintro ⟨digits, hdigits, hsum, hle⟩
          obtain ⟨others, hothers, rfl⟩ : ∃ others, rest.mapM digit = some others ∧
              d :: others = digits := by
            simpa [hc, List.mapM_cons, Option.bind_eq_some_iff] using hdigits
          exact ⟨others, hothers, (hvalue others).symm.trans hsum, hle⟩
        · rintro ⟨digits, hdigits, hsum, hle⟩
          exact ⟨d :: digits, by simp [hc, hdigits, List.mapM_cons], (hvalue digits).trans hsum, hle⟩
      rw [hcons, scan, hc, Option.bind_eq_bind, Option.bind_some]
      by_cases hguard : limit < n * base + d
      · rw [if_pos ((guard_iff hbase).mpr hguard)]
        refine iff_of_false (by simp) ?_
        rintro ⟨digits, -, hsum, hle⟩
        -- The value so far is already too large, and the other digits only increase it.
        have hgrow := Nat.mul_le_mul_left (n * base + d) (Nat.one_le_pow digits.length base hbase)
        omega
      · rw [if_neg fun h => hguard ((guard_iff hbase).mp h)]
        exact ih (Nat.le_of_not_lt hguard)

theorem scan_zero_iff {base limit : ℕ} {digit : α → Option ℕ} (hbase : 0 < base)
    {text : List α} (htext : text ≠ []) {v : ℕ} :
    scan base limit digit 0 text = some v ↔ value? base digit text = some v ∧ v ≤ limit := by
  rw [scan_eq_some_iff hbase (Nat.zero_le _), value?, if_neg htext]
  simp only [zero_mul, zero_add, Option.map_eq_some_iff, ← and_assoc, exists_and_right]

end Positional
