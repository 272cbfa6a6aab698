import Mathlib

/-! Binary search for the place where a predicate on indices turns false, step by step as
`std::lower_bound` does it. -/
namespace LowerBound

/-- The first index of `first .. first + len` that is not `before`. -/
def search (before : ℕ → Bool) (first len : ℕ) : ℕ :=
  if len = 0 then first
  else if before (first + len / 2) then search before (first + len / 2 + 1) (len - len / 2 - 1)
  else search before first (len / 2)
termination_by len
decreasing_by all_goals omega

variable {before : ℕ → Bool}

/-- Where all indices before `k` are `before` and none from `k` on is, the search ends at `k`. -/
theorem search_eq {k first len : ℕ} (hfirst : first ≤ k) (hlast : k ≤ first + len)
    (hbelow : ∀ i < k, before i = true) (habove : ∀ i, k ≤ i → i < first + len → before i = false) :
    search before first len = k := by
  induction len using Nat.strong_induction_on generalizing first with
  | _ len ih =>
    rw [search]
    split
    next hlen => omega
    next hlen =>
    split
    next hbefore =>
      have hmid : first + len / 2 < k := by
        by_contra hge
        rw [habove _ (by omega) (by omega)] at hbefore
        cases hbefore
      exact ih _ (by omega) hmid (by omega) (fun i hk hi => habove i hk (by omega))
    next hbefore =>
    have hmid : k ≤ first + len / 2 := by
      by_contra hlt
      exact hbefore (hbelow _ (by omega))
    exact ih _ (by omega) hfirst hmid (fun i hk hi => habove i hk (by omega))

end LowerBound
