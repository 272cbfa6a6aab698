import Mathlib.Data.Nat.ModEq
import Mathlib.Algebra.BigOperators.Group.List.Basic

/-! One's-complement sums: the carry out of the highest place is added at the lowest, so
the sum of words up to `top` stays up to `top` and is known modulo `top`. -/
namespace OnesComplement

def add (top a b : ℕ) : ℕ := if a + b ≤ top then a + b else a + b - top

def sum (top : ℕ) (words : List ℕ) : ℕ := words.foldl (add top) 0

theorem add_le {top a b : ℕ} (ha : a ≤ top) (hb : b ≤ top) : add top a b ≤ top := by
  rw [add]
  split <;> omega

theorem add_modEq (top a b : ℕ) : add top a b ≡ a + b [MOD top] := by
  rw [add]
  split
  · rfl
  next h =>
  have hsum : a + b - top + top = a + b := by omega
  exact (Nat.add_mod_right _ _).symm.trans (congrArg (· % top) hsum)

theorem add_eq_zero_iff {top a b : ℕ} (hb : b ≤ top) : add top a b = 0 ↔ a = 0 ∧ b = 0 := by
  rw [add]
  split <;> omega

theorem foldl_le {top a : ℕ} {words : List ℕ} (hw : ∀ w ∈ words, w ≤ top) (ha : a ≤ top) :
    words.foldl (add top) a ≤ top := by
  induction words generalizing a with
  | nil => exact ha
  | cons w rest ih =>
    rw [List.forall_mem_cons] at hw
    exact ih hw.2 (add_le ha hw.1)

theorem foldl_modEq (top a : ℕ) (words : List ℕ) :
    words.foldl (add top) a ≡ a + words.sum [MOD top] := by
  induction words generalizing a with
  | nil => rfl
  | cons w rest ih =>
    rw [List.foldl_cons, List.sum_cons, ← Nat.add_assoc]
    exact (ih _).trans ((add_modEq top a w).add_right _)

theorem foldl_eq_zero_iff {top a : ℕ} {words : List ℕ} (hw : ∀ w ∈ words, w ≤ top) :
    words.foldl (add top) a = 0 ↔ a = 0 ∧ ∀ w ∈ words, w = 0 := by
  induction words generalizing a with
  | nil => simp
  | cons w rest ih =>
    rw [List.forall_mem_cons] at hw
    rw [List.foldl_cons, ih hw.2, add_eq_zero_iff hw.1,
      List.forall_mem_cons, and_assoc]

theorem sum_le {top : ℕ} {words : List ℕ} (hw : ∀ w ∈ words, w ≤ top) : sum top words ≤ top :=
  foldl_le hw (Nat.zero_le _)

theorem sum_modEq (top : ℕ) (words : List ℕ) : sum top words ≡ words.sum [MOD top] := by
  simpa [sum] using foldl_modEq top 0 words

theorem sum_eq_zero_iff {top : ℕ} {words : List ℕ} (hw : ∀ w ∈ words, w ≤ top) :
    sum top words = 0 ↔ ∀ w ∈ words, w = 0 := by
  simpa [sum] using @foldl_eq_zero_iff top 0 words hw

/-- The word that completes a sum: with the complement of the sum in the place of a zero,
the sum is `top`, also where the sum was already `top`. -/
theorem sum_complement {top : ℕ} {front back : List ℕ} (hf : ∀ w ∈ front, w ≤ top)
    (hb : ∀ w ∈ back, w ≤ top) :
    sum top (front ++ (top - sum top (front ++ 0 :: back)) :: back) = top := by
  have hplace : ∀ v ≤ top, ∀ w ∈ front ++ v :: back, w ≤ top := by
    intro v hv
    rw [List.forall_mem_append, List.forall_mem_cons]
    exact ⟨hf, hv, hb⟩
  have hzero := hplace 0 (Nat.zero_le _)
  have hall := hplace (top - sum top (front ++ 0 :: back)) (Nat.sub_le _ _)
  have hold := sum_le hzero
  have hle := sum_le hall
  -- Modulo `top` the complement cancels the sum of the other words.
  have hmod : sum top (front ++ (top - sum top (front ++ 0 :: back)) :: back) ≡ 0 [MOD top] := by
    refine (sum_modEq top _).trans ?_
    have hsplit : (front ++ (top - sum top (front ++ 0 :: back)) :: back).sum =
        (top - sum top (front ++ 0 :: back)) + (front ++ 0 :: back).sum := by
      simp
      omega
    rw [hsplit]
    refine ((sum_modEq top (front ++ 0 :: back)).symm.add_left _).trans ?_
    rw [Nat.sub_add_cancel hold]
    exact Nat.mod_self top
  by_cases hpos : sum top (front ++ (top - sum top (front ++ 0 :: back)) :: back) = 0
  · rw [hpos]
    rw [sum_eq_zero_iff hall] at hpos
    have hcomplement : top - sum top (front ++ 0 :: back) = 0 := hpos _ (by simp)
    have hwords : sum top (front ++ 0 :: back) = 0 := by
      rw [sum_eq_zero_iff hzero]
      intro w hw
      rcases List.mem_append.mp hw with hw | hw
      · exact hpos w (by simp [hw])
      rcases List.mem_cons.mp hw with rfl | hw
      · rfl
      · exact hpos w (by simp [hw])
    omega
  · have hdvd := Nat.modEq_zero_iff_dvd.mp hmod
    exact Nat.le_antisymm hle (Nat.le_of_dvd (Nat.pos_of_ne_zero hpos) hdvd)

end OnesComplement
