import Mathlib.Data.List.Basic

/-! A buffer of fixed size as a list, and writing a block of it in place. -/
namespace Overwrite
open List

variable {α : Type*}

/-- The buffer with the cells from `start` on replaced by `block`. -/
def write (buffer : List α) (start : ℕ) (block : List α) : List α :=
  buffer.take start ++ (block ++ buffer.drop (start + block.length))

def move (buffer : List α) (target source size : ℕ) : List α :=
  write buffer target ((buffer.drop source).take size)

theorem length_write {buffer block : List α} {start : ℕ} (h : start + block.length ≤ buffer.length) :
    (write buffer start block).length = buffer.length := by
  rw [write, length_append, length_append, length_take, length_drop]
  omega

@[simp] theorem write_nil (buffer : List α) (start : ℕ) : write buffer start [] = buffer := by
  simp [write]

theorem write_append {front mid back block : List α} {start : ℕ} (hs : front.length = start)
    (hb : mid.length = block.length) :
    write (front ++ (mid ++ back)) start block = front ++ (block ++ back) := by
  subst hs
  rw [write, take_left, ← hb, ← drop_drop, drop_left, drop_left]

theorem write_write {buffer first second : List α} {start : ℕ}
    (h : start + first.length ≤ buffer.length) :
    write (write buffer start first) (start + first.length) second =
      write buffer start (first ++ second) := by
  have hfront : (buffer.take start ++ first).length = start + first.length := by
    rw [length_append, length_take]
    omega
  rw [write, write, write, ← append_assoc (buffer.take start), ← hfront, take_left,
    ← drop_drop, drop_left, hfront, drop_drop, length_append, ← Nat.add_assoc]
  simp only [append_assoc]

theorem getElem?_write {buffer block : List α} {start : ℕ}
    (h : start + block.length ≤ buffer.length) (i : ℕ) :
    (write buffer start block)[i]? =
      if start ≤ i ∧ i < start + block.length then block[i - start]? else buffer[i]? := by
  have hfront : (buffer.take start).length = start := by
    rw [length_take]
    omega
  rw [write]
  by_cases hbefore : i < start
  · rw [if_neg (by omega), List.getElem?_append_left (by omega), List.getElem?_take_of_lt hbefore]
  rw [List.getElem?_append_right (by omega), hfront]
  by_cases hinside : i < start + block.length
  · rw [if_pos (by omega), List.getElem?_append_left (by omega)]
  rw [if_neg (by omega), List.getElem?_append_right (by omega), List.getElem?_drop]
  congr 1
  omega

theorem write_over {buffer first second : List α} {start : ℕ}
    (h : start + first.length ≤ buffer.length) (hsame : second.length = first.length) :
    write (write buffer start first) start second = write buffer start second := by
  refine ext_getElem? fun i => ?_
  rw [getElem?_write (by rw [length_write h]; omega), getElem?_write h, getElem?_write (by omega)]
  split
  · rfl
  · rw [if_neg (by omega)]

end Overwrite
