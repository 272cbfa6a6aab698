import Tuntom.LowerBound
import Tuntom.SessionModel

/-! The replay window of the data packets: the array of `replay.hpp` with its binary search
and its shift loop, the list that it stands for, and the history of all accepted values
that the list is a summary of. -/
namespace Tuntom

/-! ### Descending lists -/

theorem not_gt_of_mem_dropWhile {l : List UInt64} (h : l.Pairwise (· > ·)) {x b : UInt64}
    (hb : b ∈ l.dropWhile (· > x)) : ¬b > x := by
  induction h with
  | nil => cases hb
  | @cons a l hall _ ih =>
    by_cases ha : a > x
    · rw [List.dropWhile_cons_of_pos (by simpa using ha)] at hb
      exact ih hb
    rw [List.dropWhile_cons_of_neg (by simpa using ha)] at hb
    rcases List.mem_cons.mp hb with rfl | hb
    · exact ha
    · exact fun hlt => ha (UInt64.lt_trans hlt (hall b hb))

theorem gt_of_mem_takeWhile {l : List UInt64} {x a : UInt64} (ha : a ∈ l.takeWhile (· > x)) :
    a > x := by
  have himp := List.mem_takeWhile_imp ha
  exact of_decide_eq_true himp

theorem drop_length_takeWhile {α : Type*} (p : α → Bool) (l : List α) :
    l.drop (l.takeWhile p).length = l.dropWhile p := by
  nth_rewrite 2 [← List.takeWhile_append_dropWhile (p := p) (l := l)]
  exact List.drop_left

theorem head?_dropWhile_iff {l : List UInt64} (h : l.Pairwise (· > ·)) {x : UInt64} :
    (l.dropWhile (· > x)).head? = some x ↔ x ∈ l := by
  constructor
  · intro hhead
    exact (List.dropWhile_suffix _).subset (List.mem_of_mem_head? hhead)
  · intro hx
    rw [← List.takeWhile_append_dropWhile (p := (· > x)) (l := l), List.mem_append] at hx
    rcases hx with hx | hx
    · exact absurd (gt_of_mem_takeWhile hx) (UInt64.lt_irrefl x)
    have hsorted := h.sublist (List.dropWhile_sublist (p := (· > x)))
    rcases hcase : l.dropWhile (· > x) with _ | ⟨b, rest⟩
    · rw [hcase] at hx
      cases hx
    rw [hcase] at hx hsorted
    have hb : ¬b > x := not_gt_of_mem_dropWhile h (by rw [hcase]; exact List.mem_cons_self)
    rcases List.mem_cons.mp hx with rfl | hx
    · rfl
    · exact absurd (List.rel_of_pairwise_cons hsorted hx) hb

/-! ### The array -/

/-- `ReplayWindow` of the source. -/
structure ReplayArray where
  sequences : Vector UInt64 64 := Vector.replicate 64 0
  count : ℕ := 0

namespace ReplayArray

def element (sequences : Vector UInt64 64) (i : ℕ) : UInt64 := sequences[i]?.getD 0

/-- The loop that moves the elements from `index` on up by one, from `i` down. -/
def shift (sequences : Vector UInt64 64) (index : ℕ) : ℕ → Vector UInt64 64
  | 0 => sequences
  | i + 1 =>
    if index < i + 1 then shift (sequences.setIfInBounds (i + 1) (element sequences i)) index i
    else sequences

def accept (w : ReplayArray) (sequence : UInt64) : Bool × ReplayArray :=
  if sequence = 0 then (false, w)
  else
    let index := LowerBound.search (fun i => element w.sequences i > sequence) 0 w.count
    if index ≠ w.count ∧ element w.sequences index = sequence then (false, w)
    else if index = 64 then (false, w)
    else
      (true,
        { sequences := (shift w.sequences index (min w.count 63)).setIfInBounds index sequence
          count := min (w.count + 1) 64 })

def window (w : ReplayArray) : ReplayWindow := w.sequences.toList.take w.count

structure Ordered (w : ReplayArray) : Prop where
  count_le : w.count ≤ 64
  descending : w.window.Pairwise (· > ·)

theorem length_window {w : ReplayArray} (h : w.Ordered) : w.window.length = w.count := by
  simp [window, h.count_le]

theorem getElem?_window (w : ReplayArray) (i : ℕ) :
    w.window[i]? = if i < w.count then w.sequences[i]? else none := by
  simp [window, List.getElem?_take]

theorem element_of_window {w : ReplayArray} {i : ℕ} {x : UInt64} (hx : w.window[i]? = some x) :
    element w.sequences i = x := by
  rw [getElem?_window] at hx
  split at hx
  · rw [element, hx]
    rfl
  · cases hx

theorem search_window {w : ReplayArray} (h : w.Ordered) (sequence : UInt64) :
    LowerBound.search (fun i => element w.sequences i > sequence) 0 w.count =
      (w.window.takeWhile (· > sequence)).length := by
  have hsplit := List.takeWhile_append_dropWhile (p := (· > sequence)) (l := w.window)
  have hlen := congrArg List.length hsplit
  rw [List.length_append, length_window h] at hlen
  refine LowerBound.search_eq (Nat.zero_le _) (by omega) (fun i hi => ?_) (fun i hk hi => ?_)
  · have hget : w.window[i]? = (w.window.takeWhile (· > sequence))[i]? := by
      conv_lhs => rw [← hsplit]
      exact List.getElem?_append_left hi
    rw [List.getElem?_eq_getElem hi] at hget
    rw [element_of_window hget]
    exact decide_eq_true (gt_of_mem_takeWhile (List.getElem_mem hi))
  · have hget : w.window[i]? =
        (w.window.dropWhile (· > sequence))[i - (w.window.takeWhile (· > sequence)).length]? := by
      conv_lhs => rw [← hsplit]
      exact List.getElem?_append_right hk
    have hi' : i - (w.window.takeWhile (· > sequence)).length <
        (w.window.dropWhile (· > sequence)).length := by omega
    rw [List.getElem?_eq_getElem hi'] at hget
    rw [element_of_window hget]
    exact decide_eq_false (not_gt_of_mem_dropWhile h.descending (List.getElem_mem hi'))

theorem getElem?_shift (sequences : Vector UInt64 64) (index i j : ℕ) (hi : i < 64) :
    (shift sequences index i)[j]? =
      if index < j ∧ j ≤ i then sequences[j - 1]? else sequences[j]? := by
  induction i generalizing sequences with
  | zero =>
    rw [shift, if_neg (by omega)]
  | succ i ih =>
    rw [shift]
    split
    next hlt =>
      have hprev : sequences[i]? = some (element sequences i) := by
        rw [element, Vector.getElem?_eq_getElem (by omega)]
        rfl
      rw [ih _ (by omega)]
      by_cases hj : j = i + 1
      · subst hj
        rw [if_neg (by omega), if_pos (by omega), Vector.getElem?_setIfInBounds, if_pos rfl,
          if_pos hi, Nat.add_sub_cancel, hprev]
      rw [Vector.getElem?_setIfInBounds, Vector.getElem?_setIfInBounds, if_neg (Ne.symm hj)]
      by_cases hin : index < j ∧ j ≤ i
      · rw [if_pos hin, if_neg (show ¬i + 1 = j - 1 by omega),
          if_pos (show index < j ∧ j ≤ i + 1 by omega)]
      · rw [if_neg hin, if_neg (by omega)]
    next hle => rw [if_neg (by omega)]

theorem window_insert {w : ReplayArray} (hcount : w.count ≤ 64) {index : ℕ} (hle : index ≤ w.count)
    (hlt : index < 64) (sequence : UInt64) :
    window
      { sequences := (shift w.sequences index (min w.count 63)).setIfInBounds index sequence
        count := min (w.count + 1) 64 } =
      (w.window.take index ++ sequence :: w.window.drop index).take 64 := by
  have hlen : (w.window.take index).length = index := by
    simp [window]
    omega
  refine List.ext_getElem? fun j => ?_
  rw [getElem?_window]
  dsimp only
  rw [Vector.getElem?_setIfInBounds, getElem?_shift _ _ _ _ (by omega), List.getElem?_take]
  rcases Nat.lt_trichotomy j index with hj | rfl | hj
  · rw [if_pos (show j < min (w.count + 1) 64 by omega), if_pos (show j < 64 by omega),
      if_neg (show ¬index = j by omega), if_neg (show ¬(index < j ∧ _) by omega),
      List.getElem?_append_left (by omega), List.getElem?_take, if_pos hj, getElem?_window,
      if_pos (by omega)]
  · rw [if_pos (show j < min (w.count + 1) 64 by omega), if_pos hlt, if_pos rfl, if_pos hlt,
      List.getElem?_append_right (by omega), hlen, Nat.sub_self, List.getElem?_cons_zero]
  rw [List.getElem?_append_right (by omega), hlen]
  obtain ⟨d, rfl⟩ : ∃ d, j = index + d + 1 := ⟨j - index - 1, by omega⟩
  rw [show index + d + 1 - index = d + 1 by omega, List.getElem?_cons_succ, List.getElem?_drop,
    getElem?_window]
  by_cases hin : index + d < w.count ∧ index + d + 1 < 64
  · rw [if_pos (show _ < min (w.count + 1) 64 by omega), if_pos hin.2, if_pos hin.1,
      if_neg (show ¬index = _ by omega),
      if_pos (show index < index + d + 1 ∧ index + d + 1 ≤ min w.count 63 by omega),
      Nat.add_sub_cancel]
  rw [if_neg (show ¬_ < min (w.count + 1) 64 by omega)]
  by_cases h64 : index + d + 1 < 64
  · rw [if_pos h64, if_neg (by omega)]
  · rw [if_neg h64]

theorem accept_window {w : ReplayArray} (h : w.Ordered) (sequence : UInt64) :
    ((w.accept sequence).1, (w.accept sequence).2.window) = w.window.accept sequence := by
  have hlen := length_window h
  have hle := (List.takeWhile_prefix (l := w.window) (· > sequence)).length_le
  rw [accept, ReplayWindow.accept]
  split
  next => rfl
  next hzero =>
  rw [search_window h]
  have hhead : (w.window.drop (w.window.takeWhile (· > sequence)).length).head? = some sequence ↔
      (w.window.takeWhile (· > sequence)).length ≠ w.count ∧
        element w.sequences (w.window.takeWhile (· > sequence)).length = sequence := by
    rw [List.head?_drop]
    constructor
    · intro hsome
      have hlt := (List.getElem?_eq_some_iff.mp hsome).1
      exact ⟨by omega, element_of_window hsome⟩
    · rintro ⟨hne, helement⟩
      have hlt : (w.window.takeWhile (· > sequence)).length < w.window.length := by omega
      have hget := List.getElem?_eq_getElem hlt
      rw [hget, ← element_of_window hget, helement]
  dsimp only
  by_cases hfound : (w.window.drop (w.window.takeWhile (· > sequence)).length).head? = some sequence
  · rw [if_pos hfound, if_pos (hhead.mp hfound)]
  rw [if_neg hfound, if_neg (fun hcase => hfound (hhead.mpr hcase))]
  by_cases hfull : (w.window.takeWhile (· > sequence)).length = 64
  · rw [if_pos hfull, if_pos (show _ = ReplayWindow.size from hfull)]
  have hcount := h.count_le
  have htake : w.window.take (w.window.takeWhile (· > sequence)).length =
      w.window.takeWhile (· > sequence) :=
    (List.prefix_iff_eq_take.mp (List.takeWhile_prefix _)).symm
  rw [if_neg hfull, if_neg (show ¬_ = ReplayWindow.size from hfull)]
  dsimp only
  rw [window_insert hcount (by omega) (by omega), htake]
  rfl

end ReplayArray

/-! ### The whole history -/

/-- The `n`th largest of a list of values. -/
def nthLargest (n : ℕ) (values : List UInt64) : Option UInt64 :=
  (values.insertionSort (· ≥ ·))[n - 1]?

structure ReplayWindow.Summary (window : ReplayWindow) (accepted : List UInt64) : Prop where
  nodup : accepted.Nodup
  largest : window = (accepted.insertionSort (· ≥ ·)).take ReplayWindow.size

namespace ReplayWindow

theorem sorted_descending {accepted : List UInt64} (h : accepted.Nodup) :
    (accepted.insertionSort (· ≥ ·)).Pairwise (· > ·) := by
  have hsorted := List.pairwise_insertionSort (· ≥ ·) accepted
  have hnodup := (List.perm_insertionSort (· ≥ ·) accepted).nodup_iff.mpr h
  refine (hsorted.and hnodup).imp ?_
  rintro a b ⟨hge, hne⟩
  exact UInt64.lt_of_le_of_ne hge (Ne.symm hne)

theorem accept_take {l : List UInt64} (h : l.Pairwise (· > ·)) {x : UInt64} (hx : x ≠ 0) :
    accept (l.take size) x =
      if x ∈ l ∨ size ≤ (l.takeWhile (· > x)).length then (false, l.take size)
      else (true, (l.orderedInsert (· ≥ ·) x).take size) := by
  have habove : (l.take size).takeWhile (· > x) = (l.takeWhile (· > x)).take size :=
    List.take_takeWhile.symm
  rw [accept, if_neg hx]
  dsimp only
  by_cases hfull : size ≤ (l.takeWhile (· > x)).length
  · have hlen : ((l.takeWhile (· > x)).take size).length = size := List.length_take_of_le hfull
    have hdrop : (l.take size).drop size = [] := List.drop_eq_nil_of_le (List.length_take_le _ _)
    rw [habove, hlen, hdrop, if_neg (by simp), if_pos rfl, if_pos (.inr hfull)]
  have htake : (l.takeWhile (· > x)).take size = l.takeWhile (· > x) :=
    List.take_of_length_le (by omega)
  have hbelow : (l.take size).drop (l.takeWhile (· > x)).length =
      (l.dropWhile (· > x)).take (size - (l.takeWhile (· > x)).length) := by
    rw [List.drop_take, drop_length_takeWhile]
  have hhead : ((l.dropWhile (· > x)).take (size - (l.takeWhile (· > x)).length)).head? =
      (l.dropWhile (· > x)).head? := by
    rw [List.head?_take, if_neg (by omega)]
  rw [habove, htake, hbelow, hhead]
  by_cases hmem : x ∈ l
  · rw [if_pos ((head?_dropWhile_iff h).mpr hmem), if_pos (.inl hmem)]
  rw [if_neg (fun hhead => hmem ((head?_dropWhile_iff h).mp hhead)), if_neg (by omega),
    if_neg (fun hor => hor.elim hmem hfull), List.orderedInsert_eq_take_drop]
  have hlarger : (fun b => decide ¬x ≥ b) = fun b => decide (b > x) := by
    funext b
    exact decide_eq_decide.mpr UInt64.not_le
  rw [hlarger, List.take_append, List.take_append, List.take_cons (by omega),
    List.take_cons (by omega), List.take_take, min_eq_left (by omega)]

/-- Fewer than 64 values are larger than a new one if there are fewer than 64 values, or
the 64th is smaller than it. -/
theorem nth_lt_iff {l : List UInt64} (h : l.Pairwise (· > ·)) {x : UInt64} (hx : x ∉ l) :
    (l.takeWhile (· > x)).length < size ↔
      l.length < size ∨ ∃ y, l[size - 1]? = some y ∧ y < x := by
  have hsplit := List.takeWhile_append_dropWhile (p := (· > x)) (l := l)
  have hlen := congrArg List.length hsplit
  rw [List.length_append] at hlen
  have hpos : 0 < size := by decide
  constructor
  · intro hlt
    by_cases hshort : l.length < size
    · exact .inl hshort
    have hindex : size - 1 < l.length := by omega
    have hmem : l[size - 1] ∈ l.dropWhile (· > x) := by
      have hget : l[size - 1]? =
          (l.dropWhile (· > x))[size - 1 - (l.takeWhile (· > x)).length]? := by
        conv_lhs => rw [← hsplit]
        exact List.getElem?_append_right (by omega)
      rw [List.getElem?_eq_getElem hindex] at hget
      exact List.mem_of_getElem? hget.symm
    have hle := UInt64.not_lt.mp (not_gt_of_mem_dropWhile h hmem)
    have hne : l[size - 1] ≠ x := fun heq => hx (heq ▸ List.getElem_mem hindex)
    exact .inr ⟨_, List.getElem?_eq_getElem hindex, UInt64.lt_of_le_of_ne hle hne⟩
  · rintro (hshort | ⟨y, hy, hlt⟩)
    · omega
    · by_contra hfull
      have hget : l[size - 1]? = (l.takeWhile (· > x))[size - 1]? := by
        conv_lhs => rw [← hsplit]
        exact List.getElem?_append_left (by omega)
      rw [hy] at hget
      exact UInt64.lt_asymm hlt (gt_of_mem_takeWhile (List.mem_of_getElem? hget.symm))

theorem Summary.accept {window : ReplayWindow} {accepted : List UInt64}
    (h : window.Summary accepted) (x : UInt64) :
    ((window.accept x).1 = true ↔ x ≠ 0 ∧ x ∉ accepted ∧
      (accepted.length < size ∨ ∃ y, nthLargest size accepted = some y ∧ y < x)) ∧
    (window.accept x).2.Summary (if (window.accept x).1 then x :: accepted else accepted) := by
  have hsorted := sorted_descending h.nodup
  have hperm := List.perm_insertionSort (· ≥ ·) accepted
  by_cases hzero : x = 0
  · have hrefused : window.accept x = (false, window) := if_pos hzero
    rw [hrefused]
    exact ⟨by simp [hzero], h⟩
  rw [h.largest, accept_take hsorted hzero]
  by_cases hmem : x ∈ accepted
  · rw [if_pos (.inl (hperm.mem_iff.mpr hmem))]
    exact ⟨by simp [hmem], ⟨h.nodup, rfl⟩⟩
  have hnot : x ∉ accepted.insertionSort (· ≥ ·) := fun hx => hmem (hperm.mem_iff.mp hx)
  have hnth := nth_lt_iff hsorted hnot
  rw [hperm.length_eq] at hnth
  by_cases hfull : size ≤ ((accepted.insertionSort (· ≥ ·)).takeWhile (· > x)).length
  · rw [if_pos (.inr hfull)]
    refine ⟨iff_of_false (by simp) fun hall => ?_, ⟨h.nodup, rfl⟩⟩
    exact absurd (hnth.mpr hall.2.2) (Nat.not_lt.mpr hfull)
  rw [if_neg (fun hor => hor.elim hnot hfull)]
  exact ⟨iff_of_true rfl ⟨hzero, hmem, hnth.mp (Nat.not_le.mp hfull)⟩,
    ⟨List.nodup_cons.mpr ⟨hmem, h.nodup⟩, rfl⟩⟩

end ReplayWindow

namespace ReplayArray

/-- One call of `accept`, with its answer. -/
def step (w : ReplayArray) (sequence : UInt64) : ReplayArray × Bool :=
  ((w.accept sequence).2, (w.accept sequence).1)

def accepted (past : List (UInt64 × Bool)) : List UInt64 := (past.filter Prod.snd).map Prod.fst

theorem trace_summary {past : List (UInt64 × Bool)} {w : ReplayArray}
    (h : Transition.Trace step {} past w) : w.Ordered ∧ w.window.Summary (accepted past) := by
  refine Transition.Trace.invariant
    (fun past (w : ReplayArray) => w.Ordered ∧ w.window.Summary (accepted past)) ?_ ?_ h
  · exact ⟨⟨by decide, .nil⟩, ⟨.nil, rfl⟩⟩
  · rintro past w x - ⟨hordered, hsummary⟩
    have hstep := accept_window hordered x
    have hnext := (hsummary.accept x).2
    rw [← hstep] at hnext
    have haccepted : accepted ((x, (step w x).2) :: past) =
        if (w.accept x).1 then x :: accepted past else accepted past := by
      cases hanswer : (w.accept x).1 <;> simp [accepted, step, hanswer]
    rw [haccepted]
    refine ⟨⟨?_, ?_⟩, hnext⟩
    · rw [step, accept]
      have hcount := hordered.count_le
      split
      · exact hcount
      dsimp only
      split
      · exact hcount
      split
      · exact hcount
      · exact Nat.min_le_right _ _
    · have hwindow := hnext.largest
      dsimp only at hwindow
      rw [show (step w x).1.window = (w.accept x).2.window from rfl, hwindow]
      exact (ReplayWindow.sorted_descending hnext.nodup).sublist (List.take_sublist _ _)

/-- After every sequence of calls, `accept` takes a value exactly if it is not zero, was not
taken before and is not too old: fewer than 64 values have been taken, or the 64th largest
of them is smaller. -/
theorem accept_iff_history (calls : List UInt64) (x : UInt64) :
    ((Transition.run step {} calls).2.accept x).1 = true ↔
      x ≠ 0 ∧ x ∉ accepted (Transition.run step {} calls).1 ∧
        ((accepted (Transition.run step {} calls).1).length < 64 ∨
          ∃ y, nthLargest 64 (accepted (Transition.run step {} calls).1) = some y ∧ y < x) := by
  obtain ⟨hordered, hsummary⟩ := trace_summary
    (@Transition.trace_run _ _ _ step {} calls)
  have hanswer := congrArg Prod.fst (accept_window hordered x)
  dsimp only at hanswer ⊢
  rw [hanswer]
  exact (hsummary.accept x).1

end ReplayArray

end Tuntom
