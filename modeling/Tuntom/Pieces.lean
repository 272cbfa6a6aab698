import Mathlib

/-! Assembling a buffer from pieces. A piece is a run of elements with the position
of its first one. Pieces that do not overlap and together are as long as the buffer
cover every position exactly once, so counting lengths is enough to know that a
buffer is complete. -/
namespace Pieces
open List

variable {α : Type*}

structure Piece (α : Type*) where
  offset : ℕ
  data : List α

namespace Piece

def finish (p : Piece α) : ℕ := p.offset + p.data.length

def span (p : Piece α) : Finset ℕ := Finset.Ico p.offset p.finish

/-- The pieces have no position in common; an empty piece may lie inside another. -/
def Apart (p q : Piece α) : Prop := Disjoint p.span q.span

/-- `buffer` contains `p` at its place. -/
def Agrees (buffer : List α) (p : Piece α) : Prop :=
  ∀ pos, p.offset ≤ pos → pos < p.finish → buffer[pos]? = p.data[pos - p.offset]?

/-- Copying `p` into `buffer`. -/
def overwrite (buffer : List α) (p : Piece α) : List α :=
  buffer.take p.offset ++ p.data ++ buffer.drop p.finish

theorem mem_span {p : Piece α} {pos : ℕ} : pos ∈ p.span ↔ p.offset ≤ pos ∧ pos < p.finish :=
  Finset.mem_Ico

theorem card_span (p : Piece α) : p.span.card = p.data.length := by
  simp [span, finish]

theorem length_overwrite {buffer : List α} {p : Piece α} (h : p.finish ≤ buffer.length) :
    (overwrite buffer p).length = buffer.length := by
  simp only [overwrite, length_append, length_take, length_drop]
  unfold finish at *
  omega

theorem overwrite_inside {buffer : List α} {p : Piece α} (h : p.finish ≤ buffer.length) :
    Agrees (overwrite buffer p) p := by
  intro pos hlow hhigh
  unfold finish at h hhigh
  have htake : (buffer.take p.offset).length = p.offset := by
    rw [length_take]
    omega
  rw [overwrite, append_assoc, List.getElem?_append_right (by omega), htake,
    List.getElem?_append_left (by omega)]

theorem overwrite_outside {buffer : List α} {p : Piece α} (h : p.finish ≤ buffer.length) {pos : ℕ}
    (hpos : pos ∉ p.span) : (overwrite buffer p)[pos]? = buffer[pos]? := by
  rw [mem_span] at hpos
  unfold finish at h hpos
  have htake : (buffer.take p.offset).length = p.offset := by
    rw [length_take]
    omega
  by_cases hlow : pos < p.offset
  · rw [overwrite, append_assoc, List.getElem?_append_left (by omega),
      List.getElem?_take_of_lt hlow]
  rw [overwrite, List.getElem?_append_right (by rw [length_append]; omega),
    List.getElem?_drop, length_append, htake, finish]
  congr 1
  omega

end Piece

open Piece

def covered (ps : List (Piece α)) : Finset ℕ := ps.foldr (fun p s => p.span ∪ s) ∅

def total (ps : List (Piece α)) : ℕ := (ps.map fun p => p.data.length).sum

theorem mem_covered {ps : List (Piece α)} {pos : ℕ} :
    pos ∈ covered ps ↔ ∃ p ∈ ps, pos ∈ p.span := by
  induction ps with
  | nil => simp [covered]
  | cons p ps ih =>
    rw [show covered (p :: ps) = p.span ∪ covered ps from rfl, Finset.mem_union, ih,
      exists_mem_cons_iff]

theorem card_covered {ps : List (Piece α)} (h : ps.Pairwise Apart) :
    (covered ps).card = total ps := by
  induction ps with
  | nil => rfl
  | cons p ps ih =>
    obtain ⟨hp, hrest⟩ := pairwise_cons.mp h
    have hdisjoint : Disjoint p.span (covered ps) := by
      rw [Finset.disjoint_left]
      intro pos hpos hcovered
      obtain ⟨q, hq, hmem⟩ := mem_covered.mp hcovered
      exact Finset.disjoint_left.mp (hp q hq) hpos hmem
    rw [show covered (p :: ps) = p.span ∪ covered ps from rfl,
      Finset.card_union_of_disjoint hdisjoint, ih hrest, card_span]
    rfl

/-- `buffer` has length `n` and contains the pieces `ps`, which do not overlap. -/
structure Assembled (n : ℕ) (buffer : List α) (ps : List (Piece α)) : Prop where
  length : buffer.length = n
  inside : ∀ p ∈ ps, p.finish ≤ n
  apart : ps.Pairwise Apart
  agrees : ∀ p ∈ ps, Agrees buffer p

section Assembled
variable {n : ℕ} {buffer : List α} {ps : List (Piece α)}

theorem assembled_nil (h : buffer.length = n) : Assembled n buffer [] :=
  ⟨h, fun _ hp => (not_mem_nil hp).elim, .nil, fun _ hp => (not_mem_nil hp).elim⟩

theorem Assembled.overwrite (h : Assembled n buffer ps) {p : Piece α} (hp : p.finish ≤ n)
    (hapart : ∀ q ∈ ps, Apart p q) : Assembled n (overwrite buffer p) (p :: ps) := by
  have hlen : p.finish ≤ buffer.length := hp.trans_eq h.length.symm
  refine ⟨(length_overwrite hlen).trans h.length, ?_, .cons hapart h.apart, ?_⟩
  · rw [forall_mem_cons]
    exact ⟨hp, h.inside⟩
  · rw [forall_mem_cons]
    refine ⟨overwrite_inside hlen, fun q hq pos hlow hhigh => ?_⟩
    have hpos : pos ∉ p.span := fun hmem =>
      Finset.disjoint_left.mp (hapart q hq) hmem (mem_span.mpr ⟨hlow, hhigh⟩)
    rw [overwrite_outside hlen hpos, h.agrees q hq pos hlow hhigh]

theorem Assembled.covered_subset (h : Assembled n buffer ps) : covered ps ⊆ Finset.range n := by
  intro pos hpos
  obtain ⟨p, hp, hmem⟩ := mem_covered.mp hpos
  exact Finset.mem_range.mpr ((mem_span.mp hmem).2.trans_le (h.inside p hp))

theorem Assembled.covered_of_total (h : Assembled n buffer ps) (htotal : total ps = n) :
    covered ps = Finset.range n := by
  refine Finset.eq_of_subset_of_card_le h.covered_subset ?_
  rw [Finset.card_range, card_covered h.apart, htotal]

theorem Assembled.exact_cover (h : Assembled n buffer ps) (htotal : total ps = n) {pos : ℕ}
    (hpos : pos < n) : ∃! i : Fin ps.length, pos ∈ (ps.get i).span := by
  have hcovered : pos ∈ covered ps := by
    rw [h.covered_of_total htotal]
    exact Finset.mem_range.mpr hpos
  obtain ⟨p, hp, hmem⟩ := mem_covered.mp hcovered
  obtain ⟨i, rfl⟩ := get_of_mem hp
  refine ⟨i, hmem, fun j hj => ?_⟩
  have hpairwise := pairwise_iff_get.mp h.apart
  rcases lt_trichotomy i j with hij | rfl | hij
  · exact (Finset.disjoint_left.mp (hpairwise i j hij) hmem hj).elim
  · rfl
  · exact (Finset.disjoint_left.mp (hpairwise j i hij) hj hmem).elim

theorem Assembled.eq_of_total (h : Assembled n buffer ps) (htotal : total ps = n)
    {content : List α} (hlen : content.length = n) (hcontent : ∀ p ∈ ps, Agrees content p) :
    buffer = content := by
  apply ext_getElem?
  intro pos
  by_cases hpos : pos < n
  · obtain ⟨i, hmem, -⟩ := h.exact_cover htotal hpos
    obtain ⟨hlow, hhigh⟩ := mem_span.mp hmem
    rw [h.agrees _ (get_mem ps i) pos hlow hhigh,
      hcontent _ (get_mem ps i) pos hlow hhigh]
  · rw [List.getElem?_eq_none (h.length.trans_le (not_lt.mp hpos)),
      List.getElem?_eq_none (hlen.trans_le (not_lt.mp hpos))]

end Assembled

end Pieces
