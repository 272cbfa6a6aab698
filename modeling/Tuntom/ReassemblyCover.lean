import Tuntom.Reassembly

/-! Whatever fragments arrive, in whatever order: a packet put together from them is
covered exactly once by fragments of its own message. -/
namespace Tuntom

open Pieces List

/-! ### What an entry is made of -/

/-- The fragment a call added to an entry, and whether it opened the entry. -/
def addedBy : ReassemblyOp × Option AcceptOutcome → Option (Packet × Bool)
  | (.accept fragment _, some (.stored opened)) => some (fragment, opened)
  | (.accept fragment _, some (.complete opened _)) => some (fragment, opened)
  | _ => none

def accepted (past : ReassemblyHistory) : List Packet :=
  past.filterMap fun call => (addedBy call).map Prod.fst

/-- The fragments added under a message id since an entry was last opened for it. -/
def assembly (id : UInt64) : ReassemblyHistory → List Packet
  | [] => []
  | call :: past =>
    match addedBy call with
    | some (fragment, opened) =>
      if fragment.messageId = id then fragment :: if opened then [] else assembly id past
      else assembly id past
    | none => assembly id past

theorem assembly_sublist (id : UInt64) (past : ReassemblyHistory) :
    (assembly id past).Sublist (accepted past) := by
  induction past with
  | nil => exact .slnil
  | cons call past ih =>
    rw [assembly, accepted, filterMap_cons]
    cases addedBy call with
    | none => exact ih
    | some added =>
      obtain ⟨fragment, opened⟩ := added
      dsimp only [Option.map_some]
      split
      · refine .cons_cons _ ?_
        split
        · exact nil_sublist _
        · exact ih
      · exact .cons _ ih

/-- `entry` is what the fragments `fs`, newest first, leave of a message. -/
structure Assembles (id : UInt64) (entry : ReassemblyEntry) (fs : List Packet) : Prop where
  assembled : Assembled entry.originalLength entry.buffer (fs.map Packet.piece)
  ranges : entry.ranges = (fs.map Packet.range).reverse
  received : entry.receivedBytes = total (fs.map Packet.piece)
  same : ∀ f ∈ fs, f.messageId = id ∧ f.originalLength.toNat = entry.originalLength

theorem assembles_fresh (id : UInt64) (fragment : Packet) (now : Time) :
    Assembles id (.fresh fragment now) [] where
  assembled := assembled_nil length_replicate
  ranges := rfl
  received := rfl
  same := fun _ hf => (not_mem_nil hf).elim

theorem apart_of_not_overlaps {f g : Packet} (h : f.range.overlaps g.range = false) :
    f.piece.Apart g.piece := by
  rw [Piece.Apart, Finset.disjoint_left]
  intro pos hf hg
  rw [Piece.mem_span] at hf hg
  simp only [FragmentRange.overlaps, Bool.and_eq_false_iff, decide_eq_false_iff_not, not_lt] at h
  simp only [Packet.range] at h
  simp only [Packet.piece, Piece.finish] at hf hg
  omega

variable {entry : ReassemblyEntry} {cfg : ReassemblyConfig} {fragment : Packet} {opened : Bool}
  {past : ReassemblyHistory} {r : Reassembler} {call : ReassemblyOp × Option AcceptOutcome}

theorem Assembles.add {id : UInt64} {fs : List Packet} (h : Assembles id entry fs) {f : Packet}
    (hid : f.messageId = id) (hlength : entry.originalLength = f.originalLength.toNat)
    (hinside : f.range.finish ≤ f.originalLength.toNat)
    (hapart : ∀ range ∈ entry.ranges, f.range.overlaps range = false) (now : Time) :
    Assembles id (entry.add f now) (f :: fs) where
  assembled := by
    refine h.assembled.overwrite (hinside.trans_eq hlength.symm) fun q hq => ?_
    obtain ⟨g, hg, rfl⟩ := mem_map.mp hq
    refine apart_of_not_overlaps (hapart _ ?_)
    rw [h.ranges, mem_reverse]
    exact mem_map_of_mem hg
  ranges := by
    rw [map_cons, reverse_cons, ← h.ranges]
    rfl
  received := by
    rw [ReassemblyEntry.add, h.received]
    exact Nat.add_comm _ _
  same := by
    rw [forall_mem_cons]
    exact ⟨⟨hid, hlength.symm⟩, h.same⟩

def AssemblyInv (past : ReassemblyHistory) (r : Reassembler) : Prop :=
  ∀ id entry, r.live id = some entry → Assembles id entry (assembly id past)

theorem invalidFor_eq_false {p : Packet} {n : ℕ} (h : p.invalidFor n = false) :
    p.messageId ≠ 0 ∧ p.originalLength ≠ 0 ∧ p.originalLength.toNat ≤ n ∧ p.payload ≠ [] ∧
      p.range.finish ≤ p.originalLength.toNat := by
  simpa [Packet.invalidFor, and_assoc] using h

theorem AssemblyInv.adds {r' : Reassembler} {now : Time} (hinv : AssemblyInv past r)
    (h : r.Adds cfg fragment now r' opened entry) :
    Assembles fragment.messageId (entry.add fragment now)
      (fragment :: if opened then [] else assembly fragment.messageId past) := by
  have hinside := (invalidFor_eq_false h.valid).2.2.2.2
  refine Assembles.add ?_ rfl h.length hinside h.apart now
  have hsource := h.source
  cases opened with
  | false => exact hinv _ _ hsource
  | true =>
    rw [show entry = .fresh fragment now from hsource]
    exact assembles_fresh _ _ _

theorem AssemblyInv.of_keeps {r' : Reassembler} (hinv : AssemblyInv past r) (h : r.Keeps r')
    (hcall : addedBy call = none) : AssemblyInv (call :: past) r' := by
  intro id entry hlive
  rw [assembly, hcall]
  exact hinv id entry (h id entry hlive)

theorem assembly_added (hcall : addedBy call = some (fragment, opened)) (past : ReassemblyHistory) :
    assembly fragment.messageId (call :: past) =
      fragment :: if opened then [] else assembly fragment.messageId past := by
  rw [assembly, hcall]
  exact if_pos rfl

theorem assembly_other (hcall : addedBy call = some (fragment, opened)) {id : UInt64}
    (hid : id ≠ fragment.messageId) (past : ReassemblyHistory) :
    assembly id (call :: past) = assembly id past := by
  rw [assembly, hcall]
  exact if_neg (Ne.symm hid)

theorem assemblyInv_start : AssemblyInv [] {} :=
  fun _ _ hlive => absurd (show none = some _ from hlive) (by simp)

theorem assemblyInv_trace (h : ReassemblyTrace cfg past r) : AssemblyInv past r := by
  refine Transition.Trace.invariant AssemblyInv assemblyInv_start ?_ h
  intro past r op _ hinv
  cases op with
  | cleanup now => exact hinv.of_keeps (Reassembler.keeps_cleanupExpired cfg r now) rfl
  | accept fragment now =>
    have heffect := Reassembler.accept_effect cfg r fragment now
    simp only [reassemblyStep]
    generalize (r.accept cfg fragment now).1 = r' at heffect ⊢
    generalize (r.accept cfg fragment now).2 = outcome at heffect ⊢
    cases heffect with
    | kept _ hkeeps hstored hcomplete =>
      refine hinv.of_keeps hkeeps ?_
      cases outcome with
      | stored opened => exact absurd rfl (hstored opened)
      | complete opened packet => exact absurd rfl (hcomplete opened packet)
      | _ => rfl
    | stored opened entry hadds hlive =>
      intro id e he
      by_cases hid : id = fragment.messageId
      · subst hid
        rw [hlive, Option.some_inj] at he
        rw [assembly_added rfl, ← he]
        exact hinv.adds hadds
      · rw [assembly_other rfl hid]
        exact hinv id e (hadds.others id hid e he)
    | complete opened entry hadds hlive =>
      intro id e he
      by_cases hid : id = fragment.messageId
      · rw [hid, hlive] at he
        cases he
      · rw [assembly_other rfl hid]
        exact hinv id e (hadds.others id hid e he)

/-- `packet` is put together from `fs`, all of them of one message and as long as it,
and each of its bytes comes from exactly one of them. -/
structure ExactCover (id : UInt64) (packet : Bytes) (fs : List Packet) : Prop where
  same : ∀ f ∈ fs, f.messageId = id ∧ f.originalLength.toNat = packet.length
  once : ∀ pos < packet.length, ∃! i : Fin fs.length, pos ∈ (fs.get i).piece.span
  bytes : ∀ f ∈ fs, Piece.Agrees packet f.piece

theorem Assembles.exactCover {id : UInt64} {fs : List Packet} (h : Assembles id entry fs)
    (hreceived : entry.receivedBytes = entry.originalLength) : ExactCover id entry.buffer fs where
  same := by
    rw [h.assembled.length]
    exact h.same
  once := by
    intro pos hpos
    rw [h.assembled.length] at hpos
    obtain ⟨i, hi, hunique⟩ :=
      h.assembled.exact_cover (h.received.symm.trans hreceived) hpos
    have hlen : (fs.map Packet.piece).length = fs.length := length_map _
    refine ⟨Fin.cast hlen i, by simpa using hi, fun j hj => ?_⟩
    have := hunique (Fin.cast hlen.symm j) (by simpa using hj)
    rw [← this]
    rfl
  bytes := fun f hf => h.assembled.agrees _ (mem_map_of_mem hf)

theorem complete_exactCover (h : ReassemblyTrace cfg past r) {now : Time} {packet : Bytes}
    (hcomplete : (r.accept cfg fragment now).2 = .complete opened packet) :
    ExactCover fragment.messageId packet (assembly fragment.messageId
      ((.accept fragment now, some (.complete opened packet)) :: past)) := by
  have heffect := Reassembler.accept_effect cfg r fragment now
  rw [hcomplete] at heffect
  rw [assembly_added rfl]
  cases heffect with
  | kept _ _ _ hne => exact absurd rfl (hne opened packet)
  | complete _ entry hadds _ hreceived =>
    exact ((assemblyInv_trace h).adds hadds).exactCover hreceived

end Tuntom
