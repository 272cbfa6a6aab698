import Tuntom.ControlTable

/-! The limits of the table of incoming requests: its memory, its length and the
exclusive slot. -/
namespace Tuntom.Control
open RemoteControl OrderedMap

structure Incoming.Sound (r : Incoming) : Prop where
  body_le : r.request.body.length ≤ r.total
  total_le : r.terminal = false → r.total ≤ controlMaxBody
  silent : r.terminal = false → r.response = []

structure Bounded (m : Table) : Prop where
  sound : ∀ id r, m.find? id = some r → r.Sound
  count : m.size ≤ history
  memory : m.total Incoming.reserved ≤ memoryLimit
  slot : ∀ i j r s, m.find? i = some r → m.find? j = some s → r.exclusive → s.exclusive → i = j

theorem Incoming.stored_le_reserved {r : Incoming} (h : r.Sound) : r.stored ≤ r.reserved := by
  rw [reserved]
  split
  · exact le_rfl
  next hlive =>
  have hlive := Bool.eq_false_of_not_eq_true hlive
  have hbody := h.body_le
  rw [stored, h.silent hlive, List.length_nil]
  omega

namespace Bounded

variable {m : Table}

theorem replace (h : Bounded m) {id : Id} {r s : Incoming} (hr : m.find? id = some r) (hs : s.Sound)
    (hreserved : s.reserved ≤ r.reserved) (hslot : s.exclusive → r.exclusive) :
    Bounded (m.insert id s) where
  sound i t ht := by
    rw [OrderedMap.find?_insert] at ht
    split at ht
    · cases ht
      exact hs
    · exact h.sound i t ht
  count := by
    have hsize := total_insert_of_some hr s fun _ => 1
    rw [← size_eq_total, ← size_eq_total] at hsize
    have hcount := h.count
    omega
  memory := by
    have htotal := total_insert_of_some hr s Incoming.reserved
    have hmemory := h.memory
    omega
  slot i j t u ht hu hti huj := by
    rw [OrderedMap.find?_insert] at ht hu
    split at ht <;> split at hu
    next hi hj => rw [hi, hj]
    next hi hj =>
      cases ht
      rw [hi]
      exact h.slot id j r u hr hu (hslot hti) huj
    next hi hj =>
      cases hu
      rw [hj]
      exact h.slot i id t r ht hr hti (hslot huj)
    next => exact h.slot i j t u ht hu hti huj

theorem create (h : Bounded m) {id : Id} {s : Incoming} (hnone : m.find? id = none)
    (hroom : Room m) (hs : s.Sound) (hreserved : s.reserved ≤ 2 * controlMaxBody)
    (hslot : s.exclusive → ∀ t ∈ m.values, t.exclusive = false) : Bounded (m.insert id s) where
  sound i t ht := by
    rw [OrderedMap.find?_insert] at ht
    split at ht
    · cases ht
      exact hs
    · exact h.sound i t ht
  count := by
    have hsize := total_insert_of_none hnone s fun _ => 1
    rw [← size_eq_total, ← size_eq_total] at hsize
    have hcount := hroom.1
    omega
  memory := by
    have htotal := total_insert_of_none hnone s Incoming.reserved
    have hmemory := hroom.2
    omega
  slot i j t u ht hu hti huj := by
    have hfree : s.exclusive → ∀ i t, m.find? i = some t → ¬t.exclusive := by
      intro hex i t ht
      have hmem : t ∈ m.values := List.mem_map.mpr ⟨(i, t), OrderedMap.find?_eq_some_iff.mp ht, rfl⟩
      rw [hslot hex t hmem]
      exact Bool.false_ne_true
    rw [OrderedMap.find?_insert] at ht hu
    split at ht <;> split at hu
    next hi hj => rw [hi, hj]
    next hi hj =>
      cases ht
      exact absurd huj (hfree hti j u hu)
    next hi hj =>
      cases hu
      exact absurd hti (hfree huj i t ht)
    next => exact h.slot i j t u ht hu hti huj

theorem evict (h : Bounded m) {id : Id} {r : Incoming} (hr : m.find? id = some r) :
    Bounded (m.erase id) where
  sound i t ht := by
    rw [OrderedMap.find?_erase] at ht
    split at ht
    · cases ht
    · exact h.sound i t ht
  count := by
    have hsize := total_erase hr fun _ => 1
    rw [← size_eq_total, ← size_eq_total] at hsize
    have hcount := h.count
    omega
  memory := by
    have htotal := total_erase hr Incoming.reserved
    have hmemory := h.memory
    omega
  slot i j t u ht hu := by
    rw [OrderedMap.find?_erase] at ht hu
    split at ht
    · cases ht
    split at hu
    · cases hu
    exact h.slot i j t u ht hu

end Bounded

theorem Incoming.reserved_of_ended {r s : Incoming} (hlive : r.terminal = false)
    (hend : s.terminal) (hbody : s.request.body.length ≤ r.total)
    (hresponse : s.response.length ≤ controlMaxBody) : s.reserved ≤ r.reserved := by
  rw [reserved, if_pos hend, reserved, if_neg (by rw [hlive]; exact Bool.false_ne_true), stored]
  omega

theorem bounded_length (response : ControlResponse) :
    (bounded response).body.length ≤ controlMaxBody := by
  rw [bounded]
  split
  · decide
  next h => exact Nat.le_of_not_lt h

theorem Incoming.executed_response (r : Incoming) (response : Option ControlResponse) (order : ℕ) :
    (r.executed response order).response.length ≤ controlMaxBody := by
  cases response with
  | none => exact Nat.zero_le _
  | some response => exact bounded_length response

theorem Incoming.executed_request (r : Incoming) (response : Option ControlResponse) (order : ℕ) :
    (r.executed response order).request = r.request ∧
      (r.executed response order).total = r.total := by
  cases response <;> exact ⟨rfl, rfl⟩

theorem Incoming.Sound.take {r s : Incoming} {f : Frame} {now : Time} (h : r.Sound)
    (htake : r.take f now = .ok s) :
    s.Sound ∧ s.reserved ≤ r.reserved ∧ s.exclusive = r.exclusive ∧ s.total = r.total ∧
      s.state = r.state := by
  obtain ⟨_, _, hfit, ⟨rfl, _⟩ | ⟨hoffset, hstate, rfl⟩⟩ := Incoming.take_ok htake
  · exact ⟨h, le_rfl, rfl, rfl, rfl⟩
  refine ⟨⟨?_, h.total_le, h.silent⟩, ?_, rfl, rfl, rfl⟩
  · have hlen : (r.request.body ++ f.data).length ≤ r.total := by
      rw [List.length_append]
      omega
    exact hlen
  · rw [Incoming.reserved, Incoming.reserved, Incoming.terminal, Incoming.terminal, hstate]
    exact le_rfl

theorem Bounded.move {input : Option (Frame × AuthorityKey)} {m m' : Table} {e : List Execution}
    (h : Move input m e m') (hm : Bounded m) : Bounded m' := by
  cases h with
  | evict hr => exact hm.evict hr
  | @create _ f _ r _ hnone _ hroom hopen =>
    have hbody : r.request.body = [] := by rw [hopen.request]
    refine hm.create hnone hroom ⟨?_, fun hlive => ?_, fun hlive => ?_⟩ ?_ hopen.slot
    · rw [hbody]
      exact Nat.zero_le _
    · rcases hopen.rejected with hstate | hstate
      · exact (hopen.receiving hstate).1
      · rw [Incoming.terminal, hstate] at hlive
        cases hlive
    · rcases hopen.rejected with hstate | hstate
      · exact (hopen.receiving hstate).2.1
      · rw [Incoming.terminal, hstate] at hlive
        cases hlive
    · rw [Incoming.reserved]
      split
      · have hresponse := hopen.response
        rw [Incoming.stored, hbody, List.length_nil, controlMaxBody]
        omega
      next hlive =>
      rcases hopen.rejected with hstate | hstate
      · have htotal := (hopen.receiving hstate).1
        omega
      · rw [Incoming.terminal, hstate] at hlive
        exact absurd rfl hlive
  | block _ hr htake _ =>
    obtain ⟨hsound, hreserved, hslot, _, _⟩ := (hm.sound _ _ hr).take htake
    exact hm.replace hr hsound hreserved fun hex => hslot ▸ hex
  | @run _ _ _ r s _ _ hr htake hdone response order =>
    have hold := hm.sound _ _ hr
    obtain ⟨hsound, _, _, htotal, hstate⟩ := hold.take htake
    have hend := s.executed_terminal response order
    obtain ⟨hrequest, hsame⟩ := s.executed_request response order
    have hlive : r.terminal = false := by
      rw [Incoming.terminal, ← hstate, hdone.1]
      rfl
    refine hm.replace hr ⟨?_, ?_, ?_⟩ ?_ ?_
    · rw [hrequest, hsame]
      exact hsound.body_le
    · intro h
      rw [hend] at h
      cases h
    · intro h
      rw [hend] at h
      cases h
    · refine Incoming.reserved_of_ended hlive hend ?_ (s.executed_response response order)
      rw [hrequest, ← htotal]
      exact hsound.body_le
    · intro hex
      rw [Incoming.exclusive, hend, Bool.not_true, Bool.and_false] at hex
      cases hex
  | acknowledge _ hr =>
    have hold := hm.sound _ _ hr
    exact hm.replace hr ⟨hold.body_le, hold.total_le, hold.silent⟩ le_rfl id
  | @expire _ _ r body text order hr hstate hbody htext =>
    have hold := hm.sound _ _ hr
    have hlive : r.terminal = false := by
      rw [Incoming.terminal, hstate]
      rfl
    have hlen : body.length ≤ r.total := by
      rcases hbody with rfl | rfl
      · exact hold.body_le
      · exact Nat.zero_le _
    refine hm.replace hr ⟨hlen, (fun h => by cases h), (fun h => by cases h)⟩ ?_ ?_
    · refine Incoming.reserved_of_ended hlive rfl hlen (htext.trans ?_)
      decide
    · intro hex
      rw [Incoming.exclusive, Bool.and_eq_true] at hex
      exact absurd hex.2 Bool.false_ne_true

end Tuntom.Control
