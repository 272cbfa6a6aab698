import Tuntom.ControlTable

/-! Remote control without authority keys, and what a table full of ended requests
makes of new ones. -/
namespace Tuntom.Control
open OrderedMap

variable {P : Primitives}

structure Frame.Unproven (f : Frame) : Prop where
  encodable : f.Encodable
  acceptable : f.acceptable f.version
  auth : f.auth = []
  kind : f.kind ≠ .challenge

structure Plain (rc : RemoteControl) : Prop where
  enabled : rc.enabled = true
  auth : rc.auth = {}

namespace RemoteControl

variable {rc : RemoteControl} {f : Frame}

theorem emit_plain (h : Plain rc) (hkind : f.kind ≠ .challenge) (hf : f.Encodable)
    (hauth : f.auth = []) : rc.emit P f = (rc.remember f, [.send f.bytes]) := by
  have hprotect : ∀ id message reply, (rc.remember f).auth.protect P id message reply =
      ((rc.remember f).auth, []) := by
    intro id message reply
    have hsame : (rc.remember f).auth = {} := by
      rw [remember, updateOutgoing]
      split
      · exact h.auth
      · split <;> exact h.auth
    rw [hsame]
    rfl
  have hencode : ({ f with auth := [] } : Frame).encode = some f.bytes := by
    rw [← hauth]
    exact if_pos hf
  rw [emit, if_neg (by rw [h.enabled]; simp), if_neg hkind]
  simp only [hprotect, hencode]
  rfl

theorem emit_answer (h : Plain rc) (hkind : f.kind.answers) (hf : f.Encodable) (hauth : f.auth = []) :
    rc.emit P f = (rc, [.send f.bytes]) := by
  have hnot : f.kind ≠ .challenge := by
    intro hc
    rw [hc] at hkind
    cases hkind
  rw [emit_plain h hnot hf hauth, remember, if_pos hkind]

theorem receive_plain (h : Plain rc) (hf : f.Unproven) (now : Time) (handlers : Handlers) :
    rc.receive P f.bytes now handlers =
      ((rc.handle P f (zeroBlock 32) now handlers).1,
        .accepted f [] (zeroBlock 32) :: (rc.handle P f (zeroBlock 32) now handlers).2) := by
  have hdecode : Frame.decode f.bytes = some f := by
    rw [Frame.decode, Frame.read_bytes hf.encodable, Option.filter_some]
    exact if_pos hf.acceptable
  have htick : ({ rc with auth := rc.auth.tick now } : RemoteControl) = rc := by
    cases rc
    cases h.auth
    rfl
  have hsame : ({ f with auth := [] } : Frame) = f := by
    have hauth := hf.auth
    cases f
    cases hauth
    rfl
  have hproven : rc.authenticate P f [] = .principal rc (zeroBlock 32) := by
    have hrequired : rc.auth.required = false ∧ rc.auth.signing = false := by
      rw [h.auth]
      exact ⟨rfl, rfl⟩
    rw [authenticate, hrequired.1, hrequired.2]
    simp
  rw [receive, if_neg (by rw [h.enabled]; simp), hdecode]
  simp only [htick, if_neg hf.kind, hsame, hf.auth, hproven]

end RemoteControl

/-! ### Ended requests -/

def Idle (m : Table) : Prop := ∀ id r, m.find? id = some r → r.terminal ∧ r.stored = 0

theorem Idle.insert {m : Table} (h : Idle m) (id : Id) {r : Incoming}
    (hr : r.terminal ∧ r.stored = 0) : Idle (m.insert id r) := by
  intro i s hs
  rw [OrderedMap.find?_insert] at hs
  split at hs
  · cases hs
    exact hr
  · exact h i s hs

theorem Idle.erase {m : Table} (h : Idle m) (id : Id) : Idle (m.erase id) := by
  intro i s hs
  rw [OrderedMap.find?_erase] at hs
  split at hs
  · cases hs
  · exact h i s hs

theorem Idle.mem {m : Table} (h : Idle m) {r : Incoming} (hr : r ∈ m.values) :
    r.terminal ∧ r.stored = 0 := by
  obtain ⟨x, hx, rfl⟩ := List.mem_map.mp hr
  exact h x.1 x.2 (OrderedMap.find?_eq_some_iff.mpr hx)

theorem Idle.reserved {m : Table} (h : Idle m) : m.total Incoming.reserved = 0 := by
  have hle : m.total Incoming.reserved ≤ m.total fun _ => 0 := by
    refine total_mono fun x hx => ?_
    obtain ⟨hend, hstored⟩ := h.mem (List.mem_map_of_mem hx)
    rw [Incoming.reserved, if_pos hend, hstored]
  simpa [OrderedMap.total] using hle

theorem Idle.active {m : Table} (h : Idle m) : (m.values.filter fun r => !r.terminal) = [] := by
  refine List.filter_eq_nil_iff.mpr fun r hr => ?_
  rw [(h.mem hr).1]
  simp

theorem earliest_eq_none {β α : Type} [LT α] [DecidableLT α] {mark : β → Option α}
    {entries : List (Id × β)} : earliest mark entries = none ↔ ∀ e ∈ entries, mark e.2 = none := by
  induction entries with
  | nil => exact ⟨fun _ _ he => absurd he List.not_mem_nil, fun _ => rfl⟩
  | cons e rest ih =>
    rw [earliest, List.forall_mem_cons]
    cases hm : mark e.2 with
    | none => simp only [true_and, ih]
    | some m =>
      refine ⟨fun hnone => ?_, fun hall => absurd hall.1 (by simp)⟩
      split at hnone
      next heq => cases heq
      next => cases hnone
      next =>
      split at hnone
      · split at hnone <;> cases hnone
      · cases hnone

namespace RemoteControl

variable {rc : RemoteControl} {f : Frame}

theorem admit_room (h : Idle rc.incoming) (hsize : rc.incoming.size < history) :
    rc.admitIncoming = (rc, [], true) := by
  have hfits : ¬(history ≤ rc.incoming.size ∨ memoryLimit < 0 + 2 * controlMaxBody) := by
    rintro (hfull | hmemory)
    · omega
    · exact absurd hmemory (by decide)
  rw [admitIncoming, h.active, if_neg (by decide), h.reserved, makeRoom, if_neg hfits]

theorem admit_full (h : Idle rc.incoming) (hsize : history ≤ rc.incoming.size)
    (hnone : ∀ id r, rc.incoming.find? id = some r → r.acknowledged = false) :
    rc.admitIncoming = (rc, [], false) := by
  have hold : earliest evictable rc.incoming.entries = none := by
    refine earliest_eq_none.mpr fun e he => if_neg ?_
    rw [hnone e.1 e.2 (OrderedMap.find?_eq_some_iff.mpr he)]
    simp
  rw [admitIncoming, h.active, if_neg (by decide), makeRoom, if_pos (.inl hsize), hold]

theorem admit_evicts (hplain : Plain rc) (h : Idle rc.incoming) (hsize : rc.incoming.size = history)
    {id : Id} {r : Incoming} (hr : rc.incoming.find? id = some r) (hack : r.acknowledged) :
    ∃ i effects, rc.admitIncoming = ({ rc with incoming := rc.incoming.erase i }, effects, true) := by
  cases hold : earliest evictable rc.incoming.entries with
  | none =>
    have hmark := earliest_eq_none.mp hold (id, r) (OrderedMap.find?_eq_some_iff.mp hr)
    rw [evictable, if_pos hack] at hmark
    cases hmark
  | some e =>
    obtain ⟨hfind, _⟩ := earliest_evictable hold
    have hcount := total_erase hfind fun _ => 1
    rw [← size_eq_total, ← size_eq_total, hsize] at hcount
    have hfits : ¬(history ≤ (rc.incoming.erase e.1).size ∨
        memoryLimit < 0 - e.2.stored + 2 * controlMaxBody) := by
      rintro (hfull | hmemory)
      · omega
      · rw [Nat.zero_sub] at hmemory
        exact absurd hmemory (by decide)
    have hforget : rc.auth.forget e.1 = rc.auth := by
      rw [hplain.auth]
      rfl
    have hrest : makeRoom history { rc with incoming := rc.incoming.erase e.1 } (0 - e.2.stored) =
        ({ rc with incoming := rc.incoming.erase e.1 }, [], true) := by
      rw [show history = 127 + 1 from rfl, makeRoom, if_neg hfits]
    refine ⟨e.1, [.discounted 0 e.2.stored], ?_⟩
    rw [admitIncoming, h.active, if_neg (by decide), h.reserved, hsize, makeRoom, if_pos (.inl hsize.ge), hold]
    simp only [hforget, hrest]

theorem slotBusy_idle (h : Idle rc.incoming) : rc.slotBusy = false := by
  rw [slotBusy, List.any_eq_false]
  intro r hr
  rw [Incoming.exclusive, (h.mem hr).1]
  simp

/-! ### Requests -/

theorem handle_status (h : Plain rc) (hkind : f.kind = .status) (hnone : rc.incoming.find? f.id = none)
    (principal : AuthorityKey) (now : Time) (handlers : Handlers) :
    rc.handle P f principal now handlers =
      (rc, [.send ({ id := f.id, kind := .reply, state := .notFound } : Frame).bytes]) := by
  simp only [handle, hkind, receiveQuery, hnone]
  rw [if_neg (by simp), notFound]
  exact emit_answer h rfl ⟨Nat.zero_le _, .inl rfl⟩ rfl

theorem handle_unrecorded (h : Plain rc) (hkind : f.kind = .finish) (hstate : f.state = .rejected)
    (hnone : rc.incoming.find? f.id = none) (principal : AuthorityKey) (now : Time)
    (handlers : Handlers) :
    rc.handle P f principal now handlers = (rc, [.send
      ({ id := f.id, kind := .confirmed, state := .rejected, total := f.total } : Frame).bytes]) := by
  simp only [handle, hkind, receiveQuery, hnone, hstate, and_self, if_true]
  exact emit_answer h rfl ⟨Nat.zero_le _, .inl rfl⟩ rfl

theorem answer_plain (r : Incoming) (id : Id) (chunk offset : ℕ) (kind : Kind) :
    (r.answer id chunk offset kind).Encodable ∧ (r.answer id chunk offset kind).auth = [] ∧
      (r.answer id chunk offset kind).kind = kind := by
  rw [Incoming.answer]
  split <;> exact ⟨⟨Nat.zero_le _, .inl rfl⟩, rfl, rfl⟩

theorem respond_plain (h : Plain rc) {kind : Kind} (hkind : kind.answers) (id : Id) (r : Incoming)
    (offset : ℕ) :
    rc.respond P id r offset kind = (rc, [.send (r.answer id rc.chunk offset kind).bytes]) := by
  obtain ⟨hf, hauth, hsame⟩ := answer_plain r id rc.chunk offset kind
  refine emit_answer h ?_ hf hauth
  rw [hsame]
  exact hkind

theorem handle_full (h : Plain rc) (hkind : f.kind = .put) (hoffset : f.offset = 0)
    (hnone : rc.incoming.find? f.id = none) (hroom : rc.admitIncoming = (rc, [], false))
    (principal : AuthorityKey) (now : Time) (handlers : Handlers) :
    rc.handle P f principal now handlers = (rc, [.send
      ((refusal (ascii "remote control busy")).answer f.id rc.chunk 0 .reply).bytes]) := by
  have hrespond := respond_plain (P := P) h (show Kind.reply.answers from rfl) f.id
    (refusal (ascii "remote control busy")) 0
  simp only [handle, hkind, receivePut, hnone, hoffset, ne_eq, not_true_eq_false, if_false, hroom,
    if_true, refuse, hrespond, List.nil_append]

theorem handle_finish (h : Plain rc) {r : Incoming} (hkind : f.kind = .finish)
    (hr : rc.incoming.find? f.id = some r)
    (hmatch : r.terminal ∧ f.state = r.state ∧ f.total.toNat = r.response.length)
    (principal : AuthorityKey) (now : Time) (handlers : Handlers) :
    ∃ b, rc.handle P f principal now handlers =
      ({ rc with incoming := rc.incoming.insert f.id { r with acknowledged := true } }, [.send b]) := by
  have hstored : Plain { rc with incoming := rc.incoming.insert f.id { r with acknowledged := true } } :=
    ⟨h.enabled, h.auth⟩
  have hretire : rc.auth.retire f.id = rc.auth := by
    rw [h.auth]
    rfl
  refine ⟨({ r with acknowledged := true }.answer f.id rc.chunk 0 .confirmed).bytes, ?_⟩
  simp only [handle, hkind, receiveQuery, hr]
  rw [if_pos ⟨trivial, hmatch⟩, respond_plain hstored rfl]
  simp only [hretire]

theorem opened_idle (h : Idle rc.incoming) {op : ControlOperation}
    (hop : ControlDispatcher.parse f.command = .ok op) (hlength : f.total.toNat = op.length)
    (hallows : rc.access.allows op.permission) (principal : AuthorityKey) (now : Time)
    {handlers : Handlers} (hadmission : handlers.admission = none) :
    ∃ r, rc.opened f principal now handlers = (r, []) ∧ r.request = ⟨f.command, []⟩ ∧
      r.total = f.total.toNat ∧ r.state = .receiving ∧ r.acknowledged = false := by
  have hmax := ControlDispatcher.parse_length_le hop
  have hobjection : rc.objection f op handlers = (none, []) := by
    have hfits : ¬(f.total.toNat ≠ op.length ∨ controlMaxBody < f.total.toNat) := by omega
    rw [objection, if_neg hfits, hadmission, hallows, slotBusy_idle h]
    simp
  rw [opened, hop]
  simp only [hobjection]
  exact ⟨_, rfl, rfl, rfl, rfl, rfl⟩

theorem take_whole {r : Incoming} (hrequest : r.request = ⟨f.command, []⟩)
    (htotal : r.total = f.total.toNat) (hstate : r.state = .receiving) (hoffset : f.offset = 0)
    (hdata : f.data.length = f.total.toNat) (now : Time) :
    ∃ s, r.take f now = .ok s ∧ s.complete ∧ s.request = ⟨f.command, f.data⟩ ∧
      s.acknowledged = r.acknowledged := by
  let s : Incoming :=
    { r with request := ⟨f.command, f.data⟩, progress := if f.data = [] then r.progress else now }
  refine ⟨s, ?_, ⟨hstate, hdata.trans htotal.symm⟩, rfl, rfl⟩
  rw [Incoming.take]
  simp [s, hrequest, htotal, hstate, hoffset, hdata]

theorem handle_run {room : RemoteControl} {effects : List Effect} (h : Plain room)
    (hidle : Idle room.incoming) (hkind : f.kind = .put) (hoffset : f.offset = 0)
    (hnone : rc.incoming.find? f.id = none) (hroom : rc.admitIncoming = (room, effects, true))
    (hnone' : room.incoming.find? f.id = none) {op : ControlOperation}
    (hop : ControlDispatcher.parse f.command = .ok op) (hlength : f.total.toNat = op.length)
    (hdata : f.data.length = f.total.toNat) (hallows : room.access.allows op.permission)
    (principal : AuthorityKey) (now : Time) {handlers : Handlers}
    (hadmission : handlers.admission = none) {response : ControlResponse}
    (hresponse : handlers.execute ⟨f.command, f.data⟩ = some response) :
    ∃ m, ∃ s : Incoming, s.acknowledged = false ∧ s.request = ⟨f.command, f.data⟩ ∧
      (∀ i, m.find? i = if i = f.id then some (s.executed (some response) (room.order + 1)) else
        room.incoming.find? i) ∧ m.size = room.incoming.size + 1 ∧
      rc.handle P f principal now handlers =
        ({ room with incoming := m, order := room.order + 1 },
          effects ++ [.execute f.id ⟨f.command, f.data⟩ (some response), .send
            ((s.executed (some response) (room.order + 1)).answer f.id room.chunk 0 .reply).bytes]) := by
  obtain ⟨r, hopened, hrequest, htotal, hstate, hfresh⟩ :=
    opened_idle hidle hop hlength hallows principal now hadmission
  obtain ⟨s, htake, hdone, hwhole, hack⟩ := take_whole hrequest htotal hstate hoffset hdata now
  have hlive : r.terminal = false := by
    rw [Incoming.terminal, hstate]
    rfl
  generalize hended : s.executed (some response) (room.order + 1) = ended
  refine ⟨(room.incoming.insert f.id r).insert f.id ended, s, hack.trans hfresh, hwhole, fun i => ?_,
    ?_, ?_⟩
  · rw [hended, OrderedMap.find?_insert, OrderedMap.find?_insert]
    split <;> rfl
  · have hin : (room.incoming.insert f.id r).find? f.id = some r := by
      rw [OrderedMap.find?_insert, if_pos rfl]
    have hsecond := total_insert_of_some hin ended fun _ => 1
    have hfirst := total_insert_of_none hnone' r fun _ => 1
    rw [size_eq_total, size_eq_total]
    omega
  · rw [hended]
    have hrespond : ∀ m order, RemoteControl.respond P { room with incoming := m, order } f.id ended 0
        .reply = ({ room with incoming := m, order },
          [.send (ended.answer f.id room.chunk 0 .reply).bytes]) := by
      intro m order
      have hplain : Plain { room with incoming := m, order } := ⟨h.enabled, h.auth⟩
      exact respond_plain hplain rfl f.id ended 0
    simp only [handle, hkind, receivePut, hnone, hoffset, ne_eq, not_true_eq_false, if_false, hroom,
      Bool.true_eq_false, hopened, hlive, Bool.false_eq_true, upload, htake, hdone, if_true, hresponse,
      store, storeEnded, hended, hrespond, hwhole, List.append_nil]

/-! ### Submitting -/

def openingBlock (id : Id) (request : ControlRequest) (chunk : ℕ) : Frame :=
  { id, kind := .put, command := request.command, total := UInt32.ofNat request.body.length,
    data := field request.body 0 chunk }

theorem admitOutgoing_empty (h : rc.outgoing = {}) : rc.admitOutgoing = (rc, true) := by
  rw [admitOutgoing, h, if_neg (by decide)]
  change makeOutgoingRoom (0 + 1) rc 0 = (rc, true)
  rw [makeOutgoingRoom, h, if_neg (by decide)]

theorem updateOutgoing_of_find {id : Id} {r : Outgoing} (h : rc.outgoing.find? id = some r)
    (change : Outgoing → Outgoing) :
    rc.updateOutgoing id change = { rc with outgoing := rc.outgoing.insert id (change r) } := by
  rw [updateOutgoing, h]

theorem sendNext_plain (h : Plain rc) {id : Id} {request : ControlRequest} {r : Outgoing}
    (hr : rc.outgoing.find? id = some r)
    (hframe : r.frame id rc.chunk false = openingBlock id request rc.chunk)
    (hcommand : request.command.length ≤ 256) (now : Time) :
    ∃ s t, rc.sendNext P id now false =
      ({ rc with outgoing := (rc.outgoing.insert id s).insert id t },
        [.send (openingBlock id request rc.chunk).bytes]) := by
  generalize hf : openingBlock id request rc.chunk = f at hframe ⊢
  have hid : f.id = id ∧ f.kind = .put ∧ f.auth = [] ∧ f.command = request.command := by
    rw [← hf]
    exact ⟨rfl, rfl, rfl, rfl⟩
  have hencodable : f.Encodable := ⟨hid.2.2.2 ▸ hcommand, .inl hid.2.2.1⟩
  have hremember : rc.remember f =
      { rc with outgoing := rc.outgoing.insert id { r with last := f } } := by
    rw [remember, hid.2.1, hid.1]
    exact updateOutgoing_of_find hr _
  have hfind : (rc.outgoing.insert id { r with last := f }).find? id = some { r with last := f } := by
    rw [OrderedMap.find?_insert, if_pos rfl]
  refine ⟨{ r with last := f }, { r with last := f, next := now + r.wait }, ?_⟩
  rw [sendNext, hr]
  simp only [hframe]
  rw [emit_plain h (by rw [hid.2.1]; simp) hencodable hid.2.2.1, hremember]
  exact congrArg (·, _) (@updateOutgoing_of_find
    { rc with outgoing := rc.outgoing.insert id { r with last := f } } id _ hfind _)

/-- An object without requests that submits one sends its first block, and releasing the
request leaves the object as it was. -/
theorem submit_plain (h : Plain rc) (hout : rc.outgoing = {}) (id : Id) {request : ControlRequest}
    {op : ControlOperation} (hop : ControlDispatcher.parse request.command = .ok op)
    (hcommand : request.command.length ≤ 256) (hbody : request.body.length = op.length)
    (retries : ℕ) (wait now : Time) :
    ∃ rc', rc.submit P id request retries wait now =
        (rc', [.submitted id request, .send (openingBlock id request rc.chunk).bytes]) ∧
      rc'.release id = rc := by
  have hfree : ¬(rc.enabled = false ∨ (rc.auth.required ∧ rc.auth.signing = false)) := by
    rw [h.enabled, h.auth]
    rintro (h | ⟨h, -⟩) <;> cases h
  have hvalid : ¬(256 < request.command.length ∨ request.body.length ≠ op.length ∨
      rc.outgoing.contains id) := by
    rw [hout]
    rintro (hlong | hne | hin)
    · omega
    · exact hne hbody
    · cases hin
  have hfind : (rc.outgoing.insert id { request, retries, wait }).find? id =
      some { request, retries, wait } := by
    rw [OrderedMap.find?_insert, if_pos rfl]
  have hplain : Plain { rc with outgoing := rc.outgoing.insert id { request, retries, wait } } :=
    ⟨h.enabled, h.auth⟩
  have hframe : Outgoing.frame { request, retries, wait } id rc.chunk false =
      openingBlock id request rc.chunk := rfl
  obtain ⟨s, t, hsend⟩ := sendNext_plain (P := P) hplain hfind hframe hcommand now
  rw [submit, if_neg hfree, admitOutgoing_empty hout, hop]
  simp only [Bool.true_eq_false, if_false, if_neg hvalid, hsend]
  refine ⟨_, rfl, ?_⟩
  rw [release, erase_insert, erase_insert, erase_insert]
  obtain ⟨incoming, outgoing, order, chunk, access, auth, enabled, challenges⟩ := rc
  cases hout
  cases h.auth
  rfl

end RemoteControl

end Tuntom.Control
