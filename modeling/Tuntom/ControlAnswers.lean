import Tuntom.ControlOnce

/-! What the executing side of remote control sends: every answer says what its
table holds after the call, or that it holds nothing. -/
namespace Tuntom.Control
open RemoteControl List

variable {P : Primitives}

inductive Answer (m : Table) (f : Frame) : Frame → Prop
  | record {r : Incoming} {kind : Kind} (hr : m.find? f.id = some r) (hkind : kind.answers)
      (chunk offset : ℕ) : Answer m f (r.answer f.id chunk offset kind)
  | busy (hput : f.kind = .put) (hoffset : f.offset = 0) (hnone : m.find? f.id = none) (chunk : ℕ) :
      Answer m f ((refusal (ascii "remote control busy")).answer f.id chunk 0 .reply)
  | conflict {r : Incoming} {now : Time} {why : Bytes} (hput : f.kind = .put)
      (hr : m.find? f.id = some r) (htake : r.take f now = .error why) (chunk : ℕ) :
      Answer m f ((refusal why).answer f.id chunk 0 .reply)
  | missing (hnone : m.find? f.id = none) :
      Answer m f { id := f.id, kind := .reply, state := .notFound }
  | unrecorded (hfinish : f.kind = .finish) (hstate : f.state = .rejected)
      (hnone : m.find? f.id = none) :
      Answer m f { id := f.id, kind := .confirmed, state := .rejected, total := f.total }
  | challenge (data : Bytes) : Answer m f { kind := .challenge, id := f.id, data }

/-- An object that has submitted nothing, with everything it sends an answer to `f`. -/
structure Answers (f : Frame) (out : RemoteControl × List Effect) : Prop where
  outgoing : out.1.outgoing = {}
  sends : ∀ b, .send b ∈ out.2 → ∃ g proof, Answer out.1.incoming f g ∧
    { g with auth := proof }.encode = some b

theorem Answers.nil {f : Frame} {rc : RemoteControl} (h : rc.outgoing = {}) : Answers f (rc, []) :=
  ⟨h, fun _ hb => absurd hb not_mem_nil⟩

theorem Answers.after {f : Frame} {out : RemoteControl × List Effect} (h : Answers f out)
    (effects : List Effect) (hquiet : ∀ b, .send b ∉ effects) : Answers f (out.1, effects ++ out.2) where
  outgoing := h.outgoing
  sends b hb := h.sends b ((mem_append.mp hb).resolve_left (hquiet b))

namespace RemoteControl

variable {rc : RemoteControl}

theorem updateOutgoing_empty (h : rc.outgoing = {}) (id : Id) (change : Outgoing → Outgoing) :
    rc.updateOutgoing id change = rc := by
  rw [updateOutgoing, h]
  rfl

theorem emit_outgoing_empty (h : rc.outgoing = {}) (f : Frame) : (rc.emit P f).1.outgoing = {} := by
  rw [emit]
  split
  · exact h
  split
  · exact h
  have hremember : rc.remember f = rc := by
    rw [remember]
    split
    · rfl
    · exact updateOutgoing_empty h ..
  rw [hremember]
  exact h

theorem emit_answers {f g : Frame} (h : rc.outgoing = {}) (hg : Answer rc.incoming f g) :
    Answers f (rc.emit P g) where
  outgoing := emit_outgoing_empty h g
  sends b hb := by
    obtain ⟨proof, b', hencode, heq⟩ := rc.mem_emit P hb
    cases heq
    rw [(emit_quiet rfl g).incoming]
    exact ⟨g, proof, hg, hencode⟩

theorem upload_answers {f : Frame} {r : Incoming} (now : Time) (h : Handlers)
    (hout : rc.outgoing = {}) (hput : f.kind = .put) (hr : rc.incoming.find? f.id = some r) :
    Answers f (rc.upload P f r now h) := by
  have hstored : ∀ s : Incoming, (rc.incoming.insert f.id s).find? f.id = some s := by
    intro s
    rw [OrderedMap.find?_insert, if_pos rfl]
  rw [upload]
  split
  next why htake => exact emit_answers hout (.conflict hput hr htake rc.chunk)
  next s htake =>
  split
  · dsimp only
    split
    · refine ⟨hout, fun b hb => ?_⟩
      cases mem_singleton.mp hb
    refine Answers.after (emit_answers ?_ (.record (hstored _) rfl _ _)) [_] fun b hb => ?_
    · exact hout
    · cases mem_singleton.mp hb
  · refine emit_answers ?_ (.record (hstored s) rfl _ _)
    exact hout

theorem makeRoom_frame (turns : ℕ) (rc : RemoteControl) (reserved : ℕ) :
    (makeRoom turns rc reserved).1.outgoing = rc.outgoing ∧
      ∀ b, .send b ∉ (makeRoom turns rc reserved).2.1 := by
  induction turns generalizing rc reserved with
  | zero => exact ⟨rfl, fun _ => not_mem_nil⟩
  | succ turns ih =>
    rw [makeRoom]
    split
    · split
      · exact ⟨rfl, fun _ => not_mem_nil⟩
      next id r _ =>
        obtain ⟨hout, hsend⟩ := ih
          { rc with incoming := rc.incoming.erase id, auth := rc.auth.forget id } (reserved - r.stored)
        refine ⟨hout, fun b hb => ?_⟩
        rcases mem_cons.mp hb with heq | hb
        · cases heq
        · exact hsend b hb
    · exact ⟨rfl, fun _ => not_mem_nil⟩

theorem admit_frame (rc : RemoteControl) :
    rc.admitIncoming.1.outgoing = rc.outgoing ∧ ∀ b, .send b ∉ rc.admitIncoming.2.1 := by
  rw [admitIncoming]
  split
  · exact ⟨rfl, fun _ => not_mem_nil⟩
  · exact makeRoom_frame ..

theorem opened_frame (rc : RemoteControl) (f : Frame) (principal : AuthorityKey) (now : Time)
    (h : Handlers) (b : Bytes) : .send b ∉ (rc.opened f principal now h).2 := by
  intro hb
  obtain ⟨answer, heq⟩ := opened_effects hb
  cases heq

theorem receivePut_answers {f : Frame} (principal : AuthorityKey) (now : Time) (h : Handlers)
    (hout : rc.outgoing = {}) (hput : f.kind = .put) (hack : AckEnded rc.incoming) :
    Answers f (rc.receivePut P f principal now h) := by
  rw [receivePut]
  split
  next r hr => exact upload_answers now h hout hput hr
  next hnone =>
  split
  · exact emit_answers hout (.missing hnone)
  next hoffset =>
  obtain ⟨houtgoing, hsend⟩ := rc.admit_frame
  obtain ⟨_, hnone', _⟩ := @admit_does f principal rc hack hnone
  dsimp only
  split
  · refine Answers.after (emit_answers ?_ (.busy hput (not_not.mp hoffset) hnone' _)) _ hsend
    exact houtgoing.trans hout
  rw [append_assoc]
  refine Answers.after (Answers.after (upload_answers now h ?_ hput ?_) _ (opened_frame _ _ _ _ _))
    _ hsend
  · split <;> exact houtgoing.trans hout
  · split
    · exact (OrderedMap.find?_insert ..).trans (if_pos rfl)
    · exact (OrderedMap.find?_insert ..).trans (if_pos rfl)

theorem receiveQuery_answers {f : Frame} (hout : rc.outgoing = {}) :
    Answers f (rc.receiveQuery P f) := by
  rw [receiveQuery]
  split
  next hnone =>
    split
    next hstate => exact emit_answers hout (.unrecorded hstate.1 hstate.2 hnone)
    next => exact emit_answers hout (.missing hnone)
  next r hr =>
  split
  next =>
    have hsent : Answers f ((rc.store f.id { r with acknowledged := true }).emit P
        ({ r with acknowledged := true }.answer f.id rc.chunk 0 .confirmed)) := by
      refine emit_answers hout (.record ?_ rfl _ _)
      exact (OrderedMap.find?_insert ..).trans (if_pos rfl)
    exact ⟨hsent.outgoing, hsent.sends⟩
  next => exact emit_answers hout (.record hr rfl _ _)

theorem receiveChallenge_idle (h : rc.outgoing = {}) (f : Frame) (now : Time) :
    rc.receiveChallenge P f now = (rc, []) := by
  rw [receiveChallenge, h]
  rfl

theorem handle_answers (f : Frame) (principal : AuthorityKey) (now : Time) (h : Handlers)
    (hout : rc.outgoing = {}) (hack : AckEnded rc.incoming) :
    Answers f (rc.handle P f principal now h) := by
  have hanswer : Answers f (rc.receiveAnswer P f now) := by
    rw [receiveAnswer, hout]
    exact .nil hout
  rw [handle]
  split
  next hkind => exact receivePut_answers principal now h hout hkind hack
  next => exact receiveQuery_answers hout
  next => exact receiveQuery_answers hout
  next => exact hanswer
  next => exact hanswer
  next => exact .nil hout

/-- Whatever arrives at an object that has submitted nothing, it sends only answers, and
only challenges to what it has not accepted. -/
theorem receive_answers (bytes : Bytes) (now : Time) (h : Handlers) (hout : rc.outgoing = {})
    (hack : AckEnded rc.incoming) :
    (rc.receive P bytes now h).1.outgoing = {} ∧
      ∀ b, .send b ∈ (rc.receive P bytes now h).2 → ∃ f g proof, Frame.decode bytes = some f ∧
        (g.kind ≠ .challenge → ∃ key,
          .accepted { f with auth := [] } f.auth key ∈ (rc.receive P bytes now h).2) ∧
        Answer (rc.receive P bytes now h).1.incoming { f with auth := [] } g ∧
        { g with auth := proof }.encode = some b := by
  rw [receive]
  split
  · exact ⟨hout, fun b hb => absurd hb not_mem_nil⟩
  split
  · exact ⟨hout, fun b hb => absurd hb not_mem_nil⟩
  next f hf =>
  dsimp only
  split
  · have hidle := receiveChallenge_idle (P := P)
      (show ({ rc with auth := rc.auth.tick now } : RemoteControl).outgoing = {} from hout) f now
    rw [hidle]
    exact ⟨hout, fun b hb => absurd hb not_mem_nil⟩
  obtain ⟨a, ha⟩ := authenticate_after (P := P) { rc with auth := rc.auth.tick now }
    { f with auth := [] } f.auth
  split
  next rc' hv =>
    rw [hv] at ha
    rw [show rc' = _ from ha]
    exact ⟨hout, fun b hb => absurd hb not_mem_nil⟩
  next rc' hv =>
    rw [hv] at ha
    rw [show rc' = _ from ha, demand]
    dsimp only
    split
    · exact ⟨hout, fun b hb => absurd hb not_mem_nil⟩
    refine ⟨emit_outgoing_empty ?_ _, fun b hb => ?_⟩
    · exact hout
    · obtain ⟨proof, b', hencode, heq⟩ := mem_emit P _ hb
      cases heq
      exact ⟨f, _, proof, hf, fun hkind => absurd rfl hkind, .challenge _, hencode⟩
  next rc' key hv =>
  rw [hv] at ha
  rw [show rc' = _ from ha]
  have hanswers := handle_answers (P := P) { f with auth := [] } key now h
    (show ({ rc with auth := a } : RemoteControl).outgoing = {} from hout) hack
  refine ⟨hanswers.outgoing, fun b hb => ?_⟩
  obtain ⟨g, proof, hg⟩ := hanswers.sends b ((mem_cons.mp hb).resolve_left (by simp))
  exact ⟨f, g, proof, hf, fun _ => ⟨key, mem_cons_self⟩, hg⟩

theorem expire_outgoing (rc : RemoteControl) (id : Id) (due : Incoming → Bool) (keep : Bool)
    (text : Bytes) : (rc.expire id due keep text).outgoing = rc.outgoing := by
  rw [expire]
  split
  · rfl
  split <;> rfl

theorem expireAll_outgoing (due : Incoming → Bool) (keep : Bool) (text : Bytes) (ids : List Id)
    (rc : RemoteControl) :
    (ids.foldl (fun rc id => rc.expire id due keep text) rc).outgoing = rc.outgoing := by
  induction ids generalizing rc with
  | nil => rfl
  | cons id rest ih => exact (ih _).trans (rc.expire_outgoing id due keep text)

theorem tick_answers (now : Time) (hout : rc.outgoing = {}) :
    (rc.tick P now).1.outgoing = {} ∧ (rc.tick P now).2 = [] := by
  have hsame := expireAll_outgoing (uploadDue now) false
    (ascii "request upload expired before execution\n") (rc.incoming.entries.map Prod.fst)
    { rc with auth := rc.auth.tick now }
  rw [tick]
  dsimp only
  generalize (rc.incoming.entries.map Prod.fst).foldl _ _ = rc' at hsame ⊢
  have hempty : rc'.outgoing = {} := hsame.trans hout
  rw [hempty]
  exact ⟨hempty, rfl⟩

theorem sessionChanged_answers (now : Time) (hout : rc.outgoing = {}) :
    (rc.sessionChanged now).outgoing = {} := by
  rw [sessionChanged]
  dsimp only
  rw [expireAll_outgoing, hout]
  rfl

end RemoteControl

end Tuntom.Control
