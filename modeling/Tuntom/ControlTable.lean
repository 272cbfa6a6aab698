import Tuntom.RemoteControl
import Tuntom.Transition

/-! What the calls on a remote control object do to its table of incoming
requests: every call is a sequence of a few kinds of moves. -/
namespace Tuntom.Control
open List

abbrev Table := OrderedMap Id Incoming

structure Execution where
  id : Id
  request : ControlRequest
  response : Option ControlResponse
  deriving DecidableEq, Repr

def Effect.execution? : Effect → Option Execution
  | .execute id request response => some ⟨id, request, response⟩
  | _ => none

def executions (effects : List Effect) : List Execution := effects.filterMap Effect.execution?

theorem executions_append (a b : List Effect) : executions (a ++ b) = executions a ++ executions b :=
  filterMap_append

/-! ### What leaves the table alone -/

/-- Neither an execution nor a step of the account of `admit`. -/
def Effect.silent : Effect → Prop
  | .execute .. => False
  | .discounted .. => False
  | _ => True

structure Quiet (m : Table) (out : RemoteControl × List Effect) : Prop where
  incoming : out.1.incoming = m
  silent : ∀ e ∈ out.2, e.silent

variable {rc : RemoteControl}

theorem Quiet.nil {m : Table} (h : rc.incoming = m) : Quiet m (rc, []) :=
  ⟨h, fun _ he => absurd he not_mem_nil⟩

theorem Quiet.cons {m : Table} {out : RemoteControl × List Effect} {e : Effect} (h : Quiet m out)
    (he : e.silent) : Quiet m (out.1, e :: out.2) :=
  ⟨h.incoming, fun _ hmem => (mem_cons.mp hmem).elim (fun heq => heq ▸ he) (h.silent _)⟩

theorem executions_silent {effects : List Effect} (h : ∀ e ∈ effects, e.silent) :
    executions effects = [] := by
  refine filterMap_eq_nil_iff.mpr fun e he => ?_
  have hsilent := h e he
  cases e with
  | execute => cases hsilent
  | _ => rfl

namespace RemoteControl

variable (P : Primitives) (rc : RemoteControl)

theorem updateOutgoing_incoming (id : Id) (change : Outgoing → Outgoing) :
    (rc.updateOutgoing id change).incoming = rc.incoming := by
  rw [updateOutgoing]
  split <;> rfl

theorem remember_incoming (f : Frame) : (rc.remember f).incoming = rc.incoming := by
  rw [remember]
  split
  · rfl
  · exact updateOutgoing_incoming ..

theorem mem_emit {f : Frame} {e : Effect} (h : e ∈ (rc.emit P f).2) :
    ∃ proof b, { f with auth := proof }.encode = some b ∧ e = .send b := by
  rw [emit] at h
  split at h
  · cases h
  split at h
  · obtain ⟨b, hb, rfl⟩ := mem_map.mp h
    exact ⟨f.auth, b, Option.mem_toList.mp hb, rfl⟩
  · obtain ⟨b, hb, rfl⟩ := mem_map.mp h
    exact ⟨_, b, Option.mem_toList.mp hb, rfl⟩

section Sending

variable {P rc} {m : Table} (hm : rc.incoming = m)

include hm

theorem emit_quiet (f : Frame) : Quiet m (rc.emit P f) where
  incoming := by
    rw [emit]
    split
    · exact hm
    split
    · exact hm
    · exact (remember_incoming ..).trans hm
  silent e he := by
    obtain ⟨_, _, _, rfl⟩ := rc.mem_emit P he
    trivial

theorem sendNext_quiet (id : Id) (now : Time) (retry : Bool) :
    Quiet m (rc.sendNext P id now retry) := by
  rw [sendNext]
  split
  · exact .nil hm
  next r _ =>
  have hemit : Quiet m (rc.emit P (r.frame id rc.chunk retry)) := emit_quiet hm _
  exact ⟨(updateOutgoing_incoming ..).trans hemit.incoming, hemit.silent⟩

theorem receiveAnswer_quiet (f : Frame) (now : Time) : Quiet m (rc.receiveAnswer P f now) := by
  rw [receiveAnswer]
  split
  · exact .nil hm
  split
  · exact .nil hm
  split
  · split
    · exact .nil hm
    · exact .nil hm
  split
  · exact .nil hm
  dsimp only
  split
  · refine sendNext_quiet ?_ ..
    exact hm
  · exact .nil hm

theorem receiveChallenge_quiet (f : Frame) (now : Time) :
    Quiet m (rc.receiveChallenge P f now) := by
  rw [receiveChallenge]
  split
  · exact .nil hm
  next r _ =>
  split
  · exact .nil hm
  dsimp only
  split
  · refine .cons (emit_quiet ?_ r.last) trivial
    exact hm
  · exact .nil hm

theorem demand_quiet (f : Frame) (now : Time) (h : Handlers) : Quiet m (rc.demand P f now h) := by
  rw [demand]
  split
  · exact .nil hm
  · refine emit_quiet ?_ _
    exact hm

theorem tickOutgoing_quiet (id : Id) (now : Time) : Quiet m (rc.tickOutgoing P id now) := by
  rw [tickOutgoing]
  split
  · exact .nil hm
  split
  · dsimp only
    split
    · exact .nil hm
    · exact .nil hm
  split
  · exact .nil hm
  dsimp only
  split
  · exact .nil hm
  · refine sendNext_quiet ?_ ..
    exact hm

end Sending

theorem each_quiet {turn : RemoteControl → Id → RemoteControl × List Effect}
    (h : ∀ rc id, Quiet rc.incoming (turn rc id)) (ids : List Id) :
    Quiet rc.incoming (rc.each turn ids) := by
  induction ids generalizing rc with
  | nil => exact .nil rfl
  | cons id rest ih =>
    have hfirst := h rc id
    have hrest := ih (turn rc id).1
    refine ⟨hrest.incoming.trans hfirst.incoming, fun e he => ?_⟩
    exact (mem_append.mp he).elim (hfirst.silent e) (hrest.silent e)

theorem makeOutgoingRoom_incoming (turns reserved : ℕ) :
    (makeOutgoingRoom turns rc reserved).1.incoming = rc.incoming := by
  induction turns generalizing rc reserved with
  | zero => rfl
  | succ turns ih =>
    rw [makeOutgoingRoom]
    split
    · split
      · rfl
      · exact ih ..
    · rfl

theorem admitOutgoing_incoming : rc.admitOutgoing.1.incoming = rc.incoming := by
  rw [admitOutgoing]
  split
  · rfl
  · exact makeOutgoingRoom_incoming ..

theorem submit_quiet (id : Id) (request : ControlRequest) (retries : ℕ) (wait now : Time) :
    Quiet rc.incoming (rc.submit P id request retries wait now) := by
  have hroom := rc.admitOutgoing_incoming
  rw [submit]
  split
  · exact .nil rfl
  dsimp only
  split
  · exact .nil hroom
  split
  · exact .nil hroom
  split
  · exact .nil hroom
  · refine .cons (sendNext_quiet ?_ ..) trivial
    exact hroom

theorem query_quiet (id : Id) (retries : ℕ) (wait now : Time) :
    Quiet rc.incoming (rc.query P id retries wait now) := by
  have hroom := admitOutgoing_incoming { rc with outgoing := rc.outgoing.erase id }
  rw [query]
  split
  · exact .nil rfl
  split
  · exact .nil rfl
  dsimp only
  split
  · exact .nil hroom
  · refine sendNext_quiet ?_ ..
    exact hroom

end RemoteControl

/-! ### Moves -/

structure Incoming.Opens (r : Incoming) (m : Table) (f : Frame) (principal : AuthorityKey) : Prop where
  request : r.request = ⟨f.command, []⟩
  total : r.total = f.total.toNat
  principal : r.principal = principal
  fresh : r.acknowledged = false
  response : r.response.length ≤ 65
  receiving : r.state = .receiving → r.total ≤ controlMaxBody ∧ r.response = [] ∧
    ∃ op, ControlDispatcher.parse f.command = .ok op ∧ r.cheap = op.cheap
  rejected : r.state = .receiving ∨ r.state = .rejected
  slot : r.exclusive → ∀ s ∈ m.values, s.exclusive = false

/-- What `admit` has made sure of. -/
def Room (m : Table) : Prop :=
  m.size < RemoteControl.history ∧
    m.total Incoming.reserved + 2 * controlMaxBody ≤ RemoteControl.memoryLimit

/-- One move of the table on behalf of a request frame and the principal behind it,
or of a timer, with the execution it comes with. -/
inductive Move : Option (Frame × AuthorityKey) → Table → List Execution → Table → Prop
  | evict {m : Table} {input : Frame × AuthorityKey} {id : Id} {r : Incoming}
      (hr : m.find? id = some r) (hack : r.acknowledged) (hother : id ≠ input.1.id) :
      Move (some input) m [] (m.erase id)
  | create {m : Table} {f : Frame} {principal : AuthorityKey} {r : Incoming}
      (hput : f.kind = .put) (hnone : m.find? f.id = none) (hoffset : f.offset = 0)
      (hroom : Room m) (hopen : r.Opens m f principal) :
      Move (some (f, principal)) m [] (m.insert f.id r)
  | block {m : Table} {f : Frame} {principal : AuthorityKey} {r s : Incoming} {now : Time}
      (hput : f.kind = .put) (hr : m.find? f.id = some r) (htake : r.take f now = .ok s)
      (hmore : ¬s.complete) :
      Move (some (f, principal)) m [] (m.insert f.id s)
  | run {m : Table} {f : Frame} {principal : AuthorityKey} {r s : Incoming} {now : Time}
      (hput : f.kind = .put) (hr : m.find? f.id = some r) (htake : r.take f now = .ok s)
      (hdone : s.complete) (response : Option ControlResponse) (order : ℕ) :
      Move (some (f, principal)) m [⟨f.id, s.request, response⟩]
        (m.insert f.id (s.executed response order))
  | acknowledge {m : Table} {f : Frame} {principal : AuthorityKey} {r : Incoming}
      (hfinish : f.kind = .finish) (hr : m.find? f.id = some r) (hend : r.terminal)
      (hstate : f.state = r.state) (htotal : f.total.toNat = r.response.length) :
      Move (some (f, principal)) m [] (m.insert f.id { r with acknowledged := true })
  | expire {m : Table} {id : Id} {r : Incoming} {body text : Bytes} {order : ℕ}
      (hr : m.find? id = some r) (hstate : r.state = .receiving)
      (hbody : body = r.request.body ∨ body = []) (htext : text.length ≤ 64) :
      Move none m [] (m.insert id
        { r.conclude .expired text order with request := ⟨r.request.command, body⟩ })

inductive Moves (input : Option (Frame × AuthorityKey)) : Table → List Execution → Table → Prop
  | nil {m : Table} : Moves input m [] m
  | cons {m m' m'' : Table} {e es : List Execution} (h : Move input m e m')
      (rest : Moves input m' es m'') : Moves input m (e ++ es) m''

namespace Moves

variable {input : Option (Frame × AuthorityKey)} {m m' m'' : Table} {e es : List Execution}

theorem one (h : Move input m e m') : Moves input m e m' := by
  have hcons := cons h (@nil input m')
  rwa [append_nil] at hcons

theorem trans (h : Moves input m e m') (g : Moves input m' es m'') :
    Moves input m (e ++ es) m'' := by
  induction h with
  | nil => exact g
  | cons hmove _ ih =>
    rw [append_assoc]
    exact cons hmove (ih g)

theorem invariant {I : Table → Prop} (h : Moves input m es m')
    (hstep : ∀ {m e m'}, Move input m e m' → I m → I m') (hm : I m) : I m' := by
  induction h with
  | nil => exact hm
  | cons hmove _ ih => exact ih (hstep hmove hm)

end Moves

def AckEnded (m : Table) : Prop := ∀ id r, m.find? id = some r → r.acknowledged → r.terminal

theorem Incoming.take_ok {r s : Incoming} {f : Frame} {now : Time} (h : r.take f now = .ok s) :
    r.request.command = f.command ∧ r.total = f.total.toNat ∧
      f.offset.toNat + f.data.length ≤ r.total ∧
      ((s = r ∧ (r.state = .receiving → f.offset.toNat ≠ r.request.body.length)) ∨
        (f.offset.toNat = r.request.body.length ∧ r.state = .receiving ∧
          s = { r with
            request := { r.request with body := r.request.body ++ f.data }
            progress := if f.data = [] then r.progress else now })) := by
  rw [take] at h
  split at h
  · cases h
  next hsame =>
  rw [not_or, not_not, not_not] at hsame
  split at h
  · cases h
  next hbounds =>
  have hin : f.offset.toNat + f.data.length ≤ r.total := by omega
  refine ⟨hsame.1, hsame.2, hin, ?_⟩
  split at h
  next hinside =>
    split at h
    · cases h
    · exact .inl ⟨(Except.ok.inj h).symm, fun _ => Nat.ne_of_lt hinside⟩
  next =>
  split at h
  next hnext => exact .inr ⟨hnext.1, hnext.2, (Except.ok.inj h).symm⟩
  next hnext =>
    exact .inl ⟨(Except.ok.inj h).symm, fun hstate hoffset => hnext ⟨hoffset, hstate⟩⟩

theorem Incoming.executed_terminal (r : Incoming) (response : Option ControlResponse) (order : ℕ) :
    (r.executed response order).terminal := by
  cases response with
  | none => rfl
  | some response =>
    rw [executed, terminal, conclude, outcome]
    split
    · rfl
    · split <;> rfl

theorem AckEnded.move {input : Option (Frame × AuthorityKey)} {m m' : Table} {e : List Execution}
    (h : Move input m e m') (hm : AckEnded m) : AckEnded m' := by
  intro id r hr hack
  cases h with
  | evict =>
    rw [OrderedMap.find?_erase] at hr
    split at hr
    · cases hr
    · exact hm id r hr hack
  | create _ _ _ _ hopen =>
    rw [OrderedMap.find?_insert] at hr
    split at hr
    · cases hr
      rw [hopen.fresh] at hack
      cases hack
    · exact hm id r hr hack
  | @block _ _ _ old _ _ _ hold htake _ =>
    rw [OrderedMap.find?_insert] at hr
    split at hr
    · cases hr
      have hend : old.acknowledged → old.terminal := hm _ old hold
      obtain ⟨_, _, _, ⟨rfl, _⟩ | ⟨_, _, rfl⟩⟩ := Incoming.take_ok htake
      · exact hend hack
      · exact hend hack
    · exact hm id r hr hack
  | run _ hold htake _ response =>
    rw [OrderedMap.find?_insert] at hr
    split at hr
    · cases hr
      exact Incoming.executed_terminal ..
    · exact hm id r hr hack
  | acknowledge _ hold hend =>
    rw [OrderedMap.find?_insert] at hr
    split at hr
    · cases hr
      exact hend
    · exact hm id r hr hack
  | expire =>
    rw [OrderedMap.find?_insert] at hr
    split at hr
    · cases hr
      rfl
    · exact hm id r hr hack

/-! ### Calls as moves -/

/-- The result of a call: moves from the table before it, with the executions it
reports, and an account that never goes below zero. -/
structure Does (input : Option (Frame × AuthorityKey)) (m : Table)
    (out : RemoteControl × List Effect) : Prop where
  moves : Moves input m (executions out.2) out.1.incoming
  account : ∀ reserved size, .discounted reserved size ∈ out.2 → size ≤ reserved

namespace Does

variable {input : Option (Frame × AuthorityKey)} {m : Table}

theorem quiet {out : RemoteControl × List Effect} (h : Quiet m out) : Does input m out where
  moves := by
    rw [executions_silent h.silent, h.incoming]
    exact .nil
  account reserved size hmem := (h.silent _ hmem).elim

theorem after {rc : RemoteControl} {effects : List Effect} {out : RemoteControl × List Effect}
    (h : Does input m (rc, effects)) (g : Does input rc.incoming out) :
    Does input m (out.1, effects ++ out.2) where
  moves := by
    rw [executions_append]
    exact h.moves.trans g.moves
  account reserved size hmem :=
    (mem_append.mp hmem).elim (h.account reserved size) (g.account reserved size)

end Does

theorem earliest_mem {β α : Type} [LT α] [DecidableLT α] {mark : β → Option α}
    {entries : List (Id × β)} {e : Id × β} (h : earliest mark entries = some e) :
    e ∈ entries ∧ (mark e.2).isSome := by
  induction entries generalizing e with
  | nil => cases h
  | cons d rest ih =>
    rw [earliest] at h
    split at h
    next => exact (ih h).imp_left (mem_cons_of_mem d)
    next m hm _ =>
      cases h
      exact ⟨mem_cons_self, by rw [hm]; rfl⟩
    next m best hm hbest =>
    have hd : (mark d.2).isSome := by rw [hm]; rfl
    split at h
    · split at h
      · cases h
        exact (ih hbest).imp_left (mem_cons_of_mem d)
      · cases h
        exact ⟨mem_cons_self, hd⟩
    · cases h
      exact ⟨mem_cons_self, hd⟩

namespace RemoteControl

theorem earliest_evictable {m : Table} {id : Id} {r : Incoming}
    (h : earliest evictable m.entries = some (id, r)) : m.find? id = some r ∧ r.acknowledged := by
  obtain ⟨hmem, hmark⟩ := earliest_mem h
  refine ⟨OrderedMap.find?_eq_some_iff.mpr hmem, ?_⟩
  rw [evictable] at hmark
  split at hmark
  next hack => exact hack
  next => cases hmark

variable {f : Frame} {principal : AuthorityKey} {rc : RemoteControl} {h : Handlers}
  {op : ControlOperation}

/-- The loop of `admit` evicts acknowledged records, and its account is the true
sum on every turn. -/
theorem makeRoom_does (turns : ℕ) (rc : RemoteControl) (reserved : ℕ)
    (hack : AckEnded rc.incoming) (hnone : rc.incoming.find? f.id = none)
    (hsum : reserved = rc.incoming.total Incoming.reserved) :
    let out := makeRoom turns rc reserved
    Does (some (f, principal)) rc.incoming (out.1, out.2.1) ∧
      out.1.incoming.find? f.id = none ∧ (out.2.2 = true → Room out.1.incoming) := by
  induction turns generalizing rc reserved with
  | zero => exact ⟨.quiet (.nil rfl), hnone, fun h => by cases h⟩
  | succ turns ih =>
    rw [makeRoom]
    split
    next =>
      split
      next => exact ⟨.quiet (.nil rfl), hnone, by simp⟩
      next id r hold =>
      obtain ⟨hr, hdone⟩ := earliest_evictable hold
      have hother : id ≠ f.id := by
        rintro rfl
        rw [hnone] at hr
        cases hr
      have hmove : Move (some (f, principal)) rc.incoming [] (rc.incoming.erase id) :=
        .evict hr hdone hother
      have hend : r.reserved = r.stored := if_pos (hack id r hr hdone)
      have htotal := OrderedMap.total_erase hr Incoming.reserved
      have hleft : reserved - r.stored = (rc.incoming.erase id).total Incoming.reserved := by omega
      have hgone : (rc.incoming.erase id).find? f.id = none := by
        rw [OrderedMap.find?_erase, hnone, ite_self]
      obtain ⟨hrest, hnone', hroom⟩ :=
        ih { rc with incoming := rc.incoming.erase id, auth := rc.auth.forget id }
          (reserved - r.stored) (hack.move hmove) hgone hleft
      refine ⟨⟨?_, ?_⟩, hnone', hroom⟩
      · exact .cons hmove hrest.moves
      · intro a b hmem
        rcases mem_cons.mp hmem with heq | hmem
        · cases heq
          omega
        · exact hrest.account a b hmem
    next hfit =>
    refine ⟨.quiet (.nil rfl), hnone, fun _ => ?_⟩
    rw [not_or, Nat.not_le, Nat.not_lt, hsum] at hfit
    exact hfit

theorem admit_does (hack : AckEnded rc.incoming) (hnone : rc.incoming.find? f.id = none) :
    Does (some (f, principal)) rc.incoming (rc.admitIncoming.1, rc.admitIncoming.2.1) ∧
      rc.admitIncoming.1.incoming.find? f.id = none ∧ (rc.admitIncoming.2.2 = true → Room rc.admitIncoming.1.incoming) := by
  rw [admitIncoming]
  split
  · exact ⟨.quiet (.nil rfl), hnone, by simp⟩
  · exact makeRoom_does _ _ _ hack hnone rfl

theorem objection_none {effects : List Effect} (ho : rc.objection f op h = (none, effects)) :
    f.total.toNat ≤ controlMaxBody ∧ (op.cheap = false → rc.slotBusy = false) := by
  have hbusy : (if (!op.cheap && rc.slotBusy) = true then some (ascii "remote control busy")
      else none) = none → (op.cheap = false → rc.slotBusy = false) := by
    intro hnone hcheap
    split at hnone
    · cases hnone
    next hfree =>
    rw [hcheap] at hfree
    simpa using hfree
  rw [objection] at ho
  split at ho
  · cases ho
  next hlength =>
  rw [not_or, not_not, Nat.not_lt] at hlength
  refine ⟨hlength.2, ?_⟩
  split at ho
  · cases ho
  split at ho
  · exact hbusy (Prod.mk.inj ho).1
  dsimp only at ho
  split at ho
  · exact hbusy (Prod.mk.inj ho).1
  · cases ho

theorem objection_some {why : Bytes} {effects : List Effect}
    (ho : rc.objection f op h = (some why, effects)) : why.length ≤ 64 := by
  have hbusy : (if (!op.cheap && rc.slotBusy) = true then some (ascii "remote control busy")
      else none) = some why → why.length ≤ 64 := by
    intro hsome
    split at hsome
    · cases hsome
      decide
    · cases hsome
  rw [objection] at ho
  split at ho
  · cases ho
    decide
  split at ho
  · cases ho
    decide
  split at ho
  · exact hbusy (Prod.mk.inj ho).1
  dsimp only at ho
  split at ho
  · exact hbusy (Prod.mk.inj ho).1
  · cases ho
    decide

theorem objection_effects {e : Effect} (he : e ∈ (rc.objection f op h).2) :
    ∃ answer, e = .admission f.id ⟨f.command, []⟩ answer := by
  rw [objection] at he
  split at he
  · cases he
  split at he
  · cases he
  split at he
  · cases he
  dsimp only at he
  split at he
  · exact ⟨_, mem_singleton.mp he⟩
  · exact ⟨_, mem_singleton.mp he⟩

theorem opened_effects {now : Time} {e : Effect} (he : e ∈ (rc.opened f principal now h).2) :
    ∃ answer, e = .admission f.id ⟨f.command, []⟩ answer := by
  rw [opened] at he
  split at he
  · cases he
  next op _ =>
  dsimp only at he
  split at he
  next heq => exact objection_effects (by rw [heq]; exact he)
  next heq => exact objection_effects (by rw [heq]; exact he)

theorem opened_silent (rc : RemoteControl) (f : Frame) (principal : AuthorityKey) (now : Time)
    (h : Handlers) : ∀ e ∈ (rc.opened f principal now h).2, e.silent := by
  intro e he
  obtain ⟨answer, rfl⟩ := opened_effects he
  trivial

theorem opens_rejected {m : Table} {r : Incoming} {why : Bytes} {order : ℕ}
    (hrequest : r.request = ⟨f.command, []⟩) (htotal : r.total = f.total.toNat)
    (hprincipal : r.principal = principal) (hfresh : r.acknowledged = false)
    (hwhy : why.length ≤ 64) :
    (r.conclude .rejected (why ++ ascii "\n") order).Opens m f principal where
  request := hrequest
  total := htotal
  principal := hprincipal
  fresh := hfresh
  response := by
    rw [Incoming.conclude, length_append]
    exact Nat.add_le_add_right hwhy 1
  receiving h := by cases h
  rejected := .inr rfl
  slot h := by
    rw [Incoming.exclusive, Incoming.terminal, Incoming.conclude] at h
    simp [State.terminal] at h

theorem opened_opens (rc : RemoteControl) (f : Frame) (principal : AuthorityKey) (now : Time)
    (h : Handlers) : (rc.opened f principal now h).1.Opens rc.incoming f principal := by
  rw [opened]
  split
  next why hparse =>
    exact opens_rejected rfl rfl rfl rfl (ControlDispatcher.parse_error hparse)
  next op hparse =>
  dsimp only
  split
  next effects ho =>
    obtain ⟨htotal, hslot⟩ := objection_none ho
    refine ⟨rfl, rfl, rfl, rfl, Nat.zero_le _, fun _ => ⟨htotal, rfl, op, hparse, rfl⟩,
      .inl rfl, fun hex s hs => ?_⟩
    rw [Incoming.exclusive, Bool.and_eq_true, Bool.not_eq_true'] at hex
    have hfree := hslot hex.1
    rw [slotBusy, any_eq_false] at hfree
    exact Bool.not_eq_true _ ▸ hfree s hs
  next why effects ho =>
    exact opens_rejected rfl rfl rfl rfl (objection_some ho)

variable {P : Primitives}

theorem upload_does {r : Incoming} (now : Time) (h : Handlers) (hput : f.kind = .put)
    (hr : rc.incoming.find? f.id = some r) :
    Does (some (f, principal)) rc.incoming (rc.upload P f r now h) := by
  rw [upload]
  split
  next => exact .quiet (emit_quiet rfl _)
  next s htake =>
  split
  next hdone =>
    have hmove : Move (some (f, principal)) rc.incoming [⟨f.id, s.request, h.execute s.request⟩]
        (rc.incoming.insert f.id (s.executed (h.execute s.request) (rc.order + 1))) :=
      .run hput hr htake hdone _ _
    have hran : Does (some (f, principal)) rc.incoming
        (rc.storeEnded f.id (s.executed (h.execute s.request) (rc.order + 1)),
          [.execute f.id s.request (h.execute s.request)]) := by
      refine ⟨.one hmove, fun _ _ hmem => ?_⟩
      cases mem_singleton.mp hmem
    dsimp only
    split
    next => exact hran
    next => exact hran.after (.quiet (emit_quiet rfl _))
  next hmore =>
  have hstored : Does (some (f, principal)) rc.incoming (rc.store f.id s, []) :=
    ⟨.one (.block hput hr htake hmore), fun _ _ hmem => absurd hmem not_mem_nil⟩
  exact hstored.after (.quiet (emit_quiet rfl _))

theorem create_does {rc' : RemoteControl} (now : Time) (h : Handlers) (hput : f.kind = .put)
    (hnone : rc.incoming.find? f.id = none) (hoffset : f.offset = 0) (hroom : Room rc.incoming)
    (hstore : rc'.incoming = rc.incoming.insert f.id (rc.opened f principal now h).1) :
    Does (some (f, principal)) rc.incoming
      ((rc'.upload P f (rc.opened f principal now h).1 now h).1,
        (rc.opened f principal now h).2 ++ (rc'.upload P f (rc.opened f principal now h).1 now h).2) := by
  have hsilent := rc.opened_silent f principal now h
  have hstored : Does (some (f, principal)) rc.incoming (rc', (rc.opened f principal now h).2) := by
    refine ⟨?_, fun _ _ hmem => (hsilent _ hmem).elim⟩
    rw [executions_silent hsilent, hstore]
    exact .one (.create hput hnone hoffset hroom (rc.opened_opens f principal now h))
  refine hstored.after (upload_does now h hput ?_)
  rw [hstore, OrderedMap.find?_insert, if_pos rfl]

theorem receivePut_does (principal : AuthorityKey) (now : Time) (h : Handlers)
    (hput : f.kind = .put) (hack : AckEnded rc.incoming) :
    Does (some (f, principal)) rc.incoming (rc.receivePut P f principal now h) := by
  rw [receivePut]
  split
  next r hr => exact upload_does now h hput hr
  next hnone =>
  split
  · exact .quiet (emit_quiet rfl _)
  next hoffset =>
  obtain ⟨hroom, hnone', hfits⟩ := admit_does hack hnone
  dsimp only
  split
  · exact hroom.after (.quiet (emit_quiet rfl _))
  next hok =>
  rw [append_assoc]
  refine hroom.after (create_does now h hput hnone' (not_not.mp hoffset) (hfits ?_) ?_)
  · exact Bool.eq_true_of_not_eq_false hok
  · split <;> rfl

theorem receiveQuery_does (principal : AuthorityKey) :
    Does (some (f, principal)) rc.incoming (rc.receiveQuery P f) := by
  rw [receiveQuery]
  split
  next =>
    split
    · exact .quiet (emit_quiet rfl _)
    · exact .quiet (emit_quiet rfl _)
  next r hr =>
  split
  next hmatch =>
    obtain ⟨hfinish, hend, hstate, htotal⟩ := hmatch
    have hacked : Does (some (f, principal)) rc.incoming
        (rc.store f.id { r with acknowledged := true }, []) :=
      ⟨.one (.acknowledge hfinish hr hend hstate htotal),
        fun _ _ hmem => absurd hmem not_mem_nil⟩
    have hsent : Does (some (f, principal)) rc.incoming
        ((rc.store f.id { r with acknowledged := true }).emit P
          ({ r with acknowledged := true }.answer f.id rc.chunk 0 .confirmed)) :=
      hacked.after (.quiet (emit_quiet rfl _))
    exact ⟨hsent.moves, hsent.account⟩
  next => exact .quiet (emit_quiet rfl _)

theorem handle_does (f : Frame) (principal : AuthorityKey) (now : Time) (h : Handlers)
    (hack : AckEnded rc.incoming) :
    Does (some (f, principal)) rc.incoming (rc.handle P f principal now h) := by
  rw [handle]
  split
  next hkind => exact receivePut_does principal now h hkind hack
  next => exact receiveQuery_does principal
  next => exact receiveQuery_does principal
  next => exact .quiet (receiveAnswer_quiet rfl f now)
  next => exact .quiet (receiveAnswer_quiet rfl f now)
  next => exact .quiet (.nil rfl)

def Verdict.after : Verdict → RemoteControl
  | .principal rc _ => rc
  | .refused rc => rc
  | .unproven rc => rc

theorem authenticate_after (rc : RemoteControl) (f : Frame) (proof : Bytes) :
    ∃ a, (rc.authenticate P f proof).after = { rc with auth := a } := by
  rw [authenticate]
  split
  · split
    · dsimp only
      split <;> exact ⟨_, rfl⟩
    · exact ⟨_, rfl⟩
  split
  · dsimp only
    split
    · exact ⟨_, rfl⟩
    · split <;> exact ⟨_, rfl⟩
  split <;> exact ⟨_, rfl⟩

theorem authenticate_incoming (rc : RemoteControl) (f : Frame) (proof : Bytes) :
    (rc.authenticate P f proof).after.incoming = rc.incoming := by
  obtain ⟨a, ha⟩ := authenticate_after (P := P) rc f proof
  rw [ha]

theorem receive_does (bytes : Bytes) (now : Time) (h : Handlers) (hack : AckEnded rc.incoming) :
    Quiet rc.incoming (rc.receive P bytes now h) ∨
      ∃ f key, Frame.decode bytes = some f ∧
        .accepted { f with auth := [] } f.auth key ∈ (rc.receive P bytes now h).2 ∧
        Does (some ({ f with auth := [] }, key)) rc.incoming (rc.receive P bytes now h) := by
  rw [receive]
  split
  · exact .inl (.nil rfl)
  split
  · exact .inl (.nil rfl)
  next f hf =>
  dsimp only
  split
  · refine .inl (receiveChallenge_quiet ?_ ..)
    rfl
  have hm := authenticate_incoming (P := P) { rc with auth := rc.auth.tick now }
    { f with auth := [] } f.auth
  split
  next rc' hv =>
    rw [hv] at hm
    exact .inl (.nil hm)
  next rc' hv =>
    rw [hv] at hm
    exact .inl (demand_quiet hm ..)
  next rc' key hv =>
  rw [hv] at hm
  have hsame : rc'.incoming = rc.incoming := hm
  refine .inr ⟨f, key, hf, mem_cons_self, ?_⟩
  have haccepted : Does (some ({ f with auth := [] }, key)) rc.incoming
      (rc', [.accepted { f with auth := [] } f.auth key]) := by
    refine .quiet ⟨hsame, fun e he => ?_⟩
    rw [mem_singleton.mp he]
    trivial
  exact haccepted.after (handle_does _ key now h (hsame ▸ hack))

theorem expire_does (id : Id) (due : Incoming → Bool) (keep : Bool) {text : Bytes}
    (htext : text.length ≤ 64) : Does none rc.incoming (rc.expire id due keep text, []) := by
  rw [expire]
  split
  · exact .quiet (.nil rfl)
  next r hr =>
  split
  next hdue =>
    refine ⟨?_, fun _ _ hmem => absurd hmem not_mem_nil⟩
    cases keep with
    | true => exact .one (@Move.expire _ _ r r.request.body _ _ hr hdue.1 (.inl rfl) htext)
    | false => exact .one (@Move.expire _ _ r [] _ _ hr hdue.1 (.inr rfl) htext)
  next => exact .quiet (.nil rfl)

theorem expireAll_does (due : Incoming → Bool) (keep : Bool) {text : Bytes}
    (htext : text.length ≤ 64) (ids : List Id) (rc : RemoteControl) :
    Does none rc.incoming (ids.foldl (fun rc id => rc.expire id due keep text) rc, []) := by
  induction ids generalizing rc with
  | nil => exact .quiet (.nil rfl)
  | cons id rest ih => exact (expire_does id due keep htext).after (ih _)

theorem tick_does (rc : RemoteControl) (now : Time) : Does none rc.incoming (rc.tick P now) := by
  have hexpire := expireAll_does (uploadDue now) false
    (show (ascii "request upload expired before execution\n").length ≤ 64 by decide)
    (rc.incoming.entries.map Prod.fst) { rc with auth := rc.auth.tick now }
  exact hexpire.after (.quiet (each_quiet _ (fun rc id => tickOutgoing_quiet rfl id now) _))

theorem interruptAll_incoming (now : Time) (ids : List Id) (rc : RemoteControl) :
    (ids.foldl (fun rc id => rc.updateOutgoing id (interrupt id now)) rc).incoming = rc.incoming := by
  induction ids generalizing rc with
  | nil => rfl
  | cons id rest ih => exact (ih _).trans (rc.updateOutgoing_incoming id _)

theorem sessionChanged_does (rc : RemoteControl) (now : Time) :
    Does none rc.incoming (rc.sessionChanged now, []) := by
  have hout := interruptAll_incoming now (rc.outgoing.entries.map Prod.fst)
    { rc with auth := rc.auth.reset }
  rw [sessionChanged]
  generalize (rc.outgoing.entries.map Prod.fst).foldl
    (fun rc id => rc.updateOutgoing id (interrupt id now)) { rc with auth := rc.auth.reset } = rc' at *
  have hexpire := expireAll_does (fun _ => true) true
    (show (ascii "request upload interrupted by session change\n").length ≤ 64 by decide)
    (rc'.incoming.entries.map Prod.fst) rc'
  have hsame : rc'.incoming = rc.incoming := hout
  rw [← hsame]
  exact hexpire

end RemoteControl

inductive Call.Input : Call → Option (Frame × AuthorityKey) → Prop
  | frame {bytes : Bytes} {now : Time} {h : Handlers} {f : Frame} (key : AuthorityKey)
      (hf : Frame.decode bytes = some f) :
      Input (.receive bytes now h) (some ({ f with auth := [] }, key))
  | tick (now : Time) : Input (.tick now) none
  | sessionChanged (now : Time) : Input (.sessionChanged now) none

theorem step_does (P : Primitives) (call : Call) (hack : AckEnded rc.incoming) :
    Quiet rc.incoming (step P rc call) ∨
      ∃ input, call.Input input ∧ Does input rc.incoming (step P rc call) := by
  cases call with
  | receive bytes now h =>
    rcases RemoteControl.receive_does bytes now h hack with hquiet | ⟨f, key, hf, _, hdoes⟩
    · exact .inl hquiet
    · exact .inr ⟨_, .frame key hf, hdoes⟩
  | tick now => exact .inr ⟨_, .tick now, rc.tick_does now⟩
  | sessionChanged now => exact .inr ⟨_, .sessionChanged now, rc.sessionChanged_does now⟩
  | submit id request retries wait now => exact .inl (rc.submit_quiet P id request retries wait now)
  | query id retries wait now => exact .inl (rc.query_quiet P id retries wait now)
  | release id | payloadLimit bytes => exact .inl (.nil rfl)

theorem table_invariant {P : Primitives} {start : RemoteControl} {I : Table → Prop}
    (hstart : I start.incoming ∧ AckEnded start.incoming)
    (hstep : ∀ {input m e m'}, Move input m e m' → AckEnded m → I m → I m')
    {past : List (Call × List Effect)} (h : Transition.Trace (step P) start past rc) :
    I rc.incoming ∧ AckEnded rc.incoming := by
  refine h.invariant (fun _ rc => I rc.incoming ∧ AckEnded rc.incoming) hstart ?_
  intro past rc call _ hI
  rcases step_does P call hI.2 with hquiet | ⟨input, _, hdoes⟩
  · rw [hquiet.incoming]
    exact hI
  · refine hdoes.moves.invariant (I := fun m => I m ∧ AckEnded m) (fun hmove hm => ?_) hI
    exact ⟨hstep hmove hm.2 hm.1, hm.2.move hmove⟩

end Tuntom.Control
