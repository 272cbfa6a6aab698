import Tuntom.ControlBounds
import Tuntom.Ascon

/-! Remote requests are executed at most once: what happens to a request between
the creation of its record and the eviction. -/
namespace Tuntom.Control
open RemoteControl List Transition

abbrev History := List (Call × List Effect)

def Call.frame? : Call → Option Frame
  | .receive bytes _ _ => (Frame.decode bytes).map fun f => { f with auth := [] }
  | _ => none

def delivered (kind : Kind) (id : Id) (past : History) : List Frame :=
  past.reverse.filterMap fun x => x.1.frame?.filter fun f => f.kind = kind ∧ f.id = id

def runs (id : Id) (past : History) : List Execution :=
  past.reverse.flatMap fun x => (executions x.2).filter fun e => e.id = id

def Contiguous (command : Bytes) (total : ℕ) : ℕ → List Frame → Prop
  | _, [] => True
  | start, f :: rest =>
    f.offset.toNat = start ∧ f.command = command ∧ f.total.toNat = total ∧
      Contiguous command total (start + f.data.length) rest

/-- `body` is what the blocks `fs` carried, which are among `blocks` in this order and
follow each other from offset 0 on. -/
structure Carries (blocks : List Frame) (command : Bytes) (total : ℕ) (fs : List Frame)
    (body : Bytes) : Prop where
  among : fs.Sublist blocks
  contiguous : Contiguous command total 0 fs
  data : fs.flatMap Frame.data = body

/-- The execution of a complete upload: its body is what blocks from offset 0 on
carried, all of its command and all declaring its length. -/
def Uploaded (blocks : List Frame) (e : Execution) : Prop :=
  ∃ fs, fs ≠ [] ∧ Carries blocks e.request.command e.request.body.length fs e.request.body

variable {P : Primitives}

inductive Lifetime (P : Primitives) (id : Id) : RemoteControl → History → RemoteControl → Prop
  | created {rc : RemoteControl} (call : Call) (hnone : rc.incoming.find? id = none)
      (hsome : (step P rc call).1.incoming.contains id) :
      Lifetime P id rc [(call, (step P rc call).2)] (step P rc call).1
  | kept {start rc : RemoteControl} {past : History} (call : Call) (h : Lifetime P id start past rc)
      (hsome : (step P rc call).1.incoming.contains id) :
      Lifetime P id start ((call, (step P rc call).2) :: past) (step P rc call).1

/-! ### Blocks -/

variable {command : Bytes} {f : Frame} {fs blocks more finishes : List Frame} {total : ℕ}
  {executed e es : List Execution} {r : Incoming} {m m' : Table} {id : Id}
  {input : Option (Frame × AuthorityKey)} {past : History} {rc start : RemoteControl}

theorem contiguous_append {start : ℕ} (h : Contiguous command total start fs)
    (hoffset : f.offset.toNat = start + (fs.flatMap Frame.data).length)
    (hcommand : f.command = command) (htotal : f.total.toNat = total) :
    Contiguous command total start (fs ++ [f]) := by
  induction fs generalizing start with
  | nil => exact ⟨hoffset, hcommand, htotal, trivial⟩
  | cons g rest ih =>
    obtain ⟨ho, hc, ht, hrest⟩ := h
    refine ⟨ho, hc, ht, ih hrest ?_⟩
    rw [hoffset, flatMap_cons, length_append, Nat.add_assoc]

theorem contiguous_last {start : ℕ} (h : Contiguous command total start (fs ++ [f])) :
    f.offset.toNat = start + (fs.flatMap Frame.data).length := by
  induction fs generalizing start with
  | nil => exact h.1
  | cons g rest ih =>
    rw [ih h.2.2.2, flatMap_cons, length_append, Nat.add_assoc]

/-- A block that continues the upload, the newest of `blocks`, is carried too. Taking
it once more adds nothing. -/
theorem Carries.extend {body : Bytes} (h : Carries (blocks ++ [f]) command total fs body)
    (hoffset : f.offset.toNat = body.length) (hcommand : f.command = command)
    (htotal : f.total.toNat = total) :
    ∃ gs, gs ≠ [] ∧ Carries (blocks ++ [f]) command total gs (body ++ f.data) := by
  obtain ⟨hsub, hfs, rfl⟩ := h
  obtain ⟨l, r, rfl, hl, hr⟩ := sublist_append_iff.mp hsub
  rcases sublist_singleton.mp hr with rfl | rfl
  · rw [append_nil] at hfs hoffset ⊢
    refine ⟨l ++ [f], by simp, hl.append_right [f], ?_, ?_⟩
    · exact contiguous_append hfs (by rw [hoffset, Nat.zero_add]) hcommand htotal
    · rw [flatMap_append, flatMap_singleton]
  have hempty : f.data = [] := by
    have hlast := contiguous_last hfs
    rw [flatMap_append, length_append, flatMap_singleton] at hoffset
    exact length_eq_zero_iff.mp (by omega)
  refine ⟨l ++ [f], by simp, hsub, hfs, ?_⟩
  rw [hempty, append_nil]

theorem Carries.mono {body : Bytes} (h : Carries blocks command total fs body)
    (hsub : blocks.Sublist more) : Carries more command total fs body :=
  ⟨h.among.trans hsub, h.contiguous, h.data⟩

theorem Uploaded.mono {e : Execution} (h : Uploaded blocks e) (hsub : blocks.Sublist more) :
    Uploaded more e := by
  obtain ⟨fs, hne, hcarries⟩ := h
  exact ⟨fs, hne, hcarries.mono hsub⟩

/-! ### Records -/

/-- What the record of a request says about its lifetime so far: the blocks and the
FINISH frames delivered for it, and its executions. -/
structure Record (blocks finishes : List Frame) (executed : List Execution) (r : Incoming) :
    Prop where
  receiving : r.state = .receiving →
    executed = [] ∧ ∃ fs, Carries blocks r.request.command r.total fs r.request.body
  once : executed.length ≤ 1
  uploaded : ∀ e ∈ executed, Uploaded blocks e
  acknowledged : r.acknowledged →
    r.terminal ∧ ∃ f ∈ finishes, f.state = r.state ∧ f.total.toNat = r.response.length

theorem Record.mono {others : List Frame} (h : Record blocks finishes executed r)
    (hb : blocks.Sublist more) (hf : finishes ⊆ others) : Record more others executed r where
  receiving hstate := by
    obtain ⟨hnone, fs, hcarries⟩ := h.receiving hstate
    exact ⟨hnone, fs, hcarries.mono hb⟩
  once := h.once
  uploaded e he := (h.uploaded e he).mono hb
  acknowledged hack := by
    obtain ⟨hend, f, hmem, hmatch⟩ := h.acknowledged hack
    exact ⟨hend, f, hf hmem, hmatch⟩

theorem Record.take {s : Incoming} {now : Time} (h : Record (blocks ++ [f]) finishes executed r)
    (htake : r.take f now = .ok s) : Record (blocks ++ [f]) finishes executed s := by
  obtain ⟨hcommand, htotal, _, ⟨rfl, _⟩ | ⟨hoffset, hstate, rfl⟩⟩ := Incoming.take_ok htake
  · exact h
  obtain ⟨hnone, fs, hcarries⟩ := h.receiving hstate
  obtain ⟨gs, _, hgs⟩ := hcarries.extend hoffset hcommand.symm htotal.symm
  exact ⟨fun _ => ⟨hnone, gs, hgs⟩, h.once, h.uploaded, h.acknowledged⟩

theorem Record.complete {s : Incoming} {now : Time} {response : Option ControlResponse}
    (h : Record (blocks ++ [f]) finishes executed r) (htake : r.take f now = .ok s)
    (hdone : s.complete) : Uploaded (blocks ++ [f]) ⟨f.id, s.request, response⟩ := by
  obtain ⟨hstate, hlength⟩ := hdone
  obtain ⟨hcommand, htotal, hfit, ⟨rfl, hnot⟩ | ⟨hoffset, hlive, rfl⟩⟩ := Incoming.take_ok htake
  · obtain ⟨_, fs, hcarries⟩ := h.receiving hstate
    refine ⟨fs, ?_, ?_⟩
    · rintro rfl
      have hbody := hcarries.data
      have hne := hnot hstate
      rw [flatMap_nil] at hbody
      rw [← hbody, length_nil] at hlength hne
      omega
    · rw [← hlength] at hcarries
      exact hcarries
  obtain ⟨_, fs, hcarries⟩ := h.receiving hlive
  obtain ⟨gs, hne, hgs⟩ := hcarries.extend hoffset hcommand.symm htotal.symm
  refine ⟨gs, hne, ?_⟩
  have hdeclared : (r.request.body ++ f.data).length = r.total := hlength
  rw [← hdeclared] at hgs
  exact hgs

def Status (blocks finishes : List Frame) (executed : List Execution) : Option Incoming → Prop
  | none => executed = []
  | some r => Record blocks finishes executed r

def runsOf (id : Id) (es : List Execution) : List Execution := es.filter fun e => e.id = id

theorem Status.own {key : AuthorityKey} (h : Move (some (f, key)) m e m')
    (hblock : f.kind = .put → ∃ old, blocks = old ++ [f])
    (hfinish : f.kind = .finish → f ∈ finishes)
    (hstatus : Status blocks finishes executed (m.find? f.id)) :
    Status blocks finishes (executed ++ runsOf f.id e) (m'.find? f.id) := by
  cases h with
  | evict hr hack hother =>
    rw [OrderedMap.find?_erase, if_neg (Ne.symm hother), runsOf, filter_nil, append_nil]
    exact hstatus
  | create hput hnone hoffset hroom hopen =>
    rw [hnone] at hstatus
    rw [OrderedMap.find?_insert, if_pos rfl, runsOf, filter_nil, append_nil,
      show executed = [] from hstatus]
    refine ⟨fun _ => ⟨rfl, [], nil_sublist _, trivial, ?_⟩, Nat.zero_le _,
      fun _ he => absurd he not_mem_nil, fun hack => ?_⟩
    · rw [hopen.request, flatMap_nil]
    · rw [hopen.fresh] at hack
      cases hack
  | block hput hr htake hmore =>
    obtain ⟨old, rfl⟩ := hblock hput
    rw [hr] at hstatus
    rw [OrderedMap.find?_insert, if_pos rfl, runsOf, filter_nil, append_nil]
    exact Record.take hstatus htake
  | @run _ _ _ r s now hput hr htake hdone response order =>
    obtain ⟨old, rfl⟩ := hblock hput
    rw [hr] at hstatus
    have hrecord : Record (old ++ [f]) finishes executed r := hstatus
    have hlive : r.state = .receiving := by
      obtain ⟨_, _, _, ⟨rfl, _⟩ | ⟨_, hlive, _⟩⟩ := Incoming.take_ok htake
      · exact hdone.1
      · exact hlive
    have hend := s.executed_terminal response order
    have hsingle : runsOf f.id [⟨f.id, s.request, response⟩] = [⟨f.id, s.request, response⟩] :=
      filter_cons_of_pos (decide_eq_true rfl)
    rw [OrderedMap.find?_insert, if_pos rfl, hsingle, (hrecord.receiving hlive).1, nil_append]
    refine ⟨fun hstate => ?_, le_rfl, fun e he => ?_, fun hack => ?_⟩
    · rw [Incoming.terminal, hstate] at hend
      cases hend
    · rw [mem_singleton.mp he]
      exact hrecord.complete htake hdone
    · have htaken : s.acknowledged = r.acknowledged := by
        obtain ⟨_, _, _, ⟨rfl, _⟩ | ⟨_, _, rfl⟩⟩ := Incoming.take_ok htake <;> rfl
      have hold : s.acknowledged := by cases response <;> exact hack
      have hbad := (hrecord.acknowledged (htaken ▸ hold)).1
      rw [Incoming.terminal, hlive] at hbad
      cases hbad
  | acknowledge hkind hr hend hstate htotal =>
    rw [hr] at hstatus
    have hrecord : Record blocks finishes executed _ := hstatus
    rw [OrderedMap.find?_insert, if_pos rfl, runsOf, filter_nil, append_nil]
    exact ⟨hrecord.receiving, hrecord.once, hrecord.uploaded,
      fun _ => ⟨hend, f, hfinish hkind, hstate, htotal⟩⟩

/-- The end of a record without a frame of its own request: eviction once it is
acknowledged, or expiry of its upload. -/
inductive Ends (r : Incoming) : Option Incoming → Prop
  | evicted (hack : r.acknowledged) : Ends r none
  | expired {s : Incoming} (hlive : r.state = .receiving) (hend : s.state = .expired)
      (hack : s.acknowledged = r.acknowledged) (hcommand : s.request.command = r.request.command)
      (htotal : s.total = r.total) (hbody : s.request.body <+: r.request.body) : Ends r (some s)

theorem move_other (h : Move input m e m') (hne : ∀ x ∈ input, x.1.id ≠ id) :
    runsOf id e = [] ∧
      (m'.find? id = m.find? id ∨ ∃ r, m.find? id = some r ∧ Ends r (m'.find? id)) := by
  have hstored : ∀ {m : Table} {i : Id} {r : Incoming}, i ≠ id →
      (m.insert i r).find? id = m.find? id := by
    intro m i r hi
    rw [OrderedMap.find?_insert, if_neg (Ne.symm hi)]
  cases h with
  | @evict _ _ i r hr hack _ =>
    refine ⟨rfl, ?_⟩
    rw [OrderedMap.find?_erase]
    split
    next hid =>
      subst hid
      exact .inr ⟨r, hr, .evicted hack⟩
    next => exact .inl rfl
  | create | block => exact ⟨rfl, .inl (hstored (hne _ rfl))⟩
  | run =>
    exact ⟨filter_cons_of_neg (by simpa using hne _ rfl), .inl (hstored (hne _ rfl))⟩
  | acknowledge => exact ⟨rfl, .inl (hstored (hne _ rfl))⟩
  | @expire _ i r body _ _ hr hstate hbody =>
    refine ⟨rfl, ?_⟩
    by_cases hi : i = id
    · subst hi
      refine .inr ⟨r, hr, ?_⟩
      rw [OrderedMap.find?_insert, if_pos rfl]
      have hpre : body <+: r.request.body := by
        rcases hbody with rfl | rfl
        · exact prefix_rfl
        · exact List.nil_prefix
      exact .expired hstate rfl rfl rfl rfl hpre
    · exact .inl (hstored hi)

theorem Record.expired {s : Incoming} (h : Record blocks finishes executed r)
    (hlive : r.state = .receiving) (hend : s.state = .expired)
    (hack : s.acknowledged = r.acknowledged) : Record blocks finishes executed s where
  receiving hstate := by
    rw [hend] at hstate
    cases hstate
  once := h.once
  uploaded := h.uploaded
  acknowledged hs := by
    have hbad := (h.acknowledged (hack ▸ hs)).1
    rw [Incoming.terminal, hlive] at hbad
    cases hbad

/-- Moves on behalf of anything but a frame of the request never execute it and never
create its record. -/
theorem moves_other (h : Moves input m es m') (hne : ∀ x ∈ input, x.1.id ≠ id) :
    runsOf id es = [] ∧ (m.find? id = none → m'.find? id = none) ∧
      ∀ r, m.find? id = some r → (m'.find? id = none ∧ r.acknowledged) ∨
        ∃ s, m'.find? id = some s ∧ s.acknowledged = r.acknowledged ∧
          ∀ blocks finishes executed, Record blocks finishes executed r →
            Record blocks finishes executed s := by
  induction h with
  | nil => exact ⟨rfl, fun h => h, fun r hr => .inr ⟨r, hr, rfl, fun _ _ _ h => h⟩⟩
  | @cons m m₁ m' e es hmove _ ih =>
    obtain ⟨hnone, hkept, hrest⟩ := ih
    obtain ⟨hrun, hfirst⟩ := move_other hmove hne
    refine ⟨?_, ?_, ?_⟩
    · rw [runsOf, filter_append, ← runsOf, ← runsOf, hrun, hnone, append_nil]
    · intro hm
      rcases hfirst with hsame | ⟨r, hr, _⟩
      · exact hkept (hsame.trans hm)
      · rw [hm] at hr
        cases hr
    · intro r hr
      rcases hfirst with hsame | ⟨r', hr', hends⟩
      · exact hrest r (hsame.trans hr)
      rw [hr] at hr'
      cases hr'
      generalize hm₁ : m₁.find? id = o at hends
      cases hends with
      | evicted hack => exact .inl ⟨hkept hm₁, hack⟩
      | expired hlive hend hack =>
        rcases hrest _ hm₁ with ⟨hgone, hack'⟩ | ⟨s, hs, hsame, hrecord⟩
        · exact .inl ⟨hgone, hack ▸ hack'⟩
        · exact .inr ⟨s, hs, hsame.trans hack, fun _ _ _ h =>
            hrecord _ _ _ (h.expired hlive hend hack)⟩

theorem moves_own {key : AuthorityKey} (h : Moves (some (f, key)) m es m')
    (hblock : f.kind = .put → ∃ old, blocks = old ++ [f])
    (hfinish : f.kind = .finish → f ∈ finishes)
    (hstatus : Status blocks finishes executed (m.find? f.id)) :
    Status blocks finishes (executed ++ runsOf f.id es) (m'.find? f.id) := by
  induction h generalizing executed with
  | nil =>
    rw [runsOf, filter_nil, append_nil]
    exact hstatus
  | cons hmove _ ih =>
    have hnext := ih (Status.own hmove hblock hfinish hstatus)
    rw [append_assoc, runsOf, runsOf, ← filter_append] at hnext
    exact hnext

/-! ### Calls -/

theorem delivered_cons (kind : Kind) (id : Id) (x : Call × List Effect) (past : History) :
    delivered kind id (x :: past) = delivered kind id past ++
      (x.1.frame?.filter fun f => f.kind = kind ∧ f.id = id).toList := by
  rw [delivered, reverse_cons, filterMap_append, ← delivered]
  congr 1

theorem runs_cons (id : Id) (x : Call × List Effect) (past : History) :
    runs id (x :: past) = runs id past ++ runsOf id (executions x.2) := by
  rw [runs, reverse_cons, flatMap_append, ← runs, flatMap_singleton, runsOf]

theorem delivered_sublist (kind : Kind) (id : Id) (x : Call × List Effect) (past : History) :
    (delivered kind id past).Sublist (delivered kind id (x :: past)) := by
  rw [delivered_cons]
  exact sublist_append_left _ _

theorem delivered_newest {kind : Kind} {call : Call} {effects : List Effect}
    (hf : call.frame? = some f) (hkind : f.kind = kind) :
    delivered kind f.id ((call, effects) :: past) = delivered kind f.id past ++ [f] := by
  rw [delivered_cons, hf, Option.filter_some, if_pos]
  · rfl
  · simp [hkind]

theorem status_step (call : Call) (id : Id) (hack : AckEnded rc.incoming)
    (hstatus : Status (delivered .put id past) (delivered .finish id past) (runs id past)
      (rc.incoming.find? id)) (hsome : (step P rc call).1.incoming.contains id) :
    Status (delivered .put id ((call, (step P rc call).2) :: past))
      (delivered .finish id ((call, (step P rc call).2) :: past))
      (runs id ((call, (step P rc call).2) :: past)) ((step P rc call).1.incoming.find? id) := by
  have hputs := delivered_sublist .put id (call, (step P rc call).2) past
  have hfinishes := (delivered_sublist .finish id (call, (step P rc call).2) past).subset
  have hmono : Status (delivered .put id ((call, (step P rc call).2) :: past))
      (delivered .finish id ((call, (step P rc call).2) :: past)) (runs id past)
      (rc.incoming.find? id) := by
    cases hfind : rc.incoming.find? id with
    | none =>
      rw [hfind] at hstatus
      exact hstatus
    | some r =>
      rw [hfind] at hstatus
      exact Record.mono hstatus hputs hfinishes
  rw [runs_cons]
  rcases step_does P call hack with hquiet | ⟨input, hinput, hdoes⟩
  · rw [hquiet.incoming, executions_silent hquiet.silent, runsOf, filter_nil, append_nil]
    exact hmono
  by_cases hown : ∃ x ∈ input, x.1.id = id
  · obtain ⟨⟨f, key⟩, rfl, rfl⟩ := hown
    have hframe : call.frame? = some f := by
      cases hinput with
      | frame key hf => simp [Call.frame?, hf]
    refine moves_own hdoes.moves (fun hput => ?_) (fun hfinish => ?_) hmono
    · exact ⟨_, delivered_newest hframe hput⟩
    · rw [delivered_newest hframe hfinish]
      exact mem_append_right _ (mem_singleton_self f)
  have hne : ∀ x ∈ input, x.1.id ≠ id := fun x hx hid => hown ⟨x, hx, hid⟩
  obtain ⟨hruns, hnone, hkept⟩ := moves_other hdoes.moves hne
  rw [hruns, append_nil]
  obtain ⟨s, hs⟩ := Option.isSome_iff_exists.mp hsome
  cases hfind : rc.incoming.find? id with
  | none =>
    rw [hnone hfind] at hs
    cases hs
  | some r =>
    rw [hfind] at hmono
    rcases hkept r hfind with ⟨hgone, _⟩ | ⟨s', hs', _, hrecord⟩
    · rw [hgone] at hs
      cases hs
    · rw [hs']
      exact hrecord _ _ _ hmono

theorem ackEnded_of_trace (hstart : start.incoming = {})
    (h : Trace (step P) start past rc) : AckEnded rc.incoming := by
  have hempty : AckEnded start.incoming := by
    intro id r hr
    rw [hstart] at hr
    cases hr
  exact (table_invariant (I := fun _ => True) ⟨trivial, hempty⟩ (fun _ _ _ => trivial) h).2

theorem bounded_of_trace (hstart : start.incoming = {})
    (h : Trace (step P) start past rc) : Bounded rc.incoming := by
  have hempty : Bounded start.incoming ∧ AckEnded start.incoming := by
    rw [hstart]
    exact ⟨⟨by simp, Nat.zero_le _, Nat.zero_le _, by simp⟩,
      (fun _ _ hr => by cases hr)⟩
  exact (table_invariant hempty (fun hmove _ hm => hm.move hmove) h).1

theorem Lifetime.status {start₀ : RemoteControl} {older : History} (hstart : start₀.incoming = {})
    (ht : Trace (step P) start₀ older start) (h : Lifetime P id start past rc) :
    Status (delivered .put id past) (delivered .finish id past) (runs id past)
      (rc.incoming.find? id) ∧ Trace (step P) start₀ (past ++ older) rc := by
  induction h with
  | created call hnone hsome =>
    refine ⟨status_step call id (ackEnded_of_trace hstart ht) ?_ hsome, .cons call ht⟩
    rw [hnone]
    rfl
  | kept call _ hsome ih =>
    obtain ⟨hstatus, htrace⟩ := ih
    exact ⟨status_step call id (ackEnded_of_trace hstart htrace) hstatus hsome, .cons call htrace⟩

theorem lifetime_of_find (hstart : start.incoming = {})
    (h : Trace (step P) start past rc) (hsome : rc.incoming.contains id) :
    ∃ newer older start', past = newer ++ older ∧ Trace (step P) start older start' ∧
      Lifetime P id start' newer rc := by
  induction h with
  | nil =>
    rw [hstart] at hsome
    cases hsome
  | @cons past rc call h ih =>
    by_cases hbefore : rc.incoming.contains id
    · obtain ⟨newer, older, start', rfl, ht, hlife⟩ := ih hbefore
      exact ⟨_ :: newer, older, start', rfl, ht, .kept call hlife hsome⟩
    · refine ⟨[_], past, rc, rfl, h, .created call ?_ hsome⟩
      exact Option.not_isSome_iff_eq_none.mp hbefore

theorem contains_own {x : Frame × AuthorityKey} (h : Move (some x) m e m')
    (hm : m.contains x.1.id) : m'.contains x.1.id := by
  cases h with
  | evict _ _ hother =>
    rw [OrderedMap.contains, OrderedMap.find?_erase, if_neg (Ne.symm hother)]
    exact hm
  | create | block | run | acknowledge => exact OrderedMap.contains_insert_self ..

theorem contains_of_executed (h : Moves input m es m') {e : Execution} (he : e ∈ es) :
    m'.contains e.id := by
  induction h with
  | nil => cases he
  | cons hmove hrest ih =>
    rcases mem_append.mp he with hfirst | hlater
    · cases hmove with
      | run =>
        rw [mem_singleton.mp hfirst]
        exact hrest.invariant (fun hmove hm => contains_own hmove hm)
          (OrderedMap.contains_insert_self ..)
      | _ => cases hfirst
    · exact ih hlater

theorem step_contains (call : Call) (hack : AckEnded rc.incoming) {e : Execution}
    (he : e ∈ executions (step P rc call).2) : (step P rc call).1.incoming.contains e.id := by
  rcases step_does P call hack with hquiet | ⟨input, _, hdoes⟩
  · rw [executions_silent hquiet.silent] at he
    cases he
  · exact contains_of_executed hdoes.moves he

theorem step_evicts (call : Call) (hack : AckEnded rc.incoming)
    (hr : rc.incoming.find? id = some r) (hgone : (step P rc call).1.incoming.find? id = none) :
    r.acknowledged := by
  rcases step_does P call hack with hquiet | ⟨input, _, hdoes⟩
  · rw [hquiet.incoming, hr] at hgone
    cases hgone
  by_cases hown : ∃ x ∈ input, x.1.id = id
  · obtain ⟨x, rfl, rfl⟩ := hown
    have hkept := hdoes.moves.invariant (fun hmove hm => contains_own hmove hm)
      (show rc.incoming.contains x.1.id by rw [OrderedMap.contains, hr]; rfl)
    rw [OrderedMap.contains, hgone] at hkept
    cases hkept
  have hne : ∀ x ∈ input, x.1.id ≠ id := fun x hx hid => hown ⟨x, hx, hid⟩
  rcases (moves_other hdoes.moves hne).2.2 r hr with ⟨_, hdone⟩ | ⟨s, hs, _⟩
  · exact hdone
  · rw [hgone] at hs
    cases hs

theorem step_account (call : Call) (hack : AckEnded rc.incoming) {reserved size : ℕ}
    (h : .discounted reserved size ∈ (step P rc call).2) : size ≤ reserved := by
  rcases step_does P call hack with hquiet | ⟨input, _, hdoes⟩
  · exact (hquiet.silent _ h).elim
  · exact hdoes.account _ _ h

/-- Remote control executes at most once and in bounded memory, from an object without
requests on and over every sequence of calls: every execution belongs to the lifetime
of a record, where it is the only one and runs exactly the bytes uploaded; one upload
or run at a time holds the exclusive slot; a record goes only after a FINISH that
matches its result; and the table and the account of `admit` keep their bounds. -/
theorem remote_control_bounded {start rc : RemoteControl} {past : History}
    (hstart : start.incoming = {}) (h : Transition.Trace (step P) start past rc) :
    (∀ call e, e ∈ executions (step P rc call).2 → ∃ newer older start',
        past = newer ++ older ∧ Transition.Trace (step P) start older start' ∧
        (Lifetime P e.id start' ((call, (step P rc call).2) :: newer) (step P rc call).1)) ∧
      (∀ older start' id newer, Transition.Trace (step P) start older start' →
        Lifetime P id start' newer rc → (runs id newer).length ≤ 1 ∧
          ∀ e ∈ runs id newer, Uploaded (delivered .put id newer) e) ∧
      (∀ i j r s, rc.incoming.find? i = some r → rc.incoming.find? j = some s →
        r.exclusive → s.exclusive → i = j) ∧
      (∀ call id r, rc.incoming.find? id = some r →
        (step P rc call).1.incoming.find? id = none → ∃ newer older start',
          past = newer ++ older ∧ Transition.Trace (step P) start older start' ∧
          Lifetime P id start' newer rc ∧ r.terminal ∧
          ∃ f ∈ delivered .finish id newer, f.state = r.state ∧
            f.total.toNat = r.response.length) ∧
      rc.incoming.total Incoming.stored ≤ 16 * controlMaxBody ∧ rc.incoming.size ≤ 128 ∧
      ∀ x ∈ past, ∀ reserved size, .discounted reserved size ∈ x.2 → size ≤ reserved := by
  have hack := ackEnded_of_trace hstart h
  have hbounded := bounded_of_trace hstart h
  refine ⟨?_, ?_, hbounded.slot, ?_, ?_, hbounded.count, ?_⟩
  · intro call e he
    have hsome := step_contains call hack he
    by_cases hbefore : rc.incoming.contains e.id
    · obtain ⟨newer, older, start', rfl, ht, hlife⟩ := lifetime_of_find hstart h hbefore
      exact ⟨newer, older, start', rfl, ht, .kept call hlife hsome⟩
    · refine ⟨[], past, rc, rfl, h, .created call ?_ hsome⟩
      exact Option.not_isSome_iff_eq_none.mp hbefore
  · intro older start' id newer ht hlife
    have hstatus := (hlife.status hstart ht).1
    cases hfind : rc.incoming.find? id with
    | none =>
      rw [hfind] at hstatus
      rw [show runs id newer = [] from hstatus]
      exact ⟨Nat.zero_le _, fun _ he => absurd he List.not_mem_nil⟩
    | some r =>
      rw [hfind] at hstatus
      exact ⟨Record.once hstatus, Record.uploaded hstatus⟩
  · intro call id r hr hgone
    have hdone := step_evicts call hack hr hgone
    obtain ⟨newer, older, start', hsplit, ht, hlife⟩ := lifetime_of_find hstart h
      (show rc.incoming.contains id by rw [OrderedMap.contains, hr]; rfl)
    have hstatus := (hlife.status hstart ht).1
    rw [hr] at hstatus
    obtain ⟨hend, hfinish⟩ := Record.acknowledged hstatus hdone
    exact ⟨newer, older, start', hsplit, ht, hlife, hend, hfinish⟩
  · have hle : rc.incoming.total Incoming.stored ≤ rc.incoming.total Incoming.reserved := by
      refine OrderedMap.total_mono fun x hx => Incoming.stored_le_reserved ?_
      exact hbounded.sound x.1 x.2 (OrderedMap.find?_eq_some_iff.mpr hx)
    exact hle.trans hbounded.memory
  · intro x hx reserved size hmem
    obtain ⟨earlier, rc', ht, heq, _⟩ := h.step_of_mem hx
    rw [heq] at hmem
    exact step_account x.1 (ackEnded_of_trace hstart ht) hmem

/-! A load of three bytes in two blocks, and its acknowledgement. -/

def sampleId : Id := block 16 [7]

def sampleTarget : RemoteControl := { access := .all, enabled := true }

def deliver (f : Frame) : Call :=
  .receive f.bytes 0 { execute := fun _ => some { body := ascii "ok\n" } }

def sampleBlock (offset : UInt32) (data : String) : Frame :=
  { kind := .put, id := sampleId, offset, total := 3, command := ascii "rules load 3",
    data := ascii data }

def sampleLoad : History × RemoteControl :=
  Transition.run (step samplePrimitives) sampleTarget
    [deliver (sampleBlock 0 "ab"), deliver (sampleBlock 2 "c"), deliver (sampleBlock 0 "ab"),
      deliver { kind := .finish, id := sampleId, state := .succeeded, total := 3 }]

theorem remote_control_bounded_sample :
    runs sampleId sampleLoad.1 =
        [⟨sampleId, ⟨ascii "rules load 3", ascii "abc"⟩, some { body := ascii "ok\n" }⟩] ∧
      sampleLoad.2.incoming.total Incoming.stored ≤ 16 * controlMaxBody ∧
      sampleLoad.2.incoming.size ≤ 128 := by
  have htrace : Transition.Trace (step samplePrimitives) sampleTarget sampleLoad.1 sampleLoad.2 :=
    Transition.trace_run _
  have hbounds := remote_control_bounded rfl htrace
  exact ⟨by decide +kernel, hbounds.2.2.2.2.1, hbounds.2.2.2.2.2.1⟩

end Tuntom.Control
