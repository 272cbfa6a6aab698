import Tuntom.ControlClient

/-! Two remote control objects, one submitting and one executing, over a channel that
loses, delays and reorders frames but forges none. -/
namespace Tuntom.Control
open RemoteControl List

structure Link where
  client : RemoteControl
  server : RemoteControl
  toServer : List Bytes := []
  toClient : List Bytes := []

inductive Own
  | tick (now : Time)
  | sessionChanged (now : Time)
  | payloadLimit (bytes : ℕ)

def Own.call : Own → Call
  | .tick now => .tick now
  | .sessionChanged now => .sessionChanged now
  | .payloadLimit bytes => .payloadLimit bytes

/-- One event. A delivery takes the frame at `index` out of the channel, or leaves a
copy behind. -/
inductive LinkMove
  | submit (id : Id) (request : ControlRequest) (retries : ℕ) (wait now : Time)
  | release (id : Id)
  | client (own : Own)
  | server (own : Own)
  | toServer (index : ℕ) (copy : Bool) (now : Time) (handlers : Handlers)
  | toClient (index : ℕ) (copy : Bool) (now : Time) (handlers : Handlers)

structure LinkEffects where
  client : List Effect := []
  server : List Effect := []

def sentBytes (effects : List Effect) : List Bytes :=
  effects.filterMap fun e => match e with
    | .send b => some b
    | _ => none

theorem mem_sentBytes {effects : List Effect} {b : Bytes} :
    b ∈ sentBytes effects ↔ .send b ∈ effects := by
  rw [sentBytes, mem_filterMap]
  constructor
  · rintro ⟨e, he, hb⟩
    split at hb
    · cases hb
      exact he
    · cases hb
  · intro h
    exact ⟨_, h, rfl⟩

variable (P : Primitives)

def Link.clientCall (l : Link) (call : Call) : Link × LinkEffects :=
  let out := step P l.client call
  ({ l with client := out.1, toServer := l.toServer ++ sentBytes out.2 }, { client := out.2 })

def Link.serverCall (l : Link) (call : Call) : Link × LinkEffects :=
  let out := step P l.server call
  ({ l with server := out.1, toClient := l.toClient ++ sentBytes out.2 }, { server := out.2 })

def linkStep (l : Link) : LinkMove → Link × LinkEffects
  | .submit id request retries wait now => l.clientCall P (.submit id request retries wait now)
  | .release id => l.clientCall P (.release id)
  | .client own => l.clientCall P own.call
  | .server own => l.serverCall P own.call
  | .toServer index copy now h =>
    match l.toServer[index]? with
    | none => (l, {})
    | some bytes =>
      { l with toServer := if copy then l.toServer else l.toServer.eraseIdx index }.serverCall P
        (.receive bytes now h)
  | .toClient index copy now h =>
    match l.toClient[index]? with
    | none => (l, {})
    | some bytes =>
      { l with toClient := if copy then l.toClient else l.toClient.eraseIdx index }.clientCall P
        (.receive bytes now h)

abbrev LinkHistory := List (LinkMove × LinkEffects)

def submitted (past : LinkHistory) : List (Id × ControlRequest) :=
  past.flatMap fun x => match x.1 with
    | .submit id request _ _ _ => if .submitted id request ∈ x.2.client then [(id, request)] else []
    | _ => []

def executed (past : LinkHistory) : List Execution :=
  past.reverse.flatMap fun x => executions x.2.server

structure Fresh (rc : RemoteControl) : Prop where
  incoming : rc.incoming = {}
  outgoing : rc.outgoing = {}

/-! ### The records of the serving side -/

/-- What a record of the serving side says; `live` while the submitting side still
waits for the end of the answer. -/
structure Served (submits : List (Id × ControlRequest)) (served : List Execution) (live : Prop)
    (id : Id) (r : Incoming) : Prop where
  origin : ∃ request, (id, request) ∈ submits ∧ r.request.command = request.command ∧
    r.total = request.body.length ∧ r.request.body <+: request.body
  success : r.state = .succeeded → ∃ e ∈ served, e.id = id ∧ e.success? = some r.response
  waiting : live → r.acknowledged = false
  once : live → (runsOf id served).length ≤ 1 ∧ (r.state = .receiving → runsOf id served = [])

def ServedAt (submits : List (Id × ControlRequest)) (served : List Execution) (live : Prop) (id : Id) :
    Option Incoming → Prop
  | none => live → runsOf id served = []
  | some r => Served submits served live id r

section Served

variable {submits : List (Id × ControlRequest)} {served : List Execution} {live : Prop} {id : Id}

theorem request_unique {request request' : ControlRequest} (hnodup : (submits.map Prod.fst).Nodup)
    (h : (id, request) ∈ submits) (h' : (id, request') ∈ submits) : request = request' :=
  congrArg Prod.snd (inj_on_of_nodup_map hnodup h h' rfl)

theorem runsOf_append (id : Id) (es es' : List Execution) :
    runsOf id (es ++ es') = runsOf id es ++ runsOf id es' :=
  filter_append ..

variable {es : List Execution} {input : Option (Frame × AuthorityKey)}

theorem ServedAt.more {o : Option Incoming} (hes : runsOf id es = [])
    (h : ServedAt submits served live id o) : ServedAt submits (served ++ es) live id o := by
  have hruns : runsOf id (served ++ es) = runsOf id served := by
    rw [runsOf_append, hes, append_nil]
  cases o with
  | none =>
    intro hlive
    rw [hruns]
    exact h hlive
  | some r =>
    have h : Served submits served live id r := h
    refine ⟨h.origin, fun hstate => ?_, h.waiting, fun hlive => ?_⟩
    · obtain ⟨e, he, hrest⟩ := h.success hstate
      exact ⟨e, mem_append_left _ he, hrest⟩
    · rw [hruns]
      exact h.once hlive

theorem Served.take {f : Frame} {r s : Incoming} {now : Time} (h : Served submits served live f.id r)
    (hnodup : (submits.map Prod.fst).Nodup) (hask : Asks submits f) (hput : f.kind = .put)
    (htake : r.take f now = .ok s) : Served submits served live f.id s := by
  obtain ⟨_, _, _, ⟨rfl, _⟩ | ⟨hoffset, hstate, rfl⟩⟩ := Incoming.take_ok htake
  · exact h
  obtain ⟨request, hmem, hcommand, htotal, hpre⟩ := h.origin
  rw [Asks, hput] at hask
  obtain ⟨request', hmem', _, _, _, chunk, hdata⟩ := hask
  cases request_unique hnodup hmem hmem'
  refine ⟨⟨request, hmem, hcommand, htotal, ?_⟩, h.success, h.waiting, h.once⟩
  rw [hdata, hoffset]
  exact prefix_extend hpre

theorem Served.complete {r : Incoming} (h : Served submits served live id r) (hdone : r.complete) :
    (id, r.request) ∈ submits := by
  obtain ⟨request, hmem, hcommand, htotal, hpre⟩ := h.origin
  have hbody := hpre.eq_of_length (hdone.2.trans htotal)
  have hrequest : r.request = request := by
    cases hr : r.request
    cases request
    rw [hr] at hcommand hbody
    cases hcommand
    cases hbody
    rfl
  rw [hrequest]
  exact hmem

theorem executed_success {s : Incoming} {response : Option ControlResponse} {order : ℕ}
    (h : (s.executed response order).state = .succeeded) (id : Id) (request : ControlRequest) :
    Execution.success? ⟨id, request, response⟩ = some (s.executed response order).response := by
  cases response with
  | none => cases h
  | some response =>
    have hok : outcome (bounded response) = .succeeded := h
    rw [Execution.success?, Option.bind_some, if_pos hok]
    rfl

theorem ServedAt.own {m m' : Table} {e : List Execution} {f : Frame} {key : AuthorityKey}
    (h : Move (some (f, key)) m e m') (hnodup : (submits.map Prod.fst).Nodup)
    (hask : Asks submits f) (hfinish : f.kind = .finish → ¬live)
    (hat : ServedAt submits served live f.id (m.find? f.id)) :
    ServedAt submits (served ++ e) live f.id (m'.find? f.id) ∧
      ∀ x ∈ e, (x.id, x.request) ∈ submits := by
  cases h with
  | evict hr hack hother =>
    rw [OrderedMap.find?_erase, if_neg (Ne.symm hother), append_nil]
    exact ⟨hat, fun _ hx => absurd hx not_mem_nil⟩
  | @create _ _ _ r hput hnone hoffset hroom hopen =>
    rw [hnone] at hat
    rw [OrderedMap.find?_insert, if_pos rfl, append_nil]
    refine ⟨⟨?_, fun hstate => ?_, fun _ => hopen.fresh, fun hlive => ?_⟩,
      fun _ hx => absurd hx not_mem_nil⟩
    · rw [Asks, hput] at hask
      obtain ⟨request, hmem, hcommand, htotal, _⟩ := hask
      rw [hopen.request, hopen.total]
      exact ⟨request, hmem, hcommand, htotal, List.nil_prefix⟩
    · rcases hopen.rejected with hs | hs
      · rw [hs] at hstate
        cases hstate
      · rw [hs] at hstate
        cases hstate
    · rw [show runsOf f.id served = [] from hat hlive]
      exact ⟨Nat.zero_le _, fun _ => rfl⟩
  | block hput hr htake hmore =>
    rw [hr] at hat
    rw [OrderedMap.find?_insert, if_pos rfl, append_nil]
    exact ⟨Served.take hat hnodup hask hput htake, fun _ hx => absurd hx not_mem_nil⟩
  | @run _ _ _ r s now hput hr htake hdone response order =>
    rw [hr] at hat
    have hs : Served submits served live f.id s := Served.take hat hnodup hask hput htake
    rw [OrderedMap.find?_insert, if_pos rfl]
    have hown : runsOf f.id [⟨f.id, s.request, response⟩] = [⟨f.id, s.request, response⟩] :=
      filter_cons_of_pos (decide_eq_true rfl)
    obtain ⟨hrequest, htotal⟩ := s.executed_request response order
    refine ⟨⟨?_, fun hstate => ?_, fun hlive => ?_, fun hlive => ⟨?_, fun hstate => ?_⟩⟩, fun x hx => ?_⟩
    · rw [hrequest, htotal]
      exact hs.origin
    · exact ⟨_, mem_append_right _ (mem_singleton_self _), rfl, executed_success hstate _ _⟩
    · have hack : (s.executed response order).acknowledged = s.acknowledged := by
        cases response <;> rfl
      rw [hack]
      exact hs.waiting hlive
    · rw [runsOf_append, hown, (hs.once hlive).2 hdone.1]
      exact le_rfl
    · have hend := s.executed_terminal response order
      rw [Incoming.terminal, hstate] at hend
      cases hend
    · rw [mem_singleton.mp hx]
      exact hs.complete hdone
  | acknowledge hkind hr hend hstate htotal =>
    rw [hr] at hat
    have h : Served submits served live f.id _ := hat
    rw [OrderedMap.find?_insert, if_pos rfl, append_nil]
    exact ⟨⟨h.origin, h.success, fun hlive => absurd hlive (hfinish hkind), h.once⟩,
      fun _ hx => absurd hx not_mem_nil⟩

theorem ServedAt.other {m m' : Table} {e : List Execution} (h : Move input m e m')
    (hne : ∀ x ∈ input, x.1.id ≠ id) (hat : ServedAt submits served live id (m.find? id)) :
    ServedAt submits (served ++ e) live id (m'.find? id) := by
  obtain ⟨hruns, hsame | ⟨r, hr, hends⟩⟩ := move_other h hne
  · rw [hsame]
    exact hat.more hruns
  rw [hr] at hat
  refine ServedAt.more hruns ?_
  have hold : Served submits served live id r := hat
  generalize m'.find? id = o at hends
  cases hends with
  | evicted hack =>
    intro hlive
    rw [hold.waiting hlive] at hack
    cases hack
  | expired hstate hend hack hcommand htotal hbody =>
    obtain ⟨request, hmem, hc, ht, hpre⟩ := hold.origin
    refine ⟨⟨request, hmem, hcommand.trans hc, htotal.trans ht, hbody.trans hpre⟩, fun hs => ?_,
      fun hlive => hack.trans (hold.waiting hlive), fun hlive => ⟨(hold.once hlive).1, fun hs => ?_⟩⟩
    · rw [hend] at hs
      cases hs
    · rw [hend] at hs
      cases hs

theorem ServedAt.moves {m m' : Table} (h : Moves input m es m')
    (hnodup : (submits.map Prod.fst).Nodup)
    (hask : ∀ x ∈ input, Asks submits x.1 ∧ (x.1.id = id → x.1.kind = .finish → ¬live))
    (hat : ServedAt submits served live id (m.find? id)) :
    ServedAt submits (served ++ es) live id (m'.find? id) := by
  induction h generalizing served with
  | nil =>
    rw [append_nil]
    exact hat
  | @cons _ m₁ _ e es hmove _ ih =>
    rw [← append_assoc]
    refine ih ?_
    by_cases hown : ∃ x ∈ input, x.1.id = id
    · obtain ⟨x, rfl, rfl⟩ := hown
      exact (ServedAt.own hmove hnodup (hask x rfl).1 ((hask x rfl).2 rfl) hat).1
    · exact ServedAt.other hmove (fun x hx hid => hown ⟨x, hx, hid⟩) hat

theorem moves_origin {m m' : Table} (h : Moves input m es m')
    (hnodup : (submits.map Prod.fst).Nodup)
    (hask : ∀ x ∈ input, Asks submits x.1 ∧ (x.1.kind = .finish → ¬live) ∧
      ServedAt submits served live x.1.id (m.find? x.1.id)) :
    ∀ x ∈ es, (x.id, x.request) ∈ submits := by
  induction h generalizing served with
  | nil => exact fun _ hx => absurd hx not_mem_nil
  | @cons _ _ _ e _ hmove _ ih =>
    cases input with
    | none =>
      cases hmove with
      | expire => exact @ih served (by simp)
    | some y =>
      obtain ⟨hy, hfinish, hat⟩ := hask y rfl
      obtain ⟨hnext, hfirst⟩ := ServedAt.own hmove hnodup hy hfinish hat
      intro x hx
      rcases mem_append.mp hx with hx | hx
      · exact hfirst x hx
      refine @ih (served ++ e) (fun z hz => ?_) x hx
      cases hz
      exact ⟨hy, hfinish, hnext⟩

end Served

/-! ### The invariant of the link -/

structure LinkInv (submits : List (Id × ControlRequest)) (served : List Execution) (l : Link) :
    Prop where
  kept : ∀ id r, l.client.outgoing.find? id = some r → Kept submits served id r
  client : l.client.incoming = {}
  server : l.server.outgoing = {}
  ackEnded : AckEnded l.server.incoming
  bounded : Bounded l.server.incoming
  asks : ∀ b ∈ l.toServer, ∀ f, Frame.decode b = some f → Asks submits f ∧ (f.kind = .finish →
    ∀ r, l.client.outgoing.find? f.id = some r → r.finishing ∧ r.state = f.state)
  tells : ∀ b ∈ l.toClient, ∀ f, Frame.decode b = some f →
    (f.kind = .reply ∨ f.kind = .confirmed ∨ f.kind = .challenge) ∧ Tells served f
  records : ∀ id, ServedAt submits served (Open l.client id) id (l.server.incoming.find? id)
  origin : ∀ e ∈ served, (e.id, e.request) ∈ submits

namespace LinkInv

variable {P} {submits : List (Id × ControlRequest)} {served : List Execution} {l : Link}

theorem once (h : LinkInv submits served l) {id : Id} (hopen : Open l.client id) :
    ∀ e ∈ served, ∀ e' ∈ served, e.id = id → e'.id = id → e = e' := by
  intro e he e' he' hid hid'
  have hlength : (runsOf id served).length ≤ 1 := by
    have hat := h.records id
    cases hfind : l.server.incoming.find? id with
    | none =>
      rw [hfind] at hat
      rw [show runsOf id served = [] from hat hopen]
      exact Nat.zero_le _
    | some r =>
      rw [hfind] at hat
      exact (Served.once hat hopen).1
  have hmem : ∀ e ∈ served, e.id = id → e ∈ runsOf id served := fun e he hid =>
    mem_filter.mpr ⟨he, decide_eq_true hid⟩
  have hfirst := hmem e he hid
  have hsecond := hmem e' he' hid'
  rcases hruns : runsOf id served with _ | ⟨x, _ | ⟨y, rest⟩⟩
  · rw [hruns] at hfirst
    cases hfirst
  · rw [hruns, mem_singleton] at hfirst hsecond
    rw [hfirst, hsecond]
  · rw [hruns] at hlength
    exact absurd hlength (by simp)

theorem tells_of_answer {m : Table} {f g : Frame} {live : Id → Prop} (hg : Answer m f g)
    (hbounded : Bounded m) (hrecords : ∀ id, ServedAt submits served (live id) id (m.find? id)) :
    (g.kind = .reply ∨ g.kind = .confirmed ∨ g.kind = .challenge) ∧ Tells served g := by
  have hrefusal : ∀ why chunk, ((refusal why).answer f.id chunk 0 .reply).kind = .reply ∧
      ((refusal why).answer f.id chunk 0 .reply).state ≠ .succeeded :=
    fun why chunk => ⟨rfl, by rintro ⟨⟩⟩
  cases hg with
  | @record r kind hr hkind chunk offset =>
    have hanswer : (r.answer f.id chunk offset kind).kind = kind ∧
        (r.answer f.id chunk offset kind).state = r.state := by
      rw [Incoming.answer]
      split <;> exact ⟨rfl, rfl⟩
    constructor
    · rw [hanswer.1]
      cases kind with
      | reply => exact .inl rfl
      | confirmed => exact .inr (.inl rfl)
      | _ => cases hkind
    · intro hreply hstate
      rw [hanswer.1] at hreply
      rw [hanswer.2] at hstate
      have hat := hrecords f.id
      rw [hr] at hat
      obtain ⟨e, he, heid, hsuccess⟩ := Served.success hat hstate
      have hend : r.terminal := by rw [Incoming.terminal, hstate]; rfl
      have hsmall : r.response.length < 2 ^ 32 := by
        have hle := Incoming.stored_le_reserved (hbounded.sound _ _ hr)
        have htotal := OrderedMap.le_total hr Incoming.reserved
        have hmemory := hbounded.memory
        rw [Incoming.stored] at hle
        rw [memoryLimit, controlMaxBody] at hmemory
        omega
      rw [Incoming.answer, if_pos hend]
      refine ⟨e, he, heid, r.response, hsuccess, UInt32.toNat_ofNat_of_lt' hsmall, chunk, ?_⟩
      have hoffset : (UInt32.ofNat (min offset r.response.length)).toNat =
          min offset r.response.length :=
        UInt32.toNat_ofNat_of_lt' (Nat.lt_of_le_of_lt (Nat.min_le_right ..) hsmall)
      dsimp only
      rw [if_pos hreply, hoffset]
  | busy | conflict => exact ⟨.inl rfl, fun _ hstate => absurd hstate (hrefusal _ _).2⟩
  | missing => exact ⟨.inl rfl, by rintro _ ⟨⟩⟩
  | unrecorded => exact ⟨.inr (.inl rfl), by rintro ⟨⟩⟩
  | challenge => exact ⟨.inr (.inr rfl), by rintro ⟨⟩⟩

theorem decode_sent {g f : Frame} {proof b : Bytes} (hencode : { g with auth := proof }.encode = some b)
    (hdecode : Frame.decode b = some f) : f = { g with auth := proof } :=
  Frame.decode_encode hencode hdecode

end LinkInv

/-! ### Events -/

/-- What happens at the submitting side: a call on records that it had, or on that of a
new request, and that hears at most one frame under way. -/
inductive ClientEvent (P : Primitives) (submits more : List (Id × ControlRequest))
    (served : List Execution) (l : Link) : Link × LinkEffects → Prop
  | call {call : Call} {heard : Option Frame} {rc : RemoteControl} {toClient : List Bytes}
      (hmore : submits ⊆ more) (hcall : Submits more served heard rc (step P l.client call))
      (hbase : ∀ id r, rc.outgoing.find? id = some r → l.client.outgoing.find? id = some r ∨
        ((∀ request, (id, request) ∉ submits) ∧ r.state = .receiving ∧ r.result = none))
      (hheard : ∀ g ∈ heard, ∃ b ∈ l.toClient, heardIn b = some g)
      (hincoming : (step P l.client call).1.incoming = {}) (hunder : toClient ⊆ l.toClient) :
      ClientEvent P submits more served l ({ l with toClient }.clientCall P call)

/-- What happens at the serving side: moves on behalf of an accepted frame that was under
way, or of the clock, and answers. -/
inductive ServerEvent (P : Primitives) (l : Link) : Link × LinkEffects → Prop
  | call {call : Call} {input : Option (Frame × AuthorityKey)} {toServer : List Bytes}
      (hdoes : Does input l.server.incoming (step P l.server call))
      (hinput : ∀ x ∈ input, (∃ b ∈ l.toServer, heardIn b = some x.1) ∧
        ∃ proof, .accepted x.1 proof x.2 ∈ (step P l.server call).2)
      (haccepted : ∀ f proof key, f.kind ≠ .challenge →
        .accepted f proof key ∈ (step P l.server call).2 → ∃ b ∈ l.toServer, heardIn b = some f)
      (hout : (step P l.server call).1.outgoing = {})
      (hanswers : ∀ b, .send b ∈ (step P l.server call).2 → ∃ f g proof,
        (∃ b ∈ l.toServer, heardIn b = some f) ∧
        (g.kind ≠ .challenge → ∃ proof key, .accepted f proof key ∈ (step P l.server call).2) ∧
        Answer (step P l.server call).1.incoming f g ∧ { g with auth := proof }.encode = some b)
      (hunder : toServer ⊆ l.toServer) :
      ServerEvent P l ({ l with toServer }.serverCall P call)

inductive LinkEvent (P : Primitives) (submits : List (Id × ControlRequest)) (served : List Execution)
    (l : Link) : List (Id × ControlRequest) → Link × LinkEffects → Prop
  | idle : LinkEvent P submits served l submits (l, {})
  | client {more : List (Id × ControlRequest)} {out : Link × LinkEffects}
      (h : ClientEvent P submits more served l out) : LinkEvent P submits served l more out
  | server {out : Link × LinkEffects} (h : ServerEvent P l out) :
      LinkEvent P submits served l submits out

theorem submitted_cons (x : LinkMove × LinkEffects) (past : LinkHistory) :
    submitted (x :: past) = submitted [x] ++ submitted past := by
  simp only [submitted, flatMap_cons, flatMap_nil, append_nil]

theorem executed_cons (x : LinkMove × LinkEffects) (past : LinkHistory) :
    executed (x :: past) = executed past ++ executions x.2.server := by
  rw [executed, reverse_cons, flatMap_append, flatMap_singleton, ← executed]

variable {past : LinkHistory}

theorem nodup_of_cons {x : LinkMove × LinkEffects}
    (h : ((submitted (x :: past)).map Prod.fst).Nodup) : ((submitted past).map Prod.fst).Nodup := by
  rw [submitted_cons, map_append] at h
  exact (nodup_append.mp h).2.1

theorem kept_under_way (under : List Bytes) (index : ℕ) (copy : Bool) :
    (if copy then under else under.eraseIdx index) ⊆ under := by
  split
  · exact fun _ h => h
  · exact (eraseIdx_sublist under index).subset

theorem empty_of_timer {m' : Table} {es : List Execution} (h : Moves none {} es m') : m' = {} := by
  refine h.invariant (I := fun m => m = {}) (fun hmove hm => ?_) rfl
  subst hm
  cases hmove with
  | expire hr => cases hr

section Events

variable {P} {l : Link} {submits : List (Id × ControlRequest)} {served : List Execution}

theorem LinkInv.client_own (h : LinkInv submits served l) (own : Own) :
    ClientEvent P submits submits served l (l.clientCall P own.call) := by
  have hcall : Submits submits served none l.client (step P l.client own.call) ∧
      (step P l.client own.call).1.incoming = {} := by
    cases own with
    | tick now =>
      have hmoves := (l.client.tick_does (P := P) now).moves
      rw [h.client] at hmoves
      exact ⟨tick_submits now h.kept, empty_of_timer hmoves⟩
    | sessionChanged now =>
      have hmoves := (l.client.sessionChanged_does now).moves
      rw [h.client] at hmoves
      exact ⟨sessionChanged_submits now h.kept, empty_of_timer hmoves⟩
    | payloadLimit bytes => exact ⟨.dropping h.kept fun _ _ hr => hr, h.client⟩
  exact .call (fun _ hx => hx) hcall.1 (fun _ _ hr => .inl hr) (by simp) hcall.2 (fun _ hx => hx)

theorem LinkInv.client_release (h : LinkInv submits served l) (id : Id) :
    ClientEvent P submits submits served l (l.clientCall P (.release id)) := by
  have hcall : Submits submits served none l.client (step P l.client (.release id)) := by
    refine .dropping h.kept fun i r hr => ?_
    have hr : (l.client.outgoing.erase id).find? i = some r := hr
    rw [OrderedMap.find?_erase] at hr
    split at hr
    · cases hr
    · exact hr
  exact .call (fun _ hx => hx) hcall (fun _ _ hr => .inl hr) (by simp) h.client (fun _ hx => hx)

theorem LinkInv.client_receive (h : LinkInv submits served l) {bytes : Bytes}
    (hbytes : bytes ∈ l.toClient) {toClient : List Bytes} (hunder : toClient ⊆ l.toClient)
    (now : Time) (handlers : Handlers) : ClientEvent P submits submits served l
      ({ l with toClient }.clientCall P (.receive bytes now handlers)) := by
  obtain ⟨hcall, hincoming⟩ := receive_submits (P := P) now handlers h.kept
    (fun f hf => h.tells bytes hbytes f hf) fun id hid => h.once hid
  exact .call (fun _ hx => hx) hcall (fun _ _ hr => .inl hr) (fun g hg => ⟨bytes, hbytes, hg⟩)
    (hincoming.trans h.client) hunder

theorem LinkInv.client_submit {past : LinkHistory} (h : LinkInv (submitted past) served l) (id : Id)
    (request : ControlRequest) (retries : ℕ) (wait now : Time)
    (hnodup : ((submitted ((.submit id request retries wait now,
      (linkStep P l (.submit id request retries wait now)).2) :: past)).map Prod.fst).Nodup) :
    ClientEvent P (submitted past) (submitted ((.submit id request retries wait now,
      (linkStep P l (.submit id request retries wait now)).2) :: past)) served l
      (linkStep P l (.submit id request retries wait now)) := by
  rw [submitted_cons] at hnodup ⊢
  have hincoming : (step P l.client (.submit id request retries wait now)).1.incoming = {} :=
    (l.client.submit_quiet P id request retries wait now).incoming.trans h.client
  rcases @submit_submits P _ _ none _ id request retries wait now h.kept with
    ⟨hnone, hcall⟩ | ⟨rc, hmem, hbase, hcall⟩
  · have hnothing : submitted [(LinkMove.submit id request retries wait now,
        (linkStep P l (.submit id request retries wait now)).2)] = [] := by
      have hnot : .submitted id request ∉
          (linkStep P l (.submit id request retries wait now)).2.client := by
        rw [show (linkStep P l (.submit id request retries wait now)).2.client = [] from hnone]
        exact not_mem_nil
      simp [submitted, hnot]
    rw [hnothing, nil_append]
    exact .call (fun _ hx => hx) hcall (fun _ _ hr => .inl hr) (by simp) hincoming (fun _ hx => hx)
  · have hnow : submitted [(LinkMove.submit id request retries wait now,
        (linkStep P l (.submit id request retries wait now)).2)] = [(id, request)] := by
      have hyes : .submitted id request ∈
          (linkStep P l (.submit id request retries wait now)).2.client := hmem
      simp [submitted, hyes]
    rw [hnow, singleton_append] at hnodup ⊢
    refine .call (subset_cons_self ..) hcall (fun i r hr => ?_) (by simp) hincoming
      (fun _ hx => hx)
    rcases hbase i r hr with ⟨rfl, hstate, _, hresult⟩ | hbefore
    · refine .inr ⟨fun request' hmem' => ?_, hstate, hresult⟩
      rw [map_cons, nodup_cons] at hnodup
      exact hnodup.1 (mem_map.mpr ⟨_, hmem', rfl⟩)
    · exact .inl hbefore

theorem LinkInv.server_own (h : LinkInv submits served l) (own : Own) :
    ServerEvent P l (l.serverCall P own.call) := by
  have hidle : (step P l.server own.call).1.outgoing = {} ∧ (step P l.server own.call).2 = [] := by
    cases own with
    | tick now => exact tick_answers now h.server
    | sessionChanged now => exact ⟨sessionChanged_answers now h.server, rfl⟩
    | payloadLimit bytes => exact ⟨h.server, rfl⟩
  have hdoes : Does none l.server.incoming (step P l.server own.call) := by
    cases own with
    | tick now => exact l.server.tick_does now
    | sessionChanged now => exact l.server.sessionChanged_does now
    | payloadLimit bytes => exact .quiet (.nil rfl)
  refine .call hdoes (by simp) (fun f proof key _ hf => ?_) hidle.1 (fun b hb => ?_)
    (fun _ hx => hx)
  · rw [hidle.2] at hf
    cases hf
  · rw [hidle.2] at hb
    cases hb

theorem LinkInv.server_receive (h : LinkInv submits served l) {bytes : Bytes}
    (hbytes : bytes ∈ l.toServer) {toServer : List Bytes} (hunder : toServer ⊆ l.toServer)
    (now : Time) (handlers : Handlers) :
    ServerEvent P l ({ l with toServer }.serverCall P (.receive bytes now handlers)) := by
  have hin : ∀ {f : Frame}, Frame.decode bytes = some f →
      ∃ b ∈ l.toServer, heardIn b = some { f with auth := [] } := by
    intro f hf
    refine ⟨bytes, hbytes, ?_⟩
    rw [heardIn, hf]
    rfl
  obtain ⟨hout, hsends⟩ := receive_answers (P := P) bytes now handlers h.server h.ackEnded
  have hanswers : ∀ b, .send b ∈ (step P l.server (.receive bytes now handlers)).2 → ∃ f g proof,
      (∃ b ∈ l.toServer, heardIn b = some f) ∧ (g.kind ≠ .challenge →
        ∃ proof key, .accepted f proof key ∈ (step P l.server (.receive bytes now handlers)).2) ∧
      Answer (step P l.server (.receive bytes now handlers)).1.incoming f g ∧
      { g with auth := proof }.encode = some b := by
    intro b hb
    obtain ⟨f, g, proof, hf, haccepted, hanswer⟩ := hsends b hb
    exact ⟨_, g, proof, hin hf, fun hkind => ⟨_, haccepted hkind⟩, hanswer⟩
  have haccepted : ∀ f proof key, f.kind ≠ .challenge →
      .accepted f proof key ∈ (step P l.server (.receive bytes now handlers)).2 →
      ∃ b ∈ l.toServer, heardIn b = some f :=
    fun f proof key hkind hf => ⟨bytes, hbytes, receive_accepted hkind hf⟩
  rcases receive_does (P := P) bytes now handlers h.ackEnded with hquiet | ⟨f, key, hf, hmem, hdoes⟩
  · have hdoes : Does none l.server.incoming (step P l.server (.receive bytes now handlers)) :=
      .quiet hquiet
    exact .call hdoes (by simp) haccepted hout hanswers hunder
  refine .call hdoes (fun x hx => ?_) haccepted hout hanswers hunder
  cases hx
  exact ⟨hin hf, _, hmem⟩

theorem LinkInv.event {past : LinkHistory} (h : LinkInv (submitted past) served l) (move : LinkMove)
    (hnodup : ((submitted ((move, (linkStep P l move).2) :: past)).map Prod.fst).Nodup) :
    LinkEvent P (submitted past) served l (submitted ((move, (linkStep P l move).2) :: past))
      (linkStep P l move) := by
  cases move with
  | submit id request retries wait now =>
    exact .client (h.client_submit id request retries wait now hnodup)
  | release id => exact .client (h.client_release id)
  | client own => exact .client (h.client_own own)
  | server own => exact .server (h.server_own own)
  | toServer index copy now handlers =>
    rw [show submitted ((LinkMove.toServer index copy now handlers, _) :: past) = submitted past from rfl,
      linkStep]
    split
    next => exact .idle
    next bytes hbytes =>
      exact .server (h.server_receive (mem_of_getElem? hbytes) (kept_under_way ..) now handlers)
  | toClient index copy now handlers =>
    rw [show submitted ((LinkMove.toClient index copy now handlers, _) :: past) = submitted past from rfl,
      linkStep]
    split
    next => exact .idle
    next bytes hbytes =>
      exact .client (h.client_receive (mem_of_getElem? hbytes) (kept_under_way ..) now handlers)

end Events

/-! ### Steps and runs -/

variable {P} {l : Link} {submits : List (Id × ControlRequest)} {served : List Execution}

theorem LinkInv.heard (h : LinkInv submits served l) {f : Frame}
    (hf : ∃ b ∈ l.toServer, heardIn b = some f) : Asks submits f ∧ (f.kind = .finish →
      ∀ r, l.client.outgoing.find? f.id = some r → r.finishing ∧ r.state = f.state) := by
  obtain ⟨b, hb, hheard⟩ := hf
  obtain ⟨g, hg, rfl⟩ := Option.map_eq_some_iff.mp hheard
  exact h.asks b hb g hg

theorem LinkInv.heard_open (h : LinkInv submits served l) {f : Frame}
    (hf : ∃ b ∈ l.toServer, heardIn b = some f) (hkind : f.kind = .finish) : ¬Open l.client f.id := by
  rintro ⟨r, hr, _, hunfinished⟩
  have hdone := ((h.heard hf).2 hkind r hr).1
  rw [hunfinished] at hdone
  cases hdone

theorem LinkInv.server_table (h : LinkInv submits served l) (hnodup : (submits.map Prod.fst).Nodup)
    {input : Option (Frame × AuthorityKey)} {es : List Execution} {m : Table}
    (hmoves : Moves input l.server.incoming es m)
    (hinput : ∀ x ∈ input, ∃ b ∈ l.toServer, heardIn b = some x.1) :
    (AckEnded m ∧ Bounded m) ∧
      (∀ id, ServedAt submits (served ++ es) (Open l.client id) id (m.find? id)) ∧
      ∀ e ∈ served ++ es, (e.id, e.request) ∈ submits := by
  refine ⟨?_, fun id => ?_, fun e he => ?_⟩
  · exact hmoves.invariant (I := fun m => AckEnded m ∧ Bounded m)
      (fun hmove hm => ⟨hm.1.move hmove, hm.2.move hmove⟩) ⟨h.ackEnded, h.bounded⟩
  · refine ServedAt.moves hmoves hnodup (fun x hx => ⟨(h.heard (hinput x hx)).1, ?_⟩) (h.records id)
    rintro rfl
    exact h.heard_open (hinput x hx)
  · rcases mem_append.mp he with he | he
    · exact h.origin e he
    · refine @moves_origin submits served False _ _ _ _ hmoves hnodup (fun x hx => ?_) e he
      have hat := h.records x.1.id
      refine ⟨(h.heard (hinput x hx)).1, fun _ hfalse => hfalse, ?_⟩
      cases hfind : l.server.incoming.find? x.1.id with
      | none => exact fun hfalse => hfalse.elim
      | some r =>
        rw [hfind] at hat
        exact ⟨Served.origin hat, Served.success hat, fun hfalse => hfalse.elim,
          fun hfalse => hfalse.elim⟩

theorem LinkInv.of_server (h : LinkInv submits served l) (hnodup : (submits.map Prod.fst).Nodup)
    {out : Link × LinkEffects} (hevent : ServerEvent P l out) :
    LinkInv submits (served ++ executions out.2.server) out.1 := by
  obtain ⟨hdoes, hinput, _, hout, hanswers, hunder⟩ := hevent
  obtain ⟨⟨hack, hbounded⟩, hrecords, horigin⟩ :=
    h.server_table hnodup hdoes.moves fun x hx => (hinput x hx).1
  refine ⟨fun id r hr => (h.kept id r hr).mono (fun _ hx => hx) (subset_append_left ..), h.client,
    hout, hack, hbounded, fun b hb => h.asks b (hunder hb), fun b hb f hf => ?_, hrecords, horigin⟩
  rcases mem_append.mp hb with hb | hb
  · obtain ⟨hkind, htells⟩ := h.tells b hb f hf
    refine ⟨hkind, fun hreply hstate => ?_⟩
    obtain ⟨e, he, hrest⟩ := htells hreply hstate
    exact ⟨e, mem_append_left _ he, hrest⟩
  obtain ⟨f', g, proof, _, _, hg, hencode⟩ := hanswers b (mem_sentBytes.mp hb)
  have htells := LinkInv.tells_of_answer hg hbounded hrecords
  rw [LinkInv.decode_sent hencode hf]
  exact htells

theorem LinkInv.of_client (h : LinkInv submits served l) {more : List (Id × ControlRequest)}
    {out : Link × LinkEffects} (hevent : ClientEvent P submits more served l out) :
    LinkInv more served out.1 := by
  obtain @⟨call, _, _, _, hmore, hcall, hbase, _, hincoming, hunder⟩ := hevent
  -- a request that is open now was open before, or nobody has heard of it
  have hopen : ∀ id, Open (step P l.client call).1 id →
      Open l.client id ∨ (∀ request, (id, request) ∉ submits) := by
    intro id hid
    obtain ⟨r, hr, hwaiting⟩ := hcall.opens hid
    exact (hbase id r hr).imp (fun hr => ⟨r, hr, hwaiting⟩) And.left
  refine ⟨hcall.kept, hincoming, h.server, h.ackEnded, h.bounded, fun b hb f hf => ?_,
    fun b hb => h.tells b (hunder hb), fun id => ?_, fun e he => hmore (h.origin e he)⟩
  · rcases mem_append.mp hb with hb | hb
    · obtain ⟨hask, hfinish⟩ := h.asks b hb f hf
      refine ⟨hask.mono hmore, fun hkind s hs => ?_⟩
      obtain ⟨r, hr, hfollows⟩ := hcall.follows f.id s hs
      rcases hbase f.id r hr with hbefore | ⟨hunknown, _⟩
      · obtain ⟨hdone, hstate⟩ := hfinish hkind r hbefore
        obtain ⟨hstill, hsame⟩ := hfollows.finishing hdone
        exact ⟨hstill, hsame.trans hstate⟩
      rw [Asks, hkind] at hask
      obtain ⟨request, hmem⟩ := hask
      exact absurd hmem (hunknown request)
    · obtain ⟨g, proof, hencode, hask, hfinish⟩ := hcall.sends b (mem_sentBytes.mp hb)
      rw [LinkInv.decode_sent hencode hf]
      exact ⟨hask, hfinish⟩
  · have hat := h.records id
    have hfresh : (∀ request, (id, request) ∉ submits) → runsOf id served = [] := by
      intro hunknown
      refine filter_eq_nil_iff.mpr fun e he hid => ?_
      have heq : e.id = id := of_decide_eq_true hid
      exact hunknown e.request (heq ▸ h.origin e he)
    have hgoal : ServedAt more served (Open (step P l.client call).1 id) id
        (l.server.incoming.find? id) := by
      cases hfind : l.server.incoming.find? id with
      | none =>
        rw [hfind] at hat
        intro hid
        exact (hopen id hid).elim hat hfresh
      | some r =>
        rw [hfind] at hat
        have hserved : Served submits served (Open l.client id) id r := hat
        obtain ⟨request, hmem, hrest⟩ := hserved.origin
        have hbefore : Open (step P l.client call).1 id → Open l.client id := fun hid =>
          (hopen id hid).resolve_right fun hunknown => hunknown request hmem
        exact ⟨⟨request, hmore hmem, hrest⟩, hserved.success, fun hid => hserved.waiting (hbefore hid),
          fun hid => hserved.once (hbefore hid)⟩
    exact hgoal

theorem LinkInv.step (h : LinkInv (submitted past) (executed past) l) (move : LinkMove)
    (hnodup : ((submitted ((move, (linkStep P l move).2) :: past)).map Prod.fst).Nodup) :
    LinkInv (submitted ((move, (linkStep P l move).2) :: past))
      (executed ((move, (linkStep P l move).2) :: past)) (linkStep P l move).1 := by
  have hold := nodup_of_cons hnodup
  have hevent := h.event move hnodup
  rw [executed_cons]
  generalize submitted ((move, (linkStep P l move).2) :: past) = more at hevent ⊢
  generalize linkStep P l move = out at hevent ⊢
  cases hevent with
  | idle =>
    rw [show executions ({} : LinkEffects).server = [] from rfl, append_nil]
    exact h
  | client hevent =>
    have hnone : executions out.2.server = [] := by
      cases hevent
      rfl
    rw [hnone, append_nil]
    exact h.of_client hevent
  | server hevent => exact h.of_server hold hevent

theorem linkInv_of_trace {start l : Link} (hclient : Fresh start.client)
    (hserver : Fresh start.server) (hempty : start.toServer = [] ∧ start.toClient = [])
    (h : Transition.Trace (linkStep P) start past l)
    (hnodup : ((submitted past).map Prod.fst).Nodup) :
    LinkInv (submitted past) (executed past) l := by
  induction h with
  | nil =>
    have hnone : ∀ id, start.server.incoming.find? id = none := by
      intro id
      rw [hserver.incoming]
      rfl
    refine ⟨fun id r hr => ?_, hclient.incoming, hserver.outgoing, fun id r hr => ?_, ?_,
      fun b hb => ?_, fun b hb => ?_, fun id => ?_, fun e he => absurd he not_mem_nil⟩
    · rw [hclient.outgoing] at hr
      cases hr
    · rw [hnone] at hr
      cases hr
    · rw [hserver.incoming]
      exact ⟨by simp, Nat.zero_le _, Nat.zero_le _, by simp⟩
    · rw [hempty.1] at hb
      cases hb
    · rw [hempty.2] at hb
      cases hb
    · rw [hnone]
      exact fun _ => rfl
  | cons move h ih =>
    exact LinkInv.step (ih (nodup_of_cons hnodup)) move hnodup

/-- A client that reports success tells the truth: the server has executed the request
as it was submitted, and what the client returns is the response of that execution. -/
theorem remote_control_truth {start l : Link} {past : LinkHistory} (hclient : Fresh start.client)
    (hserver : Fresh start.server) (hempty : start.toServer = [] ∧ start.toClient = [])
    (h : Transition.Trace (linkStep P) start past l)
    (hnodup : ((submitted past).map Prod.fst).Nodup) {id : Id} {r : Outgoing} {body : Bytes}
    (hr : l.client.outgoing.find? id = some r) (hresult : r.result = some ⟨0, body⟩) :
    ∃ request response, (id, request) ∈ submitted past ∧
      ⟨id, request, some response⟩ ∈ executed past ∧ response.success ∧ response.rejected = false ∧
      response.body = body := by
  have hinv := linkInv_of_trace hclient hserver hempty h hnodup
  obtain ⟨⟨eid, request, outcome⟩, he, rfl, hsuccess⟩ := (hinv.kept id r hr).truth body hresult
  obtain ⟨response, rfl, hrest⟩ := Execution.success?_eq_some hsuccess
  exact ⟨request, response, hinv.origin _ he, he, hrest⟩

/-! A load of three bytes in blocks of two, answered in blocks of two. -/

def sampleLink : Link where
  client := sampleTarget.payloadLimit 378
  server := sampleTarget.payloadLimit 378

def sampleExchange : List LinkMove :=
  [.toServer 0 false 0 { execute := fun _ => some { body := ascii "ok\n" } }, .toClient 0 false 0 {}]

def sampleLinkRun : LinkHistory × Link :=
  Transition.run (linkStep samplePrimitives) sampleLink
    (.submit sampleId ⟨ascii "rules load 3", ascii "abc"⟩ 5 second 0 ::
      (List.replicate 4 sampleExchange).flatten)

theorem remote_control_truth_sample :
    ∃ request response, (sampleId, request) ∈ submitted sampleLinkRun.1 ∧
      ⟨sampleId, request, some response⟩ ∈ executed sampleLinkRun.1 ∧ response.success ∧
      response.rejected = false ∧ response.body = ascii "ok\n" := by
  have htrace : Transition.Trace (linkStep samplePrimitives) sampleLink sampleLinkRun.1
      sampleLinkRun.2 := Transition.trace_run _
  have hnodup : ((submitted sampleLinkRun.1).map Prod.fst).Nodup := by decide +kernel
  have hresult : (sampleLinkRun.2.client.outgoing.find? sampleId).bind (·.result) =
      some ⟨0, ascii "ok\n"⟩ := by decide +kernel
  obtain ⟨r, hr, hexit⟩ := Option.bind_eq_some_iff.mp hresult
  exact remote_control_truth ⟨rfl, rfl⟩ ⟨rfl, rfl⟩ ⟨rfl, rfl⟩ htrace hnodup hr hexit

end Tuntom.Control
