import Tuntom.ControlLink
import Tuntom.ControlCapacity

/-! Refused remote requests. A refusal without a record is safe as long as no second
opening block of the request reaches the server. -/
namespace Tuntom.Control
open RemoteControl List Transition

def Execution.outcome (e : Execution) : State :=
  e.response.elim .failed fun response => Control.outcome (bounded response)

def Frame.opening (id : Id) (f : Frame) : Bool := f.kind = .put ∧ f.id = id ∧ f.offset = 0

def Effect.opening (id : Id) : Effect → Bool
  | .accepted f _ _ => f.opening id
  | _ => false

def openings (id : Id) (past : LinkHistory) : ℕ :=
  (past.flatMap fun x => x.2.server).countP (Effect.opening id)

theorem openings_cons (id : Id) (x : LinkMove × LinkEffects) (past : LinkHistory) :
    openings id (x :: past) = x.2.server.countP (Effect.opening id) + openings id past := by
  rw [openings, flatMap_cons, countP_append, ← openings]

theorem openings_le (id : Id) (later past : LinkHistory) :
    openings id past ≤ openings id (later ++ past) := by
  rw [openings, openings, flatMap_append, countP_append]
  exact Nat.le_add_left ..

variable {P : Primitives} {id : Id} {n : ℕ} {served : List Execution}

def Ran (served : List Execution) (id : Id) (state : State) : Prop :=
  ∃ e ∈ served, e.id = id ∧ e.outcome = state

theorem Ran.more {state : State} (h : Ran served id state) (es : List Execution) :
    Ran (served ++ es) id state := by
  obtain ⟨e, he, hrest⟩ := h
  exact ⟨e, mem_append_left _ he, hrest⟩

/-! ### The record of the server, beside that of the client -/

/-- What the record `o` of the server says after `n` opening blocks, beside the record
`c` of the client. -/
structure Guard (id : Id) (n : ℕ) (served : List Execution) (c : Option Outgoing)
    (o : Option Incoming) : Prop where
  unopened : n = 0 → o = none ∧ runsOf id served = []
  live : ∀ s ∈ o, s.terminal = false → runsOf id served = []
  ended : ∀ s ∈ o, runsOf id served = [] ∨ Ran served id s.state
  gone : o = none → ∀ r ∈ c, runsOf id served = [] ∨ (r.finishing ∧ Ran served id r.state)
  acknowledged : ∀ s ∈ o, s.acknowledged → s.terminal ∧ ∀ r ∈ c, r.finishing ∧ r.state = s.state

def Settled (o : Option Incoming) : Prop := ∀ s ∈ o, s.terminal

variable {c : Option Outgoing} {es e : List Execution} {input : Option (Frame × AuthorityKey)}
  {m m' : Table} {f : Frame} {out : Link × LinkEffects} {n : ℕ}

theorem Guard.more {o : Option Incoming} (h : Guard id n served c o) (hes : runsOf id es = []) :
    Guard id n (served ++ es) c o := by
  have hruns : runsOf id (served ++ es) = runsOf id served := by
    rw [runsOf_append, hes, append_nil]
  constructor
  · rw [hruns]
    exact h.unopened
  · rw [hruns]
    exact h.live
  · intro s hs
    rw [hruns]
    exact (h.ended s hs).imp_right fun hran => hran.more es
  · intro ho r hr
    rw [hruns]
    exact (h.gone ho r hr).imp_right fun hdone => ⟨hdone.1, hdone.2.more es⟩
  · exact h.acknowledged

theorem Guard.opened {s : Incoming} (h : Guard id n served c (some s)) : n ≠ 0 :=
  fun hn => absurd (h.unopened hn).1 (by simp)

theorem Guard.absent (hunopened : n = 0 → runsOf id served = [])
    (hgone : ∀ r ∈ c, runsOf id served = [] ∨ (r.finishing ∧ Ran served id r.state)) :
    Guard id n served c none where
  unopened hn := ⟨rfl, hunopened hn⟩
  live _ hs := absurd hs (Option.not_mem_none _)
  ended _ hs := absurd hs (Option.not_mem_none _)
  gone _ := hgone
  acknowledged _ hs := absurd hs (Option.not_mem_none _)

theorem Guard.other (h : Move input m e m') (hne : ∀ x ∈ input, x.1.id ≠ id)
    (hguard : Guard id n served c (m.find? id)) : Guard id n (served ++ e) c (m'.find? id) := by
  obtain ⟨hruns, hsame | ⟨r, hr, hends⟩⟩ := move_other h hne
  · rw [hsame]
    exact hguard.more hruns
  rw [hr] at hguard
  refine Guard.more ?_ hruns
  generalize m'.find? id = o at hends
  cases hends with
  | evicted hack =>
    refine .absent (fun hn => absurd hn hguard.opened) fun x hx => ?_
    obtain ⟨hdone, hstate⟩ := (hguard.acknowledged r rfl hack).2 x hx
    rw [hstate]
    exact (hguard.ended r rfl).imp_right fun hran => ⟨hdone, hran⟩
  | @expired s hlive hend hack =>
    have hopen : r.terminal = false := by
      rw [Incoming.terminal, hlive]
      rfl
    have hnone := hguard.live r rfl hopen
    refine ⟨fun hn => absurd hn hguard.opened, fun _ _ _ => hnone, fun _ _ => .inl hnone, by simp,
      ?_⟩
    rintro _ ⟨⟩ hs
    rw [hack] at hs
    have hbad := (hguard.acknowledged r rfl hs).1
    rw [hopen] at hbad
    cases hbad

theorem Incoming.take_state {r s : Incoming} {now : Time} (h : r.take f now = .ok s) :
    s.state = r.state ∧ s.acknowledged = r.acknowledged := by
  obtain ⟨_, _, _, ⟨rfl, _⟩ | ⟨_, _, rfl⟩⟩ := Incoming.take_ok h <;> exact ⟨rfl, rfl⟩

/-- A move on behalf of a frame of the request, where an opening block finds that nothing
has run yet. -/
theorem Guard.own {key : AuthorityKey} (h : Move (some (f, key)) m e m')
    (hopening : f.opening f.id → n ≠ 0 ∧ (m.find? f.id = none → runsOf f.id served = []))
    (hfinish : f.kind = .finish → ∀ r ∈ c, r.finishing ∧ r.state = f.state)
    (hguard : Guard f.id n served c (m.find? f.id)) :
    Guard f.id n (served ++ e) c (m'.find? f.id) ∧
      (f.opening f.id → n ≠ 0 ∧ (m'.find? f.id = none → runsOf f.id (served ++ e) = [])) := by
  cases h with
  | evict hr hack hother =>
    rw [OrderedMap.find?_erase, if_neg (Ne.symm hother), append_nil]
    exact ⟨hguard, hopening⟩
  | @create _ _ _ r hput hnone hoffset hroom hopen =>
    have hopens : f.opening f.id := decide_eq_true ⟨hput, rfl, hoffset⟩
    obtain ⟨hn, hruns⟩ := hopening hopens
    have hruns := hruns hnone
    rw [OrderedMap.find?_insert, if_pos rfl, append_nil]
    refine ⟨⟨fun h0 => absurd h0 hn, fun _ _ _ => hruns, fun _ _ => .inl hruns, by simp, ?_⟩,
      fun _ => ⟨hn, by simp⟩⟩
    rintro _ ⟨⟩ hack
    rw [hopen.fresh] at hack
    cases hack
  | @block _ _ _ r s _ hput hr htake hmore =>
    rw [hr] at hguard
    obtain ⟨hstate, hack⟩ := Incoming.take_state htake
    rw [OrderedMap.find?_insert, if_pos rfl, append_nil]
    refine ⟨⟨fun h0 => absurd h0 hguard.opened, ?_, ?_, by simp, ?_⟩,
      fun _ => ⟨hguard.opened, by simp⟩⟩
    · rintro _ ⟨⟩ hlive
      rw [Incoming.terminal, hstate] at hlive
      exact hguard.live r rfl hlive
    · rintro _ ⟨⟩
      rw [hstate]
      exact hguard.ended r rfl
    · rintro _ ⟨⟩ hs
      rw [Incoming.terminal, hstate]
      exact hguard.acknowledged r rfl (hack ▸ hs)
  | @run _ _ _ r s _ hput hr htake hdone response order =>
    rw [hr] at hguard
    obtain ⟨hstate, hack⟩ := Incoming.take_state htake
    have hlive : r.terminal = false := by
      rw [Incoming.terminal, ← hstate, hdone.1]
      rfl
    have hend := s.executed_terminal response order
    rw [OrderedMap.find?_insert, if_pos rfl]
    refine ⟨⟨fun h0 => absurd h0 hguard.opened, ?_, ?_, by simp, ?_⟩,
      fun _ => ⟨hguard.opened, by simp⟩⟩
    · rintro _ ⟨⟩ hs
      rw [hend] at hs
      cases hs
    · rintro _ ⟨⟩
      refine .inr ⟨_, mem_append_right _ (mem_singleton_self _), rfl, ?_⟩
      cases response <;> rfl
    · rintro _ ⟨⟩ hs
      have hsame : (s.executed response order).acknowledged = s.acknowledged := by
        cases response <;> rfl
      rw [hsame, hack] at hs
      have hbad := (hguard.acknowledged r rfl hs).1
      rw [hlive] at hbad
      cases hbad
  | @acknowledge _ _ _ r hkind hr hend hstate htotal =>
    rw [hr] at hguard
    rw [OrderedMap.find?_insert, if_pos rfl, append_nil]
    refine ⟨⟨fun h0 => absurd h0 hguard.opened, ?_, ?_, by simp, ?_⟩,
      fun _ => ⟨hguard.opened, by simp⟩⟩
    · rintro _ ⟨⟩
      exact hguard.live r rfl
    · rintro _ ⟨⟩
      exact hguard.ended r rfl
    · rintro _ ⟨⟩ _
      exact ⟨hend, hstate ▸ hfinish hkind⟩

theorem Guard.moves (h : Moves input m es m')
    (hopening : ∀ x ∈ input, x.1.opening id → n ≠ 0 ∧ (m.find? id = none → runsOf id served = []))
    (hfinish : ∀ x ∈ input, x.1.id = id → x.1.kind = .finish →
      ∀ r ∈ c, r.finishing ∧ r.state = x.1.state) (hguard : Guard id n served c (m.find? id)) :
    Guard id n (served ++ es) c (m'.find? id) := by
  induction h generalizing served with
  | nil =>
    rw [append_nil]
    exact hguard
  | @cons _ m₁ _ e es hmove _ ih =>
    rw [← append_assoc]
    by_cases hown : ∃ x ∈ input, x.1.id = id
    · obtain ⟨x, rfl, rfl⟩ := hown
      obtain ⟨hnext, hopens⟩ := Guard.own hmove (hopening x rfl) (hfinish x rfl rfl) hguard
      refine ih (fun y hy => ?_) hnext
      cases hy
      exact hopens
    · refine ih (fun x hx hopens => ?_) (Guard.other hmove (fun x hx hid => hown ⟨x, hx, hid⟩) hguard)
      exact absurd ⟨x, hx, (of_decide_eq_true hopens).2.1⟩ hown

theorem Guard.client {c' : Option Outgoing} {o : Option Incoming} (h : Guard id n served c o)
    (hc : ∀ s ∈ c', n = 0 ∨ ∃ r ∈ c, r.finishing → s.finishing ∧ s.state = r.state) :
    Guard id n served c' o where
  unopened := h.unopened
  live := h.live
  ended := h.ended
  gone ho s hs := by
    rcases hc s hs with hn | ⟨r, hr, hfollows⟩
    · exact .inl (h.unopened hn).2
    refine (h.gone ho r hr).imp_right ?_
    rintro ⟨hdone, hran⟩
    obtain ⟨hstill, hstate⟩ := hfollows hdone
    rw [hstate]
    exact ⟨hstill, hran⟩
  acknowledged x hx hack := by
    obtain ⟨hend, hall⟩ := h.acknowledged x hx hack
    refine ⟨hend, fun s hs => ?_⟩
    rcases hc s hs with hn | ⟨r, hr, hfollows⟩
    · rw [(h.unopened hn).1] at hx
      cases hx
    obtain ⟨hdone, hstate⟩ := hall r hr
    obtain ⟨hstill, hsame⟩ := hfollows hdone
    exact ⟨hstill, hsame.trans hstate⟩

/-! ### Records out of use -/

theorem Settled.move (h : Move input m e m') (hno : ∀ x ∈ input, x.1.opening id = false)
    (hs : Settled (m.find? id)) : runsOf id e = [] ∧ Settled (m'.find? id) := by
  have hlive : ∀ {r : Incoming}, m.find? id = some r → r.state ≠ .receiving := by
    intro r hr hstate
    have hend := hs r hr
    rw [Incoming.terminal, hstate] at hend
    cases hend
  by_cases hown : ∃ x ∈ input, x.1.id = id
  · obtain ⟨⟨f, key⟩, rfl, rfl⟩ := hown
    cases h with
    | evict hr hack hother =>
      rw [OrderedMap.find?_erase, if_neg (Ne.symm hother)]
      exact ⟨rfl, hs⟩
    | create hput hnone hoffset =>
      have hopens : f.opening f.id := decide_eq_true ⟨hput, rfl, hoffset⟩
      rw [hno _ rfl] at hopens
      cases hopens
    | block hput hr htake =>
      rw [OrderedMap.find?_insert, if_pos rfl]
      refine ⟨rfl, ?_⟩
      rintro _ ⟨⟩
      rw [Incoming.terminal, (Incoming.take_state htake).1]
      exact hs _ hr
    | run hput hr htake hdone =>
      rw [Incoming.complete, (Incoming.take_state htake).1] at hdone
      exact absurd hdone.1 (hlive hr)
    | acknowledge hkind hr hend =>
      rw [OrderedMap.find?_insert, if_pos rfl]
      refine ⟨rfl, ?_⟩
      rintro _ ⟨⟩
      exact hend
  obtain ⟨hruns, hsame | ⟨r, hr, hends⟩⟩ := move_other h fun x hx hid => hown ⟨x, hx, hid⟩
  · rw [hsame]
    exact ⟨hruns, hs⟩
  refine ⟨hruns, ?_⟩
  generalize m'.find? id = o at hends
  cases hends with
  | evicted => exact fun _ hs => absurd hs (Option.not_mem_none _)
  | expired hstate => exact absurd hstate (hlive hr)

theorem Settled.moves (h : Moves input m es m') (hno : ∀ x ∈ input, x.1.opening id = false)
    (hs : Settled (m.find? id)) : runsOf id es = [] ∧ Settled (m'.find? id) := by
  induction h with
  | nil => exact ⟨rfl, hs⟩
  | cons hmove _ ih =>
    obtain ⟨hfirst, hnext⟩ := Settled.move hmove hno hs
    obtain ⟨hrest, hlast⟩ := ih hnext
    refine ⟨?_, hlast⟩
    rw [runsOf_append, hfirst, hrest, append_nil]

/-! ### The link -/

/-- A confirmation of the rejection is under way to the client, or has arrived there. -/
def Confirms (id : Id) (l : Link) (r : Outgoing) : Prop :=
  (∃ b ∈ l.toClient, ∃ g ∈ heardIn b, g.id = id ∧ g.kind = .confirmed ∧ g.state = .rejected) ∨
    ∃ body, r.result = some ⟨255, body⟩

/-- What holds of one request after `n` opening blocks. -/
structure Guarded (id : Id) (submits : List (Id × ControlRequest)) (n : ℕ) (served : List Execution)
    (l : Link) : Prop where
  known : n ≠ 0 → ∃ request, (id, request) ∈ submits
  guard : Guard id n served (l.client.outgoing.find? id) (l.server.incoming.find? id)
  rejected : ∀ r ∈ l.client.outgoing.find? id, r.state = .rejected → n ≠ 0
  refused : ∀ b ∈ l.toClient, ∀ g ∈ heardIn b, g.id = id → g.state = .rejected →
    (∃ request, (id, request) ∈ submits) ∧ (g.kind = .reply → n ≠ 0)
  confirmed : ∀ r ∈ l.client.outgoing.find? id, Confirms id l r →
    n ≠ 0 ∧ Settled (l.server.incoming.find? id) ∧ (runsOf id served = [] ∨ Ran served id .rejected)

variable {submits : List (Id × ControlRequest)} {l : Link}

theorem Guarded.of_client (h : Guarded id submits n served l) {more : List (Id × ControlRequest)}
    (hevent : ClientEvent P submits more served l out) : Guarded id more n served out.1 := by
  obtain @⟨call, heard, rc, toClient, hmore, hcall, hbase, hheard, _, hunder⟩ := hevent
  -- the record now goes on from one of before, unless nobody has heard of the request
  have hnew : ∀ s ∈ (step P l.client call).1.outgoing.find? id, ∃ r, Follows heard id r s ∧
      (r ∈ l.client.outgoing.find? id ∨
        ((∀ request, (id, request) ∉ submits) ∧ r.state = .receiving ∧ r.result = none)) := by
    intro s hs
    obtain ⟨r, hr, hfollows⟩ := hcall.follows id s hs
    exact ⟨r, hfollows, hbase id r hr⟩
  have hzero : (∀ request, (id, request) ∉ submits) → n = 0 := by
    intro hunknown
    by_contra hn
    obtain ⟨request, hmem⟩ := h.known hn
    exact hunknown request hmem
  refine ⟨fun hn => ?_, h.guard.client fun s hs => ?_, fun s hs hstate => ?_,
    fun b hb g hg hid hstate => ?_, fun s hs hconfirms => ?_⟩
  · obtain ⟨request, hmem⟩ := h.known hn
    exact ⟨request, hmore hmem⟩
  · obtain ⟨r, hfollows, hr | ⟨hunknown, _⟩⟩ := hnew s hs
    · exact .inr ⟨r, hr, hfollows.finishing⟩
    · exact .inl (hzero hunknown)
  · obtain ⟨r, hfollows, hr⟩ := hnew s hs
    rcases hfollows.rejected hstate with hbefore | ⟨g, hg, hid, hkind, hrejected⟩
    · rcases hr with hr | ⟨_, hstart, _⟩
      · exact h.rejected r hr hbefore
      · rw [hstart] at hbefore
        cases hbefore
    · obtain ⟨b, hb, hin⟩ := hheard g hg
      exact (h.refused b hb g hin hid hrejected).2 hkind
  · obtain ⟨⟨request, hmem⟩, hreply⟩ := h.refused b (hunder hb) g hg hid hstate
    exact ⟨⟨request, hmore hmem⟩, hreply⟩
  · obtain ⟨r, hfollows, hr⟩ := hnew s hs
    have hbefore : Confirms id l r := by
      rcases hconfirms with ⟨b, hb, hrest⟩ | ⟨body, hresult⟩
      · exact .inl ⟨b, hunder hb, hrest⟩
      rcases hfollows.confirmed body hresult with hresult | ⟨g, hg, hrest⟩
      · exact .inr ⟨body, hresult⟩
      · obtain ⟨b, hb, hin⟩ := hheard g hg
        exact .inl ⟨b, hb, g, hin, hrest⟩
    rcases hr with hr | ⟨hunknown, _, hnone⟩
    · exact h.confirmed r hr hbefore
    rcases hbefore with ⟨b, hb, g, hg, hid, _, hstate⟩ | ⟨body, hresult⟩
    · obtain ⟨⟨request, hmem⟩, _⟩ := h.refused b hb g hg hid hstate
      exact absurd hmem (hunknown request)
    · rw [hnone] at hresult
      cases hresult

theorem Answer.rejected {g : Frame} (h : Answer m f g) (hstate : g.state = .rejected) :
    g.id = f.id ∧ g.kind ≠ .challenge ∧
      ((∃ s, m.find? f.id = some s ∧ (g.kind = .confirmed → s.state = .rejected)) ∨
        (g.kind = .reply ∧ f.opening f.id) ∨
        (g.kind = .confirmed ∧ f.kind = .finish ∧ f.state = .rejected ∧ m.find? f.id = none)) := by
  cases h with
  | @record r kind hr hkind chunk offset =>
    have hanswer : (r.answer f.id chunk offset kind).id = f.id ∧
        (r.answer f.id chunk offset kind).kind = kind ∧
        (r.answer f.id chunk offset kind).state = r.state := by
      rw [Incoming.answer]
      split <;> exact ⟨rfl, rfl, rfl⟩
    rw [hanswer.2.2] at hstate
    refine ⟨hanswer.1, ?_, .inl ⟨r, hr, fun _ => hstate⟩⟩
    rw [hanswer.2.1]
    rintro rfl
    cases hkind
  | busy hput hoffset hnone =>
    exact ⟨rfl, (by rintro ⟨⟩), .inr (.inl ⟨rfl, decide_eq_true ⟨hput, rfl, hoffset⟩⟩)⟩
  | @conflict r _ _ hput hr => exact ⟨rfl, (by rintro ⟨⟩), .inl ⟨r, hr, by rintro ⟨⟩⟩⟩
  | missing => cases hstate
  | unrecorded hfinish hrejected hnone =>
    exact ⟨rfl, by simp, .inr (.inr ⟨rfl, hfinish, hrejected, hnone⟩)⟩
  | challenge => cases hstate

theorem countP_pos_of_accepted {effects : List Effect} {proof : Bytes} {key : AuthorityKey}
    (h : .accepted f proof key ∈ effects) (hf : f.opening id) :
    0 < effects.countP (Effect.opening id) :=
  countP_pos_iff.mpr ⟨_, h, hf⟩

theorem heardIn_sent {g x : Frame} {proof b : Bytes} (hencode : { g with auth := proof }.encode = some b)
    (hx : x ∈ heardIn b) : x = { g with auth := [] } := by
  obtain ⟨f, hf, rfl⟩ := Option.map_eq_some_iff.mp hx
  rw [LinkInv.decode_sent hencode hf]

theorem Guarded.of_server (h : Guarded id submits n served l) (hinv : LinkInv submits served l)
    (hevent : ServerEvent P l out) (hone : out.2.server.countP (Effect.opening id) + n ≤ 1) :
    Guarded id submits (out.2.server.countP (Effect.opening id) + n)
      (served ++ executions out.2.server) out.1 := by
  obtain @⟨call, input, toServer, hdoes, hinput, haccepted, _, hanswers, hunder⟩ := hevent
  rw [show (Link.serverCall P { l with toServer } call).2.server = (step P l.server call).2 from rfl]
    at hone ⊢
  generalize hcount : (step P l.server call).2.countP (Effect.opening id) = k at hone ⊢
  -- an opening block that is accepted now is the first one
  have hopening : ∀ f proof key, .accepted f proof key ∈ (step P l.server call).2 →
      f.opening id → k + n ≠ 0 ∧ n = 0 := by
    intro f proof key hmem hf
    have hpos := countP_pos_of_accepted hmem hf
    omega
  have hguard : Guard id (k + n) (served ++ executions (step P l.server call).2)
      (l.client.outgoing.find? id) ((step P l.server call).1.incoming.find? id) := by
    have hbefore : Guard id (k + n) served (l.client.outgoing.find? id)
        (l.server.incoming.find? id) :=
      ⟨fun h0 => h.guard.unopened (Nat.eq_zero_of_add_eq_zero_left h0), h.guard.live, h.guard.ended,
        h.guard.gone, h.guard.acknowledged⟩
    refine Guard.moves hdoes.moves (fun x hx hx' => ?_) (fun x hx hid hkind r hr => ?_) hbefore
    · obtain ⟨proof, hmem⟩ := (hinput x hx).2
      obtain ⟨hn', hn⟩ := hopening x.1 proof x.2 hmem hx'
      exact ⟨hn', fun _ => (h.guard.unopened hn).2⟩
    · exact (hinv.heard (hinput x hx).1).2 hkind r (hid ▸ hr)
  have hknown : k + n ≠ 0 → ∃ request, (id, request) ∈ submits := by
    intro hn'
    by_cases hn : n = 0
    · have hpos : 0 < (step P l.server call).2.countP (Effect.opening id) := by omega
      obtain ⟨e, he, hopen⟩ := countP_pos_iff.mp hpos
      cases e with
      | accepted f proof key =>
        obtain ⟨hput, rfl, _⟩ := of_decide_eq_true hopen
        have hasks := (hinv.heard (haccepted f proof key (by rw [hput]; simp) he)).1
        rw [Asks, hput] at hasks
        obtain ⟨request, hmem, _⟩ := hasks
        exact ⟨request, hmem⟩
      | _ => cases hopen
    · exact h.known hn
  have hnew : ∀ b ∈ sentBytes (step P l.server call).2, ∀ x ∈ heardIn b, x.id = id →
      x.state = .rejected → x.kind ≠ .challenge ∧ ∃ f, (∃ b ∈ l.toServer, heardIn b = some f) ∧
        f.id = id ∧ ((∃ s, (step P l.server call).1.incoming.find? id = some s ∧
            (x.kind = .confirmed → s.state = .rejected)) ∨
          (x.kind = .reply ∧ k + n ≠ 0) ∨
          (x.kind = .confirmed ∧ f.kind = .finish ∧ f.state = .rejected ∧
            (step P l.server call).1.incoming.find? id = none)) := by
    intro b hb x hx hid hstate
    obtain ⟨f, g, proof, hfrom, hproven, hg, hencode⟩ := hanswers b (mem_sentBytes.mp hb)
    cases heardIn_sent hencode hx
    obtain ⟨hsame, hkind, hwhy⟩ := hg.rejected hstate
    have hfid : f.id = id := hsame.symm.trans hid
    rw [hfid] at hwhy
    refine ⟨hkind, f, hfrom, hfid, hwhy.imp_right (Or.imp_left fun hopen => ⟨hopen.1, ?_⟩)⟩
    obtain ⟨proof', key, hmem⟩ := hproven hkind
    exact (hopening f proof' key hmem hopen.2).1
  have hrecorded : ∀ s, (step P l.server call).1.incoming.find? id = some s → k + n ≠ 0 := by
    intro s hs
    rw [hs] at hguard
    exact hguard.opened
  refine ⟨hknown, hguard, fun r hr hstate => ?_, fun b hb x hx hid hstate => ?_,
    fun r hr hconfirms => ?_⟩
  · have hn := h.rejected r hr hstate
    omega
  · rcases mem_append.mp hb with hb | hb
    · obtain ⟨hmem, hreply⟩ := h.refused b hb x hx hid hstate
      refine ⟨hmem, fun hkind => ?_⟩
      have hn := hreply hkind
      omega
    · obtain ⟨_, f, hfrom, hfid, ⟨s, hs, _⟩ | ⟨_, hn⟩ | ⟨hkind, hfinish, _⟩⟩ := hnew b hb x hx hid hstate
      · exact ⟨hknown (hrecorded s hs), fun _ => hrecorded s hs⟩
      · exact ⟨hknown hn, fun _ => hn⟩
      · have hasks := (hinv.heard hfrom).1
        rw [Asks, hfinish, hfid] at hasks
        refine ⟨hasks, fun hreply => ?_⟩
        rw [hkind] at hreply
        cases hreply
  · have hold : Confirms id l r → k + n ≠ 0 ∧
        Settled ((step P l.server call).1.incoming.find? id) ∧
        (runsOf id (served ++ executions (step P l.server call).2) = [] ∨
          Ran (served ++ executions (step P l.server call).2) id .rejected) := by
      intro hbefore
      obtain ⟨hn, hsettled, hruns⟩ := h.confirmed r hr hbefore
      have hno : ∀ x ∈ input, x.1.opening id = false := by
        intro x hx
        obtain ⟨proof, hmem⟩ := (hinput x hx).2
        exact Bool.eq_false_of_not_eq_true fun hx' => hn (hopening x.1 proof x.2 hmem hx').2
      obtain ⟨hnone, hstill⟩ := Settled.moves hdoes.moves hno hsettled
      refine ⟨by omega, hstill, hruns.imp (fun hruns => ?_) fun hran => hran.more _⟩
      rw [runsOf_append, hruns, hnone, append_nil]
    rcases hconfirms with ⟨b, hb, x, hx, hid, hkind, hstate⟩ | hresult
    · rcases mem_append.mp hb with hb | hb
      · exact hold (.inl ⟨b, hb, x, hx, hid, hkind, hstate⟩)
      · obtain ⟨_, f, hfrom, rfl, ⟨s, hs, hrejected⟩ | ⟨hreply, _⟩ | ⟨_, hfinish, hfstate, hnone⟩⟩ :=
          hnew b hb x hx hid hstate
        · have hend := hrejected hkind
          refine ⟨hrecorded s hs, fun t ht => ?_, hend ▸ hguard.ended s hs⟩
          cases hs.symm.trans ht
          rw [Incoming.terminal, hend]
          rfl
        · rw [hkind] at hreply
          cases hreply
        · obtain ⟨_, hsame⟩ := (hinv.heard hfrom).2 hfinish r hr
          have hn := h.rejected r hr (hsame.trans hfstate)
          refine ⟨by omega, fun t ht => ?_, (hguard.gone hnone r hr).imp_right ?_⟩
          · rw [show (step P l.server call).1.incoming.find? f.id = some t from ht] at hnone
            cases hnone
          · rintro ⟨-, hran⟩
            rw [hsame, hfstate] at hran
            exact hran
    · exact hold (.inr hresult)

/-! ### Runs -/

theorem Settled.of_server (hs : Settled (l.server.incoming.find? id))
    (hevent : ServerEvent P l out) (hno : out.2.server.countP (Effect.opening id) = 0) :
    runsOf id (executions out.2.server) = [] ∧ Settled (out.1.server.incoming.find? id) := by
  obtain ⟨hdoes, hinput, _⟩ := hevent
  refine Settled.moves hdoes.moves (fun x hx => Bool.eq_false_of_not_eq_true fun hx' => ?_) hs
  obtain ⟨proof, hmem⟩ := (hinput x hx).2
  exact absurd hno (Nat.ne_of_gt (countP_pos_of_accepted hmem hx'))

variable {start : Link} {past : LinkHistory}

theorem guarded_of_trace (hclient : Fresh start.client) (hserver : Fresh start.server)
    (hempty : start.toServer = [] ∧ start.toClient = [])
    (h : Trace (linkStep P) start past l)
    (hnodup : ((submitted past).map Prod.fst).Nodup) (hone : openings id past ≤ 1) :
    Guarded id (submitted past) (openings id past) (executed past) l := by
  induction h with
  | nil =>
    refine ⟨fun hn => absurd rfl hn, ?_, fun r hr => ?_, fun b hb => ?_, fun r hr => ?_⟩
    · rw [hserver.incoming]
      exact .absent (fun _ => rfl) fun _ _ => .inl rfl
    · rw [hclient.outgoing] at hr
      cases hr
    · rw [hempty.2] at hb
      cases hb
    · rw [hclient.outgoing] at hr
      cases hr
  | @cons past l move h ih =>
    have hold := nodup_of_cons hnodup
    have hinv := linkInv_of_trace hclient hserver hempty h hold
    have hevent := hinv.event move hnodup
    rw [openings_cons] at hone ⊢
    rw [executed_cons]
    have hguarded := ih hold (Nat.le_trans (Nat.le_add_left ..) hone)
    generalize submitted ((move, (linkStep P l move).2) :: past) = more at hevent ⊢
    generalize linkStep P l move = out at hevent hone ⊢
    cases hevent with
    | idle =>
      rw [show executions ({} : LinkEffects).server = [] from rfl, append_nil,
        show ({} : LinkEffects).server.countP _ = 0 from rfl, Nat.zero_add]
      exact hguarded
    | client hevent =>
      have hnone : out.2.server = [] := by
        cases hevent
        rfl
      rw [hnone, show executions [] = [] from rfl, append_nil, countP_nil, Nat.zero_add]
      exact hguarded.of_client hevent
    | server hevent => exact hguarded.of_server hinv hevent hone

theorem settled_later (hclient : Fresh start.client) (hserver : Fresh start.server)
    (hempty : start.toServer = [] ∧ start.toClient = []) {later : LinkHistory} {l' : Link}
    (h : Trace (linkStep P) start past l)
    (h' : Trace (linkStep P) start (later ++ past) l')
    (hnodup : ((submitted (later ++ past)).map Prod.fst).Nodup)
    (hsame : openings id (later ++ past) ≤ openings id past)
    (hs : Settled (l.server.incoming.find? id)) :
    runsOf id (executed (later ++ past)) = runsOf id (executed past) ∧
      Settled (l'.server.incoming.find? id) := by
  induction later generalizing l' with
  | nil =>
    cases h.unique h'
    exact ⟨rfl, hs⟩
  | cons x later ih =>
    rw [cons_append] at h' hnodup hsame ⊢
    cases h' with
    | @cons _ l₁ move h₁ =>
      have hold := nodup_of_cons hnodup
      have hevent := (linkInv_of_trace hclient hserver hempty h₁ hold).event move hnodup
      have hgrows := openings_le id later past
      rw [openings_cons] at hsame
      obtain ⟨hruns, hsettled⟩ := ih h₁ hold (by omega)
      rw [executed_cons, runsOf_append, hruns]
      generalize submitted ((move, (linkStep P l₁ move).2) :: (later ++ past)) = more at hevent
      generalize linkStep P l₁ move = out at hevent hsame ⊢
      cases hevent with
      | idle => exact ⟨append_nil _, hsettled⟩
      | client hevent =>
        cases hevent
        exact ⟨append_nil _, hsettled⟩
      | server hevent =>
        dsimp only at hsame
        obtain ⟨hnone, hstill⟩ := hsettled.of_server hevent (by omega)
        rw [hnone, append_nil]
        exact ⟨rfl, hstill⟩

/-- A refused request never executes, if the server accepts at most one opening block of
it: when the client has recorded exit code 255 and not because of an execution that was
rejected, the request has not run and does not run later. -/
theorem remote_refusal_final (hclient : Fresh start.client) (hserver : Fresh start.server)
    (hempty : start.toServer = [] ∧ start.toClient = []) {later : LinkHistory} {l' : Link}
    (h : Transition.Trace (linkStep P) start past l)
    (h' : Transition.Trace (linkStep P) start (later ++ past) l')
    (hnodup : ((submitted (later ++ past)).map Prod.fst).Nodup)
    (hone : openings id (later ++ past) ≤ 1) {r : Outgoing} {body : Bytes}
    (hr : l.client.outgoing.find? id = some r) (hresult : r.result = some ⟨255, body⟩)
    (hrefused : ∀ e ∈ executed past, e.id = id → e.outcome ≠ .rejected) :
    runsOf id (executed (later ++ past)) = [] := by
  have hold : ((submitted past).map Prod.fst).Nodup := by
    rw [submitted, List.flatMap_append, List.map_append] at hnodup
    exact (List.nodup_append.mp hnodup).2.1
  have hgrows := openings_le id later past
  have hguarded := guarded_of_trace hclient hserver hempty h hold (hgrows.trans hone)
  obtain ⟨hn, hsettled, hruns⟩ := hguarded.confirmed r hr (.inr ⟨body, hresult⟩)
  have hnone : runsOf id (executed past) = [] := by
    refine hruns.resolve_right ?_
    rintro ⟨e, he, hid, hrejected⟩
    exact hrefused e he hid hrejected
  rw [(settled_later hclient hserver hempty h h' hnodup (by omega) hsettled).1, hnone]

/-! A request that the server does not permit. -/

def idleClient : RemoteControl := { enabled := true }

def refusingLink : Link := { client := idleClient, server := { enabled := true } }

def sampleRefusal : LinkHistory × Link :=
  Transition.run (linkStep samplePrimitives) refusingLink
    [.submit sampleId ⟨ascii "show stats", []⟩ 5 second 0, .toServer 0 false 0 {},
      .toClient 0 false 0 {}, .toServer 0 false 0 {}, .toClient 0 false 0 {}]

def sampleRefusalLater : LinkHistory :=
  [(.server (.tick second), (linkStep samplePrimitives sampleRefusal.2 (.server (.tick second))).2)]

theorem remote_refusal_final_sample :
    runsOf sampleId (executed (sampleRefusalLater ++ sampleRefusal.1)) = [] := by
  have htrace : Transition.Trace (linkStep samplePrimitives) refusingLink sampleRefusal.1
      sampleRefusal.2 := Transition.trace_run _
  have hlater : Transition.Trace (linkStep samplePrimitives) refusingLink
      (sampleRefusalLater ++ sampleRefusal.1) _ := htrace.cons _
  have hresult : (sampleRefusal.2.client.outgoing.find? sampleId).bind (·.result) =
      some ⟨255, ascii "control access denied\n"⟩ := by decide +kernel
  obtain ⟨r, hr, hexit⟩ := Option.bind_eq_some_iff.mp hresult
  exact remote_refusal_final ⟨rfl, rfl⟩ ⟨rfl, rfl⟩ ⟨rfl, rfl⟩ htrace hlater (by decide +kernel)
    (by decide +kernel) hr hexit (by decide +kernel)

/-! ### A refused request that executes

The client fills the history of the server with requests it gives up before their answers
arrive. Another request restarts its upload after NOT_FOUND, with its first opening block
still under way; the second one is refused for lack of room. Once there is room again the
first one arrives. -/

def LinkMove.copies : LinkMove → Bool
  | .toServer _ copy _ _ => copy
  | .toClient _ copy _ _ => copy
  | _ => false

def parkedId (n : ℕ) : Id := block 16 [UInt8.ofNat (n + 1)]

def parkedRequest : ControlRequest := ⟨ascii "show stats", []⟩

def parkedReply (id : Id) : Frame := { kind := .reply, id, state := .succeeded }

def fillingServer (m : Table) (order : ℕ) : RemoteControl :=
  { access := .all, enabled := true, incoming := m, order }

/-- A table of `n` requests that have run and whose answers nobody has acknowledged. -/
structure Filled (n : ℕ) (m : Table) : Prop where
  size : m.size = n
  idle : Idle m
  unread : ∀ id r, m.find? id = some r → r.acknowledged = false
  keys : ∀ id r, m.find? id = some r → ∃ k < n, id = parkedId k

structure Filling (n : ℕ) (past : LinkHistory) : Prop where
  ids : (submitted past).map Prod.fst = (List.range n).reverse.map parkedId
  executed : ∀ e ∈ executed past, ∃ k < n, e.id = parkedId k
  once : ∀ x ∈ past, x.1.copies = false

theorem parkedId_head (n : ℕ) : (parkedId n).toList.head? = some (UInt8.ofNat (n + 1)) := by
  simp [parkedId, block, Vector.toList_ofFn]

theorem parkedId_inj {i j : ℕ} (hi : i < 255) (hj : j < 255) (h : parkedId i = parkedId j) : i = j := by
  have hhead := parkedId_head i
  rw [h, parkedId_head, Option.some_inj] at hhead
  have hnat := congrArg UInt8.toNat hhead
  simp only [UInt8.toNat_ofNat'] at hnat
  omega

theorem parkedId_ne_zero (hn : n < 255) : parkedId n ≠ zeroBlock 16 := by
  intro h
  have hhead := parkedId_head n
  rw [h, show (zeroBlock 16).toList.head? = some 0 from rfl, Option.some_inj] at hhead
  have hnat := congrArg UInt8.toNat hhead
  simp only [UInt8.toNat_ofNat'] at hnat
  rw [show (0 : UInt8).toNat = 0 from rfl] at hnat
  omega

theorem parse_show : ControlDispatcher.parse (ascii "show stats") = .ok
    { family := ascii "stats", operation := ascii "show", cheap := true, framed := false } := by
  decide +kernel

theorem openingBlock_unproven {id : Id} (hid : id ≠ zeroBlock 16) {request : ControlRequest}
    (hcommand : request.command.length ≤ 256) (chunk : ℕ) :
    (openingBlock id request chunk).Unproven := by
  refine ⟨⟨hcommand, .inl rfl⟩, ?_, rfl, by rintro ⟨⟩⟩
  simp [Frame.acceptable, openingBlock, hid]

theorem answer_parked {r : Incoming} (hstate : r.state = .succeeded) (hresponse : r.response = [])
    (id : Id) (chunk : ℕ) : r.answer id chunk 0 .reply = parkedReply id := by
  have hend : r.terminal := by
    rw [Incoming.terminal, hstate]
    rfl
  rw [Incoming.answer, if_pos hend, hstate, hresponse]
  simp [parkedReply, field]

theorem Filled.run (h : Filled n m) (hn : n < 128) (order : ℕ)
    (hf : f = openingBlock (parkedId n) parkedRequest 512) :
    ∃ m', Filled (n + 1) m' ∧
      (∃ r, m'.find? (parkedId n) = some r ∧ r.state = .succeeded ∧ r.response = []) ∧
      step P (fillingServer m order) (.receive f.bytes 0 {}) =
        (fillingServer m' (order + 1), [.accepted f [] (zeroBlock 32),
          .execute (parkedId n) parkedRequest (some {}), .send (parkedReply (parkedId n)).bytes]) := by
  have hplain : Plain (fillingServer m order) := ⟨rfl, rfl⟩
  have hunproven : f.Unproven := by
    rw [hf]
    exact openingBlock_unproven (parkedId_ne_zero (by omega)) (by decide) 512
  have hfields : f.id = parkedId n ∧ f.kind = .put ∧ f.offset = 0 ∧ f.command = ascii "show stats" ∧
      f.total.toNat = 0 ∧ f.data = [] := by
    rw [hf]
    exact ⟨rfl, rfl, rfl, rfl, rfl, rfl⟩
  obtain ⟨hid, hkind, hoffset, hcommand, htotal, hdata⟩ := hfields
  have hnone : m.find? f.id = none := by
    rw [hid]
    by_contra hsome
    obtain ⟨r, hr⟩ := Option.ne_none_iff_exists'.mp hsome
    obtain ⟨k, hk, hk'⟩ := h.keys _ r hr
    have heq := parkedId_inj (by omega) (by omega) hk'
    omega
  have hroom : (fillingServer m order).admitIncoming = (fillingServer m order, [], true) :=
    admit_room h.idle (by rw [history]; exact h.size.trans_lt hn)
  have hallows : ControlAccess.all.allows .read := by decide
  have hop := parse_show
  rw [← hcommand] at hop
  have hresponse : ({} : Handlers).execute ⟨f.command, f.data⟩ = some {} := rfl
  obtain ⟨m', s, hack, hrequest, hfind, hsize, hhandle⟩ := handle_run (P := P) hplain h.idle hkind
    hoffset hnone hroom hnone hop htotal (by rw [hdata, htotal]; rfl) hallows (zeroBlock 32) 0 rfl
    hresponse
  generalize hr : s.executed (some {}) ((fillingServer m order).order + 1) = r at hfind hhandle
  have hrecord : r.state = .succeeded ∧ r.response = [] ∧ r.acknowledged = false ∧
      r.request.body = [] := by
    rw [← hr]
    refine ⟨rfl, rfl, hack, ?_⟩
    rw [(s.executed_request _ _).1, hrequest, hdata]
  have hend : r.terminal ∧ r.stored = 0 := by
    rw [Incoming.terminal, Incoming.stored, hrecord.1, hrecord.2.1, hrecord.2.2.2]
    exact ⟨rfl, rfl⟩
  have hcases : ∀ {i x}, m'.find? i = some x → (i = parkedId n ∧ x = r) ∨ m.find? i = some x := by
    intro i x hx
    rw [hfind] at hx
    split at hx
    next hi => exact .inl ⟨hi.trans hid, (Option.some.inj hx).symm⟩
    next => exact .inr hx
  refine ⟨m', ⟨hsize.trans (congrArg (· + 1) h.size), fun i x hx => ?_, fun i x hx => ?_,
    fun i x hx => ?_⟩, ⟨r, ?_, hrecord.1, hrecord.2.1⟩, ?_⟩
  · rcases hcases hx with ⟨_, rfl⟩ | hx
    · exact hend
    · exact h.idle i x hx
  · rcases hcases hx with ⟨_, rfl⟩ | hx
    · exact hrecord.2.2.1
    · exact h.unread i x hx
  · rcases hcases hx with ⟨rfl, _⟩ | hx
    · exact ⟨n, Nat.lt_succ_self n, rfl⟩
    · obtain ⟨k, hk, hi⟩ := h.keys i x hx
      exact ⟨k, Nat.lt_succ_of_lt hk, hi⟩
  · rw [hfind, if_pos hid.symm]
  · refine (receive_plain hplain hunproven 0 {}).trans ?_
    rw [hhandle, answer_parked hrecord.1 hrecord.2.1, hid, hcommand, hdata]
    rfl

def fillingLink (client : RemoteControl) (m : Table) (order : ℕ) (toServer toClient : List Bytes) :
    Link :=
  { client, server := fillingServer m order, toServer, toClient }

section Deliveries

variable {client client' : RemoteControl} {m m' : Table} {order order' : ℕ} {effects : List Effect}

theorem fillingLink_call {toServer toClient : List Bytes} {call : Call}
    (h : step P client call = (client', effects)) :
    (fillingLink client m order toServer toClient).clientCall P call =
      (fillingLink client' m order (toServer ++ sentBytes effects) toClient, { client := effects }) := by
  simp only [Link.clientCall, fillingLink, h]

theorem fillingLink_toClient {toServer u : List Bytes} {b : Bytes} {now : Time}
    (h : step P client (.receive b now {}) = (client', effects)) :
    linkStep P (fillingLink client m order toServer (u ++ [b])) (.toClient u.length false now {}) =
      (fillingLink client' m order (toServer ++ sentBytes effects) u, { client := effects }) := by
  have hget : (u ++ [b])[u.length]? = some b := by simp
  have herase : (u ++ [b]).eraseIdx u.length = u := by
    rw [eraseIdx_append_of_length_le le_rfl, Nat.sub_self, eraseIdx_cons_zero,
      append_nil]
  simp only [linkStep, fillingLink, hget, herase, Bool.false_eq_true, if_false]
  exact fillingLink_call h

theorem fillingLink_toServer {toClient u v : List Bytes} {b : Bytes} {now : Time}
    (h : step P (fillingServer m order) (.receive b now {}) = (fillingServer m' order', effects)) :
    linkStep P (fillingLink client m order (u ++ b :: v) toClient) (.toServer u.length false now {}) =
      (fillingLink client m' order' (u ++ v) (toClient ++ sentBytes effects), { server := effects }) := by
  have hget : (u ++ b :: v)[u.length]? = some b := by simp
  have herase : (u ++ b :: v).eraseIdx u.length = u ++ v := by
    rw [eraseIdx_append_of_length_le le_rfl, Nat.sub_self, eraseIdx_cons_zero]
  simp only [linkStep, fillingLink, hget, herase, Bool.false_eq_true, if_false, Link.serverCall, h]

end Deliveries

theorem Filling.more {past : LinkHistory} (h : Filling n past) {b c : Bytes} :
    Filling (n + 1)
      ((.toServer 0 false 0 {}, { server := [.accepted f [] (zeroBlock 32),
          .execute (parkedId n) parkedRequest (some {}), .send b] }) ::
        (.submit (parkedId n) parkedRequest 5 (10 * second) 0,
          { client := [.submitted (parkedId n) parkedRequest, .send c] }) :: past) := by
  refine ⟨?_, fun e he => ?_, fun x hx => ?_⟩
  · rw [range_succ, reverse_append, map_append, ← h.ids]
    simp [submitted]
  · rw [executed_cons, executed_cons] at he
    rcases mem_append.mp he with he | he
    · obtain ⟨k, hk, heq⟩ := h.executed e (by simpa [executions] using he)
      exact ⟨k, Nat.lt_succ_of_lt hk, heq⟩
    have he : e ∈ [(⟨parkedId n, parkedRequest, some {}⟩ : Execution)] := he
    rw [mem_singleton.mp he]
    exact ⟨n, Nat.lt_succ_self n, rfl⟩
  · rcases mem_cons.mp hx with rfl | hx
    · rfl
    rcases mem_cons.mp hx with rfl | hx
    · rfl
    · exact h.once x hx

theorem Filled.trace {past : LinkHistory} {toClient : List Bytes} {start : Link} (h : Filled n m)
    (hn : n < 128) (hpast : Filling n past)
    (ht : Trace (linkStep P) start past (fillingLink idleClient m n [] toClient)) :
    ∃ past' rc m', Filled (n + 1) m' ∧ Filling (n + 1) past' ∧
      (idleClient.submit P (parkedId n) parkedRequest 5 (10 * second) 0).1 = rc ∧
      rc.release (parkedId n) = idleClient ∧
      (∃ r, m'.find? (parkedId n) = some r ∧ r.state = .succeeded ∧ r.response = []) ∧
      Trace (linkStep P) start past'
        (fillingLink rc m' (n + 1) [] (toClient ++ [(parkedReply (parkedId n)).bytes])) := by
  have hidle : Plain idleClient := ⟨rfl, rfl⟩
  have hop : ControlDispatcher.parse parkedRequest.command = .ok _ := parse_show
  obtain ⟨rc, hsubmit, hrelease⟩ := submit_plain (P := P) hidle rfl (parkedId n) hop (by decide) rfl 5
    (10 * second) 0
  obtain ⟨m', hfilled, hrecord, hrun⟩ := h.run (P := P) hn n rfl
  have hfirst : linkStep P (fillingLink idleClient m n [] toClient)
      (.submit (parkedId n) parkedRequest 5 (10 * second) 0) = _ := fillingLink_call hsubmit
  have hsecond : linkStep P
      (fillingLink rc m n ([] ++ (openingBlock (parkedId n) parkedRequest 512).bytes :: []) toClient)
      (.toServer 0 false 0 {}) = _ := fillingLink_toServer hrun
  exact ⟨_, rc, m', hfilled, hpast.more, by rw [hsubmit], hrelease, hrecord,
    (ht.next hfirst).next hsecond⟩

theorem filled_trace (hn : n < 128) :
    ∃ past m toClient, Filled n m ∧ Filling n past ∧
      Trace (linkStep P) (fillingLink idleClient {} 0 [] []) past
        (fillingLink idleClient m n [] toClient) := by
  induction n with
  | zero =>
    have hnone : ∀ {id : Id} {r : Incoming}, ({} : Table).find? id ≠ some r := by
      intro id r hr
      cases hr
    exact ⟨[], {}, [], ⟨rfl, fun _ _ hr => absurd hr hnone, fun _ _ hr => absurd hr hnone,
      fun _ _ hr => absurd hr hnone⟩, ⟨rfl, fun _ he => absurd he not_mem_nil,
      fun _ hx => absurd hx not_mem_nil⟩, .nil⟩
  | succ n ih =>
    obtain ⟨past, m, toClient, hfilled, hpast, ht⟩ := ih (by omega)
    obtain ⟨past', rc, m', hfilled', hpast', _, hrelease, _, ht'⟩ := hfilled.trace (by omega) hpast ht
    have hcall : step P rc (.release (parkedId n)) = (idleClient, []) := by rw [step, hrelease]
    have hthird : linkStep P
        (fillingLink rc m' (n + 1) [] (toClient ++ [(parkedReply (parkedId n)).bytes]))
        (.release (parkedId n)) = _ := fillingLink_call hcall
    refine ⟨(.release (parkedId n), {}) :: past', m', _, hfilled',
      ⟨hpast'.ids, fun e he => ?_, fun x hx => ?_⟩, ht'.next hthird⟩
    · rw [executed_cons] at he
      exact hpast'.executed e ((mem_append.mp he).resolve_right not_mem_nil)
    · rcases mem_cons.mp hx with rfl | hx
      · rfl
      · exact hpast'.once x hx

/-! The history is full after the last request, which the client keeps. -/

def keptId : Id := parkedId 127

def loadId : Id := parkedId 199

def loadRequest : ControlRequest := ⟨ascii "rules load 3", ascii "abc"⟩

def loadBlock : Frame := openingBlock loadId loadRequest 512

def loadStatus : Frame := { id := loadId, kind := .status }

def missingReply : Frame := { id := loadId, kind := .reply, state := .notFound }

def busyReply : Frame := (refusal (ascii "remote control busy")).answer loadId 512 0 .reply

def refusedFinish : Frame := { id := loadId, kind := .finish, state := .rejected, total := 20 }

def refusedConfirmed : Frame := { id := loadId, kind := .confirmed, state := .rejected, total := 20 }

def keptFinish : Frame := { id := keptId, kind := .finish, state := .succeeded }

def clientCalls : List Call :=
  [.submit keptId parkedRequest 5 (10 * second) 0, .submit loadId loadRequest 5 second 0,
    .tick second, .receive missingReply.bytes second {}, .receive busyReply.bytes second {},
    .receive refusedConfirmed.bytes second {}, .receive (parkedReply keptId).bytes second {}]

def clientAfter : ℕ → RemoteControl
  | 0 => idleClient
  | k + 1 => (clientCalls[k]?).elim (clientAfter k) fun call =>
    (step samplePrimitives (clientAfter k) call).1

theorem clientAfter_step {k : ℕ} {call : Call} {effects : List Effect}
    (h : clientCalls[k]? = some call)
    (he : (step samplePrimitives (clientAfter k) call).2 = effects) :
    step samplePrimitives (clientAfter k) call = (clientAfter (k + 1), effects) := by
  rw [clientAfter, h, Option.elim_some, ← he]

theorem clientAfter_steps :
    step samplePrimitives (clientAfter 1) (.submit loadId loadRequest 5 second 0) =
        (clientAfter 2, [.submitted loadId loadRequest, .send loadBlock.bytes]) ∧
      step samplePrimitives (clientAfter 2) (.tick second) =
        (clientAfter 3, [.send loadStatus.bytes]) ∧
      step samplePrimitives (clientAfter 3) (.receive missingReply.bytes second {}) =
        (clientAfter 4, [.accepted missingReply [] (zeroBlock 32), .send loadBlock.bytes]) ∧
      step samplePrimitives (clientAfter 4) (.receive busyReply.bytes second {}) =
        (clientAfter 5, [.accepted busyReply [] (zeroBlock 32), .send refusedFinish.bytes]) ∧
      step samplePrimitives (clientAfter 5) (.receive refusedConfirmed.bytes second {}) =
        (clientAfter 6, [.accepted refusedConfirmed [] (zeroBlock 32)]) ∧
      step samplePrimitives (clientAfter 6) (.receive (parkedReply keptId).bytes second {}) =
        (clientAfter 7, [.accepted (parkedReply keptId) [] (zeroBlock 32), .send keptFinish.bytes]) := by
  refine ⟨clientAfter_step (k := 1) rfl ?_, clientAfter_step (k := 2) rfl ?_,
    clientAfter_step (k := 3) rfl ?_, clientAfter_step (k := 4) rfl ?_,
    clientAfter_step (k := 5) rfl ?_, clientAfter_step (k := 6) rfl ?_⟩ <;> decide +kernel

theorem clientAfter_result : ((clientAfter 6).outgoing.find? loadId).bind (·.result) =
    some ⟨255, ascii "remote control busy\n"⟩ := by
  decide +kernel

theorem Filled.refuses (h : Filled 128 m) (order : ℕ) (now : Time) :
    m.find? loadId = none ∧
    step P (fillingServer m order) (.receive loadStatus.bytes now {}) =
        (fillingServer m order,
          [.accepted loadStatus [] (zeroBlock 32), .send missingReply.bytes]) ∧
      step P (fillingServer m order) (.receive loadBlock.bytes now {}) =
        (fillingServer m order, [.accepted loadBlock [] (zeroBlock 32), .send busyReply.bytes]) ∧
      step P (fillingServer m order) (.receive refusedFinish.bytes now {}) =
        (fillingServer m order,
          [.accepted refusedFinish [] (zeroBlock 32), .send refusedConfirmed.bytes]) := by
  have hplain : Plain (fillingServer m order) := ⟨rfl, rfl⟩
  have hnone : m.find? loadId = none := by
    by_contra hsome
    obtain ⟨r, hr⟩ := Option.ne_none_iff_exists'.mp hsome
    obtain ⟨k, hk, heq⟩ := h.keys _ r hr
    have hk' := parkedId_inj (by decide) (by omega) heq
    omega
  have hstatus : loadStatus.Unproven := ⟨by decide, by decide +kernel, rfl, by rintro ⟨⟩⟩
  have hblock : loadBlock.Unproven := ⟨by decide, by decide +kernel, rfl, by rintro ⟨⟩⟩
  have hfinish : refusedFinish.Unproven := ⟨by decide, by decide +kernel, rfl, by rintro ⟨⟩⟩
  refine ⟨hnone, ?_, ?_, ?_⟩
  · refine (receive_plain hplain hstatus now {}).trans ?_
    have hkind : loadStatus.kind = .status := rfl
    rw [handle_status hplain hkind hnone]
    rfl
  · have hfull : (fillingServer m order).admitIncoming = (fillingServer m order, [], false) :=
      admit_full h.idle h.size.ge h.unread
    have hkind : loadBlock.kind = .put := rfl
    refine (receive_plain hplain hblock now {}).trans ?_
    rw [handle_full hplain hkind rfl hnone hfull]
    rfl
  · refine (receive_plain hplain hfinish now {}).trans ?_
    have hkind : refusedFinish.kind = .finish := rfl
    rw [handle_unrecorded hplain hkind rfl hnone]
    rfl

theorem parse_load : ControlDispatcher.parse loadBlock.command = .ok
    { family := ascii "rules", operation := ascii "load", length := 3, permission := .rulesWrite,
      mutation := true } := by
  decide +kernel

theorem Filled.acknowledged (h : Filled 128 m) {r : Incoming} (hr : m.find? keptId = some r)
    (hstate : r.state = .succeeded) (hresponse : r.response = []) (order : ℕ) (now : Time) :
    ∃ m' b, step P (fillingServer m order) (.receive keptFinish.bytes now {}) =
        (fillingServer m' order, [.accepted keptFinish [] (zeroBlock 32), .send b]) ∧
      .execute loadId loadRequest (some {}) ∈
        (step P (fillingServer m' order) (.receive loadBlock.bytes now {})).2 := by
  have hplain : ∀ m, Plain (fillingServer m order) := fun _ => ⟨rfl, rfl⟩
  have hfinish : keptFinish.Unproven := ⟨by decide, by decide +kernel, rfl, by rintro ⟨⟩⟩
  have hblock : loadBlock.Unproven := ⟨by decide, by decide +kernel, rfl, by rintro ⟨⟩⟩
  have hend := h.idle _ _ hr
  have hkind : keptFinish.kind = .finish := rfl
  have hfind : (fillingServer m order).incoming.find? keptFinish.id = some r := hr
  obtain ⟨b, hhandle⟩ := handle_finish (P := P) (hplain m) hkind hfind
    ⟨hend.1, hstate.symm, by rw [hresponse]; rfl⟩ (zeroBlock 32) now {}
  have hnone := (h.refuses (P := P) order now).1
  generalize hm : m.insert keptId { r with acknowledged := true } = m' at hhandle
  refine ⟨m', b, ?_, ?_⟩
  · refine (receive_plain (hplain m) hfinish now {}).trans ?_
    rw [hhandle, ← hm]
    rfl
  · have hne : loadId ≠ keptId := fun heq => by
      have hk := parkedId_inj (by decide) (by decide) heq
      omega
    have hidle : Idle m' := hm ▸ h.idle.insert keptId hend
    have hnone' : m'.find? loadId = none := by
      rw [← hm, OrderedMap.find?_insert, if_neg hne]
      exact hnone
    have hsize : m'.size = 128 := by
      have htotal := OrderedMap.total_insert_of_some hr { r with acknowledged := true } fun _ => 1
      have hfull := h.size
      rw [OrderedMap.size_eq_total] at hfull ⊢
      rw [← hm]
      omega
    have hacked : m'.find? keptId = some { r with acknowledged := true } := by
      rw [← hm, OrderedMap.find?_insert, if_pos rfl]
    obtain ⟨i, effects, hroom⟩ := admit_evicts (hplain m') hidle hsize hacked rfl
    have hgone : (m'.erase i).find? loadId = none := by
      rw [OrderedMap.find?_erase, hnone', ite_self]
    have hput : loadBlock.kind = .put := rfl
    have hallows : ControlAccess.all.allows .rulesWrite := by decide
    have hrun : ({} : Handlers).execute ⟨loadBlock.command, loadBlock.data⟩ = some {} := rfl
    obtain ⟨_, _, _, _, _, _, hexecute⟩ := handle_run (P := P) (hplain (m'.erase i)) (hidle.erase i) hput
      rfl hnone' hroom hgone parse_load (by decide) (by decide) hallows (zeroBlock 32) now rfl hrun
    have hreceive : step P (fillingServer m' order) (.receive loadBlock.bytes now {}) = _ :=
      receive_plain (hplain m') hblock now {}
    rw [hreceive, hexecute]
    exact mem_cons_of_mem _ (mem_append_right _ mem_cons_self)

section Run

variable {m : Table} {past : LinkHistory} {toClient : List Bytes} {start : Link}

theorem Filled.refused (h : Filled 128 m) (hpast : Filling 128 past)
    (ht : Trace (linkStep samplePrimitives) start past
      (fillingLink (clientAfter 1) m 128 [] toClient)) :
    ∃ past', (submitted past').map Prod.fst = loadId :: (submitted past).map Prod.fst ∧
      executed past' = executed past ∧ (∀ x ∈ past', x.1.copies = false) ∧
      Trace (linkStep samplePrimitives) start past'
        (fillingLink (clientAfter 6) m 128 [loadBlock.bytes] toClient) := by
  obtain ⟨hc1, hc2, hc3, hc4, hc5, _⟩ := clientAfter_steps
  obtain ⟨_, hs1, hs2, hs3⟩ := h.refuses (P := samplePrimitives) 128 second
  have h1 : linkStep samplePrimitives (fillingLink (clientAfter 1) m 128 [] toClient)
      (.submit loadId loadRequest 5 second 0) =
        (fillingLink (clientAfter 2) m 128 [loadBlock.bytes] toClient, _) := fillingLink_call hc1
  have h2 : linkStep samplePrimitives (fillingLink (clientAfter 2) m 128 [loadBlock.bytes] toClient)
      (.client (.tick second)) =
        (fillingLink (clientAfter 3) m 128 [loadBlock.bytes, loadStatus.bytes] toClient, _) :=
    fillingLink_call hc2
  have h3 : linkStep samplePrimitives
      (fillingLink (clientAfter 3) m 128 [loadBlock.bytes, loadStatus.bytes] toClient)
      (.toServer 1 false second {}) =
        (fillingLink (clientAfter 3) m 128 [loadBlock.bytes] (toClient ++ [missingReply.bytes]), _) :=
    fillingLink_toServer (u := [loadBlock.bytes]) (v := []) hs1
  have h4 : linkStep samplePrimitives
      (fillingLink (clientAfter 3) m 128 [loadBlock.bytes] (toClient ++ [missingReply.bytes])) _ =
        (fillingLink (clientAfter 4) m 128 [loadBlock.bytes, loadBlock.bytes] toClient, _) :=
    fillingLink_toClient hc3
  have h5 : linkStep samplePrimitives
      (fillingLink (clientAfter 4) m 128 [loadBlock.bytes, loadBlock.bytes] toClient)
      (.toServer 1 false second {}) =
        (fillingLink (clientAfter 4) m 128 [loadBlock.bytes] (toClient ++ [busyReply.bytes]), _) :=
    fillingLink_toServer (u := [loadBlock.bytes]) (v := []) hs2
  have h6 : linkStep samplePrimitives
      (fillingLink (clientAfter 4) m 128 [loadBlock.bytes] (toClient ++ [busyReply.bytes])) _ =
        (fillingLink (clientAfter 5) m 128 [loadBlock.bytes, refusedFinish.bytes] toClient, _) :=
    fillingLink_toClient hc4
  have h7 : linkStep samplePrimitives
      (fillingLink (clientAfter 5) m 128 [loadBlock.bytes, refusedFinish.bytes] toClient)
      (.toServer 1 false second {}) =
        (fillingLink (clientAfter 5) m 128 [loadBlock.bytes] (toClient ++ [refusedConfirmed.bytes]), _) :=
    fillingLink_toServer (u := [loadBlock.bytes]) (v := []) hs3
  have h8 : linkStep samplePrimitives
      (fillingLink (clientAfter 5) m 128 [loadBlock.bytes] (toClient ++ [refusedConfirmed.bytes])) _ =
        (fillingLink (clientAfter 6) m 128 [loadBlock.bytes] toClient, _) :=
    fillingLink_toClient hc5
  refine ⟨_, ?_, ?_, ?_,
    (((((((ht.next h1).next h2).next h3).next h4).next h5).next h6).next h7).next h8⟩
  · simp [submitted]
  · simp [executed_cons, executions, Effect.execution?]
  · simp only [forall_mem_cons]
    exact ⟨rfl, rfl, rfl, rfl, rfl, rfl, rfl, rfl, hpast.once⟩

theorem Filled.executes (h : Filled 128 m) {kept : Incoming} (hkept : m.find? keptId = some kept)
    (hstate : kept.state = .succeeded) (hresponse : kept.response = [])
    (ht : Trace (linkStep samplePrimitives) start past (fillingLink (clientAfter 6) m 128
      [loadBlock.bytes] (toClient ++ [(parkedReply keptId).bytes]))) :
    ∃ later l', submitted (later ++ past) = submitted past ∧
      runsOf loadId (executed (later ++ past)) ≠ [] ∧ (∀ x ∈ later, x.1.copies = false) ∧
      Trace (linkStep samplePrimitives) start (later ++ past) l' := by
  obtain ⟨_, _, _, _, _, hc6⟩ := clientAfter_steps
  obtain ⟨m', b, hs4, hs5⟩ := h.acknowledged (P := samplePrimitives) hkept hstate hresponse 128 second
  have h9 : linkStep samplePrimitives (fillingLink (clientAfter 6) m 128 [loadBlock.bytes]
      (toClient ++ [(parkedReply keptId).bytes])) _ =
        (fillingLink (clientAfter 7) m 128 [loadBlock.bytes, keptFinish.bytes] toClient, _) :=
    fillingLink_toClient hc6
  have h10 : linkStep samplePrimitives
      (fillingLink (clientAfter 7) m 128 [loadBlock.bytes, keptFinish.bytes] toClient)
      (.toServer 1 false second {}) =
        (fillingLink (clientAfter 7) m' 128 [loadBlock.bytes] (toClient ++ [b]), _) :=
    fillingLink_toServer (u := [loadBlock.bytes]) (v := []) hs4
  have hlater := ((ht.next h9).next h10).cons (.toServer 0 false second {})
  refine ⟨[_, _, _], _, rfl, ?_, ?_, hlater⟩
  · have hrun : (⟨loadId, loadRequest, some {}⟩ : Execution) ∈ executions
        (step samplePrimitives (fillingServer m' 128) (.receive loadBlock.bytes second {})).2 :=
      mem_filterMap.mpr ⟨_, hs5, rfl⟩
    rw [cons_append, executed_cons, runsOf_append]
    exact append_ne_nil_of_right_ne_nil _
      (ne_nil_of_mem (mem_filter.mpr ⟨hrun, decide_eq_true rfl⟩))
  · simp only [forall_mem_cons]
    exact ⟨rfl, rfl, rfl, by simp⟩

end Run

/-- A request that the server has refused for lack of room, and that the client has
recorded with exit code 255, executes later. No frame is delivered twice. -/
theorem refused_request_executes : ∃ (start l l' : Link) (past later : LinkHistory) (r : Outgoing),
    Fresh start.client ∧ Fresh start.server ∧ (start.toServer = [] ∧ start.toClient = []) ∧
      Transition.Trace (linkStep samplePrimitives) start past l ∧
      Transition.Trace (linkStep samplePrimitives) start (later ++ past) l' ∧
      ((submitted (later ++ past)).map Prod.fst).Nodup ∧
      (∀ x ∈ later ++ past, x.1.copies = false) ∧
      l.client.outgoing.find? loadId = some r ∧
      r.result = some ⟨255, ascii "remote control busy\n"⟩ ∧
      (∀ e ∈ executed past, e.id = loadId → e.outcome ≠ .rejected) ∧
      runsOf loadId (executed (later ++ past)) ≠ [] := by
  obtain ⟨_, _, toClient, hfilled, hfirst, ht⟩ := filled_trace (P := samplePrimitives)
    (show 127 < 128 by decide)
  obtain ⟨past, rc, m, hfull, hpast, hrc, _, ⟨kept, hkept, hstate, hresponse⟩, ht⟩ :=
    hfilled.trace (by decide) hfirst ht
  have hrc : rc = clientAfter 1 := hrc.symm
  subst hrc
  obtain ⟨past', hids, hexecuted, honce, ht⟩ := hfull.refused hpast ht
  obtain ⟨later, l', hsubmitted, hruns, honce', ht'⟩ := hfull.executes hkept hstate hresponse ht
  obtain ⟨r, hr, hresult⟩ := Option.bind_eq_some_iff.mp clientAfter_result
  have hother : ∀ {k}, k < 128 → parkedId k ≠ loadId := by
    intro k hk heq
    have hk' := parkedId_inj (by omega) (by decide) heq
    omega
  refine ⟨_, _, l', past', later, r, ⟨rfl, rfl⟩, ⟨rfl, rfl⟩, ⟨rfl, rfl⟩, ht, ht', ?_, ?_, hr, hresult,
    ?_, hruns⟩
  · rw [hsubmitted, hids, hpast.ids, List.nodup_cons]
    constructor
    · intro hmem
      obtain ⟨k, hk, heq⟩ := List.mem_map.mp hmem
      rw [List.mem_reverse, List.mem_range] at hk
      exact hother hk heq
    · refine (List.nodup_reverse.mpr List.nodup_range).map_on fun i hi j hj heq => ?_
      rw [List.mem_reverse, List.mem_range] at hi hj
      exact parkedId_inj (by omega) (by omega) heq
  · intro x hx
    exact (List.mem_append.mp hx).elim (honce' x) (honce x)
  · intro e he hid
    rw [hexecuted] at he
    obtain ⟨k, hk, heq⟩ := hpast.executed e he
    exact absurd (heq.symm.trans hid) (hother hk)

end Tuntom.Control
