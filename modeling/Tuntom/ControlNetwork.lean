import Tuntom.ControlForward

/-! Networks of control routers: links between edges, frames under way, and what
traffic leaves unchanged at a router. -/
namespace Tuntom.ControlRoute
open Control (Id zeroBlock AuthorityKey)
open Transition (Trace)

namespace Router

variable {P : Primitives} {r : Router} {f : Frame}

structure Linked (r r' : Router) : Prop where
  instanceId : r'.instanceId = r.instanceId
  allowed : r'.allowed = r.allowed
  size : r'.edges.size = r.edges.size
  found : ∀ name e, r.edges.find? name = some e → ∃ token, (e.token ≠ zeroBlock 16 → token = e.token) ∧
    r'.edges.find? name = some { e with token }
  none : ∀ name, r.edges.find? name = none → r'.edges.find? name = none

theorem Linked.of_eq {r r' : Router} (hinstance : r'.instanceId = r.instanceId)
    (hallowed : r'.allowed = r.allowed) (hedges : r'.edges = r.edges) : Linked r r' := by
  refine ⟨hinstance, hallowed, by rw [hedges], fun name e h => ⟨e.token, fun _ => rfl, ?_⟩, fun _ h => ?_⟩
  · rw [hedges]
    exact h
  · rw [hedges]
    exact h

theorem Linked.refl (r : Router) : Linked r r := .of_eq rfl rfl rfl

theorem Linked.trans {r s t : Router} (h : Linked r s) (h' : Linked s t) : Linked r t where
  instanceId := h'.instanceId.trans h.instanceId
  allowed := h'.allowed.trans h.allowed
  size := h'.size.trans h.size
  found := by
    intro name e he
    obtain ⟨token, hkeep, hfind⟩ := h.found name e he
    obtain ⟨token', hkeep', hfind'⟩ := h'.found name _ hfind
    refine ⟨token', fun hne => ?_, hfind'⟩
    have htoken := hkeep hne
    rw [hkeep' (by rw [htoken]; exact hne), htoken]
  none := fun name hnone => h'.none name (h.none name hnone)

theorem withToken_linked {ingress : Bytes} {e : Edge} (hedge : r.edges.find? ingress = some e)
    (token : Id) : Linked r (r.withToken ingress e token).1 := by
  rw [withToken]
  split
  next hzero =>
    refine ⟨rfl, rfl, OrderedMap.size_insert_of_some hedge _, fun name d hd => ?_, fun name hnone => ?_⟩
    · by_cases hname : name = ingress
      · subst hname
        rw [hedge] at hd
        cases hd
        refine ⟨token, fun hne => absurd hzero hne, ?_⟩
        rw [OrderedMap.find?_insert, if_pos rfl]
      · refine ⟨d.token, fun _ => rfl, ?_⟩
        rw [OrderedMap.find?_insert, if_neg hname]
        exact hd
    · have hname : name ≠ ingress := by
        rintro rfl
        rw [hedge] at hnone
        cases hnone
      rw [OrderedMap.find?_insert, if_neg hname]
      exact hnone
  next => exact .refl r

theorem tick_linked (r : Router) (now : Time) : Linked r (r.tick now) := .of_eq rfl rfl rfl

theorem arrived_linked {ingress : Bytes} {e : Edge} (hedge : r.edges.find? ingress = some e)
    (now : Time) (fresh : Fresh) : Linked r (r.arrived ingress e now fresh) :=
  (withToken_linked hedge fresh.token).trans (tick_linked _ now)

theorem answer_linked (r : Router) (f : Frame) (kind : Kind) (proven : Option AuthorityKey) :
    Linked r (r.answer P f kind proven).1 := by
  rw [answer]
  dsimp only
  split
  · exact .refl r
  split
  · exact .refl r
  · exact .of_eq rfl rfl rfl

theorem announce_linked (r : Router) (f : Frame) (ingress : Bytes) (now : Time)
    (proven : Option AuthorityKey) : Linked r (r.announce P f ingress now proven).1 := by
  rw [announce]
  split
  · split
    · exact .refl r
    · refine .trans ?_ (answer_linked _ _ _ _)
      exact .of_eq rfl rfl rfl
  dsimp only
  split
  · exact .of_eq rfl rfl rfl
  · refine .trans ?_ (answer_linked _ _ _ _)
    exact .of_eq rfl rfl rfl

theorem challengeDiscovery_linked (r : Router) (f : Frame) (ingress : Bytes) (now : Time)
    (secret : Option (Block 32)) : Linked r (r.challengeDiscovery P f ingress now secret).1 := by
  have hrate : Linked r (r.rateWindow now) := by
    rw [rateWindow]
    split
    · exact .of_eq rfl rfl rfl
    · exact .refl r
  have hcases := challengeDiscovery_cases (P := P) r f ingress now secret
  generalize r.challengeDiscovery P f ingress now secret = result at hcases
  cases hcases with
  | silent => exact hrate.trans (.of_eq rfl rfl rfl)
  | issued i hingress htime =>
    subst htime
    exact hrate.trans (.of_eq rfl rfl rfl)

theorem proveDiscovery_linked (r : Router) (f : Frame) (now : Time) :
    Linked r (r.proveDiscovery P f now).1 := by
  rw [proveDiscovery]
  dsimp only
  split
  · exact .refl r
  split
  · exact .refl r
  split
  · exact .refl r
  split
  · exact .of_eq rfl rfl rfl
  · refine .trans ?_ (announce_linked _ _ _ _ _)
    exact .of_eq rfl rfl rfl

theorem discover_linked (r : Router) (f : Frame) (ingress : Bytes) (now : Time)
    (secret : Option (Block 32)) : Linked r (r.discover P f ingress now secret).1 := by
  rw [discover]
  split
  · exact announce_linked _ _ _ _ _
  split
  · exact challengeDiscovery_linked _ _ _ _ _
  · exact proveDiscovery_linked _ _ _

theorem receive_linked (r : Router) (ingress bytes : Bytes) (now : Time) (fresh : Fresh) :
    Linked r (r.receive P ingress bytes now fresh).1 := by
  have hcases := receive_cases (P := P) r ingress bytes now fresh
  generalize r.receive P ingress bytes now fresh = result at hcases
  cases hcases with
  | ignored | tooDeep => exact .refl r
  | routed f e hdecode hedge => exact arrived_linked hedge now fresh
  | discovered f e hdecode hedge =>
    exact (arrived_linked hedge now fresh).trans (discover_linked _ _ _ _ _)

structure SinglePeer (r : Router) : Prop where
  named : ∀ name e, r.edges.find? name = some e → e.name = name
  peer : ∀ n e m d, r.edges.find? n = some e → r.edges.find? m = some d → e.peer = true →
    d.peer = true → n = m

theorem Linked.before {r r' : Router} (h : Linked r r') {name : Bytes} {e' : Edge}
    (he' : r'.edges.find? name = some e') :
    ∃ e, r.edges.find? name = some e ∧ (e.token ≠ zeroBlock 16 → e'.token = e.token) ∧
      e' = { e with token := e'.token } := by
  rcases hfind : r.edges.find? name with _ | e
  · rw [h.none name hfind] at he'
    cases he'
  obtain ⟨token, hkeep, hfind'⟩ := h.found name e hfind
  rw [hfind'] at he'
  cases he'
  exact ⟨e, rfl, hkeep, rfl⟩

theorem SinglePeer.linked {r r' : Router} (h : r.SinglePeer) (hlinked : Linked r r') :
    r'.SinglePeer where
  named := by
    intro name e' he'
    obtain ⟨e, he, -, heq⟩ := hlinked.before he'
    rw [heq]
    exact h.named name e he
  peer := by
    intro n e' m d' he' hd' hpeer hpeer'
    obtain ⟨e, he, -, heq⟩ := hlinked.before he'
    obtain ⟨d, hd, -, hdq⟩ := hlinked.before hd'
    rw [heq] at hpeer
    rw [hdq] at hpeer'
    exact h.peer n e m d he hd hpeer hpeer'

theorem mem_of_resolve {hop : Hop} {out : Edge} (h : r.resolve hop = some out) :
    (∃ name, r.edges.find? name = some out) ∧ matchesHop hop out = true := by
  rw [resolve] at h
  obtain ⟨⟨name, e⟩, hmem, rfl⟩ := List.mem_map.mp (List.mem_of_find?_eq_some h)
  exact ⟨⟨name, OrderedMap.find?_eq_some_iff.mpr hmem⟩, List.find?_some h⟩

theorem SinglePeer.resolve_hopOf (h : r.SinglePeer) {name : Bytes} {e out : Edge}
    (he : r.edges.find? name = some e) (hresolve : r.resolve (hopOf e) = some out) :
    out.name = name := by
  obtain ⟨⟨n, hn⟩, hmatch⟩ := mem_of_resolve hresolve
  rw [hopOf] at hmatch
  split at hmatch
  next hpeer =>
    rw [h.named n out hn]
    exact h.peer n out name e hn he hmatch hpeer
  next =>
  have hname := (of_decide_eq_true hmatch).2
  rw [show out.name = e.name from hname]
  exact h.named name e he

end Router

/-! ### Frames under way -/

structure Packet (ι : Type*) where
  node : ι
  ingress : Bytes
  bytes : Bytes
  deriving DecidableEq, Repr

structure Net (ι : Type*) where
  routers : ι → Router
  flight : List (Packet ι) := []

abbrev Links (ι : Type*) := ι → Bytes → Option (ι × Bytes)

inductive NetOp (ι : Type*)
  | discover (node : ι) (now : Time) (path : Path) (request : Id)
  | deliver (index : ℕ) (now : Time) (fresh : Fresh)
  | duplicate (index : ℕ)
  | lose (index : ℕ)
  deriving DecidableEq, Repr

namespace Net

variable {ι : Type*} [DecidableEq ι] (P : Primitives) (links : Links ι)

def arriving (links : Links ι) (node : ι) : Effect → Option (Packet ι)
  | .sent edge bytes => (links node edge).map fun far => ⟨far.1, far.2, bytes⟩
  | .delivered _ => none

def call (net : Net ι) (node : ι) (call : Call) : Net ι × Option (ι × (Call × Watched)) :=
  let out := (net.routers node).watch P call
  ({ routers := Function.update net.routers node out.1
     flight := net.flight ++ out.2.emitted.effects.filterMap (arriving links node) },
    some (node, (call, out.2)))

def step (net : Net ι) : NetOp ι → Net ι × Option (ι × (Call × Watched))
  | .discover node now path request => net.call P links node (.beginDiscovery now path request)
  | .deliver index now fresh =>
    match net.flight[index]? with
    | none => (net, none)
    | some p =>
      ({ net with flight := net.flight.eraseIdx index } : Net ι).call P links p.node
        (.receive p.ingress p.bytes now fresh)
  | .duplicate index =>
    match net.flight[index]? with
    | none => (net, none)
    | some p => ({ net with flight := p :: net.flight }, none)
  | .lose index => ({ net with flight := net.flight.eraseIdx index }, none)

abbrev History (ι : Type*) := List (NetOp ι × Option (ι × (Call × Watched)))

def eventsAt (node : ι) (past : History ι) : List (Call × Watched) :=
  past.filterMap fun x => x.2.bind fun y => if y.1 = node then some y.2 else none

variable {P links}

theorem step_cases (net : Net ι) (op : NetOp ι) :
    ((net.step P links op).2 = none ∧ (net.step P links op).1.routers = net.routers) ∨
    ∃ node call, (net.step P links op).2 = some (node, (call, ((net.routers node).watch P call).2)) ∧
      (net.step P links op).1.routers =
        Function.update net.routers node ((net.routers node).watch P call).1 ∧
      ((∃ now path request, op = .discover node now path request ∧
          call = .beginDiscovery now path request) ∨
        ∃ index now fresh p, op = .deliver index now fresh ∧ net.flight[index]? = some p ∧
          node = p.node ∧ call = .receive p.ingress p.bytes now fresh) := by
  cases op with
  | discover node now path request => exact .inr ⟨node, _, rfl, rfl, .inl ⟨now, path, request, rfl, rfl⟩⟩
  | deliver index now fresh =>
    rw [step]
    split
    · exact .inl ⟨rfl, rfl⟩
    next p hp => exact .inr ⟨p.node, _, rfl, rfl, .inr ⟨index, now, fresh, p, rfl, hp, rfl, rfl⟩⟩
  | duplicate index =>
    rw [step]
    split
    · exact .inl ⟨rfl, rfl⟩
    · exact .inl ⟨rfl, rfl⟩
  | lose index => exact .inl ⟨rfl, rfl⟩

theorem trace_eventsAt {start net : Net ι} {past : History ι}
    (h : Trace (step P links) start past net) (node : ι) :
    Trace (Router.watch P) (start.routers node) (eventsAt node past) (net.routers node) := by
  refine Trace.invariant (fun past (net : Net ι) =>
    Trace (Router.watch P) (start.routers node) (eventsAt node past) (net.routers node)) .nil ?_ h
  intro past net op _ ih
  rcases @step_cases ι _ P links net op with ⟨hnone, hrouters⟩ | ⟨u, call, hsome, hrouters, -⟩
  · rw [hrouters, eventsAt, List.filterMap_cons, hnone]
    exact ih
  rw [hrouters, eventsAt, List.filterMap_cons, hsome]
  by_cases hnode : u = node
  · subst hnode
    rw [Function.update_self]
    simp only [Option.bind_some, if_true]
    exact ih.cons call
  rw [Function.update_of_ne (Ne.symm hnode)]
  simp only [Option.bind_some, if_neg hnode]
  exact ih

end Net

def pairNet : Net Bool where
  routers side :=
    { instanceId := Vector.replicate 16 (if side then 7 else 8)
      component := ascii "tunnel"
      allowed := true
      edges := ({} : OrderedMap Bytes Edge).insert (ascii "peer")
        { name := ascii "peer", generation := 1, peer := true, limit := maxFrame } }

def pairLinks : Links Bool := fun side edge => if edge = ascii "peer" then some (!side, edge) else none

theorem pairNet_edges {side : Bool} {name : Bytes} {e : Edge}
    (h : (pairNet.routers side).edges.find? name = some e) :
    name = ascii "peer" ∧
      e = { name := ascii "peer", generation := 1, peer := true, limit := maxFrame } := by
  rw [show (pairNet.routers side).edges = ({} : OrderedMap Bytes Edge).insert (ascii "peer")
    { name := ascii "peer", generation := 1, peer := true, limit := maxFrame } from rfl,
    OrderedMap.find?_insert] at h
  split at h
  next hname => exact ⟨hname, (Option.some.inj h).symm⟩
  next => cases h

theorem pairNet_singlePeer (side : Bool) : (pairNet.routers side).SinglePeer := by
  refine ⟨fun name e h => ?_, fun n e m d hn hm _ _ => ?_⟩
  · obtain ⟨rfl, rfl⟩ := pairNet_edges h
    rfl
  · rw [(pairNet_edges hn).1, (pairNet_edges hm).1]

end Tuntom.ControlRoute
