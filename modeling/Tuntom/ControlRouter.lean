import Tuntom.ControlRoute
import Tuntom.Transition

/-! The control router of `control_router.hpp`: edges and their link tokens,
forwarding with route errors, and discovery with its suppression tables and its
challenges. -/
namespace Tuntom.ControlRoute
open Control (Id zeroBlock AuthorityKey AuthConfig Auth Challenge)

structure Edge where
  name : Bytes
  generation : UInt64
  token : Id := zeroBlock 16
  peer : Bool
  limit : ℕ := 0
  deriving DecidableEq, Repr

structure DiscoveryKey where
  origin : Id
  request : Id
  deriving DecidableEq, Repr

instance : LT DiscoveryKey :=
  ⟨fun a b => a.origin < b.origin ∨ (a.origin = b.origin ∧ a.request < b.request)⟩

instance : DecidableLT DiscoveryKey := fun a b =>
  inferInstanceAs (Decidable (a.origin < b.origin ∨ (a.origin = b.origin ∧ a.request < b.request)))

structure DiscoverySession where
  auth : Auth
  request : Frame
  ingress : Bytes := []
  expires : Time
  deriving DecidableEq, Repr

structure Router where
  instanceId : Id
  component : Bytes
  allowed : Bool := false
  discoveryRequired : Bool := false
  authConfig : AuthConfig := {}
  discoveryIn : OrderedMap AuthorityKey DiscoverySession := {}
  discoveryOut : OrderedMap AuthorityKey DiscoverySession := {}
  discoveryRateEpoch : Time := 0
  discoveryChallenges : ℕ := 0
  edges : OrderedMap Bytes Edge := {}
  seen : OrderedMap DiscoveryKey Time := {}
  alternatives : OrderedMap DiscoveryKey (Time × ℕ) := {}
  deriving DecidableEq, Repr

def discoverySessions : ℕ := 128
def discoveryLifetime : Time := 30 * second

def Frame.key (f : Frame) : DiscoveryKey := { origin := f.origin, request := f.request }

inductive Effect
  | sent (edge : Bytes) (bytes : Bytes)
  | delivered (frame : Frame)
  deriving DecidableEq, Repr

structure Emitted where
  effects : List Effect := []
  threw : Bool := false
  deriving DecidableEq, Repr

namespace Emitted

def andThen (a b : Emitted) : Emitted :=
  if a.threw then a else { effects := a.effects ++ b.effects, threw := b.threw }

def each {α : Type*} (f : α → Emitted) : List α → Emitted
  | [] => {}
  | a :: rest => (f a).andThen (each f rest)

theorem mem_andThen {a b : Emitted} {e : Effect} (h : e ∈ (a.andThen b).effects) :
    e ∈ a.effects ∨ e ∈ b.effects := by
  rw [andThen] at h
  split at h
  · exact .inl h
  · exact List.mem_append.mp h

theorem mem_each {α : Type*} {f : α → Emitted} {l : List α} {e : Effect}
    (h : e ∈ (each f l).effects) : ∃ a ∈ l, e ∈ (f a).effects := by
  induction l with
  | nil => cases h
  | cons a rest ih =>
    rcases mem_andThen h with h | h
    · exact ⟨a, List.mem_cons_self, h⟩
    · obtain ⟨b, hb, he⟩ := ih h
      exact ⟨b, List.mem_cons_of_mem _ hb, he⟩

theorem threw_andThen {a b : Emitted} : (a.andThen b).threw = (a.threw || b.threw) := by
  rw [andThen]
  split
  next h => simp [h]
  next h => simp [Bool.eq_false_iff.mpr h]

theorem threw_each {α : Type*} {f : α → Emitted} {l : List α} (h : ∀ a ∈ l, (f a).threw = false) :
    (each f l).threw = false := by
  induction l with
  | nil => rfl
  | cons a rest ih =>
    rw [each, threw_andThen, h a List.mem_cons_self,
      ih fun b hb => h b (List.mem_cons_of_mem _ hb)]
    rfl

end Emitted

def Kind.quiet : Kind → Bool
  | challenge | routeError | reply | confirmed | found | altPath => true
  | put | status | finish | discover => false

inductive Attempt
  | dropped
  | delivered (frame : Frame)
  | refused (frame : Frame) (reason : Bytes)
  | threw
  | sent (edge : Bytes) (bytes : Bytes)
  deriving DecidableEq, Repr

def Attempt.emitted : Attempt → Emitted
  | dropped | refused _ _ => {}
  | delivered f => { effects := [.delivered f] }
  | threw => { threw := true }
  | sent e b => { effects := [.sent e b] }

def Frame.popped (f : Frame) : Frame :=
  { f with destination := f.destination.tail, remaining := f.remaining - 1 }

def hexDigits (digits : String) (b : UInt8) : Bytes :=
  [(ascii digits).getD (b.toNat / 16) 0, (ascii digits).getD (b.toNat % 16) 0]

def hex (id : Id) : Bytes := id.toList.flatMap (hexDigits "0123456789abcdef")

/-- `escape`: percent signs, slashes and tabs of an edge name. -/
def escape (value : Bytes) : Bytes :=
  value.flatMap fun c =>
    if c = 0x25 ∨ c = 0x2f ∨ c = 9 then 0x25 :: hexDigits "0123456789ABCDEF" c else [c]

structure Fresh where
  token : Id
  nonzero : token ≠ zeroBlock 16
  secret : Option (Block 32) := none
  deriving DecidableEq, Repr

theorem ones_ne_zeroBlock : (Vector.replicate 16 1 : Id) ≠ zeroBlock 16 := by decide

namespace Router

def matchesHop (hop : Hop) (e : Edge) : Bool :=
  match hop.type with
  | .peer => e.peer
  | .port => e.peer = false ∧ e.name = hop.value
  | .link => Hop.link e.token = hop

variable (P : Primitives) (r : Router) (f : Frame)

def resolve (hop : Hop) : Option Edge := r.edges.values.find? (matchesHop hop)

def attempt : Attempt :=
  if r.allowed = false then .dropped
  else
    match f.destination with
    | [] => .delivered f
    | hop :: _ =>
      match r.resolve hop with
      | none => .refused f (ascii "target_not_found")
      | some e =>
        if f.remaining ≤ 1 then .refused f (ascii "hop_limit")
        else
          match f.popped.encode with
          | none => .threw
          | some b =>
            if e.limit < b.length then .refused f.popped (ascii "path_mtu_exceeded")
            else .sent e.name b

/-- The route error for a frame. It is quiet itself, so an error that cannot be
moved ends there. -/
def reject (reason : Bytes) : Emitted :=
  if f.kind.quiet then {} else (r.attempt (f.response .routeError reason)).emitted

def route : Emitted :=
  match r.attempt f with
  | .refused g reason => r.reject g reason
  | a => a.emitted

def tick (now : Time) : Router :=
  { r with
    discoveryIn := r.discoveryIn.filter fun _ s => now < s.expires
    discoveryOut := r.discoveryOut.filter fun _ s => now < s.expires
    seen := r.seen.filter fun _ expires => now < expires
    -- a record of alternatives goes with its seen record
    alternatives := r.alternatives.filter fun key _ =>
      match r.seen.find? key with
      | none => true
      | some expires => now < expires }

def body : Bytes :=
  hex r.instanceId ++ [9] ++ r.component ++ [9] ++
    ascii (if r.allowed then "control,discover" else "local") ++ [10]

def hopOf (e : Edge) : Hop := if e.peer then Hop.peer else Hop.port e.name

def branch (e : Edge) : Frame :=
  { f with
    auth := []
    destination := [hopOf e]
    command := f.command ++ (if f.command = [] then [] else ascii "/") ++
      (if e.peer then ascii "peer" else ascii "port:" ++ escape e.name) }

def sendBranch (e : Edge) : Emitted :=
  if 256 < (branch f e).command.length then r.reject f (ascii "discovery_path_limit")
  else r.route (branch f e)

def fanOut (ingress : Bytes) : Emitted :=
  Emitted.each (fun e => r.sendBranch f e.2) (r.edges.entries.filter fun e => e.1 ≠ ingress)

/-- The answer to a discovery, signed by the session `proven` if there is one. -/
def answer (r : Router) (f : Frame) (kind : Kind) (proven : Option AuthorityKey) :
    Router × Emitted :=
  let answer := f.response kind r.body
  match proven.bind fun n => (r.discoveryIn.find? n).map fun s => (n, s) with
  | none => (r, r.route answer)
  | some (n, session) =>
    match answer.discoveryCanonical with
    | none => (r, { threw := true })
    | some message =>
      let signed := session.auth.protect P f.request message true
      let r := { r with discoveryIn := r.discoveryIn.insert n { session with auth := signed.1 } }
      (r, r.route { answer with auth := signed.2 })

def nextQuota (key : DiscoveryKey) (now : Time) : Time × ℕ :=
  let quota := (r.alternatives.find? key).getD (0, 0)
  if quota.1 ≤ now then (now + second, 1) else (quota.1, quota.2 + 1)

/-- `discover` behind its authentication. The record is made before anything is said. -/
def announce (ingress : Bytes) (now : Time) (proven : Option AuthorityKey) : Router × Emitted :=
  if r.seen.contains f.key = false then
    if 256 ≤ r.seen.size then (r, r.reject f (ascii "discovery_busy"))
    else
      let r := { r with seen := r.seen.insert f.key (now + discoveryLifetime) }
      let answered := r.answer P f .found proven
      (answered.1, answered.2.andThen (answered.1.fanOut f ingress))
  else
    let quota := r.nextQuota f.key now
    let r := { r with alternatives := r.alternatives.insert f.key quota }
    if 32 < quota.2 then (r, {}) else r.answer P f .altPath proven

def rateWindow (now : Time) : Router :=
  if r.discoveryRateEpoch ≤ now then
    { r with discoveryRateEpoch := now + second, discoveryChallenges := 0 }
  else r

def challengeDiscovery (ingress : Bytes) (now : Time)
    (secret : Option (Block 32)) : Router × Emitted :=
  let r := r.rateWindow now
  if 32 ≤ r.discoveryChallenges ∨ discoverySessions ≤ r.discoveryIn.size then (r, {})
  else
    let r := { r with discoveryChallenges := r.discoveryChallenges + 1 }
    let auth : Auth := { config := r.authConfig, origin := f.origin }
    let issued := auth.challenge P f.request 1 now secret
    match Challenge.decode issued.2 with
    | none => (r, {})
    | some c =>
      if r.discoveryIn.contains c.n then (r, {})
      else
        let session : DiscoverySession :=
          { auth := issued.1, request := f, ingress, expires := now + discoveryLifetime }
        let r := { r with discoveryIn := r.discoveryIn.insert c.n session }
        (r, r.route (f.response .challenge issued.2))

/-- The proof that comes back for a challenge. What goes on is the frame the
challenge was issued for, not the one that carried the proof. -/
def proveDiscovery (now : Time) : Router × Emitted :=
  let n := block 32 (field f.auth 0 32)
  match r.discoveryIn.find? n with
  | none => (r, {})
  | some session =>
    if f.origin ≠ session.request.origin ∨ f.request ≠ session.request.request ∨
        f.command ≠ session.request.command then (r, {})
    else
      match f.discoveryCanonical with
      | none => (r, { threw := true })
      | some message =>
        let verified := session.auth.verify P f.request message f.auth 1
        let r := { r with discoveryIn := r.discoveryIn.insert n { session with auth := verified.1 } }
        match verified.2 with
        | none => (r, {})
        | some _ => r.announce P session.request session.ingress now (some n)

/-- `discover` of a frame from the network. -/
def discover (ingress : Bytes) (now : Time) (secret : Option (Block 32)) :
    Router × Emitted :=
  if r.discoveryRequired = false ∧ f.auth = [] then r.announce P f ingress now none
  else if f.auth = [] then r.challengeDiscovery P f ingress now secret
  else r.proveDiscovery P f now

def withToken (ingress : Bytes) (e : Edge) (token : Id) : Router × Edge :=
  if e.token = zeroBlock 16 then
    ({ r with edges := r.edges.insert ingress { e with token } }, { e with token })
  else (r, e)

def receive (ingress : Bytes) (bytes : Bytes) (now : Time) (fresh : Fresh) :
    Router × Emitted :=
  if r.allowed = false then (r, {})
  else
    match Frame.decode bytes, r.edges.find? ingress with
    | some f, some e =>
      if maxHops ≤ f.replyPath.length then (r, r.reject f (ascii "reply_path_limit"))
      else
        let known := r.withToken ingress e fresh.token
        let f := { f with replyPath := Hop.link known.2.token :: f.replyPath }
        let r := known.1.tick now
        if f.kind = .discover ∧ f.destination = [] then r.discover P f ingress now fresh.secret
        else (r, r.route f)
    | _, _ => (r, {})

def send (now : Time) : Router × Emitted :=
  let r := r.tick now
  (r, r.route f)

/-- `begin_discovery`; it throws where network control is disabled. -/
def beginDiscovery (now : Time) (path : Path) (request : Id) : Router × Emitted :=
  if r.allowed = false then (r, { threw := true })
  else
    let f : Frame := { kind := .discover, origin := r.instanceId, request }
    if path = [] then (r.tick now).announce P f [] now none
    else ((r.tick now).tick now, ((r.tick now).tick now).route { f with destination := path })

def localDiscovery (now : Time) : Router × Emitted :=
  if r.allowed = false then (r, { threw := true }) else (r.tick now).announce P f [] now none

/-- `answer_discovery_challenge`, on the side that asked. -/
def answerDiscoveryChallenge (challenge : Frame) (now : Time) : Router × Emitted :=
  let r := r.tick now
  if r.allowed = false ∨ r.authConfig.signing = [] ∨ challenge.origin ≠ r.instanceId ∨
      challenge.kind ≠ .challenge ∨ discoverySessions ≤ r.discoveryOut.size then (r, {})
  else
    match Challenge.decode challenge.data with
    | none => (r, {})
    | some c =>
      if r.discoveryOut.contains c.n then (r, {})
      else
        let auth : Auth := { config := r.authConfig, origin := challenge.origin }
        let accepted := auth.acceptChallenge P challenge.request challenge.data now
        if accepted.2 = false then (r, {})
        else
          let proof : Frame :=
            { kind := .discover, origin := challenge.origin, request := challenge.request
              command := challenge.command, destination := challenge.replyPath }
          match proof.discoveryCanonical with
          | none => (r, { threw := true })
          | some message =>
            let signed := accepted.1.protect P proof.request message false
            let proof := { proof with auth := signed.2 }
            let session : DiscoverySession :=
              { auth := signed.1, request := proof, expires := now + discoveryLifetime }
            let r := { r with discoveryOut := r.discoveryOut.insert c.n session }
            (r, r.route proof)

/-- `verify_discovery_answer`: the verdict on an answer that came in, none where it throws. -/
def verifyDiscoveryAnswer (now : Time) : Router × Option Bool :=
  let r := r.tick now
  if r.allowed = false ∨ (f.kind ≠ .found ∧ f.kind ≠ .altPath) then (r, some false)
  else if f.auth = [] then (r, some (r.discoveryRequired = false ∧ r.authConfig.signing = []))
  else if f.auth.length ≠ Control.proofSize then (r, some false)
  else
    let n := block 32 (field f.auth 0 32)
    match r.discoveryOut.find? n with
    | none => (r, some false)
    | some session =>
      if f.origin ≠ session.request.origin ∨ f.request ≠ session.request.request ∨
          f.command ≠ session.request.command then (r, some false)
      else
        match f.discoveryCanonical with
        | none => (r, none)
        | some message =>
          let verified := session.auth.verifyReply P f.request message f.auth
          ({ r with discoveryOut := r.discoveryOut.insert n { session with auth := verified.1 } },
            some verified.2)

def releaseDiscovery (request : Id) : Router :=
  { r with discoveryOut := r.discoveryOut.filter fun _ s => s.request.request ≠ request }

/-- `edge`: a new generation is a new link with no token yet. -/
def edge (name : Bytes) (generation : UInt64) (peer : Bool) (limit : ℕ) : Router :=
  if generation = 0 then { r with edges := r.edges.erase name }
  else
    let fresh : Edge := { name, generation, peer }
    let e := match r.edges.find? name with
      | none => fresh
      | some old => if old.generation = generation then old else fresh
    { r with edges := r.edges.insert name { e with limit } }

def remove (name : Bytes) : Router := { r with edges := r.edges.erase name }

def retain (names : List Bytes) : Router :=
  { r with edges := r.edges.filter fun name _ => names.contains name }

end Router

inductive Call
  | receive (ingress bytes : Bytes) (now : Time) (fresh : Fresh)
  | send (frame : Frame) (now : Time)
  | beginDiscovery (now : Time) (path : Path) (request : Id)
  | localDiscovery (frame : Frame) (now : Time)
  | answerDiscoveryChallenge (challenge : Frame) (now : Time)
  | verifyDiscoveryAnswer (frame : Frame) (now : Time)
  | releaseDiscovery (request : Id)
  | edge (name : Bytes) (generation : UInt64) (peer : Bool) (limit : ℕ)
  | remove (name : Bytes)
  | retain (names : List Bytes)
  | tick (now : Time)
  deriving DecidableEq, Repr

def Router.step (P : Primitives) (r : Router) : Call → Router × Emitted
  | .receive ingress bytes now fresh => r.receive P ingress bytes now fresh
  | .send f now => r.send f now
  | .beginDiscovery now path request => r.beginDiscovery P now path request
  | .localDiscovery f now => r.localDiscovery P f now
  | .answerDiscoveryChallenge f now => r.answerDiscoveryChallenge P f now
  | .verifyDiscoveryAnswer f now =>
    let verified := r.verifyDiscoveryAnswer P f now
    (verified.1, { threw := verified.2.isNone })
  | .releaseDiscovery request => (r.releaseDiscovery request, {})
  | .edge name generation peer limit => (r.edge name generation peer limit, {})
  | .remove name => (r.remove name, {})
  | .retain names => (r.retain names, {})
  | .tick now => (r.tick now, {})

structure Watched where
  before : Router
  after : Router
  emitted : Emitted
  deriving DecidableEq, Repr

def Router.watch (P : Primitives) (r : Router) (call : Call) : Router × Watched :=
  ((r.step P call).1, { before := r, after := (r.step P call).1, emitted := (r.step P call).2 })

abbrev Event := Call × Watched

def Call.time : Call → Time
  | .receive _ _ now _ | .send _ now | .beginDiscovery now _ _ | .localDiscovery _ now
  | .answerDiscoveryChallenge _ now | .verifyDiscoveryAnswer _ now | .tick now => now
  | _ => 0

end Tuntom.ControlRoute
