import Tuntom.Extension
import Tuntom.Transition

/-! The AUTH gate of a listening tunnel: `AuthState`, the parts of `Tunnel` that drive
it on the server side, and the asynchronous verification job. The helper, its child
workers, the clocks and the random source are inputs of the steps. -/
namespace Tuntom

/-! ### `AuthState` -/

inductive AuthRole
  | client | server
  deriving DecidableEq, Repr

inductive AuthPhase
  | opened | needChallenge | pending | verifying | waitingResult | authenticated | rejected
  deriving DecidableEq, Repr

structure AuthState where
  role : AuthRole
  phase : AuthPhase
  id : UInt64 := 0
  deriving DecidableEq, Repr

namespace AuthState

def required : AuthState := { role := .server, phase := .needChallenge }

def terminalFailure (a : AuthState) : Bool := a.phase == .rejected

def sendChallenge (a : AuthState) (id : UInt64) : Option AuthState :=
  if a.role ≠ .server ∨ a.phase ≠ .needChallenge ∨ id = 0 then none
  else some { a with id := id, phase := .pending }

def receiveResponse (a : AuthState) (r : AuthResponse) : Option AuthState :=
  if a.role ≠ .server ∨ a.phase ≠ .pending ∨ r.id ≠ a.id then none
  else some { a with phase := .verifying }

def verified (a : AuthState) (allow : Bool) : Option AuthState :=
  if a.role ≠ .server ∨ a.phase ≠ .verifying then none
  else some { a with phase := if allow then .authenticated else .rejected }

end AuthState

/-! ### The helper and the children -/

inductive HelperStatus
  | allow | deny | temporaryFailure
  deriving DecidableEq, Repr

/-- `auth_helper::Result`. -/
structure HelperResult where
  status : HelperStatus := .deny
  principal : Bytes := []
  portId : Bytes := []
  ingressStack : List UInt64 := []
  config : Bytes := []
  deriving DecidableEq, Repr

/-- `auth_helper::encode` of a verification request. -/
def encodeVerify (method : AuthMethod) (challengeId : UInt64)
    (username peer challenge response : Bytes) : Bytes :=
  if challengeId = 0 ∨ username = [] ∨ 255 < username.length ∨ 1024 < peer.length ∨
      4096 < challenge.length ∨ 4096 < response.length then []
  else
    ascii "TTA" ++ [1, 1, method.toByte, 0, 0] ++ storeBe64 challengeId ++
      storeBe16 (UInt16.ofNat username.length) ++ storeBe16 (UInt16.ofNat peer.length) ++
      storeBe32 (UInt32.ofNat challenge.length) ++ storeBe32 (UInt32.ofNat response.length) ++
      username ++ peer ++ challenge ++ response

/-- `child::Worker`, without its control socket. -/
structure Worker where
  pid : ℤ
  port : UInt16
  deriving DecidableEq, Repr

/-- `child::Bootstrap`. -/
structure Bootstrap where
  secret : Key
  authHash : Bytes
  tunnelId : UInt16
  exchange : UInt64
  expiry : UInt64
  token : Block 32
  peer : Bytes
  portId : Bytes
  switchSocket : Bytes
  ingressStack : List UInt64
  config : Bytes

/-- `child::encode` does not refuse the profile. -/
def Bootstrap.valid (v : Bootstrap) : Bool :=
  v.tunnelId != 0 && v.exchange != 0 && v.expiry != 0 && v.peer.length ≤ 1024 && v.portId != [] &&
    v.portId.length ≤ 63 && v.switchSocket.length ≤ 107 && v.ingressStack != [] &&
    v.ingressStack.length ≤ 8 && v.config.length ≤ maxConfigSize

/-- `relocation::bind`. -/
def relocationBind (P : Primitives) (v : Bootstrap) (port : UInt16) : Bytes :=
  let half (domain : String) : Bytes :=
    (P.mac v.secret port (ascii domain ++ [0] ++ v.authHash ++ storeBe64 v.exchange ++
      storeBe16 port ++ storeBe64 v.expiry ++ v.token.toList ++ v.peer)).toList
  half "TUNTOM-V5-RELOCATE-0" ++ half "TUNTOM-V5-RELOCATE-1"

/-! ### The gate -/

structure AuthOptions where
  tunnelId : UInt16
  masterKey : Key
  authTimeoutSeconds : ℕ := 10
  authMaxChildren : ℕ := 256
  /-- Empty when the listener does not hand clients over to workers. -/
  switchSocket : Bytes := []
  /-- The ingress labels before any client is authenticated. -/
  switchStack : List UInt64 := []

structure ReliableExtension where
  type : PacketType
  payload : Bytes
  next : Time
  deadline : Time
  deriving DecidableEq, Repr

/-- A running verification. `gate` tells which `AuthState` object accepted the response. -/
structure AuthJob where
  response : AuthResponse
  peer : Bytes
  input : Bytes
  gate : ℕ
  deriving DecidableEq, Repr

structure AuthGate where
  auth : AuthState := .required
  /-- How often `auth` has been replaced by a new object. -/
  gate : ℕ := 0
  authChallenge : AuthChallenge := {}
  authJob : Option AuthJob := none
  reliable : List ReliableExtension := []
  relocatingOriginal : Bool := false
  switchStack : List UInt64 := []
  children : List Worker := []
  activeRelocationPid : ℤ := -1
  accessConfigId : UInt64 := 0
  accessConfigState : String := "unknown"

inductive GateEvent
  | sent (type : PacketType) (payload : Bytes)
  /-- A retransmission of a reliable extension. -/
  | resent (type : PacketType) (payload : Bytes)
  deriving DecidableEq, Repr

/-- What a step needs from outside once a verification job is done. -/
structure FinishInput where
  valid : Bool
  result : HelperResult
  /-- For each child: whether it reported BOUND, and whether it has exited. -/
  childStatus : ℤ → Bool × Bool := fun _ => (false, false)
  exchange : UInt64 := 0
  wall : Int64 := 0
  random : Option (Block 48) := none
  /-- The outcome of starting a worker. -/
  spawned : Option Worker := none
  now : Time

inductive AuthInput
  | activated (peerChanged : Bool) (random : Option (Block 40)) (now : Time)
  | extension (type : PacketType) (payload numericPeer numericHost : Bytes)
  | finished (done : FinishInput)
  | reap (childStatus : ℤ → Bool × Bool)
  | tick (now : Time) (ready : Bool)

namespace AuthGate
variable (P : Primitives) (opts : AuthOptions)

def sendExtension (type : PacketType) (payload : Bytes) : List GateEvent :=
  if payload = [] then [] else [.sent type payload]

def acknowledge (s : AuthGate) (type : PacketType) : AuthGate :=
  { s with reliable := s.reliable.filter fun p => p.type ≠ type }

variable (s : AuthGate)

def sendReliable (type : PacketType) (payload : Bytes) (now : Time) :
    AuthGate × List GateEvent :=
  let s := s.acknowledge type
  ({ s with
      reliable := s.reliable ++
        [⟨type, payload, now + 500000000, now + opts.authTimeoutSeconds * second⟩] },
    sendExtension type payload)

def beginSessionAuth (random : Option (Block 40)) (now : Time) :
    AuthGate × List GateEvent :=
  match random with
  | none => (s, [])
  | some random =>
    let challenge : AuthChallenge :=
      { id := loadBe64 random.toList 0
        lifetimeSeconds := UInt32.ofNat opts.authTimeoutSeconds
        challenge := random.toList.drop 8 }
    match s.auth.sendChallenge challenge.id with
    | none => (s, [])
    | some auth =>
      sendReliable opts { s with auth := auth, authChallenge := challenge } .authChallenge
        challenge.encode now

/-- Whether a session activation replaces the gate. -/
def replaces (peerChanged : Bool) : Bool :=
  s.relocatingOriginal || s.auth.terminalFailure ||
    (peerChanged && s.auth.phase != .needChallenge)

def sessionActivated (peerChanged : Bool) (random : Option (Block 40))
    (now : Time) : AuthGate × List GateEvent :=
  let s := if s.replaces peerChanged then
      { s with auth := .required, gate := s.gate + 1, reliable := [], relocatingOriginal := false }
    else s
  if s.auth.phase = .needChallenge then beginSessionAuth opts s random now else (s, [])

/-- On a listener only AUTH_RESPONSE has an effect. A job that is still running for an
earlier gate is dropped with its result. -/
def handleSessionExtension (type : PacketType)
    (payload numericPeer numericHost : Bytes) : AuthGate :=
  if type = .authResponse then
    match AuthResponse.decode payload with
    | none => s
    | some response =>
      match s.auth.receiveResponse response with
      | none => s
      | some auth =>
        let s := { s with auth := auth }.acknowledge .authChallenge
        { s with
          authJob := some
            { response := response
              peer := numericHost
              input := encodeVerify response.method response.id response.username numericPeer
                s.authChallenge.challenge response.response
              gate := s.gate } }
  else s

def childBound (worker : Worker) (bound : Bool) : AuthGate :=
  if bound ∧ worker.pid = s.activeRelocationPid then
    { (s.acknowledge .authOk).acknowledge .relocate with activeRelocationPid := -1 }
  else s

def childExited (worker : Worker) (exited : Bool) : AuthGate :=
  if exited then
    { s with
      activeRelocationPid :=
        if worker.pid = s.activeRelocationPid then -1 else s.activeRelocationPid,
      children := s.children.erase worker }
  else s

/-- `reap_children`, for the children from the head of the list on. -/
def reapChildren (childStatus : ℤ → Bool × Bool) : List Worker → AuthGate → AuthGate
  | [], s => s
  | worker :: rest, s =>
    reapChildren childStatus rest
      ((s.childBound worker (childStatus worker.pid).1).childExited worker
        (childStatus worker.pid).2)

def tickExtensions (now : Time) (ready : Bool) : AuthGate × List GateEvent :=
  let live := s.reliable.filter fun p => now < p.deadline
  let due (p : ReliableExtension) : Bool := p.next ≤ now && ready
  ({ s with reliable := live.map fun p => if due p then { p with next := now + 500000000 } else p },
    live.flatMap fun p =>
      if due p ∧ p.payload ≠ [] then [.resent p.type p.payload] else [])

def hexDigit (n : ℕ) : UInt8 := UInt8.ofNat (if n < 10 then 48 + n else 87 + n)

def workerPort (portId : Bytes) (token : Block 32) : Bytes :=
  portId.take (63 - 17) ++ 45 ::
    (token.toList.take 8).flatMap fun b => [hexDigit (b.toNat / 16), hexDigit (b.toNat % 16)]

/-- The hash of the authentication exchange, over the two messages as encoded again. -/
def transcriptHash (challenge : AuthChallenge) (response : AuthResponse) : Bytes :=
  let half (domain : String) : Bytes :=
    (P.mac opts.masterKey opts.tunnelId
      (ascii domain ++ [0] ++ challenge.encode ++ response.encode)).toList
  half "TUNTOM-V5-AUTH-TRANSCRIPT-0" ++ half "TUNTOM-V5-AUTH-TRANSCRIPT-1"

def bootstrap (job : AuthJob) (done : FinishInput) (random : Block 48) : Bootstrap :=
  let token : Block 32 := block 32 (random.toList.drop 16)
  { secret := block 16 random.toList
    authHash := transcriptHash P opts s.authChallenge job.response
    tunnelId := opts.tunnelId
    exchange := done.exchange
    expiry := UInt64.ofNat done.wall.toInt.toNat + 10
    token := token
    peer := job.peer
    portId := workerPort done.result.portId token
    switchSocket := opts.switchSocket
    ingressStack := done.result.ingressStack
    config := done.result.config }

/-- The child a client is handed to; every failure of the block is an exception. -/
def prepareChild (job : AuthJob) (done : FinishInput) :
    AuthGate × Option Relocate :=
  let s := reapChildren done.childStatus s.children s
  if opts.authMaxChildren ≤ s.children.length then (s, none)
  else
    match done.random with
    | none => (s, none)
    | some random =>
      let profile := bootstrap P opts s job done random
      match (if profile.valid then done.spawned else none) with
      | none => (s, none)
      | some worker =>
        ({ s with children := s.children ++ [worker], activeRelocationPid := worker.pid },
          some
            { port := worker.port
              lifetimeSeconds := 10
              token := profile.token
              binder := block 32 (relocationBind P profile worker.port) })

def sendAccessConfig (payload : Bytes) : AuthGate × List GateEvent :=
  match AccessConfig.decode payload with
  | none => (s, [])
  | some value =>
    ({ s with accessConfigId := value.id, accessConfigState := "sent" },
      sendExtension .config payload)

def verdict (job : AuthJob) (done : FinishInput) :
    AuthGate × Bool × Option Relocate :=
  let allow := done.valid && done.result.status == .allow
  if allow ∧ opts.switchSocket ≠ [] then
    match prepareChild P opts s job done with
    | (s, some relocate) => (s, true, some relocate)
    | (s, none) => (s, false, none)
  else (s, allow, none)

/-- What the client is told; the return value of `verified` is not looked at. -/
def finishAuthJob (job : AuthJob) (done : FinishInput) :
    AuthGate × List GateEvent :=
  let (s, allow, relocate) := verdict P opts s job done
  let s := { s with auth := (s.auth.verified allow).getD s.auth }
  if allow then
    let s := { s with switchStack := done.result.ingressStack }
    let (s, ok) := sendReliable opts s .authOk (encodeAuthOk job.response.id) done.now
    match relocate with
    | some relocate =>
      let (s, handed) := sendReliable opts s .relocate relocate.encode done.now
      ({ s with relocatingOriginal := true }, ok ++ handed)
    | none =>
      if done.result.config = [] then (s, ok)
      else
        let (s, config) := s.sendAccessConfig done.result.config
        (s, ok ++ config)
  else
    sendReliable opts s .authFailed
      (AuthFailed.encode
        { id := job.response.id
          reason := if done.valid ∧ done.result.status = .temporaryFailure then .temporaryFailure
            else .rejected }) done.now

/-- `tick_auth_job` once the job is done. -/
def tickAuthJob (done : FinishInput) : AuthGate × List GateEvent :=
  match s.authJob with
  | none => (s, [])
  | some job => finishAuthJob P opts { s with authJob := none } job done

end AuthGate

def authStep (P : Primitives) (opts : AuthOptions) (s : AuthGate) :
    AuthInput → AuthGate × List GateEvent
  | .activated peerChanged random now => s.sessionActivated opts peerChanged random now
  | .extension type payload numericPeer numericHost =>
    (s.handleSessionExtension type payload numericPeer numericHost, [])
  | .finished done => s.tickAuthJob P opts done
  | .reap childStatus => (AuthGate.reapChildren childStatus s.children s, [])
  | .tick now ready => s.tickExtensions now ready

def AuthGate.start (opts : AuthOptions) : AuthGate := { switchStack := opts.switchStack }

abbrev AuthTrace (P : Primitives) (opts : AuthOptions) :=
  Transition.Trace (authStep P opts) (AuthGate.start opts)

end Tuntom
