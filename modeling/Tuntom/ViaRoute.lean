import Tuntom.ViaSwitch

/-! The routing decision of a compiled path (`SwitchPath::route`) and its place in the
forwarding loop of `switch/main.cpp`. -/
namespace Tuntom.Via

inductive Result
  | normal | forward | malformed | overflow | policy | missing
  deriving DecidableEq, Repr

structure Decision where
  result : Result := .normal
  target : Option PortName := none
  labels : Labels := []
  exit : Bool := false
  multipath : Bool := false
  deriving DecidableEq, Repr

structure Course where
  chain : Chain
  env : Envelope
  positions : List ℕ
  skipChain : Bool := false
  deriving DecidableEq, Repr

namespace SwitchPath

variable (path : SwitchPath)

def takes (enabled : Bool) (program : RulesProgram) (labels : Labels) (candidate : Chain) : Bool :=
  match candidate.selector with
  | .adhoc entry => enabled && entry.input.stackMatch.accepts labels
  | .rule r => (program.mapping labels).map Prod.snd == some r.2

def start (enabled : Bool) (physical : PortName) (frame : SwitchFrame) (env : Envelope) :
    Except Decision Course :=
  if reserved physical then .error { result := .malformed }
  else
    match path.ingress.filterMap fun (port, chain) => if port = physical then some chain else none with
    | [] =>
      let mapping := (path.programs.lookup physical).bind fun program => program.mapping frame.labels
      let adhoc := adhocMatches path.adhoc
      if mapping.any fun r => r.1.via != [] then .error { result := .missing }
      else if enabled && adhoc.any fun entry =>
          routePortMatches entry.input.port physical && entry.input.stackMatch.accepts frame.labels then
        .error { result := .missing }
      else .error {}
    | candidates =>
      match candidates.find? (takes enabled ((path.programs.lookup physical).getD {}) frame.labels) with
      | none => .error {}
      | some chain =>
        .ok
          { chain := chain
            env := { env with
              saved := env.base, cookie := path.cookie, chain := chain.id, originId := chain.originId }
            positions := List.range chain.services.length }

/-- A frame with an envelope: it has to come from where the envelope says that it is. -/
def resume (live : PortName → Bool) (physical : PortName) (env : Envelope) :
    Except Decision Course :=
  match path.chains.find? env.chain with
  | none => .error { result := .malformed }
  | some chain =>
    if env.cookie ≠ path.cookie ∨ env.originId ≠ chain.originId ∨
        !chain.selector.inputMatch.accepts env.saved then .error { result := .malformed }
    else if env.action = .complete then
      match chain.mapping env.saved with
      | none => .error { result := .malformed }
      | some mapping =>
        if env.reverse ∨ env.step ≠ 65535 ∨ reserved physical ∨ mapping.1.type ≠ .forward ∨
            !path.rules.role physical .exit ∨ !routePortMatches mapping.1.output.port physical then
          .error { result := .malformed }
        else
          .ok
            { chain := chain, env := { env with reverse := true }
              positions := (List.range chain.services.length).reverse }
    else
      match chain.services[env.step.toNat]? with
      | none => .error { result := .malformed }
      | some service =>
        match service.locate physical with
        | none => .error { result := .missing }
        | some (member, client) =>
          if !live physical ∨ !member.available live then .error { result := .missing }
          else if env.action = .bypass ∧ client ∧ !env.reverse then
            .ok { chain := chain, env := env, positions := [], skipChain := true }
          else if env.action ≠ .onward ∨ env.reverse ≠ client then .error { result := .malformed }
          else
            .ok
              { chain := chain, env := env
                positions :=
                  if env.reverse then (List.range env.step.toNat).reverse
                  else List.range' (env.step.toNat + 1) (chain.services.length - (env.step.toNat + 1)) }

variable (H : EcmpHash) (live : PortName → Bool) (frame : SwitchFrame)

/-- The offer of a frame to a member of the service at position `i`. -/
def offer (env : Envelope) (i : ℕ) (selected : Instance) (choice : Bool) : Decision :=
  let env := { env with step := UInt16.ofNat i, action := .offer }
  match attach env with
  | none => { result := .overflow }
  | some labels =>
    let ports := (selected.side env.reverse).filter live
    let (target, paths) := EcmpSelector.choose H frame id ports
    { result := .forward, target := target, labels := labels, exit := true
      multipath := choice || paths }

/-- The loop over the services; `none` when it runs to its end. -/
def offers (chain : Chain) (env : Envelope) : List ℕ → Option Decision
  | [] => none
  | i :: rest =>
    match chain.services[i]? with
    | none => none
    | some service =>
      match service.select H frame live with
      | (some selected, choice) => some (offer H live frame env i selected choice)
      | (none, _) =>
        if service.config.pass then offers chain env rest else some { result := .missing }

def outputs (chain : Chain) (mapping : Rule) (saved output : Labels) : List PortName :=
  path.ports.filter fun port =>
    !reserved port && live port && routePortMatches mapping.1.output.port port &&
      chain.program.allowed mapping saved port output

def finish (chain : Chain) (env : Envelope) (skipChain : Bool) : Decision :=
  if env.reverse then
    if live chain.origin then
      { result := .forward, target := some chain.origin, labels := env.saved }
    else { result := .missing }
  else
    match chain.mapping env.saved with
    | none => { result := .missing }
    | some mapping =>
      if mapping.1.type ≠ .forward then { result := .policy }
      else
        match mapping.1.stack.apply env.saved with
        | none => { result := .overflow }
        | some output =>
          match EcmpSelector.choose H frame id (path.outputs live chain mapping env.saved output) with
          | (none, _) => { result := .missing }
          | (some target, choice) =>
            let exit := path.rules.role target .exit
            if skipChain then
              { result := .forward, target := some target, labels := output, exit := exit
                multipath := choice }
            else if !exit then { result := .policy, target := some target }
            else
              match attach { env with base := output, step := 65535, action := .complete } with
              | none => { result := .overflow, target := some target, exit := exit }
              | some labels =>
                { result := .forward, target := some target, labels := labels, exit := exit
                  multipath := choice }

/-- `SwitchPath::route` for a frame from the port `physical`; `enabled` says whether the
ad-hoc diverts are on. -/
def route (enabled : Bool) (physical : PortName) : Decision :=
  match split frame.labels with
  | none => { result := .malformed }
  | some env =>
    match if env.present then path.resume live physical env
        else path.start enabled physical frame env with
    | .error d => d
    | .ok course =>
      match if course.skipChain then none
          else offers H live frame course.chain course.env course.positions with
      | some d => d
      | none => path.finish H live frame course.chain course.env course.skipChain

end SwitchPath

/-! ### The forwarding loop -/

/-- What `switch/main.cpp` does with a valid frame. -/
inductive Dispatch
  | drop
  | send (target : PortName) (labels : Labels) (exit : Bool)
  /-- The frame goes on to the ordinary rules. -/
  | ordinary
  deriving DecidableEq, Repr

/-- The VIA part of the loop. `guard` remembers that some earlier ruleset had a path;
`ingress` is the port itself or one of the channels that it relays. -/
def dispatch (H : EcmpHash) (live : PortName → Bool) (enabled guard : Bool) (path : Option SwitchPath)
    (connection ingress : PortName) (frame : SwitchFrame) : Dispatch :=
  match path with
  | none =>
    let retired := guard && (reserved connection ||
      ((split frame.labels).map Envelope.present).getD true)
    if retired ∨ ingress ≠ connection then .drop else .ordinary
  | some path =>
    let d := path.route H live frame enabled ingress
    if d.result = .normal then if ingress ≠ connection then .drop else .ordinary
    else
      match d.result, d.target with
      | .forward, some target => if live target then .send target d.labels d.exit else .drop
      | _, _ => .drop

/-! ### A sample configuration -/

/-- Two services for the frames of one port: a proxy that must be there, and a capture
instance that may be missing. -/
def sampleRules : SwitchRuleset where
  format := 3
  statements :=
    [ { type := .exit, output := { port := ascii "exit" } },
      { type := .forward, allow := true
        input := { port := ascii "edge", stackMatch := { items := [.exact 17, .exact 42], rest := false } }
        output := { port := ascii "exit", stackMatch := { items := [.exact 99, .exact 42], rest := false } }
        stack := { items := [⟨false, 99⟩, ⟨false, 42⟩] }
        via := [ascii "smithproxy", ascii "capture"] } ]
  origins := ({} : OrderedMap PortName UInt64).insert (ascii "edge") 123
  services :=
    (({} : OrderedMap Bytes ViaService).insert (ascii "smithproxy")
        { client := ascii "proxy-in*", server := ascii "proxy-out*" }).insert (ascii "capture")
      { client := ascii "cap-in*", server := ascii "cap-out*", failover := true, pass := true
        instances := [ascii "capture#1", ascii "capture#0"] }

def samplePorts : List PortName :=
  [ascii "edge", ascii "exit", ascii "proxy-in0~via:c:p#0", ascii "proxy-out0~via:s:p#0",
    ascii "proxy-in1~via:c:p#1", ascii "proxy-out1~via:s:p#1",
    ascii "cap-in0~via:c:capture#0", ascii "cap-out0~via:s:capture#0"]

def sampleState : State where
  cookie := 0x685458
  cookie_lettered := by decide
  issued := Issued.none

def sampleHash : EcmpHash where
  flow := fun frame => UInt64.ofNat frame.payload.length
  identity := fun name => name.foldl (fun sum byte => sum + byte.toUInt64) 0
  score := fun flow identity => flow ^^^ identity

def samplePath : SwitchPath :=
  match (SwitchPath.compile sampleState 0 (fun _ => false) sampleRules none samplePorts {}).2 with
  | .ok path => path
  | .error _ =>
    { rules := {}, adhoc := none, cookie := 0, ports := [], programs := [], services := [],
      chains := {}, ingress := [] }

end Tuntom.Via
