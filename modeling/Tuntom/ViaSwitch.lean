import Tuntom.SwitchEcmp
import Tuntom.ViaState

/-! The compiled `SwitchPath` of `via/switch.hpp`: services with their instances, and the
chains of every origin. -/
namespace Tuntom.Via

structure Instance where
  id : Bytes := []
  parent : PortName := []
  client : List PortName := []
  server : List PortName := []
  valid : Bool := true
  deriving DecidableEq, Repr

namespace Instance

def side (m : Instance) (server : Bool) : List PortName := if server then m.server else m.client

def available (m : Instance) (live : PortName → Bool) : Bool :=
  m.client.any live && m.server.any live

def add (pair : Instance) (config : ViaService) (r : Registration) (parent port : PortName) :
    Instance :=
  let side := pair.side r.server
  { id := r.instanceId, parent := parent
    valid := pair.valid &&
      !(!config.splitRelay && pair.id != [] && (pair.parent != parent || side != []))
    client := if r.server then pair.client else pair.client ++ [port]
    server := if r.server then pair.server ++ [port] else pair.server }

def usable (pair : Instance) : Bool := pair.valid && pair.client != [] && pair.server != []

end Instance

structure Service where
  config : ViaService
  instances : List Instance
  deriving DecidableEq, Repr

namespace Service

def pairUp (config : ViaService) (relays : OrderedMap PortName PortName)
    (pairs : OrderedMap Bytes Instance) (port : PortName) : OrderedMap Bytes Instance :=
  match registration port with
  | none => pairs
  | some r =>
    let parent := (relays.find? port).getD []
    if config.relayMatches parent r.server && attachmentMatches config r then
      let pair := (pairs.find? r.instanceId).getD {}
      pairs.insert r.instanceId (pair.add config r parent port)
    else pairs

def compile (config : ViaService) (relays : OrderedMap PortName PortName) (ports : List PortName) :
    Service :=
  let pairs := ports.foldl (pairUp config relays) {}
  let found := if config.failover then config.instances.filterMap pairs.find? else pairs.values
  { config := config, instances := found.filter Instance.usable }

/-- The member that has a port, and whether the port is on its client side. -/
def locate (s : Service) (physical : PortName) : Option (Instance × Bool) :=
  s.instances.findSome? fun m =>
    if m.client.contains physical then some (m, true)
    else if m.server.contains physical then some (m, false)
    else none

def available (s : Service) (live : PortName → Bool) : Bool :=
  s.instances.any fun m => m.available live

def select (H : EcmpHash) (frame : SwitchFrame) (live : PortName → Bool) (s : Service) :
    Option Instance × Bool :=
  let members := s.instances.filter fun m => m.available live
  if s.config.failover then (members.head?, false)
  else EcmpSelector.choose H frame Instance.id members

end Service

inductive ChainSelector
  | rule (r : Rule)
  | adhoc (entry : RuleStatement)
  deriving DecidableEq, Repr

namespace ChainSelector

def statement : ChainSelector → RuleStatement
  | .rule r => r.1
  | .adhoc entry => entry

def via (s : ChainSelector) : List Bytes := s.statement.via

def inputMatch (s : ChainSelector) : RuleStackMatch := s.statement.input.stackMatch

def key (s : ChainSelector) (origin : PortName) : Bytes :=
  ascii "origin=" ++ origin ++
    (match s with
      | .adhoc entry => ascii "\nadhoc=" ++ entry.input.textV2
      | .rule r => ascii "\nrule=" ++ decimal r.2) ++
    s.via.flatMap fun name => ascii "\nservice=" ++ name

end ChainSelector

structure Chain where
  id : UInt32
  origin : PortName
  originId : UInt64
  selector : ChainSelector
  program : RulesProgram
  services : List Service
  deriving DecidableEq, Repr

def Chain.mapping (chain : Chain) (saved : Labels) : Option Rule :=
  match chain.selector with
  | .rule r => some r
  | .adhoc _ => chain.program.mapping saved

structure DivertConfig where
  via : Bool := true
  viaMatches : List RuleStatement := []
  deriving DecidableEq, Repr

def adhocMatches (adhoc : Option DivertConfig) : List RuleStatement :=
  (adhoc.map DivertConfig.viaMatches).getD []

structure SwitchPath where
  rules : SwitchRuleset
  adhoc : Option DivertConfig
  cookie : UInt32
  ports : List PortName
  programs : List (PortName × RulesProgram)
  services : List (Bytes × Service)
  chains : OrderedMap UInt32 Chain
  ingress : List (PortName × Chain)
  deriving DecidableEq, Repr

/-- One call of `add`: a chain of an origin. -/
structure Addition where
  origin : PortName
  originId : UInt64
  selector : ChainSelector
  deriving DecidableEq, Repr

structure Building where
  state : State
  work : ℕ := 0
  chains : OrderedMap UInt32 Chain := {}
  ingress : List (PortName × Chain) := []

namespace Building

variable (generation : ℕ) (rules : SwitchRuleset) (services : List (Bytes × Service))

/-- One call of `add`, with the error that it throws. -/
def add (b : Building) (a : Addition) : Building × Option Bytes :=
  let b := { b with work := b.work + 1 }
  if rulesetMaxStatements < b.work then
    (b, some (ascii "too many compiled VIA chains (maximum 4096)"))
  else
    match a.selector.via.mapM fun name => services.lookup name with
    | none => (b, some (ascii "map::at"))
    | some members =>
      let (state, id) := b.state.identify generation (a.selector.key a.origin)
      let b := { b with state := state }
      match id with
      | .error e => (b, some e)
      | .ok id =>
        let chain : Chain :=
          { id := id, origin := a.origin, originId := a.originId, selector := a.selector
            program := RulesProgram.compile rules a.origin, services := members }
        -- an id that already has a chain keeps it
        let entry := (b.chains.find? id).getD chain
        ({ b with chains := b.chains.insert id entry, ingress := b.ingress ++ [(a.origin, entry)] },
          none)

def addAll : List Addition → Building → Building × Option Bytes
  | [], b => (b, none)
  | a :: rest, b =>
    match b.add generation rules services a with
    | (b, some e) => (b, some e)
    | (b, none) => addAll rest b

end Building

namespace SwitchPath

/-- The calls of `add`, in the constructor's order. -/
def additions (rules : SwitchRuleset) (adhoc : List RuleStatement) : List Addition :=
  rules.origins.entries.flatMap fun (origin, originId) =>
    let found := adhoc.filter fun entry => routePortMatches entry.input.port origin
    let permanent := (RulesProgram.compile rules origin).mappings.filter fun r => r.1.via != []
    found.map (fun entry => ⟨origin, originId, .adhoc entry⟩) ++
      permanent.map fun r => ⟨origin, originId, .rule r⟩

/-- The first rule that offers a chain to a single port without a stable id. -/
def unstableIngress (rules : SwitchRuleset) : Option RuleStatement :=
  rules.statements.find? fun s =>
    s.via != [] && !wildcardPort s.input.port && s.input.port != anyPort &&
      !rules.origins.contains s.input.port

/-- The constructor of `SwitchPath`: the object or the error, and the state it leaves. -/
def compile (state : State) (generation : ℕ) (expired : ℕ → Bool) (rules : SwitchRuleset)
    (adhoc : Option DivertConfig) (ports : List PortName)
    (relays : OrderedMap PortName PortName) : State × Except Bytes SwitchPath :=
  if rules.format ≠ 3 then (state, .error (ascii "VIA requires rules format 3"))
  else if adhoc.any fun config => !config.via then
    (state, .error (ascii "format 3 requires a format-3 divert file"))
  else
    let state := state.maintain expired
    let services := rules.services.entries.map fun e => (e.1, Service.compile e.2 relays ports)
    let found := adhocMatches adhoc
    match unstableIngress rules with
    | some s => (state, .error (ascii "VIA ingress needs a stable port ID: " ++ s.input.port))
    | none =>
      match (found.flatMap RuleStatement.via).find? fun name => !rules.services.contains name with
      | some name => (state, .error (ascii "unknown divert service: " ++ name))
      | none =>
        match Building.addAll generation rules services (additions rules found)
            { state := state } with
        | (b, some e) => (b.state, .error e)
        | (b, none) =>
          (b.state, .ok
            { rules := rules, adhoc := adhoc, cookie := state.cookie, ports := ports
              programs := (ports ++ rules.origins.entries.map Prod.fst).map fun port =>
                (port, RulesProgram.compile rules port)
              services := services, chains := b.chains, ingress := b.ingress })

end SwitchPath

end Tuntom.Via
