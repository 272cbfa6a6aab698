import Tuntom.ViaRoute

/-! The divert of format 2 rulesets: the envelope of `divert/codec.hpp` and the path of
`divert/switch.hpp` that hands the frames of some origins to one adapter. -/
namespace Tuntom.Divert

open Via (Decision Result)

/-! ### Envelopes -/

inductive Action
  | offered | onward | toClient | bypass
  deriving DecidableEq, Repr

namespace Action

def code : Action → UInt64
  | .offered => 0
  | .onward => 1
  | .toClient => 2
  | .bypass => 3

def ofCode (code : UInt64) : Option Action :=
  if code = 0 then some .offered else if code = 1 then some .onward
  else if code = 2 then some .toClient else if code = 3 then some .bypass else none

end Action

structure Envelope where
  base : Labels := []
  body : Labels := []
  present : Bool := false
  deriving DecidableEq, Repr

namespace Envelope

def origin (env : Envelope) : UInt64 := env.body.headD 0
def action (env : Envelope) : Option Action := Action.ofCode ((env.body.drop 1).headD 0)
def original (env : Envelope) : Labels := env.body.drop 2

end Envelope

/-- `text_label`: up to eight bytes from the top of a label down. -/
def textLabel (text : Bytes) : UInt64 :=
  (text.zipIdx.map fun (c, i) => c.toUInt64 <<< UInt64.ofNat (56 - 8 * i)).foldl (· ||| ·) 0

def marker : UInt64 := 0x4456525400000000

/-- `Codec::attach`. -/
def attach (cookie : Bytes) (base body : Labels) : Option Labels :=
  if base = [] ∨ body.length < 3 ∨ body.headD 0 = 0 ∨ 3 < (body.drop 1).headD 0 ∨
      switchMaxLabels < base.length + body.length + 2 then none
  else some (base ++ (textLabel cookie ||| (UInt64.ofNat (body.length + 48) <<< 32)) :: marker :: body)

/-- `Codec::offer`. -/
def offer (cookie : Bytes) (base : Labels) (origin : UInt64) : Option Labels :=
  if switchMaxLabels < base.length + 2 then none
  else attach cookie base (origin :: Action.offered.code :: base)

def starts (cookie : Bytes) (value : UInt64) (rest : Labels) : Bool :=
  value &&& 0xffffff0000000000 == textLabel cookie && value &&& 0xffffffff == 0 &&
    rest.head? == some marker

/-- The loop of `Codec::split`; `skip` labels still belong to the envelope just read. -/
def splitFrom (cookie : Bytes) : ℕ → Envelope → Labels → Option Envelope
  | _, result, [] => if result.base = [] then none else some result
  | skip + 1, result, _ :: rest => splitFrom cookie skip result rest
  | 0, result, value :: rest =>
    if starts cookie value rest then
      let length := ((value >>> 32) &&& 255).toNat
      let body := rest.drop 1
      if result.present ∨ length < 51 ∨ 126 < length ∨ body.length < length - 48 then none
      else
        let env : Envelope := { result with body := body.take (length - 48), present := true }
        if env.origin = 0 ∨ env.action.isNone then none
        else splitFrom cookie (length - 48 + 1) env rest
    else splitFrom cookie 0 { result with base := result.base ++ [value] } rest

def split (cookie : Bytes) (labels : Labels) : Option Envelope := splitFrom cookie 0 {} labels

/-! ### The path -/

structure Config where
  cookie : Bytes
  input : PortName
  output : PortName
  origins : OrderedMap PortName UInt64
  names : OrderedMap UInt64 PortName
  matches_ : SwitchRuleset
  names_sound : ∀ id name, names.find? id = some name → origins.find? name = some id

structure SwitchPath where
  config : Config
  rules : SwitchRuleset
  ports : List PortName

namespace SwitchPath

variable (path : SwitchPath)

def normal (origin : PortName) : RulesProgram := RulesProgram.compile path.rules origin

def selection (origin : PortName) : RulesProgram := RulesProgram.compile path.config.matches_ origin

def possible (source target : PortName) : Bool :=
  if source == path.config.input && path.config.origins.contains target then true
  else if source == path.config.input || source == path.config.output then
    path.config.origins.entries.any fun origin =>
      (path.normal origin.1).mappings.any fun r => routePortMatches r.1.output.port target
  else
    (path.config.origins.contains source && target == path.config.input) ||
      target == path.config.output

variable (H : EcmpHash) (live : PortName → Bool)

def deliver (target : PortName) (labels : Labels) (exit : Bool) : Decision :=
  { result := if live target then .forward else .missing, target := some target, labels, exit }

/-- The rest of the way of a frame that comes back from the adapter: its original labels
meet the ordinary rules of its origin. -/
def resume (env : Envelope) (frame : SwitchFrame) (origin : PortName) (fromOutput : Bool) : Decision :=
  let program := path.normal origin
  let view : SwitchFrame := { frame with labels := env.original }
  match program.mapping view.labels with
  | none => { result := .missing }
  | some rule =>
    if rule.1.type = .policy then { result := .policy }
    else
      match rule.1.stack.apply view.labels with
      | none => { result := .overflow }
      | some rewritten =>
        let connected := path.ports.filter fun port =>
          routePortMatches rule.1.output.port port && live port
        let members := connected.filter fun port =>
          port != path.config.input && port != path.config.output &&
            program.allowed rule view.labels port rewritten
        match EcmpSelector.choose H view id members with
        | (none, _) => { result := if connected = [] then .missing else .policy }
        | (some target, choice) =>
          match if fromOutput then attach path.config.cookie rewritten env.body else some rewritten with
          | none => { result := .overflow, target := some target, labels := rewritten }
          | some labels =>
            { result := .forward, target := some target, labels
              exit := path.rules.role target .exit, multipath := choice }

/-- `SwitchPath::route`; `enabled` says whether the divert is on. -/
def route (frame : SwitchFrame) (enabled : Bool) (physical : PortName) : Decision :=
  let config := path.config
  match split config.cookie frame.labels with
  | none => { result := .malformed }
  | some env =>
    if physical ≠ config.input ∧ physical ≠ config.output then
      if env.present then
        if env.action ≠ some .onward ∨ config.names.contains env.origin = false ∨
            path.rules.role physical .exit = false then { result := .malformed }
        else deliver live config.output frame.labels true
      else
        match config.origins.find? physical with
        | none => {}
        | some id =>
          if enabled = false ∨ ((path.selection physical).mapping frame.labels).isNone then {}
          else
            match offer config.cookie frame.labels id with
            | none => { result := .overflow }
            | some labels => deliver live config.input labels true
    else if env.present = false then { result := .malformed }
    else
      match config.names.find? env.origin with
      | none => { result := .malformed }
      | some origin =>
        if physical = config.input ∧ env.action = some .toClient then
          deliver live origin env.original false
        else if (physical = config.input ∧ env.action = some .bypass) ∨
            (physical = config.output ∧ env.action = some .onward) then
          path.resume H live env frame origin (physical == config.output)
        else { result := .malformed }

end SwitchPath

end Tuntom.Divert
