import Tuntom.OrderedMap
import Tuntom.Wire

/-! The rules of a switch as `switch_ruleset.hpp` holds them after parsing: port
patterns, label stack matches and rewrites, statements, VIA services, and the program
compiled for an ingress port. -/
namespace Tuntom
open List

def switchMaxLabels : ℕ := 8
def rulesetMaxStatements : ℕ := 4096

abbrev PortName := Bytes
abbrev Labels := List UInt64

/-- `std::to_string` of an unsigned number. -/
def decimal (n : ℕ) : Bytes := (Nat.toDigits 10 n).map fun c => UInt8.ofNat c.toNat

/-! ### Port patterns -/

def wildcardPort (pattern : PortName) : Bool := pattern.getLast? == some 42

def routePortMatches (pattern port : PortName) : Bool :=
  if wildcardPort pattern then port.take (pattern.length - 1) == pattern.dropLast
  else pattern == port

def anyPort : PortName := ascii "*"

/-! ### Label stacks -/

inductive RuleElement
  | any
  | exact (value : UInt64)
  | range (value upper : UInt64)
  | bits (value : UInt64)
  deriving DecidableEq, Repr

def RuleElement.accepts : RuleElement → UInt64 → Bool
  | .any, _ => true
  | .exact value, label => label == value
  | .range value upper, label => value ≤ label && label ≤ upper
  | .bits value, label => label &&& value != 0

def RuleElement.text : RuleElement → Bytes
  | .any => ascii "*"
  | .exact value => decimal value.toNat
  | .range value upper => ascii "<" ++ decimal value.toNat ++ ascii ", " ++ decimal upper.toNat ++ ascii ">"
  | .bits value => ascii "&" ++ decimal value.toNat

structure RuleStackMatch where
  items : List RuleElement := [.any]
  rest : Bool := true
  deriving DecidableEq, Repr

namespace RuleStackMatch

def unrestricted (m : RuleStackMatch) : Bool := m.rest && m.items == [.any]

def accepts (m : RuleStackMatch) (labels : Labels) : Bool :=
  m.items.length ≤ labels.length && (m.rest || labels.length == m.items.length) &&
    (m.items.zip labels).all fun (item, label) => item.accepts label

def text (m : RuleStackMatch) : Bytes :=
  ascii "[" ++ (ascii ", ").intercalate (m.items.map RuleElement.text) ++
    (if m.rest then ascii ", ..." else []) ++ ascii "]"

end RuleStackMatch

structure RuleStackItem where
  keep : Bool := false
  value : UInt64 := 0
  deriving DecidableEq, Repr

structure RuleStack where
  items : List RuleStackItem := []
  rest : Bool := false
  deriving DecidableEq, Repr

namespace RuleStack

/-- The explicit labels, from position `position` on. -/
def explicitLabels (labels : Labels) : List RuleStackItem → ℕ → Option Labels
  | [], _ => some []
  | item :: items, position => do
    let label ← if item.keep then labels[position]? else some item.value
    let others ← explicitLabels labels items (position + 1)
    return label :: others

def apply (s : RuleStack) (labels : Labels) : Option Labels := do
  let front ← explicitLabels labels s.items 0
  let out := front ++ if s.rest then labels.drop s.items.length else []
  if 0 < out.length ∧ out.length ≤ switchMaxLabels then return out else none

theorem apply_ne_nil {s : RuleStack} {labels out : Labels} (h : s.apply labels = some out) :
    out ≠ [] := by
  obtain ⟨front, -, h⟩ := Option.bind_eq_some_iff.mp h
  generalize (if s.rest then labels.drop s.items.length else []) = back at h
  obtain ⟨hlen, hout⟩ := Option.ite_none_right_eq_some.mp h
  cases hout
  exact length_pos_iff.mp hlen.1

end RuleStack

/-! ### Statements -/

inductive RuleType
  | exit | trunk | policy | mapping | capture | forward
  deriving DecidableEq, Repr

/-- A label selector of format 1; `none` is any label. -/
abbrev RuleLabel := Option UInt64

def RuleLabel.accepts (l : RuleLabel) (label : UInt64) : Bool := l.all (· == label)

structure RuleEndpoint where
  port : PortName := anyPort
  label : RuleLabel := none
  stackMatch : RuleStackMatch := {}
  deriving DecidableEq, Repr

/-- `text_v2`: an omitted port or match is not written. -/
def RuleEndpoint.textV2 (e : RuleEndpoint) : Bytes :=
  let out := if e.port = anyPort then [] else e.port
  let keyword := [ascii "to", ascii "allow", ascii "drop", ascii "capture"].contains e.port
  if !e.stackMatch.unrestricted || keyword then
    out ++ (if out = [] then [] else ascii ", ") ++ e.stackMatch.text
  else out

structure RuleStatement where
  type : RuleType := .policy
  input : RuleEndpoint := {}
  output : RuleEndpoint := {}
  stack : RuleStack := {}
  allow : Bool := false
  via : List Bytes := []
  deriving DecidableEq, Repr

/-- A pointer to a statement: its place in the file tells statements apart. -/
abbrev Rule := RuleStatement × ℕ

structure ViaService where
  client : PortName
  server : PortName
  relay : PortName := []
  clientRelay : PortName := []
  serverRelay : PortName := []
  failover : Bool := false
  pass : Bool := false
  instances : List Bytes := []
  deriving DecidableEq, Repr

namespace ViaService

def splitRelay (s : ViaService) : Bool := s.clientRelay != []

/-- `relay_matches` for one side of the service. -/
def relayMatches (s : ViaService) (parent : PortName) (serverSide : Bool) : Bool :=
  if s.splitRelay then
    parent != [] && routePortMatches (if serverSide then s.serverRelay else s.clientRelay) parent
  else if s.relay = [] then parent == []
  else parent != [] && routePortMatches s.relay parent

end ViaService

structure SwitchRuleset where
  format : ℕ := 1
  statements : List RuleStatement := []
  /-- The stable ids of origin ports. -/
  origins : OrderedMap PortName UInt64 := {}
  services : OrderedMap Bytes ViaService := {}
  deriving DecidableEq, Repr

namespace SwitchRuleset

def rules (r : SwitchRuleset) : List Rule := r.statements.zipIdx

/-- The place of a statement in the file tells which one it is. -/
theorem rules_unique {r : SwitchRuleset} {s t : Rule} (hs : s ∈ r.rules) (ht : t ∈ r.rules)
    (h : s.2 = t.2) : s = t := by
  have hs' := mk_mem_zipIdx_iff_getElem?.mp (show (s.1, s.2) ∈ _ from hs)
  have ht' := mk_mem_zipIdx_iff_getElem?.mp (show (t.1, t.2) ∈ _ from ht)
  rw [h, ht'] at hs'
  exact Prod.ext (Option.some.inj hs').symm h

def role (r : SwitchRuleset) (port : PortName) (type : RuleType) : Bool :=
  r.statements.any fun s => s.type == type && routePortMatches s.output.port port

end SwitchRuleset

/-! ### Programs -/

structure RulesProgram where
  format : ℕ := 1
  mappings : List Rule := []
  policies : List Rule := []
  /-- The exact labels of format 1. -/
  exactLabels : List (UInt64 × Rule) := []
  fallback : Option Rule := none
  deriving DecidableEq, Repr

namespace RulesProgram

/-- One statement of the constructor's loop. -/
def add (program : RulesProgram) (port : PortName) (s : Rule) : RulesProgram :=
  if routePortMatches s.1.input.port port then
    if 2 ≤ program.format then
      { program with
        mappings := program.mappings ++ if s.1.type = .forward then [s] else []
        policies := program.policies ++ if s.1.type = .forward ∨ s.1.type = .policy then [s] else [] }
    else if s.1.type = .mapping ∧ program.fallback.isNone then
      match s.1.input.label with
      | none => { program with fallback := some s, mappings := program.mappings ++ [s] }
      | some label =>
        if (program.exactLabels.lookup label).isNone then
          { program with
            exactLabels := (label, s) :: program.exactLabels
            mappings := program.mappings ++ [s] }
        else program
    else if s.1.type = .policy then { program with policies := program.policies ++ [s] }
    else program
  else program

/-- The constructor of `RulesProgram`. -/
def compile (r : SwitchRuleset) (port : PortName) : RulesProgram :=
  r.rules.foldl (fun program s => program.add port s) { format := r.format }

structure Within (program : RulesProgram) (r : SwitchRuleset) : Prop where
  format_eq : program.format = r.format
  mappings : ∀ s ∈ program.mappings, s ∈ r.rules
  policies : ∀ s ∈ program.policies, s ∈ r.rules

theorem Within.add {program : RulesProgram} {r : SwitchRuleset} (h : program.Within r) {s : Rule}
    (hs : s ∈ r.rules) (port : PortName) : (program.add port s).Within r := by
  have happend : ∀ {l : List Rule}, (∀ t ∈ l, t ∈ r.rules) → ∀ t ∈ l ++ [s], t ∈ r.rules := by
    intro l hl t ht
    rcases mem_append.mp ht with ht | ht
    · exact hl t ht
    · rw [mem_singleton.mp ht]
      exact hs
  have hcond : ∀ {l : List Rule} {c : Prop} [Decidable c], (∀ t ∈ l, t ∈ r.rules) →
      ∀ t ∈ l ++ (if c then [s] else []), t ∈ r.rules := by
    intro l c _ hl
    split
    · exact happend hl
    · rwa [append_nil]
  rw [RulesProgram.add]
  split
  next =>
    split
    next => exact ⟨h.format_eq, hcond h.mappings, hcond h.policies⟩
    next =>
    split
    next =>
      split
      next => exact ⟨h.format_eq, happend h.mappings, h.policies⟩
      next =>
      split
      next => exact ⟨h.format_eq, happend h.mappings, h.policies⟩
      next => exact h
    next =>
    split
    next => exact ⟨h.format_eq, h.mappings, happend h.policies⟩
    next => exact h
  next => exact h

theorem Within.foldl {r : SwitchRuleset} {port : PortName} {rest : List Rule}
    (hrest : ∀ s ∈ rest, s ∈ r.rules) {program : RulesProgram} (h : program.Within r) :
    (rest.foldl (fun program s => program.add port s) program).Within r := by
  induction rest generalizing program with
  | nil => exact h
  | cons s rest ih =>
    have hs := hrest s mem_cons_self
    exact ih (fun t ht => hrest t (mem_cons_of_mem _ ht)) (h.add hs port)

theorem compile_within (r : SwitchRuleset) (port : PortName) : (compile r port).Within r :=
  Within.foldl (fun _ hs => hs) ⟨rfl, by simp, by simp⟩

structure Covered (program : RulesProgram) : Prop where
  policies : ∀ s ∈ program.policies, s.1.type = .policy ∨ s ∈ program.mappings
  exactLabels : ∀ e ∈ program.exactLabels, e.2 ∈ program.mappings
  fallback : ∀ s ∈ program.fallback, s ∈ program.mappings

theorem Covered.add {program : RulesProgram} (h : program.Covered) (port : PortName) (s : Rule) :
    (program.add port s).Covered := by
  rw [RulesProgram.add]
  split
  · split
    · refine ⟨fun t ht => ?_, fun e he => mem_append_left _ (h.exactLabels e he),
        fun t ht => mem_append_left _ (h.fallback t ht)⟩
      rcases mem_append.mp ht with ht | ht
      · exact (h.policies t ht).imp_right (mem_append_left _)
      split at ht
      next htype =>
        rw [mem_singleton.mp ht]
        rcases htype with hforward | hpolicy
        · rw [if_pos hforward]
          exact .inr (mem_append_right _ mem_cons_self)
        · exact .inl hpolicy
      · cases ht
    · split
      · split
        · refine ⟨fun t ht => (h.policies t ht).imp_right (mem_append_left _),
            fun e he => mem_append_left _ (h.exactLabels e he), fun t ht => ?_⟩
          rw [← Option.some.inj ht]
          exact mem_append_right _ mem_cons_self
        · split
          · refine ⟨fun t ht => (h.policies t ht).imp_right (mem_append_left _), fun e he => ?_,
              fun t ht => mem_append_left _ (h.fallback t ht)⟩
            rcases mem_cons.mp he with rfl | he
            · exact mem_append_right _ mem_cons_self
            · exact mem_append_left _ (h.exactLabels e he)
          · exact h
      · split
        next hpolicy =>
          refine ⟨fun t ht => ?_, h.exactLabels, h.fallback⟩
          rcases mem_append.mp ht with ht | ht
          · exact h.policies t ht
          · rw [mem_singleton.mp ht]
            exact .inl hpolicy
        · exact h
  · exact h

theorem compile_covered (r : SwitchRuleset) (port : PortName) : (compile r port).Covered := by
  have hfold : ∀ (rest : List Rule) (program : RulesProgram), program.Covered →
      (rest.foldl (fun program s => program.add port s) program).Covered := by
    intro rest
    induction rest with
    | nil => exact fun _ h => h
    | cons s rest ih => exact fun program h => ih _ (h.add port s)
  exact hfold _ _ ⟨by simp, by simp, by simp⟩

def mapping (program : RulesProgram) (labels : Labels) : Option Rule :=
  if program.format = 1 then
    labels.head?.bind fun label => program.exactLabels.lookup label <|> program.fallback
  else
    program.policies.find? fun s =>
      s.1.input.stackMatch.accepts labels &&
        (s.1.type == .forward || (s.1.output.port == anyPort && s.1.output.stackMatch.unrestricted))

theorem mapping_mem {program : RulesProgram} (h : program.Covered) {labels : Labels} {s : Rule}
    (hs : program.mapping labels = some s) : s.1.type = .policy ∨ s ∈ program.mappings := by
  rw [mapping] at hs
  split at hs
  · obtain ⟨label, -, hs⟩ := Option.bind_eq_some_iff.mp hs
    right
    rcases hlookup : program.exactLabels.lookup label with _ | t
    · rw [hlookup] at hs
      exact h.fallback s hs
    rw [hlookup] at hs
    rw [← Option.some.inj hs]
    obtain ⟨l₁, l₂, hl, -⟩ := lookup_eq_some_iff.mp hlookup
    exact h.exactLabels (label, t) (hl ▸ mem_append_right l₁ mem_cons_self)
  · exact h.policies s (mem_of_find?_eq_some hs)

theorem mapping_accepts {program : RulesProgram} {labels : Labels} {s : Rule}
    (hformat : program.format ≠ 1) (h : program.mapping labels = some s) :
    s ∈ program.policies ∧ s.1.input.stackMatch.accepts labels := by
  rw [mapping, if_neg hformat] at h
  have hs := List.find?_some h
  exact ⟨mem_of_find?_eq_some h, ((Bool.and_eq_true _ _).mp hs).1⟩

/-- The later statements of a program that can refuse a candidate, in formats 2 and 3. -/
def allowedFrom (selected : Rule) (input : Labels) (port : PortName) (output : Labels) :
    List Rule → Bool
  | [] => false
  | s :: rest =>
    if s.2 = selected.2 then true
    else if s.1.type = .policy ∧ s.1.input.stackMatch.accepts input ∧
        routePortMatches s.1.output.port port ∧ s.1.output.stackMatch.accepts output then false
    else allowedFrom selected input port output rest

def allowed (program : RulesProgram) (selected : Rule) (input : Labels) (port : PortName)
    (output : Labels) : Bool :=
  if program.format = 1 then
    match input.head?, output.head? with
    | some i, some o =>
      ((program.policies.find? fun s => s.1.input.label.accepts i && s.1.output.label.accepts o &&
        routePortMatches s.1.output.port port).map fun s => s.1.allow).getD false
    | _, _ => false
  else allowedFrom selected input port output program.policies

end RulesProgram

end Tuntom
