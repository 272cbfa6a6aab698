import Tuntom.ViaSwitch

/-! What the constructor of a `SwitchPath` guarantees: an instance has the ports that
registered for it, and a chain the services that its rule names. -/
namespace Tuntom.Via
open List

def Registered (config : ViaService) (ports : List PortName) (id : Bytes) (server : Bool)
    (port : PortName) : Prop :=
  port ∈ ports ∧ ∃ r, registration port = some r ∧ r.server = server ∧ r.instanceId = id ∧
    attachmentMatches config r

namespace Service

structure Sound (config : ViaService) (ports : List PortName) (s : Service) : Prop where
  config_eq : s.config = config
  registered : ∀ m ∈ s.instances, ∀ server, ∀ port ∈ m.side server,
    Registered config ports m.id server port
  unique : ∀ m ∈ s.instances, ∀ m' ∈ s.instances, m.id = m'.id → m = m'

def Paired (config : ViaService) (ports : List PortName) (pairs : OrderedMap Bytes Instance) : Prop :=
  ∀ id m, pairs.find? id = some m → m.id = id ∧
    ∀ server, ∀ port ∈ m.side server, Registered config ports id server port

theorem mem_side_add {pair : Instance} {config : ViaService} {r : Registration}
    {parent port p : PortName} {server : Bool} (h : p ∈ (pair.add config r parent port).side server) :
    p ∈ pair.side server ∨ p = port ∧ server = r.server := by
  simp only [Instance.side, Instance.add] at h ⊢
  cases server <;> cases hr : r.server <;> simp_all

theorem Paired.pairUp {config : ViaService} {ports : List PortName}
    {relays : OrderedMap PortName PortName} {pairs : OrderedMap Bytes Instance} {port : PortName}
    (h : Paired config ports pairs) (hport : port ∈ ports) :
    Paired config ports (pairUp config relays pairs port) := by
  rw [Service.pairUp]
  split
  next => exact h
  next r hr =>
  dsimp only
  split
  next hmatches =>
    have hattach : attachmentMatches config r := ((Bool.and_eq_true _ _).mp hmatches).2
    intro id m hm
    rw [OrderedMap.find?_insert] at hm
    split at hm
    next hid =>
      subst hid
      cases hm
      refine ⟨rfl, fun server p hp => ?_⟩
      rcases mem_side_add hp with hold | ⟨rfl, rfl⟩
      · cases hfind : pairs.find? r.instanceId with
        | none =>
          rw [hfind] at hold
          cases server <;> cases hold
        | some pair =>
          rw [hfind] at hold
          exact (h _ _ hfind).2 server p hold
      · exact ⟨hport, r, hr, rfl, rfl, hattach⟩
    next => exact h id m hm
  next => exact h

theorem Paired.foldl {config : ViaService} {ports : List PortName}
    {relays : OrderedMap PortName PortName} (rest : List PortName) (hrest : ∀ p ∈ rest, p ∈ ports)
    {pairs : OrderedMap Bytes Instance} (h : Paired config ports pairs) :
    Paired config ports (rest.foldl (Service.pairUp config relays) pairs) := by
  induction rest generalizing pairs with
  | nil => exact h
  | cons port rest ih =>
    have hhead := hrest port mem_cons_self
    exact ih (fun p hp => hrest p (mem_cons_of_mem _ hp)) (h.pairUp hhead)

theorem compile_sound (config : ViaService) (relays : OrderedMap PortName PortName)
    (ports : List PortName) : Sound config ports (compile config relays ports) := by
  have hpaired : Paired config ports (ports.foldl (pairUp config relays) {}) :=
    Paired.foldl ports (fun _ hp => hp) (by rintro _ _ ⟨⟩)
  -- whichever way the instances are listed, each of them is a pair found under its id
  have hfound : ∀ m ∈ (compile config relays ports).instances,
      (ports.foldl (pairUp config relays) {}).find? m.id = some m := by
    intro m hm
    have hm := mem_of_mem_filter hm
    split at hm
    · obtain ⟨id, -, hid⟩ := mem_filterMap.mp hm
      rw [(hpaired id m hid).1, hid]
    obtain ⟨e, he, rfl⟩ := mem_map.mp hm
    have hid := OrderedMap.find?_eq_some_iff.mpr he
    rw [(hpaired e.1 e.2 hid).1, hid]
  refine ⟨rfl, fun m hm => (hpaired _ m (hfound m hm)).2, fun m hm m' hm' hid => ?_⟩
  have hm := hfound m hm
  rw [hid, hfound m' hm'] at hm
  exact (Option.some.inj hm).symm

end Service

/-! ### Chains -/

/-- A chain belongs to a call of `add`, and has the services that its statement names. -/
structure Chain.Configured (rules : SwitchRuleset) (services : List (Bytes × Service))
    (calls : List Addition) (chain : Chain) : Prop where
  added : ⟨chain.origin, chain.originId, chain.selector⟩ ∈ calls
  program_eq : chain.program = RulesProgram.compile rules chain.origin
  services_eq : chain.selector.via.mapM (fun name => services.lookup name) = some chain.services

namespace Building

variable {generation : ℕ} {rules : SwitchRuleset} {services : List (Bytes × Service)}
  {calls : List Addition}

/-- The invariant of the constructor: a chain stands under the id of its key, and an
ingress port has chains whose id is that of one of its own keys. -/
structure Inv (generation : ℕ) (rules : SwitchRuleset) (services : List (Bytes × Service))
    (calls : List Addition) (b : Building) : Prop where
  chains : ∀ id chain, b.chains.find? id = some chain → chain.id = id ∧
    chain.Configured rules services calls ∧
    b.state.generations.idOf generation (chain.selector.key chain.origin) = some id
  ingress : ∀ p chain, (p, chain) ∈ b.ingress → b.chains.find? chain.id = some chain ∧
    ∃ a ∈ calls, a.origin = p ∧
      b.state.generations.idOf generation (a.selector.key p) = some chain.id

theorem Inv.init (state : State) : Inv generation rules services calls { state := state } where
  chains := fun _ chain h => absurd (show none = some chain from h) (by simp)
  ingress := fun _ _ h => absurd h not_mem_nil

theorem Inv.add {b b' : Building} {a : Addition} (h : Inv generation rules services calls b)
    (ha : a ∈ calls) (hadd : b.add generation rules services a = (b', none)) :
    Inv generation rules services calls b' := by
  simp only [Building.add] at hadd
  split at hadd
  next => cases hadd
  next =>
  split at hadd
  next => cases hadd
  next members hmembers =>
  rcases hid : b.state.identify generation (a.selector.key a.origin) with ⟨state, e | id⟩
  · rw [hid] at hadd
    cases hadd
  rw [hid] at hadd
  cases hadd
  obtain ⟨hkey, hkeep⟩ := State.identify_ok hid
  -- the entry of the id, whether it is new or was there before
  have hentry : ∀ entry, (b.chains.find? id).getD
      { id := id, origin := a.origin, originId := a.originId, selector := a.selector
        program := RulesProgram.compile rules a.origin, services := members } = entry →
      entry.id = id ∧ entry.Configured rules services calls ∧
        state.generations.idOf generation (entry.selector.key entry.origin) = some id := by
    intro entry hentry
    cases hfind : b.chains.find? id with
    | none =>
      rw [hfind] at hentry
      subst hentry
      exact ⟨rfl, ⟨ha, rfl, hmembers⟩, hkey⟩
    | some chain =>
      rw [hfind] at hentry
      subst hentry
      obtain ⟨h₁, h₂, h₃⟩ := h.chains id chain hfind
      exact ⟨h₁, h₂, hkeep _ _ _ h₃⟩
  generalize hdef : (b.chains.find? id).getD
    { id := id, origin := a.origin, originId := a.originId, selector := a.selector
      program := RulesProgram.compile rules a.origin, services := members } = entry at hentry ⊢
  obtain ⟨hentryId, hentryOk⟩ := hentry entry rfl
  constructor
  · intro i chain hchain
    rw [OrderedMap.find?_insert] at hchain
    split at hchain
    next hi =>
      subst hi
      cases hchain
      exact ⟨hentryId, hentryOk⟩
    next =>
    obtain ⟨h₁, h₂, h₃⟩ := h.chains i chain hchain
    exact ⟨h₁, h₂, hkeep _ _ _ h₃⟩
  · intro p chain hp
    rcases mem_append.mp hp with hold | hnew
    · obtain ⟨hfind, a', ha', hp', hid'⟩ := h.ingress p chain hold
      refine ⟨?_, a', ha', hp', hkeep _ _ _ hid'⟩
      rw [OrderedMap.find?_insert]
      split
      next hi =>
        rw [hi] at hfind
        rw [hfind] at hdef
        rw [← hdef]
        rfl
      next => exact hfind
    obtain ⟨rfl, rfl⟩ := Prod.mk.inj (mem_singleton.mp hnew)
    refine ⟨?_, a, ha, rfl, ?_⟩
    · rw [OrderedMap.find?_insert, if_pos hentryId]
    · rw [hentryId, hkey]

theorem Inv.addAll {rest : List Addition} (hrest : ∀ a ∈ rest, a ∈ calls) {b b' : Building}
    (h : Inv generation rules services calls b)
    (hadd : addAll generation rules services rest b = (b', none)) :
    Inv generation rules services calls b' := by
  induction rest generalizing b with
  | nil => cases hadd; exact h
  | cons a rest ih =>
    rw [Building.addAll] at hadd
    split at hadd
    next => cases hadd
    next b'' hstep =>
    have ha := hrest a mem_cons_self
    exact ih (fun a' ha' => hrest a' (mem_cons_of_mem _ ha')) (h.add ha hstep) hadd

end Building

theorem getElem?_of_mapM {α β : Type} {f : α → Option β} {l : List α} {l' : List β}
    (h : l.mapM f = some l') {i : ℕ} {b : β} (hb : l'[i]? = some b) :
    ∃ a, l[i]? = some a ∧ f a = some b := by
  induction l generalizing l' i with
  | nil => cases h; cases hb
  | cons a l ih =>
    rw [mapM_cons] at h
    obtain ⟨b₀, hb₀, h⟩ := Option.bind_eq_some_iff.mp h
    obtain ⟨l₀, hl₀, h⟩ := Option.bind_eq_some_iff.mp h
    cases h
    cases i with
    | zero => cases hb; exact ⟨a, rfl, hb₀⟩
    | succ i => exact ih hl₀ hb

theorem length_of_mapM {α β : Type} {f : α → Option β} {l : List α} {l' : List β}
    (h : l.mapM f = some l') : l'.length = l.length := by
  induction l generalizing l' with
  | nil => cases h; rfl
  | cons a l ih =>
    rw [mapM_cons] at h
    obtain ⟨b₀, -, h⟩ := Option.bind_eq_some_iff.mp h
    obtain ⟨l₀, hl₀, h⟩ := Option.bind_eq_some_iff.mp h
    cases h
    rw [length_cons, length_cons, ih hl₀]

namespace SwitchPath

structure Compiled (state : State) (rules : SwitchRuleset) (adhoc : Option DivertConfig)
    (ports : List PortName) (relays : OrderedMap PortName PortName) (path : SwitchPath) : Prop where
  format_eq : rules.format = 3
  rules_eq : path.rules = rules
  ports_eq : path.ports = ports
  cookie_eq : path.cookie = state.cookie
  programs_eq : path.programs = (ports ++ rules.origins.entries.map Prod.fst).map fun port =>
    (port, RulesProgram.compile rules port)
  services_eq : path.services = rules.services.entries.map fun e =>
    (e.1, Service.compile e.2 relays ports)
  chains : ∀ id chain, path.chains.find? id = some chain → chain.id = id ∧ 0 < id.toNat ∧
    chain.Configured rules path.services (additions rules (adhocMatches adhoc))
  ingress : ∀ p chain, (p, chain) ∈ path.ingress → path.chains.find? chain.id = some chain ∧
    ∃ a ∈ additions rules (adhocMatches adhoc), a.origin = p ∧
      a.selector.key p = chain.selector.key chain.origin

theorem compiled_of_compile {state : State} {generation : ℕ} {expired : ℕ → Bool}
    {rules : SwitchRuleset} {adhoc : Option DivertConfig} {ports : List PortName}
    {relays : OrderedMap PortName PortName} {path : SwitchPath}
    (h : (compile state generation expired rules adhoc ports relays).2 = .ok path) :
    Compiled state rules adhoc ports relays path := by
  simp only [compile] at h
  split at h
  next => cases h
  next hformat =>
  split at h
  next => cases h
  next =>
  split at h
  next => cases h
  next =>
  split at h
  next => cases h
  next =>
  split at h
  next => cases h
  next b hbuild =>
  cases h
  have hinv := (Building.Inv.init (state.maintain expired)).addAll (fun _ ha => ha) hbuild
  refine ⟨not_not.mp hformat, rfl, rfl, rfl, rfl, rfl, ?_, ?_⟩
  · intro id chain hchain
    obtain ⟨hid, hconf, hkey⟩ := hinv.chains id chain hchain
    exact ⟨hid, (b.state.issued.bounds _ _ _ hkey).1, hconf⟩
  · intro p chain hp
    obtain ⟨hchain, a, ha, horigin, hkey⟩ := hinv.ingress p chain hp
    obtain ⟨-, -, hkey'⟩ := hinv.chains _ chain hchain
    exact ⟨hchain, a, ha, horigin, (b.state.issued.unique _ _ _ _ _ hkey hkey').2⟩

theorem mem_of_lookup {α β γ : Type} [BEq α] [LawfulBEq α] {f : β → γ} {l : List (α × β)} {a : α} {c : γ}
    (h : (l.map fun e => (e.1, f e.2)).lookup a = some c) : ∃ b, (a, b) ∈ l ∧ f b = c := by
  induction l with
  | nil => cases h
  | cons e l ih =>
    rw [map_cons, lookup_cons] at h
    split at h
    next heq =>
      rw [beq_iff_eq] at heq
      subst heq
      exact ⟨e.2, mem_cons_self, Option.some.inj h⟩
    next =>
    obtain ⟨b, hb, hc⟩ := ih h
    exact ⟨b, mem_cons_of_mem _ hb, hc⟩

variable {state : State} {rules : SwitchRuleset} {adhoc : Option DivertConfig}
  {ports : List PortName} {relays : OrderedMap PortName PortName} {path : SwitchPath}

theorem Compiled.service (h : Compiled state rules adhoc ports relays path) {id : UInt32}
    {chain : Chain} (hchain : path.chains.find? id = some chain) {i : ℕ} {service : Service}
    (hservice : chain.services[i]? = some service) :
    ∃ name config, chain.selector.via[i]? = some name ∧ rules.services.find? name = some config ∧
      service.Sound config ports := by
  obtain ⟨-, -, hconf⟩ := h.chains id chain hchain
  obtain ⟨name, hname, hlookup⟩ := getElem?_of_mapM hconf.services_eq hservice
  rw [h.services_eq] at hlookup
  obtain ⟨config, hmem, rfl⟩ := mem_of_lookup (f := fun config => Service.compile config relays ports) hlookup
  exact ⟨name, config, hname, OrderedMap.find?_eq_some_iff.mpr hmem,
    Service.compile_sound config relays ports⟩

end SwitchPath

/-! ### Origins -/

/-- What `parse_switch_ruleset` and the reader of a divert file guarantee of names, ids
and chain lengths. -/
structure WellParsed (rules : SwitchRuleset) (adhoc : List RuleStatement) : Prop where
  origin_printable : ∀ e ∈ rules.origins.entries, ∀ b ∈ e.1, 0x21 ≤ b ∧ b ≤ 0x7e
  origin_nonzero : ∀ e ∈ rules.origins.entries, e.2 ≠ 0
  via_short : ∀ s ∈ rules.statements, s.via.length ≤ rulesetMaxStatements
  adhoc_short : ∀ s ∈ adhoc, s.via.length ≤ rulesetMaxStatements

namespace ChainSelector

theorem key_origin {s s' : ChainSelector} {o o' : PortName} (ho : ∀ b ∈ o, b ≠ 10)
    (ho' : ∀ b ∈ o', b ≠ 10) (h : s.key o = s'.key o') : o = o' := by
  have hkey : ∀ (s : ChainSelector) (o : PortName), (∀ b ∈ o, b ≠ 10) →
      ((s.key o).drop 7).takeWhile (· != 10) = o := by
    intro s o ho
    obtain ⟨tail, htail⟩ : ∃ tail, s.key o = ascii "origin=" ++ (o ++ 10 :: tail) := by
      cases s <;> exact ⟨_, by simp [key, ascii]; rfl⟩
    have hall : ∀ b ∈ o, (b != 10) = true := fun b hb => bne_iff_ne.mpr (ho b hb)
    rw [htail]
    change (o ++ 10 :: tail).takeWhile (· != 10) = o
    rw [takeWhile_append_of_pos hall]
    simp
  rw [← hkey s o ho, h, hkey s' o' ho']

end ChainSelector

namespace SwitchPath

theorem mem_additions {rules : SwitchRuleset} {adhoc : List RuleStatement} {a : Addition}
    (h : a ∈ additions rules adhoc) : (a.origin, a.originId) ∈ rules.origins.entries ∧
      ((∃ entry ∈ adhoc, a.selector = .adhoc entry) ∨
        ∃ r ∈ (RulesProgram.compile rules a.origin).mappings, a.selector = .rule r) := by
  obtain ⟨⟨origin, originId⟩, horigin, ha⟩ := mem_flatMap.mp h
  rcases mem_append.mp ha with ha | ha
  · obtain ⟨entry, hentry, rfl⟩ := mem_map.mp ha
    exact ⟨horigin, .inl ⟨entry, mem_of_mem_filter hentry, rfl⟩⟩
  · obtain ⟨r, hr, rfl⟩ := mem_map.mp ha
    exact ⟨horigin, .inr ⟨r, mem_of_mem_filter hr, rfl⟩⟩

variable {path : SwitchPath} {chain : Chain} {physical : PortName} {state : State}
  {rules : SwitchRuleset} {adhoc : Option DivertConfig} {ports : List PortName}
  {relays : OrderedMap PortName PortName}

theorem Compiled.chain_bounds (h : Compiled state rules adhoc ports relays path)
    (hparsed : WellParsed rules (adhocMatches adhoc)) {id : UInt32}
    (hchain : path.chains.find? id = some chain) :
    chain.id ≠ 0 ∧ chain.originId ≠ 0 ∧ chain.services.length ≤ rulesetMaxStatements ∧
      ∀ b ∈ chain.origin, b ≠ 10 := by
  obtain ⟨hid, hpos, hconf⟩ := h.chains id chain hchain
  obtain ⟨horigin, hselector⟩ := mem_additions hconf.added
  refine ⟨?_, hparsed.origin_nonzero _ horigin, ?_, ?_⟩
  · rintro hzero
    rw [← hid, hzero] at hpos
    exact absurd hpos (by decide)
  · rw [length_of_mapM hconf.services_eq]
    rcases hselector with ⟨entry, hentry, hselector⟩ | ⟨r, hr, hselector⟩
    · simp only at hselector
      rw [hselector]
      exact hparsed.adhoc_short entry hentry
    simp only at hselector
    rw [hselector]
    have hmem := (RulesProgram.compile_within rules chain.origin).mappings r hr
    exact hparsed.via_short r.1 (fst_mem_of_mem_zipIdx hmem)
  · rintro b hb rfl
    exact absurd (hparsed.origin_printable _ horigin 10 hb).1 (by decide)

theorem Compiled.ingress_origin (h : Compiled state rules adhoc ports relays path)
    (hparsed : WellParsed rules (adhocMatches adhoc)) (hin : (physical, chain) ∈ path.ingress) :
    path.chains.find? chain.id = some chain ∧ physical = chain.origin := by
  obtain ⟨hchain, a, ha, hphysical, hkey⟩ := h.ingress physical chain hin
  refine ⟨hchain, ?_⟩
  obtain ⟨horigin, -⟩ := mem_additions ha
  have hclean : ∀ b ∈ physical, b ≠ 10 := by
    rintro b hb rfl
    rw [hphysical] at horigin
    exact absurd (hparsed.origin_printable _ horigin 10 hb).1 (by decide)
  exact ChainSelector.key_origin hclean (h.chain_bounds hparsed hchain).2.2.2 hkey

end SwitchPath

end Tuntom.Via
