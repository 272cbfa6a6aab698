import Tuntom.DivertSwitch
import Tuntom.ViaGuard

/-! `possible` of the VIA and of the divert path, from which the multi-worker switch
prepares the links of a plan: no decision of `route` leads to a port that it misses. -/
namespace Tuntom.Via

namespace Chain

def outputPort (chain : Chain) (port : PortName) : Bool :=
  !reserved port &&
    match chain.selector with
    | .rule r => routePortMatches r.1.output.port port
    | .adhoc _ => chain.program.mappings.any fun r => routePortMatches r.1.output.port port

/-- A port of the services from position `first` up to `last`, on one side. -/
def sidePort (chain : Chain) (first last : ℕ) (server : Bool) (port : PortName) : Bool :=
  (List.range' first (last - first)).any fun i =>
    (chain.services[i]?).any fun service =>
      service.instances.any fun m => (m.side server).contains port

end Chain

namespace SwitchPath

/-- What `possible` asks of one chain. -/
def possibleOn (path : SwitchPath) (source target : PortName) (chain : Chain) : Bool :=
  let n := chain.services.length
  (source == chain.origin && (chain.outputPort target || chain.sidePort 0 n false target)) ||
    (path.rules.role source .exit && chain.outputPort source &&
      (target == chain.origin || chain.sidePort 0 n true target)) ||
    chain.services.zipIdx.any fun (service, i) =>
      service.instances.any fun m =>
        (m.client.contains source &&
          (target == chain.origin || chain.outputPort target || chain.sidePort 0 i true target)) ||
        (m.server.contains source &&
          (chain.outputPort target || chain.sidePort (i + 1) n false target))

def possible (path : SwitchPath) (source target : PortName) : Bool :=
  path.chains.values.any (path.possibleOn source target)

end SwitchPath

section Possible
variable {path : SwitchPath} {live : PortName → Bool} {physical target : PortName} {env : Envelope}
  {course : Course} {H : EcmpHash} {frame : SwitchFrame} {chain : Chain}

theorem Chain.sidePort_of_member {first last i : ℕ} {server : Bool} {port : PortName}
    (h : chain.Member i server port) (hfirst : first ≤ i) (hlast : i < last) :
    chain.sidePort first last server port := by
  obtain ⟨service, m, hservice, hm, hport⟩ := h
  have hmem : i ∈ List.range' first (last - first) := by
    rw [List.mem_range'_1]
    omega
  refine List.any_eq_true.mpr ⟨i, hmem, ?_⟩
  rw [hservice]
  exact List.any_eq_true.mpr ⟨m, hm, List.contains_iff_mem.mpr hport⟩

theorem Chain.Member.lt {i : ℕ} {server : Bool} {port : PortName} (h : chain.Member i server port) :
    i < chain.services.length := by
  obtain ⟨service, m, hservice, -⟩ := h
  exact (List.getElem?_eq_some_iff.mp hservice).1

theorem Chain.outputPort_of_mapping {rules : SwitchRuleset}
    (hprogram : chain.program = RulesProgram.compile rules chain.origin) {saved : Labels}
    {mapping : Rule} (h : chain.mapping saved = some mapping) (htype : mapping.1.type = .forward)
    {port : PortName} (hport : reserved port = false)
    (hmatches : routePortMatches mapping.1.output.port port) : chain.outputPort port := by
  rw [outputPort, hport, Bool.not_false, Bool.true_and]
  rw [Chain.mapping] at h
  split
  next r hr =>
    rw [hr] at h
    rw [Option.some.inj h]
    exact hmatches
  next entry hentry =>
  rw [hentry, hprogram] at h
  rcases RulesProgram.mapping_mem (RulesProgram.compile_covered rules chain.origin) h with
    hpolicy | hmem
  · rw [htype] at hpolicy
    cases hpolicy
  · rw [hprogram]
    exact List.any_eq_true.mpr ⟨mapping, hmem, hmatches⟩

theorem Chain.outputPort_of_output {rules : SwitchRuleset}
    (hprogram : chain.program = RulesProgram.compile rules chain.origin) {saved : Labels}
    {port : PortName} (h : path.Output live chain saved port) : chain.outputPort port := by
  obtain ⟨mapping, output, hmapping, htype, -, hport⟩ := h
  have hfilter := (List.mem_filter.mp hport).2
  simp only [Bool.and_eq_true, Bool.not_eq_true'] at hfilter
  exact Chain.outputPort_of_mapping hprogram hmapping htype hfilter.1.1.1 hfilter.1.2

namespace SwitchPath

theorem resume_exit (h : path.resume live physical env = .ok course) (haction : env.action = .complete) :
    reserved physical = false ∧ ∃ mapping, course.chain.mapping env.saved = some mapping ∧
      mapping.1.type = .forward ∧ routePortMatches mapping.1.output.port physical := by
  simp only [resume] at h
  split at h
  · cases h
  next chain hchain =>
  split at h
  · cases h
  split at h
  · cases h
  next mapping hmapping =>
  split at h
  · cases h
  next hexit =>
  cases h
  simp only [not_or, not_not, Bool.not_eq_true, Bool.not_eq_false'] at hexit
  obtain ⟨-, -, hreserved, htype, -, houtput⟩ := hexit
  exact ⟨hreserved, mapping, hmapping, htype, houtput⟩

theorem possible_of_member {i : ℕ} {server : Bool} (h : chain.Member i server physical)
    (hnext : if server then chain.outputPort target ∨
        chain.sidePort (i + 1) chain.services.length false target
      else target = chain.origin ∨ chain.outputPort target ∨ chain.sidePort 0 i true target) :
    path.possibleOn physical target chain := by
  obtain ⟨service, m, hservice, hm, hport⟩ := h
  have hmem : (service, i) ∈ chain.services.zipIdx := List.mk_mem_zipIdx_iff_getElem?.mpr hservice
  rw [possibleOn, Bool.or_eq_true]
  refine .inr (List.any_eq_true.mpr ⟨(service, i), hmem, List.any_eq_true.mpr ⟨m, hm, ?_⟩⟩)
  have hcontains := List.contains_iff_mem.mpr hport
  cases server with
  | true =>
    rw [Bool.or_eq_true]
    right
    rw [show m.server.contains physical = true from hcontains, Bool.true_and, Bool.or_eq_true]
    exact hnext
  | false =>
    rw [Bool.or_eq_true]
    left
    rw [show m.client.contains physical = true from hcontains, Bool.true_and, Bool.or_eq_true,
      Bool.or_eq_true, beq_iff_eq, or_assoc]
    exact hnext

theorem possible_of_resume {d : Decision} {rules : SwitchRuleset}
    (hresume : path.resume live physical env = .ok course)
    (hprogram : course.chain.program = RulesProgram.compile rules course.chain.origin)
    (hforward : d.result = .forward) (htarget : d.target = some target)
    (hd : (course.skipChain = false ∧ offers H live frame course.chain course.env course.positions =
          some d) ∨ d = path.finish H live frame course.chain course.env course.skipChain) :
    path.possibleOn physical target course.chain := by
  obtain ⟨-, hsender, hcontinues⟩ := resume_ok hresume
  -- the next stop is a service of the remaining positions, or the end of the way
  have hstop : (∃ i ∈ course.positions, course.chain.Member i course.env.reverse target) ∨
      if course.env.reverse then target = course.chain.origin
      else course.chain.outputPort target := by
    rcases hd with ⟨-, hoffers⟩ | hfinish
    · obtain ⟨i, hi, t, ht, hmember⟩ := offers_target hoffers hforward
      rw [htarget, Option.some.injEq] at ht
      exact .inl ⟨i, hi, ht ▸ hmember⟩
    rw [hfinish] at hforward htarget
    obtain ⟨t, ht, hwhere⟩ := finish_target hforward
    rw [htarget, Option.some.injEq] at ht
    rw [← ht] at hwhere
    right
    split
    next hreverse =>
      rw [if_pos hreverse] at hwhere
      exact hwhere.1
    next hreverse =>
    rw [if_neg hreverse] at hwhere
    exact Chain.outputPort_of_output hprogram hwhere
  cases hsender with
  | onward haction hreverse hmember =>
    simp only [Continues, haction] at hcontinues
    have henv : course.env = env := congrArg Course.env hcontinues
    have hpositions := congrArg Course.positions hcontinues
    rw [henv, hreverse] at hstop
    refine possible_of_member hmember ?_
    rcases hstop with ⟨i, hi, hi'⟩ | hout
    · rw [hpositions, hreverse] at hi
      have hlow := (List.mem_range'_1.mp hi).1
      exact .inr (Chain.sidePort_of_member hi' hlow hi'.lt)
    · exact .inl hout
  | back haction hreverse hmember =>
    simp only [Continues, haction] at hcontinues
    have henv : course.env = env := congrArg Course.env hcontinues
    have hpositions := congrArg Course.positions hcontinues
    rw [henv, hreverse] at hstop
    refine possible_of_member hmember ?_
    rcases hstop with ⟨i, hi, hi'⟩ | horigin
    · rw [hpositions, hreverse] at hi
      have hhigh := List.mem_range.mp (List.mem_reverse.mp hi)
      exact .inr (.inr (Chain.sidePort_of_member hi' (Nat.zero_le _) hhigh))
    · exact .inl horigin
  | bypass haction hreverse hmember =>
    simp only [Continues, haction] at hcontinues
    have henv : course.env = env := congrArg Course.env hcontinues
    have hpositions : course.positions = [] := congrArg Course.positions hcontinues
    rw [henv, hreverse] at hstop
    refine possible_of_member hmember ?_
    rcases hstop with ⟨i, hi, -⟩ | hout
    · rw [hpositions] at hi
      cases hi
    · exact .inr (.inl hout)
  | exit haction hreverse hstep mapping hmapping hrole houtput =>
    simp only [Continues, haction] at hcontinues
    have henv : course.env.reverse = true := by rw [hcontinues]
    obtain ⟨hreserved, mapping, hmapping, htype, hmatches⟩ := resume_exit hresume haction
    have hsource := Chain.outputPort_of_mapping hprogram hmapping htype hreserved hmatches
    rw [henv] at hstop
    have hnext : target = course.chain.origin ∨
        course.chain.sidePort 0 course.chain.services.length true target := by
      rcases hstop with ⟨i, -, hi⟩ | horigin
      · exact .inr (Chain.sidePort_of_member hi (Nat.zero_le _) hi.lt)
      · exact .inl horigin
    rw [possibleOn, Bool.or_eq_true, Bool.or_eq_true, hrole, hsource, Bool.true_and, Bool.true_and,
      Bool.or_eq_true, beq_iff_eq]
    exact .inl (.inr hnext)

theorem start_admits {enabled : Bool} (h : path.start enabled physical frame env = .ok course) :
    (physical, course.chain) ∈ path.ingress ∧ course.env.reverse = env.reverse ∧
      course.skipChain = false := by
  simp only [start] at h
  split at h
  · cases h
  split at h
  · split at h
    · cases h
    · split at h <;> cases h
  next hcandidates =>
  split at h
  · cases h
  next chain hchain =>
  cases h
  refine ⟨?_, rfl, rfl⟩
  obtain ⟨e, he, hsome⟩ := List.mem_filterMap.mp (List.mem_of_find?_eq_some hchain)
  split at hsome
  next hphysical =>
    cases hsome
    rw [← hphysical]
    exact he
  · cases hsome

theorem possible_of_start {enabled : Bool} {d : Decision} {rules : SwitchRuleset}
    (hstart : path.start enabled physical frame env = .ok course) (hreverse : env.reverse = false)
    (horigin : physical = course.chain.origin)
    (hprogram : course.chain.program = RulesProgram.compile rules course.chain.origin)
    (hforward : d.result = .forward) (htarget : d.target = some target)
    (hd : offers H live frame course.chain course.env course.positions = some d ∨
      d = path.finish H live frame course.chain course.env course.skipChain) :
    path.possibleOn physical target course.chain := by
  obtain ⟨-, henv, -⟩ := start_admits hstart
  rw [hreverse] at henv
  have hnext : course.chain.outputPort target ∨
      course.chain.sidePort 0 course.chain.services.length false target := by
    rcases hd with hoffers | hfinish
    · obtain ⟨i, -, t, ht, hmember⟩ := offers_target hoffers hforward
      rw [htarget, Option.some.injEq] at ht
      rw [henv, ← ht] at hmember
      exact .inr (Chain.sidePort_of_member hmember (Nat.zero_le _) hmember.lt)
    rw [hfinish] at hforward htarget
    obtain ⟨t, ht, hwhere⟩ := finish_target hforward
    rw [htarget, Option.some.injEq] at ht
    rw [henv, if_neg Bool.false_ne_true, ← ht] at hwhere
    exact .inl (Chain.outputPort_of_output hprogram hwhere)
  rw [possibleOn, Bool.or_eq_true, Bool.or_eq_true, horigin, beq_self_eq_true, Bool.true_and,
    Bool.or_eq_true]
  exact .inl (.inl hnext)

end SwitchPath

theorem splitFrom_absent {skip : ℕ} {result env : Envelope} {labels : Labels}
    (h : splitFrom skip result labels = some env) (habsent : env.present = false) :
    env.reverse = result.reverse := by
  induction labels generalizing skip result with
  | nil =>
    rw [splitFrom] at h
    split at h
    · cases h
    · cases h
      rfl
  | cons label rest ih =>
    cases skip with
    | succ skip => exact ih h
    | zero =>
      rw [splitFrom] at h
      split at h
      · obtain ⟨next, hnext, hrest⟩ := Option.bind_eq_some_iff.mp h
        have hpresent := splitFrom_present hrest (present_of_readEnvelope hnext)
        rw [hpresent] at habsent
        cases habsent
      · have hrest := ih h
        exact hrest

namespace SwitchPath

theorem route_possible {state : State} {generation : ℕ} {expired : ℕ → Bool} {rules : SwitchRuleset}
    {adhoc : Option DivertConfig} {ports : List PortName} {relays : OrderedMap PortName PortName}
    (hcompile : (compile state generation expired rules adhoc ports relays).2 = .ok path)
    (hparsed : WellParsed rules (adhocMatches adhoc)) {enabled : Bool}
    (hforward : (path.route H live frame enabled physical).result = .forward)
    (htarget : (path.route H live frame enabled physical).target = some target) :
    path.possible physical target := by
  have hcompiled := compiled_of_compile hcompile
  have hvalues : ∀ {id : UInt32} {chain : Chain}, path.chains.find? id = some chain →
      path.possibleOn physical target chain → path.possible physical target := by
    intro id chain hchain hpossible
    refine List.any_eq_true.mpr ⟨chain, ?_, hpossible⟩
    exact List.mem_map.mpr ⟨(id, chain), OrderedMap.find?_eq_some_iff.mp hchain, rfl⟩
  rcases hsplit : split frame.labels with _ | env
  · rw [route, hsplit] at hforward
    cases hforward
  by_cases hpresent : env.present
  · obtain ⟨course, hresume, hd⟩ := route_present hsplit hpresent hforward
    have hfound := (resume_ok hresume).1.found
    have hprogram := (hcompiled.chains _ _ hfound).2.2.program_eq
    exact hvalues hfound (possible_of_resume hresume hprogram hforward htarget hd)
  rw [Bool.not_eq_true] at hpresent
  generalize hroute : path.route H live frame enabled physical = d at hforward htarget
  simp only [route, hsplit, hpresent, Bool.false_eq_true, if_false] at hroute
  split at hroute
  next e hstart =>
    subst hroute
    exfalso
    simp only [start] at hstart
    repeat' split at hstart
    all_goals cases hstart <;> cases hforward
  next course hstart =>
  obtain ⟨hingress, -, hskip⟩ := start_admits hstart
  obtain ⟨hfound, horigin⟩ := hcompiled.ingress_origin hparsed hingress
  have hprogram := (hcompiled.chains _ _ hfound).2.2.program_eq
  have hreverse : env.reverse = false := splitFrom_absent hsplit hpresent
  have hd : offers H live frame course.chain course.env course.positions = some d ∨
      d = path.finish H live frame course.chain course.env course.skipChain := by
    rw [hskip] at hroute ⊢
    split at hroute
    next d' hoffers =>
      subst hroute
      exact .inl hoffers
    · exact .inr hroute.symm
  exact hvalues hfound
    (possible_of_start hstart hreverse horigin hprogram hforward htarget hd)

end SwitchPath

end Possible

end Tuntom.Via

namespace Tuntom.Divert.SwitchPath

variable {path : SwitchPath} {live : PortName → Bool} {physical target : PortName} {H : EcmpHash}
  {frame : SwitchFrame}

theorem deliver_target {t : PortName} {labels : Labels} {exit : Bool}
    (h : (deliver live t labels exit).target = some target) : target = t :=
  (Option.some.inj h).symm

/-- A frame that goes on from the adapter reaches an output of a mapping of its origin. -/
theorem resume_target {env : Envelope} {origin : PortName} {fromOutput : Bool}
    (hforward : (path.resume H live env frame origin fromOutput).result = .forward)
    (htarget : (path.resume H live env frame origin fromOutput).target = some target) :
    ∃ r ∈ (path.normal origin).mappings, routePortMatches r.1.output.port target := by
  generalize hd : path.resume H live env frame origin fromOutput = d at hforward htarget
  simp only [resume] at hd
  split at hd
  · subst hd
    cases hforward
  next rule hrule =>
  split at hd
  · subst hd
    cases hforward
  next htype =>
  split at hd
  · subst hd
    cases hforward
  next rewritten hrewritten =>
  split at hd
  next hchoose =>
    subst hd
    dsimp only at hforward
    split at hforward <;> cases hforward
  next t choice hchoose =>
  have hmem := EcmpSelector.choose_mem (congrArg Prod.fst hchoose)
  have hconnected := (List.mem_filter.mp (List.mem_of_mem_filter hmem)).2
  rw [Bool.and_eq_true] at hconnected
  have ht : d.target = some t := by
    split at hd <;> (subst hd; rfl)
  rw [htarget, Option.some.injEq] at ht
  rcases RulesProgram.mapping_mem (RulesProgram.compile_covered path.rules origin) hrule with
    hpolicy | hmapping
  · exact absurd hpolicy htype
  · exact ⟨rule, hmapping, ht ▸ hconnected.1⟩

theorem route_possible {enabled : Bool}
    (hforward : (path.route H live frame enabled physical).result = .forward)
    (htarget : (path.route H live frame enabled physical).target = some target) :
    path.possible physical target := by
  generalize hd : path.route H live frame enabled physical = d at hforward htarget
  simp only [route] at hd
  split at hd
  · subst hd
    cases hforward
  next env henv =>
  split at hd
  next hplain =>
    -- not an adapter port: the frame can only go to the adapter
    have hpossible : path.possible physical target =
        ((path.config.origins.contains physical && target == path.config.input) ||
          target == path.config.output) := by
      rw [possible, beq_false_of_ne hplain.1, beq_false_of_ne hplain.2]
      rfl
    rw [hpossible]
    split at hd
    · split at hd
      · subst hd
        cases hforward
      · subst hd
        rw [deliver_target htarget, beq_self_eq_true, Bool.or_true]
    split at hd
    · subst hd
      cases hforward
    next id hid =>
    split at hd
    · subst hd
      cases hforward
    split at hd
    · subst hd
      cases hforward
    subst hd
    rw [deliver_target htarget, beq_self_eq_true, Bool.and_true, OrderedMap.contains, hid]
    rfl
  next hadapter =>
  split at hd
  · subst hd
    cases hforward
  split at hd
  · subst hd
    cases hforward
  next origin horigin =>
  have hfound := path.config.names_sound _ _ horigin
  have hcontains : path.config.origins.contains origin := by
    rw [OrderedMap.contains, hfound]
    rfl
  split at hd
  next hclient =>
    subst hd
    rw [deliver_target htarget, possible, hclient.1, beq_self_eq_true, hcontains]
    rfl
  split at hd
  · subst hd
    obtain ⟨r, hr, hmatches⟩ := resume_target hforward htarget
    rw [possible]
    split
    · rfl
    have hside : (physical == path.config.input || physical == path.config.output) = true := by
      rw [Bool.or_eq_true, beq_iff_eq, beq_iff_eq]
      tauto
    rw [if_pos hside]
    exact List.any_eq_true.mpr ⟨(origin, _), OrderedMap.find?_eq_some_iff.mp hfound,
      List.any_eq_true.mpr ⟨r, hr, hmatches⟩⟩
  · subst hd
    cases hforward

end Tuntom.Divert.SwitchPath

namespace Tuntom.Mp

open Via (Decision)

inductive Diversion
  | via (path : Via.SwitchPath)
  | divert (path : Divert.SwitchPath)

namespace Diversion

def possible : Diversion → PortName → PortName → Bool
  | .via path => path.possible
  | .divert path => path.possible

def route (H : EcmpHash) (live : PortName → Bool) (frame : SwitchFrame) (enabled : Bool)
    (ingress : PortName) : Diversion → Decision
  | .via path => path.route H live frame enabled ingress
  | .divert path => path.route H live frame enabled ingress

inductive Made : Diversion → Prop
  | via {state : Via.State} {generation : ℕ} {expired : ℕ → Bool} {rules : SwitchRuleset}
      {adhoc : Option Via.DivertConfig} {ports : List PortName}
      {relays : OrderedMap PortName PortName} {path : Via.SwitchPath}
      (hcompile : (Via.SwitchPath.compile state generation expired rules adhoc ports relays).2 =
        .ok path)
      (hparsed : Via.WellParsed rules (Via.adhocMatches adhoc)) : Made (.via path)
  | divert (path : Divert.SwitchPath) : Made (.divert path)

end Diversion

structure PlanPort where
  name : PortName
  channels : List PortName := []
  deriving DecidableEq, Repr

def PlanPort.sources (p : PlanPort) : List PortName := p.name :: p.channels

/-- `names` of `make_plan`: every name with the port behind it; the first entry counts. -/
def planNames (ports : List PlanPort) : List (PortName × PlanPort) :=
  ports.map (fun p => (p.name, p)) ++ ports.flatMap fun p => p.channels.map fun name => (name, p)

/-- `divert_routes` of a receiving port: the links prepared for its diverted frames. -/
def divertRoutes (d : Diversion) (ports : List PlanPort) (p : PlanPort) : List (PortName × PlanPort) :=
  (planNames ports).filter fun named => p.sources.any fun source => d.possible source named.1

theorem mem_planNames {ports : List PlanPort} {name : PortName} {owner : PlanPort} :
    (name, owner) ∈ planNames ports ↔ owner ∈ ports ∧ name ∈ owner.sources := by
  simp only [planNames, List.mem_append, List.mem_map, List.mem_flatMap, Prod.mk.injEq,
    PlanPort.sources, List.mem_cons]
  constructor
  · rintro (⟨p, hp, rfl, rfl⟩ | ⟨p, hp, _, hc, rfl, rfl⟩)
    · exact ⟨hp, .inl rfl⟩
    · exact ⟨hp, .inr hc⟩
  · rintro ⟨hp, rfl | hc⟩
    · exact .inl ⟨owner, hp, rfl, rfl⟩
    · exact .inr ⟨owner, hp, name, hc, rfl, rfl⟩

theorem lookup_of_mem {α β : Type} [BEq α] [LawfulBEq α] {l : List (α × β)} {a : α} {b : β}
    (h : (a, b) ∈ l) : ∃ b', l.lookup a = some b' ∧ (a, b') ∈ l := by
  induction l with
  | nil => cases h
  | cons e l ih =>
    rw [List.lookup_cons]
    split
    next heq =>
      rw [beq_iff_eq] at heq
      exact ⟨e.2, rfl, by rw [heq]; exact List.mem_cons_self⟩
    next hne =>
    rcases List.mem_cons.mp h with rfl | h
    · simp at hne
    · obtain ⟨b', hb, hmem⟩ := ih h
      exact ⟨b', hb, List.mem_cons_of_mem _ hmem⟩

/-- Whatever a diverting path decides to forward, `possible` has foreseen, from every port
and for every frame; so a target that the plan has is found among the prepared links. -/
theorem possible_covers_route {d : Diversion} (hd : d.Made) {H : EcmpHash} {live : PortName → Bool}
    {frame : SwitchFrame} {enabled : Bool} {ingress target : PortName}
    (hforward : (d.route H live frame enabled ingress).result = .forward)
    (htarget : (d.route H live frame enabled ingress).target = some target) :
    d.possible ingress target ∧
      ∀ ports : List PlanPort, ∀ p ∈ ports, ingress ∈ p.sources →
        (∃ owner ∈ ports, target ∈ owner.sources) →
          ∃ owner ∈ ports, (divertRoutes d ports p).lookup target = some owner ∧
            target ∈ owner.sources := by
  have hpossible : d.possible ingress target := by
    cases hd with
    | via hcompile hparsed => exact Via.SwitchPath.route_possible hcompile hparsed hforward htarget
    | divert path => exact Divert.SwitchPath.route_possible hforward htarget
  refine ⟨hpossible, fun ports p _ hingress ⟨owner, howner, hname⟩ => ?_⟩
  have hmem : (target, owner) ∈ divertRoutes d ports p :=
    List.mem_filter.mpr ⟨mem_planNames.mpr ⟨howner, hname⟩,
      List.any_eq_true.mpr ⟨ingress, hingress, hpossible⟩⟩
  obtain ⟨owner', hlookup, hmem'⟩ := lookup_of_mem hmem
  obtain ⟨hport, hsources⟩ := mem_planNames.mp (List.mem_of_mem_filter hmem')
  exact ⟨owner', hport, hlookup, hsources⟩

theorem possible_covers_route_sample :
    (Diversion.via Via.samplePath).possible (ascii "edge") (ascii "proxy-in1~via:c:p#1") := by
  have hparsed : Via.WellParsed Via.sampleRules (Via.adhocMatches none) :=
    ⟨by decide +kernel, by decide +kernel, by decide +kernel, by decide +kernel⟩
  have hforward : ((Diversion.via Via.samplePath).route Via.sampleHash (fun _ => true)
      ⟨[17, 42], [1]⟩ false (ascii "edge")).result = .forward := by decide +kernel
  have htarget : ((Diversion.via Via.samplePath).route Via.sampleHash (fun _ => true)
      ⟨[17, 42], [1]⟩ false (ascii "edge")).target = some (ascii "proxy-in1~via:c:p#1") := by
    decide +kernel
  exact (possible_covers_route (.via Via.samplePath_compiled hparsed) hforward htarget).1

end Tuntom.Mp
