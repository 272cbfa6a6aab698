import Tuntom.ViaCompiled
import Tuntom.ViaRoute

/-! A chain can be entered only where its envelope says that the frame is, and is left
only towards a later service, an output of its mapping or, on the way back, its origin. -/
namespace Tuntom.Via
open List

/-- A port of some instance of the service at position `i`, on one side. -/
def Chain.Member (chain : Chain) (i : ℕ) (server : Bool) (port : PortName) : Prop :=
  ∃ service m, chain.services[i]? = some service ∧ m ∈ service.instances ∧ port ∈ m.side server

namespace SwitchPath

structure Names (path : SwitchPath) (env : Envelope) (chain : Chain) : Prop where
  found : path.chains.find? env.chain = some chain
  cookie_eq : env.cookie = path.cookie
  originId_eq : env.originId = chain.originId
  saved_accepted : chain.selector.inputMatch.accepts env.saved

inductive Sender (path : SwitchPath) (chain : Chain) (env : Envelope) (physical : PortName) : Prop
  | onward (h : env.action = .onward) (hreverse : env.reverse = false)
      (hmember : chain.Member env.step.toNat true physical)
  | back (h : env.action = .onward) (hreverse : env.reverse = true)
      (hmember : chain.Member env.step.toNat false physical)
  | bypass (h : env.action = .bypass) (hreverse : env.reverse = false)
      (hmember : chain.Member env.step.toNat false physical)
  | exit (h : env.action = .complete) (hreverse : env.reverse = false) (hstep : env.step = 65535)
      (mapping : Rule) (hmapping : chain.mapping env.saved = some mapping)
      (hrole : path.rules.role physical .exit)
      (houtput : routePortMatches mapping.1.output.port physical)

def Continues (chain : Chain) (env : Envelope) (course : Course) : Prop :=
  match env.action with
  | .complete => course =
      { chain := chain, env := { env with reverse := true }
        positions := (List.range chain.services.length).reverse }
  | .bypass => course = { chain := chain, env := env, positions := [], skipChain := true }
  | .onward => course =
      { chain := chain, env := env
        positions := if env.reverse then (List.range env.step.toNat).reverse
          else List.range' (env.step.toNat + 1) (chain.services.length - (env.step.toNat + 1)) }
  | .offer => False

theorem mem_of_locate {s : Service} {physical : PortName} {m : Instance} {client : Bool}
    (h : s.locate physical = some (m, client)) : m ∈ s.instances ∧ physical ∈ m.side !client := by
  obtain ⟨l₁, a, l₂, hl, ha, -⟩ := List.findSome?_eq_some_iff.mp h
  have hmem : a ∈ s.instances := hl ▸ mem_append_right l₁ mem_cons_self
  split at ha
  next hc =>
    cases ha
    exact ⟨hmem, contains_iff_mem.mp hc⟩
  next =>
  split at ha
  next hs =>
    cases ha
    exact ⟨hmem, contains_iff_mem.mp hs⟩
  next => cases ha

variable {path : SwitchPath} {live : PortName → Bool} {physical : PortName} {env : Envelope}
  {course : Course} {H : EcmpHash} {frame : SwitchFrame}

theorem resume_ok (h : path.resume live physical env = .ok course) :
    path.Names env course.chain ∧ path.Sender course.chain env physical ∧
      Continues course.chain env course := by
  simp only [resume] at h
  split at h
  next => cases h
  next chain hchain =>
  split at h
  next => cases h
  next hnames =>
  simp only [not_or, not_not, Bool.not_eq_true, Bool.not_eq_false'] at hnames
  have hn : path.Names env chain := ⟨hchain, hnames.1, hnames.2.1, hnames.2.2⟩
  split at h
  next hcomplete =>
    split at h
    next => cases h
    next mapping hmapping =>
    split at h
    next => cases h
    next hexit =>
    cases h
    simp only [not_or, not_not, Bool.not_eq_true, Bool.not_eq_false'] at hexit
    obtain ⟨hreverse, hstep, -, -, hrole, houtput⟩ := hexit
    refine ⟨hn, .exit hcomplete hreverse hstep mapping hmapping hrole houtput, ?_⟩
    simp only [Continues, hcomplete]
  next =>
  split at h
  next => cases h
  next service hservice =>
  split at h
  next => cases h
  next m client hlocate =>
  obtain ⟨hm, hside⟩ := mem_of_locate hlocate
  have hmember : chain.Member env.step.toNat (!client) physical :=
    ⟨service, m, hservice, hm, hside⟩
  split at h
  next => cases h
  next =>
  split at h
  next hbypass =>
    obtain ⟨haction, hclient, hreverse⟩ := hbypass
    cases h
    rw [hclient] at hmember
    refine ⟨hn, .bypass haction (by simpa using hreverse) hmember, ?_⟩
    simp only [Continues, haction]
  next =>
  split at h
  next => cases h
  next honward =>
  cases h
  simp only [not_or, not_not] at honward
  obtain ⟨haction, hreverse⟩ := honward
  rw [← hreverse] at hmember
  refine ⟨hn, ?_, ?_⟩
  · cases hr : env.reverse with
    | false => exact .onward haction hr (by rwa [hr] at hmember)
    | true => exact .back haction hr (by rwa [hr] at hmember)
  · simp only [Continues, haction]

theorem resume_error {d : Decision} (h : path.resume live physical env = .error d) :
    d.result = .malformed ∨ d.result = .missing := by
  simp only [resume] at h
  repeat' split at h
  all_goals cases h <;> simp

end SwitchPath

namespace Service

variable {H : EcmpHash} {frame : SwitchFrame} {live : PortName → Bool} {s : Service}

theorem select_mem {m : Instance} (h : (s.select H frame live).1 = some m) :
    m ∈ s.instances ∧ m.available live := by
  have hmem : m ∈ s.instances.filter fun m => m.available live := by
    rw [select] at h
    split at h
    · exact mem_of_mem_head? h
    · exact EcmpSelector.choose_mem h
  exact mem_filter.mp hmem

theorem select_eq_none : (s.select H frame live).1 = none ↔ s.available live = false := by
  have hempty : (s.instances.filter fun m => m.available live) = [] ↔ s.available live = false := by
    rw [filter_eq_nil_iff, available, any_eq_false]
  rw [← hempty, select]
  split
  · exact List.head?_eq_none_iff
  · exact EcmpSelector.choose_eq_none

end Service

namespace SwitchPath

variable {path : SwitchPath} {live : PortName → Bool} {physical : PortName} {env : Envelope}
  {course : Course} {H : EcmpHash} {frame : SwitchFrame} {chain : Chain}

/-- An offer goes to the server side on the way back, and to the client side otherwise. -/
theorem offer_target {i : ℕ} {m : Instance} {choice : Bool} {d : Decision}
    (hd : offer H live frame env i m choice = d) (hforward : d.result = .forward)
    (havailable : m.available live) :
    ∃ t, d.target = some t ∧ t ∈ m.side env.reverse ∧ live t ∧
      attach { env with step := UInt16.ofNat i, action := .offer } = some d.labels := by
  simp only [offer] at hd
  split at hd
  next => subst hd; cases hforward
  next labels hlabels =>
  subst hd
  cases htarget : (EcmpSelector.choose H frame id ((m.side env.reverse).filter live)).1 with
  | none =>
    have hnil := filter_eq_nil_iff.mp (EcmpSelector.choose_eq_none.mp htarget)
    obtain ⟨hc, hs⟩ := (Bool.and_eq_true _ _).mp havailable
    obtain ⟨c, hc, hlive⟩ := any_eq_true.mp hc
    obtain ⟨s, hs, hlive'⟩ := any_eq_true.mp hs
    cases hr : env.reverse with
    | false => rw [hr] at hnil; exact absurd hlive (hnil c hc)
    | true => rw [hr] at hnil; exact absurd hlive' (hnil s hs)
  | some t =>
    obtain ⟨hside, hlive⟩ := mem_filter.mp (EcmpSelector.choose_mem htarget)
    exact ⟨t, rfl, hside, hlive, hlabels⟩

theorem offers_target {positions : List ℕ} {d : Decision}
    (hd : offers H live frame chain env positions = some d) (hforward : d.result = .forward) :
    ∃ i ∈ positions, ∃ t, d.target = some t ∧ chain.Member i env.reverse t := by
  induction positions with
  | nil => cases hd
  | cons i rest ih =>
    rw [offers] at hd
    split at hd
    next => cases hd
    next service hservice =>
    split at hd
    next m choice hselect =>
      have hm := Service.select_mem (congrArg Prod.fst hselect)
      obtain ⟨t, ht, hside, -⟩ := offer_target (Option.some.inj hd) hforward hm.2
      exact ⟨i, mem_cons_self, t, ht, service, m, hservice, hm.1, hside⟩
    next =>
    split at hd
    next =>
      obtain ⟨j, hj, ht⟩ := ih hd
      exact ⟨j, mem_cons_of_mem _ hj, ht⟩
    next => cases hd; cases hforward

def Output (path : SwitchPath) (live : PortName → Bool) (chain : Chain) (saved : Labels)
    (port : PortName) : Prop :=
  ∃ mapping output, chain.mapping saved = some mapping ∧ mapping.1.type = .forward ∧
    mapping.1.stack.apply saved = some output ∧ port ∈ path.outputs live chain mapping saved output

theorem finish_target {skip : Bool}
    (hforward : (path.finish H live frame chain env skip).result = .forward) :
    ∃ t, (path.finish H live frame chain env skip).target = some t ∧
      if env.reverse then t = chain.origin ∧ (path.finish H live frame chain env skip).labels = env.saved
      else path.Output live chain env.saved t := by
  generalize hd : path.finish H live frame chain env skip = d at hforward ⊢
  simp only [finish] at hd
  split at hd
  next hreverse =>
    split at hd
    next =>
      subst hd
      exact ⟨chain.origin, rfl, by rw [if_pos hreverse]; exact ⟨rfl, rfl⟩⟩
    next => subst hd; cases hforward
  next hreverse =>
  simp only [if_neg hreverse]
  split at hd
  next => subst hd; cases hforward
  next mapping hmapping =>
  split at hd
  next => subst hd; cases hforward
  next htype =>
  split at hd
  next => subst hd; cases hforward
  next output houtput =>
  split at hd
  next => subst hd; cases hforward
  next target choice hchoose =>
  have hmem := EcmpSelector.choose_mem (congrArg Prod.fst hchoose)
  have hout : path.Output live chain env.saved target :=
    ⟨mapping, output, hmapping, not_not.mp htype, houtput, hmem⟩
  refine ⟨target, ?_, hout⟩
  split at hd
  next => subst hd; rfl
  next =>
  split at hd
  next => subst hd; rfl
  next => split at hd <;> (subst hd; rfl)

def Leaves (path : SwitchPath) (live : PortName → Bool) (chain : Chain) (env : Envelope)
    (d : Decision) : Prop :=
  ∃ t, d.target = some t ∧
    if env.reverse then
      (∃ j, j < env.step.toNat ∧ chain.Member j true t) ∨ (t = chain.origin ∧ d.labels = env.saved)
    else
      (∃ j, env.step.toNat < j ∧ chain.Member j false t) ∨ path.Output live chain env.saved t

/-- A forwarded frame with an envelope was accepted as such, and either offered or finished. -/
theorem route_present {enabled : Bool} (hsplit : split frame.labels = some env)
    (hpresent : env.present) (hforward : (path.route H live frame enabled physical).result = .forward) :
    ∃ course, path.resume live physical env = .ok course ∧
      ((course.skipChain = false ∧ offers H live frame course.chain course.env course.positions =
          some (path.route H live frame enabled physical)) ∨
        path.route H live frame enabled physical =
          path.finish H live frame course.chain course.env course.skipChain) := by
  generalize hd : path.route H live frame enabled physical = d at hforward ⊢
  simp only [route, hsplit, hpresent, if_true] at hd
  split at hd
  next e hresume =>
    subst hd
    rcases resume_error hresume with h | h <;> (rw [h] at hforward; cases hforward)
  next course hresume =>
  refine ⟨course, hresume, ?_⟩
  cases hskip : course.skipChain with
  | true =>
    rw [hskip] at hd
    exact .inr hd.symm
  | false =>
    rw [hskip] at hd
    split at hd
    next d' hoffers => subst hd; exact .inl ⟨rfl, hoffers⟩
    next => exact .inr hd.symm

theorem leaves_of_route {enabled : Bool} (hresume : path.resume live physical env = .ok course)
    (haction : env.action = .onward)
    (hforward : (path.route H live frame enabled physical).result = .forward)
    (hd : (course.skipChain = false ∧ offers H live frame course.chain course.env course.positions =
          some (path.route H live frame enabled physical)) ∨
        path.route H live frame enabled physical =
          path.finish H live frame course.chain course.env course.skipChain) :
    path.Leaves live course.chain env (path.route H live frame enabled physical) := by
  obtain ⟨-, -, hcourse⟩ := resume_ok hresume
  simp only [Continues, haction] at hcourse
  have henv : course.env = env := by rw [hcourse]
  have hpositions := congrArg Course.positions hcourse
  rw [henv] at hd
  rcases hd with ⟨-, hoffers⟩ | hfinish
  · obtain ⟨j, hj, t, ht, hmember⟩ := offers_target hoffers hforward
    refine ⟨t, ht, ?_⟩
    rw [hpositions] at hj
    cases hreverse : env.reverse with
    | true =>
      rw [hreverse] at hj hmember
      exact .inl ⟨j, mem_range.mp (mem_reverse.mp hj), hmember⟩
    | false =>
      rw [hreverse] at hj hmember
      exact .inl ⟨j, (mem_range'_1.mp hj).1, hmember⟩
  rw [hfinish] at hforward ⊢
  obtain ⟨t, ht, hwhere⟩ := finish_target hforward
  refine ⟨t, ht, ?_⟩
  cases hreverse : env.reverse with
  | true =>
    rw [hreverse] at hwhere
    exact .inr hwhere
  | false =>
    rw [hreverse] at hwhere
    exact .inr hwhere

/-! ### No fall-through -/

theorem offers_ne_normal {positions : List ℕ} {d : Decision}
    (hd : offers H live frame chain env positions = some d) : d.result ≠ .normal := by
  induction positions with
  | nil => cases hd
  | cons i rest ih =>
    rw [offers] at hd
    repeat' split at hd
    · cases hd
    · cases hd
      rw [offer]
      split <;> simp
    · exact ih hd
    · cases hd; simp

theorem finish_ne_normal {skip : Bool} :
    (path.finish H live frame chain env skip).result ≠ .normal := by
  simp only [finish]
  repeat' split
  all_goals simp

theorem route_ne_normal {enabled : Bool} {l : UInt64} (hl : l ∈ frame.labels) (hm : marker l) :
    (path.route H live frame enabled physical).result ≠ .normal := by
  rw [route]
  split
  next => simp
  next env hsplit =>
  have hpresent := present_of_marker hsplit hl hm
  rw [if_pos hpresent]
  split
  next d hresume =>
    rcases resume_error hresume with h | h <;> (rw [h]; simp)
  next course hresume =>
  split
  next d hd =>
    split at hd
    · cases hd
    · exact offers_ne_normal hd
  next => exact finish_ne_normal

end SwitchPath

/-- A frame with an envelope marker never reaches the ordinary rules while a path is in
force, nor after one was in force. -/
theorem dispatch_ne_ordinary {H : EcmpHash} {live : PortName → Bool} {enabled guard : Bool}
    {path : Option SwitchPath} {connection ingress : PortName} {frame : SwitchFrame} {l : UInt64}
    (hguard : guard ∨ path.isSome) (hl : l ∈ frame.labels) (hm : marker l) :
    dispatch H live enabled guard path connection ingress frame ≠ .ordinary := by
  cases path with
  | none =>
    have hretired : ((split frame.labels).map Envelope.present).getD true := by
      cases hsplit : split frame.labels with
      | none => rfl
      | some env => exact present_of_marker hsplit hl hm
    have hg : guard = true := by simpa using hguard
    rw [dispatch]
    simp [hg, hretired]
  | some path =>
    rw [dispatch]
    simp only [SwitchPath.route_ne_normal hl hm, if_false]
    repeat' split
    all_goals simp

/-- For every compiled path: a frame with an envelope is forwarded only if the envelope
names a chain and comes from where it says; an onward frame then goes only to a later
service or an output of the mapping and, on the way back, only to an earlier service or,
with its original labels, to the origin. Members are ports that registered for the
service that the rule names, and no such frame falls through to the ordinary rules. -/
theorem via_chain_guarded {state : State} {generation : ℕ} {expired : ℕ → Bool}
    {rules : SwitchRuleset} {adhoc : Option DivertConfig} {ports : List PortName}
    {relays : OrderedMap PortName PortName} {path : SwitchPath}
    (hcompile : (SwitchPath.compile state generation expired rules adhoc ports relays).2 = .ok path) :
    (∀ H live enabled physical frame env, split frame.labels = some env → env.present = true →
      (path.route H live frame enabled physical).result = .forward →
      ∃ chain, path.Names env chain ∧ path.Sender chain env physical ∧
        (env.action = .onward →
          path.Leaves live chain env (path.route H live frame enabled physical))) ∧
    (∀ id chain i server port, path.chains.find? id = some chain → chain.Member i server port →
      ∃ name config r, chain.selector.via[i]? = some name ∧
        rules.services.find? name = some config ∧ port ∈ ports ∧ registration port = some r ∧
        r.server = server ∧ attachmentMatches config r) ∧
    ∀ H live enabled guard connection ingress frame l, l ∈ frame.labels → marker l = true →
      dispatch H live enabled guard (some path) connection ingress frame ≠ .ordinary := by
  have hcompiled := SwitchPath.compiled_of_compile hcompile
  refine ⟨?_, ?_, ?_⟩
  · intro H live enabled physical frame env hsplit hpresent hforward
    obtain ⟨course, hresume, hd⟩ := SwitchPath.route_present hsplit hpresent hforward
    obtain ⟨hnames, hsender, -⟩ := SwitchPath.resume_ok hresume
    exact ⟨course.chain, hnames, hsender,
      fun haction => SwitchPath.leaves_of_route hresume haction hforward hd⟩
  · rintro id chain i server port hchain ⟨service, m, hservice, hm, hside⟩
    obtain ⟨name, config, hname, hconfig, hsound⟩ := hcompiled.service hchain hservice
    obtain ⟨hport, r, hr, hserver, -, hmatches⟩ := hsound.registered m hm server port hside
    exact ⟨name, config, r, hname, hconfig, hport, hr, hserver, hmatches⟩
  · intro H live enabled guard connection ingress frame l hl hm
    exact dispatch_ne_ordinary (.inr rfl) hl hm

/-- The envelope of a frame that comes back from the proxy of the sample configuration. -/
def sampleOnward : Envelope :=
  { base := [17, 42], saved := [17, 42], cookie := 0x685458, chain := 1, originId := 123
    action := .onward, present := true }

def sampleOnwardFrame : SwitchFrame := ⟨(attach sampleOnward).getD [], [1, 2, 3]⟩

theorem samplePath_compiled :
    (SwitchPath.compile sampleState 0 (fun _ => false) sampleRules none samplePorts {}).2 =
      .ok samplePath := by decide +kernel

theorem via_chain_guarded_sample :
    (samplePath.route sampleHash (fun _ => true) sampleOnwardFrame false
      (ascii "proxy-out0~via:s:p#0")).target = some (ascii "cap-in0~via:c:capture#0") ∧
    ∃ chain, samplePath.Names sampleOnward chain ∧
      samplePath.Sender chain sampleOnward (ascii "proxy-out0~via:s:p#0") ∧
      (sampleOnward.action = .onward → samplePath.Leaves (fun _ => true) chain sampleOnward
        (samplePath.route sampleHash (fun _ => true) sampleOnwardFrame false
          (ascii "proxy-out0~via:s:p#0"))) :=
  ⟨by decide +kernel,
    (via_chain_guarded samplePath_compiled).1 sampleHash (fun _ => true) false
      (ascii "proxy-out0~via:s:p#0") sampleOnwardFrame sampleOnward (by decide +kernel) rfl
      (by decide +kernel)⟩

end Tuntom.Via
