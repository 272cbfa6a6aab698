import Tuntom.ViaGuard

/-! A frame of an origin passes through the available services of its chain in order,
and the answer passes through them in the reverse order. -/
namespace Tuntom.Via
open List

structure Visit where
  position : ℕ
  port : PortName
  deriving DecidableEq, Repr

/-- How adapters return frames: the port and the payload for a frame received on a port. -/
abbrev Return := PortName → SwitchFrame → PortName × Bytes

namespace SwitchPath

/-- The way of a frame from the port `physical` on: each adapter receives its offer, marks
it onward and returns it, until a decision leads to no adapter. -/
def traverse (path : SwitchPath) (H : EcmpHash) (live : PortName → Bool) (enabled : Bool)
    (back : Return) : ℕ → PortName → SwitchFrame → List Visit × Option Decision
  | 0, _, _ => ([], none)
  | fuel + 1, physical, frame =>
    let d := path.route H live frame enabled physical
    match d.result, d.target with
    | .forward, some t =>
      match registration t with
      | none => ([], some d)
      | some r =>
        match receive d.labels r.server with
        | none => ([], some d)
        | some env =>
          match attach (onward env !r.server) with
          | none => ([], some d)
          | some labels =>
            let returned := back t ⟨d.labels, frame.payload⟩
            let rest := traverse path H live enabled back fuel returned.1 ⟨labels, returned.2⟩
            (⟨env.step.toNat, t⟩ :: rest.1, rest.2)
    | _, _ => ([], some d)

/-! ### Positions -/

/-- The positions after `i` in the direction of a frame. -/
def beyond (reverse : Bool) (n i : ℕ) : List ℕ :=
  if reverse then (List.range i).reverse else List.range' (i + 1) (n - (i + 1))

/-- The rest of a way through `n` positions. -/
def Onwards (reverse : Bool) (n : ℕ) : List ℕ → Prop
  | [] => True
  | i :: rest => i < n ∧ rest = beyond reverse n i ∧ Onwards reverse n rest

theorem onwards_range' (n k a : ℕ) (h : a + k = n) : Onwards false n (List.range' a k) := by
  induction k generalizing a with
  | zero => exact trivial
  | succ k ih =>
    rw [List.range'_succ]
    refine ⟨by omega, ?_, ih (a + 1) (by omega)⟩
    have hk : n - (a + 1) = k := by omega
    simp only [beyond, Bool.false_eq_true, if_false, hk]

theorem onwards_range (n : ℕ) : Onwards false n (List.range n) := by
  rw [range_eq_range']
  exact onwards_range' n n 0 (Nat.zero_add n)

theorem onwards_reverse {n a : ℕ} (h : a ≤ n) : Onwards true n (List.range a).reverse := by
  induction a with
  | zero => exact trivial
  | succ a ih =>
    rw [range_succ, reverse_append]
    exact ⟨h, rfl, ih (Nat.le_of_succ_le h)⟩

/-- The positions of the visits that a way leads to, and whether it leads to its end. -/
def expected (chain : Chain) (live : PortName → Bool) : List ℕ → List ℕ × Bool
  | [] => ([], true)
  | i :: rest =>
    match chain.services[i]? with
    | none => ([], true)
    | some service =>
      if service.available live then (i :: (expected chain live rest).1, (expected chain live rest).2)
      else if service.config.pass then expected chain live rest
      else ([], false)

variable {path : SwitchPath} {H : EcmpHash} {live : PortName → Bool} {frame : SwitchFrame}
  {chain : Chain} {env : Envelope} {enabled : Bool} {physical : PortName}

theorem offers_cases {reverse : Bool} {ps : List ℕ} (hps : Onwards reverse chain.services.length ps) :
    (offers H live frame chain env ps = none ∧ expected chain live ps = ([], true)) ∨
    (offers H live frame chain env ps = some { result := .missing } ∧
      expected chain live ps = ([], false)) ∨
    ∃ i service m choice, chain.services[i]? = some service ∧ m ∈ service.instances ∧
      m.available live ∧ offers H live frame chain env ps = some (offer H live frame env i m choice) ∧
      (beyond reverse chain.services.length i).length < ps.length ∧
      Onwards reverse chain.services.length (beyond reverse chain.services.length i) ∧
      expected chain live ps =
        (i :: (expected chain live (beyond reverse chain.services.length i)).1,
          (expected chain live (beyond reverse chain.services.length i)).2) := by
  induction ps with
  | nil => exact .inl ⟨rfl, rfl⟩
  | cons i rest ih =>
    obtain ⟨hi, hrest, hon⟩ := hps
    have hservice := List.getElem?_eq_getElem hi
    generalize chain.services[i] = service at hservice
    rcases hselect : service.select H frame live with ⟨_ | m, choice⟩
    · have hun : service.available live = false := Service.select_eq_none.mp (congrArg Prod.fst hselect)
      cases hpass : service.config.pass with
      | false =>
        refine .inr (.inl ⟨?_, ?_⟩)
        · simp only [offers, hservice, hselect, hpass, Bool.false_eq_true, if_false]
        · simp only [expected, hservice, hun, hpass, Bool.false_eq_true, if_false]
      | true =>
        have hoffers : offers H live frame chain env (i :: rest) = offers H live frame chain env rest := by
          simp only [offers, hservice, hselect, hpass, if_true]
        have hexpected : expected chain live (i :: rest) = expected chain live rest := by
          simp only [expected, hservice, hun, hpass, Bool.false_eq_true, if_false, if_true]
        rw [hoffers, hexpected]
        rcases ih hon with h | h | ⟨j, s, m, c, h₁, h₂, h₃, h₄, h₅, h₆, h₇⟩
        · exact .inl h
        · exact .inr (.inl h)
        · exact .inr (.inr ⟨j, s, m, c, h₁, h₂, h₃, h₄, h₅.trans (Nat.lt_succ_self _), h₆, h₇⟩)
    obtain ⟨hm, havailable⟩ := Service.select_mem (congrArg Prod.fst hselect)
    have hav : service.available live := any_eq_true.mpr ⟨m, hm, havailable⟩
    rw [hrest] at hon
    refine .inr (.inr ⟨i, service, m, choice, hservice, hm, havailable, ?_, ?_, hon, ?_⟩)
    · simp only [offers, hservice, hselect]
    · rw [← hrest]; exact Nat.lt_succ_self _
    · simp only [expected, hservice, hav, if_true, ← hrest]

/-! ### One hop -/

theorem attach_isSome {i : UInt16} {action : Action} {reverse present : Bool}
    (h : (attach env).isSome) :
    (attach { env with step := i, action := action, reverse := reverse, present := present }).isSome := by
  rw [attach_isSome_iff] at h ⊢
  exact h

/-- The envelope of a frame on its way through a chain: it names the chain, fits on the
stack, and its base is free of markers. -/
structure OnChain (path : SwitchPath) (chain : Chain) (env : Envelope) : Prop where
  names : path.Names env chain
  fits : (attach env).isSome
  plain : ∀ l ∈ env.base, marker l = false

theorem OnChain.moved (h : path.OnChain chain env) (i : UInt16) (action : Action)
    (reverse present : Bool) :
    path.OnChain chain
      { env with step := i, action := action, reverse := reverse, present := present } where
  names := ⟨h.names.found, h.names.cookie_eq, h.names.originId_eq, h.names.saved_accepted⟩
  fits := attach_isSome h.fits
  plain := h.plain

theorem locate_eq {config : ViaService} {ports : List PortName} {s : Service}
    (hs : s.Sound config ports) {m : Instance} (hm : m ∈ s.instances) {p : PortName} {server : Bool}
    (hp : p ∈ m.side server) : s.locate p = some (m, !server) := by
  cases hlocate : s.locate p with
  | none =>
    have hnone := List.findSome?_eq_none_iff.mp hlocate m hm
    split at hnone
    next => cases hnone
    next hclient =>
    split at hnone
    next => cases hnone
    next hserver =>
    cases server with
    | false => exact absurd (contains_iff_mem.mpr hp) hclient
    | true => exact absurd (contains_iff_mem.mpr hp) hserver
  | some found =>
    obtain ⟨m', client⟩ := found
    obtain ⟨hm', hp'⟩ := mem_of_locate hlocate
    obtain ⟨-, r, hr, hserver, hid, -⟩ := hs.registered m hm server p hp
    obtain ⟨-, r', hr', hserver', hid', -⟩ := hs.registered m' hm' (!client) p hp'
    cases hr.symm.trans hr'
    have heq := hs.unique m hm m' hm' (hid.symm.trans hid')
    have hside : (!server) = client := by rw [← hserver, hserver', Bool.not_not]
    rw [heq, hside]

theorem resume_onward (hnames : path.Names env chain) (haction : env.action = .onward)
    {config : ViaService} {ports : List PortName} {service : Service}
    (hs : service.Sound config ports) (hservice : chain.services[env.step.toNat]? = some service)
    {m : Instance} (hm : m ∈ service.instances) (havailable : m.available live)
    (hp : physical ∈ m.side !env.reverse) (hlive : live physical) :
    path.resume live physical env = .ok
      { chain := chain, env := env
        positions := beyond env.reverse chain.services.length env.step.toNat } := by
  have hlocate := locate_eq hs hm hp
  rw [Bool.not_not] at hlocate
  simp only [resume, hnames.found, hnames.cookie_eq, hnames.originId_eq, hnames.saved_accepted,
    haction, hservice, hlocate, hlive, havailable]
  simp [beyond]

/-- The decision for a frame that may still be offered at the positions `ps`. -/
def proceed (path : SwitchPath) (H : EcmpHash) (live : PortName → Bool) (frame : SwitchFrame)
    (chain : Chain) (env : Envelope) (ps : List ℕ) : Decision :=
  match offers H live frame chain env ps with
  | some d => d
  | none => path.finish H live frame chain env false

theorem route_of_resume (hsplit : split frame.labels = some env) (hpresent : env.present)
    {env' : Envelope} {ps : List ℕ}
    (hresume : path.resume live physical env = .ok { chain := chain, env := env', positions := ps }) :
    path.route H live frame enabled physical = path.proceed H live frame chain env' ps := by
  simp only [route, hsplit, hpresent, if_true, hresume]
  rfl

theorem finish_moved (i : UInt16) (action : Action) (present : Bool) :
    path.finish H live frame chain { env with step := i, action := action, present := present } false =
      path.finish H live frame chain env false := rfl

def Honest (live : PortName → Bool) (chain : Chain) (back : Return) : Prop :=
  ∀ service ∈ chain.services, ∀ m ∈ service.instances, m.available live →
    ∀ server, ∀ t ∈ m.side server, live t → ∀ frame,
      (back t frame).1 ∈ m.side !server ∧ live (back t frame).1

/-- A visit of a live port of an available instance, on the side of the direction. -/
def Visited (live : PortName → Bool) (chain : Chain) (reverse : Bool) (v : Visit) : Prop :=
  ∃ service m, chain.services[v.position]? = some service ∧ m ∈ service.instances ∧
    m.available live ∧ v.port ∈ m.side reverse ∧ live v.port

variable {back : Return}

theorem receive_offer (hon : path.OnChain chain env) {i : ℕ} (hi : i < 65535) {labels : Labels}
    (hlabels : attach { env with step := UInt16.ofNat i, action := .offer } = some labels) :
    receive labels env.reverse =
      some { env with step := UInt16.ofNat i, action := .offer, present := true } := by
  have hstep : UInt16.ofNat i ≠ 65535 := by
    intro heq
    have hnat : (UInt16.ofNat i).toNat = i := UInt16.toNat_ofNat_of_lt (by rw [UInt16.size]; omega)
    rw [heq] at hnat
    exact Nat.ne_of_lt hi hnat.symm
  rw [receive, split_attach hlabels hon.plain]
  simp [hstep]

theorem traverse_offer {fuel i : ℕ} {service : Service} {config : ViaService}
    {ports : List PortName} {m : Instance} {choice : Bool} (hon : path.OnChain chain env)
    (hs : service.Sound config ports) (hi : i < 65535) (hservice : chain.services[i]? = some service)
    (hm : m ∈ service.instances) (havailable : m.available live) (hhonest : Honest live chain back)
    (hroute : path.route H live frame enabled physical = offer H live frame env i m choice) :
    ∃ v port frame', v.position = i ∧ Visited live chain env.reverse v ∧
      path.traverse H live enabled back (fuel + 1) physical frame =
        (v :: (path.traverse H live enabled back fuel port frame').1,
          (path.traverse H live enabled back fuel port frame').2) ∧
      path.route H live frame' enabled port = path.proceed H live frame' chain
        { env with step := UInt16.ofNat i, action := .onward, present := true }
        (beyond env.reverse chain.services.length i) := by
  have hnat : (UInt16.ofNat i).toNat = i := UInt16.toNat_ofNat_of_lt (by rw [UInt16.size]; omega)
  obtain ⟨labels, hlabels⟩ := Option.isSome_iff_exists.mp
    (hon.moved (UInt16.ofNat i) .offer env.reverse env.present).fits
  obtain ⟨labels', hlabels'⟩ := Option.isSome_iff_exists.mp
    (hon.moved (UInt16.ofNat i) .onward env.reverse true).fits
  have hforward : (offer H live frame env i m choice).result = .forward := by
    simp only [offer, hlabels]
  obtain ⟨t, ht, hside, hlive, hattach⟩ := offer_target rfl hforward havailable
  have hd : (offer H live frame env i m choice).labels = labels :=
    Option.some.inj (hattach.symm.trans hlabels)
  obtain ⟨-, r, hr, hserver, -⟩ := hs.registered m hm _ t hside
  obtain ⟨hback, hbackLive⟩ := hhonest service (mem_of_getElem? hservice) m hm havailable
    env.reverse t hside hlive ⟨labels, frame.payload⟩
  have hreceive := receive_offer hon hi hlabels
  have honward : attach (onward { env with step := UInt16.ofNat i, action := .offer, present := true }
      !env.reverse) = some labels' := by
    rw [onward, Bool.not_not]
    exact hlabels'
  refine ⟨⟨i, t⟩, (back t ⟨labels, frame.payload⟩).1, ⟨labels', (back t ⟨labels, frame.payload⟩).2⟩,
    rfl, ⟨service, m, hservice, hm, havailable, hside, hlive⟩, ?_, ?_⟩
  · rw [traverse]
    simp only [hroute, hforward, ht, hr, hd, hserver, hreceive, honward, hnat]
  · have hsplit := split_attach hlabels' hon.plain
    have hmoved := hon.moved (UInt16.ofNat i) .onward env.reverse true
    have hresume := resume_onward hmoved.names rfl hs (by simpa only [hnat] using hservice) hm havailable
      hback hbackLive
    simp only [hnat] at hresume
    exact route_of_resume hsplit rfl hresume

/-! ### The whole way -/

theorem registration_eq_none {t : PortName} (h : reserved t = false) : registration t = none := by
  rw [reserved, Option.isSome_eq_false_iff, Option.isNone_iff_eq_none] at h
  rw [registration, h]
  rfl

theorem traverse_end {fuel : ℕ} {d : Decision}
    (hroute : path.route H live frame enabled physical = d)
    (hd : d.result = .forward → ∃ t, d.target = some t ∧ reserved t = false) :
    path.traverse H live enabled back (fuel + 1) physical frame = ([], some d) := by
  rw [traverse, hroute]
  cases hresult : d.result with
  | forward =>
    obtain ⟨t, ht, hreserved⟩ := hd hresult
    simp only [ht, registration_eq_none hreserved]
  | _ => rfl

theorem finish_unreserved (horigin : reserved chain.origin = false)
    (hforward : (path.finish H live frame chain env false).result = .forward) :
    ∃ t, (path.finish H live frame chain env false).target = some t ∧ reserved t = false := by
  obtain ⟨t, ht, hwhere⟩ := finish_target hforward
  refine ⟨t, ht, ?_⟩
  split at hwhere
  · rw [hwhere.1, horigin]
  obtain ⟨mapping, output, -, -, -, hmem⟩ := hwhere
  have hkeep := (mem_filter.mp hmem).2
  simp only [Bool.and_eq_true, Bool.not_eq_true'] at hkeep
  exact hkeep.1.1.1

structure Walkable (live : PortName → Bool) (chain : Chain) (back : Return) : Prop where
  sound : ∀ (i : ℕ) (service : Service), chain.services[i]? = some service →
    ∃ config ports, service.Sound config ports
  short : chain.services.length ≤ 65535
  honest : Honest live chain back
  origin_unreserved : reserved chain.origin = false

/-- From any place on its way, a frame visits what is expected of the positions that it
has before it. -/
theorem traverse_course (fuel : ℕ) {ps : List ℕ} (hwalk : Walkable live chain back)
    (hon : path.OnChain chain env) (hps : Onwards env.reverse chain.services.length ps)
    (hfuel : ps.length < fuel)
    (hroute : path.route H live frame enabled physical = path.proceed H live frame chain env ps) :
    ∃ frame', (path.traverse H live enabled back fuel physical frame).1.map Visit.position =
        (expected chain live ps).1 ∧
      (∀ v ∈ (path.traverse H live enabled back fuel physical frame).1,
        Visited live chain env.reverse v) ∧
      (path.traverse H live enabled back fuel physical frame).2 =
        some (if (expected chain live ps).2 then path.finish H live frame' chain env false
          else { result := .missing }) := by
  induction fuel generalizing ps frame physical env with
  | zero => exact absurd hfuel (Nat.not_lt_zero _)
  | succ fuel ih =>
    rcases offers_cases hps with ⟨hoffers, hexp⟩ | ⟨hoffers, hexp⟩ |
      ⟨i, service, m, choice, hservice, hm, havailable, hoffers, hlen, hrest, hexp⟩
    · rw [proceed, hoffers] at hroute
      rw [traverse_end hroute (finish_unreserved hwalk.origin_unreserved), hexp]
      exact ⟨frame, rfl, by simp, rfl⟩
    · rw [proceed, hoffers] at hroute
      rw [traverse_end hroute (by simp), hexp]
      exact ⟨frame, rfl, by simp, rfl⟩
    · rw [proceed, hoffers] at hroute
      obtain ⟨config, ports, hs⟩ := hwalk.sound i service hservice
      have hi : i < 65535 :=
        lt_of_lt_of_le (List.getElem?_eq_some_iff.mp hservice).1 hwalk.short
      obtain ⟨v, port, next, hv, hvisited, htraverse, hnext⟩ :=
        traverse_offer hon hs hi hservice hm havailable hwalk.honest hroute
      obtain ⟨frame', hpositions, hvisits, hlast⟩ :=
        ih (hon.moved _ _ env.reverse true) hrest (by omega) hnext
      rw [htraverse, hexp]
      refine ⟨frame', ?_, ?_, ?_⟩
      · rw [map_cons, hpositions, hv]
      · intro v' hv'
        rcases mem_cons.mp hv' with rfl | hv'
        · exact hvisited
        · exact hvisits v' hv'
      · rw [hlast, finish_moved]

/-! ### What is expected -/

def availableAt (live : PortName → Bool) (chain : Chain) (i : ℕ) : Bool :=
  (chain.services[i]?).any fun service => service.available live

/-- A service that does not stop a frame: it is there, or may be passed over. -/
def Passable (live : PortName → Bool) (chain : Chain) (i : ℕ) : Prop :=
  ∃ service, chain.services[i]? = some service ∧ (service.available live ∨ service.config.pass)

def DropsAt (live : PortName → Bool) (chain : Chain) (i : ℕ) : Prop :=
  ∃ service, chain.services[i]? = some service ∧ service.available live = false ∧
    service.config.pass = false

theorem expected_append {front rest : List ℕ} (h : ∀ i ∈ front, Passable live chain i) :
    expected chain live (front ++ rest) =
      (front.filter (availableAt live chain) ++ (expected chain live rest).1,
        (expected chain live rest).2) := by
  induction front with
  | nil => rfl
  | cons i front ih =>
    have ih := ih fun j hj => h j (mem_cons_of_mem _ hj)
    obtain ⟨service, hservice, hpass⟩ := h i mem_cons_self
    have hat : availableAt live chain i = service.available live := by
      rw [availableAt, hservice, Option.any_some]
    cases hav : service.available live with
    | true =>
      simp only [cons_append, expected, hservice, hav, if_true, ih, filter_cons, hat]
    | false =>
      have hpass : service.config.pass = true := by simpa [hav] using hpass
      simp only [cons_append, expected, hservice, hav, hpass, Bool.false_eq_true, if_false,
        if_true, ih, filter_cons, hat]

theorem expected_all {ps : List ℕ} (h : ∀ i ∈ ps, Passable live chain i) :
    expected chain live ps = (ps.filter (availableAt live chain), true) := by
  have happend : expected chain live (ps ++ []) = _ := expected_append h
  rw [append_nil] at happend
  rw [happend]
  simp [expected]

theorem expected_drop {j : ℕ} {rest : List ℕ} (h : DropsAt live chain j) :
    expected chain live (j :: rest) = ([], false) := by
  obtain ⟨service, hservice, hav, hpass⟩ := h
  simp only [expected, hservice, hav, hpass, Bool.false_eq_true, if_false]

theorem range_split {j n : ℕ} (h : j < n) : ∃ rest, List.range n = List.range j ++ j :: rest := by
  obtain ⟨k, rfl⟩ := Nat.exists_eq_add_of_lt h
  refine ⟨(List.range k).map fun i => j + (i + 1), ?_⟩
  rw [Nat.add_assoc, range_add, range_succ_eq_map, map_cons, map_map]
  rfl

/-! ### Entering a chain -/

def Selects (path : SwitchPath) (enabled : Bool) (physical : PortName) (frame : SwitchFrame)
    (chain : Chain) : Prop :=
  ∃ course, path.start enabled physical frame { base := frame.labels } = .ok course ∧
    course.chain = chain

def entering (path : SwitchPath) (chain : Chain) (labels : Labels) : Envelope :=
  { base := labels, saved := labels, cookie := path.cookie, chain := chain.id
    originId := chain.originId }

theorem start_ok {course : Course}
    (h : path.start enabled physical frame { base := frame.labels } = .ok course) :
    reserved physical = false ∧ (physical, course.chain) ∈ path.ingress ∧
      takes enabled ((path.programs.lookup physical).getD {}) frame.labels course.chain ∧
      course = { chain := course.chain, env := path.entering course.chain frame.labels
                 positions := List.range course.chain.services.length } := by
  simp only [start] at h
  split at h
  next => cases h
  next hreserved =>
  split at h
  next => split at h <;> [cases h; (split at h <;> cases h)]
  next candidates hcandidates =>
  split at h
  next => cases h
  next chain hfind =>
  cases h
  have hmem := mem_of_find?_eq_some hfind
  obtain ⟨e, he, hchain⟩ := mem_filterMap.mp hmem
  split at hchain
  next hport =>
    cases hchain
    exact ⟨Bool.eq_false_iff.mpr hreserved, hport ▸ he, List.find?_some hfind, rfl⟩
  next => cases hchain

end SwitchPath

namespace SwitchPath

variable {path : SwitchPath} {live : PortName → Bool} {chain : Chain} {enabled : Bool}
  {physical : PortName} {state : State} {rules : SwitchRuleset} {adhoc : Option DivertConfig}
  {ports : List PortName} {relays : OrderedMap PortName PortName}

theorem lookup_of_mem {α β : Type} [BEq α] [LawfulBEq α] {f : α → β} {l : List α} {a : α}
    (h : a ∈ l) : (l.map fun b => (b, f b)).lookup a = some (f a) := by
  induction l with
  | nil => cases h
  | cons b l ih =>
    rw [map_cons, lookup_cons]
    split
    next heq => rw [beq_iff_eq.mp heq]
    next hne =>
    rcases mem_cons.mp h with rfl | h
    · rw [beq_self_eq_true] at hne
      cases hne
    · exact ih h

theorem Compiled.accepts_of_takes (h : Compiled state rules adhoc ports relays path)
    {id : UInt32} (hchain : path.chains.find? id = some chain) {labels : Labels}
    (htakes : takes enabled ((path.programs.lookup chain.origin).getD {}) labels chain) :
    chain.selector.inputMatch.accepts labels := by
  obtain ⟨-, -, hconf⟩ := h.chains id chain hchain
  obtain ⟨horigin, hselector⟩ := mem_additions hconf.added
  simp only at horigin hselector
  have hprogram : path.programs.lookup chain.origin = some (RulesProgram.compile rules chain.origin) := by
    rw [h.programs_eq]
    exact lookup_of_mem (mem_append_right _ (mem_map.mpr ⟨_, horigin, rfl⟩))
  rw [hprogram, Option.getD_some] at htakes
  rcases hselector with ⟨entry, -, hselector⟩ | ⟨r, hr, hselector⟩
  · rw [takes, hselector] at htakes
    rw [hselector]
    exact ((Bool.and_eq_true _ _).mp htakes).2
  rw [takes, hselector] at htakes
  have hwithin := RulesProgram.compile_within rules chain.origin
  obtain ⟨r', hr', hindex⟩ := Option.map_eq_some_iff.mp (beq_iff_eq.mp htakes)
  have hformat : (RulesProgram.compile rules chain.origin).format ≠ 1 := by
    rw [hwithin.format_eq, h.format_eq]
    decide
  obtain ⟨hmem, haccepts⟩ := RulesProgram.mapping_accepts hformat hr'
  have heq := SwitchRuleset.rules_unique (hwithin.policies r' hmem) (hwithin.mappings r hr) hindex
  rw [hselector]
  rw [heq] at haccepts
  exact haccepts

/-! ### There and back -/

/-- The envelope with which a frame of the chain reaches its exit, and comes back. -/
def completed (path : SwitchPath) (chain : Chain) (saved base : Labels) : Envelope :=
  { base := base, saved := saved, cookie := path.cookie, chain := chain.id
    originId := chain.originId, step := 65535, action := .complete }

variable {H : EcmpHash} {frame : SwitchFrame} {env : Envelope} {back : Return}

theorem Compiled.onChain_entering (h : Compiled state rules adhoc ports relays path)
    (hparsed : WellParsed rules (adhocMatches adhoc)) (hselects : path.Selects enabled physical frame chain)
    (hne : frame.labels ≠ []) (hplain : ∀ l ∈ frame.labels, marker l = false)
    (hroom : 2 * frame.labels.length + 3 ≤ switchMaxLabels) :
    physical = chain.origin ∧ reserved physical = false ∧
      path.OnChain chain (path.entering chain frame.labels) := by
  obtain ⟨course, hstart, rfl⟩ := hselects
  obtain ⟨hreserved, hin, htakes, -⟩ := start_ok hstart
  obtain ⟨hchain, horigin⟩ := h.ingress_origin hparsed hin
  obtain ⟨hid, horiginId, -, -⟩ := h.chain_bounds hparsed hchain
  rw [horigin] at htakes
  have hcookie : lettered path.cookie := h.cookie_eq ▸ state.cookie_lettered
  have hfits : (attach (path.entering course.chain frame.labels)).isSome :=
    attach_isSome_iff.mpr ⟨hne, hne, horiginId, hid, hcookie, by simp only [entering]; omega⟩
  exact ⟨horigin, hreserved, ⟨hchain, rfl, rfl, h.accepts_of_takes hchain htakes⟩, hfits, hplain⟩

theorem route_of_selects (hselects : path.Selects enabled physical frame chain)
    (hne : frame.labels ≠ []) (hplain : ∀ l ∈ frame.labels, marker l = false) :
    path.route H live frame enabled physical =
      path.proceed H live frame chain (path.entering chain frame.labels)
        (List.range chain.services.length) := by
  obtain ⟨course, hstart, rfl⟩ := hselects
  obtain ⟨-, -, -, hcourse⟩ := start_ok hstart
  rw [hcourse] at hstart
  simp only [route, split_plain hne hplain, Bool.false_eq_true, if_false, hstart]
  rfl

theorem Compiled.walkable (h : Compiled state rules adhoc ports relays path)
    (hparsed : WellParsed rules (adhocMatches adhoc)) {id : UInt32}
    (hchain : path.chains.find? id = some chain) (hreserved : reserved chain.origin = false)
    (hhonest : Honest live chain back) : Walkable live chain back where
  sound := fun i service hservice => by
    obtain ⟨name, config, -, -, hsound⟩ := h.service hchain hservice
    exact ⟨config, ports, hsound⟩
  short := by
    have hlen := (h.chain_bounds hparsed hchain).2.2.1
    rw [rulesetMaxStatements] at hlen
    omega
  honest := hhonest
  origin_unreserved := hreserved

theorem OnChain.completed {labels base : Labels} (h : path.OnChain chain (path.entering chain labels))
    (hplain : ∀ l ∈ base, marker l = false)
    (hfits : (attach (path.completed chain labels base)).isSome) :
    path.OnChain chain (path.completed chain labels base) :=
  ⟨⟨h.names.found, rfl, rfl, h.names.saved_accepted⟩, hfits, hplain⟩

theorem attach_completed {labels base : Labels} (h : path.OnChain chain (path.entering chain labels))
    (hne : base ≠ []) (hroom : base.length + 3 + labels.length ≤ switchMaxLabels) :
    (attach (path.completed chain labels base)).isSome := by
  obtain ⟨-, hsaved, horigin, hchain, hcookie, -⟩ := attach_isSome_iff.mp h.fits
  exact attach_isSome_iff.mpr ⟨hne, hsaved, horigin, hchain, hcookie, hroom⟩

/-- Behind the last service the frame is rewritten, and leaves through an exit with the
completed envelope. -/
theorem finish_completed (path : SwitchPath) (H : EcmpHash) (live : PortName → Bool)
    (frame : SwitchFrame) {mapping : Rule} {output : Labels} (hreverse : env.reverse = false)
    (hmapping : chain.mapping env.saved = some mapping) (htype : mapping.1.type = .forward)
    (happly : mapping.1.stack.apply env.saved = some output) :
    (path.outputs live chain mapping env.saved output = [] →
      path.finish H live frame chain env false = { result := .missing }) ∧
    (path.outputs live chain mapping env.saved output ≠ [] →
      ∃ t ∈ path.outputs live chain mapping env.saved output,
        (path.finish H live frame chain env false).target = some t ∧
        (path.rules.role t .exit = false →
          (path.finish H live frame chain env false).result = .policy) ∧
        (path.rules.role t .exit = true → ∀ labels,
          attach { env with base := output, step := 65535, action := .complete } = some labels →
          (path.finish H live frame chain env false).result = .forward ∧
            (path.finish H live frame chain env false).exit = true ∧
            (path.finish H live frame chain env false).labels = labels)) := by
  rcases hchoose : EcmpSelector.choose H frame id (path.outputs live chain mapping env.saved output)
    with ⟨_ | t, choice⟩
  · have hnil := EcmpSelector.choose_eq_none.mp (congrArg Prod.fst hchoose)
    refine ⟨fun _ => ?_, fun hne => absurd hnil hne⟩
    simp [finish, hreverse, hmapping, htype, happly, hchoose]
  · have hmem := EcmpSelector.choose_mem (congrArg Prod.fst hchoose)
    refine ⟨fun hnil => absurd (hnil ▸ hmem) not_mem_nil, fun _ => ⟨t, hmem, ?_, ?_, ?_⟩⟩
    · cases hexit : path.rules.role t .exit with
      | false => simp [finish, hreverse, hmapping, htype, happly, hchoose, hexit]
      | true =>
        simp only [finish, hreverse, hmapping, htype, happly, hchoose, hexit]
        simp only [Bool.false_eq_true, if_false, not_true_eq_false, Bool.not_true, ne_eq]
        split <;> rfl
    · intro hexit
      simp [finish, hreverse, hmapping, htype, happly, hchoose, hexit]
    · intro hexit labels hlabels
      rw [hreverse] at hlabels
      simp [finish, hreverse, hmapping, htype, happly, hchoose, hexit, hlabels]

theorem route_answer {mapping : Rule} {saved base reply : Labels} {t : PortName} {answer : Bytes}
    (hon : path.OnChain chain (path.completed chain saved base))
    (hmapping : chain.mapping saved = some mapping) (htype : mapping.1.type = .forward)
    (hreserved : reserved t = false) (hmatches : routePortMatches mapping.1.output.port t)
    (hexit : path.rules.role t .exit) (hreply : attach (path.completed chain saved base) = some reply) :
    path.route H live ⟨reply, answer⟩ enabled t = path.proceed H live ⟨reply, answer⟩ chain
      { path.completed chain saved base with reverse := true, present := true }
      (List.range chain.services.length).reverse := by
  have hsplit := split_attach hreply hon.plain
  refine route_of_resume hsplit rfl ?_
  have hfound : path.chains.find? chain.id = some chain := hon.names.found
  have haccepts : chain.selector.inputMatch.accepts saved := hon.names.saved_accepted
  simp [resume, completed, hfound, haccepts, hmapping, htype, hreserved, hmatches, hexit]

theorem traverse_answer (H : EcmpHash) (enabled : Bool) (answer : Bytes) {reply saved base : Labels}
    {t : PortName} {mapping : Rule}
    (hwalk : Walkable live chain back) (hon : path.OnChain chain (path.completed chain saved base))
    (hpass : ∀ i, i < chain.services.length → Passable live chain i) (hlive : live chain.origin)
    (hmapping : chain.mapping saved = some mapping) (htype : mapping.1.type = .forward)
    (hreserved : reserved t = false) (hmatches : routePortMatches mapping.1.output.port t)
    (hexit : path.rules.role t .exit) (hreply : attach (path.completed chain saved base) = some reply) :
    let way := path.traverse H live enabled back (chain.services.length + 1) t ⟨reply, answer⟩
    way.1.map Visit.position =
        ((List.range chain.services.length).filter (availableAt live chain)).reverse ∧
      (∀ v ∈ way.1, Visited live chain true v) ∧
      way.2 = some { result := .forward, target := some chain.origin, labels := saved } := by
  have hroute : path.route H live ⟨reply, answer⟩ enabled t = _ :=
    route_answer hon hmapping htype hreserved hmatches hexit hreply
  have hpassable : ∀ i ∈ (List.range chain.services.length).reverse, Passable live chain i :=
    fun i hi => hpass i (mem_range.mp (mem_reverse.mp hi))
  obtain ⟨frame', hpositions, hvisits, hlast⟩ := traverse_course
    (chain.services.length + 1) hwalk (hon.moved 65535 .complete true true)
    (onwards_reverse le_rfl) (by simp) hroute
  rw [expected_all hpassable] at hpositions hlast
  refine ⟨?_, hvisits, ?_⟩
  · rw [hpositions, filter_reverse]
  · rw [hlast]
    simp [finish, hlive, completed]

end SwitchPath

open SwitchPath in
/-- A frame of an origin that selects a chain visits exactly the available services, each
once and in order, on the client side of honest adapters; a missing service that may not
be passed over stops it. Otherwise it reaches the exit that the mapping selects, rewritten
and with the completed envelope, and every answer from there visits the same services in
the reverse order and comes to the origin with the original labels. -/
theorem via_chain_traversed {state : State} {generation : ℕ} {expired : ℕ → Bool}
    {rules : SwitchRuleset} {adhoc : Option DivertConfig} {ports : List PortName}
    {relays : OrderedMap PortName PortName} {path : SwitchPath} {H : EcmpHash}
    {live : PortName → Bool} {enabled : Bool} {back : Return} {physical : PortName} {chain : Chain}
    {labels : Labels} {payload : Bytes}
    (hcompile : (SwitchPath.compile state generation expired rules adhoc ports relays).2 = .ok path)
    (hparsed : WellParsed rules (adhocMatches adhoc))
    (hselects : path.Selects enabled physical ⟨labels, payload⟩ chain) (hne : labels ≠ [])
    (hplain : ∀ l ∈ labels, marker l = false) (hroom : 2 * labels.length + 3 ≤ switchMaxLabels)
    (hhonest : SwitchPath.Honest live chain back) :
    let n := chain.services.length
    let way := path.traverse H live enabled back (n + 1) physical ⟨labels, payload⟩
    (∀ v ∈ way.1, Visited live chain false v) ∧
    (∀ j, DropsAt live chain j → (∀ i, i < j → Passable live chain i) →
      way.1.map Visit.position = (List.range j).filter (availableAt live chain) ∧
        way.2 = some { result := .missing }) ∧
    ((∀ i, i < n → Passable live chain i) →
      way.1.map Visit.position = (List.range n).filter (availableAt live chain) ∧
      ∀ mapping output, chain.mapping labels = some mapping → mapping.1.type = .forward →
        mapping.1.stack.apply labels = some output →
        output.length + 3 + labels.length ≤ switchMaxLabels →
        (path.outputs live chain mapping labels output = [] → way.2 = some { result := .missing }) ∧
        (path.outputs live chain mapping labels output ≠ [] →
          ∃ d t, way.2 = some d ∧ t ∈ path.outputs live chain mapping labels output ∧
            d.target = some t ∧ (rules.role t .exit = false → d.result = .policy) ∧
            (rules.role t .exit = true →
              d.result = .forward ∧ d.exit = true ∧
              attach (path.completed chain labels output) = some d.labels ∧
              ∀ base reply answer, live physical = true → (∀ l ∈ base, marker l = false) →
                attach (path.completed chain labels base) = some reply →
                let return_ := path.traverse H live enabled back (n + 1) t ⟨reply, answer⟩
                return_.1.map Visit.position = (way.1.map Visit.position).reverse ∧
                (∀ v ∈ return_.1, Visited live chain true v) ∧
                return_.2 = some
                  { result := .forward, target := some physical, labels := labels }))) := by
  have hcompiled := compiled_of_compile hcompile
  obtain ⟨horigin, hreserved, hon⟩ := hcompiled.onChain_entering hparsed hselects hne hplain hroom
  have hfound : path.chains.find? chain.id = some chain := hon.names.found
  rw [horigin] at hreserved
  have hwalk := hcompiled.walkable hparsed hfound hreserved hhonest
  have hroute : path.route H live ⟨labels, payload⟩ enabled physical = _ :=
    route_of_selects hselects hne hplain
  obtain ⟨frame', hpositions, hvisits, hlast⟩ := traverse_course
    (chain.services.length + 1) hwalk hon (onwards_range _) (by simp) hroute
  refine ⟨hvisits, ?_, ?_⟩
  · intro j hdrop hpass
    have hj : j < chain.services.length := by
      obtain ⟨service, hservice, -⟩ := hdrop
      exact (List.getElem?_eq_some_iff.mp hservice).1
    obtain ⟨rest, hrange⟩ := range_split hj
    have hexpected : expected chain live (List.range chain.services.length) =
        ((List.range j).filter (availableAt live chain), false) := by
      rw [hrange, expected_append fun i hi => hpass i (List.mem_range.mp hi), expected_drop hdrop,
        List.append_nil]
    rw [hexpected] at hpositions hlast
    exact ⟨hpositions, hlast⟩
  · intro hpass
    rw [expected_all fun i hi => hpass i (List.mem_range.mp hi)] at hpositions hlast
    refine ⟨hpositions, fun mapping output hmapping htype happly hfits => ?_⟩
    have hentering : (path.entering chain labels).reverse = false := rfl
    obtain ⟨hempty, hsome⟩ := finish_completed path H live frame' hentering hmapping htype happly
    refine ⟨fun hnil => by rw [hlast, if_pos rfl, hempty hnil], fun hout => ?_⟩
    obtain ⟨t, ht, htarget, hpolicy, hforward⟩ := hsome hout
    refine ⟨_, t, hlast, ht, htarget, ?_, ?_⟩
    · rw [← hcompiled.rules_eq]
      exact hpolicy
    · intro hexit
      rw [← hcompiled.rules_eq] at hexit
      obtain ⟨exitLabels, hexitLabels⟩ := Option.isSome_iff_exists.mp
        (attach_completed hon (RuleStack.apply_ne_nil happly) hfits)
      obtain ⟨hresult, hflag, hlabels⟩ := hforward hexit exitLabels hexitLabels
      refine ⟨hresult, hflag, hlabels ▸ hexitLabels, fun base reply answer hlive hbase hreply => ?_⟩
      have hkeep := (List.mem_filter.mp ht).2
      simp only [Bool.and_eq_true, Bool.not_eq_true'] at hkeep
      have hback := hon.completed hbase (hreply ▸ rfl)
      rw [horigin] at hlive
      have hanswer := traverse_answer H enabled answer hwalk hback hpass hlive hmapping htype
        hkeep.1.1.1 hkeep.1.2 hexit hreply
      rw [hpositions, horigin]
      exact hanswer

def sampleChain : Chain :=
  (samplePath.chains.find? 1).getD
    { id := 0, origin := [], originId := 0, selector := .adhoc {}, program := {}, services := [] }

def sampleBack : Return := fun t frame =>
  let sides := [(ascii "proxy-in0~via:c:p#0", ascii "proxy-out0~via:s:p#0"),
    (ascii "proxy-in1~via:c:p#1", ascii "proxy-out1~via:s:p#1"),
    (ascii "cap-in0~via:c:capture#0", ascii "cap-out0~via:s:capture#0")]
  (((sides ++ sides.map Prod.swap).lookup t).getD [], frame.payload)

theorem via_chain_traversed_sample :
    (samplePath.traverse sampleHash (fun _ => true) false sampleBack
      (sampleChain.services.length + 1) (ascii "edge")
      ⟨[17, 42], [1, 2, 3]⟩).1.map Visit.position = [0, 1] ∧
    ∀ v ∈ (samplePath.traverse sampleHash (fun _ => true) false sampleBack
      (sampleChain.services.length + 1) (ascii "edge")
      ⟨[17, 42], [1, 2, 3]⟩).1, SwitchPath.Visited (fun _ => true) sampleChain false v := by
  have hparsed : WellParsed sampleRules (adhocMatches none) := by
    constructor <;> decide +kernel
  have hselects : samplePath.Selects false (ascii "edge") ⟨[17, 42], [1, 2, 3]⟩ sampleChain :=
    ⟨⟨sampleChain, samplePath.entering sampleChain [17, 42], [0, 1], false⟩, by decide +kernel, rfl⟩
  have hhonest : SwitchPath.Honest (fun _ => true) sampleChain sampleBack := by
    have hsides : ∀ service ∈ sampleChain.services, ∀ m ∈ service.instances, ∀ server,
        ∀ t ∈ m.side server, (sampleBack t ⟨[], []⟩).1 ∈ m.side !server := by decide +kernel
    intro service hservice m hm _ server t ht _ frame
    exact ⟨hsides service hservice m hm server t ht, rfl⟩
  have hplain : ∀ l ∈ ([17, 42] : Labels), marker l = false := by
    intro l hl
    rcases List.mem_cons.mp hl with rfl | hl
    · rfl
    · rw [List.mem_singleton.mp hl]; rfl
  have htraversed := via_chain_traversed (H := sampleHash) samplePath_compiled hparsed hselects
    (by decide) hplain (by decide) hhonest
  exact ⟨by decide +kernel, htraversed.1⟩

end Tuntom.Via
