import Tuntom.ControlNetwork

/-! Replies retrace the path of their request: symbolic hops on the way out, the links
that every router pushed on the way back. -/
namespace Tuntom.ControlRoute
open List
open Control (Id zeroBlock AuthorityKey)

/-! ### Edges and tokens -/

namespace Router

variable {P : Primitives} {r r' : Router} {f : Frame}

def Distinct (r : Router) : Prop :=
  ∀ n e m d, r.edges.find? n = some e → r.edges.find? m = some d → e.token ≠ zeroBlock 16 →
    e.token = d.token → n = m

theorem find?_matches {hop : Hop} {name : Bytes} {e : Edge} (he : r.edges.find? name = some e)
    (hmatch : matchesHop hop e = true) : ∃ out, r.resolve hop = some out := by
  rw [resolve]
  rcases hfind : r.edges.values.find? (matchesHop hop) with _ | out
  · have hmem : e ∈ r.edges.values :=
      mem_map.mpr ⟨(name, e), OrderedMap.find?_eq_some_iff.mp he, rfl⟩
    exact absurd hmatch (List.find?_eq_none.mp hfind e hmem)
  · exact ⟨out, rfl⟩

theorem match_unique (hsingle : r.SinglePeer) (hdistinct : r.Distinct) {hop : Hop}
    (hvalid : hop.valid = true) {n m : Bytes} {e d : Edge} (hn : r.edges.find? n = some e)
    (hm : r.edges.find? m = some d) (he : matchesHop hop e = true) (hd : matchesHop hop d = true) :
    n = m := by
  rcases hop with ⟨type, value⟩
  cases type with
  | peer => exact hsingle.peer n e m d hn hm he hd
  | port =>
    have hen := (of_decide_eq_true he).2
    have hdm := (of_decide_eq_true hd).2
    rw [← hsingle.named n e hn, ← hsingle.named m d hm]
    exact Eq.trans hen (Eq.symm hdm)
  | link =>
    have hen : Hop.link e.token = { type := .link, value } := of_decide_eq_true he
    have hdm : Hop.link d.token = { type := .link, value } := of_decide_eq_true hd
    refine hdistinct n e m d hn hm ?_ (Hop.link_injective (hen.trans hdm.symm))
    intro hzero
    rw [hzero] at hen
    rw [← hen] at hvalid
    exact absurd hvalid (by decide)

theorem resolve_of_match (hsingle : r.SinglePeer) (hdistinct : r.Distinct) {hop : Hop}
    (hvalid : hop.valid = true) {name : Bytes} {e : Edge} (he : r.edges.find? name = some e)
    (hmatch : matchesHop hop e = true) : r.resolve hop = some e := by
  obtain ⟨out, hout⟩ := find?_matches he hmatch
  obtain ⟨⟨m, hm⟩, hmatch'⟩ := mem_of_resolve hout
  have hname := match_unique hsingle hdistinct hvalid he hm hmatch hmatch'
  subst hname
  rw [he] at hm
  rw [hout, Option.some.inj hm]

theorem Linked.resolve (h : Linked r r') (hsingle : r'.SinglePeer) (hdistinct : r'.Distinct)
    {hop : Hop} (hvalid : hop.valid = true) {out : Edge} (hout : r.resolve hop = some out) :
    ∃ out', r'.resolve hop = some out' ∧ out'.name = out.name := by
  obtain ⟨⟨name, hname⟩, hmatch⟩ := mem_of_resolve hout
  obtain ⟨token, hkeep, hfind'⟩ := h.found name out hname
  refine ⟨{ out with token }, resolve_of_match hsingle hdistinct hvalid hfind' ?_, rfl⟩
  rcases hop with ⟨type, value⟩
  cases type with
  | peer | port => exact hmatch
  | link =>
    have hlink : Hop.link out.token = { type := .link, value } := of_decide_eq_true hmatch
    have hne : out.token ≠ zeroBlock 16 := by
      intro hzero
      rw [hzero] at hlink
      rw [← hlink] at hvalid
      exact absurd hvalid (by decide)
    refine decide_eq_true ?_
    show Hop.link token = _
    rw [hkeep hne]
    exact hlink

end Router

/-! ### Ways through a network -/

structure Passage (ι : Type*) where
  source : ι
  out : Bytes
  target : ι
  into : Bytes
  deriving DecidableEq, Repr

def Passage.back {ι : Type*} (p : Passage ι) : Passage ι := ⟨p.target, p.into, p.source, p.out⟩

section Ways

variable {ι : Type*} {links : Links ι} {net net' : ι → Router}

inductive Leads (links : Links ι) (net : ι → Router) : ι → Path → List (Passage ι) → ι → Prop
  | here (u : ι) : Leads links net u [] [] u
  | hop {u v w : ι} {hop : Hop} {rest : Path} {out : Edge} {into : Bytes} {way : List (Passage ι)}
      (hvalid : hop.valid = true) (hout : (net u).resolve hop = some out)
      (hlink : links u out.name = some (v, into)) (hrest : Leads links net v rest way w) :
      Leads links net u (hop :: rest) (⟨u, out.name, v, into⟩ :: way) w

inductive Returns (net : ι → Router) : ι → Path → List (Passage ι) → ι → Prop
  | here (u : ι) : Returns net u [] [] u
  | link {p : Passage ι} {w : ι} {rest : Path} {way : List (Passage ι)} {e : Edge}
      (hedge : (net p.target).edges.find? p.into = some e) (htoken : e.token ≠ zeroBlock 16)
      (hrest : Returns net p.source rest way w) :
      Returns net p.target (Hop.link e.token :: rest) (p :: way) w

/-- The conditions on a network: every router forwards, has one peer edge at most and
edges for its links that take frames of `room` bytes. -/
structure Fit (links : Links ι) (room : ℕ) (net : ι → Router) : Prop where
  allowed : ∀ v, (net v).allowed = true
  single : ∀ v, (net v).SinglePeer
  limit : ∀ v name e, (net v).edges.find? name = some e → room ≤ e.limit
  wired : ∀ u out v into, links u out = some (v, into) → ∃ e, (net v).edges.find? into = some e

def Evolves (net net' : ι → Router) : Prop := ∀ v, Router.Linked (net v) (net' v)

theorem Evolves.trans {net'' : ι → Router} (h : Evolves net net') (h' : Evolves net' net'') :
    Evolves net net'' := fun v => (h v).trans (h' v)

theorem Fit.evolves {room : ℕ} (h : Fit links room net) (hnet : Evolves net net') :
    Fit links room net' where
  allowed v := (hnet v).allowed.trans (h.allowed v)
  single v := (h.single v).linked (hnet v)
  limit := by
    intro v name e' he'
    obtain ⟨e, he, -, heq⟩ := (hnet v).before he'
    rw [heq]
    exact h.limit v name e he
  wired := by
    intro u out v into hlink
    obtain ⟨e, he⟩ := h.wired u out v into hlink
    obtain ⟨token, -, he'⟩ := (hnet v).found into e he
    exact ⟨_, he'⟩

variable {path : Path} {u w : ι} {way : List (Passage ι)}

theorem Leads.evolves {room : ℕ} (hfit : Fit links room net') (hdistinct : ∀ v, (net' v).Distinct)
    (hnet : Evolves net net') (h : Leads links net u path way w) :
    Leads links net' u path way w := by
  induction h with
  | here u => exact .here u
  | @hop u v w hop rest out into way hvalid hout hlink _ ih =>
    obtain ⟨out', hout', hname⟩ := (hnet u).resolve (hfit.single u) (hdistinct u) hvalid hout
    rw [← hname] at hlink ⊢
    exact .hop hvalid hout' hlink ih

theorem Returns.evolves (hnet : Evolves net net') (h : Returns net u path way w) :
    Returns net' u path way w := by
  induction h with
  | here u => exact .here u
  | @link p w rest way e hedge htoken _ ih =>
    obtain ⟨token, hkeep, hedge'⟩ := (hnet p.target).found p.into e hedge
    have hsame := hkeep htoken
    have hlink := Returns.link hedge' (show token ≠ zeroBlock 16 by rw [hsame]; exact htoken) ih
    rw [← hsame]
    exact hlink

theorem Returns.leads {room : ℕ} (hfit : Fit links room net) (hdistinct : ∀ v, (net v).Distinct)
    (h : Returns net u path way w)
    (hback : ∀ p ∈ way, links p.target p.into = some (p.source, p.out)) :
    Leads links net u path (way.map Passage.back) w := by
  induction h with
  | here u => exact .here u
  | @link p w rest way e hedge htoken _ ih =>
    have hname : e.name = p.into := (hfit.single p.target).named p.into e hedge
    have hmatch : Router.matchesHop (Hop.link e.token) e = true := decide_eq_true rfl
    have hresolve := Router.resolve_of_match (hfit.single p.target) (hdistinct p.target)
      (Hop.valid_link htoken) hedge hmatch
    have hlink : links p.target e.name = some (p.source, p.out) := by
      rw [hname]
      exact hback p mem_cons_self
    have hleads := Leads.hop (Hop.valid_link htoken) hresolve hlink
      (ih fun q hq => hback q (mem_cons_of_mem _ hq))
    rw [hname] at hleads
    exact hleads

theorem Returns.length (h : Returns net u path way w) : path.length = way.length := by
  induction h with
  | here => rfl
  | link _ _ _ ih => rw [length_cons, length_cons, ih]

theorem Leads.length (h : Leads links net u path way w) : path.length = way.length := by
  induction h with
  | here => rfl
  | hop _ _ _ _ ih => rw [length_cons, length_cons, ih]

theorem Returns.links_only (h : Returns net u path way w) :
    ∀ hop ∈ path, ∃ token, hop = Hop.link token := by
  induction h with
  | here => simp
  | @link p w rest way e hedge htoken _ ih =>
    intro hop hmem
    rcases mem_cons.mp hmem with rfl | hmem
    · exact ⟨e.token, rfl⟩
    · exact ih hop hmem

theorem Leads.valid (h : Leads links net u path way w) : ∀ hop ∈ path, hop.valid = true := by
  induction h with
  | here => simp
  | hop hvalid _ _ _ ih => exact forall_mem_cons.mpr ⟨hvalid, ih⟩

theorem Leads.linked (h : Leads links net u path way w) :
    ∀ p ∈ way, links p.source p.out = some (p.target, p.into) := by
  induction h with
  | here => simp
  | hop _ _ hlink _ ih => exact forall_mem_cons.mpr ⟨hlink, ih⟩

end Ways

/-! ### Frames on their way -/

inductive Sight (ι : Type*)
  | left (node : ι) (edge : Bytes)
  | got (node : ι) (frame : Frame)
  deriving DecidableEq, Repr

section Carried

variable {ι : Type*} (P : Primitives) (links : Links ι)

/-- The effects of a node are one frame that is carried to its end, whatever else happens in
the network meanwhile and whenever it arrives at each node; `post` says how it ends. -/
inductive Carried [DecidableEq ι] (post : (ι → Router) → List (Sight ι) → Prop) :
    (ι → Router) → ι → List Effect → List (Sight ι) → Prop
  | got (net : ι → Router) (u : ι) (f : Frame) (seen : List (Sight ι))
      (h : post net (seen ++ [.got u f])) : Carried post net u [.delivered f] seen
  | left (net : ι → Router) (u : ι) (edge bytes : Bytes) (seen : List (Sight ι)) (v : ι)
      (into : Bytes) (hlink : links u edge = some (v, into))
      (h : ∀ net' now fresh, Evolves net net' → (∀ w, (net' w).Distinct) →
        ((net' v).receive P into bytes now fresh).1.Distinct →
        Carried post (Function.update net' v ((net' v).receive P into bytes now fresh).1) v
          ((net' v).receive P into bytes now fresh).2.effects (seen ++ [.left u edge])) :
      Carried post net u [.sent edge bytes] seen

def lefts (way : List (Passage ι)) : List (Sight ι) := way.map fun p => .left p.source p.out

variable {P links}

/-- A frame that can travel over `hops` more links: its budget, the room on its stacks
and its size suffice. -/
structure Roadworthy (room : ℕ) (f : Frame) : Prop where
  kind : f.kind ≠ .discover
  valid : f.fieldsValid = true
  destination : Stackable f.destination
  replyPath : Stackable f.replyPath
  budget : f.destination.length < f.remaining.toNat
  stack : f.destination.length + f.replyPath.length ≤ maxHops
  size : f.size + 18 * f.destination.length ≤ room

variable {f : Frame} {hop : Hop} {rest : Path} {room : ℕ} {net : ι → Router}
  {post : (ι → Router) → List (Sight ι) → Prop}

theorem Roadworthy.remaining (h : Roadworthy room f) (hdest : f.destination = hop :: rest) :
    1 < f.remaining ∧ f.remaining ≤ 16 := by
  obtain ⟨-, hle, -, -⟩ := Frame.ids_of_valid h.valid
  refine ⟨UInt8.lt_iff_toNat_lt.mpr ?_, hle⟩
  have hbudget := h.budget
  rw [hdest, length_cons] at hbudget
  have hone : (1 : UInt8).toNat = 1 := rfl
  omega

def Frame.moved (f : Frame) (token : Id) : Frame :=
  { f.popped with replyPath := Hop.link token :: f.replyPath }

theorem Roadworthy.encodable (h : Roadworthy room f) (hroom : room ≤ maxFrame)
    (hdest : f.destination = hop :: rest) : f.popped.Encodable ∧ f.popped.size ≤ room := by
  obtain ⟨hbudget, hle⟩ := h.remaining hdest
  obtain ⟨hne, hle', -⟩ := Frame.pred_remaining hbudget hle
  have htail : Stackable f.destination.tail := by
    have hstack := h.destination
    rw [hdest] at hstack ⊢
    exact hstack.tail
  have hsize : f.popped.size ≤ f.size := by
    simp only [Frame.size, Frame.popped, hdest, tail_cons, pathBytes_cons, length_append]
    omega
  have hwhole := h.size
  exact ⟨⟨Frame.fieldsValid_reroute h.valid (f.remaining - 1) hne hle' _ _, htail, h.replyPath,
    by omega⟩, by omega⟩

theorem Roadworthy.moved (h : Roadworthy room f) (hdest : f.destination = hop :: rest)
    {token : Id} (htoken : token ≠ zeroBlock 16) : Roadworthy room (f.moved token) := by
  obtain ⟨hbudget, hle⟩ := h.remaining hdest
  obtain ⟨hne, hle', hpred⟩ := Frame.pred_remaining hbudget hle
  have hmoved : (f.moved token).destination = rest := by
    rw [Frame.moved, Frame.popped, hdest]
    rfl
  have hstack := h.stack
  have hmore := h.budget
  have hsize := h.size
  rw [hdest, length_cons] at hstack hmore hsize
  refine ⟨h.kind, Frame.fieldsValid_reroute h.valid (f.remaining - 1) hne hle' _ _, ?_, ?_, ?_, ?_, ?_⟩
  · have hwhole := h.destination
    rw [hdest] at hwhole
    rw [hmoved]
    exact hwhole.tail
  · exact h.replyPath.push (by omega) htoken
  · rw [hmoved]
    show rest.length < (f.remaining - 1).toNat
    omega
  · rw [hmoved]
    simp only [Frame.moved, length_cons]
    omega
  · rw [hmoved]
    have hgrown : (f.moved token).size + hop.bytes.length = f.size + 18 := by
      simp only [Frame.size, Frame.moved, Frame.popped, hdest, tail_cons, pathBytes_cons,
        length_append, Hop.length_link]
      omega
    omega

theorem route_left (hfit : Fit links room net) (hroom : room ≤ maxFrame) {u : ι}
    (hf : Roadworthy room f) (hdest : f.destination = hop :: rest) {out : Edge}
    (hout : (net u).resolve hop = some out) :
    ((net u).route f).effects = [.sent out.name f.popped.bytes] := by
  obtain ⟨hencode, hsize⟩ := hf.encodable hroom hdest
  obtain ⟨hbudget, -⟩ := hf.remaining hdest
  obtain ⟨⟨name, hname⟩, -⟩ := Router.mem_of_resolve hout
  have hlimit := hfit.limit u name out hname
  have hattempt : (net u).attempt f = .sent out.name f.popped.bytes := by
    rw [Router.attempt, if_neg (by rw [hfit.allowed u]; decide), hdest]
    simp only [hout, if_neg (UInt8.not_le.mpr hbudget), Frame.encode_of hencode, Frame.length_bytes]
    exact if_neg (by omega)
  rw [Router.route, hattempt]
  rfl

theorem route_got (hfit : Fit links room net) {u : ι} (hdest : f.destination = []) :
    ((net u).route f).effects = [.delivered f] := by
  have hattempt : (net u).attempt f = .delivered f := by
    rw [Router.attempt, if_neg (by rw [hfit.allowed u]; decide), hdest]
  rw [Router.route, hattempt]
  rfl

theorem receive_moved (hfit : Fit links room net) (hroom : room ≤ maxFrame) {v : ι}
    (hf : Roadworthy room f) (hdest : f.destination = hop :: rest) {into : Bytes} {e : Edge}
    (hedge : (net v).edges.find? into = some e) (now : Time) (fresh : Fresh) :
    ∃ r' e', ((net v).receive P into f.popped.bytes now fresh) = (r', r'.route (f.moved e'.token)) ∧
      Router.Linked (net v) r' ∧ r'.edges.find? into = some e' ∧ e'.token ≠ zeroBlock 16 := by
  obtain ⟨hencode, -⟩ := hf.encodable hroom hdest
  have hkind : ¬(f.popped.kind = .discover ∧ f.popped.destination = []) := fun h => hf.kind h.1
  have hstack := hf.stack
  rw [hdest, length_cons] at hstack
  have hroute := Router.receive_routed (P := P) (hfit.allowed v) (Frame.decode_bytes hencode) hedge
    (show f.popped.replyPath.length < maxHops from (by
      show f.replyPath.length < maxHops
      omega)) hkind now fresh
  refine ⟨(net v).arrived into e now fresh, ((net v).withToken into e fresh.token).2, hroute,
    Router.arrived_linked hedge now fresh, ?_, Router.token_ne_zero _ _ _ _⟩
  rw [Router.arrived, Router.tick, Router.withToken]
  split
  · dsimp only
    rw [OrderedMap.find?_insert, if_pos rfl]
  · exact hedge

variable [DecidableEq ι]

theorem evolves_update {v : ι} {r' : Router} (h : Router.Linked (net v) r') :
    Evolves net (Function.update net v r') := by
  intro w
  by_cases hw : w = v
  · subst hw
    rw [Function.update_self]
    exact h
  · rw [Function.update_of_ne hw]
    exact .refl _

theorem distinct_update (h : ∀ w, (net w).Distinct) {v : ι} {r' : Router} (hr' : r'.Distinct) :
    ∀ w, (Function.update net v r' w).Distinct := by
  intro w
  by_cases hw : w = v
  · subst hw
    rw [Function.update_self]
    exact hr'
  · rw [Function.update_of_ne hw]
    exact h w

/-- A roadworthy frame travels the way its hops lead and arrives with the links of that
way on its reply path. -/
theorem travel {room : ℕ} (hroom : room ≤ maxFrame) {post : (ι → Router) → List (Sight ι) → Prop}
    {way done : List (Passage ι)} {u w origin : ι} {net : ι → Router} {f : Frame}
    {seen : List (Sight ι)} (hfit : Fit links room net) (hdistinct : ∀ v, (net v).Distinct)
    (hf : Roadworthy room f) (hleads : Leads links net u f.destination way w)
    (hreturns : Returns net u f.replyPath done origin)
    (hpost : ∀ net' remaining reply, Evolves net net' → (∀ v, (net' v).Distinct) →
      UInt8.toNat remaining + way.length = f.remaining.toNat →
      Returns net' w reply (way.reverse ++ done) origin →
      post net' (seen ++ lefts way ++
        [.got w { f with destination := [], remaining, replyPath := reply }])) :
    Carried P links post net u ((net u).route f).effects seen := by
  -- the induction is on the way that is left; frame, network and stack change with every link
  induction way generalizing u net f seen done with
  | nil =>
    generalize hdest : f.destination = destination at hleads
    cases hleads with
    | here =>
      rw [route_got hfit hdest]
      refine .got net w f seen ?_
      have hend := hpost net f.remaining f.replyPath (fun v => .refl _) hdistinct rfl hreturns
      rw [lefts, map_nil, append_nil, ← hdest] at hend
      exact hend
  | cons p way ih =>
    generalize hdest : f.destination = destination at hleads
    cases hleads with
    | @hop _ v _ hop rest out into _ hvalid hout hlink hrest =>
      rw [route_left hfit hroom hf hdest hout]
      refine .left net u out.name f.popped.bytes seen v into hlink fun net' now fresh hev hdist hdist' => ?_
      have hfit' := hfit.evolves hev
      obtain ⟨e, hedge⟩ := hfit'.wired u out.name v into hlink
      obtain ⟨r', e', hreceive, hlinked, hedge', htoken⟩ :=
        receive_moved (P := P) hfit' hroom hf hdest hedge now fresh
      rw [hreceive] at hdist' ⊢
      have hev' := evolves_update hlinked
      have hdist'' : ∀ w, (Function.update net' v r' w).Distinct := distinct_update hdist hdist'
      have hfit'' := hfit'.evolves hev'
      have hmoved : (f.moved e'.token).destination = rest := by
        rw [Frame.moved, Frame.popped, hdest]
        rfl
      have hself : Function.update net' v r' v = r' := Function.update_self _ _ _
      have hstack : Returns (Function.update net' v r') v (f.moved e'.token).replyPath
          (⟨u, out.name, v, into⟩ :: done) origin :=
        Returns.link (p := ⟨u, out.name, v, into⟩) (by rw [hself]; exact hedge') htoken
          (hreturns.evolves (hev.trans hev'))
      have hnext := @ih (⟨u, out.name, v, into⟩ :: done) v (Function.update net' v r')
        (f.moved e'.token) (seen ++ [.left u out.name]) hfit'' hdist'' (hf.moved hdest htoken)
        (by rw [hmoved]; exact hrest.evolves hfit'' hdist'' (hev.trans hev')) hstack ?_
      · rw [hself] at hnext
        exact hnext
      · intro net'' remaining reply hev'' hdist3 hremaining hback
        obtain ⟨hbudget, hle⟩ := hf.remaining hdest
        have hpred := (Frame.pred_remaining hbudget hle).2.2
        have hlt := UInt8.lt_iff_toNat_lt.mp hbudget
        have hfinal := hpost net'' remaining reply ((hev.trans hev').trans hev'') hdist3 ?_ ?_
        · have hlefts : seen ++ lefts (⟨u, out.name, v, into⟩ :: way) =
              seen ++ [.left u out.name] ++ lefts way := by simp [lefts]
          rw [hlefts] at hfinal
          exact hfinal
        · have hstep : (f.moved e'.token).remaining.toNat = f.remaining.toNat - 1 := hpred
          rw [hstep] at hremaining
          rw [length_cons]
          omega
        · rw [reverse_cons, append_assoc]
          exact hback

theorem Carried.mono {post' : (ι → Router) → List (Sight ι) → Prop}
    (hpost : ∀ net sights, post net sights → post' net sights) {u : ι} {effects : List Effect}
    {seen : List (Sight ι)} (h : Carried P links post net u effects seen) :
    Carried P links post' net u effects seen := by
  induction h with
  | got net u f seen h => exact .got net u f seen (hpost _ _ h)
  | left net u edge bytes seen v into hlink _ ih =>
    exact .left net u edge bytes seen v into hlink fun net' now fresh hev hdist hdist' =>
      ih net' now fresh hev hdist hdist'

/-- A frame handed to `send` for a path, a request or what answers it: nothing on its
reply path yet, the full budget, and room to grow by a link at every hop. -/
structure Posted (room : ℕ) (path : Path) (f : Frame) : Prop where
  destination : f.destination = path
  replyPath : f.replyPath = []
  remaining : f.remaining = 16
  kind : f.kind ≠ .discover
  valid : f.fieldsValid = true
  size : f.size + 18 * path.length ≤ room

theorem Posted.roadworthy {path : Path} (h : Posted room path f)
    (hvalid : ∀ hop ∈ path, hop.valid = true) (hshort : path.length ≤ 15) : Roadworthy room f := by
  have hbytes := length_pathBytes_le hvalid
  refine ⟨h.kind, h.valid, ?_, ?_, ?_, ?_, ?_⟩
  · rw [h.destination]
    exact ⟨Nat.le_trans hshort (by decide), hvalid, by rw [maxStackBytes]; omega⟩
  · rw [h.replyPath]
    exact stackable_nil
  · rw [h.destination, h.remaining]
    exact Nat.lt_of_le_of_lt hshort (by decide)
  · rw [h.destination, h.replyPath]
    exact Nat.le_trans hshort (by decide)
  · rw [h.destination]
    exact h.size

theorem travel_posted (hroom : room ≤ maxFrame) {way : List (Passage ι)} {u w : ι} {path : Path}
    (hfit : Fit links room net) (hdistinct : ∀ v, (net v).Distinct)
    (hleads : Leads links net u path way w) (hshort : path.length ≤ 15) (hf : Posted room path f)
    (now : Time) (hpost : ∀ net' remaining reply, Evolves net net' → (∀ v, (net' v).Distinct) →
      UInt8.toNat remaining + path.length = 16 → Returns net' w reply way.reverse u →
      post net' (lefts way ++
        [.got w { f with destination := [], remaining, replyPath := reply }])) :
    Carried P links post (Function.update net u ((net u).send f now).1) u
      ((net u).send f now).2.effects [] := by
  have hev : Evolves net (Function.update net u ((net u).send f now).1) :=
    evolves_update (Router.tick_linked (net u) now)
  have hdist : ∀ v, (Function.update net u ((net u).send f now).1 v).Distinct :=
    distinct_update hdistinct (hdistinct u)
  have hfit' := hfit.evolves hev
  have hself : Function.update net u ((net u).send f now).1 u = (net u).tick now :=
    Function.update_self _ _ _
  have hstack : Returns (Function.update net u ((net u).send f now).1) u f.replyPath [] u := by
    rw [hf.replyPath]
    exact .here u
  have htravel := @travel ι P links _ room hroom post way [] u w u _ f [] hfit' hdist
    (hf.roadworthy hleads.valid hshort)
    (by rw [hf.destination]; exact hleads.evolves hfit' hdist hev) hstack ?_
  · rw [hself] at htravel
    exact htravel
  · intro net' remaining reply hev' hdist' hremaining hback
    rw [hf.remaining, ← hleads.length] at hremaining
    rw [append_nil] at hback
    rw [nil_append]
    exact hpost net' remaining reply (hev.trans hev') hdist' hremaining hback

end Carried

def pairRequest : Frame where
  kind := .put
  state := 1
  request := Vector.replicate 16 2
  origin := Vector.replicate 16 7
  destination := [Hop.peer]
  command := ascii "show"

theorem pairRequest_posted : Posted maxFrame [Hop.peer] pairRequest :=
  ⟨rfl, rfl, rfl, by decide, by decide +kernel, by decide +kernel⟩

theorem pairNet_fit : Fit pairLinks maxFrame pairNet.routers where
  allowed _ := rfl
  single := pairNet_singlePeer
  limit v name e h := by rw [(pairNet_edges h).2]
  wired u out v into h := by
    rw [pairLinks] at h
    split at h
    next hout =>
      cases h
      exact ⟨_, by rw [hout]; rfl⟩
    next => cases h

theorem pairNet_distinct (side : Bool) : (pairNet.routers side).Distinct :=
  fun _ _ _ _ hn hm _ _ => (pairNet_edges hn).1.trans (pairNet_edges hm).1.symm

theorem pairLinks_back (u : Bool) (out : Bytes) (v : Bool) (into : Bytes)
    (h : pairLinks u out = some (v, into)) : pairLinks v into = some (u, out) := by
  rw [pairLinks] at h
  split at h
  next hout =>
    cases h
    rw [pairLinks, if_pos hout, Bool.not_not]
  next => cases h

end Tuntom.ControlRoute
