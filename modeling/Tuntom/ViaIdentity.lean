import Tuntom.Transition
import Tuntom.ViaCompiled
import Tuntom.ViaRoute

/-! The chain ids of a switch over its whole life, through any number of rulesets: an id
names one chain of one ruleset object, and keeps naming it. -/
namespace Tuntom.Via
open List

/-- The call of `add` that a chain belongs to. -/
def Chain.addition (c : Chain) : Addition := ⟨c.origin, c.originId, c.selector⟩

def Addition.key (a : Addition) : Bytes := a.selector.key a.origin

/-! ### What building a path does to the ids -/

structure State.Extends (s s' : State) : Prop where
  next : s.next.toNat ≤ s'.next.toNat
  keeps : ∀ r k i, s.generations.idOf r k = some i → s'.generations.idOf r k = some i
  fresh : ∀ r k i, s'.generations.idOf r k = some i →
    s.generations.idOf r k = some i ∨ s.next.toNat < i.toNat

theorem State.Extends.refl (s : State) : s.Extends s := ⟨le_rfl, fun _ _ _ h => h, fun _ _ _ h => .inl h⟩

theorem State.Extends.trans {s t u : State} (h : s.Extends t) (h' : t.Extends u) : s.Extends u where
  next := h.next.trans h'.next
  keeps := fun r k i hi => h'.keeps r k i (h.keeps r k i hi)
  fresh := fun r k i hi => by
    rcases h'.fresh r k i hi with hi | hi
    · exact h.fresh r k i hi
    · exact .inr (h.next.trans_lt hi)

theorem State.identify_extends (s : State) (rules : ℕ) (key : Bytes) :
    s.Extends (s.identify rules key).1 := by
  have htouched : ∀ r k, Generations.idOf (OrderedMap.insert s.generations rules
      (s.generations.idsOf rules)) r k = s.generations.idOf r k :=
    s.generations.idOf_touched rules
  rw [identify]
  split
  · refine ⟨le_rfl, fun r k i hi => ?_, fun r k i hi => .inl ?_⟩
    · rwa [htouched]
    · rwa [htouched] at hi
  next hnew =>
  split
  · refine ⟨le_rfl, fun r k i hi => ?_, fun r k i hi => .inl ?_⟩
    · rwa [htouched]
    · rwa [htouched] at hi
  next hnext =>
  have hsucc : (s.next + 1).toNat = s.next.toNat + 1 := by
    have hlt := s.next.toNat_lt
    have hne : s.next.toNat ≠ 4294967295 := fun heq => hnext (UInt32.toNat_inj.mp heq)
    rw [UInt32.toNat_add]
    change (s.next.toNat + 1) % 2 ^ 32 = _
    omega
  have hid : ∀ r k, Generations.idOf (OrderedMap.insert s.generations rules
      ((s.generations.idsOf rules).insert key (s.next + 1))) r k =
      if r = rules ∧ k = key then some (s.next + 1) else s.generations.idOf r k := by
    intro r k
    rw [Generations.idOf_insert, OrderedMap.find?_insert, Generations.find?_idsOf]
    by_cases hr : r = rules
    · simp [hr]
    · simp [hr]
  refine ⟨hsucc ▸ Nat.le_succ _, fun r k i hi => ?_, fun r k i hi => ?_⟩
  · rw [hid, if_neg]
    · exact hi
    · rintro ⟨rfl, rfl⟩
      rw [Generations.find?_idsOf, hi] at hnew
      cases hnew
  · rw [hid] at hi
    split at hi
    · rw [← Option.some.inj hi, hsucc]
      exact .inr (Nat.lt_succ_self _)
    · exact .inl hi

theorem State.idOf_maintain (s : State) (expired : ℕ → Bool) (r : ℕ) (k : Bytes) :
    (s.maintain expired).generations.idOf r k =
      if expired r then none else s.generations.idOf r k := by
  rw [maintain, Generations.idOf, OrderedMap.find?_filter, Generations.idOf]
  cases s.generations.find? r with
  | none => simp
  | some ids =>
    cases hexpired : expired r <;> simp [Option.filter, hexpired]

namespace Building

variable {generation : ℕ} {rules : SwitchRuleset} {services : List (Bytes × Service)}

/-- The chains after the calls `done`: each stands under the id of its key, and belongs to
the first call with that key. -/
structure Firsts (generation : ℕ) (done : List Addition) (b : Building) : Prop where
  chains : ∀ id c, b.chains.find? id = some c →
    b.state.generations.idOf generation c.addition.key = some id ∧
      (done.find? fun a => a.key = c.addition.key) = some c.addition
  all : ∀ a ∈ done, ∃ id c, b.chains.find? id = some c ∧ c.addition.key = a.key

theorem add_extends (b : Building) (a : Addition) :
    b.state.Extends (b.add generation rules services a).1.state := by
  have hidentify := b.state.identify_extends generation (a.selector.key a.origin)
  simp only [add]
  split
  · exact .refl _
  split
  · exact .refl _
  rcases hid : b.state.identify generation (a.selector.key a.origin) with ⟨state, e | id⟩
  · rw [hid] at hidentify
    exact hidentify
  · rw [hid] at hidentify
    exact hidentify

theorem addAll_extends (rest : List Addition) (b : Building) :
    b.state.Extends (addAll generation rules services rest b).1.state := by
  induction rest generalizing b with
  | nil => exact .refl _
  | cons a rest ih =>
    have hadd : b.state.Extends (b.add generation rules services a).1.state := add_extends b a
    rw [addAll]
    split
    next b' e hb => rwa [hb] at hadd
    next b' hb =>
    rw [hb] at hadd
    exact hadd.trans (ih b')

theorem Firsts.add {done : List Addition} {b b' : Building} {a : Addition}
    (h : Firsts generation done b) (hadd : b.add generation rules services a = (b', none)) :
    Firsts generation (done ++ [a]) b' := by
  simp only [Building.add] at hadd
  split at hadd
  · cases hadd
  split at hadd
  · cases hadd
  next members hmembers =>
  rcases hid : b.state.identify generation (a.selector.key a.origin) with ⟨state, e | id⟩
  · rw [hid] at hadd
    cases hadd
  rw [hid] at hadd
  cases hadd
  obtain ⟨hkey, hkeep⟩ := State.identify_ok hid
  have hold : ∀ i c, b.chains.find? i = some c →
      state.generations.idOf generation c.addition.key = some i ∧
        ((done ++ [a]).find? fun a => a.key = c.addition.key) = some c.addition := by
    intro i c hc
    obtain ⟨h₁, h₂⟩ := h.chains i c hc
    refine ⟨hkeep _ _ _ h₁, ?_⟩
    rw [List.find?_append, h₂]
    rfl
  rcases hfind : b.chains.find? id with _ | entry
  · -- the id is new: no earlier call had this key
    have hnew : (done.find? fun x => x.key = a.key) = none := by
      rw [List.find?_eq_none]
      intro x hx heq
      rw [decide_eq_true_eq] at heq
      obtain ⟨i, c, hc, hckey⟩ := h.all x hx
      have hi := (h.chains i c hc).1
      have hi' := hkeep _ _ _ hi
      rw [hckey, heq, show a.key = a.selector.key a.origin from rfl, hkey] at hi'
      rw [Option.some.inj hi', hc] at hfind
      cases hfind
    constructor
    · intro i c hc
      rw [OrderedMap.find?_insert] at hc
      split at hc
      next hi =>
        rw [← Option.some.inj hc, hi]
        refine ⟨hkey, ?_⟩
        have hadd : (⟨a.origin, a.originId, a.selector⟩ : Addition) = a := rfl
        simp only [Option.getD_none, Chain.addition, hadd]
        rw [List.find?_append, hnew]
        simp
      · exact hold i c hc
    · intro x hx
      rcases mem_append.mp hx with hx | hx
      · obtain ⟨i, c, hc, hckey⟩ := h.all x hx
        refine ⟨i, c, ?_, hckey⟩
        rw [OrderedMap.find?_insert, if_neg]
        · exact hc
        · rintro rfl
          rw [hfind] at hc
          cases hc
      · rw [mem_singleton.mp hx]
        exact ⟨id, _, by rw [OrderedMap.find?_insert, if_pos rfl], rfl⟩
  have hsame : ∀ i, (b.chains.insert id entry).find? i = b.chains.find? i := by
    intro i
    rw [OrderedMap.find?_insert]
    split
    next hi => rw [hi, hfind]
    · rfl
  simp only [Option.getD_some]
  constructor
  · intro i c hc
    rw [hsame] at hc
    exact hold i c hc
  · intro x hx
    simp only [hsame]
    rcases mem_append.mp hx with hx | hx
    · exact h.all x hx
    rw [mem_singleton.mp hx]
    refine ⟨id, entry, hfind, ?_⟩
    exact (state.issued.unique _ _ _ _ _ (hold id entry hfind).1 hkey).2

theorem Firsts.addAll {done rest : List Addition} {b b' : Building} (h : Firsts generation done b)
    (hadd : addAll generation rules services rest b = (b', none)) :
    Firsts generation (done ++ rest) b' := by
  induction rest generalizing done b with
  | nil =>
    cases hadd
    rwa [append_nil]
  | cons a rest ih =>
    rw [Building.addAll] at hadd
    split at hadd
    · cases hadd
    next b'' hstep =>
    have hrest := ih (h.add hstep) hadd
    rwa [append_assoc] at hrest

end Building

namespace SwitchPath

variable {state : State} {generation : ℕ} {expired : ℕ → Bool} {rules : SwitchRuleset}
  {adhoc : Option DivertConfig} {ports : List PortName} {relays : OrderedMap PortName PortName}

/-- Whether it succeeds or not, building a path adds ids to those that `maintain` left. -/
theorem compile_state (state : State) (generation : ℕ) (expired : ℕ → Bool) (rules : SwitchRuleset)
    (adhoc : Option DivertConfig) (ports : List PortName) (relays : OrderedMap PortName PortName) :
    (compile state generation expired rules adhoc ports relays).1 = state ∨
      (state.maintain expired).Extends
        (compile state generation expired rules adhoc ports relays).1 := by
  simp only [compile]
  split
  · exact .inl rfl
  split
  · exact .inl rfl
  right
  split
  · exact .refl _
  split
  · exact .refl _
  have hall : (state.maintain expired).Extends
      (Building.addAll generation rules
        (rules.services.entries.map fun e => (e.1, Service.compile e.2 relays ports))
        (additions rules (adhocMatches adhoc)) { state := state.maintain expired }).1.state :=
    Building.addAll_extends _ { state := state.maintain expired }
  split
  next hb => rwa [hb] at hall
  next hb => rwa [hb] at hall

theorem compile_firsts {path : SwitchPath}
    (h : (compile state generation expired rules adhoc ports relays).2 = .ok path) :
    (state.maintain expired).Extends (compile state generation expired rules adhoc ports relays).1 ∧
      (∀ id c, path.chains.find? id = some c →
        (compile state generation expired rules adhoc ports relays).1.generations.idOf generation
            c.addition.key = some id ∧
          ((additions rules (adhocMatches adhoc)).find? fun a => a.key = c.addition.key) =
            some c.addition) ∧
      ∀ a ∈ additions rules (adhocMatches adhoc),
        ∃ id c, path.chains.find? id = some c ∧ c.addition.key = a.key := by
  simp only [compile] at h ⊢
  split at h
  · cases h
  next hformat =>
  split at h
  · cases h
  next hvia =>
  split at h
  · cases h
  next hunstable =>
  split at h
  · cases h
  next hunknown =>
  split at h
  · cases h
  next b hbuild =>
  cases h
  have hextends : (state.maintain expired).Extends
      (Building.addAll generation rules
        (rules.services.entries.map fun e => (e.1, Service.compile e.2 relays ports))
        (additions rules (adhocMatches adhoc)) { state := state.maintain expired }).1.state :=
    Building.addAll_extends _ { state := state.maintain expired }
  have hempty : Building.Firsts generation [] { state := state.maintain expired } :=
    ⟨fun _ c hc => (absurd (show none = some c from hc) (by simp)),
      fun _ ha => absurd ha not_mem_nil⟩
  have hfirsts := hempty.addAll hbuild
  rw [hbuild] at hextends
  rw [if_neg hformat, if_neg hvia]
  simp only [hunstable, hunknown, hbuild]
  exact ⟨hextends, hfirsts.chains, hfirsts.all⟩

end SwitchPath

/-! ### The life of a switch -/

structure Life where
  state : State
  dropped : List ℕ := []

inductive LifeOp
  | build (generation : ℕ) (ports : List PortName) (relays : OrderedMap PortName PortName)
  | drop (generation : ℕ)
  | maintain

/-- One operation; a path comes out where it was built. `content` is what the ruleset
objects hold. -/
def lifeStep (content : ℕ → SwitchRuleset) (adhoc : Option DivertConfig) (s : Life) :
    LifeOp → Life × Option SwitchPath
  | .build generation ports relays =>
    if generation ∈ s.dropped then (s, none)
    else
      let built := SwitchPath.compile s.state generation s.dropped.contains (content generation) adhoc
        ports relays
      ({ s with state := built.1 }, built.2.toOption)
  | .drop generation => ({ s with dropped := generation :: s.dropped }, none)
  | .maintain => ({ s with state := s.state.maintain s.dropped.contains }, none)

abbrev LifeHistory := List (LifeOp × Option SwitchPath)

def Built (past : LifeHistory) (generation : ℕ) (path : SwitchPath) : Prop :=
  ∃ ports relays, (.build generation ports relays, some path) ∈ past

def Names (past : LifeHistory) (generation : ℕ) (id : UInt32) (c : Chain) : Prop :=
  ∃ path, Built past generation path ∧ path.chains.find? id = some c

/-- The invariant of the ids: an id that was ever used belongs to one key of one ruleset
object, whether the object is still there or not. -/
structure LifeInv (past : LifeHistory) (s : Life) : Prop where
  issued : ∀ g id c, Names past g id c → id.toNat ≤ s.state.next.toNat
  kept : ∀ g id c, Names past g id c → g ∉ s.dropped →
    s.state.generations.idOf g c.addition.key = some id
  owner : ∀ g id c, Names past g id c → ∀ g' k,
    s.state.generations.idOf g' k = some id → g' = g ∧ k = c.addition.key
  unique : ∀ g id c g' c', Names past g id c → Names past g' id c' →
    g = g' ∧ c.addition.key = c'.addition.key
  stable : ∀ g id c id' c', Names past g id c → Names past g id' c' →
    c.addition.key = c'.addition.key → id = id'

theorem names_cons {past : LifeHistory} {op : LifeOp} {out : Option SwitchPath} {g : ℕ} {id : UInt32}
    {c : Chain} (h : Names ((op, out) :: past) g id c) :
    Names past g id c ∨ ∃ ports relays path, op = .build g ports relays ∧ out = some path ∧
      path.chains.find? id = some c := by
  obtain ⟨path, ⟨ports, relays, hmem⟩, hc⟩ := h
  rcases mem_cons.mp hmem with heq | hmem
  · obtain ⟨rfl, rfl⟩ := Prod.mk.inj heq
    exact .inr ⟨ports, relays, path, rfl, rfl, hc⟩
  · exact .inl ⟨path, ⟨ports, relays, hmem⟩, hc⟩

theorem LifeInv.quiet {past : LifeHistory} {s s' : Life} {op : LifeOp} (h : LifeInv past s)
    (hnext : s.state.next.toNat ≤ s'.state.next.toNat)
    (hkeeps : ∀ g k i, g ∉ s'.dropped → s.state.generations.idOf g k = some i →
      s'.state.generations.idOf g k = some i) (hdropped : ∀ g ∈ s.dropped, g ∈ s'.dropped)
    (hfresh : ∀ g k i, s'.state.generations.idOf g k = some i →
      s.state.generations.idOf g k = some i ∨ s.state.next.toNat < i.toNat) :
    LifeInv ((op, none) :: past) s' := by
  have hnames : ∀ g id c, Names ((op, none) :: past) g id c → Names past g id c := by
    intro g id c hn
    rcases names_cons hn with hn | ⟨_, _, _, _, hout, _⟩
    · exact hn
    · cases hout
  refine ⟨?_, ?_, ?_, ?_, ?_⟩
  · exact fun g id c hn => (h.issued g id c (hnames g id c hn)).trans hnext
  · intro g id c hn hlive
    exact hkeeps g _ _ hlive (h.kept g id c (hnames g id c hn) fun hd => hlive (hdropped g hd))
  · intro g id c hn g' k hid
    have hn := hnames g id c hn
    rcases hfresh g' k id hid with hid | hlt
    · exact h.owner g id c hn g' k hid
    · exact absurd (h.issued g id c hn) (not_le.mpr hlt)
  · exact fun g id c g' c' hn hn' => h.unique g id c g' c' (hnames g id c hn) (hnames g' id c' hn')
  · exact fun g id c id' c' hn hn' => h.stable g id c id' c' (hnames g id c hn) (hnames g id' c' hn')

theorem LifeInv.build {past : LifeHistory} {s : Life} {content : ℕ → SwitchRuleset}
    {adhoc : Option DivertConfig} {generation : ℕ} {ports : List PortName}
    {relays : OrderedMap PortName PortName} {path : SwitchPath} (h : LifeInv past s)
    (hlive : generation ∉ s.dropped)
    (hbuilt : (SwitchPath.compile s.state generation s.dropped.contains (content generation) adhoc ports
      relays).2 = .ok path) :
    LifeInv ((.build generation ports relays, some path) :: past)
      { s with state := (SwitchPath.compile s.state generation s.dropped.contains (content generation)
        adhoc ports relays).1 } := by
  obtain ⟨hextends, hchains, -⟩ := SwitchPath.compile_firsts hbuilt
  generalize (SwitchPath.compile s.state generation s.dropped.contains (content generation) adhoc ports
    relays).1 = state at hextends hchains
  have hmaintain : ∀ g k, (s.state.maintain s.dropped.contains).generations.idOf g k =
      if s.dropped.contains g then none else s.state.generations.idOf g k :=
    s.state.idOf_maintain s.dropped.contains
  -- what an id meant before the call, it means afterwards
  have howner : ∀ g id c, Names past g id c → ∀ g' k,
      state.generations.idOf g' k = some id → g' = g ∧ k = c.addition.key := by
    intro g id c hn g' k hid
    rcases hextends.fresh g' k id hid with hid | hlt
    · rw [hmaintain] at hid
      split at hid
      · cases hid
      · exact h.owner g id c hn g' k hid
    · exact absurd (h.issued g id c hn) (not_le.mpr hlt)
  have hnames : ∀ g id c, Names ((.build generation ports relays, some path) :: past) g id c →
      Names past g id c ∨ g = generation ∧ state.generations.idOf generation c.addition.key = some id := by
    intro g id c hn
    rcases names_cons hn with hn | ⟨_, _, path', hop, hout, hc⟩
    · exact .inl hn
    cases hop
    cases hout
    exact .inr ⟨rfl, (hchains id c hc).1⟩
  have hkept : ∀ g id c, Names ((.build generation ports relays, some path) :: past) g id c →
      g ∉ s.dropped → state.generations.idOf g c.addition.key = some id := by
    intro g id c hn hg
    rcases hnames g id c hn with hn | ⟨rfl, hid⟩
    · refine hextends.keeps g _ _ ?_
      rw [hmaintain, if_neg (by simpa using hg)]
      exact h.kept g id c hn hg
    · exact hid
  refine ⟨?_, hkept, ?_, ?_, ?_⟩
  · intro g id c hn
    rcases hnames g id c hn with hn | ⟨-, hid⟩
    · exact (h.issued g id c hn).trans hextends.next
    · exact (state.issued.bounds _ _ _ hid).2
  · intro g id c hn g' k hid
    rcases hnames g id c hn with hn | ⟨rfl, hid'⟩
    · exact howner g id c hn g' k hid
    · exact state.issued.unique _ _ _ _ _ hid hid'
  · intro g id c g' c' hn hn'
    rcases hnames g id c hn with hold | ⟨rfl, hid⟩ <;>
      rcases hnames g' id c' hn' with hold' | ⟨rfl, hid'⟩
    · exact h.unique g id c g' c' hold hold'
    · obtain ⟨hg, hk⟩ := howner g id c hold _ _ hid'
      exact ⟨hg.symm, hk.symm⟩
    · exact howner g' id c' hold' _ _ hid
    · exact state.issued.unique _ _ _ _ _ hid hid'
  · intro g id c id' c' hn hn' hkey
    by_cases hg : g ∈ s.dropped
    · -- nothing is built from a dropped ruleset
      have hne : g ≠ generation := fun heq => hlive (heq ▸ hg)
      rcases hnames g id c hn with hold | ⟨heq, -⟩
      · rcases hnames g id' c' hn' with hold' | ⟨heq, -⟩
        · exact h.stable g id c id' c' hold hold' hkey
        · exact absurd heq hne
      · exact absurd heq hne
    have hid := hkept g id c hn hg
    rw [hkey, hkept g id' c' hn' hg] at hid
    exact (Option.some.inj hid).symm

section History
variable {content : ℕ → SwitchRuleset} {adhoc : Option DivertConfig} {start : State}
  {past : LifeHistory} {s : Life}

theorem lifeInv_step (h : LifeInv past s) (op : LifeOp) :
    LifeInv ((op, (lifeStep content adhoc s op).2) :: past) (lifeStep content adhoc s op).1 := by
  cases op with
  | drop generation =>
    exact h.quiet le_rfl (fun _ _ _ _ hid => hid) (fun g hg => mem_cons_of_mem _ hg)
      fun _ _ _ hid => .inl hid
  | maintain =>
    have hmaintain := s.state.idOf_maintain s.dropped.contains
    refine h.quiet le_rfl (fun g k i hg hid => ?_) (fun _ hg => hg) fun g k i hid => .inl ?_
    · have hlive : ¬s.dropped.contains g = true := by simpa [lifeStep] using hg
      rw [lifeStep, hmaintain, if_neg hlive, hid]
    · rw [lifeStep, hmaintain] at hid
      split at hid
      · cases hid
      · exact hid
  | build generation ports relays =>
    rw [lifeStep]
    split
    · exact h.quiet le_rfl (fun _ _ _ _ hid => hid) (fun _ hg => hg) fun _ _ _ hid => .inl hid
    next hlive =>
    rcases hbuilt : (SwitchPath.compile s.state generation s.dropped.contains (content generation)
      adhoc ports relays).2 with e | path
    · -- a failed build may have used up ids
      have hmaintain := s.state.idOf_maintain s.dropped.contains
      rcases SwitchPath.compile_state s.state generation s.dropped.contains (content generation) adhoc
        ports relays with hsame | hextends
      · simp only [hbuilt, hsame]
        exact h.quiet le_rfl (fun _ _ _ _ hid => hid) (fun _ hg => hg) fun _ _ _ hid => .inl hid
      · simp only [hbuilt]
        refine h.quiet hextends.next (fun g k i hg hid => ?_) (fun _ hg => hg) fun g k i hid => ?_
        · refine hextends.keeps g k i ?_
          rw [hmaintain, if_neg (by simpa using hg), hid]
        · refine (hextends.fresh g k i hid).imp_left fun hid => ?_
          rw [hmaintain] at hid
          split at hid
          · cases hid
          · exact hid
    · simp only [hbuilt]
      exact h.build hlive hbuilt

theorem lifeInv_trace (h : Transition.Trace (lifeStep content adhoc) { state := start } past s) :
    LifeInv past s := by
  refine Transition.Trace.invariant LifeInv ?_ (fun past s op _ hinv => lifeInv_step hinv op) h
  have hnone : ∀ g id c, ¬Names [] g id c := by
    rintro g id c ⟨path, ⟨ports, relays, hmem⟩, -⟩
    exact not_mem_nil hmem
  exact ⟨fun g id c hn => absurd hn (hnone g id c), fun g id c hn => absurd hn (hnone g id c),
    fun g id c hn => absurd hn (hnone g id c), fun g id c _ _ hn => absurd hn (hnone g id c),
    fun g id c _ _ hn => absurd hn (hnone g id c)⟩

theorem built_compile (h : Transition.Trace (lifeStep content adhoc) { state := start } past s)
    {generation : ℕ} {path : SwitchPath} (hbuilt : Built past generation path) :
    ∃ state expired ports relays, (SwitchPath.compile state generation expired (content generation)
      adhoc ports relays).2 = .ok path := by
  obtain ⟨ports, relays, hmem⟩ := hbuilt
  obtain ⟨earlier, s', -, heq, -⟩ := h.step_of_mem hmem
  have hout : some path = (lifeStep content adhoc s' (.build generation ports relays)).2 :=
    congrArg Prod.snd heq
  rw [lifeStep] at hout
  split at hout
  · cases hout
  refine ⟨s'.state, s'.dropped.contains, ports, relays, ?_⟩
  rcases hcompile : (SwitchPath.compile s'.state generation s'.dropped.contains (content generation)
    adhoc ports relays).2 with e | path'
  · simp only [hcompile] at hout
    cases hout
  · simp only [hcompile] at hout
    rw [Option.some.inj hout]

structure Chain.Same (c c' : Chain) : Prop where
  origin : c.origin = c'.origin
  originId : c.originId = c'.originId
  selector : c.selector = c'.selector
  services : c.services.map Service.config = c'.services.map Service.config

theorem configs_of_mapM {rules : SwitchRuleset} {ports : List PortName}
    {relays : OrderedMap PortName PortName} {names : List Bytes} {services : List Service}
    (h : names.mapM (fun name => (rules.services.entries.map fun e =>
      (e.1, Service.compile e.2 relays ports)).lookup name) = some services) :
    names.mapM (fun name => rules.services.entries.lookup name) =
      some (services.map Service.config) := by
  have hlookup : ∀ (entries : List (Bytes × ViaService)) name, ((entries.map fun e =>
      (e.1, Service.compile e.2 relays ports)).lookup name).map Service.config =
        entries.lookup name := by
    intro entries name
    induction entries with
    | nil => rfl
    | cons e entries ih =>
      rw [map_cons, lookup_cons, lookup_cons]
      split
      · rfl
      · exact ih
  induction names generalizing services with
  | nil =>
    cases h
    rfl
  | cons name names ih =>
    rw [mapM_cons] at h
    obtain ⟨service, hservice, h⟩ := Option.bind_eq_some_iff.mp h
    obtain ⟨rest, hrest, h⟩ := Option.bind_eq_some_iff.mp h
    cases h
    rw [mapM_cons, ← hlookup, hservice, ih hrest]
    rfl

theorem same_of_key (h : Transition.Trace (lifeStep content adhoc) { state := start } past s)
    {generation : ℕ} {path path' : SwitchPath} (hbuilt : Built past generation path)
    (hbuilt' : Built past generation path') {id id' : UInt32} {c c' : Chain}
    (hc : path.chains.find? id = some c) (hc' : path'.chains.find? id' = some c')
    (hkey : c.addition.key = c'.addition.key) : c.Same c' := by
  obtain ⟨state, expired, ports, relays, hcompile⟩ := built_compile h hbuilt
  obtain ⟨state', expired', ports', relays', hcompile'⟩ := built_compile h hbuilt'
  have hfirst := ((SwitchPath.compile_firsts hcompile).2.1 id c hc).2
  have hfirst' := ((SwitchPath.compile_firsts hcompile').2.1 id' c' hc').2
  rw [hkey, hfirst'] at hfirst
  have hadd : c'.addition = c.addition := Option.some.inj hfirst
  have hselector : c'.selector = c.selector := congrArg Addition.selector hadd
  have hcompiled := SwitchPath.compiled_of_compile hcompile
  have hcompiled' := SwitchPath.compiled_of_compile hcompile'
  have hservices := (hcompiled.chains id c hc).2.2.services_eq
  have hservices' := (hcompiled'.chains id' c' hc').2.2.services_eq
  rw [hcompiled.services_eq] at hservices
  rw [hcompiled'.services_eq, hselector] at hservices'
  refine ⟨(congrArg Addition.origin hadd).symm, (congrArg Addition.originId hadd).symm,
    hselector.symm, ?_⟩
  have hconfigs := configs_of_mapM hservices
  rw [configs_of_mapM hservices'] at hconfigs
  exact (Option.some.inj hconfigs).symm

/-- Over the life of a switch, with rulesets loaded and dropped in any order: an id that
two paths share belongs to one ruleset object and to the same chain in both; a path built
again from the same ruleset gives every chain its id again; so an envelope made under one
path is refused by another or means the same chain there. -/
theorem via_ids_never_alias
    (h : Transition.Trace (lifeStep content adhoc) { state := start } past s)
    {g g' : ℕ} {path path' : SwitchPath} (hbuilt : Built past g path) (hbuilt' : Built past g' path') :
    (∀ id c c', path.chains.find? id = some c → path'.chains.find? id = some c' →
        g = g' ∧ c.Same c') ∧
      (g = g' → ∀ id c, path.chains.find? id = some c →
        ∃ c', path'.chains.find? id = some c' ∧ c.Same c') ∧
      ∀ id c, path.chains.find? id = some c → ∀ H live frame enabled physical env,
        split frame.labels = some env → env.present → env.chain = id →
          path'.route H live frame enabled physical = { result := .malformed } ∨
            g = g' ∧ ∃ c', path'.chains.find? env.chain = some c' ∧ c.Same c' := by
  have hinv := lifeInv_trace h
  have hsame : ∀ id c c', path.chains.find? id = some c → path'.chains.find? id = some c' →
      g = g' ∧ c.Same c' := by
    intro id c c' hc hc'
    obtain ⟨rfl, hkey⟩ := hinv.unique g id c g' c' ⟨path, hbuilt, hc⟩ ⟨path', hbuilt', hc'⟩
    exact ⟨rfl, same_of_key h hbuilt hbuilt' hc hc' hkey⟩
  refine ⟨hsame, ?_, ?_⟩
  · rintro rfl id c hc
    obtain ⟨state, expired, ports, relays, hcompile⟩ := built_compile h hbuilt
    obtain ⟨state', expired', ports', relays', hcompile'⟩ := built_compile h hbuilt'
    have hadded := ((SwitchPath.compiled_of_compile hcompile).chains id c hc).2.2.added
    obtain ⟨id', c', hc', hkey⟩ := (SwitchPath.compile_firsts hcompile').2.2 _ hadded
    have hid := hinv.stable g id c id' c' ⟨path, hbuilt, hc⟩ ⟨path', hbuilt', hc'⟩ hkey.symm
    exact ⟨c', hid ▸ hc', same_of_key h hbuilt hbuilt' hc hc' hkey.symm⟩
  · intro id c hc H live frame enabled physical env hsplit hpresent hid
    rcases hfind : path'.chains.find? env.chain with _ | c'
    · left
      rw [SwitchPath.route, hsplit]
      simp only [hpresent, if_true, SwitchPath.resume, hfind]
    · obtain ⟨hg, hchain⟩ := hsame id c c' hc (hid ▸ hfind)
      exact .inr ⟨hg, c', rfl, hchain⟩

end History

def sampleLife : List LifeOp := [.build 0 samplePorts {}, .drop 0, .maintain, .build 1 samplePorts {}]

abbrev sampleLifeRun : LifeHistory × Life :=
  Transition.run (lifeStep (fun _ => sampleRules) none) { state := sampleState } sampleLife

theorem via_ids_never_alias_sample : ∃ path path', Built sampleLifeRun.1 0 path ∧
    Built sampleLifeRun.1 1 path' ∧ path.chains.size = 1 ∧ path'.chains.size = 1 ∧
      ∀ id c, path.chains.find? id = some c → path'.chains.find? id = none := by
  have hsize : sampleLifeRun.1.map (fun call => call.2.map fun path => path.chains.size) =
      [some 1, none, none, some 1] := by decide +kernel
  have hpast : ∃ out out', sampleLifeRun.1 =
      [(.build 1 samplePorts {}, out'), (.maintain, none), (.drop 0, none),
        (.build 0 samplePorts {}, out)] := ⟨_, _, rfl⟩
  obtain ⟨out, out', hpast⟩ := hpast
  rw [hpast] at hsize
  simp only [List.map_cons, List.cons.injEq] at hsize
  obtain ⟨path, hpath, hone⟩ := Option.map_eq_some_iff.mp hsize.2.2.2.1
  obtain ⟨path', hpath', hone'⟩ := Option.map_eq_some_iff.mp hsize.1
  have hbuilt : Built sampleLifeRun.1 0 path := ⟨samplePorts, {}, by simp [hpast, hpath]⟩
  have hbuilt' : Built sampleLifeRun.1 1 path' := ⟨samplePorts, {}, by simp [hpast, hpath']⟩
  refine ⟨path, path', hbuilt, hbuilt', hone, hone', fun id c hc => ?_⟩
  have hsame := (via_ids_never_alias (Transition.trace_run sampleLife) hbuilt hbuilt').1
  refine Option.eq_none_iff_forall_ne_some.mpr fun c' hc' => ?_
  exact absurd (hsame id c c' hc hc').1 (by decide)

end Tuntom.Via
