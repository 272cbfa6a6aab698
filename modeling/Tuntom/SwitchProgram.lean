import Tuntom.SwitchRuleset

/-! The program compiled for an ingress port against the ordered reading of the rules: the
first statement of the file that matches decides. -/
namespace Tuntom.RulesProgram
open List

/-! ### The ordered reading -/

/-- Format 1: the first mapping of the file for an ingress port and a label. -/
def firstMapping (r : SwitchRuleset) (port : PortName) (label : UInt64) : Option Rule :=
  r.rules.find? fun s =>
    s.1.type = .mapping ∧ routePortMatches s.1.input.port port ∧ s.1.input.label.accepts label

/-- Format 1: the verdict of the first policy of the file, drop by default. -/
def firstVerdict (r : SwitchRuleset) (port : PortName) (input : UInt64) (candidate : PortName)
    (output : UInt64) : Bool :=
  ((r.rules.find? fun s =>
    s.1.type = .policy ∧ routePortMatches s.1.input.port port ∧ s.1.input.label.accepts input ∧
      s.1.output.label.accepts output ∧ routePortMatches s.1.output.port candidate).map
    fun s => s.1.allow).getD false

/-- Formats 2 and 3: the first statement for an ingress port and a stack that is an allow or
a drop without a destination. -/
def firstSelected (r : SwitchRuleset) (port : PortName) (input : Labels) : Option Rule :=
  r.rules.find? fun s =>
    routePortMatches s.1.input.port port ∧ s.1.input.stackMatch.accepts input ∧
      (s.1.type = .forward ∨
        (s.1.type = .policy ∧ s.1.output.port = anyPort ∧ s.1.output.stackMatch.unrestricted))

def refuses (t : Rule) (port : PortName) (input : Labels) (candidate : PortName) (output : Labels) :
    Bool :=
  t.1.type = .policy ∧ routePortMatches t.1.input.port port ∧ t.1.input.stackMatch.accepts input ∧
    routePortMatches t.1.output.port candidate ∧ t.1.output.stackMatch.accepts output

/-- What a switch does with a candidate: the selected statement is no drop and `allowed`. -/
def admits (program : RulesProgram) (input : Labels) (candidate : PortName) (output : Labels) : Bool :=
  match program.mapping input with
  | none => false
  | some s => s.1.type ≠ .policy ∧ program.allowed s input candidate output

/-! ### The constructor's loop -/

section Compile

variable (port : PortName)

def kept (s : Rule) : Bool :=
  routePortMatches s.1.input.port port ∧ (s.1.type = .forward ∨ s.1.type = .policy)

theorem format_add (program : RulesProgram) (s : Rule) : (program.add port s).format = program.format := by
  rw [add]
  repeat' split
  all_goals rfl

theorem format_foldl (rest : List Rule) (program : RulesProgram) :
    (rest.foldl (fun program s => program.add port s) program).format = program.format := by
  induction rest generalizing program with
  | nil => rfl
  | cons s rest ih => exact (ih _).trans (format_add port program s)

theorem format_compile (r : SwitchRuleset) : (compile r port).format = r.format :=
  format_foldl port r.rules _

variable {program : RulesProgram}

theorem policies_foldl (hformat : 2 ≤ program.format) (rest : List Rule) :
    (rest.foldl (fun program s => program.add port s) program).policies =
      program.policies ++ rest.filter (kept port) := by
  induction rest generalizing program with
  | nil => simp
  | cons s rest ih =>
    rw [foldl_cons, ih (by rw [format_add]; exact hformat), add, filter_cons]
    by_cases hport : routePortMatches s.1.input.port port = true
    · by_cases htype : s.1.type = .forward ∨ s.1.type = .policy
      · simp [kept, hport, hformat, htype]
      · simp [kept, hport, hformat, htype]
    · simp [kept, hport]

theorem policies_compile {r : SwitchRuleset} (hformat : 2 ≤ r.format) :
    (compile r port).policies = r.rules.filter (kept port) :=
  policies_foldl port hformat r.rules

theorem policies_foldl_one (hformat : program.format = 1) (rest : List Rule) :
    (rest.foldl (fun program s => program.add port s) program).policies =
      program.policies ++
        rest.filter fun s => routePortMatches s.1.input.port port ∧ s.1.type = .policy := by
  induction rest generalizing program with
  | nil => simp
  | cons s rest ih =>
    rw [foldl_cons, ih (by rw [format_add]; exact hformat), filter_cons]
    have hadd : (program.add port s).policies = program.policies ++
        if routePortMatches s.1.input.port port ∧ s.1.type = .policy then [s] else [] := by
      rw [add, hformat]
      by_cases hport : routePortMatches s.1.input.port port = true
      · by_cases hpolicy : s.1.type = .policy
        · simp [hport, hpolicy]
        · simp only [hport, hpolicy, if_true, if_false, and_false, append_nil]
          repeat' split
          all_goals first | rfl | omega
      · simp [hport]
    rw [hadd]
    by_cases hcond : routePortMatches s.1.input.port port ∧ s.1.type = .policy
    · simp [hcond]
    · simp [hcond]

/-- The hash table and the fallback answer for the first mapping of a list. -/
def Answers (program : RulesProgram) (done : List Rule) : Prop :=
  ∀ label, (program.exactLabels.lookup label <|> program.fallback) =
    done.find? fun s =>
      s.1.type = .mapping ∧ routePortMatches s.1.input.port port ∧ s.1.input.label.accepts label

variable {port}

theorem Answers.add (hformat : program.format = 1) {done : List Rule}
    (h : program.Answers port done) (s : Rule) :
    (program.add port s).Answers port (done ++ [s]) := by
  intro label
  rw [List.find?_append, ← h label, RulesProgram.add, hformat]
  by_cases hport : routePortMatches s.1.input.port port = true
  swap
  · simp [hport]
  by_cases htype : s.1.type = .mapping
  swap
  · by_cases hpolicy : s.1.type = .policy
    · simp [hport, hpolicy]
    · simp [hport, htype, hpolicy]
  rcases hfallback : program.fallback with _ | f
  swap
  · rcases hlookup : program.exactLabels.lookup label with _ | t
    · simp [hport, htype, hfallback, hlookup]
    · simp [hport, htype, hfallback, hlookup]
  rcases hlabel : s.1.input.label with _ | l
  · rcases hlookup : program.exactLabels.lookup label with _ | t
    · simp [hport, htype, hlabel, hlookup, RuleLabel.accepts]
    · simp [hport, htype, hlabel, hlookup, RuleLabel.accepts]
  -- an exact label: the first statement for it stays in the table
  by_cases hl : label = l
  · subst hl
    rcases hlookup : program.exactLabels.lookup label with _ | t
    · simp [hport, htype, hlabel, hlookup, RuleLabel.accepts]
    · simp [hport, htype, hfallback, hlabel, hlookup, RuleLabel.accepts]
  have hneq : (label == l) = false := beq_false_of_ne hl
  rcases hlookup : program.exactLabels.lookup l with _ | t
  · simp [hport, htype, hlabel, hlookup, RuleLabel.accepts, lookup_cons, hneq, Ne.symm hl]
  · simp [hport, htype, hfallback, hlabel, hlookup, RuleLabel.accepts, Ne.symm hl]

theorem Answers.foldl (hformat : program.format = 1) {done : List Rule}
    (h : program.Answers port done) (rest : List Rule) :
    (rest.foldl (fun program s => program.add port s) program).Answers port (done ++ rest) := by
  induction rest generalizing program done with
  | nil => simpa using h
  | cons s rest ih =>
    have hnext := ih (by rw [format_add]; exact hformat) (h.add hformat s)
    rw [append_assoc] at hnext
    exact hnext

end Compile

/-! ### Formats 2 and 3 -/

variable {input : Labels} {r : SwitchRuleset} {s : Rule}

/-- The scan of `allowed` stops at the selected statement unless an earlier one refuses. -/
theorem allowedFrom_iff {selected : Rule} {candidate : PortName} {output : Labels} {l : List Rule}
    (hsorted : l.Pairwise fun s t => s.2 < t.2) (hmem : selected ∈ l) :
    allowedFrom selected input candidate output l = true ↔
      ∀ t ∈ l, t.2 < selected.2 → ¬(t.1.type = .policy ∧ t.1.input.stackMatch.accepts input ∧
        routePortMatches t.1.output.port candidate ∧ t.1.output.stackMatch.accepts output) := by
  induction l with
  | nil => cases hmem
  | cons s rest ih =>
    obtain ⟨hfirst, hrest⟩ := pairwise_cons.mp hsorted
    rw [allowedFrom]
    by_cases hsame : s.2 = selected.2
    · rw [if_pos hsame]
      refine iff_of_true rfl fun t ht hlt => ?_
      rcases mem_cons.mp ht with rfl | ht
      · omega
      · have := hfirst t ht
        omega
    have hin : selected ∈ rest := by
      rcases mem_cons.mp hmem with rfl | hin
      · exact absurd rfl hsame
      · exact hin
    rw [if_neg hsame, forall_mem_cons]
    have hbefore := hfirst selected hin
    split
    next hrefuse => exact iff_of_false (by simp) fun hall => hall.1 hbefore hrefuse
    next hpass =>
    rw [ih hrest hin]
    exact ⟨fun hall => ⟨fun _ => hpass, hall⟩, And.right⟩

theorem rules_sorted (r : SwitchRuleset) : r.rules.Pairwise fun s t => s.2 < t.2 := by
  have hplaces : (r.rules.map Prod.snd).Pairwise (· < ·) := by
    rw [SwitchRuleset.rules, zipIdx_map_snd]
    exact pairwise_lt_range'
  exact pairwise_map.mp hplaces

theorem mapping_compile (hformat : 2 ≤ r.format) (port : PortName) (input : Labels) :
    (compile r port).mapping input = firstSelected r port input := by
  rw [mapping, format_compile, if_neg (by omega), policies_compile port hformat, List.find?_filter,
    firstSelected]
  congr 1
  funext s
  rcases s with ⟨⟨type, _, _, _, _, _⟩, _⟩
  cases type <;> simp [kept]

theorem mapping_compile_one (hformat : r.format = 1) (port : PortName) {label : UInt64}
    (hlabel : input.head? = some label) :
    (compile r port).mapping input = firstMapping r port label := by
  have hanswers : (compile r port).Answers port r.rules :=
    @Answers.foldl port { format := r.format } hformat [] (fun _ => rfl) r.rules
  rw [mapping, format_compile, if_pos hformat, hlabel]
  exact hanswers label

theorem allowed_compile_one (hformat : r.format = 1) (port : PortName) (selected : Rule)
    {output : Labels} {i o : UInt64} (hi : input.head? = some i) (ho : output.head? = some o)
    (candidate : PortName) :
    (compile r port).allowed selected input candidate output = firstVerdict r port i candidate o := by
  have hpolicies := @policies_foldl_one port { format := r.format } hformat r.rules
  rw [allowed, format_compile, if_pos hformat, hi, ho]
  dsimp only
  rw [compile, hpolicies, firstVerdict, nil_append, List.find?_filter]
  congr 2
  refine congrArg (fun p => r.rules.find? p) ?_
  funext s
  by_cases hpolicy : s.1.type = .policy <;> simp [hpolicy, and_assoc]

theorem allowed_compile (hformat : 2 ≤ r.format) (port : PortName)
    (hs : firstSelected r port input = some s) (candidate : PortName) (output : Labels) :
    (compile r port).allowed s input candidate output = true ↔
      ∀ t ∈ r.rules, t.2 < s.2 → refuses t port input candidate output = false := by
  have hmem : s ∈ (compile r port).policies := by
    rw [← mapping_compile hformat] at hs
    exact (mapping_accepts (by rw [format_compile]; omega) hs).1
  rw [policies_compile port hformat] at hmem
  rw [allowed, format_compile, if_neg (by omega), policies_compile port hformat,
    allowedFrom_iff ((rules_sorted r).filter _) hmem]
  constructor
  · intro hall t ht hlt
    by_contra hrefuses
    obtain ⟨htype, hport, hinput, hcandidate, houtput⟩ :=
      of_decide_eq_true (Bool.not_eq_false _ ▸ hrefuses)
    refine hall t (mem_filter.mpr ⟨ht, ?_⟩) hlt ⟨htype, hinput, hcandidate, houtput⟩
    exact decide_eq_true ⟨hport, .inr htype⟩
  · rintro hall t ht hlt ⟨htype, hinput, hcandidate, houtput⟩
    obtain ⟨ht, hkept⟩ := mem_filter.mp ht
    have hport := (of_decide_eq_true hkept).1
    exact of_decide_eq_false (hall t ht hlt) ⟨htype, hport, hinput, hcandidate, houtput⟩

theorem admits_compile (hformat : 2 ≤ r.format) (port : PortName) (input : Labels)
    (candidate : PortName) (output : Labels) :
    (compile r port).admits input candidate output = true ↔
      ∃ s, firstSelected r port input = some s ∧ s.1.type = .forward ∧
        ∀ t ∈ r.rules, t.2 < s.2 → refuses t port input candidate output = false := by
  rw [admits, mapping_compile hformat]
  rcases hs : firstSelected r port input with _ | s
  · simp
  have hkind := List.find?_some hs
  simp only [decide_eq_true_eq] at hkind
  have hforward : s.1.type ≠ .policy ↔ s.1.type = .forward := by
    rcases hkind.2.2 with htype | ⟨htype, -⟩ <;> simp [htype]
  simp only [decide_eq_true_eq, Option.some.injEq, exists_eq_left', hforward,
    allowed_compile hformat port hs]

/-! ### Later statements -/

def replaced (r : SwitchRuleset) (place : ℕ) (later : List RuleStatement) : SwitchRuleset :=
  { r with statements := r.statements.take (place + 1) ++ later }

theorem mem_replaced {place : ℕ} (hplace : place < r.statements.length)
    (later : List RuleStatement) {t : Rule} (ht : t.2 ≤ place) :
    t ∈ (replaced r place later).rules ↔ t ∈ r.rules := by
  have hmem : ∀ r' : SwitchRuleset, t ∈ r'.rules ↔ r'.statements[t.2]? = some t.1 :=
    fun r' => mk_mem_zipIdx_iff_getElem?
  rw [hmem, hmem, replaced, List.getElem?_append_left (by rw [length_take]; omega),
    List.getElem?_take, if_pos (by omega)]

theorem find?_rules {p : Rule → Bool} :
    r.rules.find? p = some s ↔
      s ∈ r.rules ∧ p s = true ∧ ∀ t ∈ r.rules, t.2 < s.2 → p t = false := by
  have hsorted := rules_sorted r
  constructor
  · intro hfind
    refine ⟨mem_of_find?_eq_some hfind, List.find?_some hfind, fun t ht hlt => ?_⟩
    obtain ⟨-, before, after, hsplit, hbefore⟩ := List.find?_eq_some_iff_append.mp hfind
    rw [hsplit] at hsorted ht
    rcases mem_append.mp ht with ht | ht
    · simpa using hbefore t ht
    rcases mem_cons.mp ht with rfl | ht
    · omega
    · have := rel_of_pairwise_cons (pairwise_append.mp hsorted).2.1 ht
      omega
  · rintro ⟨hmem, hps, hleast⟩
    obtain ⟨before, after, hsplit⟩ := append_of_mem hmem
    rw [hsplit] at hsorted
    refine List.find?_eq_some_iff_append.mpr ⟨hps, before, after, hsplit, fun a ha => ?_⟩
    have hlt := (pairwise_append.mp hsorted).2.2 a ha s mem_cons_self
    simpa using hleast a (by rw [hsplit]; exact mem_append_left _ ha) hlt

theorem place_lt (hs : s ∈ r.rules) : s.2 < r.statements.length :=
  (List.getElem?_eq_some_iff.mp (mk_mem_zipIdx_iff_getElem?.mp (show (s.1, s.2) ∈ _ from hs))).1

theorem find?_replaced {p : Rule → Bool} (hs : r.rules.find? p = some s)
    (later : List RuleStatement) : (replaced r s.2 later).rules.find? p = some s := by
  obtain ⟨hmem, hps, hleast⟩ := find?_rules.mp hs
  have hplace := place_lt hmem
  refine find?_rules.mpr ⟨(mem_replaced hplace later le_rfl).mpr hmem, hps, fun t ht hlt => ?_⟩
  exact hleast t ((mem_replaced hplace later hlt.le).mp ht) hlt

theorem mapping_replaced (hformat : 1 ≤ r.format) (port : PortName)
    (hs : (compile r port).mapping input = some s) (later : List RuleStatement) :
    (compile (replaced r s.2 later) port).mapping input = some s := by
  rcases Nat.lt_or_ge r.format 2 with hlt | hge
  · have hone : r.format = 1 := by omega
    rcases hlabel : input.head? with _ | label
    · rw [mapping, format_compile, if_pos hone, hlabel] at hs
      cases hs
    rw [mapping_compile_one hone port hlabel] at hs
    rw [mapping_compile_one (r := replaced r s.2 later) hone port hlabel]
    exact find?_replaced hs later
  rw [mapping_compile hge] at hs
  rw [mapping_compile (r := replaced r s.2 later) hge]
  exact find?_replaced hs later

theorem admits_replaced (hformat : 2 ≤ r.format) (port : PortName)
    (hs : (compile r port).mapping input = some s) (later : List RuleStatement)
    (candidate : PortName) (output : Labels) :
    (compile (replaced r s.2 later) port).admits input candidate output =
      (compile r port).admits input candidate output := by
  have hnew := mapping_replaced (by omega) port hs later
  have hmem := mem_of_find?_eq_some ((mapping_compile hformat port input).symm.trans hs)
  have hplace := place_lt hmem
  rw [mapping_compile hformat] at hs
  rw [mapping_compile (r := replaced r s.2 later) hformat] at hnew
  refine Bool.eq_iff_iff.mpr ?_
  rw [admits_compile hformat, admits_compile (r := replaced r s.2 later) hformat, hs, hnew]
  simp only [Option.some.injEq, exists_eq_left']
  refine and_congr_right fun _ => forall_congr' fun t => ?_
  constructor
  · exact fun h ht hlt => h ((mem_replaced hplace later hlt.le).mpr ht) hlt
  · exact fun h ht hlt => h ((mem_replaced hplace later hlt.le).mp ht) hlt

/-- A compiled program decides as the ordered rules read: in format 1 by the first mapping
and the first policy of the file, in formats 2 and 3 by the first allow or unrestricted drop
and the drops before it; what stands behind the selected statement does not matter. -/
theorem compiled_reads_in_order (r : SwitchRuleset) (port : PortName) (input : Labels)
    (candidate : PortName) (output : Labels) :
    (r.format = 1 → ∀ i o, input.head? = some i → output.head? = some o →
      (compile r port).mapping input = firstMapping r port i ∧
      ∀ selected, (compile r port).allowed selected input candidate output =
        firstVerdict r port i candidate o) ∧
    (2 ≤ r.format →
      (compile r port).mapping input = firstSelected r port input ∧
      ((compile r port).admits input candidate output = true ↔
        ∃ s, firstSelected r port input = some s ∧ s.1.type = .forward ∧
          ∀ t ∈ r.rules, t.2 < s.2 → refuses t port input candidate output = false)) ∧
    (1 ≤ r.format → ∀ s, (compile r port).mapping input = some s → ∀ later,
      (compile (replaced r s.2 later) port).mapping input = some s ∧
      (2 ≤ r.format → (compile (replaced r s.2 later) port).admits input candidate output =
        (compile r port).admits input candidate output)) := by
  refine ⟨fun hformat i o hi ho => ⟨mapping_compile_one hformat port hi, fun selected => ?_⟩,
    fun hformat => ⟨mapping_compile hformat port input, ?_⟩, fun hformat s hs later => ⟨?_, fun htwo => ?_⟩⟩
  · exact allowed_compile_one hformat port selected hi ho candidate
  · exact admits_compile hformat port input candidate output
  · exact mapping_replaced hformat port hs later
  · exact admits_replaced htwo port hs later candidate output

/-- `switch in to b* drop`, then `switch in allow`, in format 2. -/
def sampleRules : SwitchRuleset :=
  { format := 2
    statements := [
      { type := .policy, input := { port := ascii "in" }, output := { port := ascii "b*" } },
      { type := .forward, input := { port := ascii "in" }, allow := true
        stack := { items := [{ keep := true }], rest := true } }] }

/-- `label in,7 to a, [8]` and `switch allow`, in format 1. -/
def sampleLabels : SwitchRuleset :=
  { format := 1
    statements := [
      { type := .mapping, input := { port := ascii "in", label := some 7 }
        output := { port := ascii "a" }, stack := { items := [{ value := 8 }] } },
      { type := .policy, allow := true }] }

theorem compiled_reads_in_order_sample :
    (compile sampleLabels (ascii "in")).mapping [7] = firstMapping sampleLabels (ascii "in") 7 ∧
    (firstMapping sampleLabels (ascii "in") 7).isSome = true ∧
    (compile sampleRules (ascii "in")).mapping [1] = firstSelected sampleRules (ascii "in") [1] ∧
    (firstSelected sampleRules (ascii "in") [1]).map Prod.snd = some 1 ∧
    (compile (replaced sampleRules 1 []) (ascii "in")).admits [1] (ascii "c") [1] =
      (compile sampleRules (ascii "in")).admits [1] (ascii "c") [1] := by
  have hlabels := compiled_reads_in_order sampleLabels (ascii "in") [7] (ascii "a") [8]
  have hrules := compiled_reads_in_order sampleRules (ascii "in") [1] (ascii "c") [1]
  refine ⟨(hlabels.1 rfl 7 8 rfl rfl).1, by decide, (hrules.2.1 (by decide)).1, by decide, ?_⟩
  exact (hrules.2.2 (by decide) _ (by rfl) []).2 (by decide)

end Tuntom.RulesProgram
