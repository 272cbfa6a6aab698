import Tuntom.DiscoveryTree

/-! The table an origin makes of the answers to a discovery, from which the tree is rendered. -/
namespace Tuntom.ControlRoute
open List

/-- One answer for each trace: the first, or the last of those that were found. -/
def keepAnswer (unique : OrderedMap Bytes Frame) (answer : Frame) : OrderedMap Bytes Frame :=
  if unique.contains answer.command = false ∨ answer.kind = .found then
    unique.insert answer.command answer
  else unique

def threeColumns (data : Bytes) : Bool :=
  data.findIdx? (· = 10) = (if data = [] then none else some (data.length - 1)) ∧ data.count 9 = 2

def tableRow (command : Bytes) (answer : Frame) : Bytes :=
  (if command = [] then ascii "self" else command) ++
    9 :: ascii (if answer.kind = .found then "FOUND" else "ALT_PATH") ++ 9 :: answer.data

def writeRow (result : Bytes) (item : Bytes × Frame) : Except String Bytes :=
  if threeColumns item.2.data = false then .ok result
  else if Control.controlMaxBody < (result ++ tableRow item.1 item.2).length then
    .error "discovery result exceeds limit"
  else .ok (result ++ tableRow item.1 item.2)

/-- `discovery_text`: silence is never shown as an empty subtree. -/
def discoveryText (answers : List Frame) : Except String Bytes := do
  let unique := answers.foldl keepAnswer {}
  let result ← unique.entries.foldlM writeRow (header ++ [10])
  .ok (if unique.entries = [] then result ++ ascii "peer\tNO_RESPONSE\t-\t-\t-\n" else result)

def Row.Answers (r : Row) (answer : Frame) : Prop :=
  answer.command = trace r.hops ∧
  r.state = (if answer.kind = .found then .found else .altPath) ∧
  answer.data = [9].intercalate [r.instanceId, r.component, r.capabilities] ++ [10]

structure Kept (answers : List Frame) (unique : OrderedMap Bytes Frame) : Prop where
  covers : ∀ a ∈ answers, unique.contains a.command = true
  kept : ∀ command f, unique.find? command = some f → f ∈ answers ∧ f.command = command ∧
    (f.kind = .found ∨ ∀ a ∈ answers, a.command = command → a.kind ≠ .found)

theorem Kept.next {answers : List Frame} {unique : OrderedMap Bytes Frame} (h : Kept answers unique)
    (a : Frame) : Kept (answers ++ [a]) (keepAnswer unique a) := by
  rw [keepAnswer]
  split
  next htake =>
    refine ⟨fun b hb => ?_, fun command f hf => ?_⟩
    · rw [OrderedMap.contains, OrderedMap.find?_insert]
      split
      · rfl
      next hne =>
      rcases mem_append.mp hb with hb | hb
      · exact h.covers b hb
      · exact absurd (congrArg Frame.command (mem_singleton.mp hb)) hne
    · rw [OrderedMap.find?_insert] at hf
      split at hf
      next heq =>
        obtain rfl := Option.some.inj hf
        refine ⟨mem_append_right _ (mem_singleton_self _), heq.symm, ?_⟩
        by_cases hfound : a.kind = .found
        · exact .inl hfound
        -- the first answer with this trace
        · right
          have hnew := htake.resolve_right hfound
          intro b hb hcommand
          rcases mem_append.mp hb with hb | hb
          · have hcovered := h.covers b hb
            rw [hcommand, heq, hnew] at hcovered
            cases hcovered
          · rwa [mem_singleton.mp hb]
      next hne =>
      obtain ⟨hmem, hcommand, hkind⟩ := h.kept command f hf
      refine ⟨mem_append_left _ hmem, hcommand, hkind.imp_right fun hnone b hb hb' => ?_⟩
      rcases mem_append.mp hb with hb | hb
      · exact hnone b hb hb'
      · rw [mem_singleton.mp hb] at hb'
        exact absurd hb'.symm hne
  next hkeep =>
  rw [not_or, Bool.not_eq_false] at hkeep
  refine ⟨fun b hb => ?_, fun command f hf => ?_⟩
  · rcases mem_append.mp hb with hb | hb
    · exact h.covers b hb
    · rw [mem_singleton.mp hb]
      exact hkeep.1
  · obtain ⟨hmem, hcommand, hkind⟩ := h.kept command f hf
    refine ⟨mem_append_left _ hmem, hcommand, hkind.imp_right fun hnone b hb hb' => ?_⟩
    rcases mem_append.mp hb with hb | hb
    · exact hnone b hb hb'
    · rw [mem_singleton.mp hb]
      exact hkeep.2

theorem Kept.all {seen answers : List Frame} {unique : OrderedMap Bytes Frame}
    (h : Kept seen unique) : Kept (seen ++ answers) (answers.foldl keepAnswer unique) := by
  induction answers generalizing seen unique with
  | nil => simpa using h
  | cons a answers ih => simpa using ih (h.next a)

theorem Row.Answers.threeColumns {r : Row} {a : Frame} (h : r.Answers a) :
    threeColumns a.data = true := by
  obtain ⟨-, -, hdata⟩ := h
  have hfield := fun text h => @Row.field_plain r text h
  simp only [mem_cons, not_mem_nil, or_false, forall_eq_or_imp, forall_eq] at hfield
  obtain ⟨-, -, hinstance, hcomponent, hcapabilities⟩ := hfield
  have hplain : 10 ∉ [9].intercalate [r.instanceId, r.component, r.capabilities] := by
    simp [intercalate_cons_cons, hinstance, hcomponent, hcapabilities]
  have hfirst : a.data.findIdx? (fun c => decide (c = 10)) = some (a.data.length - 1) := by
    have hnone : List.findIdx? (fun c => decide (c = 10))
        ([9].intercalate [r.instanceId, r.component, r.capabilities]) = none := by
      rw [List.findIdx?_eq_none_iff]
      exact fun c hc => decide_eq_false fun heq => hplain (heq ▸ hc)
    rw [hdata, List.findIdx?_append, hnone]
    generalize [9].intercalate [r.instanceId, r.component, r.capabilities] = columns
    simp
  have hne : a.data ≠ [] := by simp [hdata]
  have hcount : a.data.count 9 = 2 := by
    simp [hdata, intercalate_cons_cons, count_append,
      count_eq_zero.mpr hinstance.1, count_eq_zero.mpr hcomponent.1,
      count_eq_zero.mpr hcapabilities.1]
  rw [ControlRoute.threeColumns, hfirst, if_neg hne]
  exact decide_eq_true ⟨rfl, hcount⟩

theorem Row.Answers.tableRow {r : Row} {a : Frame} (h : r.Answers a) :
    tableRow a.command a = r.line ++ [10] := by
  obtain ⟨hcommand, hstate, hdata⟩ := h
  have hpath : (if a.command = [] then ascii "self" else a.command) = r.path := by
    rw [hcommand, Row.path]
    by_cases hnil : r.hops = []
    · simp [hnil, trace]
    · rw [if_neg (trace_ne_nil hnil), if_neg hnil]
  have htext : ascii (if a.kind = .found then "FOUND" else "ALT_PATH") = r.state.text := by
    rw [hstate]
    by_cases hfound : a.kind = .found
    · rw [if_pos hfound, if_pos hfound]
      rfl
    · rw [if_neg hfound, if_neg hfound]
      rfl
  rw [ControlRoute.tableRow, hpath, htext, hdata, Row.line]
  simp [intercalate_cons_cons]

theorem exists_rows {items : List (Bytes × Frame)}
    (h : ∀ e ∈ items, e.2.command = e.1 ∧ ∃ r : Row, r.Answers e.2) :
    ∃ rows : List Row, rows.map (fun r => trace r.hops) = items.map Prod.fst ∧
      (∀ r ∈ rows, ∃ e ∈ items, r.Answers e.2) ∧
      ∀ {result text : Bytes}, items.foldlM writeRow result = .ok text →
        text = result ++ rows.flatMap fun r => r.line ++ [10] := by
  induction items with
  | nil =>
    refine ⟨[], rfl, by simp, fun htext => ?_⟩
    obtain rfl := Except.ok.inj htext
    simp
  | cons e items ih =>
    obtain ⟨hcommand, r, hr⟩ := h e mem_cons_self
    obtain ⟨rows, htraces, hrows, hwrite⟩ := ih fun e he => h e (mem_cons_of_mem _ he)
    refine ⟨r :: rows, ?_, fun s hs => ?_, fun {result text} htext => ?_⟩
    · rw [map_cons, map_cons, htraces, ← hr.1, hcommand]
    · rcases mem_cons.mp hs with rfl | hs
      · exact ⟨e, mem_cons_self, hr⟩
      · obtain ⟨f, hf, hsf⟩ := hrows s hs
        exact ⟨f, mem_cons_of_mem _ hf, hsf⟩
    rw [foldlM_cons, writeRow, hr.threeColumns, if_neg (by simp), ← hcommand,
      hr.tableRow] at htext
    split at htext
    · cases htext
    · have hrest := hwrite htext
      rw [hrest, flatMap_cons, append_assoc]

def silent : Row where
  hops := [Hop.peer]
  state := .noResponse
  instanceId := ascii "-"
  component := ascii "-"
  capabilities := ascii "-"
  named := by decide +kernel
  depth := by decide +kernel
  component_ne := by decide +kernel
  component_graphic := by decide +kernel
  instance_plain := by decide +kernel
  capabilities_plain := by decide +kernel

theorem snapshot_silent :
    snapshot [silent] = header ++ [10] ++ ascii "peer\tNO_RESPONSE\t-\t-\t-\n" := by
  decide +kernel

/-- The table of some answers has one row for each trace they came with, which is found if one of
the answers with that trace was. -/
theorem discoveryText_rows {answers : List Frame} (h : ∀ a ∈ answers, ∃ r : Row, r.Answers a)
    {text : Bytes} (htext : discoveryText answers = .ok text) :
    ∃ rows : List Row, text = snapshot rows ∧
      (answers = [] → rows = [silent]) ∧
      (answers ≠ [] → (rows.map fun r => trace r.hops).Nodup ∧
        (∀ r ∈ rows, ∃ a ∈ answers, r.Answers a ∧
          (r.state = .altPath → ∀ b ∈ answers, b.command = a.command → b.kind ≠ .found)) ∧
        ∀ a ∈ answers, ∃ r ∈ rows, a.command = trace r.hops) := by
  have hstart : Kept [] {} := ⟨by simp, fun command f hf => by cases hf⟩
  have hkept : Kept answers (answers.foldl keepAnswer {}) := hstart.all
  rw [discoveryText] at htext
  generalize answers.foldl keepAnswer {} = unique at hkept htext
  have hitem : ∀ e ∈ unique.entries, e.2 ∈ answers ∧ e.2.command = e.1 ∧
      (e.2.kind = .found ∨ ∀ a ∈ answers, a.command = e.1 → a.kind ≠ .found) :=
    fun e he => hkept.kept e.1 e.2 (OrderedMap.find?_eq_some_iff.mpr he)
  obtain ⟨rows, htraces, hrows, hwrite⟩ := @exists_rows unique.entries fun e he =>
    ⟨(hitem e he).2.1, h e.2 (hitem e he).1⟩
  cases hfold : unique.entries.foldlM writeRow (header ++ [10]) with
  | error message =>
    rw [hfold] at htext
    cases htext
  | ok result =>
    have hresult := hwrite hfold
    rw [hfold] at htext
    have htext := Except.ok.inj htext
    by_cases hempty : unique.entries = []
    · have hnone : answers = [] := by
        by_contra hne
        obtain ⟨a, ha⟩ := exists_mem_of_ne_nil _ hne
        have hcovered := hkept.covers a ha
        rw [OrderedMap.contains, OrderedMap.find?, hempty] at hcovered
        cases hcovered
      rw [hempty, map_nil, map_eq_nil_iff] at htraces
      subst htraces
      refine ⟨[silent], ?_, fun _ => rfl, fun hne => absurd hnone hne⟩
      rw [snapshot_silent, ← htext, if_pos hempty, hresult]
      simp
    refine ⟨rows, ?_, fun hnil => ?_, fun _ => ⟨?_, ?_, ?_⟩⟩
    · rw [← htext, if_neg hempty, hresult, snapshot]
      simp
    · obtain ⟨e, he⟩ := exists_mem_of_ne_nil _ hempty
      rw [hnil] at hitem
      exact absurd (hitem e he).1 not_mem_nil
    · rw [htraces]
      exact unique.nodup
    · intro r hr
      obtain ⟨e, he, hre⟩ := hrows r hr
      obtain ⟨hmem, hcommand, hkind⟩ := hitem e he
      refine ⟨e.2, hmem, hre, fun halt => ?_⟩
      have hother : e.2.kind ≠ .found := by
        intro hfound
        rw [hre.2.1, if_pos hfound] at halt
        cases halt
      rw [hcommand]
      exact hkind.resolve_left hother
    · intro a ha
      obtain ⟨f, hf⟩ := Option.isSome_iff_exists.mp (hkept.covers a ha)
      have hkey : a.command ∈ unique.entries.map Prod.fst :=
        mem_map.mpr ⟨_, OrderedMap.find?_eq_some_iff.mp hf, rfl⟩
      rw [← htraces] at hkey
      obtain ⟨r, hr, htrace⟩ := mem_map.mp hkey
      exact ⟨r, hr, htrace.symm⟩

theorem discoveryText_found {answers : List Frame} {text : Bytes}
    (h : ∀ a ∈ answers, ∃ r : Row, r.Answers a) (htext : discoveryText answers = .ok text) :
    ∃ rows : List Row, text = snapshot rows ∧ ∀ r ∈ rows, r.state = .found ↔
      ∃ a ∈ answers, a.command = trace r.hops ∧ a.kind = .found := by
  obtain ⟨rows, rfl, hnone, hsome⟩ := discoveryText_rows h htext
  refine ⟨rows, rfl, fun r hr => ?_⟩
  by_cases hnil : answers = []
  · rw [hnone hnil, mem_singleton] at hr
    simp [hr, hnil, silent]
  obtain ⟨a, ha, hra, halt⟩ := (hsome hnil).2.1 r hr
  constructor
  · intro hfound
    refine ⟨a, ha, hra.1, ?_⟩
    by_contra hother
    rw [hra.2.1, if_neg hother] at hfound
    cases hfound
  · rintro ⟨b, hb, hcommand, hfound⟩
    by_contra hother
    have hstate : r.state = .altPath := by
      rw [hra.2.1]
      refine if_neg fun hkind => hother ?_
      rw [hra.2.1, if_pos hkind]
    exact halt hstate b hb (hcommand.trans hra.1.symm) hfound

/-- The traces of discovery name the hops that were taken, and the tree has one line for each
reported node, which shows the state of the rows about it. -/
theorem discovery_traces_exact :
    (∀ (f : Frame) (e : Edge),
      (Router.branch f e).command = extendTrace f.command (Router.hopOf e)) ∧
    (∀ hops : Path, hops ≠ [] → (∀ hop ∈ hops, hop.Named) → hops.length ≤ maxHops →
      readTrace (trace hops) = .ok hops) ∧
    (∀ a b : Path, (∀ hop ∈ a, hop.Named) → (∀ hop ∈ b, hop.Named) → a.length ≤ maxHops →
      b.length ≤ maxHops → trace a = trace b → a = b) ∧
    (∀ (answers : List Frame) (text : Bytes), (∀ a ∈ answers, ∃ r : Row, r.Answers a) →
      discoveryText answers = .ok text → ∃ rows : List Row, text = snapshot rows ∧
        ∀ r ∈ rows, r.state = .found ↔
          ∃ a ∈ answers, a.command = trace r.hops ∧ a.kind = .found) ∧
    ∀ (base : Path) (rows : List Row), (∀ hop ∈ base, hop.Named) → rows.length ≤ 1024 →
      ∃ t : Tree, readSnapshot (snapshot rows) base = .ok t ∧
        (t.text.length ≤ Control.controlMaxBody →
          discoveryTree (snapshot rows) base = .ok t.text) ∧
        t.value.state = stateOf base rows [] ∧
        ∃ paths : List Path, paths.Nodup ∧
          (∀ hops, hops ∈ paths ↔
            hops ≠ [] ∧ (hops <+: base ∨ ∃ r ∈ rows, hops <+: base ++ r.target)) ∧
          List.Forall₂ (fun line hops => ∃ (front : Bytes) (note : Note),
            front.length = 4 * hops.length ∧ line = front ++ note.text ∧
            note.label = labelOf hops ∧ note.state = stateOf base rows hops)
            (render [] t.below) paths := by
  refine ⟨Router.command_branch, fun hops => readTrace_trace, fun a b => trace_injective,
    fun answers text => discoveryText_found, ?_⟩
  intro base rows hbase hrows
  have hshows : (rows.foldl (Tree.add base) (Tree.start base)).Shows base rows :=
    (Tree.shows_base hbase).addAll hbase
  have hlinks : base.any (fun hop => decide (hop.type = .link)) = false := by
    rw [List.any_eq_false]
    exact fun hop hmem hlink => (hbase hop hmem).2 (of_decide_eq_true hlink)
  have hread : readSnapshot (snapshot rows) base =
      .ok (rows.foldl (Tree.add base) (Tree.start base)) := by
    rw [readSnapshot, hlinks, lines_snapshot]
    exact readRows_lines base (by omega) _
  refine ⟨_, hread, fun hfits => ?_, ?_, ?_⟩
  · rw [discoveryTree, hread]
    exact if_neg fun hlong => absurd hfits (Nat.not_le.mpr hlong.2)
  · have hroot := (hshows.find [] (by simp) _).mp rfl
    rw [hroot.2, state_noteOf]
  · obtain ⟨paths, hnodup, hmem, hentries⟩ := hshows.paths hbase
    refine ⟨paths, hnodup, hmem, ?_⟩
    have hlines := forall₂_render [] (rows.foldl (Tree.add base) (Tree.start base)).below
    rw [hentries, List.forall₂_map_right_iff] at hlines
    refine hlines.imp fun line hops => ?_
    rintro ⟨front, hlen, rfl⟩
    refine ⟨front, noteOf base rows hops, by simpa using hlen, rfl, ?_, ?_⟩
    · exact label_noteOf base rows hops
    · exact state_noteOf base rows hops

end Tuntom.ControlRoute
