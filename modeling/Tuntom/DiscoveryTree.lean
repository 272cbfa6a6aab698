import Tuntom.ControlRouter
import Tuntom.ControlProtocol
import Tuntom.InfoCodec
import Tuntom.RulesLiteral
import Tuntom.KeyedForest

/-! The traces of discovery answers, and the tree that is rendered from a snapshot of them. -/
namespace Tuntom.ControlRoute
open List

/-! ### Traces -/

def hopText (hop : Hop) : Bytes :=
  if hop.type = .peer then ascii "peer" else ascii "port:" ++ escape hop.value

def extendTrace (command : Bytes) (hop : Hop) : Bytes :=
  command ++ (if command = [] then [] else ascii "/") ++ hopText hop

def trace (hops : Path) : Bytes := hops.foldl extendTrace []

theorem Router.command_branch (f : Frame) (e : Edge) :
    (Router.branch f e).command = extendTrace f.command (Router.hopOf e) := by
  rw [Router.branch, extendTrace, hopText, Router.hopOf]
  cases e.peer <;> rfl

/-! ### Rows -/

inductive RowState where
  | found
  | altPath
  | noResponse
  deriving DecidableEq, Repr

def RowState.text : RowState → Bytes
  | found => ascii "FOUND"
  | altPath => ascii "ALT_PATH"
  | noResponse => ascii "NO_RESPONSE"

def RowState.ofText? (text : Bytes) : Option RowState :=
  if text = ascii "FOUND" then some .found
  else if text = ascii "ALT_PATH" then some .altPath
  else if text = ascii "NO_RESPONSE" then some .noResponse
  else none

def graphic (c : UInt8) : Bool := 0x21 ≤ c ∧ c ≤ 0x7e

/-- The loop of `unescape`. -/
def unescapeFrom : Bytes → Except String Bytes
  | [] => .ok []
  | 0x25 :: high :: low :: rest =>
    match hexDigit? high, hexDigit? low with
    | some a, some b =>
      if graphic (UInt8.ofNat (a * 16 + b)) then (UInt8.ofNat (a * 16 + b) :: ·) <$> unescapeFrom rest
      else .error "invalid discovery port name"
    | _, _ => .error "invalid discovery escape"
  | c :: rest =>
    if c = 0x25 then .error "invalid discovery escape"
    else if graphic c then (c :: ·) <$> unescapeFrom rest
    else .error "invalid discovery port name"

def unescape (text : Bytes) : Except String Bytes := do
  let name ← unescapeFrom text
  if name = [] ∨ 63 < name.length then .error "invalid discovery port name" else .ok name

def readHop (hop : Bytes) : Except String Hop :=
  if hop = ascii "peer" then .ok Hop.peer
  else if hop.take 5 = ascii "port:" then Hop.port <$> unescape (hop.drop 5)
  else .error "invalid discovery hop"

/-- The hops after `depth` others. -/
def readHops : ℕ → List Bytes → Except String Path
  | _, [] => .ok []
  | depth, hop :: rest =>
    if maxHops < depth + 1 then .error "discovery path too deep"
    else do
      let hop ← readHop hop
      let hops ← readHops (depth + 1) rest
      .ok (hop :: hops)

/-- The hops of a trace. It neither is empty nor ends in a slash, so `getline` leaves out no
piece. -/
def readTrace (path : Bytes) : Except String Path :=
  if path = [] ∨ path.getLast? = some 0x2f then .error "invalid discovery path"
  else readHops 0 (path.splitOn 0x2f)

def readRow (line : Bytes) : Except String (Path × RowState × Bytes) :=
  match line.splitOn 9 with
  | [path, state, _, component, _] =>
    match RowState.ofText? state with
    | none => .error "invalid discovery state"
    | some state =>
      if component = [] ∨ component.all graphic = false then .error "invalid discovery component"
      -- silence describes the requested target, not a hop behind it
      else if state = .noResponse ∨ path = ascii "self" then .ok ([], state, component)
      else do
        let hops ← readTrace path
        .ok (hops, state, component)
  | _ => .error "invalid discovery row"

/-! ### The tree -/

structure Note where
  label : Bytes := []
  state : Option RowState := none
  component : Bytes := []
  deriving DecidableEq, Repr

abbrev Tree := KeyedTree Bytes Note

def hopKey (hop : Hop) : Bytes :=
  if hop.type = .peer then ascii "peer" else ascii "port:" ++ hop.value

def Note.named (hop : Hop) (n : Note) : Note :=
  { n with label := if hop.type = .peer then ascii "peer" else hop.value }

/-- A row speaks for its node if it is the first one or an answer that was found. -/
def Note.marked (state : RowState) (component : Bytes) (n : Note) : Note :=
  if n.state = none ∨ state = .found then { n with state := some state, component } else n

/-- `descend` hop by hop, then an update of the node it ends at. -/
def Tree.visit (hops : Path) (update : Note → Note) (t : Tree) : Tree :=
  KeyedTree.visit {} hopKey Note.named hops update t

def Tree.start (base : Path) : Tree := Tree.visit base id { value := { label := ascii "switch" } }

/-- The loop over the rows, `rows` of which are read. -/
def readRows (base : Path) : ℕ → List Bytes → Tree → Except String Tree
  | _, [], t => .ok t
  | rows, line :: rest, t =>
    if 1024 < rows + 1 then .error "too many discovery rows"
    else do
      let (hops, state, component) ← readRow line
      readRows base (rows + 1) rest (t.visit (base ++ hops) (Note.marked state component))

def header : Bytes := ascii "path\tstate\tinstance\tcomponent\tcapabilities"

def readSnapshot (snapshot : Bytes) (base : Path) : Except String Tree :=
  if base.any (fun hop => hop.type = .link) then .error "unsupported discovery tree hop"
  else
    match Info.lines snapshot with
    | [] => .error "invalid discovery header"
    | line :: rows =>
      if line ≠ header then .error "invalid discovery header"
      else readRows base 0 rows (Tree.start base)

/-! ### Rendering -/

def Note.text (n : Note) : Bytes :=
  n.label ++
  (if n.component ≠ [] ∧ n.component ≠ ascii "-" ∧ n.component ≠ n.label then
    ascii " [" ++ n.component ++ ascii "]" else []) ++
  (if n.state = some .altPath then ascii " [ALT_PATH]"
    else if n.state = some .noResponse then ascii " [NO_RESPONSE]" else [])

/-- The lines of the nodes below one that is shown after `indent`. -/
def render (indent : Bytes) : KeyedForest Bytes Note → List Bytes
  | .nil => []
  | .cons _ note below rest =>
    let last := rest = .nil
    (indent ++ ascii (if last then "`-- " else "|-- ") ++ note.text) ::
      (render (indent ++ ascii (if last then "    " else "|   ")) below ++ render indent rest)

def Tree.lines (t : Tree) : List Bytes :=
  t.value.text :: (render [] t.below ++
    if t.below = .nil ∧ t.value.state ≠ some .noResponse then [ascii "`-- (no discovered ports)"]
    else [])

def Tree.text (t : Tree) : Bytes := t.lines.flatMap fun line => line ++ [10]

/-- `discovery_tree`. The size is checked after each line of a child; it only grows. -/
def discoveryTree (snapshot : Bytes) (base : Path) : Except String Bytes := do
  let t ← readSnapshot snapshot base
  if t.below ≠ .nil ∧ Control.controlMaxBody < t.text.length then
    .error "discovery tree exceeds response limit"
  else .ok t.text

/-! ### Escaping -/

def Hop.Named (hop : Hop) : Prop := hop.valid = true ∧ hop.type ≠ .link

instance (hop : Hop) : Decidable hop.Named := inferInstanceAs (Decidable (_ ∧ _))

theorem Hop.Named.cases {hop : Hop} (h : hop.Named) :
    hop = Hop.peer ∨ ∃ name : Bytes, hop = Hop.port name ∧ name ≠ [] ∧ name.length ≤ 63 ∧
      ∀ c ∈ name, graphic c = true := by
  obtain ⟨type, value⟩ := hop
  obtain ⟨hvalid, hlink⟩ := h
  cases type with
  | peer => exact .inl (congrArg (Hop.mk .peer) (isEmpty_iff.mp hvalid))
  | link => exact absurd rfl hlink
  | port =>
    obtain ⟨hne, hlen, hall⟩ := of_decide_eq_true hvalid
    exact .inr ⟨value, rfl, hne, hlen, all_eq_true.mp hall⟩

theorem mem_escape {name : Bytes} (h : ∀ c ∈ name, graphic c = true) {c : UInt8}
    (hc : c ∈ escape name) : graphic c = true ∧ c ≠ 0x2f := by
  obtain ⟨b, hb, hmem⟩ := mem_flatMap.mp hc
  split at hmem
  next hspecial =>
    have hall : ∀ b ∈ [(0x25 : UInt8), 0x2f, 9],
        ∀ c ∈ 0x25 :: hexDigits "0123456789ABCDEF" b, graphic c = true ∧ c ≠ 0x2f := by
      decide +kernel
    exact hall b (by simpa using hspecial) c hmem
  next hplain =>
  rw [mem_singleton] at hmem
  subst hmem
  exact ⟨h c hb, fun heq => hplain (.inr (.inl heq))⟩

theorem unescapeFrom_escape {name : Bytes} (h : ∀ c ∈ name, graphic c = true) :
    unescapeFrom (escape name) = .ok name := by
  induction name with
  | nil => rfl
  | cons c name ih =>
    have hrest := ih fun b hb => h b (mem_cons_of_mem _ hb)
    by_cases hpercent : c = 0x25
    · subst hpercent
      change unescapeFrom (0x25 :: 0x32 :: 0x35 :: escape name) = _
      rw [unescapeFrom, hrest]
      rfl
    by_cases hslash : c = 0x2f
    · subst hslash
      change unescapeFrom (0x25 :: 0x32 :: 0x46 :: escape name) = _
      rw [unescapeFrom, hrest]
      rfl
    have hgraphic := h c mem_cons_self
    have htab : c ≠ 9 := by
      rintro rfl
      cases hgraphic
    have hplain : escape (c :: name) = c :: escape name := by
      simp [escape, hpercent, hslash, htab]
    rw [hplain, unescapeFrom, if_neg hpercent, if_pos hgraphic, hrest]
    · rfl
    · intro high low rest heq
      exact absurd heq hpercent

theorem port_ne_peer (name : Bytes) : ascii "port:" ++ name ≠ ascii "peer" := by
  intro heq
  have hsecond := congrArg (·[1]?) heq
  simp [ascii] at hsecond

theorem drop_port (name : Bytes) : (ascii "port:" ++ name).drop 5 = name := drop_left' rfl

theorem readHop_hopText {hop : Hop} (h : hop.Named) : readHop (hopText hop) = .ok hop := by
  obtain rfl | ⟨name, rfl, hne, hlen, hall⟩ := h.cases
  · rfl
  have htext : hopText (Hop.port name) = ascii "port:" ++ escape name := rfl
  have htake : (ascii "port:" ++ escape name).take 5 = ascii "port:" :=
    take_left' rfl
  have hbounds : ¬(name = [] ∨ 63 < name.length) := by
    rintro (hnil | hlong)
    · exact hne hnil
    · omega
  rw [htext, readHop, if_neg (port_ne_peer _), if_pos htake, drop_port, unescape,
    unescapeFrom_escape hall]
  change Hop.port <$> (if name = [] ∨ 63 < name.length then Except.error _ else .ok name) = _
  rw [if_neg hbounds]
  rfl

theorem mem_hopText {hop : Hop} (h : hop.Named) {c : UInt8} (hc : c ∈ hopText hop) :
    graphic c = true ∧ c ≠ 0x2f := by
  obtain rfl | ⟨name, rfl, -, -, hall⟩ := h.cases
  · have hpeer : ∀ c ∈ ascii "peer", graphic c = true ∧ c ≠ 0x2f := by decide +kernel
    exact hpeer c hc
  have hport : ∀ c ∈ ascii "port:", graphic c = true ∧ c ≠ 0x2f := by decide +kernel
  rcases mem_append.mp hc with hc | hc
  · exact hport c hc
  · exact mem_escape hall hc

theorem hopText_ne_nil (hop : Hop) : hopText hop ≠ [] := by
  rw [hopText]
  split
  · decide
  · simp [ascii]

/-! ### Splitting -/

theorem intercalate_concat (sep last : Bytes) {pieces : List Bytes} (h : pieces ≠ []) :
    sep.intercalate (pieces ++ [last]) = sep.intercalate pieces ++ sep ++ last := by
  induction pieces with
  | nil => exact absurd rfl h
  | cons piece pieces ih =>
    cases pieces with
    | nil => simp
    | cons next pieces =>
      rw [cons_append, intercalate_cons_of_ne_nil (by simp), ih (cons_ne_nil _ _),
        intercalate_cons_cons]
      simp only [append_assoc]

variable {hops base : Path} {t : Tree}

theorem trace_ne_nil (h : hops ≠ []) : trace hops ≠ [] := by
  obtain ⟨front, last, rfl⟩ := eq_nil_or_concat hops |>.resolve_left h
  rw [trace, concat_eq_append, foldl_append, foldl_cons, foldl_nil, extendTrace]
  simp [hopText_ne_nil]

theorem trace_eq_intercalate (hops : Path) :
    trace hops = (ascii "/").intercalate (hops.map hopText) := by
  induction hops using List.reverseRecOn with
  | nil => rfl
  | append_singleton hops hop ih =>
    rw [trace, foldl_append, foldl_cons, foldl_nil, ← trace, extendTrace]
    by_cases hnil : hops = []
    · subst hnil
      simp [trace]
    · rw [if_neg (trace_ne_nil hnil), ih, map_append, map_singleton,
        intercalate_concat _ _ (by simpa using hnil)]

theorem mem_trace (h : ∀ hop ∈ hops, hop.Named) {c : UInt8} (hc : c ∈ trace hops) :
    graphic c = true := by
  induction hops using List.reverseRecOn with
  | nil => cases hc
  | append_singleton hops hop ih =>
    rw [trace, foldl_append, foldl_cons, foldl_nil, ← trace, extendTrace,
      mem_append, mem_append] at hc
    rcases hc with (hc | hc) | hc
    · exact ih (fun hop hmem => h hop (mem_append_left _ hmem)) hc
    · split at hc
      · cases hc
      · rw [mem_singleton.mp hc]
        rfl
    · exact (mem_hopText (h hop (by simp)) hc).1

theorem getLast?_trace (h : ∀ hop ∈ hops, hop.Named) : (trace hops).getLast? ≠ some 0x2f := by
  induction hops using List.reverseRecOn with
  | nil => simp [trace]
  | append_singleton hops hop _ =>
    rw [trace, foldl_append, foldl_cons, foldl_nil, ← trace, extendTrace,
      List.getLast?_append_of_ne_nil _ (hopText_ne_nil hop)]
    intro hlast
    exact (mem_hopText (h hop (by simp)) (mem_of_getLast? hlast)).2 rfl

theorem readHops_hopText (h : ∀ hop ∈ hops, hop.Named) {depth : ℕ}
    (hdepth : depth + hops.length ≤ maxHops) : readHops depth (hops.map hopText) = .ok hops := by
  induction hops generalizing depth with
  | nil => rfl
  | cons hop hops ih =>
    rw [length_cons] at hdepth
    have hrest := @ih (fun hop hmem => h hop (mem_cons_of_mem _ hmem)) (depth + 1) (by omega)
    rw [map_cons, readHops, if_neg (by omega), readHop_hopText (h hop mem_cons_self), hrest]
    rfl

theorem splitOn_trace (hne : hops ≠ []) (h : ∀ hop ∈ hops, hop.Named) :
    (trace hops).splitOn 0x2f = hops.map hopText := by
  rw [trace_eq_intercalate]
  refine splitOn_intercalate 0x2f ?_ (by simpa using hne)
  intro text htext hmem
  obtain ⟨hop, hhop, rfl⟩ := mem_map.mp htext
  exact (mem_hopText (h hop hhop) hmem).2 rfl

theorem readTrace_trace (hne : hops ≠ []) (h : ∀ hop ∈ hops, hop.Named)
    (hdepth : hops.length ≤ maxHops) : readTrace (trace hops) = .ok hops := by
  have hpath : ¬(trace hops = [] ∨ (trace hops).getLast? = some 0x2f) := by
    rintro (hnil | hlast)
    · exact trace_ne_nil hne hnil
    · exact getLast?_trace h hlast
  rw [readTrace, if_neg hpath, splitOn_trace hne h, readHops_hopText h (by omega)]

theorem trace_injective {a b : Path} (ha : ∀ hop ∈ a, hop.Named) (hb : ∀ hop ∈ b, hop.Named)
    (hdeep : a.length ≤ maxHops) (hdepth : b.length ≤ maxHops) (h : trace a = trace b) : a = b := by
  by_cases hanil : a = []
  · by_contra hne
    have hbnil : b ≠ [] := fun hnil => hne (hanil.trans hnil.symm)
    refine trace_ne_nil hbnil ?_
    rw [← h, hanil]
    rfl
  have hbnil : b ≠ [] := by
    rintro rfl
    exact trace_ne_nil hanil h
  have hread := readTrace_trace hanil ha hdeep
  rw [h, readTrace_trace hbnil hb hdepth] at hread
  exact (Except.ok.inj hread).symm

/-! ### Snapshots -/

structure Row where
  hops : Path
  state : RowState
  instanceId : Bytes
  component : Bytes
  capabilities : Bytes
  named : ∀ hop ∈ hops, hop.Named
  depth : hops.length ≤ maxHops
  component_ne : component ≠ []
  component_graphic : ∀ c ∈ component, graphic c = true
  instance_plain : 9 ∉ instanceId ∧ 10 ∉ instanceId
  capabilities_plain : 9 ∉ capabilities ∧ 10 ∉ capabilities

namespace Row

def path (r : Row) : Bytes := if r.hops = [] then ascii "self" else trace r.hops

def line (r : Row) : Bytes :=
  [9].intercalate [r.path, r.state.text, r.instanceId, r.component, r.capabilities]

def target (r : Row) : Path := if r.state = .noResponse then [] else r.hops

theorem mem_path {r : Row} {c : UInt8} (h : c ∈ r.path) : graphic c = true := by
  rw [path] at h
  split at h
  · have hself : ∀ c ∈ ascii "self", graphic c = true := by decide +kernel
    exact hself c h
  · exact mem_trace r.named h

theorem mem_stateText {state : RowState} {c : UInt8} (h : c ∈ state.text) : graphic c = true := by
  have hall : ∀ state : RowState, ∀ c ∈ state.text, graphic c = true := by
    intro state
    cases state <;> decide +kernel
  exact hall state c h

theorem field_plain (r : Row) {text : Bytes}
    (h : text ∈ [r.path, r.state.text, r.instanceId, r.component, r.capabilities]) :
    9 ∉ text ∧ 10 ∉ text := by
  have hgraphic : ∀ text : Bytes, (∀ c ∈ text, graphic c = true) → 9 ∉ text ∧ 10 ∉ text := by
    intro text hall
    refine ⟨fun hmem => ?_, fun hmem => ?_⟩ <;> cases hall _ hmem
  simp only [mem_cons, not_mem_nil, or_false] at h
  rcases h with rfl | rfl | rfl | rfl | rfl
  · exact hgraphic _ fun c => mem_path
  · exact hgraphic _ fun c => mem_stateText
  · exact r.instance_plain
  · exact hgraphic _ r.component_graphic
  · exact r.capabilities_plain

theorem splitOn_line (r : Row) :
    r.line.splitOn 9 = [r.path, r.state.text, r.instanceId, r.component, r.capabilities] :=
  splitOn_intercalate 9 (fun _ h => (r.field_plain h).1) (cons_ne_nil _ _)

theorem line_plain (r : Row) : 10 ∉ r.line := by
  have hfield := fun text h => (@field_plain r text h).2
  simp only [mem_cons, not_mem_nil, or_false, forall_eq_or_imp, forall_eq] at hfield
  simp only [line, intercalate_cons_cons, intercalate_singleton, mem_append,
    mem_singleton, not_or]
  simp [hfield]

theorem path_eq_self_iff (r : Row) : r.path = ascii "self" ↔ r.hops = [] := by
  constructor
  · intro h
    by_contra hne
    rw [path, if_neg hne] at h
    have hread := readTrace_trace hne r.named r.depth
    rw [h] at hread
    cases hread
  · exact fun h => if_pos h

theorem readRow_line (r : Row) : readRow r.line = .ok (r.target, r.state, r.component) := by
  have hstate : RowState.ofText? r.state.text = some r.state := by
    cases r.state <;> decide +kernel
  have hcomponent : ¬(r.component = [] ∨ r.component.all graphic = false) := by
    rintro (hnil | hbad)
    · exact r.component_ne hnil
    · rw [all_eq_true.mpr r.component_graphic] at hbad
      cases hbad
  rw [readRow, r.splitOn_line]
  simp only [hstate, if_neg hcomponent, path_eq_self_iff, target]
  by_cases hsilent : r.state = .noResponse
  · simp [hsilent]
  by_cases hnil : r.hops = []
  · simp [hsilent, hnil]
  rw [if_neg (by simp [hsilent, hnil]), if_neg hsilent, path, if_neg hnil,
    readTrace_trace hnil r.named r.depth]
  rfl

end Row

def snapshot (rows : List Row) : Bytes := header ++ 10 :: rows.flatMap fun r => r.line ++ [10]

theorem lines_rows (rows : List Row) :
    Info.lines (rows.flatMap fun r => r.line ++ [10]) = rows.map Row.line := by
  induction rows with
  | nil => rfl
  | cons r rows ih =>
    rw [flatMap_cons, append_assoc, singleton_append,
      Info.lines_append r.line_plain, ih, map_cons]

theorem lines_snapshot (rows : List Row) :
    Info.lines (snapshot rows) = header :: rows.map Row.line := by
  have hplain : 10 ∉ header := by decide +kernel
  rw [snapshot, Info.lines_append hplain, lines_rows]

def Tree.add (base : Path) (t : Tree) (r : Row) : Tree :=
  t.visit (base ++ r.target) (Note.marked r.state r.component)

variable {rows : List Row}

theorem readRows_lines (base : Path) {n : ℕ} (h : n + rows.length ≤ 1024) (t : Tree) :
    readRows base n (rows.map Row.line) t = .ok (rows.foldl (Tree.add base) t) := by
  induction rows generalizing n t with
  | nil => rfl
  | cons r rows ih =>
    rw [length_cons] at h
    rw [map_cons, readRows, if_neg (by omega), r.readRow_line]
    exact ih (by omega) _

/-! ### The nodes of a tree -/

def ofKey (key : Bytes) : Hop :=
  if key = ascii "peer" then Hop.peer else Hop.port (key.drop 5)

theorem ofKey_hopKey {hop : Hop} (h : hop.Named) : ofKey (hopKey hop) = hop := by
  obtain rfl | ⟨name, rfl, -⟩ := h.cases
  · rfl
  · have hkey : hopKey (Hop.port name) = ascii "port:" ++ name := rfl
    rw [hkey, ofKey, if_neg (port_ne_peer name), drop_port]

theorem map_ofKey (h : ∀ hop ∈ hops, hop.Named) : (hops.map hopKey).map ofKey = hops := by
  rw [map_map]
  exact (map_congr_left fun hop hmem => ofKey_hopKey (h hop hmem)).trans (map_id _)

theorem map_hopKey_injective {a b : Path} (ha : ∀ hop ∈ a, hop.Named) (hb : ∀ hop ∈ b, hop.Named)
    (h : a.map hopKey = b.map hopKey) : a = b := by
  rw [← map_ofKey ha, h, map_ofKey hb]

theorem map_hopKey_prefix_iff {a b : Path} (ha : ∀ hop ∈ a, hop.Named)
    (hb : ∀ hop ∈ b, hop.Named) : a.map hopKey <+: b.map hopKey ↔ a <+: b := by
  constructor
  · intro h
    have hmap := h.map ofKey
    rwa [map_ofKey ha, map_ofKey hb] at hmap
  · exact fun h => h.map hopKey

def labelOf (hops : Path) : Bytes :=
  match hops.getLast? with
  | none => ascii "switch"
  | some hop => if hop.type = .peer then ascii "peer" else hop.value

def rowsAt (base : Path) (rows : List Row) (hops : Path) : List Row :=
  rows.filter fun r => base ++ r.target = hops

def noteOf (base : Path) (rows : List Row) (hops : Path) : Note :=
  (rowsAt base rows hops).foldl (fun n r => n.marked r.state r.component) { label := labelOf hops }

def Reported (base : Path) (rows : List Row) (hops : Path) : Prop :=
  hops <+: base ∨ ∃ r ∈ rows, hops <+: base ++ r.target

structure Tree.Shows (base : Path) (rows : List Row) (t : Tree) : Prop where
  distinct : t.below.Distinct
  named : ∀ keys note, t.find? keys = some note →
    ∃ hops : Path, (∀ hop ∈ hops, hop.Named) ∧ keys = hops.map hopKey
  find : ∀ hops : Path, (∀ hop ∈ hops, hop.Named) → ∀ note,
    t.find? (hops.map hopKey) = some note ↔ Reported base rows hops ∧ note = noteOf base rows hops

theorem label_marked (state : RowState) (component : Bytes) (n : Note) :
    (n.marked state component).label = n.label := by
  rw [Note.marked]
  split <;> rfl

theorem label_noteOf (base : Path) (rows : List Row) (hops : Path) :
    (noteOf base rows hops).label = labelOf hops := by
  have hfold : ∀ (rows : List Row) (n : Note),
      (rows.foldl (fun n r => n.marked r.state r.component) n).label = n.label := by
    intro rows
    induction rows with
    | nil => exact fun n => rfl
    | cons r rows ih =>
      intro n
      rw [foldl_cons, ih, label_marked]
  exact hfold _ _

theorem noteOf_concat (base : Path) (rows : List Row) (r : Row) (hops : Path) :
    noteOf base (rows ++ [r]) hops =
      if base ++ r.target = hops then (noteOf base rows hops).marked r.state r.component
      else noteOf base rows hops := by
  rw [noteOf, noteOf, rowsAt, rowsAt, filter_append]
  by_cases h : base ++ r.target = hops
  · simp [h]
  · simp [h]

theorem told_named (hne : hops ≠ []) (n : Note) :
    KeyedTree.told Note.named hops n = { n with label := labelOf hops } := by
  obtain ⟨front, last, rfl⟩ := eq_nil_or_concat hops |>.resolve_left hne
  simp [KeyedTree.told, labelOf, Note.named]

theorem Tree.find?_visit {steps : Path} (hsteps : ∀ hop ∈ steps, hop.Named)
    (hhops : ∀ hop ∈ hops, hop.Named) (update : Note → Note) (t : Tree) :
    (t.visit steps update).find? (hops.map hopKey) =
      if hops <+: steps then
        some ((if hops = steps then update else id)
          (KeyedTree.told Note.named hops ((t.find? (hops.map hopKey)).getD {})))
      else t.find? (hops.map hopKey) := by
  rw [Tree.visit, KeyedTree.find?_visit]
  simp only [map_hopKey_prefix_iff hhops hsteps, length_map]
  by_cases hpre : hops <+: steps
  · have heq : hops.map hopKey = steps.map hopKey ↔ hops = steps :=
      ⟨map_hopKey_injective hhops hsteps, fun h => h ▸ rfl⟩
    rw [if_pos hpre, if_pos hpre, ← prefix_iff_eq_take.mp hpre]
    simp only [heq]
  · rw [if_neg hpre, if_neg hpre]

theorem Tree.named_visit {steps : Path} (hsteps : ∀ hop ∈ steps, hop.Named) {update : Note → Note}
    (h : ∀ keys note, t.find? keys = some note →
      ∃ hops : Path, (∀ hop ∈ hops, hop.Named) ∧ keys = hops.map hopKey) (keys : List Bytes)
    (note : Note) (hfind : (t.visit steps update).find? keys = some note) :
    ∃ hops : Path, (∀ hop ∈ hops, hop.Named) ∧ keys = hops.map hopKey := by
  rw [Tree.visit, KeyedTree.find?_visit] at hfind
  split at hfind
  next hpre =>
    refine ⟨steps.take keys.length, fun hop hmem => hsteps hop (mem_of_mem_take hmem), ?_⟩
    rw [map_take]
    exact prefix_iff_eq_take.mp hpre
  next => exact h keys note hfind

theorem Tree.Shows.told (h : t.Shows base rows) (hhops : ∀ hop ∈ hops, hop.Named) :
    KeyedTree.told Note.named hops ((t.find? (hops.map hopKey)).getD {}) =
      noteOf base rows hops := by
  by_cases hrep : Reported base rows hops
  · rw [(h.find hops hhops _).mpr ⟨hrep, rfl⟩, Option.getD_some]
    by_cases hnil : hops = []
    · subst hnil
      rfl
    · rw [told_named hnil, ← label_noteOf base rows hops]
  have hnone : t.find? (hops.map hopKey) = none := by
    rw [Option.eq_none_iff_forall_ne_some]
    exact fun note hsome => hrep ((h.find hops hhops note).mp hsome).1
  have hnil : hops ≠ [] := by
    rintro rfl
    exact hrep (.inl (List.nil_prefix))
  have hrows : rowsAt base rows hops = [] := by
    refine filter_eq_nil_iff.mpr fun r hr hat => hrep (.inr ⟨r, hr, ?_⟩)
    rw [of_decide_eq_true hat]
  rw [hnone, told_named hnil, noteOf, hrows]
  rfl

theorem Row.named_target (hbase : ∀ hop ∈ base, hop.Named) (r : Row) :
    ∀ hop ∈ base ++ r.target, hop.Named := by
  intro hop hmem
  rcases mem_append.mp hmem with hmem | hmem
  · exact hbase hop hmem
  rw [target] at hmem
  split at hmem
  · cases hmem
  · exact r.named hop hmem

theorem Tree.Shows.add (hbase : ∀ hop ∈ base, hop.Named) (h : t.Shows base rows) (r : Row) :
    (Tree.add base t r).Shows base (rows ++ [r]) where
  distinct := KeyedTree.visit_distinct _ _ _ h.distinct
  named := Tree.named_visit (r.named_target hbase) h.named
  find hops hhops note := by
    have hrep : Reported base (rows ++ [r]) hops ↔
        Reported base rows hops ∨ hops <+: base ++ r.target := by
      simp only [Reported, mem_append, mem_singleton, or_and_right, exists_or,
        exists_eq_left, or_assoc]
    rw [Tree.add, Tree.find?_visit (r.named_target hbase) hhops, h.told hhops, hrep, noteOf_concat]
    by_cases hpre : hops <+: base ++ r.target
    · rw [if_pos hpre]
      by_cases heq : hops = base ++ r.target
      · simp [heq, eq_comm]
      · simp [hpre, heq, Ne.symm heq, eq_comm]
    have hne : base ++ r.target ≠ hops := fun heq => hpre (heq ▸ prefix_refl _)
    rw [if_neg hpre, if_neg hne, h.find hops hhops]
    simp [hpre]

theorem Tree.shows_base (hbase : ∀ hop ∈ base, hop.Named) : (Tree.start base).Shows base [] where
  distinct := KeyedTree.visit_distinct _ _ _ trivial
  named := by
    refine Tree.named_visit hbase fun keys note hfind => ⟨[], by simp, ?_⟩
    cases keys with
    | nil => rfl
    | cons key keys => cases hfind
  find hops hhops note := by
    have hrep : Reported base [] hops ↔ hops <+: base := by simp [Reported]
    have hnote : noteOf base [] hops = { label := labelOf hops } := rfl
    rw [Tree.start, Tree.find?_visit hbase hhops, hrep, hnote]
    by_cases hnil : hops = []
    · subst hnil
      simp [KeyedTree.find?, KeyedTree.told, labelOf, eq_comm]
    have hfind : KeyedTree.find? (hops.map hopKey)
        ({ value := { label := ascii "switch" } } : Tree) = none := by
      cases hops with
      | nil => exact absurd rfl hnil
      | cons hop hops => rfl
    rw [hfind, told_named hnil]
    by_cases hpre : hops <+: base
    · simp [hpre, eq_comm]
    · simp [hpre]

theorem Tree.Shows.addAll (hbase : ∀ hop ∈ base, hop.Named) {seen : List Row}
    (h : t.Shows base seen) : (rows.foldl (Tree.add base) t).Shows base (seen ++ rows) := by
  induction rows generalizing t seen with
  | nil => simpa using h
  | cons r rows ih => simpa using ih (h.add hbase r)

/-! ### What is rendered -/

/-- The state the rows of one node give it: found if one of them is, or else the first. -/
def stateOf (base : Path) (rows : List Row) (hops : Path) : Option RowState :=
  if ∃ r ∈ rowsAt base rows hops, r.state = .found then some .found
  else (rowsAt base rows hops).head?.map Row.state

theorem state_noteOf (base : Path) (rows : List Row) (hops : Path) :
    (noteOf base rows hops).state = stateOf base rows hops := by
  have hfold : ∀ (rows : List Row) (n : Note),
      (rows.foldl (fun n r => n.marked r.state r.component) n).state =
        if ∃ r ∈ rows, r.state = .found then some .found
        else n.state <|> rows.head?.map Row.state := by
    intro rows
    induction rows with
    | nil => simp
    | cons r rows ih =>
      intro n
      rw [foldl_cons, ih, Note.marked]
      by_cases hr : r.state = .found
      · simp [hr]
      · cases hn : n.state <;> simp [hr, hn]
  exact hfold _ _

theorem forall₂_render (indent : Bytes) (f : KeyedForest Bytes Note) :
    List.Forall₂ (fun line e => ∃ front : Bytes, front.length = indent.length + 4 * e.1.length ∧
      line = front ++ e.2.text) (render indent f) f.entries := by
  induction f generalizing indent with
  | nil => exact .nil
  | cons key note below rest ihb ihr =>
    have hwidth : ∀ last : Prop, ∀ _ : Decidable last,
        (ascii (if last then "`-- " else "|-- ")).length = 4 ∧
        (ascii (if last then "    " else "|   ")).length = 4 := by
      intro last _
      split <;> exact ⟨rfl, rfl⟩
    rw [render, KeyedForest.entries]
    refine rel_append (.cons ⟨_, ?_, rfl⟩ ?_) (ihr indent)
    · refine forall₂_map_right_iff.mpr ((ihb _).imp fun line e => ?_)
      rintro ⟨front, hlen, rfl⟩
      refine ⟨front, ?_, rfl⟩
      rw [hlen, length_append, (hwidth _ _).2, length_cons]
      omega
    · rw [length_append, (hwidth _ _).1]
      rfl

theorem Tree.Shows.paths (h : t.Shows base rows) (hbase : ∀ hop ∈ base, hop.Named) :
    ∃ paths : List Path, paths.Nodup ∧
      (∀ hops, hops ∈ paths ↔ hops ≠ [] ∧ Reported base rows hops) ∧
      t.below.entries = paths.map fun hops => (hops.map hopKey, noteOf base rows hops) := by
  have hentry : ∀ e ∈ t.below.entries, ∃ hops : Path, (∀ hop ∈ hops, hop.Named) ∧
      e.1 = hops.map hopKey ∧ hops ≠ [] ∧ Reported base rows hops ∧ e.2 = noteOf base rows hops := by
    intro e he
    obtain ⟨hne, hfind⟩ := (KeyedTree.mem_entries_iff h.distinct t.value).mp he
    obtain ⟨hops, hhops, hkeys⟩ := h.named e.1 e.2 hfind
    rw [hkeys] at hfind
    obtain ⟨hrep, hnote⟩ := (h.find hops hhops e.2).mp hfind
    refine ⟨hops, hhops, hkeys, ?_, hrep, hnote⟩
    rintro rfl
    exact hne hkeys
  have hback : ∀ e ∈ t.below.entries, (e.1.map ofKey).map hopKey = e.1 := by
    intro e he
    obtain ⟨hops, hhops, hkeys, -⟩ := hentry e he
    rw [hkeys, map_ofKey hhops]
  refine ⟨t.below.entries.map fun e => e.1.map ofKey, ?_, fun hops => ?_, ?_⟩
  · refine List.Nodup.of_map (List.map hopKey) ?_
    rw [map_map]
    have heq : t.below.entries.map (List.map hopKey ∘ fun e => e.1.map ofKey) =
        t.below.entries.map Prod.fst := map_congr_left hback
    rw [heq]
    exact h.distinct.nodup_entries
  · rw [mem_map]
    constructor
    · rintro ⟨e, he, rfl⟩
      obtain ⟨hops, hhops, hkeys, hne, hrep, -⟩ := hentry e he
      rw [hkeys, map_ofKey hhops]
      exact ⟨hne, hrep⟩
    · rintro ⟨hne, hrep⟩
      have hhops : ∀ hop ∈ hops, hop.Named := by
        intro hop hmem
        rcases hrep with hpre | ⟨r, -, hpre⟩
        · exact hbase hop (hpre.subset hmem)
        · exact r.named_target hbase hop (hpre.subset hmem)
      have hfind := (h.find hops hhops _).mpr ⟨hrep, rfl⟩
      refine ⟨(hops.map hopKey, noteOf base rows hops), ?_, map_ofKey hhops⟩
      exact (KeyedTree.mem_entries_iff h.distinct t.value).mpr ⟨by simpa using hne, hfind⟩
  · rw [map_map]
    refine (map_id _).symm.trans (map_congr_left fun e he => ?_)
    obtain ⟨hops, hhops, hkeys, -, -, hnote⟩ := hentry e he
    rw [Function.comp_apply, hback e he, hkeys, map_ofKey hhops, ← hnote, ← hkeys]
    rfl

end Tuntom.ControlRoute
