import Tuntom.HashTable
import Tuntom.SwitchRuleset
import Tuntom.LabelFrame

/-! The legacy routes of a switch: `add_switch_route`, and which of them a port gets. -/
namespace Tuntom
open List

structure SwitchRouteTarget where
  port : PortName
  label : UInt64 := 0
  deriving DecidableEq, Repr

abbrev SwitchPortRoutes := HashTable UInt64 SwitchRouteTarget
abbrev SwitchRoutes := HashTable PortName SwitchPortRoutes

/-! ### Reading a route -/

def splitFirst (byte : UInt8) (text : Bytes) : Option (Bytes × Bytes) :=
  if byte ∈ text then some (text.takeWhile (· ≠ byte), (text.dropWhile (· ≠ byte)).tail) else none

def splitLast (byte : UInt8) (text : Bytes) : Option (Bytes × Bytes) :=
  (splitFirst byte text.reverse).map fun parts => (parts.2.reverse, parts.1.reverse)

def validatePortWildcard (port : PortName) : Except Bytes Unit :=
  if port = ascii "*" then .error (ascii "port wildcard '*' requires a non-empty prefix")
  else if (42 : UInt8) ∈ port.dropLast then
    .error (ascii "port wildcard must be a single trailing '*'")
  else .ok ()

/-- The checks of `encode_switch_registration`. -/
def validatePortId (port : PortName) : Except Bytes Unit :=
  if port = [] ∨ Ipc.switchMaxPortIdSize < port.length then .error (ascii "Invalid switch port ID length")
  else if ¬port.all Ipc.validIdByte then
    .error (ascii "Switch port ID must be printable ASCII without spaces")
  else .ok ()

def digitValue (byte : UInt8) : ℕ :=
  if 48 ≤ byte ∧ byte ≤ 57 then byte.toNat - 48
  else if 97 ≤ byte ∧ byte ≤ 122 then byte.toNat - 87
  else if 65 ≤ byte ∧ byte ≤ 90 then byte.toNat - 55
  else 36

/-- `std::stoull(text, &used, 0)`: the value and how many bytes it takes. -/
def stoull (text : Bytes) : Except Bytes (UInt64 × ℕ) :=
  let blanks := text.takeWhile fun byte => byte = 32 ∨ (9 ≤ byte ∧ byte ≤ 13)
  let signed := text.drop blanks.length
  let sign := (signed.take 1).filter fun byte => byte = 43 ∨ byte = 45
  let number := signed.drop sign.length
  let hexadecimal := number.head? == some 48 && (number[1]? == some 120 || number[1]? == some 88) &&
    number[2]?.any fun byte => digitValue byte < 16
  let base : ℕ := if hexadecimal then 16 else if number.head? = some 48 then 8 else 10
  let skipped : ℕ := if hexadecimal then 2 else 0
  let digits := (number.drop skipped).takeWhile fun byte => digitValue byte < base
  let value := digits.foldl (fun value byte => value * base + digitValue byte) 0
  if digits = [] ∨ 2 ^ 64 ≤ value then .error (ascii "stoull")
  else
    .ok (if sign = [45] then 0 - UInt64.ofNat value else UInt64.ofNat value,
      blanks.length + sign.length + skipped + digits.length)

def switchRouteEndpoint (text : Bytes) : Except Bytes (PortName × UInt64) := do
  match splitLast 58 text with
  | none => .error (ascii "Invalid route endpoint: " ++ text)
  | some (port, label) =>
    if port = [] ∨ label = [] then .error (ascii "Invalid route endpoint: " ++ text)
    else
      validatePortId port
      validatePortWildcard port
      if label.head? = some 45 ∨ label.any (fun byte => byte = 32 ∨ byte = 9 ∨ byte = 13 ∨ byte = 10) then
        .error (ascii "Invalid label: " ++ label)
      else
        let (value, used) ← stoull label
        if used ≠ label.length then .error (ascii "Invalid label: " ++ label) else .ok (port, value)

def readRoute (text : Bytes) : Except Bytes ((PortName × UInt64) × SwitchRouteTarget) :=
  match splitFirst 61 text with
  | none => .error (ascii "Invalid route: " ++ text)
  | some (left, right) => do
    let input ← switchRouteEndpoint left
    let output ← switchRouteEndpoint right
    return (input, { port := output.1, label := output.2 })

def addSwitchRoute (routes : SwitchRoutes) (text : Bytes) : Except Bytes SwitchRoutes := do
  let (input, target) ← readRoute text
  let inner := (routes.find? input.1).getD {}
  if (inner.find? input.2).isSome then .error (ascii "Duplicate route: " ++ text)
  else .ok (routes.update input.1 (inner.emplace input.2 target))

def buildRoutes (texts : List Bytes) : Except Bytes SwitchRoutes := texts.foldlM addSwitchRoute {}

/-! ### The routes of a port -/

def matchingPatterns (routes : SwitchRoutes) (port : PortName) : List (PortName × SwitchPortRoutes) :=
  routes.entries.filter fun e => wildcardPort e.1 && routePortMatches e.1 port

def sortedPatterns (routes : SwitchRoutes) (port : PortName) : List (PortName × SwitchPortRoutes) :=
  (matchingPatterns routes port).mergeSort fun a b => b.1.length ≤ a.1.length

def routesForPort (routes : SwitchRoutes) (port : PortName) : SwitchPortRoutes :=
  (sortedPatterns routes port).foldl (fun resolved entry => resolved.emplaceAll entry.2.entries)
    (if wildcardPort port then {} else (routes.find? port).getD {})

/-! ### What a table holds -/

def routeAt (routes : SwitchRoutes) (pattern : PortName) (label : UInt64) : Option SwitchRouteTarget :=
  (routes.find? pattern).bind fun inner => inner.find? label

def Apart (a b : Bytes) : Prop :=
  ∀ r r', readRoute a = .ok r → readRoute b = .ok r' → r.1 ≠ r'.1

structure Addable (routes : SwitchRoutes) (texts : List Bytes) : Prop where
  fresh : ∀ text ∈ texts, ∃ r, readRoute text = .ok r ∧ routeAt routes r.1.1 r.1.2 = none
  apart : texts.Pairwise Apart

variable {routes : SwitchRoutes} {port : PortName} {label : UInt64}

theorem addSwitchRoute_eq_ok {next : SwitchRoutes} {text : Bytes} :
    addSwitchRoute routes text = .ok next ↔ ∃ r, readRoute text = .ok r ∧
      routeAt routes r.1.1 r.1.2 = none ∧
      next = routes.update r.1.1 (((routes.find? r.1.1).getD {}).emplace r.1.2 r.2) := by
  rw [addSwitchRoute]
  rcases readRoute text with e | ⟨⟨pattern, label⟩, target⟩
  · constructor
    · intro h
      cases h
    · rintro ⟨r, h, -⟩
      cases h
  have hinner : (((routes.find? pattern).getD {}).find? label).isSome = true ↔
      routeAt routes pattern label ≠ none := by
    rw [routeAt]
    cases routes.find? pattern <;> simp [Option.isSome_iff_ne_none]
  dsimp only [bind, Except.bind]
  by_cases hfound : (((routes.find? pattern).getD {}).find? label).isSome = true
  · rw [if_pos hfound]
    constructor
    · intro h
      cases h
    · rintro ⟨r, h, hnone, -⟩
      cases h
      exact absurd hnone (hinner.mp hfound)
  rw [if_neg hfound]
  constructor
  · intro h
    cases h
    exact ⟨_, rfl, not_not.mp fun hne => hfound (hinner.mpr hne), rfl⟩
  · rintro ⟨r, h, -, rfl⟩
    cases h
    rfl

theorem routeAt_add {r : (PortName × UInt64) × SwitchRouteTarget}
    (hfresh : routeAt routes r.1.1 r.1.2 = none) (pattern : PortName) (label : UInt64) :
    routeAt (routes.update r.1.1 (((routes.find? r.1.1).getD {}).emplace r.1.2 r.2)) pattern label =
      if (pattern, label) = r.1 then some r.2 else routeAt routes pattern label := by
  obtain ⟨⟨p, l⟩, target⟩ := r
  rw [routeAt, HashTable.find?_update]
  by_cases hp : pattern = p
  · subst hp
    rw [routeAt] at hfresh ⊢
    rw [if_pos rfl, Option.bind_some, HashTable.find?_emplace]
    dsimp only at hfresh
    by_cases hl : label = l
    · subst hl
      rcases hinner : routes.find? pattern with _ | inner
      · simp
      · rw [hinner, Option.bind_some] at hfresh
        simp [hfresh]
    · rcases hinner : routes.find? pattern with _ | inner <;> simp [hl]
  · rw [if_neg hp]
    simp [hp, routeAt]

theorem addable_of_ok {texts : List Bytes} {result : SwitchRoutes}
    (h : texts.foldlM addSwitchRoute routes = .ok result) : Addable routes texts := by
  induction texts generalizing routes with
  | nil => exact ⟨fun _ h => (not_mem_nil h).elim, .nil⟩
  | cons text texts ih =>
    rw [foldlM_cons] at h
    rcases hnext : addSwitchRoute routes text with e | next
    · rw [hnext] at h
      cases h
    rw [hnext] at h
    obtain ⟨r, hread, hfresh, rfl⟩ := addSwitchRoute_eq_ok.mp hnext
    have hrest := ih h
    refine ⟨forall_mem_cons.mpr ⟨⟨r, hread, hfresh⟩, fun other hother => ?_⟩,
      pairwise_cons.mpr ⟨fun other hother q q' hq hq' => ?_, hrest.apart⟩⟩
    · obtain ⟨r', hread', hfresh'⟩ := hrest.fresh other hother
      rw [routeAt_add hfresh] at hfresh'
      split at hfresh'
      · cases hfresh'
      · exact ⟨r', hread', hfresh'⟩
    · obtain ⟨r', hread', hfresh'⟩ := hrest.fresh other hother
      rw [hread] at hq
      rw [hread'] at hq'
      cases hq
      cases hq'
      rw [routeAt_add hfresh] at hfresh'
      split at hfresh'
      · cases hfresh'
      next hne => exact fun heq => hne heq.symm

theorem Addable.build {texts : List Bytes} (h : Addable routes texts) :
    ∃ result, texts.foldlM addSwitchRoute routes = .ok result ∧
      ∀ pattern label target, routeAt result pattern label = some target ↔
        routeAt routes pattern label = some target ∨
          ∃ text ∈ texts, readRoute text = .ok ((pattern, label), target) := by
  induction texts generalizing routes with
  | nil => exact ⟨routes, rfl, by simp⟩
  | cons text texts ih =>
    obtain ⟨⟨r, hread, hfresh⟩, hothers⟩ := forall_mem_cons.mp h.fresh
    obtain ⟨hapart, hrest⟩ := pairwise_cons.mp h.apart
    have hadd := addSwitchRoute_eq_ok.mpr ⟨r, hread, hfresh, rfl⟩
    have hnext : Addable (routes.update r.1.1 (((routes.find? r.1.1).getD {}).emplace r.1.2 r.2))
        texts := by
      refine ⟨fun other hother => ?_, hrest⟩
      obtain ⟨r', hread', hfresh'⟩ := hothers other hother
      refine ⟨r', hread', ?_⟩
      rw [routeAt_add hfresh, if_neg (Ne.symm (hapart other hother r r' hread hread'))]
      exact hfresh'
    obtain ⟨result, hbuild, hcontent⟩ := ih hnext
    refine ⟨result, by rw [foldlM_cons, hadd]; exact hbuild, fun pattern label target => ?_⟩
    rw [hcontent, routeAt_add hfresh, exists_mem_cons_iff, hread, ← or_assoc]
    refine or_congr_left ?_
    by_cases hsame : (pattern, label) = r.1
    · have hnone : routeAt routes pattern label = none := by
        rw [← hsame] at hfresh
        exact hfresh
      simp [hsame, hnone, Prod.ext_iff]
    · have hne : r ≠ ((pattern, label), target) := fun heq => hsame (by rw [heq])
      simp [hsame, hne]

theorem readRoute_pattern {text : Bytes} {r : (PortName × UInt64) × SwitchRouteTarget}
    (h : readRoute text = .ok r) : r.1.1 ≠ ascii "*" ∧ (42 : UInt8) ∉ r.1.1.dropLast := by
  rw [readRoute] at h
  split at h
  next => cases h
  next left right _ =>
  rcases hinput : switchRouteEndpoint left with e | input
  · rw [hinput] at h
    cases h
  rw [hinput] at h
  rcases houtput : switchRouteEndpoint right with e | output
  · simp only [houtput] at h
    cases h
  simp only [houtput] at h
  cases h
  dsimp only
  rw [switchRouteEndpoint] at hinput
  split at hinput
  next => cases hinput
  next port label _ =>
  split at hinput
  next => cases hinput
  next =>
  rcases hid : validatePortId port with e | ⟨⟩
  · rw [hid] at hinput
    cases hinput
  rw [hid] at hinput
  rcases hwild : validatePortWildcard port with e | ⟨⟩
  · simp only [hwild] at hinput
    cases hinput
  simp only [hwild] at hinput
  have hport : input.1 = port := by
    dsimp only [bind, Except.bind] at hinput
    split at hinput
    next => cases hinput
    next =>
    rcases hnumber : stoull label with e | ⟨value, used⟩
    · rw [hnumber] at hinput
      cases hinput
    rw [hnumber] at hinput
    dsimp only at hinput
    split at hinput
    next => cases hinput
    next =>
    cases hinput
    rfl
  rw [hport]
  rw [validatePortWildcard] at hwild
  split at hwild
  next => cases hwild
  next hstar =>
  split at hwild
  next => cases hwild
  next hmem => exact ⟨hstar, hmem⟩

/-! ### Precedence -/

theorem eq_of_wildcard {pattern : PortName} (h : wildcardPort pattern = true) :
    pattern = pattern.dropLast ++ [42] := by
  have hsome : pattern.getLast? = some 42 := by simpa [wildcardPort] using h
  exact (dropLast_append_getLast? 42 hsome).symm

theorem pattern_unique {p q : PortName} (hp : wildcardPort p = true) (hq : wildcardPort q = true)
    (hmp : routePortMatches p port = true) (hmq : routePortMatches q port = true)
    (hlen : p.length = q.length) : p = q := by
  rw [routePortMatches, if_pos hp] at hmp
  rw [routePortMatches, if_pos hq] at hmq
  rw [eq_of_wildcard hp, eq_of_wildcard hq, ← eq_of_beq hmp, ← eq_of_beq hmq, hlen]

theorem find?_merged (patterns : List (PortName × SwitchPortRoutes)) (resolved : SwitchPortRoutes)
    (label : UInt64) :
    (patterns.foldl (fun resolved entry => resolved.emplaceAll entry.2.entries) resolved).find? label =
      (resolved.find? label <|> patterns.findSome? fun e => e.2.find? label) := by
  induction patterns generalizing resolved with
  | nil => simp
  | cons e patterns ih =>
    rw [foldl_cons, ih, HashTable.find?_emplaceAll, List.findSome?_cons]
    have hentries : e.2.entries.lookup label = e.2.find? label := rfl
    rw [hentries]
    cases resolved.find? label <;> cases e.2.find? label <;> rfl

structure Longest (routes : SwitchRoutes) (port : PortName) (label : UInt64) (pattern : PortName) :
    Prop where
  wildcard : wildcardPort pattern = true
  fits : routePortMatches pattern port = true
  entry : (routeAt routes pattern label).isSome = true
  longest : ∀ other, wildcardPort other = true → routePortMatches other port = true →
    (routeAt routes other label).isSome = true → other.length ≤ pattern.length

theorem findSome?_longest {l : List (PortName × SwitchPortRoutes)}
    (hsorted : l.Pairwise fun a b => b.1.length ≤ a.1.length) {target : SwitchRouteTarget}
    (h : (l.findSome? fun e => e.2.find? label) = some target) :
    ∃ e ∈ l, e.2.find? label = some target ∧
      ∀ e' ∈ l, (e'.2.find? label).isSome = true → e'.1.length ≤ e.1.length := by
  induction l with
  | nil => simp at h
  | cons e l ih =>
    obtain ⟨hfirst, hrest⟩ := pairwise_cons.mp hsorted
    rw [List.findSome?_cons] at h
    rcases he : e.2.find? label with _ | t
    · rw [he] at h
      obtain ⟨e', hmem, hfound, hmax⟩ := ih hrest h
      refine ⟨e', mem_cons_of_mem _ hmem, hfound, forall_mem_cons.mpr ⟨fun hsome => ?_, hmax⟩⟩
      rw [he] at hsome
      cases hsome
    rw [he] at h
    cases h
    exact ⟨e, mem_cons_self, he, forall_mem_cons.mpr ⟨fun _ => le_rfl, fun e' he' _ => hfirst e' he'⟩⟩

theorem mem_matchingPatterns {e : PortName × SwitchPortRoutes} :
    e ∈ matchingPatterns routes port ↔
      routes.find? e.1 = some e.2 ∧ wildcardPort e.1 = true ∧ routePortMatches e.1 port = true := by
  rw [matchingPatterns, mem_filter, Bool.and_eq_true, HashTable.find?_eq_some_iff]

theorem findSome?_patterns (routes : SwitchRoutes) (port : PortName) (label : UInt64) :
    (∃ pattern, Longest routes port label pattern ∧
      ((sortedPatterns routes port).findSome? fun e => e.2.find? label) = routeAt routes pattern label) ∨
    ((∀ pattern, wildcardPort pattern = true → routePortMatches pattern port = true →
        routeAt routes pattern label = none) ∧
      ((sortedPatterns routes port).findSome? fun e => e.2.find? label) = none) := by
  have hmem : ∀ {e}, e ∈ sortedPatterns routes port ↔ e ∈ matchingPatterns routes port :=
    mem_mergeSort
  have hentry : ∀ {pattern}, (routeAt routes pattern label).isSome = true → ∃ inner,
      routes.find? pattern = some inner ∧ (inner.find? label).isSome = true := by
    intro pattern h
    rw [routeAt] at h
    rcases hinner : routes.find? pattern with _ | inner
    · rw [hinner] at h
      cases h
    · rw [hinner] at h
      exact ⟨inner, rfl, h⟩
  rcases hfind : (sortedPatterns routes port).findSome? fun e => e.2.find? label with _ | target
  · refine .inr ⟨fun pattern hwild hfits => ?_, hfind⟩
    by_contra hsome
    obtain ⟨inner, hinner, hlabel⟩ := hentry (Option.isSome_iff_ne_none.mpr hsome)
    have hnone := List.findSome?_eq_none_iff.mp hfind (pattern, inner)
      (hmem.mpr (mem_matchingPatterns.mpr ⟨hinner, hwild, hfits⟩))
    dsimp only at hnone
    rw [hnone] at hlabel
    cases hlabel
  have hsorted : (sortedPatterns routes port).Pairwise fun a b => b.1.length ≤ a.1.length := by
    have hpairwise := @pairwise_mergeSort (PortName × SwitchPortRoutes)
      (fun a b => decide (b.1.length ≤ a.1.length))
      (fun a b c hab hbc => by simp only [decide_eq_true_eq] at *; omega)
      (fun a b => by simp only [Bool.or_eq_true, decide_eq_true_eq]; omega)
      (matchingPatterns routes port)
    simpa [sortedPatterns] using hpairwise
  obtain ⟨e, he, hfound, hmax⟩ := findSome?_longest hsorted hfind
  obtain ⟨hinner, hwild, hfits⟩ := mem_matchingPatterns.mp (hmem.mp he)
  have hroute : routeAt routes e.1 label = some target := by
    rw [routeAt, hinner]
    exact hfound
  refine .inl ⟨e.1, ⟨hwild, hfits, by rw [hroute]; rfl, fun other hw hf hsome => ?_⟩,
    hfind.trans hroute.symm⟩
  obtain ⟨inner, hinner', hlabel⟩ := hentry hsome
  exact hmax (other, inner) (hmem.mpr (mem_matchingPatterns.mpr ⟨hinner', hw, hf⟩)) hlabel

theorem Longest.unique {p q : PortName} (hp : Longest routes port label p)
    (hq : Longest routes port label q) : p = q :=
  pattern_unique hp.wildcard hq.wildcard hp.fits hq.fits
    (Nat.le_antisymm (hq.longest p hp.wildcard hp.fits hp.entry) (hp.longest q hq.wildcard hq.fits hq.entry))

theorem length_le_of_starred {pattern : PortName} (hstar : wildcardPort port = true)
    (hvalid : (42 : UInt8) ∉ pattern.dropLast) (hwild : wildcardPort pattern = true)
    (hfits : routePortMatches pattern port = true) : pattern.length ≤ port.length := by
  rw [routePortMatches, if_pos hwild] at hfits
  have htake := eq_of_beq hfits
  by_contra hlong
  have hwhole : port.take (pattern.length - 1) = port := take_of_length_le (by omega)
  rw [hwhole] at htake
  have hmem : (42 : UInt8) ∈ port := mem_of_getLast? (by simpa [wildcardPort] using hstar)
  rw [htake] at hmem
  exact hvalid hmem

theorem find?_routesForPort (hvalid : ∀ pattern, (routeAt routes pattern label).isSome = true →
      (42 : UInt8) ∉ pattern.dropLast) :
    (∀ target, routeAt routes port label = some target →
      (routesForPort routes port).find? label = some target) ∧
    (routeAt routes port label = none → ∀ pattern, Longest routes port label pattern →
      (routesForPort routes port).find? label = routeAt routes pattern label) ∧
    (routeAt routes port label = none →
      (∀ pattern, wildcardPort pattern = true → routePortMatches pattern port = true →
        routeAt routes pattern label = none) → (routesForPort routes port).find? label = none) := by
  have hlookup : (routesForPort routes port).find? label =
      ((if wildcardPort port then none else routeAt routes port label) <|>
        (sortedPatterns routes port).findSome? fun e => e.2.find? label) := by
    rw [routesForPort, find?_merged]
    congr 1
    split
    · rfl
    · rw [routeAt]
      cases routes.find? port <;> rfl
  rw [hlookup]
  refine ⟨fun target htarget => ?_, fun hnone pattern hlongest => ?_, fun hnone hall => ?_⟩
  · by_cases hstar : wildcardPort port = true
    · -- the port is named like a pattern, which is then the longest one
      have hfits : routePortMatches port port = true := by
        simp [routePortMatches, hstar, dropLast_eq_take]
      have hself : Longest routes port label port :=
        ⟨hstar, hfits, by rw [htarget]; rfl, fun other hw hf hsome =>
          length_le_of_starred hstar (hvalid other hsome) hw hf⟩
      rw [if_pos hstar]
      rcases findSome?_patterns routes port label with ⟨p, hp, hfind⟩ | ⟨hall, -⟩
      · rw [hfind, hp.unique hself, htarget]
        rfl
      · rw [hall port hstar hfits] at htarget
        cases htarget
    · rw [if_neg hstar, htarget]
      rfl
  · have hexact : (if wildcardPort port then none else routeAt routes port label) = none := by
      rw [hnone, ite_self]
    rw [hexact]
    rcases findSome?_patterns routes port label with ⟨p, hp, hfind⟩ | ⟨hall, -⟩
    · rw [hfind, hp.unique hlongest]
      rfl
    have hentry := hlongest.entry
    rw [hall pattern hlongest.wildcard hlongest.fits] at hentry
    cases hentry
  · have hexact : (if wildcardPort port then none else routeAt routes port label) = none := by
      rw [hnone, ite_self]
    rw [hexact]
    rcases findSome?_patterns routes port label with ⟨p, hp, -⟩ | ⟨-, hfind⟩
    · have hentry := hp.entry
      rw [hall p hp.wildcard hp.fits] at hentry
      cases hentry
    · rw [hfind]
      rfl

theorem find?_routesForPort_congr {routes' : SwitchRoutes}
    (hvalid : ∀ pattern, (routeAt routes pattern label).isSome = true → (42 : UInt8) ∉ pattern.dropLast)
    (hsame : ∀ pattern, routeAt routes' pattern label = routeAt routes pattern label) :
    (routesForPort routes' port).find? label = (routesForPort routes port).find? label := by
  have hvalid' : ∀ pattern, (routeAt routes' pattern label).isSome = true →
      (42 : UInt8) ∉ pattern.dropLast := fun pattern h => hvalid pattern (by rw [← hsame]; exact h)
  obtain ⟨hexact, hpattern, hnone⟩ := @find?_routesForPort routes port label hvalid
  obtain ⟨hexact', hpattern', hnone'⟩ := @find?_routesForPort routes' port label hvalid'
  rcases hself : routeAt routes port label with _ | target
  · rcases findSome?_patterns routes port label with ⟨p, hp, -⟩ | ⟨hall, -⟩
    · have hp' : Longest routes' port label p :=
        ⟨hp.wildcard, hp.fits, by rw [hsame]; exact hp.entry, fun other hw hf hsome =>
          hp.longest other hw hf (by rw [← hsame]; exact hsome)⟩
      rw [hpattern hself p hp, hpattern' (by rw [hsame]; exact hself) p hp', hsame]
    · rw [hnone hself hall, hnone' (by rw [hsame]; exact hself) fun p hw hf => by
        rw [hsame]
        exact hall p hw hf]
  · rw [hexact target hself, hexact' target (by rw [hsame]; exact hself)]

/-- The routes of a port: the entry of its own name comes first, then that of the longest
pattern which has one for the label. Neither the order in which a table is iterated nor the
order in which the routes were added makes a difference. -/
theorem routes_for_port_precedence {texts : List Bytes} {routes : SwitchRoutes}
    (hbuilt : buildRoutes texts = .ok routes) (port : PortName) (label : UInt64) :
    (∀ target, routeAt routes port label = some target →
      (routesForPort routes port).find? label = some target) ∧
    (routeAt routes port label = none → ∀ pattern, Longest routes port label pattern →
      (routesForPort routes port).find? label = routeAt routes pattern label ∧ 1 < pattern.length) ∧
    (routeAt routes port label = none →
      (∀ pattern, wildcardPort pattern = true → routePortMatches pattern port = true →
        routeAt routes pattern label = none) → (routesForPort routes port).find? label = none) ∧
    (∀ routes' : SwitchRoutes, (∀ p l, routeAt routes' p l = routeAt routes p l) →
      (routesForPort routes' port).find? label = (routesForPort routes port).find? label) ∧
    (∀ texts' : List Bytes, texts'.Perm texts → ∃ routes', buildRoutes texts' = .ok routes' ∧
      (routesForPort routes' port).find? label = (routesForPort routes port).find? label) := by
  have haddable := addable_of_ok hbuilt
  obtain ⟨result, hresult, hcontent⟩ := haddable.build
  have heq : result = routes := Except.ok.inj (hresult.symm.trans hbuilt)
  subst heq
  have hread : ∀ {p l}, (routeAt result p l).isSome = true → p ≠ ascii "*" ∧ (42 : UInt8) ∉ p.dropLast := by
    intro p l h
    obtain ⟨target, htarget⟩ := Option.isSome_iff_exists.mp h
    rcases (hcontent p l target).mp htarget with hempty | ⟨text, -, htext⟩
    · cases hempty
    · exact readRoute_pattern htext
  have hvalid : ∀ pattern, (routeAt result pattern label).isSome = true →
      (42 : UInt8) ∉ pattern.dropLast := fun _ h => (hread h).2
  obtain ⟨hexact, hpattern, hnone⟩ := @find?_routesForPort result port label hvalid
  refine ⟨hexact, fun hself pattern hlongest => ⟨hpattern hself pattern hlongest, ?_⟩, hnone,
    fun routes' hsame => find?_routesForPort_congr hvalid fun p => hsame p label, fun texts' hperm => ?_⟩
  · -- a lone star is not accepted as a pattern
    have hne := (hread hlongest.entry).1
    have hstar := hlongest.wildcard
    rcases pattern with _ | ⟨byte, _ | ⟨_, _⟩⟩
    · cases hstar
    · have hbyte : byte = 42 := by simpa [wildcardPort] using hstar
      exact absurd (by rw [hbyte]; rfl) hne
    · simp
  · have happart : texts'.Pairwise Apart :=
      (hperm.pairwise_iff fun h r r' hr hr' => Ne.symm (h r' r hr' hr)).mpr haddable.apart
    have haddable' : Addable {} texts' :=
      ⟨fun text htext => haddable.fresh text (hperm.mem_iff.mp htext), happart⟩
    obtain ⟨routes', hbuild', hcontent'⟩ := haddable'.build
    refine ⟨routes', hbuild', find?_routesForPort_congr hvalid fun p => ?_⟩
    refine Option.ext fun target => ?_
    rw [hcontent', hcontent]
    simp only [hperm.mem_iff]

def sampleRoutes : List Bytes := [ascii "a*:5=x:1", ascii "ab*:5=y:2", ascii "abc:6=z:0x10"]

theorem routes_for_port_precedence_sample :
    ∃ routes, buildRoutes sampleRoutes = .ok routes ∧
      (routesForPort routes (ascii "abc")).find? 6 = some { port := ascii "z", label := 16 } ∧
      (routesForPort routes (ascii "abc")).find? 5 = some { port := ascii "y", label := 2 } := by
  obtain ⟨routes, hbuilt, hname, hother, hpattern, hlong⟩ : ∃ routes,
      buildRoutes sampleRoutes = .ok routes ∧
      routeAt routes (ascii "abc") 6 = some { port := ascii "z", label := 16 } ∧
      routeAt routes (ascii "abc") 5 = none ∧
      routeAt routes (ascii "ab*") 5 = some { port := ascii "y", label := 2 } ∧
      routeAt routes (ascii "abc*") 5 = none :=
    ⟨_, rfl, by rfl, by rfl, by rfl, by rfl⟩
  have hlongest : Longest routes (ascii "abc") 5 (ascii "ab*") := by
    refine ⟨rfl, rfl, by rw [hpattern]; rfl, fun other hwild hfits hentry => ?_⟩
    rw [routePortMatches, if_pos hwild] at hfits
    have htake := eq_of_beq hfits
    by_contra hlonger
    have hlonger : 3 < other.length := Nat.not_le.mp hlonger
    have hwhole : (ascii "abc").length ≤ other.length - 1 := Nat.le_sub_one_of_lt hlonger
    rw [List.take_of_length_le hwhole] at htake
    have hstarred := eq_of_wildcard hwild
    rw [← htake] at hstarred
    rw [hstarred, show ascii "abc" ++ [42] = ascii "abc*" from rfl, hlong] at hentry
    cases hentry
  refine ⟨routes, hbuilt, (routes_for_port_precedence hbuilt _ 6).1 _ hname, ?_⟩
  rw [((routes_for_port_precedence hbuilt _ 5).2.1 hother _ hlongest).1, hpattern]

end Tuntom
