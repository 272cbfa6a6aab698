import Tuntom.SwitchRuleset

/-! The `bidir` shorthand: the reverse of a forwarding rule, and that it takes back what the
rule did. -/
namespace Tuntom

/-! ### Matches and rewrites, place by place -/

theorem RuleStackMatch.accepts_iff {m : RuleStackMatch} {labels : Labels} :
    m.accepts labels = true ↔ m.items.length ≤ labels.length ∧
      (m.rest = false → labels.length = m.items.length) ∧
      ∀ (i : ℕ) (e : RuleElement) (label : UInt64), m.items[i]? = some e →
        labels[i]? = some label → e.accepts label = true := by
  have hall : ((m.items.zip labels).all fun p => p.1.accepts p.2) = true ↔
      ∀ (i : ℕ) (e : RuleElement) (label : UInt64), m.items[i]? = some e →
        labels[i]? = some label → e.accepts label = true := by
    rw [List.all_eq_true]
    constructor
    · intro h i e label he hlabel
      exact h (e, label) (List.mem_of_getElem? (List.getElem?_zip_eq_some.mpr ⟨he, hlabel⟩))
    · rintro h ⟨e, label⟩ hmem
      obtain ⟨i, hi⟩ := List.getElem?_of_mem hmem
      obtain ⟨he, hlabel⟩ := List.getElem?_zip_eq_some.mp hi
      exact h i e label he hlabel
  have haccepts : m.accepts labels = (decide (m.items.length ≤ labels.length) &&
      (m.rest || labels.length == m.items.length) &&
      (m.items.zip labels).all fun p => p.1.accepts p.2) := rfl
  rw [haccepts, Bool.and_eq_true, Bool.and_eq_true, hall, decide_eq_true_iff, and_assoc]
  refine and_congr_right fun _ => and_congr_left fun _ => ?_
  cases m.rest <;> simp

namespace RuleStack

theorem explicitLabels_cons (labels : Labels) (item : RuleStackItem) (items : List RuleStackItem)
    (position : ℕ) :
    explicitLabels labels (item :: items) position =
      (if item.keep then labels[position]? else some item.value).bind fun label =>
        (explicitLabels labels items (position + 1)).bind fun others => some (label :: others) := by
  rw [explicitLabels]
  split <;> rfl

theorem explicitLabels_eq_some {labels front : Labels} {items : List RuleStackItem} {position : ℕ} :
    explicitLabels labels items position = some front ↔
      front.length = items.length ∧ ∀ (i : ℕ) (item : RuleStackItem), items[i]? = some item →
        front[i]? = if item.keep then labels[position + i]? else some item.value := by
  induction items generalizing front position with
  | nil => cases front <;> simp [explicitLabels]
  | cons item items ih =>
    rw [explicitLabels_cons, Option.bind_eq_some_iff]
    constructor
    · rintro ⟨label, hlabel, h⟩
      obtain ⟨others, hothers, h⟩ := Option.bind_eq_some_iff.mp h
      cases h
      obtain ⟨hlen, hitems⟩ := ih.mp hothers
      refine ⟨by simp [hlen], fun i item' hi => ?_⟩
      cases i with
      | zero =>
        cases hi
        simpa using hlabel.symm
      | succ i =>
        have hnext := hitems i item' (by simpa using hi)
        rw [List.getElem?_cons_succ, hnext, Nat.add_assoc, Nat.add_comm 1 i]
    · rintro ⟨hlen, hitems⟩
      cases front with
      | nil => simp at hlen
      | cons label others =>
        have hfirst := hitems 0 item rfl
        refine ⟨label, by simpa using hfirst.symm, Option.bind_eq_some_iff.mpr ⟨others, ?_, rfl⟩⟩
        refine ih.mpr ⟨by simpa using hlen, fun i item' hi => ?_⟩
        have hnext := hitems (i + 1) item' (by simpa using hi)
        rw [List.getElem?_cons_succ] at hnext
        rw [hnext, Nat.add_assoc, Nat.add_comm 1 i]

theorem apply_eq_some {s : RuleStack} {labels out : Labels} :
    s.apply labels = some out ↔ ∃ front, explicitLabels labels s.items 0 = some front ∧
      out = front ++ (if s.rest then labels.drop s.items.length else []) ∧ 0 < out.length ∧
      out.length ≤ switchMaxLabels := by
  rw [apply, Option.bind_eq_bind, Option.bind_eq_some_iff]
  refine exists_congr fun front => and_congr_right fun _ => ?_
  generalize front ++ (if s.rest then labels.drop s.items.length else []) = whole
  dsimp only
  split
  next h =>
    constructor
    · rintro ⟨⟩
      exact ⟨rfl, h.1, h.2⟩
    · rintro ⟨rfl, -, -⟩
      rfl
  next h =>
  constructor
  · intro hnone
    cases hnone
  · rintro ⟨rfl, hpos, hle⟩
    exact absurd ⟨hpos, hle⟩ h

end RuleStack

/-! ### The reverse rule -/

/-- The place `i` of the reverse match. -/
def reverseElement (source : RuleStackMatch) (rewrite : RuleStack) (i : ℕ) : Except String RuleElement :=
  match rewrite.items[i]?, source.items[i]? with
  | some ⟨false, value⟩, _ => .ok (.exact value)
  | _, some element => .ok element
  | _, none =>
    if source.rest then .ok .any
    else .error "bidir cannot preserve a missing source position; write explicit switch rules"

/-- The place `i` of the reverse rewrite, for an element of the source match. -/
def reverseItem (rewrite : RuleStack) (i : ℕ) : RuleElement → Except String RuleStackItem
  | .exact value => .ok { keep := false, value }
  | _ =>
    if (rewrite.items[i]?.map RuleStackItem.keep).getD rewrite.rest then .ok { keep := true }
    else .error
      "bidir cannot restore a wildcard, range or bitmask after overwrite; write explicit switch rules"

/-- `reverse_forward_rule`. -/
def reverseForwardRule (forward : RuleStatement) : Except String RuleStatement := do
  let source := forward.input.stackMatch
  let rewrite := forward.stack
  let count := if rewrite.rest then max source.items.length rewrite.items.length
    else rewrite.items.length
  let items ← (List.range count).mapM (reverseElement source rewrite)
  let stack ← source.items.zipIdx.mapM fun x => reverseItem rewrite x.2 x.1
  return { forward with
    input := { forward.input with
      port := forward.output.port, stackMatch := { items, rest := source.rest && rewrite.rest } }
    output := { forward.output with port := forward.input.port }
    stack := { items := stack, rest := source.rest && rewrite.rest } }

theorem getElem?_of_mapM_ok {α β ε : Type} {f : α → Except ε β} {l : List α} {l' : List β}
    (h : l.mapM f = .ok l') : l'.length = l.length ∧
      ∀ (i : ℕ) (a : α), l[i]? = some a → ∃ b, f a = .ok b ∧ l'[i]? = some b := by
  induction l generalizing l' with
  | nil =>
    cases h
    exact ⟨rfl, fun i a h => by simp at h⟩
  | cons a l ih =>
    rw [List.mapM_cons] at h
    rcases hfirst : f a with e | b
    · rw [hfirst] at h
      cases h
    rw [hfirst] at h
    rcases hrest : l.mapM f with e | rest
    · rw [hrest] at h
      cases h
    rw [hrest] at h
    cases h
    obtain ⟨hlen, hitems⟩ := ih hrest
    refine ⟨by simp [hlen], fun i a' hi => ?_⟩
    cases i with
    | zero =>
      cases hi
      exact ⟨b, hfirst, rfl⟩
    | succ i => exact hitems i a' (by simpa using hi)

structure Reversed (forward reverse : RuleStatement) : Prop where
  rest : reverse.input.stackMatch.rest = (forward.input.stackMatch.rest && forward.stack.rest)
  restStack : reverse.stack.rest = (forward.input.stackMatch.rest && forward.stack.rest)
  count : reverse.input.stackMatch.items.length =
    if forward.stack.rest then max forward.input.stackMatch.items.length forward.stack.items.length
    else forward.stack.items.length
  elements : ∀ i < reverse.input.stackMatch.items.length, ∃ e,
    reverseElement forward.input.stackMatch forward.stack i = .ok e ∧
      reverse.input.stackMatch.items[i]? = some e
  countStack : reverse.stack.items.length = forward.input.stackMatch.items.length
  items : ∀ (i : ℕ) (e : RuleElement), forward.input.stackMatch.items[i]? = some e →
    ∃ item, reverseItem forward.stack i e = .ok item ∧ reverse.stack.items[i]? = some item

theorem reversed_of_ok {forward reverse : RuleStatement} (h : reverseForwardRule forward = .ok reverse) :
    Reversed forward reverse := by
  rw [reverseForwardRule] at h
  dsimp only at h
  generalize hcount : (if forward.stack.rest then _ else _) = count at h
  rcases hmatch : (List.range count).mapM
      (reverseElement forward.input.stackMatch forward.stack) with e | elements
  · rw [hmatch] at h
    cases h
  rw [hmatch] at h
  rcases hstack : forward.input.stackMatch.items.zipIdx.mapM
      (fun x => reverseItem forward.stack x.2 x.1) with e | stack
  · simp only [hstack] at h
    cases h
  simp only [hstack] at h
  cases h
  obtain ⟨hlen, helements⟩ := getElem?_of_mapM_ok hmatch
  obtain ⟨hlen', hitems⟩ := getElem?_of_mapM_ok hstack
  rw [List.length_range] at hlen
  rw [List.length_zipIdx] at hlen'
  refine ⟨rfl, rfl, hlen.trans hcount.symm, fun i hi => ?_, hlen', fun i e he => ?_⟩
  · exact helements i i (List.getElem?_range (by rw [← hlen]; exact hi))
  · exact hitems i (e, i) (by simp [List.getElem?_zipIdx, he])

/-! ### Taking a rewrite back -/

section Rewritten

variable {forward reverse : RuleStatement} {labels labels' : Labels}

/-- Where the template keeps a label, the rewritten stack has the label of the original. -/
theorem getElem?_kept (happly : forward.stack.apply labels = some labels') {i : ℕ}
    (hkept : (forward.stack.items[i]?.map RuleStackItem.keep).getD forward.stack.rest = true) :
    labels'[i]? = labels[i]? := by
  obtain ⟨front, hfront, rfl, -, -⟩ := RuleStack.apply_eq_some.mp happly
  obtain ⟨hlen, hitems⟩ := RuleStack.explicitLabels_eq_some.mp hfront
  rcases hitem : forward.stack.items[i]? with _ | item
  · have hle := List.getElem?_eq_none_iff.mp hitem
    rw [hitem] at hkept
    have hrest : forward.stack.rest = true := hkept
    rw [List.getElem?_append_right (by omega), if_pos hrest, List.getElem?_drop, hlen]
    congr 1
    omega
  have hlt := (List.getElem?_eq_some_iff.mp hitem).1
  rw [hitem] at hkept
  have hkeep : item.keep = true := hkept
  have hget := hitems i item hitem
  rw [List.getElem?_append_left (by omega), hget, if_pos hkeep, Nat.zero_add]

theorem getElem?_written (happly : forward.stack.apply labels = some labels') {i : ℕ} {value : UInt64}
    (hitem : forward.stack.items[i]? = some ⟨false, value⟩) : labels'[i]? = some value := by
  obtain ⟨front, hfront, rfl, -, -⟩ := RuleStack.apply_eq_some.mp happly
  obtain ⟨hlen, hitems⟩ := RuleStack.explicitLabels_eq_some.mp hfront
  have hlt := (List.getElem?_eq_some_iff.mp hitem).1
  have hget := hitems i _ hitem
  rw [List.getElem?_append_left (by omega), hget]
  rfl

theorem length_rewritten (happly : forward.stack.apply labels = some labels') :
    labels'.length = if forward.stack.rest then max forward.stack.items.length labels.length
      else forward.stack.items.length := by
  obtain ⟨front, hfront, rfl, -, -⟩ := RuleStack.apply_eq_some.mp happly
  have hlen := (RuleStack.explicitLabels_eq_some.mp hfront).1
  rw [List.length_append, hlen]
  split
  · rw [List.length_drop]
    omega
  · simp

theorem Reversed.kept (h : Reversed forward reverse) {i : ℕ}
    (hlt : i < reverse.input.stackMatch.items.length)
    (hnot : ∀ value, forward.stack.items[i]? = some ⟨false, value⟩ → False) :
    (forward.stack.items[i]?.map RuleStackItem.keep).getD forward.stack.rest = true := by
  rcases hitem : forward.stack.items[i]? with _ | ⟨keep, value⟩
  · have hle := List.getElem?_eq_none_iff.mp hitem
    rw [h.count] at hlt
    by_contra hclosed
    have hrest : forward.stack.rest = false := by simpa using hclosed
    rw [hrest] at hlt
    simp only [Bool.false_eq_true, if_false] at hlt
    omega
  cases keep with
  | false => exact (hnot value hitem).elim
  | true => rfl

theorem Reversed.accepts (h : Reversed forward reverse)
    (hmatch : forward.input.stackMatch.accepts labels = true)
    (happly : forward.stack.apply labels = some labels') :
    reverse.input.stackMatch.accepts labels' = true := by
  obtain ⟨hle, hclosed, hitems⟩ := RuleStackMatch.accepts_iff.mp hmatch
  have hlen := length_rewritten happly
  have hcount := h.count
  refine RuleStackMatch.accepts_iff.mpr ⟨?_, fun hrest => ?_, fun i e label he hlabel => ?_⟩
  · rw [hcount, hlen]
    split
    · omega
    · exact le_rfl
  · rw [h.rest] at hrest
    rw [hcount, hlen]
    rcases hopen : forward.stack.rest with _ | _
    · rfl
    rw [hopen, Bool.and_true] at hrest
    have hexact := hclosed hrest
    simp only [if_true]
    omega
  · obtain ⟨e', helement, he'⟩ := h.elements i (List.getElem?_eq_some_iff.mp he).1
    rw [he] at he'
    cases he'
    rw [reverseElement] at helement
    split at helement
    next value hitem =>
      cases helement
      rw [getElem?_written happly hitem] at hlabel
      cases hlabel
      simp [RuleElement.accepts]
    next element hsource hnot =>
      cases helement
      have hlt := (List.getElem?_eq_some_iff.mp he).1
      rw [getElem?_kept happly (h.kept hlt hnot)] at hlabel
      exact hitems i e label hsource hlabel
    next =>
    split at helement
    · cases helement
      rfl
    · cases helement

theorem Reversed.explicitLabels (h : Reversed forward reverse)
    (hmatch : forward.input.stackMatch.accepts labels = true)
    (happly : forward.stack.apply labels = some labels') :
    RuleStack.explicitLabels labels' reverse.stack.items 0 =
      some (labels.take forward.input.stackMatch.items.length) := by
  obtain ⟨hle, -, hitems⟩ := RuleStackMatch.accepts_iff.mp hmatch
  refine RuleStack.explicitLabels_eq_some.mpr ⟨?_, fun i item hitem => ?_⟩
  · rw [List.length_take, h.countStack]
    omega
  · have hlt := (List.getElem?_eq_some_iff.mp hitem).1
    rw [h.countStack] at hlt
    have hsource := List.getElem?_eq_getElem hlt
    obtain ⟨item', hreverse, hitem'⟩ := h.items i _ hsource
    rw [hitem] at hitem'
    cases hitem'
    have hlabel : labels[i]? = some labels[i] := List.getElem?_eq_getElem (by omega)
    rw [List.getElem?_take, if_pos hlt, Nat.zero_add, hlabel]
    have haccepts := hitems i _ _ hsource hlabel
    rw [reverseItem.eq_def] at hreverse
    split at hreverse
    next value hexact =>
      cases hreverse
      rw [hexact] at haccepts
      simpa [RuleElement.accepts] using haccepts
    next =>
    split at hreverse
    next hkept =>
      cases hreverse
      rw [if_pos rfl, getElem?_kept happly hkept, hlabel]
    next => cases hreverse

theorem drop_rewritten (happly : forward.stack.apply labels = some labels') {n : ℕ}
    (hopen : forward.stack.rest = true) (hle : forward.stack.items.length ≤ n) :
    labels'.drop n = labels.drop n := by
  refine List.ext_getElem? fun i => ?_
  rw [List.getElem?_drop, List.getElem?_drop]
  refine getElem?_kept happly ?_
  rw [List.getElem?_eq_none (by omega)]
  exact hopen

end Rewritten

/-- The reverse of a forwarding rule takes its rewrite back: for every stack the rule
rewrites, the reverse match accepts what comes out and the reverse rewrite restores the
labels the source matched, and the whole stack if the source is closed, or both are open
and the template is not longer than the source. -/
theorem reverse_restores {forward reverse : RuleStatement}
    (hreverse : reverseForwardRule forward = .ok reverse)
    (hsource : 1 ≤ forward.input.stackMatch.items.length) {labels labels' : Labels}
    (hlabels : labels.length ≤ switchMaxLabels)
    (hmatch : forward.input.stackMatch.accepts labels = true)
    (happly : forward.stack.apply labels = some labels') :
    reverse.input.stackMatch.accepts labels' = true ∧
    ∃ restored, reverse.stack.apply labels' = some restored ∧ restored.length ≤ switchMaxLabels ∧
      restored.take forward.input.stackMatch.items.length =
        labels.take forward.input.stackMatch.items.length ∧
      (forward.input.stackMatch.rest = false ∨
        (forward.input.stackMatch.rest = true ∧ forward.stack.rest = true ∧
          forward.stack.items.length ≤ forward.input.stackMatch.items.length) →
        restored = labels) := by
  have h := reversed_of_ok hreverse
  obtain ⟨hle, hclosed, -⟩ := RuleStackMatch.accepts_iff.mp hmatch
  obtain ⟨-, -, -, -, hmax⟩ := RuleStack.apply_eq_some.mp happly
  have hcount := h.countStack
  have hfront : (labels.take forward.input.stackMatch.items.length).length =
      forward.input.stackMatch.items.length := by
    rw [List.length_take]
    omega
  have hsize : (labels.take forward.input.stackMatch.items.length ++
      if reverse.stack.rest then labels'.drop reverse.stack.items.length else []).length ≤
        switchMaxLabels := by
    rw [List.length_append, hfront]
    split
    · rw [List.length_drop]
      omega
    · rw [List.length_nil]
      omega
  refine ⟨h.accepts hmatch happly, _, RuleStack.apply_eq_some.mpr
    ⟨_, h.explicitLabels hmatch happly, rfl, ?_, hsize⟩, hsize, ?_, ?_⟩
  · rw [List.length_append, hfront]
    omega
  · rw [List.take_append_of_le_length (by omega), List.take_take, min_self]
  · rintro (hrest | ⟨hrest, hopen, hshort⟩)
    · have hlen := hclosed hrest
      rw [h.restStack, hrest, Bool.false_and, if_neg (by decide), List.append_nil, ← hlen,
        List.take_length]
    · rw [h.restStack, hrest, hopen, if_pos (by decide), hcount,
        drop_rewritten happly hopen hshort, List.take_append_drop]

/-- `switch [42, &16, ...] to [99, *, ...] allow`. -/
def sampleForward : RuleStatement :=
  { type := .forward, allow := true
    input := { stackMatch := { items := [.exact 42, .bits 16], rest := true } }
    stack := { items := [{ value := 99 }, { keep := true }], rest := true } }

theorem reverse_restores_sample :
    ∃ reverse, reverseForwardRule sampleForward = .ok reverse ∧
      reverse.input.stackMatch.accepts [99, 17, 3] = true ∧
      ∃ restored, reverse.stack.apply [99, 17, 3] = some restored ∧ restored.length ≤ switchMaxLabels ∧
        restored.take 2 = [42, 17] := by
  obtain ⟨reverse, hreverse⟩ : ∃ reverse, reverseForwardRule sampleForward = .ok reverse := ⟨_, rfl⟩
  obtain ⟨haccepts, restored, happly, hle, htake, -⟩ := @reverse_restores sampleForward reverse hreverse
    (by decide) [42, 17, 3] [99, 17, 3] (by decide) (by decide) (by rfl)
  exact ⟨reverse, hreverse, haccepts, restored, happly, hle, htake⟩

end Tuntom
