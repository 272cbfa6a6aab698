import Mathlib.Data.List.Nodup
import Mathlib.Data.List.Infix

/-! Trees whose siblings are told apart by a key, as ordered maps nested in one another. -/

inductive KeyedForest (κ α : Type*) where
  | nil
  | cons (key : κ) (value : α) (below rest : KeyedForest κ α)
  deriving DecidableEq, Repr

structure KeyedTree (κ α : Type*) where
  value : α
  below : KeyedForest κ α := .nil
  deriving DecidableEq, Repr

namespace KeyedForest

variable {κ α σ : Type*}

def keys : KeyedForest κ α → List κ
  | nil => []
  | cons k _ _ rest => k :: rest.keys

def Distinct : KeyedForest κ α → Prop
  | nil => True
  | cons k _ below rest => k ∉ rest.keys ∧ below.Distinct ∧ rest.Distinct

def entries : KeyedForest κ α → List (List κ × α)
  | nil => []
  | cons k v below rest => ([k], v) :: (below.entries.map fun e => (k :: e.1, e.2)) ++ rest.entries

variable {f : KeyedForest κ α}

theorem exists_key_of_mem_entries {e : List κ × α} (h : e ∈ f.entries) :
    ∃ k ∈ f.keys, ∃ path, e.1 = k :: path := by
  induction f with
  | nil => cases h
  | cons k v below rest _ ih =>
    rw [entries, List.mem_append, List.mem_cons, List.mem_map] at h
    rcases h with (rfl | ⟨e, -, rfl⟩) | h
    · exact ⟨k, List.mem_cons_self, [], rfl⟩
    · exact ⟨k, List.mem_cons_self, e.1, rfl⟩
    · obtain ⟨k, hk, hpath⟩ := ih h
      exact ⟨k, List.mem_cons_of_mem _ hk, hpath⟩

theorem Distinct.nodup_entries (h : f.Distinct) : (f.entries.map Prod.fst).Nodup := by
  induction f with
  | nil => exact List.nodup_nil
  | cons k v below rest ihb ihr =>
    obtain ⟨hk, hbelow, hrest⟩ := h
    have hmap : (below.entries.map fun e => (k :: e.1, e.2)).map Prod.fst =
        (below.entries.map Prod.fst).map (k :: ·) := by
      rw [List.map_map, List.map_map]
      rfl
    rw [entries, List.map_append, List.map_cons, hmap, List.nodup_append, List.nodup_cons]
    refine ⟨⟨?_, (ihb hbelow).map (List.cons_injective)⟩, ihr hrest, ?_⟩
    · intro hmem
      obtain ⟨path, hpath, heq⟩ := List.mem_map.mp hmem
      obtain ⟨e, he, rfl⟩ := List.mem_map.mp hpath
      obtain ⟨j, -, path, hj⟩ := exists_key_of_mem_entries he
      rw [hj] at heq
      cases heq
    -- the paths through this sibling begin with its key, the others do not
    · rintro a ha b hb rfl
      obtain ⟨e, he, rfl⟩ := List.mem_map.mp hb
      obtain ⟨j, hj, path, hpath⟩ := exists_key_of_mem_entries he
      have hjk : j = k := by
        rw [hpath] at ha
        rcases List.mem_cons.mp ha with heq | hmem
        · exact (List.cons.inj heq).1
        · obtain ⟨tail, -, heq⟩ := List.mem_map.mp hmem
          exact (List.cons.inj heq).1.symm
      exact hk (hjk ▸ hj)

variable [DecidableEq κ]

def child? (k : κ) : KeyedForest κ α → Option (KeyedTree κ α)
  | nil => none
  | cons j v below rest => if j = k then some ⟨v, below⟩ else rest.child? k

theorem child?_eq_none_iff {k : κ} : f.child? k = none ↔ k ∉ f.keys := by
  induction f with
  | nil => simp [child?, keys]
  | cons j v below rest _ ih =>
    rw [child?, keys, List.mem_cons, not_or, ← ih]
    split
    next h => simp [h]
    next h => simp [Ne.symm h]

/-- The sibling with a key that is there becomes `t`. -/
def assign (k : κ) (t : KeyedTree κ α) : KeyedForest κ α → KeyedForest κ α
  | nil => nil
  | cons j v below rest =>
    if j = k then cons j t.value t.below rest else cons j v below (rest.assign k t)

theorem keys_assign (k : κ) (t : KeyedTree κ α) (f : KeyedForest κ α) :
    (f.assign k t).keys = f.keys := by
  induction f with
  | nil => rfl
  | cons j v below rest _ ih =>
    rw [assign]
    split
    · rfl
    · rw [keys, ih, keys]

theorem child?_assign {k : κ} (h : (f.child? k).isSome) (t : KeyedTree κ α) (i : κ) :
    (f.assign k t).child? i = if i = k then some t else f.child? i := by
  induction f with
  | nil => cases h
  | cons j v below rest _ ih =>
    rw [assign]
    by_cases hj : j = k
    · rw [if_pos hj, child?, child?]
      subst hj
      by_cases hi : i = j
      · simp [hi]
      · rw [if_neg (Ne.symm hi), if_neg hi]
        rw [if_neg (Ne.symm hi)]
    rw [child?, if_neg hj] at h
    rw [if_neg hj, child?, child?, ih h]
    by_cases hi : i = k
    · simp [hi, hj]
    · simp [hi]

theorem Distinct.assign {k : κ} {t : KeyedTree κ α} (h : f.Distinct) (ht : t.below.Distinct) :
    (f.assign k t).Distinct := by
  induction f with
  | nil => exact h
  | cons j v below rest _ ih =>
    obtain ⟨hj, hbelow, hrest⟩ := h
    rw [KeyedForest.assign]
    split
    · exact ⟨hj, ht, hrest⟩
    · exact ⟨by rwa [keys_assign], hbelow, ih hrest⟩

section Place

variable [LT κ] [DecidableLT κ]

def place (k : κ) (t : KeyedTree κ α) : KeyedForest κ α → KeyedForest κ α
  | nil => cons k t.value t.below nil
  | cons j v below rest =>
    if k < j then cons k t.value t.below (cons j v below rest) else cons j v below (rest.place k t)

variable {f : KeyedForest κ α} {t : KeyedTree κ α}

omit [DecidableEq κ] in
theorem mem_keys_place {k i : κ} : i ∈ (f.place k t).keys ↔ i = k ∨ i ∈ f.keys := by
  induction f with
  | nil => simp [place, keys]
  | cons j v below rest _ ih =>
    rw [place]
    split
    · simp [keys]
    · rw [keys, keys, List.mem_cons, List.mem_cons, ih]
      tauto

theorem child?_place {k : κ} (h : f.child? k = none) (t : KeyedTree κ α) (i : κ) :
    (f.place k t).child? i = if i = k then some t else f.child? i := by
  induction f with
  | nil =>
    rw [place, child?, child?]
    by_cases hi : i = k
    · simp [hi]
    · simp [hi, Ne.symm hi, child?]
  | cons j v below rest _ ih =>
    have hj : j ≠ k := by
      rintro rfl
      rw [child?, if_pos rfl] at h
      cases h
    rw [child?, if_neg hj] at h
    rw [place]
    split
    · rw [child?]
      by_cases hi : i = k
      · simp [hi]
      · simp [hi, Ne.symm hi]
    rw [child?, child?, ih h]
    by_cases hi : i = k
    · simp [hi, hj]
    · simp [hi]

omit [DecidableEq κ] in
theorem Distinct.place {k : κ} (h : f.Distinct) (ht : t.below.Distinct) (hk : k ∉ f.keys) :
    (f.place k t).Distinct := by
  induction f with
  | nil => exact ⟨hk, ht, h⟩
  | cons j v below rest _ ih =>
    have hall := h
    obtain ⟨hj, hbelow, hrest⟩ := h
    rw [keys, List.mem_cons, not_or] at hk
    rw [KeyedForest.place]
    split
    · refine ⟨?_, ht, hall⟩
      rw [keys, List.mem_cons, not_or]
      exact hk
    refine ⟨?_, hbelow, ih hrest hk.2⟩
    rw [mem_keys_place, not_or]
    exact ⟨Ne.symm hk.1, hj⟩

/-- The sibling with a key becomes `t`; it is made where there is none. -/
def put (k : κ) (t : KeyedTree κ α) (f : KeyedForest κ α) : KeyedForest κ α :=
  if (f.child? k).isSome then f.assign k t else f.place k t

theorem child?_put (k : κ) (t : KeyedTree κ α) (f : KeyedForest κ α) (i : κ) :
    (f.put k t).child? i = if i = k then some t else f.child? i := by
  rw [put]
  split
  next h => exact child?_assign h t i
  next h => exact child?_place (by simpa using h) t i

theorem Distinct.put {k : κ} (h : f.Distinct) (ht : t.below.Distinct) : (f.put k t).Distinct := by
  rw [KeyedForest.put]
  split
  next => exact h.assign ht
  next hnone => exact h.place ht (child?_eq_none_iff.mp (by simpa using hnone))

end Place

theorem Distinct.child {k : κ} {t : KeyedTree κ α} (h : f.Distinct) (hchild : f.child? k = some t) :
    t.below.Distinct := by
  induction f with
  | nil => cases hchild
  | cons j v below rest _ ih =>
    rw [child?] at hchild
    split at hchild
    · obtain rfl := Option.some.inj hchild
      exact h.2.1
    · exact ih h.2.2 hchild

end KeyedForest

namespace KeyedTree

variable {κ α σ : Type*} [DecidableEq κ]

def find? : List κ → KeyedTree κ α → Option α
  | [], t => some t.value
  | k :: path, t => (t.below.child? k).bind (find? path)

theorem mem_entries_iff {f : KeyedForest κ α} (h : f.Distinct) (root : α) {path : List κ} {v : α} :
    (path, v) ∈ f.entries ↔ path ≠ [] ∧ find? path ⟨root, f⟩ = some v := by
  induction f generalizing root path v with
  | nil => cases path <;> simp [KeyedForest.entries, find?, KeyedForest.child?]
  | cons k w below rest ihb ihr =>
    obtain ⟨hk, hbelow, hrest⟩ := h
    rw [KeyedForest.entries, List.mem_append, List.mem_cons, List.mem_map, ihr hrest root]
    cases path with
    | nil => simp
    | cons j path =>
      by_cases hj : k = j
      · subst hj
        have hnone : find? (k :: path) ⟨root, rest⟩ = none := by
          rw [find?, KeyedForest.child?_eq_none_iff.mpr hk, Option.bind_none]
        have hsome : find? (k :: path) ⟨root, .cons k w below rest⟩ = find? path ⟨w, below⟩ := by
          rw [find?, KeyedForest.child?, if_pos rfl, Option.bind_some]
        rw [hnone, hsome]
        cases path with
        | nil =>
          rw [find?, Option.some.injEq, Prod.mk.injEq]
          constructor
          · rintro ((⟨-, rfl⟩ | ⟨e, he, heq⟩) | ⟨-, hbad⟩)
            · exact ⟨List.cons_ne_nil _ _, rfl⟩
            · have heq := (List.cons.inj (Prod.mk.inj heq).1).2
              obtain ⟨i, -, tail, hpath⟩ := KeyedForest.exists_key_of_mem_entries he
              rw [hpath] at heq
              cases heq
            · cases hbad
          · rintro ⟨-, rfl⟩
            exact .inl (.inl ⟨rfl, rfl⟩)
        | cons i path =>
          have hiff := @ihb hbelow w (i :: path) v
          constructor
          · rintro ((heq | ⟨e, he, heq⟩) | ⟨-, hbad⟩)
            · cases heq
            · obtain ⟨hpath, rfl⟩ := Prod.mk.inj heq
              have hmem : (i :: path, e.2) ∈ below.entries := (List.cons.inj hpath).2 ▸ he
              exact ⟨List.cons_ne_nil _ _, (hiff.mp hmem).2⟩
            · cases hbad
          · rintro ⟨-, hfind⟩
            exact .inl (.inr ⟨(i :: path, v), hiff.mpr ⟨List.cons_ne_nil _ _, hfind⟩, rfl⟩)
      simp only [find?, KeyedForest.child?, if_neg hj]
      constructor
      · rintro ((heq | ⟨e, he, heq⟩) | hrest)
        · exact absurd (List.cons.inj (Prod.mk.inj heq).1).1.symm hj
        · exact absurd (List.cons.inj (Prod.mk.inj heq).1).1 hj
        · exact hrest
      · exact .inr

section Visit

variable [LT κ] [DecidableLT κ] (fresh : α) (key : σ → κ) (arrive : σ → α → α)

/-- Goes down by `steps`, making the nodes that are missing and telling each of its step, and
updates the last of them. -/
def visit : List σ → (α → α) → KeyedTree κ α → KeyedTree κ α
  | [], update, t => ⟨update t.value, t.below⟩
  | s :: steps, update, t =>
    let child := (t.below.child? (key s)).getD ⟨fresh, .nil⟩
    ⟨t.value, t.below.put (key s) (visit steps update ⟨arrive s child.value, child.below⟩)⟩

omit [LT κ] [DecidableLT κ] in
theorem find?_getD (child : Option (KeyedTree κ α)) (v : α) (j : κ) (path : List κ) :
    find? (j :: path) ⟨v, (child.getD ⟨fresh, .nil⟩).below⟩ = child.bind (find? (j :: path)) := by
  cases child <;> rfl

def told (steps : List σ) : α → α :=
  match steps.getLast? with
  | none => id
  | some s => arrive s

theorem told_cons_of_ne_nil (s : σ) {steps : List σ} (h : steps ≠ []) :
    told arrive (s :: steps) = told arrive steps := by
  cases steps with
  | nil => exact absurd rfl h
  | cons i steps => rw [told, told, List.getLast?_cons_cons]

theorem visit_distinct {steps : List σ} {update : α → α} {t : KeyedTree κ α}
    (h : t.below.Distinct) : (visit fresh key arrive steps update t).below.Distinct := by
  induction steps generalizing t with
  | nil => exact h
  | cons s steps ih =>
    rw [visit]
    refine h.put (ih ?_)
    cases hchild : t.below.child? (key s) with
    | none => exact trivial
    | some child =>
      have hbelow := h.child hchild
      exact hbelow

/-- A visit makes the nodes on its way, tells each of them of its step and updates the last one;
all others stay as they are. -/
theorem find?_visit (steps : List σ) (update : α → α) (t : KeyedTree κ α) (path : List κ) :
    find? path (visit fresh key arrive steps update t) =
      if path <+: steps.map key then
        some ((if path = steps.map key then update else id)
          (told arrive (steps.take path.length) ((find? path t).getD fresh)))
      else find? path t := by
  induction steps generalizing t path with
  | nil => cases path <;> simp [visit, find?, told]
  | cons s steps ih =>
    cases path with
    | nil => simp [visit, find?, told]
    | cons k path =>
      simp only [visit, find?, KeyedForest.child?_put, List.map_cons, List.cons_prefix_cons,
        List.cons.injEq, List.length_cons, List.take_succ_cons]
      by_cases hk : k = key s
      · subst hk
        simp only [if_true, Option.bind_some, true_and, ih]
        cases path with
        | nil =>
          -- the node of the first step itself is told of it
          cases t.below.child? (key s) <;> simp [find?, told]
        | cons j path =>
          rw [find?_getD]
          by_cases hpre : j :: path <+: steps.map key
          · have hne : steps.take (j :: path).length ≠ [] := by
              cases steps with
              | nil => simp at hpre
              | cons i steps => simp
            rw [if_pos hpre, if_pos hpre, told_cons_of_ne_nil arrive s hne]
          · rw [if_neg hpre, if_neg hpre]
      · simp [hk]

end Visit

end KeyedTree
