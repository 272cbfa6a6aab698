import Mathlib

/-! Finite maps whose entries stand in an order that nothing may depend on, as those of
`std::unordered_map` do. -/

structure HashTable (κ β : Type*) where
  entries : List (κ × β) := []
  nodup : (entries.map Prod.fst).Nodup := by exact List.nodup_nil

namespace HashTable

variable {κ β : Type*} [DecidableEq κ]

variable (t : HashTable κ β)

def find? (k : κ) : Option β := t.entries.lookup k

theorem lookup_eq_some_iff {l : List (κ × β)} (h : (l.map Prod.fst).Nodup) {k : κ} {v : β} :
    l.lookup k = some v ↔ (k, v) ∈ l := by
  induction l with
  | nil => simp
  | cons e l ih =>
    obtain ⟨hnot, hnodup⟩ := List.nodup_cons.mp h
    rw [List.lookup_cons]
    by_cases hk : k = e.1
    · subst hk
      have habsent : (e.1, v) ∉ l := fun hmem => hnot (List.mem_map.mpr ⟨_, hmem, rfl⟩)
      simp [habsent, Prod.ext_iff, eq_comm]
    · have hne : (k == e.1) = false := beq_false_of_ne hk
      simp [hk, hne, ih hnodup, Prod.ext_iff]

theorem find?_eq_some_iff {t : HashTable κ β} {k : κ} {v : β} :
    t.find? k = some v ↔ (k, v) ∈ t.entries :=
  lookup_eq_some_iff t.nodup

@[simp] theorem find?_empty (k : κ) : ({} : HashTable κ β).find? k = none := rfl

theorem find?_eq_none_iff {t : HashTable κ β} {k : κ} : t.find? k = none ↔ k ∉ t.entries.map Prod.fst := by
  rw [find?, List.lookup_eq_none_iff]
  constructor
  · rintro h hmem
    obtain ⟨e, he, rfl⟩ := List.mem_map.mp hmem
    simpa using h e he
  · rintro h e he
    have hne : k ≠ e.1 := fun heq => h (List.mem_map.mpr ⟨e, he, heq.symm⟩)
    simpa using hne

/-- `emplace`: a key that is there keeps its value. -/
def emplace (k : κ) (v : β) : HashTable κ β :=
  if h : t.find? k = none then
    { entries := t.entries ++ [(k, v)]
      nodup := by
        rw [List.map_append, List.map_singleton, List.nodup_append_comm, List.singleton_append]
        exact List.nodup_cons.mpr ⟨find?_eq_none_iff.mp h, t.nodup⟩ }
  else t

theorem find?_emplace (k : κ) (v : β) (i : κ) :
    (t.emplace k v).find? i = (t.find? i <|> if i = k then some v else none) := by
  rw [emplace]
  split
  next h =>
    rw [find?, List.lookup_append]
    by_cases hi : i = k
    · subst hi
      have hnone : t.entries.lookup i = none := h
      simp [find?, hnone]
    · have hne : (i == k) = false := beq_false_of_ne hi
      simp [find?, hi, List.lookup_cons, hne]
  next h =>
  by_cases hi : i = k
  · subst hi
    obtain ⟨w, hw⟩ := Option.ne_none_iff_exists'.mp h
    simp [hw]
  · simp [hi]

def emplaceAll (l : List (κ × β)) : HashTable κ β :=
  l.foldl (fun t e => t.emplace e.1 e.2) t

theorem find?_emplaceAll (l : List (κ × β)) (i : κ) :
    (t.emplaceAll l).find? i = (t.find? i <|> l.lookup i) := by
  induction l generalizing t with
  | nil => simp [emplaceAll]
  | cons e l ih =>
    have hrest := ih (t.emplace e.1 e.2)
    rw [emplaceAll] at hrest
    rw [emplaceAll, List.foldl_cons, hrest, find?_emplace, List.lookup_cons]
    by_cases hi : i = e.1
    · cases t.find? i <;> simp [hi]
    · have hne : (i == e.1) = false := beq_false_of_ne hi
      cases t.find? i <;> simp [hi, hne]

def update (k : κ) (v : β) : HashTable κ β where
  entries := t.entries.filter (fun e => e.1 ≠ k) ++ [(k, v)]
  nodup := by
    rw [List.map_append, List.map_singleton, List.nodup_append_comm, List.singleton_append]
    refine List.nodup_cons.mpr ⟨fun hmem => ?_, ?_⟩
    · obtain ⟨e, he, hk⟩ := List.mem_map.mp hmem
      simpa [hk] using (List.mem_filter.mp he).2
    · exact t.nodup.sublist (List.filter_sublist.map Prod.fst)

theorem find?_update (k : κ) (v : β) (i : κ) :
    (t.update k v).find? i = if i = k then some v else t.find? i := by
  refine Option.ext fun w => ?_
  rw [find?_eq_some_iff]
  by_cases hi : i = k
  · simp [update, hi, eq_comm]
  · rw [if_neg hi, find?_eq_some_iff]
    simp [update, hi]

end HashTable
