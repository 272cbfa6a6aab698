import Mathlib.Data.List.Basic
import Mathlib.Data.List.Perm.Basic
import Mathlib.Data.List.Nodup
import Mathlib.Algebra.BigOperators.Group.List.Basic
import Mathlib.Algebra.Order.BigOperators.Group.List
import Mathlib.Algebra.Order.Ring.Nat

/-! Finite maps whose entries stand in the order in which `<` on the keys placed them. -/

structure OrderedMap (κ β : Type*) where
  entries : List (κ × β) := []
  nodup : (entries.map Prod.fst).Nodup := by exact List.nodup_nil
  deriving DecidableEq, Repr

namespace OrderedMap
open List

variable {κ β γ : Type*}

instance : Inhabited (OrderedMap κ β) := ⟨{}⟩

variable {m : OrderedMap κ β} {k : κ} {v : β}

theorem ext_entries {n : OrderedMap κ β} (h : m.entries = n.entries) : m = n := by
  cases m; cases n; cases h; rfl

def values (m : OrderedMap κ β) : List β := m.entries.map Prod.snd

def size (m : OrderedMap κ β) : ℕ := m.entries.length

def filter (m : OrderedMap κ β) (keep : κ → β → Bool) : OrderedMap κ β where
  entries := m.entries.filter fun e => keep e.1 e.2
  nodup := m.nodup.sublist (List.filter_sublist.map Prod.fst)

theorem eq_of_mem {w : β} (hv : (k, v) ∈ m.entries) (hw : (k, w) ∈ m.entries) : v = w := by
  have hpair := inj_on_of_nodup_map m.nodup hv hw rfl
  exact congrArg Prod.snd hpair

section Place

variable [LT κ] [DecidableLT κ]

def place (k : κ) (v : β) : List (κ × β) → List (κ × β)
  | [] => [(k, v)]
  | e :: rest => if k < e.1 then (k, v) :: e :: rest else e :: place k v rest

theorem place_perm (k : κ) (v : β) (l : List (κ × β)) : (place k v l).Perm ((k, v) :: l) := by
  induction l with
  | nil => exact .refl _
  | cons e rest ih =>
    rw [place]
    split
    · exact .refl _
    · exact (ih.cons e).trans (.swap _ _ _)

theorem place_last {k : κ} {v : β} {l : List (κ × β)} (h : ∀ e ∈ l, ¬k < e.1) :
    place k v l = l ++ [(k, v)] := by
  induction l with
  | nil => rfl
  | cons e rest ih =>
    rw [place, if_neg (h e mem_cons_self), ih fun f hf => h f (mem_cons_of_mem _ hf)]
    rfl

theorem place_pairwise {k : κ} {v : β} {l : List (κ × β)}
    (htrans : ∀ a b c : κ, a < b → b < c → a < c) (hk : ∀ e ∈ l, ¬k < e.1 → e.1 < k)
    (hl : l.Pairwise fun a b => a.1 < b.1) : (place k v l).Pairwise fun a b => a.1 < b.1 := by
  induction l with
  | nil => exact pairwise_singleton _ _
  | cons e rest ih =>
    obtain ⟨hfirst, hrest⟩ := pairwise_cons.mp hl
    rw [place]
    split
    next hlt =>
      refine pairwise_cons.mpr ⟨?_, hl⟩
      intro f hf
      rcases mem_cons.mp hf with rfl | hf
      · exact hlt
      · exact htrans _ _ _ hlt (hfirst f hf)
    next hnot =>
    refine pairwise_cons.mpr ⟨?_, ih (fun f hf => hk f (mem_cons_of_mem _ hf)) hrest⟩
    intro f hf
    rcases mem_cons.mp ((place_perm k v rest).mem_iff.mp hf) with rfl | hf
    · exact hk e mem_cons_self hnot
    · exact hfirst f hf

end Place

variable [DecidableEq κ]

def find? (m : OrderedMap κ β) (k : κ) : Option β :=
  (m.entries.find? fun e => decide (e.1 = k)).map Prod.snd

def contains (m : OrderedMap κ β) (k : κ) : Bool := (m.find? k).isSome

theorem find?_eq_some_iff : m.find? k = some v ↔ (k, v) ∈ m.entries := by
  constructor
  · intro h
    obtain ⟨e, he, rfl⟩ := Option.map_eq_some_iff.mp h
    have hk : e.1 = k := by simpa using List.find?_some he
    subst hk
    exact mem_of_find?_eq_some he
  · intro h
    rcases hfind : m.entries.find? (fun e => decide (e.1 = k)) with _ | e
    · have hnot := List.find?_eq_none.mp hfind _ h
      exact absurd (decide_eq_true rfl) hnot
    have hk : e.1 = k := by simpa using List.find?_some hfind
    have hmem := mem_of_find?_eq_some hfind
    subst hk
    rw [find?, hfind, Option.map_some, eq_of_mem (v := e.2) hmem h]

theorem find?_eq_none_iff : m.find? k = none ↔ k ∉ m.entries.map Prod.fst := by
  rw [Option.eq_none_iff_forall_not_mem]
  constructor
  · rintro h hk
    obtain ⟨e, he, rfl⟩ := mem_map.mp hk
    exact h e.2 (find?_eq_some_iff.mpr he)
  · intro h v hv
    exact h (mem_map.mpr ⟨(k, v), find?_eq_some_iff.mp hv, rfl⟩)

theorem find?_congr {n : OrderedMap κ β} (h : ∀ v, (k, v) ∈ m.entries ↔ (k, v) ∈ n.entries) :
    m.find? k = n.find? k := by
  refine Option.ext fun v => ?_
  rw [find?_eq_some_iff, find?_eq_some_iff]
  exact h v

@[simp] theorem find?_empty (k : κ) : ({} : OrderedMap κ β).find? k = none := rfl

theorem find?_of_filter {keep : κ → β → Bool} (h : (m.filter keep).find? k = some v) :
    m.find? k = some v :=
  find?_eq_some_iff.mpr (mem_of_mem_filter (find?_eq_some_iff.mp h))

/-! ### Insertion -/

def assign (k : κ) (v : β) (l : List (κ × β)) : List (κ × β) :=
  l.map fun e => if e.1 = k then (k, v) else e

theorem filter_assign (k : κ) (v : β) (l : List (κ × β)) :
    (assign k v l).filter (fun e => decide (e.1 ≠ k)) = l.filter fun e => decide (e.1 ≠ k) := by
  induction l with
  | nil => rfl
  | cons e rest ih =>
    rw [assign] at ih ⊢
    rw [map_cons, filter_cons, filter_cons, ih]
    by_cases he : e.1 = k
    · simp [he]
    · simp [he]

theorem map_fst_assign (k : κ) (v : β) (l : List (κ × β)) :
    (assign k v l).map Prod.fst = l.map Prod.fst := by
  rw [assign, map_map]
  refine map_congr_left fun e _ => ?_
  rw [Function.comp_apply]
  split
  next h => exact h.symm
  next => rfl

section Insert

variable [LT κ] [DecidableLT κ]

def insert (m : OrderedMap κ β) (k : κ) (v : β) : OrderedMap κ β :=
  if h : m.contains k then
    { entries := assign k v m.entries, nodup := map_fst_assign k v m.entries ▸ m.nodup }
  else
    { entries := place k v m.entries
      nodup := by
        have hperm := (place_perm k v m.entries).map Prod.fst
        rw [contains, Option.not_isSome_iff_eq_none, find?_eq_none_iff] at h
        exact hperm.nodup_iff.mpr (List.nodup_cons.mpr ⟨h, m.nodup⟩) }

theorem entries_insert_new {m : OrderedMap κ β} {k : κ} (h : m.contains k = false) (v : β) :
    (m.insert k v).entries = place k v m.entries := by
  rw [insert, dif_neg (by simp [h])]

theorem mem_insert {m : OrderedMap κ β} {k : κ} {v : β} {e : κ × β} :
    e ∈ (m.insert k v).entries ↔ e = (k, v) ∨ e.1 ≠ k ∧ e ∈ m.entries := by
  rw [insert]
  split
  next h =>
    obtain ⟨w, hw⟩ := Option.isSome_iff_exists.mp h
    have hmem := find?_eq_some_iff.mp hw
    simp only [assign, mem_map]
    constructor
    · rintro ⟨a, ha, rfl⟩
      split
      next => exact .inl rfl
      next hne => exact .inr ⟨hne, ha⟩
    · rintro (rfl | ⟨hne, he⟩)
      · exact ⟨(k, w), hmem, if_pos rfl⟩
      · exact ⟨e, he, if_neg hne⟩
  next h =>
  rw [contains, Option.not_isSome_iff_eq_none, find?_eq_none_iff] at h
  rw [(place_perm k v m.entries).mem_iff, mem_cons]
  constructor
  · rintro (rfl | he)
    · exact .inl rfl
    · exact .inr ⟨fun hk => h (mem_map.mpr ⟨e, he, hk⟩), he⟩
  · rintro (rfl | ⟨-, he⟩)
    · exact .inl rfl
    · exact .inr he

theorem find?_insert (m : OrderedMap κ β) (k : κ) (v : β) (i : κ) :
    (m.insert k v).find? i = if i = k then some v else m.find? i := by
  split
  next h =>
    subst h
    exact find?_eq_some_iff.mpr (mem_insert.mpr (.inl rfl))
  next h =>
  refine find?_congr fun w => ?_
  rw [mem_insert]
  constructor
  · rintro (heq | ⟨-, hmem⟩)
    · exact absurd (congrArg Prod.fst heq) h
    · exact hmem
  · intro hmem
    exact .inr ⟨h, hmem⟩

theorem contains_insert_self (m : OrderedMap κ β) (k : κ) (v : β) : (m.insert k v).contains k := by
  rw [contains, find?_insert, if_pos rfl]
  rfl

end Insert

/-! ### Removal -/

def erase (m : OrderedMap κ β) (k : κ) : OrderedMap κ β := m.filter fun i _ => i ≠ k

theorem find?_filter (m : OrderedMap κ β) (keep : κ → β → Bool) (i : κ) :
    (m.filter keep).find? i = (m.find? i).filter (keep i) := by
  refine Option.ext fun v => ?_
  rw [find?_eq_some_iff, Option.filter_eq_some_iff, find?_eq_some_iff]
  exact mem_filter

theorem find?_erase (m : OrderedMap κ β) (k i : κ) :
    (m.erase k).find? i = if i = k then none else m.find? i := by
  rw [erase, find?_filter]
  split
  next h => simp [h]
  next h => cases m.find? i <;> simp [h]

section Insert

variable [LT κ] [DecidableLT κ]

theorem filter_place (k : κ) (v : β) (l : List (κ × β)) :
    (place k v l).filter (fun e => decide (e.1 ≠ k)) = l.filter fun e => decide (e.1 ≠ k) := by
  induction l with
  | nil => simp [place]
  | cons e rest ih =>
    rw [place]
    split
    · simp
    · rw [filter_cons, filter_cons, ih]

theorem erase_insert (m : OrderedMap κ β) (k : κ) (v : β) : (m.insert k v).erase k = m.erase k := by
  refine ext_entries ?_
  rw [insert]
  split
  · exact filter_assign k v m.entries
  · exact filter_place k v m.entries

end Insert

/-! ### Weights -/

def total (m : OrderedMap κ β) (f : β → ℕ) : ℕ := (m.entries.map fun e => f e.2).sum

omit [DecidableEq κ] in
theorem size_eq_total (m : OrderedMap κ β) : m.size = m.total fun _ => 1 := by
  rw [size, total]
  induction m.entries with
  | nil => rfl
  | cons e rest ih =>
    rw [length_cons, map_cons, sum_cons, ih]
    omega

omit [DecidableEq κ] in
theorem total_mono {f g : β → ℕ} (h : ∀ e ∈ m.entries, f e.2 ≤ g e.2) : m.total f ≤ m.total g := by
  rw [total, total]
  exact sum_le_sum h

theorem perm_cons_filter :
    ∀ {l : List (κ × β)}, (l.map Prod.fst).Nodup → (k, v) ∈ l →
      l.Perm ((k, v) :: l.filter fun e => decide (e.1 ≠ k))
  | [], _, h => absurd h List.not_mem_nil
  | e :: rest, hnodup, h => by
    rw [List.map_cons, List.nodup_cons] at hnodup
    rcases List.mem_cons.mp h with rfl | hrest
    · have hall : rest.filter (fun e => decide (e.1 ≠ k)) = rest := by
        refine filter_eq_self.mpr fun e he => decide_eq_true fun hk => hnodup.1 ?_
        exact mem_map.mpr ⟨e, he, hk⟩
      rw [filter_cons_of_neg (by simp), hall]
    have hne : e.1 ≠ k := fun hk => hnodup.1 (mem_map.mpr ⟨(k, v), hrest, hk.symm⟩)
    rw [filter_cons_of_pos (by simpa using hne)]
    exact ((perm_cons_filter hnodup.2 hrest).cons e).trans (.swap _ _ _)

theorem total_erase (h : m.find? k = some v) (f : β → ℕ) :
    (m.erase k).total f + f v = m.total f := by
  have hperm := perm_cons_filter m.nodup (find?_eq_some_iff.mp h)
  have hsum := (hperm.map fun e => f e.2).sum_eq
  rw [map_cons, sum_cons] at hsum
  rw [total, total, hsum, Nat.add_comm]
  rfl

theorem le_total (h : m.find? k = some v) (f : β → ℕ) : f v ≤ m.total f := by
  rw [← total_erase h f]
  exact Nat.le_add_left _ _

section Insert

variable [LT κ] [DecidableLT κ]

variable {m : OrderedMap κ β}

theorem total_insert_of_none {k : κ} (h : m.find? k = none) (v : β) (f : β → ℕ) :
    (m.insert k v).total f = m.total f + f v := by
  have hnot : ¬m.contains k := by simp [contains, h]
  have hsum := ((place_perm k v m.entries).map fun e => f e.2).sum_eq
  rw [map_cons, sum_cons] at hsum
  rw [insert, dif_neg hnot, total, total, hsum, Nat.add_comm]

theorem total_insert_of_some {k : κ} {u : β} (h : m.find? k = some u) (v : β) (f : β → ℕ) :
    (m.insert k v).total f + f u = m.total f + f v := by
  have hfind : (m.insert k v).find? k = some v := by rw [find?_insert, if_pos rfl]
  have hnew := total_erase hfind f
  have hold := total_erase h f
  rw [erase_insert] at hnew
  omega

theorem size_insert_of_none {k : κ} (h : m.find? k = none) (v : β) :
    (m.insert k v).size = m.size + 1 := by
  rw [size_eq_total, size_eq_total, total_insert_of_none h]

theorem size_insert_of_some {k : κ} {u : β} (h : m.find? k = some u) (v : β) :
    (m.insert k v).size = m.size := by
  have htotal := total_insert_of_some h v fun _ => 1
  rw [size_eq_total, size_eq_total]
  omega

end Insert

end OrderedMap
