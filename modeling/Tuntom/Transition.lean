import Mathlib

/-! Histories of deterministic input-driven machines. A history lists the inputs
of a run with what each step let out, newest first, so that "earlier" is the
tail of the list. -/
namespace Transition

variable {σ ι ε : Type*}

/-- `Trace step start past s`: feeding the inputs of `past` from `start`, oldest
first, produces the outputs recorded in `past` and ends in `s`. -/
inductive Trace (step : σ → ι → σ × ε) (start : σ) : List (ι × ε) → σ → Prop
  | nil : Trace step start [] start
  | cons {past : List (ι × ε)} {s : σ} (i : ι) (h : Trace step start past s) :
      Trace step start ((i, (step s i).2) :: past) (step s i).1

def run (step : σ → ι → σ × ε) (start : σ) (inputs : List ι) : List (ι × ε) × σ :=
  inputs.foldl (fun acc i => ((i, (step acc.2 i).2) :: acc.1, (step acc.2 i).1)) ([], start)

variable {step : σ → ι → σ × ε} {start : σ}

theorem run_append_singleton (inputs : List ι) (i : ι) :
    run step start (inputs ++ [i]) =
      ((i, (step (run step start inputs).2 i).2) :: (run step start inputs).1,
        (step (run step start inputs).2 i).1) := by
  simp [run, List.foldl_append]

theorem trace_run (inputs : List ι) :
    Trace step start (run step start inputs).1 (run step start inputs).2 := by
  induction inputs using List.reverseRecOn with
  | nil => exact .nil
  | append_singleton inputs i ih =>
    rw [run_append_singleton]
    exact .cons i ih

theorem Trace.invariant (I : List (ι × ε) → σ → Prop) (h0 : I [] start)
    (hs : ∀ past s i, Trace step start past s → I past s →
      I ((i, (step s i).2) :: past) (step s i).1)
    {past : List (ι × ε)} {s : σ} (h : Trace step start past s) : I past s := by
  induction h with
  | nil => exact h0
  | cons i h ih => exact hs _ _ i h ih

theorem Trace.suffix {later past : List (ι × ε)} {s : σ}
    (h : Trace step start (later ++ past) s) : ∃ s', Trace step start past s' := by
  induction later generalizing s with
  | nil => exact ⟨s, h⟩
  | cons x later ih =>
    cases h with
    | cons i h => exact ih h

theorem Trace.next {past : List (ι × ε)} {s s' : σ} {i : ι} {e : ε} (h : Trace step start past s)
    (heq : step s i = (s', e)) : Trace step start ((i, e) :: past) s' := by
  have hcons := h.cons i
  rw [heq] at hcons
  exact hcons

theorem Trace.unique {past : List (ι × ε)} {s s' : σ} (h : Trace step start past s)
    (h' : Trace step start past s') : s = s' := by
  induction h generalizing s' with
  | nil =>
    cases h'
    rfl
  | cons i h ih =>
    generalize hx : (i, _) :: _ = past at h'
    cases h' with
    | nil => cases hx
    | cons j h' =>
      obtain ⟨hhead, rfl⟩ := List.cons.inj hx
      obtain ⟨rfl, _⟩ := Prod.mk.inj hhead
      rw [ih h']

theorem Trace.step_of_mem {past : List (ι × ε)} {s : σ} (h : Trace step start past s)
    {x : ι × ε} (hx : x ∈ past) :
    ∃ earlier s', Trace step start earlier s' ∧ x = (x.1, (step s' x.1).2) ∧
      ∃ later, past = later ++ x :: earlier := by
  induction h with
  | nil => simp at hx
  | @cons past s i h ih =>
    rcases List.mem_cons.mp hx with rfl | hx
    · exact ⟨past, s, h, rfl, [], rfl⟩
    · obtain ⟨earlier, s', ht, he, later, rfl⟩ := ih hx
      exact ⟨earlier, s', ht, he, _ :: later, rfl⟩

theorem run_simulates {τ : Type*} {step' : τ → ι → τ × ε} {start' : τ} (R : σ → τ → Prop)
    (h0 : R start start')
    (hs : ∀ s t i, R s t → (step s i).2 = (step' t i).2 ∧ R (step s i).1 (step' t i).1)
    (inputs : List ι) :
    (run step start inputs).1 = (run step' start' inputs).1 ∧
      R (run step start inputs).2 (run step' start' inputs).2 := by
  induction inputs using List.reverseRecOn with
  | nil => exact ⟨rfl, h0⟩
  | append_singleton inputs i ih =>
    obtain ⟨hout, hnext⟩ := hs _ _ i ih.2
    rw [run_append_singleton, run_append_singleton]
    exact ⟨by rw [hout, ih.1], hnext⟩

end Transition
