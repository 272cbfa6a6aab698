import Tuntom.ControlTable

/-! Which frames a remote control object accepts. -/
namespace Tuntom.Control

variable {P : Primitives}

def heardIn (bytes : Bytes) : Option Frame :=
  (Frame.decode bytes).map fun f => { f with auth := [] }

def Effect.inner : Effect → Prop
  | .accepted .. => False
  | _ => True

namespace RemoteControl

variable {f : Frame} {rc : RemoteControl} {now : Time} {h : Handlers}

theorem emit_inner : ∀ e ∈ (rc.emit P f).2, e.inner := by
  intro e he
  obtain ⟨_, _, _, rfl⟩ := rc.mem_emit P he
  trivial

theorem sendNext_inner {id : Id} {retry : Bool} :
    ∀ e ∈ (rc.sendNext P id now retry).2, e.inner := by
  rw [sendNext]
  split
  · simp
  · exact emit_inner

theorem receiveAnswer_inner : ∀ e ∈ (rc.receiveAnswer P f now).2, e.inner := by
  rw [receiveAnswer]
  split
  · simp
  split
  · simp
  split
  · split <;> simp
  split
  · simp
  dsimp only
  split
  · exact sendNext_inner
  · simp

theorem receiveQuery_inner : ∀ e ∈ (rc.receiveQuery P f).2, e.inner := by
  rw [receiveQuery]
  split
  · split <;> exact emit_inner
  · split <;> exact emit_inner

theorem upload_inner {r : Incoming} : ∀ e ∈ (rc.upload P f r now h).2, e.inner := by
  rw [upload]
  split
  · exact emit_inner
  split
  · dsimp only
    split
    · intro e he
      rw [List.mem_singleton.mp he]
      trivial
    intro e he
    rcases List.mem_cons.mp he with rfl | he
    · trivial
    · exact emit_inner e he
  · exact emit_inner

theorem makeRoom_inner {turns : ℕ} {reserved : ℕ} :
    ∀ e ∈ (makeRoom turns rc reserved).2.1, e.inner := by
  induction turns generalizing rc reserved with
  | zero => rintro _ ⟨⟩
  | succ turns ih =>
    rw [makeRoom]
    split
    · split
      · simp
      · intro e he
        rcases List.mem_cons.mp he with rfl | he
        · trivial
        · exact ih e he
    · simp

theorem admit_inner : ∀ e ∈ rc.admitIncoming.2.1, e.inner := by
  rw [admitIncoming]
  split
  · simp
  · exact makeRoom_inner

theorem receivePut_inner {principal : AuthorityKey} :
    ∀ e ∈ (rc.receivePut P f principal now h).2, e.inner := by
  rw [receivePut]
  split
  · exact upload_inner
  split
  · exact emit_inner
  dsimp only
  intro e he
  split at he
  · exact (List.mem_append.mp he).elim (admit_inner e) (emit_inner e)
  rcases List.mem_append.mp he with he | he
  · rcases List.mem_append.mp he with he | he
    · exact admit_inner e he
    · obtain ⟨answer, rfl⟩ := opened_effects he
      trivial
  · exact upload_inner e he

theorem handle_inner {principal : AuthorityKey} :
    ∀ e ∈ (rc.handle P f principal now h).2, e.inner := by
  rw [handle]
  split
  · exact receivePut_inner
  · exact receiveQuery_inner
  · exact receiveQuery_inner
  · exact receiveAnswer_inner
  · exact receiveAnswer_inner
  · simp

theorem receive_accepted {bytes : Bytes} {g : Frame} {proof : Bytes} {key : AuthorityKey}
    (hkind : g.kind ≠ .challenge) (hmem : .accepted g proof key ∈ (rc.receive P bytes now h).2) :
    heardIn bytes = some g := by
  rw [receive] at hmem
  split at hmem
  · cases hmem
  split at hmem
  · cases hmem
  next f hf =>
  dsimp only at hmem
  split at hmem
  next hchallenge =>
    rw [receiveChallenge] at hmem
    split at hmem
    · cases hmem
    split at hmem
    · cases hmem
    dsimp only at hmem
    split at hmem
    · rcases List.mem_cons.mp hmem with heq | hmem
      · cases heq
        exact absurd hchallenge hkind
      · exact (emit_inner _ hmem).elim
    · cases hmem
  next =>
  split at hmem
  · cases hmem
  · rw [demand] at hmem
    dsimp only at hmem
    split at hmem
    · cases hmem
    · exact (emit_inner _ hmem).elim
  rcases List.mem_cons.mp hmem with heq | hmem
  · cases heq
    rw [heardIn, hf]
    rfl
  · exact (handle_inner _ hmem).elim

end RemoteControl

end Tuntom.Control
