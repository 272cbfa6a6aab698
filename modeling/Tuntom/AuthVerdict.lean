import Tuntom.Ascon
import Tuntom.AuthGate

/-! Which challenge a verdict of the AUTH helper acts on. A verdict is contained when it
has an effect only while the gate is still verifying the response it was computed for. -/
namespace Tuntom

namespace AuthGate

/-- The gate object, its state and the job, which most of the functions leave alone. -/
def core (s : AuthGate) : AuthState × ℕ × Option AuthJob := (s.auth, s.gate, s.authJob)

def ingress (s : AuthGate) : List UInt64 × Bool := (s.switchStack, s.relocatingOriginal)

variable (P : Primitives) (opts : AuthOptions)

/-- `s'` has the gate, the ingress labels and at most the children of `s`. -/
structure Frame (s s' : AuthGate) : Prop where
  core : s'.core = s.core
  ingress : s'.ingress = s.ingress
  children : s'.children ⊆ s.children

theorem Frame.refl (s : AuthGate) : Frame s s := ⟨rfl, rfl, fun _ h => h⟩

theorem Frame.trans {a b c : AuthGate} (hab : Frame a b) (hbc : Frame b c) : Frame a c :=
  ⟨hbc.core.trans hab.core, hbc.ingress.trans hab.ingress,
    fun _ h => hab.children (hbc.children h)⟩

theorem frame_sendReliable (s : AuthGate) (type : PacketType) (payload : Bytes) (now : Time) :
    Frame s (s.sendReliable opts type payload now).1 := ⟨rfl, rfl, fun _ h => h⟩

theorem frame_childBound (s : AuthGate) (worker : Worker) (bound : Bool) :
    Frame s (s.childBound worker bound) := by
  unfold childBound
  split <;> exact ⟨rfl, rfl, fun _ h => h⟩

theorem frame_childExited (s : AuthGate) (worker : Worker) (exited : Bool) :
    Frame s (s.childExited worker exited) := by
  unfold childExited
  split
  · exact ⟨rfl, rfl, fun _ h => List.mem_of_mem_erase h⟩
  · exact .refl s

theorem frame_reapChildren (childStatus : ℤ → Bool × Bool) (workers : List Worker)
    (s : AuthGate) : Frame s (reapChildren childStatus workers s) := by
  induction workers generalizing s with
  | nil => exact .refl s
  | cons worker rest ih =>
    exact ((frame_childBound s worker _).trans (frame_childExited _ worker _)).trans (ih _)

theorem frame_tickExtensions (s : AuthGate) (now : Time) (ready : Bool) :
    Frame s (s.tickExtensions now ready).1 := ⟨rfl, rfl, fun _ h => h⟩

/-! ### What a verdict may do -/

/-- The step tells the client a verdict, changes its ingress labels, retires the
listener's own session or starts a worker. -/
def Affects (s : AuthGate) (step : AuthGate × List GateEvent) : Prop :=
  (∃ type payload, .sent type payload ∈ step.2 ∧ type ∈ [.authOk, .authFailed, .relocate]) ∨
    step.1.switchStack ≠ s.switchStack ∨
    (s.relocatingOriginal = false ∧ step.1.relocatingOriginal = true) ∨
    ∃ worker ∈ step.1.children, worker ∉ s.children

/-- A step has such an effect only by the result of the job whose response the current
gate object is verifying. -/
def Contained (s : AuthGate) (input : AuthInput) : Prop :=
  s.Affects (authStep P opts s input) → ∃ job, s.authJob = some job ∧
    (∃ done, input = .finished done) ∧ s.auth.phase = .verifying ∧
    s.auth.id = job.response.id ∧ job.gate = s.gate

variable {s : AuthGate}

theorem not_affects {s' : AuthGate} {events : List GateEvent}
    (hstack : s'.switchStack = s.switchStack)
    (hrelocating : s'.relocatingOriginal = true → s.relocatingOriginal = true)
    (hchildren : s'.children ⊆ s.children)
    (hevents : ∀ type payload, .sent type payload ∈ events → type = .authChallenge) :
    ¬ s.Affects (s', events) := by
  rintro (⟨type, payload, hsent, htype⟩ | hne | ⟨hbefore, hafter⟩ | ⟨worker, hmem, hnew⟩)
  · rw [hevents type payload hsent] at htype
    simp at htype
  · exact hne hstack
  · rw [hrelocating hafter] at hbefore
    cases hbefore
  · exact hnew (hchildren hmem)

theorem Frame.not_affects {s' : AuthGate} (h : Frame s s') {events : List GateEvent}
    (hevents : ∀ type payload, .sent type payload ∈ events → type = .authChallenge) :
    ¬ s.Affects (s', events) := by
  have hingress := h.ingress
  simp only [AuthGate.ingress, Prod.mk.injEq] at hingress
  exact AuthGate.not_affects hingress.1 (fun hafter => hingress.2.symm.trans hafter) h.children
    hevents

/-! ### The gate and its job -/

structure GateInv (s : AuthGate) : Prop where
  server : s.auth.role = .server
  busy : s.auth.phase = .verifying → s.authJob ≠ none
  gate_le : ∀ job, s.authJob = some job → job.gate ≤ s.gate
  id_ne_zero : ∀ job, s.authJob = some job → job.response.id ≠ 0
  verifying : ∀ job, s.authJob = some job → (s.auth.phase = .verifying ↔ job.gate = s.gate)
  id : ∀ job, s.authJob = some job → job.gate = s.gate → s.auth.id = job.response.id

theorem GateInv.of_core {s' : AuthGate} (h : GateInv s) (hcore : s'.core = s.core) :
    GateInv s' := by
  simp only [core, Prod.mk.injEq] at hcore
  obtain ⟨hauth, hgate, hjob⟩ := hcore
  constructor
  · rw [hauth]
    exact h.server
  · rw [hauth, hjob]
    exact h.busy
  · rw [hgate, hjob]
    exact h.gate_le
  · rw [hjob]
    exact h.id_ne_zero
  · rw [hauth, hgate, hjob]
    exact h.verifying
  · rw [hauth, hgate, hjob]
    exact h.id

theorem gateInv_start : GateInv (start opts) := by
  constructor <;> first | rfl | (intros; contradiction)

theorem sendChallenge_eq_some {a a' : AuthState} {id : UInt64} (h : a.sendChallenge id = some a') :
    a.role = .server ∧ a.phase = .needChallenge ∧ a' = { a with id := id, phase := .pending } := by
  unfold AuthState.sendChallenge at h
  split at h
  · cases h
  next hready =>
  push Not at hready
  cases h
  exact ⟨hready.1, hready.2.1, rfl⟩

theorem receiveResponse_eq_some {a a' : AuthState} {r : AuthResponse}
    (h : a.receiveResponse r = some a') :
    a.role = .server ∧ a.phase = .pending ∧ r.id = a.id ∧ a' = { a with phase := .verifying } := by
  unfold AuthState.receiveResponse at h
  split at h
  · cases h
  next hready =>
  push Not at hready
  cases h
  exact ⟨hready.1, hready.2.1, hready.2.2, rfl⟩

theorem GateInv.beginSessionAuth (h : GateInv s) (random : Option (Block 40)) (now : Time) :
    GateInv (s.beginSessionAuth opts random now).1 := by
  unfold AuthGate.beginSessionAuth
  split
  · exact h
  dsimp only
  split
  · exact h
  next auth hauth =>
  obtain ⟨hserver, hphase, rfl⟩ := sendChallenge_eq_some hauth
  -- a gate that needs a challenge is not the one a job belongs to
  have hold : ∀ job, s.authJob = some job → job.gate ≠ s.gate := fun job hjob hgate =>
    absurd ((h.verifying job hjob).mpr hgate) (by rw [hphase]; decide)
  exact {
    server := hserver
    busy := by rintro ⟨⟩
    gate_le := h.gate_le
    id_ne_zero := h.id_ne_zero
    verifying := fun job hjob => ⟨by rintro ⟨⟩, fun hgate => absurd hgate (hold job hjob)⟩
    id := fun job hjob hgate => absurd hgate (hold job hjob) }

theorem GateInv.replace (h : GateInv s) :
    GateInv { s with auth := .required, gate := s.gate + 1, reliable := [],
                     relocatingOriginal := false } := by
  have hold : ∀ job, s.authJob = some job → job.gate ≠ s.gate + 1 := fun job hjob =>
    (Nat.lt_succ_of_le (h.gate_le job hjob)).ne
  exact {
    server := rfl
    busy := by rintro ⟨⟩
    gate_le := fun job hjob => (h.gate_le job hjob).trans (Nat.le_succ _)
    id_ne_zero := h.id_ne_zero
    verifying := fun job hjob => ⟨by rintro ⟨⟩, fun hgate => absurd hgate (hold job hjob)⟩
    id := fun job hjob hgate => absurd hgate (hold job hjob) }

theorem GateInv.sessionActivated (h : GateInv s) (peerChanged : Bool) (random : Option (Block 40))
    (now : Time) : GateInv (s.sessionActivated opts peerChanged random now).1 := by
  unfold AuthGate.sessionActivated
  dsimp only
  split
  · split
    · exact h.replace.beginSessionAuth opts random now
    · exact h.replace
  split
  · exact h.beginSessionAuth opts random now
  · exact h

theorem GateInv.handleSessionExtension (h : GateInv s) (type : PacketType)
    (payload numericPeer numericHost : Bytes) :
    GateInv (s.handleSessionExtension type payload numericPeer numericHost) := by
  unfold AuthGate.handleSessionExtension
  split
  · split
    · exact h
    next response hresponse =>
      split
      · exact h
      next auth hauth =>
      obtain ⟨hserver, -, hid, rfl⟩ := receiveResponse_eq_some hauth
      exact {
        server := hserver
        busy := by simp
        gate_le := fun job hjob => by
          cases hjob
          exact le_rfl
        id_ne_zero := fun job hjob => by
          cases hjob
          exact AuthResponse.id_ne_zero_of_decode hresponse
        verifying := fun job hjob => by
          cases hjob
          exact ⟨fun _ => rfl, fun _ => rfl⟩
        id := fun job hjob _ => by
          cases hjob
          exact hid.symm }
  · exact h

/-! ### The end of a job -/

theorem prepareChild_core (s : AuthGate) (job : AuthJob) (done : FinishInput) :
    (s.prepareChild P opts job done).1.core = s.core := by
  have hreap := (frame_reapChildren done.childStatus s.children s).core
  unfold prepareChild
  dsimp only
  split
  · exact hreap
  split
  · exact hreap
  · split <;> exact hreap

theorem verdict_core (s : AuthGate) (job : AuthJob) (done : FinishInput) :
    (s.verdict P opts job done).1.core = s.core := by
  have hchild := prepareChild_core P opts s job done
  unfold verdict
  dsimp only
  split
  · split
    next h =>
      rw [h] at hchild
      exact hchild
    next h =>
      rw [h] at hchild
      exact hchild
  · rfl

theorem GateInv.finishAuthJob (hserver : s.auth.role = .server) (hjob : s.authJob = none)
    (job : AuthJob) (done : FinishInput) : GateInv (s.finishAuthJob P opts job done).1 := by
  have hcore := verdict_core P opts s job done
  unfold AuthGate.finishAuthJob
  generalize s.verdict P opts job done = v at hcore ⊢
  obtain ⟨s₁, allow, relocate⟩ := v
  simp only [core, Prod.mk.injEq] at hcore
  obtain ⟨hauth, -, hjob₁⟩ := hcore
  dsimp only
  have hinv : GateInv { s₁ with auth := (s₁.auth.verified allow).getD s₁.auth } := by
    have hnone : s₁.authJob = none := hjob₁.trans hjob
    have hrole : s₁.auth.role = .server := hauth ▸ hserver
    have hphase : ((s₁.auth.verified allow).getD s₁.auth).phase ≠ .verifying ∧
        ((s₁.auth.verified allow).getD s₁.auth).role = .server := by
      unfold AuthState.verified
      split
      next hidle =>
        rcases hidle with hclient | hidle
        · exact absurd hrole hclient
        · exact ⟨hidle, hrole⟩
      refine ⟨?_, hrole⟩
      change (if allow then AuthPhase.authenticated else AuthPhase.rejected) ≠ .verifying
      split <;> decide
    exact {
      server := hphase.2
      busy := fun hverifying => absurd hverifying hphase.1
      gate_le := fun job hsome => by rw [hnone] at hsome; cases hsome
      id_ne_zero := fun job hsome => by rw [hnone] at hsome; cases hsome
      verifying := fun job hsome => by rw [hnone] at hsome; cases hsome
      id := fun job hsome => by rw [hnone] at hsome; cases hsome }
  split
  · split
    · exact hinv.of_core rfl
    · split
      · exact hinv.of_core rfl
      · unfold AuthGate.sendAccessConfig
        split <;> exact hinv.of_core rfl
  · exact hinv.of_core rfl

theorem finishAuthJob_affects {s₀ : AuthGate} {job : AuthJob} (hid : job.response.id ≠ 0)
    (done : FinishInput) : s₀.Affects (s.finishAuthJob P opts job done) := by
  left
  unfold AuthGate.finishAuthJob
  obtain ⟨s₁, allow, relocate⟩ := s.verdict P opts job done
  have hok : GateEvent.sent .authOk (encodeAuthOk job.response.id) ∈
      sendExtension .authOk (encodeAuthOk job.response.id) := by
    have hne : encodeAuthOk job.response.id ≠ [] := by
      rw [encodeAuthOk, if_neg hid]
      exact List.cons_ne_nil _ _
    rw [sendExtension, if_neg hne]
    exact List.mem_singleton_self _
  have hfailed : ∀ reason, GateEvent.sent .authFailed
      (AuthFailed.encode { id := job.response.id, reason := reason }) ∈
        sendExtension .authFailed (AuthFailed.encode { id := job.response.id, reason := reason }) := by
    intro reason
    have hne : AuthFailed.encode { id := job.response.id, reason := reason } ≠ [] := by
      rw [AuthFailed.encode, if_neg hid]
      exact List.cons_ne_nil _ _
    rw [sendExtension, if_neg hne]
    exact List.mem_singleton_self _
  dsimp only
  split
  · refine ⟨.authOk, encodeAuthOk job.response.id, ?_, by simp⟩
    split
    · exact List.mem_append_left _ hok
    split
    · exact hok
    · exact List.mem_append_left _ hok
  · exact ⟨.authFailed, _, hfailed _, by simp⟩

theorem GateInv.tickAuthJob (h : GateInv s) (done : FinishInput) :
    GateInv (s.tickAuthJob P opts done).1 := by
  unfold AuthGate.tickAuthJob
  split
  · exact h
  · exact GateInv.finishAuthJob (s := { s with authJob := none }) P opts h.server rfl _ done

theorem GateInv.step (h : GateInv s) (input : AuthInput) : GateInv (authStep P opts s input).1 := by
  cases input with
  | activated peerChanged random now => exact h.sessionActivated opts peerChanged random now
  | extension type payload numericPeer numericHost =>
    exact h.handleSessionExtension type payload numericPeer numericHost
  | finished done => exact h.tickAuthJob P opts done
  | reap childStatus => exact h.of_core (frame_reapChildren childStatus s.children s).core
  | tick now ready => exact h.of_core (frame_tickExtensions s now ready).core

theorem gateInv_trace {past : List (AuthInput × List GateEvent)} (h : AuthTrace P opts past s) :
    GateInv s :=
  Transition.Trace.invariant (fun _ (s : AuthGate) => GateInv s) (gateInv_start opts)
    (fun _ _ input _ hinv => hinv.step P opts input) h

theorem mem_sendExtension {type type' : PacketType} {payload payload' : Bytes}
    (h : .sent type' payload' ∈ sendExtension type payload) : type' = type := by
  unfold sendExtension at h
  split at h
  · cases h
  · cases List.mem_singleton.mp h
    rfl

theorem beginSessionAuth_not_affects {s₀ : AuthGate} (random : Option (Block 40)) (now : Time)
    (hstack : s.switchStack = s₀.switchStack)
    (hrelocating : s.relocatingOriginal = true → s₀.relocatingOriginal = true)
    (hchildren : s.children ⊆ s₀.children) : ¬ s₀.Affects (s.beginSessionAuth opts random now) := by
  unfold AuthGate.beginSessionAuth
  split
  · exact AuthGate.not_affects hstack hrelocating hchildren (by simp)
  dsimp only
  split
  · exact AuthGate.not_affects hstack hrelocating hchildren (by simp)
  · exact AuthGate.not_affects hstack hrelocating hchildren fun _ _ => mem_sendExtension

theorem finished_of_affects {input : AuthInput} (h : s.Affects (authStep P opts s input)) :
    ∃ done, input = .finished done := by
  cases input with
  | finished done => exact ⟨done, rfl⟩
  | activated peerChanged random now =>
    refine absurd h ?_
    simp only [authStep, AuthGate.sessionActivated]
    split
    · split
      · exact beginSessionAuth_not_affects opts random now rfl (by simp) fun _ h => h
      · exact AuthGate.not_affects rfl (by simp) (fun _ h => h) (by simp)
    split
    · exact beginSessionAuth_not_affects opts random now rfl id fun _ h => h
    · exact (Frame.refl s).not_affects (by simp)
  | extension type payload numericPeer numericHost =>
    refine absurd h ?_
    simp only [authStep, AuthGate.handleSessionExtension]
    split
    · split
      · exact (Frame.refl s).not_affects (by simp)
      · split
        · exact (Frame.refl s).not_affects (by simp)
        · exact AuthGate.not_affects rfl id (fun _ h => h) (by simp)
    · exact (Frame.refl s).not_affects (by simp)
  | reap childStatus =>
    exact absurd h ((frame_reapChildren childStatus s.children s).not_affects (by simp))
  | tick now ready =>
    refine absurd h ((frame_tickExtensions s now ready).not_affects fun type payload hsent => ?_)
    obtain ⟨p, -, hp⟩ := List.mem_flatMap.mp hsent
    split at hp
    · cases List.mem_singleton.mp hp
    · cases hp

def sampleOptions : AuthOptions := { tunnelId := 7, masterKey := Vector.replicate 16 1 }

def sampleChallenge (id : UInt8) : Block 40 := block 40 (List.replicate 7 0 ++ [id])

def sampleAnswered : List AuthInput :=
  [.activated false (some (sampleChallenge 5)) 0,
    .extension .authResponse (AuthResponse.encode { id := 5, username := ascii "u" }) [] []]

/-- Then another peer takes the session over, and is challenged in its turn. -/
def sampleReplaced : List AuthInput :=
  sampleAnswered ++ [.activated true (some (sampleChallenge 6)) 1]

def sampleDone : FinishInput :=
  { valid := true, result := { status := .allow, ingressStack := [1] }, now := 2 }

def sampleRun (inputs : List AuthInput) : List (AuthInput × List GateEvent) × AuthGate :=
  Transition.run (authStep samplePrimitives sampleOptions) (start sampleOptions) inputs

end AuthGate

end Tuntom
