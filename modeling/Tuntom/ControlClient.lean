import Tuntom.ControlAnswers
import Tuntom.ControlAccept

/-! The submitting side of remote control: what its records say about the frames it
has sent and the answers it has taken in. -/
namespace Tuntom.Control
open RemoteControl List

variable {P : Primitives}

def Execution.success? (e : Execution) : Option Bytes :=
  e.response.bind fun response =>
    if outcome (bounded response) = .succeeded then some (bounded response).body else none

theorem Execution.success?_eq_some {e : Execution} {body : Bytes} (h : e.success? = some body) :
    ∃ response, e.response = some response ∧ response.success ∧ response.rejected = false ∧
      response.body = body := by
  obtain ⟨response, hresponse, hbody⟩ := Option.bind_eq_some_iff.mp h
  refine ⟨response, hresponse, ?_⟩
  split at hbody
  next hok =>
    cases hbody
    have hkept : bounded response = response := by
      rw [bounded]
      split
      next hlong =>
        rw [bounded, if_pos hlong] at hok
        cases hok
      next => rfl
    rw [hkept] at hok ⊢
    rw [outcome] at hok
    split at hok
    · cases hok
    next hrejected =>
    split at hok
    next hsuccess => exact ⟨hsuccess, Bool.eq_false_of_not_eq_true hrejected, rfl⟩
    next => cases hok
  next => cases hbody

def Asks (submits : List (Id × ControlRequest)) (f : Frame) : Prop :=
  match f.kind with
  | .put => ∃ request, (f.id, request) ∈ submits ∧ f.command = request.command ∧
      f.total.toNat = request.body.length ∧ f.offset.toNat ≤ request.body.length ∧
      ∃ chunk, f.data = field request.body f.offset.toNat chunk
  | .status => True
  | .finish => ∃ request, (f.id, request) ∈ submits
  | _ => False

/-- An answer that reports success carries a part of a successful response. -/
def Tells (served : List Execution) (g : Frame) : Prop :=
  g.kind = .reply → g.state = .succeeded → ∃ e ∈ served, e.id = g.id ∧ ∃ body,
    e.success? = some body ∧ g.total.toNat = body.length ∧
    ∃ chunk, g.data = field body g.offset.toNat chunk

structure Kept (submits : List (Id × ControlRequest)) (served : List Execution) (id : Id)
    (r : Outgoing) : Prop where
  origin : ∃ request, (id, request) ∈ submits ∧ r.request.command = request.command ∧
    (r.result = none → r.request.body = request.body)
  small : r.request.body.length ≤ controlMaxBody
  sent : r.result = none → r.sent ≤ r.request.body.length
  last : Asks submits r.last ∧ (r.last.id = id ∨ r.last = {}) ∧
    (r.last.kind = .finish → r.finishing ∧ r.state = r.last.state)
  progress : r.result = none → r.finishing = false → r.state = .succeeded → r.response ≠ [] →
    ∃ e ∈ served, e.id = id ∧ ∃ body, e.success? = some body ∧ r.total = body.length ∧
      r.response <+: body
  ready : r.result = none → r.finishing → r.state = .succeeded →
    ∃ e ∈ served, e.id = id ∧ e.success? = some r.response
  truth : ∀ body, r.result = some ⟨0, body⟩ → ∃ e ∈ served, e.id = id ∧ e.success? = some body

def Open (rc : RemoteControl) (id : Id) : Prop :=
  ∃ r, rc.outgoing.find? id = some r ∧ r.result = none ∧ r.finishing = false

/-- How the record of a request goes on in a call that hears at most one frame: it never
takes an ending back, and is rejected only by an answer that says so. -/
structure Follows (heard : Option Frame) (id : Id) (r s : Outgoing) : Prop where
  finishing : r.finishing → s.finishing ∧ s.state = r.state
  waiting : s.result = none → s.finishing = false → r.result = none ∧ r.finishing = false
  rejected : s.state = .rejected → r.state = .rejected ∨
    ∃ g ∈ heard, g.id = id ∧ g.kind = .reply ∧ g.state = .rejected
  confirmed : ∀ body, s.result = some ⟨255, body⟩ → r.result = some ⟨255, body⟩ ∨
    ∃ g ∈ heard, g.id = id ∧ g.kind = .confirmed ∧ g.state = .rejected

structure Submits (submits : List (Id × ControlRequest)) (served : List Execution)
    (heard : Option Frame) (rc : RemoteControl) (out : RemoteControl × List Effect) : Prop where
  kept : ∀ id r, out.1.outgoing.find? id = some r → Kept submits served id r
  sends : ∀ b, .send b ∈ out.2 → ∃ f proof, { f with auth := proof }.encode = some b ∧
    Asks submits f ∧ (f.kind = .finish →
      ∀ r, out.1.outgoing.find? f.id = some r → r.finishing ∧ r.state = f.state)
  follows : ∀ id s, out.1.outgoing.find? id = some s →
    ∃ r, rc.outgoing.find? id = some r ∧ Follows heard id r s

variable {heard : Option Frame}

theorem Follows.refl {id : Id} (r : Outgoing) : Follows heard id r r :=
  ⟨fun h => ⟨h, rfl⟩, fun h1 h2 => ⟨h1, h2⟩, .inl, fun _ => .inl⟩

theorem Follows.trans {id : Id} {r s t : Outgoing} (h : Follows heard id r s)
    (g : Follows heard id s t) : Follows heard id r t where
  finishing hr := by
    obtain ⟨hs, hstate⟩ := h.finishing hr
    obtain ⟨ht, hstate'⟩ := g.finishing hs
    exact ⟨ht, hstate'.trans hstate⟩
  waiting h1 h2 := by
    obtain ⟨h1, h2⟩ := g.waiting h1 h2
    exact h.waiting h1 h2
  rejected ht := (g.rejected ht).elim h.rejected .inr
  confirmed body ht := (g.confirmed body ht).elim (h.confirmed body) .inr

theorem Follows.same {id : Id} {r s : Outgoing} (hfinishing : s.finishing = r.finishing)
    (hstate : s.state = r.state) (hresult : s.result = r.result) : Follows heard id r s where
  finishing h := ⟨hfinishing.trans h, hstate⟩
  waiting h1 h2 := ⟨hresult ▸ h1, hfinishing ▸ h2⟩
  rejected h := .inl (hstate ▸ h)
  confirmed _ h := .inl (hresult ▸ h)

section Submits

def AllKept (submits : List (Id × ControlRequest)) (served : List Execution) (rc : RemoteControl) :
    Prop := ∀ id r, rc.outgoing.find? id = some r → Kept submits served id r

variable {submits : List (Id × ControlRequest)} {served : List Execution} {heard : Option Frame}

variable {f : Frame} {id : Id} {r : Outgoing} {rc rc' : RemoteControl}
  {out : RemoteControl × List Effect}

theorem Asks.mono {more : List (Id × ControlRequest)} (h : Asks submits f) (hsub : submits ⊆ more) :
    Asks more f := by
  rw [Asks] at h ⊢
  split at h
  next =>
    obtain ⟨request, hmem, hrest⟩ := h
    exact ⟨request, hsub hmem, hrest⟩
  next => trivial
  next =>
    obtain ⟨request, hmem⟩ := h
    exact ⟨request, hsub hmem⟩
  next => exact h.elim

theorem Kept.mono {more : List (Id × ControlRequest)} {others : List Execution}
    (h : Kept submits served id r) (hs : submits ⊆ more) (he : served ⊆ others) :
    Kept more others id r where
  origin := by
    obtain ⟨request, hmem, hrest⟩ := h.origin
    exact ⟨request, hs hmem, hrest⟩
  small := h.small
  sent := h.sent
  last := ⟨h.last.1.mono hs, h.last.2⟩
  progress h1 h2 h3 h4 := by
    obtain ⟨e, hmem, hrest⟩ := h.progress h1 h2 h3 h4
    exact ⟨e, he hmem, hrest⟩
  ready h1 h2 h3 := by
    obtain ⟨e, hmem, hrest⟩ := h.ready h1 h2 h3
    exact ⟨e, he hmem, hrest⟩
  truth body hb := by
    obtain ⟨e, hmem, hrest⟩ := h.truth body hb
    exact ⟨e, he hmem, hrest⟩

theorem Submits.after {first second : RemoteControl × List Effect}
    (h : Submits submits served heard rc first) (g : Submits submits served heard first.1 second) :
    Submits submits served heard rc (second.1, first.2 ++ second.2) where
  kept := g.kept
  sends b hb := by
    rcases mem_append.mp hb with hb | hb
    · obtain ⟨f, proof, hencode, hask, hfinish⟩ := h.sends b hb
      refine ⟨f, proof, hencode, hask, fun hkind s hs => ?_⟩
      obtain ⟨r, hr, hfollows⟩ := g.follows f.id s hs
      obtain ⟨hdone, hstate⟩ := hfinish hkind r hr
      obtain ⟨hstill, hsame⟩ := hfollows.finishing hdone
      exact ⟨hstill, hsame.trans hstate⟩
    · exact g.sends b hb
  follows id t ht := by
    obtain ⟨s, hs, hst⟩ := g.follows id t ht
    obtain ⟨r, hr, hrs⟩ := h.follows id s hs
    exact ⟨r, hr, hrs.trans hst⟩

theorem Submits.opens (h : Submits submits served heard rc out) (hopen : Open out.1 id) :
    Open rc id := by
  obtain ⟨s, hs, hresult, hfinishing⟩ := hopen
  obtain ⟨r, hr, hfollows⟩ := h.follows id s hs
  exact ⟨r, hr, hfollows.waiting hresult hfinishing⟩

theorem Submits.dropping (hkept : AllKept submits served rc)
    (hsub : ∀ id r, rc'.outgoing.find? id = some r → rc.outgoing.find? id = some r) :
    Submits submits served heard rc (rc', []) where
  kept id r hr := hkept id r (hsub id r hr)
  sends _ hb := absurd hb not_mem_nil
  follows id r hr := ⟨r, hsub id r hr, .refl r⟩

theorem Submits.replacing {s : Outgoing} (hkept : AllKept submits served rc)
    (hr : rc.outgoing.find? id = some r) (hrc' : rc'.outgoing = rc.outgoing.insert id s)
    (hs : Kept submits served id s) (hfollows : Follows heard id r s) :
    Submits submits served heard rc (rc', []) where
  kept i t ht := by
    rw [hrc', OrderedMap.find?_insert] at ht
    split at ht
    next hi =>
      cases ht
      rw [hi]
      exact hs
    next => exact hkept i t ht
  sends b hb := absurd hb not_mem_nil
  follows i t ht := by
    rw [hrc', OrderedMap.find?_insert] at ht
    split at ht
    next hi =>
      cases ht
      rw [hi]
      exact ⟨r, hr, hfollows⟩
    next => exact ⟨t, ht, .refl t⟩

/-! ### Sending -/

theorem length_lt_uint32 {n : ℕ} (h : n ≤ controlMaxBody) : n < 2 ^ 32 := by
  rw [controlMaxBody] at h
  omega

theorem toNat_uint32 {n : ℕ} (h : n ≤ controlMaxBody) : (UInt32.ofNat n).toNat = n :=
  UInt32.toNat_ofNat_of_lt' (length_lt_uint32 h)

theorem Kept.frame (h : Kept submits served id r) (hresult : r.result = none) (chunk : ℕ)
    (retry : Bool) :
    Asks submits (r.frame id chunk retry) ∧ (r.frame id chunk retry).id = id ∧
      (r.frame id chunk retry).kind.answers = false ∧ (r.frame id chunk retry).kind ≠ .challenge ∧
      ((r.frame id chunk retry).kind = .finish →
        r.finishing ∧ r.state = (r.frame id chunk retry).state) := by
  obtain ⟨request, hmem, hcommand, hbody⟩ := h.origin
  rw [Outgoing.frame]
  split
  next hfinishing => exact ⟨⟨request, hmem⟩, rfl, rfl, by simp, fun _ => ⟨hfinishing, rfl⟩⟩
  split
  next => exact ⟨trivial, rfl, rfl, by simp, by simp⟩
  next =>
  have hsent := h.sent hresult
  have hsmall := h.small
  rw [hbody hresult] at hsent hsmall ⊢
  refine ⟨⟨request, hmem, hcommand, ?_, ?_, chunk, ?_⟩, rfl, rfl, by simp, by simp⟩
  · exact toNat_uint32 hsmall
  · rw [toNat_uint32 (hsent.trans hsmall)]
    exact hsent
  · rw [toNat_uint32 (hsent.trans hsmall)]

namespace RemoteControl

theorem find?_updateOutgoing (rc : RemoteControl) (id : Id) (change : Outgoing → Outgoing) (i : Id) :
    (rc.updateOutgoing id change).outgoing.find? i =
      if i = id then (rc.outgoing.find? i).map change else rc.outgoing.find? i := by
  rw [updateOutgoing]
  split
  next hnone =>
    split
    next hi => rw [hi, hnone]; rfl
    next => rfl
  next r hr =>
  rw [OrderedMap.find?_insert]
  split
  next hi => rw [hi, hr]; rfl
  next => rfl

theorem find?_emit (rc : RemoteControl) (f : Frame) (i : Id) :
    (rc.emit P f).1.outgoing.find? i = rc.outgoing.find? i ∨
      i = f.id ∧ (rc.emit P f).1.outgoing.find? i =
        (rc.outgoing.find? i).map fun r => { r with last := f } := by
  rw [emit]
  split
  · exact .inl rfl
  split
  · exact .inl rfl
  dsimp only
  rw [remember]
  split
  · exact .inl rfl
  rw [find?_updateOutgoing]
  split
  next hi => exact .inr ⟨hi, rfl⟩
  next => exact .inl rfl

theorem find?_of_emit {rc : RemoteControl} {f : Frame} {i : Id} {s : Outgoing}
    (h : (rc.emit P f).1.outgoing.find? i = some s) :
    rc.outgoing.find? i = some s ∨
      i = f.id ∧ ∃ r, rc.outgoing.find? i = some r ∧ s = { r with last := f } := by
  rcases rc.find?_emit (P := P) f i with hsame | ⟨hi, hmap⟩
  · exact .inl (hsame ▸ h)
  rw [h] at hmap
  obtain ⟨r, hr, hs⟩ := Option.map_eq_some_iff.mp hmap.symm
  exact .inr ⟨hi, r, hr, hs.symm⟩

end RemoteControl

theorem emit_submits (hkept : AllKept submits served rc)
    (hask : Asks submits f) (hfinish : f.kind = .finish →
      ∀ r, rc.outgoing.find? f.id = some r → r.finishing ∧ r.state = f.state) :
    Submits submits served heard rc (rc.emit P f) where
  kept i s hs := by
    rcases find?_of_emit hs with hs | ⟨hi, r, hr, rfl⟩
    · exact hkept i s hs
    have h := hkept i r hr
    exact ⟨h.origin, h.small, h.sent,
      ⟨hask, .inl hi.symm, fun hkind => hfinish hkind r (hi ▸ hr)⟩, h.progress, h.ready, h.truth⟩
  sends b hb := by
    obtain ⟨proof, b', hencode, heq⟩ := rc.mem_emit P hb
    cases heq
    refine ⟨f, proof, hencode, hask, fun hkind s hs => ?_⟩
    rcases find?_of_emit hs with hs | ⟨_, r, hr, rfl⟩
    · exact hfinish hkind s hs
    · exact hfinish hkind r hr
  follows i s hs := by
    rcases find?_of_emit hs with hs | ⟨_, r, hr, rfl⟩
    · exact ⟨s, hs, .refl s⟩
    · exact ⟨r, hr, .same rfl rfl rfl⟩

theorem sendNext_submits (now : Time) (retry : Bool) (hkept : AllKept submits served rc)
    (hresult : ∀ r, rc.outgoing.find? id = some r → r.result = none) :
    Submits submits served heard rc (rc.sendNext P id now retry) := by
  rw [sendNext]
  split
  · exact .dropping hkept fun _ _ h => h
  next r hr =>
  obtain ⟨hask, hid, _, _, hfinish⟩ := (hkept id r hr).frame (hresult r hr) rc.chunk retry
  have hemit : Submits submits served heard rc (rc.emit P (r.frame id rc.chunk retry)) := by
    refine emit_submits hkept hask fun hkind s hs => ?_
    rw [hid, hr] at hs
    cases hs
    exact hfinish hkind
  have hnext : Submits submits served heard (rc.emit P (r.frame id rc.chunk retry)).1
      ((rc.emit P (r.frame id rc.chunk retry)).1.updateOutgoing id
        (fun r => { r with next := now + r.wait }), []) := by
    rw [updateOutgoing]
    split
    · exact .dropping hemit.kept fun _ _ h => h
    next s hs =>
    have h := hemit.kept id s hs
    exact .replacing hemit.kept hs rfl
      ⟨h.origin, h.small, h.sent, h.last, h.progress, h.ready, h.truth⟩ (.same rfl rfl rfl)
  have hboth := hemit.after hnext
  rw [append_nil] at hboth
  exact hboth

/-! ### Answers -/

theorem prefix_extend {body response : Bytes} {chunk : ℕ} (h : response <+: body) :
    response ++ field body response.length chunk <+: body := by
  obtain ⟨rest, rfl⟩ := h
  rw [field, drop_left]
  exact prefix_append_right_inj _ |>.mpr (List.take_prefix ..)

theorem Kept.fail (h : Kept submits served id r) (why : Bytes) (now : Time) :
    Kept submits served id (r.fail why now) where
  origin := by
    obtain ⟨request, hmem, hcommand, _⟩ := h.origin
    exact ⟨request, hmem, hcommand, by rintro ⟨⟩⟩
  small := h.small
  sent := by rintro ⟨⟩
  last := h.last
  progress := by rintro ⟨⟩
  ready := by rintro ⟨⟩
  truth body hb := by cases hb

theorem Kept.change {s : Outgoing} (h : Kept submits served id r)
    (hrequest : s.request = r.request) (hresult : s.result = r.result) (hlast : s.last = r.last)
    (hfinishing : s.finishing = r.finishing) (hresponse : s.response = r.response)
    (htotal : s.total = r.total) (hsent : s.result = none → s.sent ≤ s.request.body.length)
    (hstate : s.state = .succeeded → r.state = .succeeded)
    (hfinal : r.finishing → s.state = r.state) : Kept submits served id s where
  origin := by
    rw [hrequest, hresult]
    exact h.origin
  small := by
    rw [hrequest]
    exact h.small
  sent := hsent
  last := by
    rw [hlast, hfinishing]
    refine ⟨h.last.1, h.last.2.1, fun hkind => ?_⟩
    obtain ⟨hdone, hsame⟩ := h.last.2.2 hkind
    exact ⟨hdone, (hfinal hdone).trans hsame⟩
  progress h1 h2 h3 h4 := by
    rw [hresult] at h1
    rw [hfinishing] at h2
    rw [hresponse] at h4 ⊢
    rw [htotal]
    exact h.progress h1 h2 (hstate h3) h4
  ready h1 h2 h3 := by
    rw [hresult] at h1
    rw [hfinishing] at h2
    rw [hresponse]
    exact h.ready h1 h2 (hstate h3)
  truth body hb := by
    rw [hresult] at hb
    exact h.truth body hb

theorem not_succeeded_of_live {s : State} (h : s.terminal = false) : s ≠ .succeeded := by
  rintro rfl
  cases h

theorem Kept.part (h : Kept submits served id r) (hid : f.id = id) (hresult : r.result = none)
    (hunfinished : r.finishing = false) (hkind : f.kind = .reply) (htells : Tells served f)
    (honce : ∀ e ∈ served, ∀ e' ∈ served, e.id = id → e'.id = id → e = e')
    (hoffset : f.offset.toNat = r.response.length)
    (hsame : r.response ≠ [] → r.state = f.state ∧ r.total = f.total.toNat)
    (hstate : f.state = .succeeded) :
    ∃ e ∈ served, e.id = id ∧ ∃ body, e.success? = some body ∧ f.total.toNat = body.length ∧
      r.response ++ f.data <+: body := by
  obtain ⟨e, he, heid, body, hbody, htotal, chunk, hdata⟩ := htells hkind hstate
  rw [hid] at heid
  refine ⟨e, he, heid, body, hbody, htotal, ?_⟩
  rw [hdata, hoffset]
  refine prefix_extend ?_
  by_cases hempty : r.response = []
  · rw [hempty]
    exact List.nil_prefix
  obtain ⟨e', he', heid', body', hbody', _, hpre⟩ :=
    h.progress hresult hunfinished ((hsame hempty).1.trans hstate) hempty
  rw [honce e' he' e he heid' heid, hbody] at hbody'
  cases hbody'
  exact hpre

theorem Kept.replied (h : Kept submits served id r) (hid : f.id = id) (hresult : r.result = none)
    (hunfinished : r.finishing = false) (hkind : f.kind = .reply) (htells : Tells served f)
    (honce : ∀ e ∈ served, ∀ e' ∈ served, e.id = id → e'.id = id → e = e') (now : Time) :
    Kept submits served id (r.replied f now).1 ∧
      ((r.replied f now).2 = true → (r.replied f now).1.result = none) := by
  have hsent := h.sent hresult
  have hnever : ∀ {s : State}, r.finishing → s = r.state := by
    intro s hdone
    rw [hunfinished] at hdone
    cases hdone
  rw [Outgoing.replied]
  split
  · split
    · exact ⟨h.fail _ now, by simp⟩
    · exact ⟨h.change rfl rfl rfl rfl rfl rfl (fun _ => Nat.zero_le _) (fun hs => hs) hnever,
        fun _ => hresult⟩
  dsimp only
  split
  next hquery =>
    exact ⟨h.change rfl rfl rfl rfl rfl rfl (fun _ => hsent)
      (fun hs => absurd hs (not_succeeded_of_live hquery.2)) hnever, by simp⟩
  split
  · split
    · exact ⟨h.change rfl rfl rfl rfl rfl rfl (fun _ => hsent) (fun hs => hs) hnever, by simp⟩
    next hbounds =>
      refine ⟨h.change rfl rfl rfl rfl rfl rfl (fun _ => ?_) (fun hs => hs) hnever, fun _ => hresult⟩
      exact Nat.le_of_not_lt fun hlt => hbounds (.inl hlt)
  split
  next hlive =>
    exact ⟨h.change rfl rfl rfl rfl rfl rfl (fun _ => hsent)
      (fun hs => absurd hs (not_succeeded_of_live hlive)) hnever, by simp⟩
  split
  · exact ⟨h.change rfl rfl rfl rfl rfl rfl (fun _ => hsent) (fun hs => hs) hnever, by simp⟩
  next hfits =>
  split
  · exact ⟨h.change rfl rfl rfl rfl rfl rfl (fun _ => hsent) (fun hs => hs) hnever, by simp⟩
  next hmatch =>
  rw [not_or, not_or, not_not] at hfits
  have hpart := h.part hid hresult hunfinished hkind htells honce hfits.2.1 fun hne => by
    have hboth := not_or.mp fun hbad => hmatch ⟨hne, hbad⟩
    exact ⟨not_not.mp hboth.1, not_not.mp hboth.2⟩
  refine ⟨⟨h.origin, h.small, h.sent, ⟨h.last.1, h.last.2.1, fun hfinish => ?_⟩, ?_, ?_, h.truth⟩,
    fun _ => hresult⟩
  · have hbad := (h.last.2.2 hfinish).1
    rw [hunfinished] at hbad
    cases hbad
  · exact fun _ _ hstate _ => hpart hstate
  · intro _ hdone hstate
    obtain ⟨e, he, heid, body, hbody, htotal, hpre⟩ := hpart hstate
    have hlength : (r.response ++ f.data).length = body.length :=
      (beq_iff_eq.mp hdone).trans htotal
    rw [← hpre.eq_of_length hlength] at hbody
    exact ⟨e, he, heid, hbody⟩

theorem Outgoing.replied_state (r : Outgoing) (f : Frame) (now : Time) :
    ((r.replied f now).1.state = r.state ∨ (r.replied f now).1.state = f.state) ∧
      ∀ body, (r.replied f now).1.result = some ⟨255, body⟩ → r.result = some ⟨255, body⟩ := by
  rw [Outgoing.replied]
  split
  · split
    · exact ⟨.inl rfl, fun body hb => by cases hb⟩
    · exact ⟨.inl rfl, fun _ hb => hb⟩
  dsimp only
  split
  · exact ⟨.inr rfl, fun _ hb => hb⟩
  split
  · split <;> exact ⟨.inl rfl, fun _ hb => hb⟩
  split
  · exact ⟨.inr rfl, fun _ hb => hb⟩
  split
  · exact ⟨.inl rfl, fun _ hb => hb⟩
  split
  · exact ⟨.inl rfl, fun _ hb => hb⟩
  · exact ⟨.inr rfl, fun _ hb => hb⟩

theorem Follows.replied (hid : f.id = id) (hresult : r.result = none)
    (hunfinished : r.finishing = false) (hkind : f.kind = .reply) (now : Time) :
    Follows (some f) id r (r.replied f now).1 where
  finishing h := by
    rw [hunfinished] at h
    cases h
  waiting _ _ := ⟨hresult, hunfinished⟩
  rejected h := by
    rcases (r.replied_state f now).1 with hsame | hsame
    · exact .inl (hsame ▸ h)
    · exact .inr ⟨f, rfl, hid, hkind, hsame ▸ h⟩
  confirmed body h := .inl ((r.replied_state f now).2 body h)

theorem Follows.fail (r : Outgoing) (why : Bytes) (now : Time) :
    Follows heard id r (r.fail why now) where
  finishing h := ⟨h, rfl⟩
  waiting := by rintro ⟨⟩
  rejected := .inl
  confirmed body h := by cases h

theorem Follows.confirm (hid : f.id = id) (hkind : f.kind = .confirmed)
    (hstate : f.state = r.state) (now : Time) : Follows (some f) id r (r.confirm now) where
  finishing h := ⟨h, rfl⟩
  waiting := by rintro ⟨⟩
  rejected := .inl
  confirmed body h := by
    have hexit : exitCode r.state = 255 := congrArg Result.exit (Option.some.inj h)
    have hrejected : r.state = .rejected := by
      cases hs : r.state with
      | rejected => rfl
      | _ =>
        rw [hs] at hexit
        cases hexit
    exact .inr ⟨f, rfl, hid, hkind, hstate.trans hrejected⟩

theorem Kept.confirm (h : Kept submits served id r) (hresult : r.result = none)
    (hfinishing : r.finishing) (now : Time) : Kept submits served id (r.confirm now) where
  origin := by
    obtain ⟨request, hmem, hcommand, _⟩ := h.origin
    exact ⟨request, hmem, hcommand, by rintro ⟨⟩⟩
  small := Nat.zero_le _
  sent := by rintro ⟨⟩
  last := h.last
  progress := by rintro ⟨⟩
  ready := by rintro ⟨⟩
  truth body hb := by
    have hpair := Option.some.inj hb
    have hstate : r.state = .succeeded := by
      have hexit : exitCode r.state = 0 := congrArg Result.exit hpair
      cases hs : r.state with
      | succeeded => rfl
      | _ =>
        rw [hs] at hexit
        cases hexit
    have hbody : r.response = body := congrArg Result.body hpair
    rw [← hbody]
    exact h.ready hresult hfinishing hstate

theorem receiveAnswer_submits (now : Time) (hkept : AllKept submits served rc)
    (hkind : f.kind = .reply ∨ f.kind = .confirmed) (htells : Tells served f)
    (honce : Open rc f.id → ∀ e ∈ served, ∀ e' ∈ served, e.id = f.id → e'.id = f.id → e = e') :
    Submits submits served (some f) rc (rc.receiveAnswer P f now) := by
  have hidle : Submits submits served (some f) rc (rc, []) := .dropping hkept fun _ _ h => h
  rw [receiveAnswer]
  split
  · exact hidle
  next r hr =>
  have h := hkept f.id r hr
  split
  · exact hidle
  next hnoresult =>
  have hresult : r.result = none := Option.not_isSome_iff_eq_none.mp hnoresult
  split
  next hconfirmed =>
    split
    · exact hidle
    next hmatch =>
    rw [not_or, not_or, not_not] at hmatch
    have hfinishing : r.finishing := Bool.eq_true_of_not_eq_false hmatch.1
    exact .replacing hkept hr rfl (h.confirm hresult hfinishing now)
      (.confirm rfl hconfirmed hmatch.2.1 now)
  next hreply =>
  split
  · exact hidle
  next hunfinished =>
  have hunfinished := Bool.eq_false_of_not_eq_true hunfinished
  have hkind := hkind.resolve_right hreply
  obtain ⟨hnew, hsends⟩ := h.replied rfl hresult hunfinished hkind htells
    (honce ⟨r, hr, hresult, hunfinished⟩) now
  have hreplace : Submits submits served (some f) rc
      ({ rc with outgoing := rc.outgoing.insert f.id (r.replied f now).1 }, []) :=
    .replacing hkept hr rfl hnew (.replied rfl hresult hunfinished hkind now)
  dsimp only
  split
  next hsend =>
    refine hreplace.after (sendNext_submits now false hreplace.kept fun s hs => ?_)
    rw [OrderedMap.find?_insert, if_pos rfl] at hs
    cases hs
    exact hsends hsend
  next => exact hreplace

/-! ### Calls -/

theorem Submits.from (h : Submits submits served heard rc' out)
    (hsame : rc'.outgoing = rc.outgoing) : Submits submits served heard rc out where
  kept := h.kept
  sends := h.sends
  follows id s hs := by
    obtain ⟨r, hr, hfollows⟩ := h.follows id s hs
    exact ⟨r, hsame ▸ hr, hfollows⟩

theorem Submits.silent {e : Effect} (h : Submits submits served heard rc out)
    (he : ∀ b, e ≠ .send b) : Submits submits served heard rc (out.1, e :: out.2) where
  kept := h.kept
  sends b hb := h.sends b ((mem_cons.mp hb).resolve_left fun heq => he b heq.symm)
  follows := h.follows

theorem receiveChallenge_submits (f : Frame) (now : Time) (hkept : AllKept submits served rc) :
    Submits submits served heard rc (rc.receiveChallenge P f now) := by
  have hidle : ∀ a, Submits submits served heard rc ({ rc with auth := a }, []) :=
    fun a => .dropping hkept fun _ _ h => h
  rw [receiveChallenge]
  split
  · exact hidle rc.auth
  next r hr =>
  split
  · exact hidle rc.auth
  dsimp only
  split
  · refine .silent (.from (emit_submits ?_ (hkept f.id r hr).last.1 ?_) ?_) (by simp)
    · exact hkept
    · intro hkind s hs
      -- the last frame is a FINISH, so it is not the blank one of a new record
      have hlast := (hkept f.id r hr).last
      rcases hlast.2.1 with hid | hblank
      · rw [hid] at hs
        have heq : s = r := Option.some.inj (hs.symm.trans hr)
        rw [heq]
        exact hlast.2.2 hkind
      · rw [hblank] at hkind
        cases hkind
    · rfl
  · exact hidle _

theorem receive_submits {bytes : Bytes} (now : Time) (h : Handlers)
    (hkept : AllKept submits served rc) (hframe : ∀ f, Frame.decode bytes = some f →
      (f.kind = .reply ∨ f.kind = .confirmed ∨ f.kind = .challenge) ∧ Tells served f)
    (honce : ∀ id, Open rc id → ∀ e ∈ served, ∀ e' ∈ served, e.id = id → e'.id = id → e = e') :
    Submits submits served (heardIn bytes) rc (rc.receive P bytes now h) ∧
      (rc.receive P bytes now h).1.incoming = rc.incoming := by
  have hidle : ∀ a, Submits submits served (heardIn bytes) rc ({ rc with auth := a }, []) :=
    fun a => .dropping hkept fun _ _ h => h
  rw [receive]
  split
  · exact ⟨hidle rc.auth, rfl⟩
  split
  · exact ⟨hidle rc.auth, rfl⟩
  next f hf =>
  obtain ⟨hkinds, htells⟩ := hframe f hf
  dsimp only
  split
  · refine ⟨.from (receiveChallenge_submits f now ?_) ?_, (receiveChallenge_quiet ?_ f now).incoming⟩
    · exact hkept
    · rfl
    · rfl
  next hchallenge =>
  have hkind : f.kind = .reply ∨ f.kind = .confirmed :=
    hkinds.imp_right fun h => h.resolve_right hchallenge
  obtain ⟨a, ha⟩ := authenticate_after (P := P) { rc with auth := rc.auth.tick now }
    { f with auth := [] } f.auth
  split
  next rc' hv =>
    rw [hv] at ha
    rw [show rc' = _ from ha]
    exact ⟨hidle a, rfl⟩
  next rc' hv =>
    -- an answer is never asked for a proof
    exfalso
    rw [authenticate, if_pos] at hv
    · split at hv
      · dsimp only at hv
        split at hv <;> cases hv
      · cases hv
    · rw [Kind.answers]
      rcases hkind with hk | hk
      · simp [hk]
      · simp [hk]
  next rc' key hv =>
  rw [hv] at ha
  rw [show rc' = _ from ha]
  have hhandle : ∀ rc : RemoteControl, rc.handle P { f with auth := [] } key now h =
      rc.receiveAnswer P { f with auth := [] } now := by
    intro rc
    rw [handle]
    rcases hkind with hk | hk
    · simp only [hk]
    · simp only [hk]
  have hheard : heardIn bytes = some { f with auth := [] } := by
    rw [heardIn, hf]
    rfl
  rw [hhandle, hheard]
  refine ⟨.silent (.from (receiveAnswer_submits now ?_ hkind htells ?_) ?_) (by simp), ?_⟩
  · exact hkept
  · exact honce f.id
  · rfl
  · exact (receiveAnswer_quiet rfl _ now).incoming

theorem tickOutgoing_submits (id : Id) (now : Time) (hkept : AllKept submits served rc) :
    Submits submits served heard rc (rc.tickOutgoing P id now) := by
  have hidle : ∀ a, Submits submits served heard rc ({ rc with auth := a }, []) :=
    fun a => .dropping hkept fun _ _ h => h
  rw [tickOutgoing]
  split
  · exact hidle rc.auth
  next r hr =>
  have h := hkept id r hr
  split
  · dsimp only
    split
    · refine .dropping hkept fun i s hs => ?_
      rw [OrderedMap.find?_erase] at hs
      split at hs
      · cases hs
      · exact hs
    · exact hidle _
  next hnoresult =>
  have hresult : r.result = none := Option.not_isSome_iff_eq_none.mp hnoresult
  split
  · exact hidle rc.auth
  have hagain : Kept submits served id { r with attempts := r.attempts + 1 } :=
    h.change rfl rfl rfl rfl rfl rfl h.sent (fun hs => hs) fun _ => rfl
  dsimp only
  split
  · have hsame : Follows heard id r { r with attempts := r.attempts + 1 } := .same rfl rfl rfl
    exact .replacing hkept hr rfl (hagain.fail _ now) (hsame.trans (.fail _ _ now))
  have hreplace : Submits submits served heard rc
      ({ rc with
        outgoing := rc.outgoing.insert id { r with attempts := r.attempts + 1 } }, []) :=
    .replacing hkept hr rfl hagain (.same rfl rfl rfl)
  refine hreplace.after (sendNext_submits now true hreplace.kept fun s hs => ?_)
  rw [OrderedMap.find?_insert, if_pos rfl] at hs
  cases hs
  exact hresult

theorem each_submits (now : Time) (ids : List Id) (hkept : AllKept submits served rc) :
    Submits submits served heard rc (rc.each (fun rc id => rc.tickOutgoing P id now) ids) := by
  induction ids generalizing rc with
  | nil => exact .dropping hkept fun _ _ h => h
  | cons id rest ih =>
    have hfirst : Submits submits served heard rc (rc.tickOutgoing P id now) :=
      tickOutgoing_submits id now hkept
    exact hfirst.after (ih hfirst.kept)

theorem tick_submits (now : Time) (hkept : AllKept submits served rc) :
    Submits submits served heard rc (rc.tick P now) := by
  have hsame := expireAll_outgoing (uploadDue now) false
    (ascii "request upload expired before execution\n") (rc.incoming.entries.map Prod.fst)
    { rc with auth := rc.auth.tick now }
  rw [tick]
  dsimp only
  generalize (rc.incoming.entries.map Prod.fst).foldl _ _ = rc' at hsame ⊢
  have hsame : rc'.outgoing = rc.outgoing := hsame
  refine .from (each_submits now _ fun id r hr => hkept id r ?_) hsame
  rw [← hsame]
  exact hr

theorem interruptAll_submits (now : Time) (ids : List Id) (hkept : AllKept submits served rc) :
    Submits submits served heard rc
      (ids.foldl (fun rc id => rc.updateOutgoing id (interrupt id now)) rc, []) := by
  induction ids generalizing rc with
  | nil => exact .dropping hkept fun _ _ h => h
  | cons id rest ih =>
    have hfirst : Submits submits served heard rc (rc.updateOutgoing id (interrupt id now), []) := by
      rw [updateOutgoing]
      split
      · exact .dropping hkept fun _ _ h => h
      next r hr =>
      rw [interrupt]
      split
      · exact .replacing hkept hr rfl (hkept id r hr) (.refl r)
      · exact .replacing hkept hr rfl ((hkept id r hr).fail _ now) (.fail r _ now)
    exact hfirst.after (ih hfirst.kept)

theorem sessionChanged_submits (now : Time) (hkept : AllKept submits served rc) :
    Submits submits served heard rc (rc.sessionChanged now, []) := by
  have hreset : Submits submits served heard rc ({ rc with auth := rc.auth.reset }, []) :=
    .dropping hkept fun _ _ h => h
  have hinterrupt := hreset.after
    (interruptAll_submits now (rc.outgoing.entries.map Prod.fst) hreset.kept)
  refine hinterrupt.after (.dropping hinterrupt.kept fun id r hr => ?_)
  rw [expireAll_outgoing] at hr
  exact hr

theorem makeOutgoingRoom_sub (turns : ℕ) (rc : RemoteControl) (reserved : ℕ) (id : Id) (r : Outgoing)
    (h : (makeOutgoingRoom turns rc reserved).1.outgoing.find? id = some r) :
    rc.outgoing.find? id = some r := by
  induction turns generalizing rc reserved with
  | zero => exact h
  | succ turns ih =>
    rw [makeOutgoingRoom] at h
    split at h
    · split at h
      · exact h
      · have hold := ih _ _ h
        rw [OrderedMap.find?_erase] at hold
        split at hold
        · cases hold
        · exact hold
    · exact h

theorem admitOutgoing_sub (rc : RemoteControl) (id : Id) (r : Outgoing)
    (h : rc.admitOutgoing.1.outgoing.find? id = some r) : rc.outgoing.find? id = some r := by
  rw [admitOutgoing] at h
  split at h
  · exact h
  · exact makeOutgoingRoom_sub _ _ _ _ _ h

theorem Kept.new {request : ControlRequest} (retries : ℕ) (wait : Time)
    (hmem : (id, request) ∈ submits) (hsmall : request.body.length ≤ controlMaxBody) :
    Kept submits served id { request, retries, wait } where
  origin := ⟨request, hmem, rfl, fun _ => rfl⟩
  small := hsmall
  sent _ := Nat.zero_le _
  last := ⟨trivial, .inr rfl, by simp⟩
  progress _ _ _ hne := absurd rfl hne
  ready _ hfinishing := by cases hfinishing
  truth _ hb := by cases hb

/-- `submit` drops old records and, unless it throws, adds a new one. -/
theorem submit_submits (id : Id) (request : ControlRequest) (retries : ℕ) (wait now : Time)
    (hkept : AllKept submits served rc) :
    ((rc.submit P id request retries wait now).2 = [] ∧
        Submits submits served heard rc (rc.submit P id request retries wait now)) ∨
      ∃ rc', .submitted id request ∈ (rc.submit P id request retries wait now).2 ∧
        (∀ i r, rc'.outgoing.find? i = some r →
          (i = id ∧ r.state = .receiving ∧ r.finishing = false ∧ r.result = none) ∨
            rc.outgoing.find? i = some r) ∧
        Submits ((id, request) :: submits) served heard rc' (rc.submit P id request retries wait now) := by
  have hroom : Submits submits served heard rc (rc.admitOutgoing.1, []) :=
    .dropping hkept (admitOutgoing_sub rc)
  rw [submit]
  split
  · exact .inl ⟨rfl, .dropping hkept fun _ _ h => h⟩
  dsimp only
  split
  · exact .inl ⟨rfl, hroom⟩
  split
  · exact .inl ⟨rfl, hroom⟩
  next op hop =>
  split
  · exact .inl ⟨rfl, hroom⟩
  next hvalid =>
  rw [not_or, not_or, not_not] at hvalid
  have hsmall : request.body.length ≤ controlMaxBody := by
    rw [hvalid.2.1]
    exact ControlDispatcher.parse_length_le hop
  generalize hrc' : ({ rc.admitOutgoing.1 with
    outgoing := rc.admitOutgoing.1.outgoing.insert id { request, retries, wait } } : RemoteControl) =
      rc'
  have hout : rc'.outgoing =
      rc.admitOutgoing.1.outgoing.insert id { request, retries, wait } := by rw [← hrc']
  have hkept' : ∀ i r, rc'.outgoing.find? i = some r →
      Kept ((id, request) :: submits) served i r := by
    intro i r hr
    rw [hout, OrderedMap.find?_insert] at hr
    split at hr
    next hi =>
      cases hr
      rw [hi]
      exact .new retries wait mem_cons_self hsmall
    next =>
      exact (hroom.kept i r hr).mono (subset_cons_self ..) fun _ h => h
  refine .inr ⟨rc', mem_cons_self, fun i r hr => ?_, .silent ?_ (by simp)⟩
  · rw [hout, OrderedMap.find?_insert] at hr
    split at hr
    next hi =>
      cases hr
      exact .inl ⟨hi, rfl, rfl, rfl⟩
    next => exact .inr (admitOutgoing_sub rc i r hr)
  · refine sendNext_submits now false hkept' fun r hr => ?_
    rw [hout, OrderedMap.find?_insert, if_pos rfl] at hr
    cases hr
    rfl

end Submits

end Tuntom.Control
