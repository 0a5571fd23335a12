import ArrayScript.Proofs.Acyclic

/-!
# `ArrayScript.Proofs.Pledge`: what runs promise from start to end

A run changes the state step by step, and fails half way if it has to. What can be said of all its
steps at once is a `Pledge`: a relation between the state in front of a step and the state behind
it, and a condition on the errors. A run ends by a pledge (`Pledge.Ends`) if its last state is
related to its first one, whether it succeeds or fails, and a result satisfies a condition of its
own. Since the relation composes, so do the runs that end by it (`Ends.bind`).

Two runs can be followed side by side. They end alike (`Pledge.EndsAlike`) if both succeed or both
fail for the same reason, in states that are still related to each other.

A pledge about the heap is also one about the states of running code, which have a frame next to the
heap (`Pledge.lift`).
-/

set_option autoImplicit false

namespace ArrayScript

/-- A relation between earlier and later states that holds along every run, and a condition on the
errors that a run can end in. -/
structure Pledge (σ : Type) where
  grows : σ → σ → Prop
  errors : Error → Prop
  refl : ∀ s, grows s s
  trans : ∀ {s₀ s₁ s₂}, grows s₀ s₁ → grows s₁ s₂ → grows s₀ s₂

namespace Pledge

section
variable {σ α β : Type} {P : Pledge σ} {s : σ} {post : σ → α → Prop} {goal : σ → β → Prop}

/-- Whether a run that started in the state `s` has ended by the pledge, with a result that
satisfies `post` if there is one. -/
def Ends (P : Pledge σ) (s : σ) (post : σ → α → Prop) : EStateM.Result Error σ α → Prop
  | .ok a s' => P.grows s s' ∧ post s' a
  | .error e s' => P.grows s s' ∧ P.errors e

namespace Ends

/-- Giving a value changes nothing. -/
theorem pure {a : α} (h : post s a) : P.Ends s post ((Pure.pure a : EStateM Error σ α) s) :=
  ⟨P.refl s, h⟩

/-- Failing changes nothing. -/
theorem throw {e : Error} (h : P.errors e) :
    P.Ends s post ((MonadExcept.throw e : EStateM Error σ α) s) :=
  ⟨P.refl s, h⟩

/-- Of a result one may say less. -/
theorem imp {goal : σ → α → Prop} {r : EStateM.Result Error σ α} (h : P.Ends s post r)
    (himp : ∀ s' a, post s' a → goal s' a) : P.Ends s goal r := by
  cases r with
  | ok a s' => exact ⟨h.1, himp s' a h.2⟩
  | error e s' => exact h

/-- A run in two parts ends by the pledge if the second one does from wherever the first can
end. -/
theorem bind {m : EStateM Error σ α} {k : α → EStateM Error σ β} (hm : P.Ends s post (m s))
    (hk : ∀ s' a, P.grows s s' → post s' a → P.Ends s' goal (k a s')) :
    P.Ends s goal ((m >>= k) s) := by
  show P.Ends s goal (EStateM.bind m k s)
  unfold EStateM.bind
  cases hr : m s with
  | error e s' =>
    rw [hr] at hm
    exact hm
  | ok a s' =>
    rw [hr] at hm
    have hrest := hk s' a hm.1 hm.2
    dsimp only
    -- The second part is related to the first state through the one in between.
    cases hr' : k a s' with
    | error e s'' =>
      rw [hr'] at hrest
      exact ⟨P.trans hm.1 hrest.1, hrest.2⟩
    | ok b s'' =>
      rw [hr'] at hrest
      exact ⟨P.trans hm.1 hrest.1, hrest.2⟩

end Ends

end

/-! ### Two runs side by side -/

section
variable {σ α β γ δ : Type} {P : Pledge σ} {rel : σ → σ → Prop} {s t : σ}
  {post : σ → α → β → Prop} {goal : σ → γ → δ → Prop}

/-- Whether two runs have ended alike: in related states, and either with two results that satisfy
`post` or with the same error. The first one has kept the pledge since the state `s`. -/
def EndsAlike (P : Pledge σ) (rel : σ → σ → Prop) (s : σ) (post : σ → α → β → Prop) :
    EStateM.Result Error σ α → EStateM.Result Error σ β → Prop
  | .ok a s', .ok b t' => P.grows s s' ∧ rel s' t' ∧ post s' a b
  | .error e s', .error e' t' => P.grows s s' ∧ rel s' t' ∧ P.errors e ∧ e' = e
  | _, _ => False

namespace EndsAlike

/-- Two results that satisfy `post` together. -/
theorem pure {a : α} {b : β} (hrel : rel s t) (h : post s a b) :
    P.EndsAlike rel s post ((Pure.pure a : EStateM Error σ α) s)
      ((Pure.pure b : EStateM Error σ β) t) :=
  ⟨P.refl s, hrel, h⟩

/-- The same error twice. -/
theorem throw {e : Error} (hrel : rel s t) (h : P.errors e) :
    P.EndsAlike rel s post ((MonadExcept.throw e : EStateM Error σ α) s)
      ((MonadExcept.throw e : EStateM Error σ β) t) :=
  ⟨P.refl s, hrel, h, rfl⟩

/-- What has ended alike since a later state has ended alike since an earlier one. -/
theorem of_grows {s₀ : σ} {r : EStateM.Result Error σ α} {r' : EStateM.Result Error σ β}
    (hgrows : P.grows s₀ s) (h : P.EndsAlike rel s post r r') : P.EndsAlike rel s₀ post r r' := by
  cases r with
  | ok a s' =>
    cases r' with
    | ok b t' => exact ⟨P.trans hgrows h.1, h.2⟩
    | error e t' => exact h
  | error e s' =>
    cases r' with
    | ok b t' => exact h
    | error e' t' => exact ⟨P.trans hgrows h.1, h.2⟩

/-- Runs in two parts end alike if their second parts do from wherever the first can end. -/
theorem bind {m : EStateM Error σ α} {m' : EStateM Error σ β} {k : α → EStateM Error σ γ}
    {k' : β → EStateM Error σ δ} (hm : P.EndsAlike rel s post (m s) (m' t))
    (hk : ∀ s' t' a b, P.grows s s' → rel s' t' → post s' a b →
      P.EndsAlike rel s' goal (k a s') (k' b t')) :
    P.EndsAlike rel s goal ((m >>= k) s) ((m' >>= k') t) := by
  show P.EndsAlike rel s goal (EStateM.bind m k s) (EStateM.bind m' k' t)
  unfold EStateM.bind
  cases hr : m s with
  | ok a s' =>
    cases hr' : m' t with
    | ok b t' =>
      rw [hr, hr'] at hm
      exact (hk s' t' a b hm.1 hm.2.1 hm.2.2).of_grows hm.1
    | error e t' =>
      rw [hr, hr'] at hm
      exact hm.elim
  | error e s' =>
    cases hr' : m' t with
    | ok b t' =>
      rw [hr, hr'] at hm
      exact hm.elim
    | error e' t' =>
      rw [hr, hr'] at hm
      exact hm

end EndsAlike

end

/-! ### Computations on the heap -/

section
variable {α β : Type} {P : Pledge Heap} {heap : Heap} {post : Heap → α → Prop}
  {goal : Heap → β → Prop}

/-- A run that first looks at the heap sees the one that it starts on. -/
theorem Ends.get_bind {k : Heap → Run β} (h : P.Ends heap goal (k heap heap)) :
    P.Ends heap goal ((get >>= k) heap) :=
  h

/-- Two runs that first look at the heap see those that they start on. -/
theorem EndsAlike.get_bind {γ : Type} {rel : Heap → Heap → Prop} {heap₂ : Heap}
    {goal : Heap → β → γ → Prop} {k : Heap → Run β} {k' : Heap → Run γ}
    (h : P.EndsAlike rel heap goal (k heap heap) (k' heap₂ heap₂)) :
    P.EndsAlike rel heap goal ((get >>= k) heap) ((get >>= k') heap₂) :=
  h

/-- The first of two runs that end alike leaves a heap that is related to the one it started on. -/
theorem EndsAlike.heapAfter {rel : Heap → Heap → Prop} {goal : Heap → α → β → Prop} {m : Run α}
    {r : EStateM.Result Error Heap β} (h : P.EndsAlike rel heap goal (m heap) r) :
    P.grows heap (m.heapAfter heap) := by
  unfold Run.heapAfter
  cases hr : m heap with
  | ok a heap' =>
    rw [hr] at h
    cases r with
    | ok b heap₂ => exact h.1
    | error e heap₂ => exact h.elim
  | error e heap' =>
    rw [hr] at h
    cases r with
    | ok b heap₂ => exact h.elim
    | error e' heap₂ => exact h.1

/-- A run that ends by a pledge leaves a heap that is related to the first one. -/
theorem Ends.heapAfter {m : Run α} (h : P.Ends heap post (m heap)) :
    P.grows heap (m.heapAfter heap) := by
  unfold Run.heapAfter
  cases hr : m heap with
  | ok a heap' =>
    rw [hr] at h
    exact h.1
  | error e heap' =>
    rw [hr] at h
    exact h.1

end

/-! ### Running code -/

/-- A pledge about the heap, as one about states. -/
def lift (P : Pledge Heap) : Pledge Code.State where
  grows s s' := P.grows s.heap s'.heap
  errors := P.errors
  refl s := P.refl s.heap
  trans h h' := P.trans h h'

section
variable {α : Type} {P : Pledge Heap} {heap : Heap} {frame : Frame} {post : Heap → α → Prop}

/-- A run on the heap leaves the frame alone. -/
theorem Ends.ofRun {run : Frame → Run α} (h : P.Ends heap post (run frame heap)) :
    P.lift.Ends ⟨frame, heap⟩ (fun state a => state.frame = frame ∧ post state.heap a)
      (Code.Execution.ofRun run ⟨frame, heap⟩) := by
  unfold Code.Execution.ofRun
  dsimp only
  cases hr : run frame heap with
  | ok a heap' =>
    rw [hr] at h
    exact ⟨h.1, rfl, h.2⟩
  | error e heap' =>
    rw [hr] at h
    exact h

/-- Assigning a variable leaves the heap alone. -/
theorem Ends.assign {slot : Nat} {v : Value} :
    P.lift.Ends ⟨frame, heap⟩
      (fun state _ => state = ⟨frame.setIfInBounds slot (some v), heap⟩)
      (Code.Execution.assign slot v ⟨frame, heap⟩) :=
  ⟨P.refl heap, rfl⟩

end

section
variable {α β : Type} {P : Pledge Heap} {rel : Heap → Heap → Prop} {heap heap₂ : Heap}
  {frame frame₂ : Frame} {post : Heap → α → β → Prop}

/-- Runs on the heap that end alike do so next to frames, which they leave alone. What relates the
frames may depend on the heap, but has to survive its changes. -/
theorem EndsAlike.ofRun {run : Frame → Run α} {run' : Frame → Run β}
    {states : Code.State → Code.State → Prop}
    (h : P.EndsAlike rel heap post (run frame heap) (run' frame₂ heap₂))
    (hstates : ∀ h h₂, P.grows heap h → rel h h₂ → states ⟨frame, h⟩ ⟨frame₂, h₂⟩) :
    P.lift.EndsAlike states ⟨frame, heap⟩
      (fun state a b => state.frame = frame ∧ post state.heap a b)
      (Code.Execution.ofRun run ⟨frame, heap⟩) (Code.Execution.ofRun run' ⟨frame₂, heap₂⟩) := by
  unfold Code.Execution.ofRun
  dsimp only
  cases hr : run frame heap with
  | ok a h' =>
    cases hr' : run' frame₂ heap₂ with
    | ok b h₂' =>
      rw [hr, hr'] at h
      exact ⟨h.1, hstates h' h₂' h.1 h.2.1, rfl, h.2.2⟩
    | error e h₂' =>
      rw [hr, hr'] at h
      exact h.elim
  | error e h' =>
    cases hr' : run' frame₂ heap₂ with
    | ok b h₂' =>
      rw [hr, hr'] at h
      exact h.elim
    | error e' h₂' =>
      rw [hr, hr'] at h
      exact ⟨h.1, hstates h' h₂' h.1 h.2.1, h.2.2⟩

end

end Pledge

end ArrayScript
