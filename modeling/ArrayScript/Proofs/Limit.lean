import ArrayScript.Proofs.Attribution
import ArrayScript.Proofs.Soundness

/-!
# `ArrayScript.Proofs.Limit`: the depth limit only cuts runs short

A call knows how deeply it is nested, and fails if that is too deep. Nothing else depends on the
depth. A run that starts less deep therefore goes exactly like one that starts deeper, up to the
point where the deeper one hits the limit, if it does.

* `Curtails` relates a run to one that starts less deep: they end alike, unless the first one fails
  at the limit. It survives putting runs one behind the other (`Curtails.bind`).
* `Site.Deeper.eval` and `Site.Deeper.execAll` carry it through code, by induction on the code,
  when it holds for the calls inside.
* `Program.curtails_call` closes the circle by induction on the frames that may still be opened.

`Program.callAt_eq_of_deeper` says this of calls at given depths. It also looks at a call in the
middle of a run, with other calls around it, and compares it to the same call made by a host.
-/

set_option autoImplicit false

namespace ArrayScript

open Code (Term Step Execution)

/-- Whether a run has failed because calls nest too deeply. -/
def Run.exceedsDepth {σ α : Type} : EStateM.Result Error σ α → Bool
  | .ok _ _ => false
  | .error e _ => e.cause.tooDeep

/-- Whether a run ends like another one, unless it fails because calls nest too deeply. -/
def Curtails {σ α : Type} (m m' : EStateM Error σ α) : Prop :=
  ∀ s, Run.exceedsDepth (m s) = true ∨ m' s = m s

namespace Curtails

variable {σ α β : Type}

/-- A run that has nothing to do with the depth of calls. -/
theorem refl (m : EStateM Error σ α) : Curtails m m :=
  fun _ => .inr rfl

/-- Runs after one another. -/
theorem bind {m m' : EStateM Error σ α} {k k' : α → EStateM Error σ β} (hm : Curtails m m')
    (hk : ∀ a, Curtails (k a) (k' a)) : Curtails (m >>= k) (m' >>= k') := by
  intro s
  show Run.exceedsDepth (EStateM.bind m k s) = true ∨ EStateM.bind m' k' s = EStateM.bind m k s
  unfold EStateM.bind
  rcases hm s with hdeep | heq
  · -- What has hit the limit in the first part does not get to the second one.
    cases hr : m s with
    | ok a s' =>
      rw [hr] at hdeep
      cases hdeep
    | error e s' =>
      rw [hr] at hdeep
      exact .inl hdeep
  · rw [heq]
    cases m s with
    | ok a s' => exact hk a s'
    | error e s' => exact .inr rfl

/-- Runs on the heap that read the frame. -/
theorem ofRun {run run' : Frame → Run α} (h : ∀ frame, Curtails (run frame) (run' frame)) :
    Curtails (Execution.ofRun run) (Execution.ofRun run') := by
  rintro ⟨frame, heap⟩
  unfold Execution.ofRun
  dsimp only
  rcases h frame heap with hdeep | heq
  · cases hr : run frame heap with
    | ok a heap' =>
      rw [hr] at hdeep
      cases hdeep
    | error e heap' =>
      rw [hr] at hdeep
      exact .inl hdeep
  · rw [heq]
    exact .inr rfl

end Curtails

/-- Whether two sites differ only in how deeply the calls inside are nested, and the first is the
deeper one. -/
structure Site.Deeper (site site' : Site) : Prop where
  program : site'.program = site.program
  current : site'.current = site.current
  enter : ∀ (f : Function) (args : List Value),
    Curtails (site.enter f args) (site'.enter f args)

namespace Site.Deeper

variable {site site' : Site}

/-- The sites have the same errors of their own. -/
theorem error_eq (h : site.Deeper site') : site'.error = site.error := by
  funext offset cause
  unfold Site.error
  rw [h.current]

theorem attempt {α : Type} (h : site.Deeper site') (offset : Nat) (r : Except Cause α) :
    Curtails (site.attempt offset r) (site'.attempt offset r) := by
  unfold Site.attempt
  rw [h.error_eq]
  exact .refl _

theorem read (h : site.Deeper site') (frame : Frame) (offset : Nat) (name : String)
    (slot : Nat) : Curtails (site.read frame offset name slot)
      (site'.read frame offset name slot) := by
  unfold Site.read
  rw [h.error_eq]
  exact .refl _

/-! ### Code -/

mutual

/-- The value of a term. Only calls of functions see the limit. -/
theorem eval (h : site.Deeper site') (frame : Frame) :
    ∀ t : Term, Curtails (t.eval site frame) (t.eval site' frame)
  | .number value => by
    rw [Term.eval, Term.eval]
    exact .refl _
  | .newArray offset sizes => by
    rw [Term.eval, Term.eval]
    exact .bind (h.evalSizes frame offset sizes) fun _ => .refl _
  | .list ty items => by
    rw [Term.eval, Term.eval]
    exact .bind (h.evalAll frame items) fun _ => .refl _
  | .slot offset name slot ty indices => by
    rw [Term.eval, Term.eval]
    refine .bind (h.read frame offset name slot) fun base => ?_
    refine .bind (h.evalNumbers frame offset indices) fun path => ?_
    exact .bind (.refl _) fun heap => h.attempt offset _
  | .call offset name callee ty args => by
    rw [Term.eval, Term.eval]
    refine .bind (h.evalAll frame args) fun values => ?_
    -- Both sites find the same callee. If it is a function, its call is where they can part.
    cases callee with
    | builtin b =>
      refine .bind (.refl _) fun heap => ?_
      exact .bind (h.attempt offset _) fun x => .refl _
    | self =>
      simp only [h.current]
      exact h.enter site.current values
    | user index =>
      simp only [h.program, h.error_eq]
      cases site.program.functions[index]? with
      | none => exact .refl _
      | some f => exact h.enter f values
  | .unary offset op operand => by
    rw [Term.eval, Term.eval]
    refine .bind (h.eval frame operand) fun v => ?_
    exact .bind (h.attempt offset _) fun x => .refl _
  | .binary offset op left right => by
    rw [Term.eval, Term.eval]
    refine .bind (h.eval frame left) fun v => ?_
    refine .bind (h.attempt offset _) fun x => ?_
    cases op.shortcut? x with
    | some result => exact .refl _
    | none =>
      refine .bind (h.eval frame right) fun w => ?_
      exact .bind (h.attempt offset _) fun y => .refl _

/-- Companion for several terms. -/
theorem evalAll (h : site.Deeper site') (frame : Frame) :
    ∀ ts : List Term, Curtails (Code.evalAll site frame ts) (Code.evalAll site' frame ts)
  | [] => by
    rw [Code.evalAll, Code.evalAll]
    exact .refl _
  | t :: ts => by
    rw [Code.evalAll, Code.evalAll]
    refine .bind (h.eval frame t) fun v => ?_
    exact .bind (h.evalAll frame ts) fun vs => .refl _

/-- Companion for several numbers. -/
theorem evalNumbers (h : site.Deeper site') (frame : Frame) (offset : Nat) :
    ∀ ts : List Term,
      Curtails (Code.evalNumbers site frame offset ts) (Code.evalNumbers site' frame offset ts)
  | [] => by
    rw [Code.evalNumbers, Code.evalNumbers]
    exact .refl _
  | t :: ts => by
    rw [Code.evalNumbers, Code.evalNumbers]
    refine .bind (h.eval frame t) fun v => ?_
    refine .bind (h.attempt offset _) fun x => ?_
    exact .bind (h.evalNumbers frame offset ts) fun xs => .refl _

/-- Companion for several sizes. -/
theorem evalSizes (h : site.Deeper site') (frame : Frame) (offset : Nat) :
    ∀ ts : List Term,
      Curtails (Code.evalSizes site frame offset ts) (Code.evalSizes site' frame offset ts)
  | [] => by
    rw [Code.evalSizes, Code.evalSizes]
    exact .refl _
  | t :: ts => by
    rw [Code.evalSizes, Code.evalSizes]
    refine .bind (h.eval frame t) fun v => ?_
    refine .bind (h.attempt offset _) fun size => ?_
    exact .bind (h.evalSizes frame offset ts) fun sizes => .refl _

end

theorem writeElement (h : site.Deeper site') (frame : Frame) (offset : Nat) (name : String)
    (slot : Nat) (path : List Float) (last : Float) (v : Value) :
    Curtails (Code.writeElement site frame offset name slot path last v)
      (Code.writeElement site' frame offset name slot path last v) := by
  unfold Code.writeElement
  refine .bind (h.read frame offset name slot) fun base => ?_
  refine .bind (.refl _) fun heap => ?_
  refine .bind (h.attempt offset _) fun container => ?_
  refine .bind (.refl _) fun heap => ?_
  exact .bind (h.attempt offset _) fun cell => .refl _

mutual

/-- A statement, and where it leads to. -/
theorem exec (h : site.Deeper site') :
    ∀ step : Step, Curtails (step.exec site) (step.exec site')
  | .branch offset condition pass fail => by
    rw [Step.exec, Step.exec]
    refine .bind (.ofRun fun frame => h.eval frame condition) fun v => ?_
    refine .bind (.ofRun fun _ => h.attempt offset _) fun x => ?_
    -- The condition has the same value on both sides, so the same arm runs.
    cases Number.truthy x with
    | true => exact h.execAll pass
    | false => exact h.execAll fail
  | .assign offset name slot indices value => by
    rw [Step.exec, Step.exec]
    refine .bind (.ofRun fun frame => h.evalNumbers frame offset indices) fun path => ?_
    refine .bind (.ofRun fun frame => h.eval frame value) fun v => ?_
    cases path.getLast? with
    | none => exact .refl _
    | some last =>
      exact .bind (.ofRun fun frame => h.writeElement frame offset name slot _ last v)
        fun _ => .refl _
  | .ret value => by
    rw [Step.exec, Step.exec]
    exact .bind (.ofRun fun frame => h.eval frame value) fun v => .refl _

/-- Companion for a block. -/
theorem execAll (h : site.Deeper site') :
    ∀ steps : List Step, Curtails (Code.execAll site steps) (Code.execAll site' steps)
  | [] => by
    rw [Code.execAll, Code.execAll]
    exact .refl _
  | step :: rest => by
    rw [Code.execAll, Code.execAll]
    refine .bind (h.exec step) fun flow => ?_
    cases flow with
    | returned v => exact .refl _
    | next => exact h.execAll rest

end

end Site.Deeper

/-! ### Calls -/

namespace Program

/-- A call goes like one with more room, unless it runs out of room. -/
theorem curtails_call (p : Program) {room room' : Nat} (hle : room ≤ room') (f : Function)
    (args : List Value) : Curtails (p.call room f args) (p.call room' f args) := by
  induction room generalizing room' f args with
  | zero => exact fun heap => .inl rfl
  | succ room ih =>
    cases room' with
    | zero => omega
    | succ room' =>
      -- The calls inside have one frame less on both sides.
      have hsite : Site.Deeper ⟨p, f, p.call room⟩ ⟨p, f, p.call room'⟩ :=
        ⟨rfl, rfl, fun g values => ih (by omega) g values⟩
      intro heap
      rw [call, call]
      dsimp only
      rcases hsite.execAll f.body ⟨f.frame args, heap⟩ with hdeep | heq
      · cases hrun : Code.execAll ⟨p, f, p.call room⟩ f.body ⟨f.frame args, heap⟩ with
        | ok flow state =>
          rw [hrun] at hdeep
          cases hdeep
        | error e state =>
          rw [hrun] at hdeep
          exact .inl hdeep
      · rw [heq]
        exact .inr rfl

/-- Calls a function at a given depth. A host calls at depth zero, and a call inside is one deeper
than the call around it. -/
def callAt (p : Program) (depth : Nat) (f : Function) (args : List Value) : Run Value :=
  p.call (maxCallDepth + 1 - depth) f args

end Program

/-! ### Calls inside other calls -/

/-- The function that a machine is about to call, the arguments, and the machine around the call. -/
def Status.calling? (p : Program) : Status → Option (Function × List Value × Machine)
  | running (.call _ _ callee args) m => (m.callee? p callee).map fun f => (f, args, m)
  | _ => none

/-- A call inside other calls is one deeper than the innermost of them. -/
theorem Status.reaches_callAt {p : Program} {s : Status} {f : Function} {args : List Value}
    {m : Machine} (hcalling : s.calling? p = some (f, args, m))
    (hframes : s.FramesLE (maxCallDepth + 1)) :
    Reaches p s
      (follow m.openNames id (fun v heap => { m with heap }.give v)
        (p.callAt (m.depth + 1) f args m.heap)) := by
  cases s with
  | halted outcome => cases hcalling
  | running focus m' =>
    cases focus with
    | statement => cases hcalling
    | term t => cases hcalling
    | value v => cases hcalling
    | call offset name callee values =>
      obtain ⟨g, hcallee, hcalling⟩ := Option.map_eq_some_iff.mp hcalling
      cases hcalling
      have hdepth : m.depth + 1 ≤ maxCallDepth + 1 := hframes
      -- The frames that are open and the room that is left make up the limit.
      have hroom : m.HasRoom (maxCallDepth + 1 - (m.depth + 1)) := by
        show m.depth + (maxCallDepth + 1 - (m.depth + 1)) = maxCallDepth
        omega
      have hstep : m.step p (.call offset name callee args) = m.enter f args :=
        Machine.call_eq_enter hcallee offset name args
      refine .head ?_
      rw [hstep]
      exact Machine.returns p _ m f args hroom

/-- The depth limit only cuts runs short. Whatever function of whatever program is called, with any
arguments and on any heap: a call that does not fail at the limit has the same outcome and leaves
the same heap when it is made at any smaller depth.

In particular this holds for every call that is made in the course of a host's call of a function
`f`, however many other calls are open around it. If it comes back with a result, then a host that
makes it on the same heap gets the same result and the same heap. -/
theorem Program.callAt_eq_of_deeper (p : Program) :
    (∀ (f : Function) (args : List Value) (heap : Heap) (depth depth' : Nat), depth ≤ depth' →
      Run.exceedsDepth (p.callAt depth' f args heap) = false →
      p.callAt depth f args heap = p.callAt depth' f args heap) ∧
    ∀ (f g : Function) (args values : List Value) (heap : Heap) (count : Nat) (m : Machine),
      ((Status.start f args heap).run p count).calling? p = some (g, values, m) →
      ∀ (v : Value) (heap' : Heap), p.callAt (m.depth + 1) g values m.heap = .ok v heap' →
        Status.Reaches p ((Status.start f args heap).run p count)
          ({ m with heap := heap' }.give v) ∧
        p.callAt 0 g values m.heap = .ok v heap' := by
  have hshort : ∀ (f : Function) (args : List Value) (heap : Heap) (depth depth' : Nat),
      depth ≤ depth' → Run.exceedsDepth (p.callAt depth' f args heap) = false →
      p.callAt depth f args heap = p.callAt depth' f args heap := by
    intro f args heap depth depth' hle hshallow
    -- A smaller depth leaves more room, and more room changes only runs that had too little.
    have hroom : maxCallDepth + 1 - depth' ≤ maxCallDepth + 1 - depth := by omega
    rcases p.curtails_call hroom f args heap with hdeep | heq
    · rw [callAt, hdeep] at hshallow
      cases hshallow
    · exact heq
  refine ⟨hshort, ?_⟩
  intro f g args values heap count m hcalling v heap' hok
  have hframes := Status.framesLE_run p (Status.framesLE_start f args heap) count
  have hreaches := Status.reaches_callAt hcalling hframes
  rw [hok] at hreaches
  refine ⟨hreaches, ?_⟩
  rw [hshort g values m.heap 0 (m.depth + 1) (Nat.zero_le _) (by rw [hok]; rfl), hok]

/-- A function that calls itself a given number of times. -/
def Source.factorial : Source :=
  ⟨"factorial", "fact(n: number) { if (n < 1) { return 1; } return n * fact(n - 1); }"⟩

/-- Three calls fit below a call at depth 253, which has the outcome of a host's call, and do not
fit below one at depth 254. In the host's call, the second call inside is one at depth 2, and has
the outcome that it would have for a host. -/
theorem Program.callAt_eq_of_deeper_factorial :
    ∃ p f, Source.factorial.compile = .ok p ∧ p.functions = [f] ∧
      Run.exceedsDepth (p.callAt 253 f [.number 3] .empty) = false ∧
      Run.exceedsDepth (p.callAt 254 f [.number 3] .empty) = true ∧
      p.callAt 0 f [.number 3] .empty = p.callAt 253 f [.number 3] .empty ∧
      ∃ count g values m v heap,
        ((Status.start f [.number 3] .empty).run p count).calling? p = some (g, values, m) ∧
        m.depth = 1 ∧ p.callAt 2 g values m.heap = .ok v heap ∧
        p.callAt 0 g values m.heap = .ok v heap := by
  have hrun : (Source.factorial.compile.toOption.map fun p => p.functions.map fun f =>
      !Run.exceedsDepth (p.callAt 253 f [.number 3] .empty) &&
      Run.exceedsDepth (p.callAt 254 f [.number 3] .empty) &&
      (((Status.start f [.number 3] .empty).run p 37).calling? p).any fun call =>
        call.2.2.depth == 1 && Run.succeeds (p.callAt 2 call.1 call.2.1 call.2.2.heap))
      = some [true] := by
    decide +kernel
  obtain ⟨p, f, hcompile, hf, hchecks⟩ := Source.exists_of_compile hrun
  simp only [Bool.and_eq_true, Bool.not_eq_true', Option.any_eq_true, beq_iff_eq] at hchecks
  obtain ⟨⟨hshallow, hdeep⟩, ⟨g, values, m⟩, hcalling, hdepth, hsucceeds⟩ := hchecks
  refine ⟨p, f, hcompile, hf, hshallow, hdeep, ?_, 37, g, values, m, ?_⟩
  · exact (p.callAt_eq_of_deeper).1 f _ _ 0 253 (by decide) hshallow
  · dsimp only at hdepth hsucceeds
    cases hcall : p.callAt 2 g values m.heap with
    | error e heap =>
      rw [hcall] at hsucceeds
      cases hsucceeds
    | ok v heap =>
      have hinner : p.callAt (m.depth + 1) g values m.heap = .ok v heap := by
        rw [hdepth]
        exact hcall
      have hhost := (p.callAt_eq_of_deeper).2 f g _ values _ 37 m hcalling v heap hinner
      exact ⟨v, heap, hcalling, hdepth, rfl, hhost.2⟩

end ArrayScript
