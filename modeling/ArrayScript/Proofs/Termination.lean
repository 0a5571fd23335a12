import ArrayScript.Proofs.Machine
import ArrayScript.Proofs.Program
import ArrayScript.Source

/-!
# `ArrayScript.Proofs.Termination`: every call ends

The machine of `ArrayScript.Proofs.Machine` halts, whatever function a host calls, with whatever
arguments and heap. Its outcome is the one that evaluation gives (`Program.invoke_terminates`).

The argument is an induction on two things at once, the calls that may still be opened and the code
that is being run. A machine of depth `d` leaves room for `maxCallDepth - d` further calls, and
evaluation is given that number (`Machine.HasRoom`). Nothing inside an expression or a statement
changes the depth, and each call moves both numbers by one.

* `Machine.reaches_eval`: a machine that is asked for the value of a term comes back with it.
* `Machine.reaches_execAll`: a machine runs statements to the end of the block or to a return.
* `Machine.reaches_enter`: a machine that enters a function comes back with its result, by
  induction on the room that is left.
-/

set_option autoImplicit false

namespace ArrayScript

open Code (Term Step)

namespace Status

variable {p : Program} {s s' s'' : Status}

/-- What happens behind an outcome: a success is followed by `next`, and an error leaves the calls
that are open and halts. States hold a heap, among other things. -/
def follow {σ α : Type} (calls : List String) (heap : σ → Heap) (next : α → σ → Status) :
    EStateM.Result Error σ α → Status
  | .ok a state => next a state
  | .error e state => halted (.error (e.through calls) (heap state))

/-- Whether some number of steps leads from one status to another. -/
def Reaches (p : Program) (s s' : Status) : Prop :=
  ∃ count, s.run p count = s'

namespace Reaches

/-- Without a step one stays where one is. -/
theorem refl (s : Status) : Reaches p s s :=
  ⟨0, rfl⟩

/-- Steps compose. -/
theorem trans (h : Reaches p s s') (h' : Reaches p s' s'') : Reaches p s s'' := by
  obtain ⟨count, rfl⟩ := h
  obtain ⟨count', rfl⟩ := h'
  exact ⟨count' + count, Function.iterate_add_apply (next p) count' count s⟩

/-- What is reached behind the first step is reached. -/
theorem head {m : Machine} {focus : Machine.Focus} (h : Reaches p (m.step p focus) s) :
    Reaches p (running focus m) s :=
  trans ⟨1, rfl⟩ h

/-- A computation in two parts is reached in two parts. -/
theorem bind {σ α β : Type} {calls : List String} {heap : σ → Heap} {next : α → σ → Status}
    {goal : β → σ → Status} {m : EStateM Error σ α} {k : α → EStateM Error σ β} {state : σ}
    (h : Reaches p s (follow calls heap next (m state)))
    (h' : ∀ a state', Reaches p (next a state') (follow calls heap goal (k a state'))) :
    Reaches p s (follow calls heap goal ((m >>= k) state)) := by
  show Reaches p s (follow calls heap goal (EStateM.bind m k state))
  unfold EStateM.bind
  cases hm : m state with
  | ok a state' =>
    rw [hm] at h
    exact h.trans (h' a state')
  | error e state' =>
    -- An error of the first part is one of the whole.
    rw [hm] at h
    exact h
end Reaches

end Status

open Status (Reaches follow)

namespace Machine

variable {p : Program} {room : Nat} {m : Machine}

/-- The surroundings of the code that the machine runs, when `room` more calls may be opened. -/
def site (m : Machine) (p : Program) (room : Nat) : Site :=
  ⟨p, m.current.function, p.call room⟩

/-- Whether the calls that are open and those that may still be opened make up the limit. -/
def HasRoom (m : Machine) (room : Nat) : Prop :=
  m.depth + room = maxCallDepth

/-- An operation that may fail does so for the machine as for the evaluator. -/
theorem reaches_attempt {α β : Type} {offset : Nat} {r : Except Cause α} {next : α → Status}
    {goal : β → Heap → Status} {k : α → Run β}
    (h : ∀ a, Reaches p (next a) (follow m.openNames id goal (k a m.heap))) :
    Reaches p (m.attempt offset r next)
      (follow m.openNames id goal (((m.site p room).attempt offset r >>= k) m.heap)) := by
  cases r with
  | ok a => exact h a
  | error cause => exact .refl _

/-- The result of an operation that may fail is handed over. -/
theorem reaches_give {offset : Nat} {r : Except Cause Value} :
    Reaches p (m.attempt offset r m.give)
      (follow m.openNames id (fun v heap => { m with heap }.give v)
        ((m.site p room).attempt offset r m.heap)) := by
  cases r with
  | ok v => exact .refl _
  | error cause => exact .refl _

/-- A variable is read by the machine as by the evaluator. -/
theorem read_eq (offset : Nat) (name : String) (slot : Nat) :
    (m.site p room).read m.current.frame offset name slot
      = (m.site p room).attempt offset (m.read name slot) := by
  unfold Site.read read
  rcases m.current.frame[slot]? with _ | _ | v
  · rfl
  · rfl
  · rfl

/-- Whether a machine with room for more calls comes back from every function that it enters, with
the outcome that evaluation gives. -/
def Returns (p : Program) (room : Nat) : Prop :=
  ∀ (m : Machine) (f : Function) (args : List Value), m.HasRoom room →
    Reaches p (m.enter f args)
      (follow m.openNames id (fun v heap => { m with heap }.give v) (p.call room f args m.heap))

/-! ### Expressions -/

mutual

/-- A machine that is asked for the value of a term comes back with it. -/
theorem reaches_eval (hreturns : Returns p room) :
    ∀ (t : Term) (m : Machine), m.HasRoom room →
      Reaches p (.running (.term t) m)
        (follow m.openNames id (fun v heap => { m with heap }.give v)
          (t.eval (m.site p room) m.current.frame m.heap))
  | .number value, m, hroom => by
    rw [Term.eval]
    exact .head (.refl _)
  | .newArray offset sizes, m, hroom => by
    rw [Term.eval]
    exact .head (.bind (reaches_evalSizes hreturns sizes offset [] m hroom) fun _ _ => .refl _)
  | .list ty items, m, hroom => by
    rw [Term.eval]
    exact .head (.bind (reaches_evalAll hreturns items .list [] m hroom) fun _ _ => .refl _)
  | .slot offset name slot ty indices, m, hroom => by
    rw [Term.eval, read_eq]
    refine .head (reaches_attempt fun base => ?_)
    refine .bind (reaches_evalNumbers hreturns indices offset (.element base) [] m hroom) ?_
    intro path heap
    exact reaches_give (m := { m with heap })
  | .call offset name callee ty args, m, hroom => by
    rw [Term.eval]
    refine .head (.bind (reaches_evalAll hreturns args (.call offset name callee) [] m hroom) ?_)
    intro values heap
    refine .head ?_
    cases callee with
    | builtin b => exact reaches_attempt (m := { m with heap }) fun x => .refl _
    -- A call of a function comes back by assumption, since there is room for it.
    | self => exact hreturns { m with heap } m.current.function values hroom
    | user index =>
      unfold step call site
      dsimp only
      cases p.functions[index]? with
      | none => exact .refl _
      | some f => exact hreturns { m with heap } f values hroom
  | .unary offset op operand, m, hroom => by
    rw [Term.eval]
    refine .head (.bind (reaches_eval hreturns operand (m.hold (.operand offset op)) hroom) ?_)
    intro v heap
    exact .head (reaches_attempt (m := { m with heap }) fun x => .refl _)
  | .binary offset op left right, m, hroom => by
    rw [Term.eval]
    refine .head
      (.bind (reaches_eval hreturns left (m.hold (.leftOperand offset op right)) hroom) ?_)
    intro v heap
    refine .head (reaches_attempt (m := { m with heap }) fun x => ?_)
    cases op.shortcut? x with
    | some result => exact .refl _
    | none =>
      -- The machine goes on in the heap that the left operand has left behind.
      have hright := reaches_eval hreturns right
        ({ m with heap }.hold (.rightOperand offset op x)) hroom
      refine .bind hright ?_
      intro w heap'
      exact .head (reaches_attempt (m := { m with heap := heap' }) fun y => .refl _)

/-- Companion for several values. -/
theorem reaches_evalAll (hreturns : Returns p room) :
    ∀ (ts : List Term) (use : ValuesUse) (done : List Value) (m : Machine), m.HasRoom room →
      Reaches p (m.forValues use done ts)
        (follow m.openNames id
          (fun values heap => { m with heap }.forValues use (done ++ values) [])
          (Code.evalAll (m.site p room) m.current.frame ts m.heap))
  | [], use, done, m, hroom => by
    rw [Code.evalAll]
    show Reaches p (m.forValues use done []) (m.forValues use (done ++ []) [])
    rw [List.append_nil]
    exact .refl _
  | t :: ts, use, done, m, hroom => by
    rw [Code.evalAll]
    refine .bind (reaches_eval hreturns t (m.hold (.values use done ts)) hroom) ?_
    intro v heap
    refine .head (.bind (reaches_evalAll hreturns ts use (done ++ [v]) { m with heap } hroom) ?_)
    intro values heap'
    rw [List.append_assoc]
    exact .refl _

/-- Companion for several numbers. -/
theorem reaches_evalNumbers (hreturns : Returns p room) :
    ∀ (ts : List Term) (offset : Nat) (use : NumbersUse) (done : List Float) (m : Machine),
      m.HasRoom room →
      Reaches p (m.forNumbers offset use done ts)
        (follow m.openNames id
          (fun path heap => { m with heap }.forNumbers offset use (done ++ path) [])
          (Code.evalNumbers (m.site p room) m.current.frame offset ts m.heap))
  | [], offset, use, done, m, hroom => by
    rw [Code.evalNumbers]
    show Reaches p (m.forNumbers offset use done []) (m.forNumbers offset use (done ++ []) [])
    rw [List.append_nil]
    exact .refl _
  | t :: ts, offset, use, done, m, hroom => by
    rw [Code.evalNumbers]
    refine .bind (reaches_eval hreturns t (m.hold (.numbers offset use done ts)) hroom) ?_
    intro v heap
    refine .head (reaches_attempt (m := { m with heap }) fun x => ?_)
    refine .bind (reaches_evalNumbers hreturns ts offset use (done ++ [x]) { m with heap } hroom) ?_
    intro path heap'
    rw [List.append_assoc]
    exact .refl _

/-- Companion for several sizes. -/
theorem reaches_evalSizes (hreturns : Returns p room) :
    ∀ (ts : List Term) (offset : Nat) (done : List Nat) (m : Machine), m.HasRoom room →
      Reaches p (m.forSizes offset done ts)
        (follow m.openNames id
          (fun sizes heap => { m with heap }.forSizes offset (done ++ sizes) [])
          (Code.evalSizes (m.site p room) m.current.frame offset ts m.heap))
  | [], offset, done, m, hroom => by
    rw [Code.evalSizes]
    show Reaches p (m.forSizes offset done []) (m.forSizes offset (done ++ []) [])
    rw [List.append_nil]
    exact .refl _
  | t :: ts, offset, done, m, hroom => by
    rw [Code.evalSizes]
    refine .bind (reaches_eval hreturns t (m.hold (.sizes offset done ts)) hroom) ?_
    intro v heap
    refine .head (reaches_attempt (m := { m with heap }) fun size => ?_)
    refine .bind (reaches_evalSizes hreturns ts offset (done ++ [size]) { m with heap } hroom) ?_
    intro sizes heap'
    rw [List.append_assoc]
    exact .refl _

end

/-! ### Statements -/

/-- The variables of the current call and the heap. -/
def state (m : Machine) : Code.State :=
  ⟨m.current.frame, m.heap⟩

/-- The machine with other variables in the current call, and another heap. -/
def withState (m : Machine) (state : Code.State) : Machine :=
  { m with current := { m.current with frame := state.frame }, heap := state.heap }

/-- Where the machine is behind a statement: in front of the `rest`, or at the end of the call. -/
def resume (m : Machine) (rest : List Step) : Code.Flow → Status
  | .next => .running .statement (m.withSteps rest)
  | .returned v => .running (.value v) (m.withSteps [])

/-- A computation that reads the frame is reached like one on the heap. -/
theorem reaches_ofRun {α β : Type} {calls : List String} {s : Status} {state : Code.State}
    {run : Frame → Run α} {next : α → Heap → Status} {goal : β → Code.State → Status}
    {k : α → Code.Execution β}
    (h : Reaches p s (follow calls id next (run state.frame state.heap)))
    (h' : ∀ a heap, Reaches p (next a heap)
      (follow calls Code.State.heap goal (k a { state with heap }))) :
    Reaches p s (follow calls Code.State.heap goal ((.ofRun run >>= k) state)) := by
  show Reaches p s
    (follow calls Code.State.heap goal (EStateM.bind (Code.Execution.ofRun run) k state))
  unfold EStateM.bind Code.Execution.ofRun
  obtain ⟨frame, heap⟩ := state
  dsimp only at h h' ⊢
  cases hr : run frame heap with
  | ok a heap' =>
    rw [hr] at h
    exact h.trans (h' a heap')
  | error e heap' =>
    rw [hr] at h
    exact h

/-- An operation that may fail does so for the machine as between statements. -/
theorem reaches_attempt_ofRun {α β : Type} {offset : Nat} {r : Except Cause α}
    {next : α → Status} {goal : β → Code.State → Status} {k : α → Code.Execution β}
    (h : ∀ a, Reaches p (next a) (follow m.openNames Code.State.heap goal (k a m.state))) :
    Reaches p (m.attempt offset r next)
      (follow m.openNames Code.State.heap goal
        ((.ofRun (fun _ => (m.site p room).attempt offset r) >>= k) m.state)) := by
  cases r with
  | ok a => exact h a
  | error cause => exact .refl _

/-- The machine looks for the cell of an assignment in one go, and the evaluator step by step. -/
theorem reaches_writeElement {offset : Nat} {name : String} {slot : Nat} {path : List Float}
    {last : Float} {v : Value} (next : Unit → Heap → Status) :
    Reaches p
      (m.attempt offset (m.locate name slot path last) fun cell => next () (m.heap.write cell v))
      (follow m.openNames id next
        (Code.writeElement (m.site p room) m.current.frame offset name slot path last v
          m.heap)) := by
  unfold Code.writeElement locate
  rw [read_eq]
  cases m.read name slot with
  | error cause => exact .refl _
  | ok base =>
    show Reaches p
      (m.attempt offset (m.heap.walk base path >>= fun container => m.heap.cell container last) _)
      (follow m.openNames id next
        (((m.site p room).attempt offset (m.heap.walk base path) >>= _) m.heap))
    cases m.heap.walk base path with
    | error cause => exact .refl _
    | ok container => exact reaches_attempt fun cell => .refl _

mutual

/-- A machine in front of a statement goes where the statement leads to. -/
theorem reaches_exec (hreturns : Returns p room) :
    ∀ (step : Step) (rest : List Step) (m : Machine), m.HasRoom room →
      Reaches p (.running .statement (m.withSteps (step :: rest)))
        (follow m.openNames Code.State.heap (fun flow state => (m.withState state).resume rest flow)
          (step.exec (m.site p room) m.state))
  | .branch offset condition pass fail, rest, m, hroom => by
    rw [Step.exec]
    refine .head (reaches_ofRun (reaches_eval hreturns condition
      ((m.withSteps rest).hold (.condition offset pass fail)) hroom) ?_)
    intro v heap
    refine .head (reaches_attempt_ofRun (m := { m.withSteps rest with heap }) fun x => ?_)
    cases Number.truthy x with
    | true => exact reaches_execAll hreturns pass rest { m with heap } hroom
    | false => exact reaches_execAll hreturns fail rest { m with heap } hroom
  | .assign offset name slot indices value, rest, m, hroom => by
    rw [Step.exec]
    refine .head (reaches_ofRun (reaches_evalNumbers hreturns indices offset
      (.target name slot value) [] (m.withSteps rest) hroom) ?_)
    intro path heap
    have hvalue := reaches_eval hreturns value
      ({ m.withSteps rest with heap }.hold (.assignment offset name slot path)) hroom
    refine reaches_ofRun hvalue ?_
    intro v heap'
    refine .head ?_
    -- The indices are evaluated before the value, and only then is the cell looked for.
    show Reaches p (receive { m.withSteps rest with heap := heap' } v
      (.assignment offset name slot path)) _
    unfold receive
    dsimp only
    cases path.getLast? with
    | none => exact .refl _
    | some last =>
      refine reaches_ofRun (reaches_writeElement (m := { m.withSteps rest with heap := heap' })
        fun _ heap => .running .statement { m.withSteps rest with heap }) ?_
      exact fun _ _ => .refl _
  | .ret value, rest, m, hroom => by
    rw [Step.exec]
    exact .head (reaches_ofRun (reaches_eval hreturns value (m.withSteps []) hroom)
      fun v heap => .refl _)

/-- Companion for a block. -/
theorem reaches_execAll (hreturns : Returns p room) :
    ∀ (steps rest : List Step) (m : Machine), m.HasRoom room →
      Reaches p (.running .statement (m.withSteps (steps ++ rest)))
        (follow m.openNames Code.State.heap (fun flow state => (m.withState state).resume rest flow)
          (Code.execAll (m.site p room) steps m.state))
  | [], rest, m, hroom => by
    rw [Code.execAll]
    exact .refl _
  | step :: steps, rest, m, hroom => by
    rw [Code.execAll]
    refine .bind (reaches_exec hreturns step (steps ++ rest) m hroom) ?_
    intro flow state
    cases flow with
    | returned v => exact .refl _
    | next => exact reaches_execAll hreturns steps rest (m.withState state) hroom

end

/-! ### Calls -/

/-- A machine at the beginning of a call runs to the end of the call. -/
theorem reaches_body (hreturns : Returns p room) {f : Function} {args : List Value}
    (hcurrent : m.current = .ofCall f args) (hroom : m.HasRoom room) :
    Reaches p (.running .statement m)
      (follow m.callerNames id (fun v heap => { m with heap }.leave v)
        (p.call (room + 1) f args m.heap)) := by
  obtain ⟨current, callers, heap⟩ := m
  obtain rfl : current = .ofCall f args := hcurrent
  have hsteps := reaches_execAll hreturns f.body [] ⟨.ofCall f args, callers, heap⟩ hroom
  have hbody : Reaches p (.running .statement ⟨.ofCall f args, callers, heap⟩)
      (follow (openNames ⟨.ofCall f args, callers, heap⟩) Code.State.heap
        (fun flow state => (withState ⟨.ofCall f args, callers, heap⟩ state).resume [] flow)
        (Code.execAll ⟨p, f, p.call room⟩ f.body ⟨f.frame args, heap⟩)) := by
    rw [List.append_nil] at hsteps
    exact hsteps
  rw [Program.call]
  dsimp only
  refine hbody.trans ?_
  cases Code.execAll ⟨p, f, p.call room⟩ f.body ⟨f.frame args, heap⟩ with
  | error e state => exact .refl _
  | ok flow state =>
    cases flow with
    | returned v => exact .head (.refl _)
    -- Without a return the machine finds no further statement.
    | next => exact .head (.refl _)

/-- A machine comes back from every function that it enters. -/
theorem returns (p : Program) (room : Nat) : Returns p room := by
  induction room with
  | zero =>
    intro m f args hroom
    have hfull : maxCallDepth < m.depth + 1 := by
      have : m.depth + 0 = maxCallDepth := hroom
      omega
    rw [enter, if_pos hfull]
    exact .refl _
  | succ room ih =>
    intro m f args hroom
    have hfree : ¬ maxCallDepth < m.depth + 1 := by
      have : m.depth + (room + 1) = maxCallDepth := hroom
      omega
    rw [enter, if_neg hfree]
    refine reaches_body ih rfl ?_
    show (m.current :: m.callers).length + room = maxCallDepth
    have : m.callers.length + (room + 1) = maxCallDepth := hroom
    rw [List.length_cons]
    omega

end Machine

namespace Program

open Machine (Focus)

/-- A machine that a host has started halts with the outcome that evaluation gives. -/
theorem reaches_invokeFunction (p : Program) (f : Function) (args : List Value) (heap : Heap) :
    Reaches p (.start f args heap) (.halted (p.invokeFunction f args heap)) := by
  unfold Status.start
  dsimp only
  by_cases hlength : args.length = f.params.length
  · rw [if_neg (not_not.mpr hlength)]
    cases hmisfit : misfit? heap f.signature args with
    | some index =>
      unfold invokeFunction
      rw [if_neg (not_not.mpr hlength), get_bind_apply, hmisfit]
      exact .refl _
    | none =>
      have hroom : Machine.HasRoom ⟨.ofCall f args, [], heap⟩ maxCallDepth := Nat.zero_add _
      have hbody := Machine.reaches_body (Machine.returns p maxCallDepth) rfl hroom
      rw [invokeFunction_eq ⟨hlength, hmisfit⟩]
      refine hbody.trans ?_
      dsimp only
      cases p.call (maxCallDepth + 1) f args heap with
      | ok v heap' => exact .refl _
      | error e heap' => exact .refl _
  · unfold invokeFunction
    rw [if_pos hlength, if_pos hlength]
    exact .refl _

/-- Every call ends. Whatever declarations analysis accepts, and whichever of their functions a host
calls, with any arguments and any heap: after some number of steps the machine halts, with the
value or the error that evaluation gives. In no state of the run are more than 257 calls open. A
call of a function opens one more, or, where 257 are open already, halts the machine with an error
that names the function that could not be entered. -/
theorem invoke_terminates {p : Program} {file : String} {decls : List Decl} {f : Function}
    (h : ofDecls file decls = .ok p) (hf : f ∈ p.functions) (args : List Value) (heap : Heap) :
    (∃ count, (Status.start f args heap).run p count = .halted (p.invoke f.name args heap)) ∧
      ∀ (count : Nat) (focus : Focus) (m : Machine),
        (Status.start f args heap).run p count = .running focus m →
        m.frames ≤ 257 ∧
          ∀ (offset : Nat) (name : String) (callee : Callee) (values : List Value) (g : Function),
            focus = .call offset name callee values → m.callee? p callee = some g →
            (Status.start f args heap).run p (count + 1)
              = if m.frames < 257 then
                  .running .statement ⟨.ofCall g values, m.current :: m.callers, m.heap⟩
                else .halted (.error (g.error (.callDepthExceeded g.name 256)) m.heap) := by
  refine ⟨?_, ?_⟩
  · rw [(ofDecls_ok.mp h).invoke_name hf]
    exact reaches_invokeFunction p f args heap
  · intro count focus m hrun
    have hframes := Status.framesLE_run p (Status.framesLE_start f args heap) count
    rw [hrun] at hframes
    refine ⟨hframes, ?_⟩
    intro offset name callee values g hfocus hcallee
    have hstep : (Status.start f args heap).run p (count + 1) = m.enter g values := by
      rw [Status.run, Function.iterate_succ_apply', ← Status.run, hrun, hfocus]
      exact Machine.call_eq_enter hcallee offset name values
    rw [hstep, Machine.enter]
    -- The number of open calls is one more than the depth of the current one.
    have hdepth : m.frames = m.depth + 1 := rfl
    by_cases hroom : m.frames < 257
    · rw [if_neg (by rw [maxCallDepth]; omega), if_pos hroom]
    · rw [if_pos (by rw [maxCallDepth]; omega), if_neg hroom, Function.through_error]
      rfl

end Program

/-- A function that calls itself without an end. -/
def Source.runaway : Source :=
  ⟨"runaway", "down(n: number) { if (n < 0) { return n; } return down(n + 1); }"⟩

/-- Whether an outcome is that calls of a function were nested too deeply. -/
def Run.tooDeep (name : String) : EStateM.Result Error Heap Value → Bool
  | .error ⟨.callDepthExceeded callee limit, _, _⟩ _ => callee == name && limit == 256
  | _ => false

/-- The machine halts also where the function never returns by itself. -/
theorem Program.invoke_terminates_runaway :
    ∃ decls p f, Source.runaway.decls = .ok decls ∧ ofDecls "runaway" decls = .ok p ∧
      f ∈ p.functions ∧
      ∃ count outcome, (Status.start f [.number 0] .empty).run p count = .halted outcome ∧
        Run.tooDeep "down" outcome = true := by
  have hrun : (Source.runaway.decls.toOption.bind fun decls =>
      (ofDecls "runaway" decls).toOption.map fun p => p.functions.map fun f =>
        Run.tooDeep "down" (p.invoke f.name [.number 0] .empty)) = some [true] := by
    decide +kernel
  obtain ⟨decls, hdecls, hrun⟩ := Option.bind_eq_some_iff.mp hrun
  obtain ⟨p, hprogram, hfunctions⟩ := Option.map_eq_some_iff.mp hrun
  obtain ⟨f, hf, hdeep⟩ := List.map_eq_singleton_iff.mp hfunctions
  have hmem : f ∈ p.functions := by
    rw [hf]
    exact List.mem_singleton_self f
  have hprogram := eq_ok_of_toOption hprogram
  obtain ⟨count, hcount⟩ := (invoke_terminates hprogram hmem [.number 0] .empty).1
  exact ⟨decls, p, f, eq_ok_of_toOption hdecls, hprogram, hmem, count, _, hcount, hdeep⟩

end ArrayScript
