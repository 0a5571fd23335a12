import ArrayScript.Proofs.Program
import ArrayScript.Proofs.Reference
import ArrayScript.Source

/-!
# `ArrayScript.Proofs.Lowering`: analysed code means what is written

Analysis replaces names by slots and places, and writes compound assignments out. This module
proves that nothing else changes: code and the declaration it comes from give the same outcome,
error or value, and leave the same heap.

The two differ in how an error comes to its function. The reference names the declaration that is
running where the error arises. Code raises it without a function, and every call that it leaves
would give it one. So inside a body the outcomes agree once the errors of the code are attributed to
the function (`Run.inFunction`), and the errors of a nested call are not affected by that
(`Program.inFunction_call`).

* An expression and its code are the same computation in a frame that holds, in the slot of each
  variable, what the environment holds under its name (`Scope.Matches`): `eval_eq`.
* A statement and its code keep frame and environment matching: `exec_agrees`.
* A function and its declaration are the same computation, by induction on the number of calls that
  may still be nested: `Program.Built.call_eq`.

The scope that frame and environment match in is that of the *finished* body. A slot that a path
has not assigned yet has no value, and neither does the name.
-/

set_option autoImplicit false

namespace ArrayScript

open Code (Term Step)

/-! ### Computations on the heap -/

namespace Run

variable {α β : Type}

/-- Two steps succeed when the first does, and the second does from there. -/
theorem bind_ok {m : Run α} {k : α → Run β} {heap heap' : Heap} {b : β} :
    (m >>= k) heap = .ok b heap' ↔ ∃ a heap₁, m heap = .ok a heap₁ ∧ k a heap₁ = .ok b heap' := by
  show EStateM.bind m k heap = .ok b heap' ↔ _
  unfold EStateM.bind
  cases m heap <;> simp

/-- What follows a computation has to be the same only behind what it can result in. -/
theorem bind_congr {m : Run α} {k k' : α → Run β}
    (h : ∀ heap a heap', m heap = .ok a heap' → k a = k' a) : m >>= k = m >>= k' := by
  funext heap
  show EStateM.bind m k heap = EStateM.bind m k' heap
  unfold EStateM.bind
  cases hm : m heap with
  | error e heap' => rfl
  | ok a heap' => exact congrFun (h heap a heap' hm) heap'

/-- The computation whose errors are attributed to a function, as on the way out of a call. -/
def inFunction (m : Run α) (function : String) : Run α := fun heap =>
  match m heap with
  | .ok a heap' => .ok a heap'
  | .error e heap' => .error (e.inFunction function) heap'

/-- Attribution concerns errors only. -/
theorem inFunction_ok {m : Run α} {function : String} {heap heap' : Heap} {a : α} :
    m.inFunction function heap = .ok a heap' ↔ m heap = .ok a heap' := by
  unfold inFunction
  cases m heap <;> simp

/-- The errors of two steps are those of the first and those of the second. -/
theorem inFunction_bind (m : Run α) (k : α → Run β) (function : String) :
    (m >>= k).inFunction function
      = m.inFunction function >>= fun a => (k a).inFunction function := by
  funext heap
  show inFunction (EStateM.bind m k) function heap
    = EStateM.bind (m.inFunction function) (fun a => (k a).inFunction function) heap
  unfold inFunction EStateM.bind
  dsimp only
  cases m heap with
  | ok a heap' => rfl
  | error e heap' => rfl

end Run

/-- A call has attributed its errors already. -/
theorem Program.inFunction_call (p : Program) (room : Nat) (f : Function) (args : List Value)
    (function : String) : (p.call room f args).inFunction function = p.call room f args := by
  funext heap
  unfold Run.inFunction
  cases room with
  | zero => rfl
  | succ room =>
    rw [call]
    dsimp only
    cases Code.execAll ⟨p, f, p.call room⟩ f.body ⟨f.frame args, heap⟩ with
    | error e state => rfl
    | ok flow state =>
      cases flow with
      | returned v => rfl
      | next => rfl

/-- Several terms have as many values. -/
theorem Code.length_evalAll {site : Site} {frame : Frame} :
    ∀ {ts : List Term} {heap heap' : Heap} {values : List Value},
      evalAll site frame ts heap = .ok values heap' → values.length = ts.length
  | [], heap, heap', values, h => by
    rw [evalAll] at h
    cases h
    rfl
  | t :: ts, heap, heap', values, h => by
    rw [evalAll] at h
    obtain ⟨v, heap₁, -, h⟩ := Run.bind_ok.mp h
    obtain ⟨vs, heap₂, hvs, h⟩ := Run.bind_ok.mp h
    cases h
    simp [length_evalAll hvs]

/-! ### Frames and environments -/

/-- Whether a frame holds, in the slot of each variable, what an environment holds under its
name. -/
structure Scope.Matches (scope : Scope) (frame : Frame) (env : Reference.Env) : Prop where
  size : frame.size = scope.slots
  slots : ∀ v ∈ scope.entries, frame[v.slot]? = some (env v.name)

namespace Scope.Matches

variable {scope : Scope} {frame : Frame} {env : Reference.Env} {v : Variable}

/-- Assigning a slot and assigning its name keep frame and environment matching. -/
theorem assign (h : scope.Matches frame env) (hscope : scope.WellFormed) (hv : v ∈ scope.entries)
    (value : Value) :
    scope.Matches (frame.setIfInBounds v.slot (some value)) (env.set v.name value) where
  size := by
    rw [Array.size_setIfInBounds]
    exact h.size
  slots u hu := by
    rw [Array.getElem?_setIfInBounds]
    by_cases hslot : v.slot = u.slot
    · obtain rfl : v = u := hscope.slot_inj hv hu hslot
      have hlt : v.slot < frame.size := by
        rw [h.size]
        exact hscope.slot_lt hv
      simp [hlt, Reference.Env.set]
    · -- Different slots belong to different names.
      have hname : u.name ≠ v.name := by
        intro hname
        have hfound := hscope.find?_name hu
        rw [hname, hscope.find?_name hv] at hfound
        exact hslot (congrArg Variable.slot (Option.some.inj hfound))
      simp [hslot, Reference.Env.set, hname, h.slots u hu]

end Scope.Matches

/-! ### Expressions -/

/-- Whether the place where code runs and the place where its declaration runs correspond: errors
stand in the same file, what a name stands for is entered in the same way, and what is entered
attributes its own errors. -/
structure Setting.Corresponds (s : Setting) (site : Site) (ref : Reference.Site) : Prop where
  file : site.current.file = ref.file
  attributed : ∀ (f : Function) (args : List Value) (function : String),
    (site.enter f args).inFunction function = site.enter f args
  free : Builtin.find? s.name = none
  self : ∃ enter, ref.enter? s.name = some enter ∧
    ∀ args : List Value, args.length = s.params.length → site.enter site.current args = enter args
  user : ∀ {name : String} {index : Nat} {f : Function}, name ≠ s.name →
    s.program.entry? name = some (.user index f) →
    site.program.functions[index]? = some f ∧
      ∃ enter, ref.enter? name = some enter ∧
        ∀ args : List Value, args.length = f.params.length → site.enter f args = enter args

namespace Setting.Corresponds

variable {s : Setting} {site : Site} {ref : Reference.Site}

/-- Errors look the same, once they are attributed. -/
theorem error_eq (h : s.Corresponds site ref) (offset : Nat) (cause : Cause) :
    (site.error offset cause).inFunction ref.name = ref.error offset cause := by
  rw [Site.error, Reference.Site.error, h.file]
  rfl

/-- An error that the code raises is the one of the reference. -/
theorem throw_eq (h : s.Corresponds site ref) {α : Type} (offset : Nat) (cause : Cause) :
    Run.inFunction (throw (site.error offset cause) : Run α) ref.name
      = throw (ref.error offset cause) := by
  rw [← h.error_eq]
  rfl

/-- Operations fail in the same way. -/
theorem attempt_eq (h : s.Corresponds site ref) {α : Type} (offset : Nat) (r : Except Cause α) :
    Run.inFunction (site.attempt offset r) ref.name = ref.attempt offset r := by
  cases r with
  | ok a => rfl
  | error cause => exact h.throw_eq offset cause

/-- A variable has the same value, or none. -/
theorem read_eq (h : s.Corresponds site ref) {scope : Scope} {frame : Frame} {env : Reference.Env}
    (hframe : scope.Matches frame env) {v : Variable} (hv : v ∈ scope.entries) (offset : Nat) :
    Run.inFunction (site.read frame offset v.name v.slot) ref.name
      = ref.read env offset v.name := by
  rw [Site.read, Reference.Site.read, hframe.slots v hv]
  cases env v.name with
  | some value => rfl
  | none => exact h.throw_eq offset _

end Setting.Corresponds

namespace Lowering

variable {s : Setting} {site : Site} {ref : Reference.Site} {scope : Scope} {frame : Frame}
  {env : Reference.Env}

/-- The variables in front of an expression are those behind it. -/
theorem subset_iff_of_term {e : Expr} {d d' : Draft} {t : Term} (h : s.term e d = .ok (t, d')) :
    d'.scope.entries ⊆ scope.entries ↔ d.scope.entries ⊆ scope.entries := by
  rw [(Setting.term_keeps e h).1]

/-- A call reaches what its name stands for. -/
theorem call_eq {d : Draft} {name : String} {target : CallTarget} {offset : Nat} {ty : Ty}
    {args : List Term} (hsite : s.Corresponds site ref) (htarget : s.target d name = .ok target)
    (haccepts : target.signature.accepts args.length = true) :
    Run.inFunction ((Term.call offset name target.callee ty args).eval site frame) ref.name
      = Run.inFunction (Code.evalAll site frame args) ref.name >>= fun values =>
          ref.call offset name values := by
  rw [Term.eval, Run.inFunction_bind]
  refine Run.bind_congr fun heap values heap' hvalues => ?_
  have hlength := Code.length_evalAll (Run.inFunction_ok.mp hvalues)
  rw [← hlength] at haccepts
  unfold Setting.target at htarget
  split at htarget
  next hname =>
    -- The function itself.
    split at htarget
    · cases htarget
    · cases htarget
      have hcount : values.length = s.params.length := by
        simpa [Signature.accepts, Setting.signature] using haccepts
      obtain ⟨enter, henter, heq⟩ := hsite.self
      show Run.inFunction (site.enter site.current values) ref.name = ref.call offset name values
      rw [hsite.attributed, Reference.Site.call, hname, hsite.free, henter]
      exact heq values hcount
  next hname =>
    split at htarget
    next b hentry =>
      -- A builtin.
      cases htarget
      rw [Reference.Site.call, Program.entry?_builtin hentry]
      simp only [Run.inFunction_bind, hsite.attempt_eq]
      rfl
    next index f hentry =>
      -- An earlier function: code has its place, and the reference its name.
      cases htarget
      obtain ⟨hf, enter, henter, heq⟩ := hsite.user hname hentry
      have hcount : values.length = f.params.length := by
        simpa [Signature.accepts, Function.signature] using haccepts
      simp only [hf]
      rw [hsite.attributed, Reference.Site.call, Program.builtin_find?_of_user hentry, henter]
      exact heq values hcount
    · split at htarget
      · cases htarget
      · cases htarget

/-- Code and the reference leave the right operand alone in the same cases. -/
theorem shortcut_eq (op : BinaryOp) (x : Float) (rest : Run Value) :
    (if op = .conjunction ∧ Number.truthy x = false then return .number 0
      else if op = .disjunction ∧ Number.truthy x = true then return .number 1
      else rest)
      = match op.shortcut? x with
        | some result => return .number result
        | none => rest := by
  cases op <;> cases htruthy : Number.truthy x <;> simp [BinaryOp.shortcut?, htruthy]

mutual

/-- An expression and its code are the same computation. -/
theorem eval_eq (hsite : s.Corresponds site ref) (hframe : scope.Matches frame env) :
    ∀ (e : Expr) {d d' : Draft} {t : Term}, s.term e d = .ok (t, d') →
      d.scope.entries ⊆ scope.entries →
      Run.inFunction (t.eval site frame) ref.name = Reference.eval ref env e
  | .number _ value, d, d', t, h, hscope => by
    obtain ⟨rfl, -⟩ := Setting.term_number_ok.mp h
    rw [Term.eval, Reference.eval]
    rfl
  | .newArray span sizes, d, d', t, h, hscope => by
    obtain ⟨ts, hts, rfl⟩ := Setting.term_newArray_ok.mp h
    rw [Term.eval, Reference.eval, Run.inFunction_bind,
      evalSizes_eq hsite hframe sizes span.start hts hscope]
    rfl
  | .list _ [], d, d', t, h, hscope => (Setting.term_list_nil_ok.mp h).elim
  | .list _ (first :: rest), d, d', t, h, hscope => by
    obtain ⟨u, d₁, us, hu, hus, rfl⟩ := Setting.term_list_ok.mp h
    have hscope₁ := (subset_iff_of_term hu).mpr hscope
    rw [Term.eval, Reference.eval, Code.evalAll, Reference.evalAll]
    simp only [Run.inFunction_bind, eval_eq hsite hframe first hu hscope,
      evalAll_eq hsite hframe rest hus hscope₁]
    rfl
  | .var span name indices, d, d', t, h, hscope => by
    obtain ⟨v, ts, hv, -, hts, -, rfl⟩ := Setting.term_var_ok.mp h
    -- The slot is read on the one side and the name on the other, and the scope relates the two.
    have hread := hsite.read_eq hframe (hscope (Scope.mem_of_find? hv)) span.start
    rw [Scope.name_of_find? hv] at hread
    rw [Term.eval, Reference.eval]
    simp only [Run.inFunction_bind, hread, hsite.attempt_eq,
      evalNumbers_eq hsite hframe indices span.start hts hscope]
    rfl
  | .call span name args, d, d', t, h, hscope => by
    obtain ⟨target, result, ts, d₁, htarget, -, haccepts, hts, -, rfl⟩ :=
      Setting.term_call_ok.mp h
    rw [← (Setting.terms_passed args hts).1] at haccepts
    rw [call_eq hsite htarget haccepts, Reference.eval, evalAll_eq hsite hframe args hts hscope]
  | .unary span op operand, d, d', t, h, hscope => by
    obtain ⟨u, hu, -, rfl⟩ := Setting.term_unary_ok.mp h
    rw [Term.eval, Reference.eval]
    simp only [Run.inFunction_bind, hsite.attempt_eq, eval_eq hsite hframe operand hu hscope]
    rfl
  | .binary span op left right, d, d', t, h, hscope => by
    obtain ⟨u, d₁, w, hu, -, hw, -, rfl⟩ := Setting.term_binary_ok.mp h
    have hscope₁ := (subset_iff_of_term hu).mpr hscope
    rw [Term.eval, Reference.eval]
    simp only [Run.inFunction_bind, hsite.attempt_eq, eval_eq hsite hframe left hu hscope]
    congr 1
    funext v
    congr 1
    funext x
    -- Both decide by the left value alone whether the right operand is evaluated.
    rw [shortcut_eq]
    cases op.shortcut? x with
    | some result => rfl
    | none =>
      simp only [Run.inFunction_bind, hsite.attempt_eq, eval_eq hsite hframe right hw hscope₁]
      rfl

/-- Companion for several expressions. -/
theorem evalAll_eq (hsite : s.Corresponds site ref) (hframe : scope.Matches frame env) :
    ∀ (es : List Expr) {test : Setting.Test} {index : Nat} {d d' : Draft} {ts : List Term},
      s.terms test index es d = .ok (ts, d') → d.scope.entries ⊆ scope.entries →
      Run.inFunction (Code.evalAll site frame ts) ref.name = Reference.evalAll ref env es
  | [], test, index, d, d', ts, h, hscope => by
    obtain ⟨rfl, -⟩ := Setting.terms_nil_ok.mp h
    rw [Code.evalAll, Reference.evalAll]
    rfl
  | e :: es, test, index, d, d', ts, h, hscope => by
    obtain ⟨t, d₁, us, ht, -, hus, rfl⟩ := Setting.terms_cons_ok.mp h
    have hscope₁ := (subset_iff_of_term ht).mpr hscope
    rw [Code.evalAll, Reference.evalAll]
    simp only [Run.inFunction_bind, eval_eq hsite hframe e ht hscope,
      evalAll_eq hsite hframe es hus hscope₁]
    rfl

/-- Companion for several expressions that denote numbers. -/
theorem evalNumbers_eq (hsite : s.Corresponds site ref) (hframe : scope.Matches frame env) :
    ∀ (es : List Expr) (offset : Nat) {test : Setting.Test} {index : Nat} {d d' : Draft}
      {ts : List Term}, s.terms test index es d = .ok (ts, d') →
      d.scope.entries ⊆ scope.entries →
      Run.inFunction (Code.evalNumbers site frame offset ts) ref.name
        = Reference.evalNumbers ref env offset es
  | [], offset, test, index, d, d', ts, h, hscope => by
    obtain ⟨rfl, -⟩ := Setting.terms_nil_ok.mp h
    rw [Code.evalNumbers, Reference.evalNumbers]
    rfl
  | e :: es, offset, test, index, d, d', ts, h, hscope => by
    obtain ⟨t, d₁, us, ht, -, hus, rfl⟩ := Setting.terms_cons_ok.mp h
    have hscope₁ := (subset_iff_of_term ht).mpr hscope
    rw [Code.evalNumbers, Reference.evalNumbers]
    simp only [Run.inFunction_bind, hsite.attempt_eq, eval_eq hsite hframe e ht hscope,
      evalNumbers_eq hsite hframe es offset hus hscope₁]
    rfl

/-- Companion for several expressions that denote sizes. -/
theorem evalSizes_eq (hsite : s.Corresponds site ref) (hframe : scope.Matches frame env) :
    ∀ (es : List Expr) (offset : Nat) {test : Setting.Test} {index : Nat} {d d' : Draft}
      {ts : List Term}, s.terms test index es d = .ok (ts, d') →
      d.scope.entries ⊆ scope.entries →
      Run.inFunction (Code.evalSizes site frame offset ts) ref.name
        = Reference.evalSizes ref env offset es
  | [], offset, test, index, d, d', ts, h, hscope => by
    obtain ⟨rfl, -⟩ := Setting.terms_nil_ok.mp h
    rw [Code.evalSizes, Reference.evalSizes]
    rfl
  | e :: es, offset, test, index, d, d', ts, h, hscope => by
    obtain ⟨t, d₁, us, ht, -, hus, rfl⟩ := Setting.terms_cons_ok.mp h
    have hscope₁ := (subset_iff_of_term ht).mpr hscope
    rw [Code.evalSizes, Reference.evalSizes]
    simp only [Run.inFunction_bind, hsite.attempt_eq, eval_eq hsite hframe e ht hscope,
      evalSizes_eq hsite hframe es offset hus hscope₁]
    congr 1
    funext v
    -- Code takes a value for a number and for a size in one step.
    cases v with
    | number x => rfl
    | array ref => rfl

end

/-! ### Statements -/

section

variable {α α' β β' : Type}

/-- Whether two outcomes agree: results that are related, in a frame and an environment that match,
or an error that is the same once it is attributed to the function; and the same heap in either
case. -/
def Agree (function : String) (scope : Scope) (rel : α → β → Prop) :
    EStateM.Result Error Code.State α → EStateM.Result Error Reference.State β → Prop
  | .ok a state, .ok b state' =>
    rel a b ∧ state.heap = state'.heap ∧ scope.Matches state.frame state'.env
  | .error e state, .error e' state' => e.inFunction function = e' ∧ state.heap = state'.heap
  | _, _ => False

/-- Whether two computations agree wherever frame and environment match. -/
def Agrees (function : String) (scope : Scope) (m : Code.Execution α) (m' : Reference.Execution β)
    (rel : α → β → Prop) : Prop :=
  ∀ (frame : Frame) (env : Reference.Env) (heap : Heap), scope.Matches frame env →
    Agree function scope rel (m ⟨frame, heap⟩) (m' ⟨env, heap⟩)

variable {function : String} {rel : α → β → Prop} {goal : α' → β' → Prop}

/-- Giving related values agrees. -/
theorem Agrees.pure {a : α} {b : β} (h : rel a b) :
    Agrees function scope (Pure.pure a) (Pure.pure b) rel :=
  fun _ _ _ hframe => ⟨h, rfl, hframe⟩

/-- Computations that agree compose. -/
theorem Agrees.bind {m : Code.Execution α} {m' : Reference.Execution β}
    {k : α → Code.Execution α'} {k' : β → Reference.Execution β'}
    (hm : Agrees function scope m m' rel)
    (hk : ∀ a b, rel a b → Agrees function scope (k a) (k' b) goal) :
    Agrees function scope (m >>= k) (m' >>= k') goal := by
  intro frame env heap hframe
  have hfirst := hm frame env heap hframe
  show Agree function scope goal (EStateM.bind m k ⟨frame, heap⟩) (EStateM.bind m' k' ⟨env, heap⟩)
  unfold EStateM.bind
  -- The first computations end alike, which excludes the two mixed cases.
  cases hr : m ⟨frame, heap⟩ with
  | error e state =>
    cases hr' : m' ⟨env, heap⟩ with
    | error e' state' =>
      rw [hr, hr'] at hfirst
      exact hfirst
    | ok b state' =>
      rw [hr, hr'] at hfirst
      exact hfirst.elim
  | ok a state =>
    cases hr' : m' ⟨env, heap⟩ with
    | error e' state' =>
      rw [hr, hr'] at hfirst
      exact hfirst.elim
    | ok b state' =>
      rw [hr, hr'] at hfirst
      obtain ⟨frame₁, heap₁⟩ := state
      obtain ⟨env₁, heap₂⟩ := state'
      obtain ⟨hrel, rfl, hframe₁⟩ := hfirst
      exact hk a b hrel frame₁ env₁ heap₁ hframe₁

/-- A result may be changed behind the first of two computations that agree. -/
theorem Agrees.returns {m : Code.Execution α} {m' : Reference.Execution β} {a' : α'}
    {rel' : α' → β → Prop} (hm : Agrees function scope m m' rel) (h : ∀ b, rel' a' b) :
    Agrees function scope (m >>= fun _ => Pure.pure a') m' rel' := by
  rw [← bind_pure m']
  exact hm.bind fun _ b _ => .pure (h b)

/-- Computations on the heap agree if they are the same. -/
theorem Agrees.ofRun {run : Frame → Run α} {run' : Reference.Env → Run α}
    (h : ∀ (frame : Frame) (env : Reference.Env), scope.Matches frame env →
      (run frame).inFunction function = run' env) :
    Agrees function scope (.ofRun run) (.ofRun run') Eq := by
  intro frame env heap hframe
  unfold Code.Execution.ofRun Reference.Execution.ofRun
  dsimp only
  rw [← h frame env hframe, Run.inFunction]
  cases run frame heap with
  | ok a heap' => exact ⟨rfl, rfl, hframe⟩
  | error e heap' => exact ⟨rfl, rfl⟩

end

/-- Assigning a slot agrees with assigning the name of its variable. -/
theorem Agrees.assign {v : Variable} (hscope : scope.WellFormed) (hv : v ∈ scope.entries)
    (value : Value) :
    Agrees ref.name scope (.assign v.slot value)
      (modify fun state => { state with env := state.env.set v.name value }) fun _ _ => True :=
  fun _ _ _ hframe => ⟨trivial, rfl, hframe.assign hscope hv value⟩

/-- An assignment to a variable agrees with its code. -/
theorem assign_agrees {target : Target} {value : Reference.Env → Run Value} {v : Variable}
    {indices : List Term} {t : Term} (hsite : s.Corresponds site ref) (hscope : scope.WellFormed)
    (hv : v ∈ scope.entries) (hname : v.name = target.name)
    (hindices : ∀ {frame : Frame} {env : Reference.Env}, scope.Matches frame env →
      Run.inFunction (Code.evalNumbers site frame target.span.start indices) ref.name
        = Reference.evalNumbers ref env target.span.start target.indices)
    (hvalue : ∀ {frame : Frame} {env : Reference.Env}, scope.Matches frame env →
      Run.inFunction (t.eval site frame) ref.name = value env) :
    Agrees ref.name scope ((Step.assign target.span.start target.name v.slot indices t).exec site)
      (Reference.assign ref target value) fun flow _ => flow = .next := by
  rw [Step.exec]
  unfold Reference.assign
  refine .bind (.ofRun fun frame env hframe => hindices hframe) ?_
  rintro path _ rfl
  refine .bind (.ofRun fun frame env hframe => hvalue hframe) ?_
  rintro value _ rfl
  -- Without an index the slot is assigned on the one side and the name on the other; with one, both
  -- write to the same cell of the heap.
  cases hlast : path.getLast? with
  | none =>
    rw [← hname]
    exact (Agrees.assign hscope hv value).returns fun _ => rfl
  | some last =>
    refine (Agrees.ofRun fun frame env hframe => ?_).returns fun _ => rfl
    rw [← hname, Code.writeElement]
    simp only [Run.inFunction_bind, hsite.read_eq hframe hv, hsite.attempt_eq]
    rfl

/-- What a flow returns, if it does. -/
def returned? : Code.Flow → Option Value
  | .next => none
  | .returned v => some v

/-- An accepted assignment agrees with its code, and does not return. -/
theorem assign_exec_agrees {target : Target} {value : Expr} {d d' : Draft} {step : Step}
    (hsite : s.Corresponds site ref) (hscope : scope.WellFormed)
    (h : s.assign target value d = .ok (step, d')) (hd' : d'.scope.entries ⊆ scope.entries) :
    Agrees ref.name scope (step.exec site)
      (do Reference.assign ref target fun env => Reference.eval ref env value; return none)
      fun flow v => returned? flow = v := by
  -- That the step does not return is put into the relation, so that the `none` behind it can be
  -- dropped.
  suffices hassign : Agrees ref.name scope (step.exec site)
      (Reference.assign ref target fun env => Reference.eval ref env value)
      fun flow _ => flow = .next by
    rw [← bind_pure (step.exec site)]
    refine hassign.bind ?_
    rintro _ _ rfl
    exact .pure rfl
  obtain ⟨t, d₁, ht, hcases⟩ := Setting.assign_ok.mp h
  rcases hcases with ⟨-, -, -, hnil, rfl, rfl⟩ | ⟨v, ts, hv, -, hts, -, -, rfl⟩
  · -- The new variable has the name of the target and the next slot.
    have hsub₁ : d₁.scope.entries ⊆ scope.entries := fun u hu => hd' (List.mem_cons_of_mem _ hu)
    have hmem : d₁.scope.fresh target.name t.ty ∈ scope.entries := hd' List.mem_cons_self
    have hname : (d₁.scope.fresh target.name t.ty).name = target.name := rfl
    have hslot : (d₁.scope.fresh target.name t.ty).slot = d₁.scope.slots := rfl
    rw [← hslot]
    refine assign_agrees hsite hscope hmem hname (fun hframe => ?_) fun hframe => ?_
    · rw [hnil, Code.evalNumbers, Reference.evalNumbers]
      rfl
    · exact eval_eq hsite hframe value ht ((subset_iff_of_term ht).mp hsub₁)
  · have hsub₁ : d₁.scope.entries ⊆ scope.entries := by
      rw [← (Setting.terms_keeps target.indices hts).1]
      exact hd'
    refine assign_agrees hsite hscope (hsub₁ (Scope.mem_of_find? hv)) (Scope.name_of_find? hv)
      (fun hframe => ?_) fun hframe => ?_
    · exact evalNumbers_eq hsite hframe target.indices _ hts hsub₁
    · exact eval_eq hsite hframe value ht ((subset_iff_of_term ht).mp hsub₁)

mutual

/-- A statement agrees with its code. -/
theorem exec_agrees (hsite : s.Corresponds site ref) (hscope : scope.WellFormed) :
    ∀ (stmt : Stmt) {last : Bool} {d d' : Draft} {step : Step},
      s.step last stmt d = .ok (step, d') → d.scope.WellFormed →
      d'.scope.entries ⊆ scope.entries →
      Agrees ref.name scope (step.exec site) (Reference.exec ref stmt) fun flow v =>
        returned? flow = v
  | .branch span condition pass fail, last, d, d', step, h, hd, hd' => by
    obtain ⟨t, d₁, c, p, d₂, f, ht, -, -, hp, hf, rfl⟩ := Setting.step_branch_ok.mp h
    have hd₁ : d₁.scope.WellFormed := by
      rw [(Setting.term_keeps condition ht).1]
      exact hd
    obtain ⟨hgrows₁, hd₂⟩ := Setting.steps_grows pass hp hd₁
    have hgrows₂ := (Setting.stepsOption_grows fail hf hd₂).1
    -- Every variable that the condition or an arm can see is one of the finished body.
    have hsub₂ : d₂.scope.entries ⊆ scope.entries := List.Subset.trans hgrows₂.scope.subset hd'
    have hsub := (subset_iff_of_term ht).mp (List.Subset.trans hgrows₁.scope.subset hsub₂)
    rw [Step.exec, Reference.exec]
    refine .bind (.ofRun fun frame env hframe => eval_eq hsite hframe condition ht hsub) ?_
    rintro v _ rfl
    refine .bind (.ofRun fun frame env hframe => hsite.attempt_eq span.start v.toNumber) ?_
    rintro x _ rfl
    split
    · exact execAll_agrees hsite hscope pass hp hd₁ hsub₂
    · exact execOption_agrees hsite hscope fail hf hd₂ hd'
  | .assign span target value, last, d, d', step, h, hd, hd' => by
    rw [Setting.step_assign_ok] at h
    rw [Reference.exec]
    exact assign_exec_agrees hsite hscope h hd'
  | .update span op target value, last, d, d', step, h, hd, hd' => by
    rw [Setting.step_update_ok] at h
    rw [Reference.exec_update, Reference.exec]
    exact assign_exec_agrees hsite hscope h hd'
  | .ret span value, last, d, d', step, h, hd, hd' => by
    obtain ⟨-, t, d₁, ht, rfl, hcases⟩ := Setting.step_ret_ok.mp h
    have hsame : d'.scope = d₁.scope := by
      rcases hcases with ⟨-, rfl⟩ | ⟨-, -, -, rfl⟩
      · rfl
      · rfl
    rw [hsame] at hd'
    have hsub := (subset_iff_of_term ht).mp hd'
    rw [Step.exec, Reference.exec]
    refine .bind (.ofRun fun frame env hframe => eval_eq hsite hframe value ht hsub) ?_
    rintro v _ rfl
    exact .pure rfl

/-- Companion for a block. -/
theorem execAll_agrees (hsite : s.Corresponds site ref) (hscope : scope.WellFormed) :
    ∀ (block : List Stmt) {d d' : Draft} {steps : List Step},
      s.steps block d = .ok (steps, d') → d.scope.WellFormed →
      d'.scope.entries ⊆ scope.entries →
      Agrees ref.name scope (Code.execAll site steps) (Reference.execAll ref block) fun flow v =>
        returned? flow = v
  | [], d, d', steps, h, hd, hd' => by
    obtain ⟨rfl, -⟩ := Setting.steps_nil_ok.mp h
    rw [Code.execAll, Reference.execAll]
    exact .pure rfl
  | stmt :: rest, d, d', steps, h, hd, hd' => by
    obtain ⟨first, d₁, others, hfirst, hothers, rfl⟩ := Setting.steps_cons_ok.mp h
    have hd₁ := (Setting.step_grows stmt hfirst hd).2
    have hgrows := (Setting.steps_grows rest hothers hd₁).1
    rw [Code.execAll, Reference.execAll]
    have hsub₁ := List.Subset.trans hgrows.scope.subset hd'
    refine .bind (exec_agrees hsite hscope stmt hfirst hd hsub₁) ?_
    rintro flow _ rfl
    cases flow with
    | returned v => exact .pure rfl
    | next => exact execAll_agrees hsite hscope rest hothers hd₁ hd'

/-- Companion for a block that may be absent. -/
theorem execOption_agrees (hsite : s.Corresponds site ref) (hscope : scope.WellFormed) :
    ∀ (block : Option (List Stmt)) {d d' : Draft} {steps : List Step},
      s.stepsOption block d = .ok (steps, d') → d.scope.WellFormed →
      d'.scope.entries ⊆ scope.entries →
      Agrees ref.name scope (Code.execAll site steps) (Reference.execOption ref block) fun flow v =>
        returned? flow = v
  | none, d, d', steps, h, hd, hd' => by
    obtain ⟨rfl, -⟩ := Setting.stepsOption_none_ok.mp h
    rw [Code.execAll, Reference.execOption]
    exact .pure rfl
  | some block, d, d', steps, h, hd, hd' => by
    rw [Setting.stepsOption_some] at h
    rw [Reference.execOption]
    exact execAll_agrees hsite hscope block h hd hd'

end

/-- Bodies that agree end a call in the same way. -/
theorem outcome_eq {function : String} {missing : Error}
    {r : EStateM.Result Error Code.State Code.Flow}
    {r' : EStateM.Result Error Reference.State (Option Value)} :
    Agree function scope (fun flow v => returned? flow = v) r r' →
    (match r with
      | .ok (.returned v) state => EStateM.Result.ok v state.heap
      | .ok .next state => .error missing state.heap
      | .error e state => .error (e.inFunction function) state.heap)
      = match r' with
        | .ok (some v) state => .ok v state.heap
        | .ok none state => .error missing state.heap
        | .error e state => .error e state.heap := by
  intro h
  -- The code has its errors attributed here, at the end of the call; the reference had them
  -- attributed where they were raised, so on its side nothing is left to do.
  cases r with
  | error e state =>
    cases r' with
    | error e' state' =>
      obtain ⟨rfl, hheap⟩ := h
      simp only [hheap]
    | ok v state' => exact h.elim
  | ok flow state =>
    cases r' with
    | error e' state' => exact h.elim
    | ok v state' =>
      obtain ⟨rfl, hheap, -⟩ := h
      cases flow with
      | next => simp only [returned?, hheap]
      | returned u => simp only [returned?, hheap]

end Lowering

/-! ### Parameters -/

/-- A parameter's name leads to its argument. -/
theorem Reference.lookup_zip :
    ∀ {names : List String} {args : List Value} {i : Nat} {name : String}, names.Nodup →
      names[i]? = some name → (names.zip args).lookup name = args[i]?
  | [], args, i, name, hnodup, hname => nomatch hname
  | first :: names, [], i, name, hnodup, hname => by simp
  | first :: names, arg :: args, 0, name, hnodup, hname => by
    obtain rfl : first = name := Option.some.inj hname
    simp
  | first :: names, arg :: args, i + 1, name, hnodup, hname => by
    obtain ⟨hfirst, hnodup⟩ := List.nodup_cons.mp hnodup
    have hmem : name ∈ names := List.mem_of_getElem? hname
    have hne : (name == first) = false := by
      rw [beq_eq_false_iff_ne]
      rintro rfl
      exact hfirst hmem
    rw [List.zip_cons_cons, List.lookup_cons, hne]
    exact lookup_zip hnodup hname

/-- A name that is no parameter has no argument. -/
theorem Reference.lookup_zip_of_notMem {names : List String} {args : List Value} {name : String}
    (h : name ∉ names) : (names.zip args).lookup name = none := by
  rw [List.lookup_eq_none_iff]
  rintro ⟨other, arg⟩ hmem
  rw [bne_iff_ne]
  rintro rfl
  exact h (List.of_mem_zip hmem).1

/-- At the beginning of a call the frame matches the environment, in every scope that starts with
the parameters. -/
theorem Scope.matches_frame {scope : Scope} {params : List Param} {args : List Value}
    {f : Function} (hscope : scope.WellFormed) (hslots : f.slots = scope.slots)
    (hlength : args.length = params.length)
    (hstart : params.zipIdx.map Analysis.paramVariable <+: scope.entries.reverse) :
    scope.Matches (f.frame args) (.ofParams params args) where
  size := by rw [Function.size_frame, hslots]
  slots v hv := by
    have hlt : v.slot < f.slots := hslots ▸ hscope.slot_lt hv
    rw [Function.getElem?_frame args hlt]
    congr 1
    have hentry := hscope.getElem?_reverse hv
    obtain ⟨locals, hlocals⟩ := hstart
    -- The names of all variables, the oldest first, start with those of the parameters.
    have hnames : params.map Param.name ++ locals.map Variable.name
        = (scope.entries.map Variable.name).reverse := by
      have hparams : (params.zipIdx.map Analysis.paramVariable).map Variable.name
          = params.map Param.name := Analysis.map_paramVariable (fun _ => rfl) params 0
      rw [← List.map_reverse, ← hlocals, List.map_append, hparams]
    have hnodup : (params.map Param.name ++ locals.map Variable.name).Nodup := by
      rw [hnames]
      exact List.nodup_reverse.mpr hscope.names
    have hname : (params.map Param.name ++ locals.map Variable.name)[v.slot]? = some v.name := by
      rw [hnames, ← List.map_reverse, List.getElem?_map, hentry]
      rfl
    rcases Nat.lt_or_ge v.slot (params.map Param.name).length with hparam | hlocal
    · rw [List.getElem?_append_left hparam] at hname
      exact (Reference.lookup_zip hnodup.of_append_left hname).symm
    · have hnone : args[v.slot]? = none := by
        rw [List.getElem?_eq_none_iff]
        simp at hlocal
        omega
      rw [List.getElem?_append_right hlocal] at hname
      rw [hnone]
      refine (Reference.lookup_zip_of_notMem ?_).symm
      intro hmem
      exact List.disjoint_of_nodup_append hnodup hmem (List.mem_of_getElem? hname)

/-! ### Calls -/

/-- A name leads to the declaration that has it, and to those in front of that one. -/
theorem Reference.find?_reverse_take {decls : List Decl} (hnodup : (decls.map Decl.name).Nodup)
    {index : Nat} {decl : Decl} (hdecl : decls[index]? = some decl) :
    ∀ {count : Nat}, index < count →
      find? (decls.take count).reverse decl.name = some ((decls.take index).reverse, decl) := by
  intro count
  -- The newest declaration is looked at first. Names are distinct, so those behind the one that is
  -- looked for are passed over.
  induction count with
  | zero => intro hlt; omega
  | succ count ih =>
    intro hlt
    rw [List.take_add_one, List.reverse_append]
    cases hlast : decls[count]? with
    | none =>
      have hcount := List.getElem?_eq_none_iff.mp hlast
      have hindex := (List.getElem?_eq_some_iff.mp hdecl).1
      exact ih (by omega)
    | some last =>
      show find? (last :: (decls.take count).reverse) decl.name = _
      rw [find?]
      by_cases heq : index = count
      · subst heq
        obtain rfl : decl = last := Option.some.inj (hdecl.symm.trans hlast)
        rw [if_pos rfl]
      · have hne : last.name ≠ decl.name := by
          intro hname
          have hindex : index < (decls.map Decl.name).length := by
            rw [List.length_map]
            exact (List.getElem?_eq_some_iff.mp hdecl).1
          refine heq ((List.getElem?_inj hindex hnodup).mp ?_)
          rw [List.getElem?_map, List.getElem?_map, hdecl, hlast]
          exact congrArg some hname.symm
        rw [if_neg hne]
        exact ih (by omega)

namespace Program

variable {p : Program} {file : String} {decls : List Decl}

/-- The code of a function and the body of its declaration agree from the beginning of a call on,
wherever the two run, as long as these places correspond. -/
theorem Built.agree_body (h : Built file decls p) {index : Nat} {f : Function} {decl : Decl}
    (hf : p.functions[index]? = some f) (hdecl : decls[index]? = some decl) {site : Site}
    {ref : Reference.Site} (hsite : ((p.before index).setting decl).Corresponds site ref)
    {args : List Value} (hlength : args.length = f.params.length) (heap : Heap) :
    ∃ scope, Lowering.Agree ref.name scope (fun flow v => Lowering.returned? flow = v)
      (Code.execAll site f.body ⟨f.frame args, heap⟩)
      (Reference.execAll ref decl.body ⟨.ofParams decl.params args, heap⟩) := by
  obtain ⟨decl', hdecl', hanalyse⟩ := h.exists_decl hf
  obtain rfl : decl = decl' := Option.some.inj (hdecl.symm.trans hdecl')
  obtain ⟨-, -, hanalyse⟩ := analyse_ok.mp hanalyse
  obtain ⟨d₀, d, body, result, hparams, hbody, -, -, hfunction⟩ := analyseDecl_ok.mp hanalyse
  obtain ⟨hd₀, -, -, hentries⟩ :=
    Analysis.bindParams_ok decl.params hparams Scope.wellFormed_empty
  obtain ⟨hgrows, hd⟩ := Setting.steps_grows decl.body hbody hd₀
  -- The scope at the end begins with the parameters, so it also describes the frame at the
  -- beginning: the other slots are not assigned yet.
  have hstart : decl.params.zipIdx.map Analysis.paramVariable <+: d.scope.entries.reverse := by
    have hgrown : d₀.scope.entries.reverse <+: d.scope.entries.reverse :=
      List.reverse_prefix.mpr hgrows.scope
    rw [hentries] at hgrown
    exact hgrown
  have hframe : d.scope.Matches (f.frame args) (.ofParams decl.params args) := by
    refine Scope.matches_frame hd ?_ ?_ hstart
    · rw [hfunction]
    · rw [hlength, hfunction, List.length_map]
  have hcode : f.body = body := by rw [hfunction]
  rw [hcode]
  exact ⟨d.scope, Lowering.execAll_agrees hsite hd decl.body hbody hd₀ (List.Subset.refl _) _ _
    heap hframe⟩

/-- A function and its declaration are the same computation. -/
theorem Built.call_eq (h : Built file decls p) :
    ∀ (room : Nat) {index : Nat} {f : Function} {decl : Decl}, p.functions[index]? = some f →
      decls[index]? = some decl → ∀ args : List Value, args.length = f.params.length →
      p.call room f args = Reference.call file room (decls.take index).reverse decl args := by
  have hnodup : (decls.map Decl.name).Nodup := h.names_eq ▸ h.nodup_names
  intro room
  induction room with
  | zero =>
    intro index f decl hf hdecl args hlength
    obtain ⟨decl', hdecl', hanalyse⟩ := h.exists_decl hf
    obtain rfl : decl = decl' := Option.some.inj (hdecl.symm.trans hdecl')
    obtain ⟨-, -, hanalyse⟩ := analyse_ok.mp hanalyse
    obtain ⟨d₀, d, body, result, -, -, -, -, rfl⟩ := analyseDecl_ok.mp hanalyse
    rfl
  | succ room ih =>
    intro index f decl hf hdecl args hlength
    obtain ⟨decl', hdecl', hanalyse⟩ := h.exists_decl hf
    obtain rfl : decl = decl' := Option.some.inj (hdecl.symm.trans hdecl')
    obtain ⟨hfree, -, hanalyse⟩ := analyse_ok.mp hanalyse
    obtain ⟨d₀, d, body, result, -, -, -, -, hfunction⟩ := analyseDecl_ok.mp hanalyse
    -- The function was analysed in front of the functions before it, and calls of these and of
    -- itself are covered by the induction on the room that is left.
    have hsite : ((p.before index).setting decl).Corresponds ⟨p, f, p.call room⟩
        (.ofDecl file (Reference.call file room) (decls.take index).reverse decl) := by
      refine ⟨?_, p.inFunction_call room, hfree, ?_, ?_⟩
      · rw [hfunction]
        rfl
      · -- A call of itself.
        refine ⟨Reference.call file room (decls.take index).reverse decl, ?_, ?_⟩
        · simp [Reference.Site.ofDecl, Reference.find?, setting]
        · intro args hargs
          refine ih hf hdecl args ?_
          rw [hfunction]
          exact hargs
      · -- A call of an earlier function: names are distinct, so the declaration found under the
        -- name is the one that was analysed for it.
        intro name place g hne hentry
        obtain ⟨hbefore, hname⟩ := entry?_user hentry
        obtain ⟨hg, hlt⟩ := getElem?_before hbefore
        obtain ⟨other, hother, hanalyse'⟩ := h.exists_decl hg
        have hfind := Reference.find?_reverse_take hnodup hother hlt
        rw [← name_of_analyse hanalyse', hname] at hfind
        refine ⟨hg, Reference.call file room (decls.take place).reverse other, ?_,
          fun args => ih hg hother args⟩
        have hother : decl.name ≠ name := Ne.symm hne
        simp [Reference.Site.ofDecl, Reference.find?, hfind, hother]
    funext heap
    obtain ⟨scope, hagree⟩ := h.agree_body hf hdecl hsite hlength heap
    have hname : f.name = decl.name := by rw [hfunction]
    have hposition : ∀ cause, f.error cause = ⟨cause, ⟨file, decl.span.start⟩, some decl.name⟩ := by
      intro cause
      rw [hfunction]
      rfl
    rw [call, Reference.call]
    dsimp only
    rw [hposition, hname]
    exact Lowering.outcome_eq hagree

end Program

end ArrayScript
