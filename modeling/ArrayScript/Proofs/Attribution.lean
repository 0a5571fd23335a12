import ArrayScript.Proofs.Marks
import ArrayScript.Proofs.Operations
import ArrayScript.Proofs.Termination

/-!
# `ArrayScript.Proofs.Attribution`: whose errors they are

Every error has a position, and where it arises inside a function it names that function. This
module proves that both are right (`Source.error_attributed`).

For the errors of analysis this is `ArrayScript.Proofs.Marks`. For those of a run the machine of
`ArrayScript.Proofs.Machine` says which call was innermost when the error arose. The invariant is
that every open call belongs to a function of the program, and that all code that is left to run in
it has its offsets inside the declaration of that function (`Machine.Placed`). A step keeps this up
or halts; an error that it halts with belongs to the function of the innermost call, except that a
call which would nest too deeply is reported by the function that it could not enter
(`Machine.follows_step`). Code raises errors without a function, and every open call would put its
own function there: that the innermost one is named is `Error.through_cons`.
-/

set_option autoImplicit false

namespace ArrayScript

open Code (Term Step)

/-! ### Causes -/

/-- Whether a cause is that calls nest too deeply. -/
def Cause.tooDeep : Cause → Bool
  | callDepthExceeded .. => true
  | _ => false

/-- Whether an operation has nothing to do with the nesting of calls, if it fails. -/
def Shallow {α : Type} (r : Except Cause α) : Prop :=
  ∀ cause, r = .error cause → cause.tooDeep = false

namespace Shallow

variable {α β : Type}

/-- An operation that has its result does not fail for any cause. -/
theorem ok (a : α) : Shallow (.ok a) :=
  nofun

/-- An operation that fails at once is shallow if its cause is, which is computed. -/
theorem error {cause : Cause} (h : cause.tooDeep = false) : Shallow (α := α) (.error cause) := by
  rintro _ ⟨⟩
  exact h

/-- Two operations in sequence are shallow if each of them is. -/
theorem bind {r : Except Cause α} {k : α → Except Cause β} (hr : Shallow r)
    (hk : ∀ a, Shallow (k a)) : Shallow (r >>= k) := by
  cases r with
  | ok a => exact hk a
  | error cause => exact error (hr cause rfl)

/-- An operation that fails only because of its values is not concerned with calls. -/
theorem of_failsByValue {r : Except Cause α} (h : FailsByValue r) : Shallow r := by
  intro cause hr
  have hvalues := h cause hr
  cases cause <;> first | rfl | cases hvalues

/-- Taking a value as a number has nothing to do with the depth of calls. -/
theorem toNumber (v : Value) : Shallow v.toNumber :=
  of_failsByValue (.toNumber v)

/-- Taking a number as a size has nothing to do with the depth of calls. -/
theorem toSize (x : Float) : Shallow (Number.toSize x) :=
  of_failsByValue (.toSize x)

/-- Following a path has nothing to do with the depth of calls. -/
theorem walk (heap : Heap) (v : Value) (path : List Float) : Shallow (heap.walk v path) :=
  of_failsByValue (.walk heap v path)

/-- Looking for a cell has nothing to do with the depth of calls. -/
theorem cell (heap : Heap) (v : Value) (index : Float) : Shallow (heap.cell v index) :=
  of_failsByValue (.cell heap v index)

/-- Builtins are run without entering a function, so no call becomes deeper by them. -/
theorem apply (b : Builtin) (heap : Heap) (args : List Value) : Shallow (b.apply heap args) :=
  of_failsByValue (.apply b heap args)

/-- Reading a variable fails only if it was not assigned, which is no matter of depth either. -/
theorem read (m : Machine) (name : String) (slot : Nat) : Shallow (m.read name slot) := by
  unfold Machine.read
  split
  · exact ok _
  · exact error rfl

/-- Finding the cell of an assignment is a sequence of the operations above. -/
theorem locate (m : Machine) (name : String) (slot : Nat) (path : List Float) (last : Float) :
    Shallow (m.locate name slot path last) :=
  (read m name slot).bind fun _ => (walk _ _ _).bind fun _ => cell _ _ _

end Shallow

/-! ### Code that is left to run -/

/-- Whether the code of every function has its offsets inside the declaration of the function. -/
def Program.Placed (p : Program) : Prop :=
  ∀ f ∈ p.functions, f.span.start ≤ f.span.stop ∧ Step.PlacedAll f.span.Holds f.body

namespace Machine

section

variable (P : Nat → Prop)

/-- Whether the offsets in what several numbers are for have a property. -/
def NumbersUse.Placed : NumbersUse → Prop
  | .element _ => True
  | .target _ _ value => value.Placed P

/-- Whether the offsets in what several values are for have a property. -/
def ValuesUse.Placed : ValuesUse → Prop
  | .list => True
  | .call offset _ _ => P offset

/-- Whether the offsets in an operation that waits have a property. -/
def Pending.Placed : Pending → Prop
  | .sizes offset _ left => P offset ∧ Term.PlacedAll P left
  | .numbers offset use _ left => P offset ∧ use.Placed P ∧ Term.PlacedAll P left
  | .values use _ left => use.Placed P ∧ Term.PlacedAll P left
  | .operand offset _ => P offset
  | .leftOperand offset _ right => P offset ∧ right.Placed P
  | .rightOperand offset _ _ => P offset
  | .condition offset pass fail => P offset ∧ Step.PlacedAll P pass ∧ Step.PlacedAll P fail
  | .assignment offset _ _ _ => P offset

/-- Whether the offsets in what the next step looks at have a property. -/
def Focus.Placed : Focus → Prop
  | .term t => t.Placed P
  | .call offset _ _ _ => P offset
  | .statement | .value _ => True

end

/-- Whether an open call is one of a function of the program, and what is left of it has its offsets
inside the declaration of that function. -/
structure Activation.Placed (p : Program) (a : Activation) : Prop where
  function : a.function ∈ p.functions
  steps : Step.PlacedAll a.function.span.Holds a.steps
  pending : ∀ use ∈ a.pending, use.Placed a.function.span.Holds

/-- Whether all open calls are placed. -/
structure Placed (p : Program) (m : Machine) : Prop where
  current : m.current.Placed p
  callers : ∀ a ∈ m.callers, a.Placed p

/-- The function that the next step calls, if it calls one. -/
def Focus.callee? (p : Program) (m : Machine) : Focus → Option Function
  | .call _ _ callee _ => m.callee? p callee
  | _ => none

end Machine

/-- Whether an error names a function and stands inside its declaration. -/
structure Error.Belongs (e : Error) (f : Function) : Prop where
  function : e.function = some f.name
  file : e.position.file = f.file
  offset : f.span.Holds e.position.offset

/-- Whether an error belongs where it has to: to the function of the innermost call or, where calls
nest too deeply, to the one that is called. -/
def Error.Blames (p : Program) (innermost : Function) (callee : Option Function) (e : Error) :
    Prop :=
  (e.cause.tooDeep = false ∧ e.Belongs innermost) ∨
    ∃ g ∈ p.functions, callee = some g ∧ e.cause = .callDepthExceeded g.name maxCallDepth ∧
      e.Belongs g

/-- What a step can lead to: a machine that is placed, a result, or an error that belongs where it
has to. -/
def Status.Follows (p : Program) (innermost : Function) (callee : Option Function) :
    Status → Prop
  | running focus m => m.Placed p ∧ focus.Placed m.current.function.span.Holds
  | halted (.ok _ _) => True
  | halted (.error e _) => e.Blames p innermost callee

namespace Machine

variable {p : Program} {m : Machine} {callee : Option Function} {offset : Nat}

/-! ### Operations -/

/-- An error in the current call belongs to its function, however many calls are around it. -/
theorem follows_fail {cause : Cause} (hoffset : m.current.function.span.Holds offset)
    (hcause : cause.tooDeep = false) :
    (m.fail offset cause).Follows p m.current.function callee := by
  unfold fail openNames
  rw [Error.through_cons]
  exact .inl ⟨hcause, rfl, rfl, hoffset⟩

/-- An operation that is attempted follows, if all that can come after it does. Where it fails, the
error is at the offset that was given, in the function that is running. -/
theorem follows_attempt {α : Type} {r : Except Cause α} {next : α → Status}
    (hoffset : m.current.function.span.Holds offset) (hr : Shallow r)
    (hnext : ∀ a, (next a).Follows p m.current.function callee) :
    (m.attempt offset r next).Follows p m.current.function callee := by
  cases r with
  | ok a => exact hnext a
  | error cause => exact follows_fail hoffset (hr cause rfl)

/-- Asking for the value of a term follows: the term and what is pending on it are code of the
function that is running. -/
theorem follows_ask (hm : m.Placed p) {t : Term} (ht : t.Placed m.current.function.span.Holds)
    (use : Pending) (huse : use.Placed m.current.function.span.Holds) :
    (m.ask t use).Follows p m.current.function callee :=
  ⟨⟨⟨hm.current.function, hm.current.steps, List.forall_mem_cons.mpr ⟨huse, hm.current.pending⟩⟩,
    hm.callers⟩, ht⟩

/-- Handing over a value follows, as nothing is left in focus but the value. -/
theorem follows_give (hm : m.Placed p) (v : Value) :
    (m.give v).Follows p m.current.function callee :=
  ⟨hm, trivial⟩

/-- Handing over a new array follows. Only the heap changes besides, and no code is in the heap. -/
theorem follows_giveNew (hm : m.Placed p) (made : Value × Heap) :
    (m.giveNew made).Follows p m.current.function callee :=
  ⟨⟨hm.current, hm.callers⟩, trivial⟩

/-- The machine is placed also with other statements to come, if those are. -/
theorem Placed.withSteps (hm : m.Placed p) {steps : List Step}
    (hsteps : Step.PlacedAll m.current.function.span.Holds steps) : (m.withSteps steps).Placed p :=
  ⟨⟨hm.current.function, hsteps, hm.current.pending⟩, hm.callers⟩

/-- Evaluating sizes follows, with some of them done and some left. When none is left, the array is
made. -/
theorem follows_forSizes (hm : m.Placed p) (hoffset : m.current.function.span.Holds offset)
    (done : List Nat) {left : List Term}
    (hleft : Term.PlacedAll m.current.function.span.Holds left) :
    (m.forSizes offset done left).Follows p m.current.function callee := by
  cases left with
  | nil => exact follows_giveNew hm _
  | cons t left => exact follows_ask hm hleft.1 _ ⟨hoffset, hleft.2⟩

/-- Evaluating indices follows, with some of them done and some left. What they are for decides how
it goes on. -/
theorem follows_forNumbers (hm : m.Placed p) (hoffset : m.current.function.span.Holds offset)
    (use : NumbersUse) (huse : use.Placed m.current.function.span.Holds) (done : List Float)
    {left : List Term} (hleft : Term.PlacedAll m.current.function.span.Holds left) :
    (m.forNumbers offset use done left).Follows p m.current.function callee := by
  cases left with
  | cons t left => exact follows_ask hm hleft.1 _ ⟨hoffset, huse, hleft.2⟩
  | nil =>
    cases use with
    | element base => exact follows_attempt hoffset (.walk _ _ _) fun v => follows_give hm v
    | target name slot value => exact follows_ask hm huse _ hoffset

/-- Evaluating values follows, with some of them done and some left. They become the items of a list
or the arguments of a call. -/
theorem follows_forValues (hm : m.Placed p) (use : ValuesUse)
    (huse : use.Placed m.current.function.span.Holds) (done : List Value) {left : List Term}
    (hleft : Term.PlacedAll m.current.function.span.Holds left) :
    (m.forValues use done left).Follows p m.current.function callee := by
  cases left with
  | cons t left => exact follows_ask hm hleft.1 _ ⟨huse, hleft.2⟩
  | nil =>
    cases use with
    | list => exact follows_giveNew hm _
    | call offset name callee => exact ⟨hm, huse⟩

/-! ### Steps -/

/-- Taking up the next step of a body follows. Where the body has ended without a result, the
function that is running is blamed at its own position. -/
theorem follows_execute (hp : p.Placed) (hm : m.Placed p) :
    m.execute.Follows p m.current.function callee := by
  have hsteps := hm.current.steps
  unfold execute
  split
  · -- The statements are used up, and the error stands where the declaration starts.
    have hspan := (hp m.current.function hm.current.function).1
    rw [Function.through_error]
    exact .inl ⟨rfl, rfl, rfl, Nat.le_refl _, hspan⟩
  next offset condition pass fail rest heq =>
    rw [heq] at hsteps
    obtain ⟨⟨hoffset, hcondition, hpass, hfail⟩, hrest⟩ := hsteps
    exact follows_ask (m := m.withSteps rest) (hm.withSteps hrest) hcondition _
      ⟨hoffset, hpass, hfail⟩
  next offset name slot indices value rest heq =>
    rw [heq] at hsteps
    obtain ⟨⟨hoffset, hindices, hvalue⟩, hrest⟩ := hsteps
    exact follows_forNumbers (m := m.withSteps rest) (hm.withSteps hrest) hoffset
      (.target name slot value) hvalue [] hindices
  next value rest heq =>
    rw [heq] at hsteps
    exact ⟨hm.withSteps trivial, hsteps.1⟩

/-- Evaluating a term follows, one case for each form of term. -/
theorem follows_evaluate (hm : m.Placed p) {t : Term}
    (ht : t.Placed m.current.function.span.Holds) :
    (m.evaluate t).Follows p m.current.function callee := by
  cases t with
  | number value => exact follows_give hm _
  | newArray offset sizes => exact follows_forSizes hm ht.1 [] ht.2
  | list ty items => exact follows_forValues hm .list trivial [] ht
  | slot offset name slot ty indices =>
    exact follows_attempt ht.1 (.read _ _ _) fun base =>
      follows_forNumbers hm ht.1 (.element base) trivial [] ht.2
  | call offset name callee ty args =>
    exact follows_forValues hm (.call offset name callee) ht.1 [] ht.2
  | unary offset op operand => exact follows_ask hm ht.2 (.operand offset op) ht.1
  | binary offset op left right =>
    exact follows_ask hm ht.2.1 (.leftOperand offset op right) ⟨ht.1, ht.2.2⟩

/-- Receiving a value follows, one case for each form of what can be pending on it. -/
theorem follows_receive (hm : m.Placed p) (v : Value) {use : Pending}
    (huse : use.Placed m.current.function.span.Holds) :
    (m.receive v use).Follows p m.current.function callee := by
  cases use with
  | sizes offset done left =>
    exact follows_attempt huse.1 ((Shallow.toNumber v).bind .toSize) fun size =>
      follows_forSizes hm huse.1 _ huse.2
  | numbers offset use done left =>
    exact follows_attempt huse.1 (.toNumber v) fun x =>
      follows_forNumbers hm huse.1 use huse.2.1 _ huse.2.2
  | values use done left => exact follows_forValues hm use huse.1 _ huse.2
  | operand offset op => exact follows_attempt huse (.toNumber v) fun _ => follows_give hm _
  | leftOperand offset op right =>
    refine follows_attempt huse.1 (.toNumber v) fun x => ?_
    cases op.shortcut? x with
    | some result => exact follows_give hm _
    | none => exact follows_ask hm huse.2 (.rightOperand offset op x) huse.1
  | rightOperand offset op x => exact follows_attempt huse (.toNumber v) fun _ => follows_give hm _
  | condition offset pass fail =>
    refine follows_attempt huse.1 (.toNumber v) fun x => ?_
    -- The chosen arm is put in front of the steps that are left, and both are code of this
    -- function.
    refine ⟨hm.withSteps (Code.Step.placedAll_append.mpr ⟨?_, hm.current.steps⟩), trivial⟩
    cases Number.truthy x with
    | true => exact huse.2.1
    | false => exact huse.2.2
  | assignment offset name slot path =>
    unfold receive
    dsimp only
    split
    · exact ⟨⟨⟨hm.current.function, hm.current.steps, hm.current.pending⟩, hm.callers⟩, trivial⟩
    · exact follows_attempt huse (.locate _ _ _ _ _) fun _ => ⟨⟨hm.current, hm.callers⟩, trivial⟩

/-- A function that is entered is placed, and one that cannot be entered is blamed. -/
theorem follows_enter (hp : p.Placed) (hm : m.Placed p) {g : Function} (hg : g ∈ p.functions)
    (args : List Value) : (m.enter g args).Follows p m.current.function (some g) := by
  obtain ⟨hspan, hbody⟩ := hp g hg
  unfold enter
  split
  · rw [Function.through_error]
    exact .inr ⟨g, hg, rfl, rfl, rfl, rfl, Nat.le_refl _, hspan⟩
  · exact ⟨⟨⟨hg, hbody, nofun⟩, List.forall_mem_cons.mpr ⟨hm.current, hm.callers⟩⟩, trivial⟩

/-- A call follows. The function that is called is one of the program, so its code is well placed,
or it is the one that is running. -/
theorem follows_call (hp : p.Placed) (hm : m.Placed p) (name : String) (args : List Value)
    (callee : Callee) (hoffset : m.current.function.span.Holds offset) :
    (m.call p offset name args callee).Follows p m.current.function (m.callee? p callee) := by
  cases callee with
  | builtin b => exact follows_attempt hoffset (.apply _ _ _) fun _ => follows_give hm _
  | self => exact follows_enter hp hm hm.current.function args
  | user index =>
    unfold call callee?
    dsimp only
    cases hindex : p.functions[index]? with
    | some g => exact follows_enter hp hm (List.mem_of_getElem? hindex) args
    | none => exact follows_fail hoffset rfl

/-- Leaving a function follows: the caller goes on, whose code has been well placed all along. -/
theorem follows_leave (hm : m.Placed p) (v : Value) :
    (m.leave v).Follows p m.current.function callee := by
  have hcallers := hm.callers
  unfold leave
  split
  · trivial
  next caller callers heq =>
    rw [heq] at hcallers
    obtain ⟨hcaller, hrest⟩ := List.forall_mem_cons.mp hcallers
    exact ⟨⟨hcaller, hrest⟩, trivial⟩

/-- A step of a placed machine leads to a placed machine, to a result, or to an error that belongs
where it has to. -/
theorem follows_step (hp : p.Placed) (hm : m.Placed p) {focus : Focus}
    (hfocus : focus.Placed m.current.function.span.Holds) :
    (m.step p focus).Follows p m.current.function (focus.callee? p m) := by
  cases focus with
  | statement => exact follows_execute hp hm
  | term t => exact follows_evaluate hm hfocus
  | call offset name callee args => exact follows_call hp hm name args callee hfocus
  | value v =>
    have hpending := hm.current.pending
    unfold step
    dsimp only
    split
    next use pending heq =>
      rw [heq] at hpending
      obtain ⟨huse, hrest⟩ := List.forall_mem_cons.mp hpending
      have hm' : Placed p { m with current := { m.current with pending } } :=
        ⟨⟨hm.current.function, hm.current.steps, hrest⟩, hm.callers⟩
      exact follows_receive hm' v huse
    · exact follows_leave hm v

end Machine

/-! ### Runs -/

namespace Status

variable {p : Program}

/-- Whether a machine is placed, if it runs. -/
def Placed (p : Program) : Status → Prop
  | running focus m => m.Placed p ∧ focus.Placed m.current.function.span.Holds
  | halted _ => True

/-- Along every run the machine is placed. -/
theorem placed_run (hp : p.Placed) {s : Status} (h : s.Placed p) (count : Nat) :
    (s.run p count).Placed p := by
  induction count with
  | zero => exact h
  | succ count ih =>
    rw [run, Function.iterate_succ_apply', ← run]
    cases hs : s.run p count with
    | halted outcome => trivial
    | running focus m =>
      rw [hs] at ih
      have hstep := Machine.follows_step hp ih.1 ih.2
      show (m.step p focus).Placed p
      cases hnext : m.step p focus with
      | halted outcome => trivial
      | running focus' m' =>
        rw [hnext] at hstep
        exact hstep

/-- A machine that has halted was running one step before, unless it never ran. -/
theorem exists_last {focus : Machine.Focus} {m : Machine} {count : Nat}
    {outcome : EStateM.Result Error Heap Value}
    (h : (running focus m).run p count = halted outcome) :
    ∃ last focus' m', (running focus m).run p last = running focus' m' ∧
      (running focus m).run p (last + 1) = halted outcome := by
  induction count with
  | zero => cases h
  | succ count ih =>
    cases hlast : (running focus m).run p count with
    | running focus' m' => exact ⟨count, focus', m', hlast, h⟩
    | halted outcome' =>
      rw [run, Function.iterate_succ_apply', ← run, hlast] at h
      exact ih (hlast.trans h)

end Status

namespace Program

variable {p : Program}

/-- An error of a call that a host makes with fitting arguments belongs to the function whose call
was innermost when it arose, or to the one that could not be entered then. -/
theorem exists_blamed (hp : p.Placed) {f : Function} (hf : f ∈ p.functions) {args : List Value}
    {heap heap' : Heap} (haccepts : Accepts f args heap) {e : Error}
    (h : p.invokeFunction f args heap = .error e heap') :
    ∃ count focus m, (Status.start f args heap).run p count = .running focus m ∧
      (Status.start f args heap).run p (count + 1) = .halted (.error e heap') ∧
      m.current.function ∈ p.functions ∧ e.Blames p m.current.function (focus.callee? p m) := by
  have hstart : Status.start f args heap
      = .running .statement { current := .ofCall f args, callers := [], heap } := by
    unfold Status.start
    dsimp only
    rw [if_neg (not_not.mpr haccepts.1), haccepts.2]
  obtain ⟨total, htotal⟩ := reaches_invokeFunction p f args heap
  rw [h, hstart] at htotal
  -- The machine has halted, so there is a last state in which it was running. Its code is well
  -- placed like that of all states before it, and the step from there is what blames a function.
  obtain ⟨count, focus, m, hrun, hhalt⟩ := Status.exists_last htotal
  have hplaced : (Status.running .statement
      { current := .ofCall f args, callers := [], heap }).Placed p :=
    ⟨⟨⟨hf, (hp f hf).2, nofun⟩, nofun⟩, trivial⟩
  have hm := Status.placed_run hp hplaced count
  rw [hrun] at hm
  have hstep := Machine.follows_step hp hm.1 hm.2
  have hnext : m.step p focus = .halted (.error e heap') := by
    rw [Status.run, Function.iterate_succ_apply', ← Status.run, hrun] at hhalt
    exact hhalt
  rw [hnext] at hstep
  rw [hstart]
  exact ⟨count, focus, m, hrun, hhalt, hm.1.current.function, hstep⟩

/-- An error of analysis belongs to the first declaration that is refused. It stands inside the
declaration, unless the name of that is taken. -/
theorem exists_refused {file : String} {tokens : List Token} {decls : List Decl}
    (hnested : ∀ decl ∈ decls, decl.Nested tokens) {e : Error}
    (h : ofDecls file decls = .error e) :
    ∃ earlier decl later p, decls = earlier ++ decl :: later ∧ ofDecls file earlier = .ok p ∧
      p.analyse file decl = .error e ∧ e.position.file = file ∧
      ((e.cause.redeclares = true ∧ e.function = none ∧ e.position.offset = decl.span.start) ∨
        (e.cause.redeclares = false ∧ e.function = some decl.name ∧
          (decl.span.Marks tokens e.position.offset ∨ e.position.offset = decl.span.stop))) := by
  obtain ⟨earlier, decl, later, p, rfl, hbuilt, herror⟩ := ofDecls_error h
  have hdecl : decl.Nested tokens := hnested decl (by simp)
  refine ⟨earlier, decl, later, p, rfl, ofDecls_ok.mpr hbuilt, herror, ?_⟩
  rcases analyse_error.mp herror with ⟨-, rfl⟩ | ⟨-, -, rfl⟩ | ⟨-, -, fault, hfault, rfl⟩
  · exact ⟨rfl, .inl ⟨rfl, rfl, rfl⟩⟩
  · exact ⟨rfl, .inl ⟨rfl, rfl, rfl⟩⟩
  · obtain ⟨hoffset, hcause⟩ := fault_of_analyseDecl hdecl hfault
    exact ⟨rfl, .inr ⟨hcause, rfl, hoffset⟩⟩

/-- Every function has a declaration, with the same name and span. -/
theorem Built.exists_mem_decl {file : String} {decls : List Decl} (h : Built file decls p)
    {f : Function} (hf : f ∈ p.functions) :
    ∃ decl ∈ decls, ∃ q : Program, q.analyse file decl = .ok f := by
  obtain ⟨index, hindex⟩ := List.mem_iff_getElem?.mp hf
  obtain ⟨decl, hdecl, hanalyse⟩ := h.exists_decl hindex
  exact ⟨decl, List.mem_of_getElem? hdecl, _, hanalyse⟩

/-- The program of declarations with nested spans is placed. -/
theorem Built.placed {file : String} {tokens : List Token} {decls : List Decl}
    (h : Built file decls p) (hnested : ∀ decl ∈ decls, decl.Nested tokens) : p.Placed := by
  intro f hf
  obtain ⟨decl, hdecl, q, hanalyse⟩ := h.exists_mem_decl hf
  obtain ⟨-, hspan, hbody⟩ := placed_of_analyse (hnested decl hdecl) hanalyse
  have hlt := (hnested decl hdecl).1.lt
  rw [hspan]
  exact ⟨Nat.le_of_lt hlt, hbody⟩

end Program

/-! ### Texts -/

namespace Source

variable {source : Source} {decls : List Decl}

/-- The declarations of a text come from its tokens. -/
theorem exists_tokens (h : source.decls = .ok decls) :
    ∃ tokens, Token.scan source.text = .ok tokens ∧ Decl.parse tokens = .ok decls := by
  unfold Source.decls Source.tokens at h
  cases hscan : Token.scan source.text with
  | error fault =>
    rw [hscan] at h
    cases h
  | ok tokens =>
    rw [hscan] at h
    refine ⟨tokens, rfl, ?_⟩
    cases hparse : Decl.parse tokens with
    | error fault => simp [hparse, orError, bind, Except.bind] at h
    | ok decls' => simpa [hparse, orError, bind, Except.bind] using h

/-- Whether an offset is one where reading a text stops: at the fault, if the text cannot be taken
apart, and else at the start or at the stop of a token. -/
def Stops (source : Source) (offset : Nat) : Prop :=
  (∃ fault, Token.scan source.text = .error fault ∧ fault.offset = offset) ∨
    ∃ tokens token, Token.scan source.text = .ok tokens ∧ token ∈ tokens ∧
      (token.span.start = offset ∨ token.span.stop = offset)

/-- Reading stops at character boundaries. -/
theorem Stops.boundary {offset : Nat} (h : source.Stops offset) :
    Text.Boundary source.text.toList offset := by
  rcases h with ⟨fault, hscan, rfl⟩ | ⟨tokens, token, hscan, htoken, rfl | rfl⟩
  · obtain ⟨front, back, hsplit, hwidth⟩ := Token.boundary_of_scanFrom_error hscan
    rw [Nat.zero_add] at hwidth
    exact ⟨front, back, hsplit, hwidth⟩
  · exact (Token.boundary_of_mem hscan htoken).1
  · exact (Token.boundary_of_mem hscan htoken).2

/-- A text without declarations has a fault where reading stops. -/
theorem stops_of_decls_error {e : Error} (h : source.decls = .error e) :
    source.Stops e.position.offset := by
  unfold Source.decls Source.tokens at h
  cases hscan : Token.scan source.text with
  | error fault =>
    rw [hscan] at h
    cases h
    exact .inl ⟨fault, hscan, rfl⟩
  | ok tokens =>
    rw [hscan] at h
    cases hparse : Decl.parse tokens with
    | ok decls => simp [hparse, orError, bind, Except.bind] at h
    | error fault =>
      obtain rfl : fault.inFile source.file = e := by
        simpa [hparse, orError, bind, Except.bind] using h
      obtain ⟨token, htoken, hstart⟩ := Decl.exists_start_of_parse hscan hparse
      exact .inr ⟨tokens, token, hscan, htoken, .inl hstart⟩

/-- A text whose declarations are refused has a fault where reading stops. -/
theorem stops_of_ofDecls_error (hdecls : source.decls = .ok decls) {e : Error}
    (h : Program.ofDecls source.file decls = .error e) : source.Stops e.position.offset := by
  obtain ⟨tokens, hscan, hparse⟩ := exists_tokens hdecls
  have hnested := Decl.nested_of_parse hscan hparse
  obtain ⟨earlier, decl, later, p, rfl, -, -, -, hplace⟩ := Program.exists_refused hnested h
  have hcovers := (hnested decl (by simp)).1
  rcases hplace with ⟨-, -, hstart⟩ | ⟨-, -, hmark | hstop⟩
  · obtain ⟨token, htoken, htokenStart⟩ := hcovers.start
    exact .inr ⟨tokens, token, hscan, htoken, .inl (htokenStart.trans hstart.symm)⟩
  · obtain ⟨token, htoken, htokenStart⟩ := hmark.token
    exact .inr ⟨tokens, token, hscan, htoken, .inl htokenStart⟩
  · obtain ⟨token, htoken, htokenStop⟩ := hcovers.stop
    exact .inr ⟨tokens, token, hscan, htoken, .inr (htokenStop.trans hstop.symm)⟩

/-- A text without declarations has a fault at a character boundary. -/
theorem boundary_of_decls_error {e : Error} (h : source.decls = .error e) :
    Text.Boundary source.text.toList e.position.offset :=
  (stops_of_decls_error h).boundary

/-- A text whose declarations are refused has a fault at a character boundary. -/
theorem boundary_of_ofDecls_error (hdecls : source.decls = .ok decls) {e : Error}
    (h : Program.ofDecls source.file decls = .error e) :
    Text.Boundary source.text.toList e.position.offset :=
  (stops_of_ofDecls_error hdecls h).boundary

/-- The program of a text with declarations is what analysis makes of those. -/
theorem compile_eq (hdecls : source.decls = .ok decls) :
    source.compile = Program.ofDecls source.file decls := by
  simp [compile, hdecls, bind, Except.bind]

/-- An error of a call that a host makes belongs to a function of the program, and stands inside its
declaration. -/
theorem exists_attributed (hdecls : source.decls = .ok decls) {p : Program}
    (hcompile : source.compile = .ok p) {f : Function} (hf : f ∈ p.functions) {args : List Value}
    {heap heap' : Heap} (haccepts : Program.Accepts f args heap) {e : Error}
    (h : p.invoke f.name args heap = .error e heap') :
    ∃ g ∈ p.functions, ∃ decl ∈ decls, decl.name = g.name ∧ e.function = some g.name ∧
      e.position.file = source.file ∧ decl.span.Holds e.position.offset ∧
      ∃ count focus m, (Status.start f args heap).run p count = .running focus m ∧
        (Status.start f args heap).run p (count + 1) = .halted (.error e heap') ∧
        ((e.cause.tooDeep = false ∧ g = m.current.function) ∨
          (e.cause = .callDepthExceeded g.name maxCallDepth ∧ focus.callee? p m = some g)) := by
  obtain ⟨tokens, hscan, hparse⟩ := exists_tokens hdecls
  have hnested := Decl.nested_of_parse hscan hparse
  have hbuilt := Program.ofDecls_ok.mp ((compile_eq hdecls).symm.trans hcompile)
  rw [hbuilt.invoke_name hf] at h
  obtain ⟨count, focus, m, hrun, hhalt, hmem, hblames⟩ :=
    Program.exists_blamed (hbuilt.placed hnested) hf haccepts h
  -- Both kinds of errors belong to some function; its declaration has its span and name.
  have hdeclared {g : Function} (hg : g ∈ p.functions) (hbelongs : e.Belongs g) :
      ∃ decl ∈ decls, decl.name = g.name ∧ e.function = some g.name ∧
        e.position.file = source.file ∧ decl.span.Holds e.position.offset := by
    obtain ⟨decl, hdecl, q, hanalyse⟩ := hbuilt.exists_mem_decl hg
    obtain ⟨hfile, hspan, -⟩ := Program.placed_of_analyse (hnested decl hdecl) hanalyse
    refine ⟨decl, hdecl, (Program.name_of_analyse hanalyse).symm, hbelongs.function,
      hbelongs.file.trans hfile, ?_⟩
    rw [← hspan]
    exact hbelongs.offset
  rcases hblames with ⟨hcause, hbelongs⟩ | ⟨g, hg, hcallee, hcause, hbelongs⟩
  · obtain ⟨decl, hdecl, hname, hfunction, hfile, hholds⟩ := hdeclared hmem hbelongs
    exact ⟨_, hmem, decl, hdecl, hname, hfunction, hfile, hholds, count, focus, m, hrun, hhalt,
      .inl ⟨hcause, rfl⟩⟩
  · obtain ⟨decl, hdecl, hname, hfunction, hfile, hholds⟩ := hdeclared hg hbelongs
    exact ⟨g, hg, decl, hdecl, hname, hfunction, hfile, hholds, count, focus, m, hrun, hhalt,
      .inr ⟨hcause, hcallee⟩⟩

/-- Errors name the right function and stand in the right place.

* Every error of a text stands at a character boundary, and not behind the end of the text.
* An error of analysis is that of the first declaration which is refused. It names the declaration
  and stands inside it; only that the name of the declaration is taken is an error without a
  function, at the start of the declaration.
* An error of a function that a host calls with fitting arguments names a function of the program
  and stands inside its declaration. In the last state of the run before the error, that function
  is the one whose call is innermost, except where calls nest too deeply: then it is the function
  that the innermost one calls. -/
theorem error_attributed (source : Source) :
    (∀ e, source.compile = .error e →
      Text.Boundary source.text.toList e.position.offset ∧
        e.position.offset ≤ source.text.utf8ByteSize) ∧
    (∀ decls e, source.decls = .ok decls → source.compile = .error e →
      ∃ earlier decl later p, decls = earlier ++ decl :: later ∧
        Program.ofDecls source.file earlier = .ok p ∧ p.analyse source.file decl = .error e ∧
        e.position.file = source.file ∧
        ((e.cause.redeclares = true ∧ e.function = none ∧
            e.position.offset = decl.span.start) ∨
          (e.cause.redeclares = false ∧ e.function = some decl.name ∧
            decl.span.start ≤ e.position.offset ∧ e.position.offset ≤ decl.span.stop))) ∧
    ∀ decls p f args heap e heap', source.decls = .ok decls → source.compile = .ok p →
      f ∈ p.functions → Program.Accepts f args heap → p.invoke f.name args heap = .error e heap' →
      ∃ g ∈ p.functions, ∃ decl ∈ decls, decl.name = g.name ∧ e.function = some g.name ∧
        e.position.file = source.file ∧
        (decl.span.start ≤ e.position.offset ∧ e.position.offset ≤ decl.span.stop) ∧
        ∃ count focus m, (Status.start f args heap).run p count = .running focus m ∧
          (Status.start f args heap).run p (count + 1) = .halted (.error e heap') ∧
          ((e.cause.tooDeep = false ∧ g = m.current.function) ∨
            (e.cause = .callDepthExceeded g.name 256 ∧ focus.callee? p m = some g)) := by
  refine ⟨?_, ?_, ?_⟩
  · -- The text may be refused before there are declarations, or at one of them.
    intro e h
    have hboundary : Text.Boundary source.text.toList e.position.offset := by
      cases hdecls : source.decls with
      | error e' =>
        obtain rfl : e' = e := by simpa [compile, hdecls, bind, Except.bind] using h
        exact boundary_of_decls_error hdecls
      | ok decls => exact boundary_of_ofDecls_error hdecls ((compile_eq hdecls).symm.trans h)
    refine ⟨hboundary, ?_⟩
    rw [← Text.width_toList]
    exact hboundary.le_width
  · intro decls e hdecls h
    obtain ⟨tokens, hscan, hparse⟩ := exists_tokens hdecls
    have hnested := Decl.nested_of_parse hscan hparse
    obtain ⟨earlier, decl, later, p, rfl, hp, herror, hfile, hplace⟩ :=
      Program.exists_refused hnested ((compile_eq hdecls).symm.trans h)
    have hlt := (hnested decl (by simp)).1.lt
    refine ⟨earlier, decl, later, p, rfl, hp, herror, hfile, ?_⟩
    -- The error is at the start of a node of the declaration, or at its end where a return is
    -- missing.
    rcases hplace with hstart | ⟨hcause, hfunction, hmark | hstop⟩
    · exact .inl hstart
    · exact .inr ⟨hcause, hfunction, hmark.holds⟩
    · rw [hstop]
      exact .inr ⟨hcause, hfunction, Nat.le_of_lt hlt, Nat.le_refl _⟩
  · intro decls p f args heap e heap' hdecls hcompile hf haccepts h
    exact exists_attributed hdecls hcompile hf haccepts h

/-- A text that is no program: the letter in its comment takes two bytes. -/
def stray : Source :=
  ⟨"stray", "// é\n§"⟩

/-- Two functions, of which the second one is called and the first one fails. -/
def overrun : Source :=
  ⟨"overrun", "g(a: number[]) { return a[1]; } f() { return g([7]); }"⟩

/-- Whether an outcome is an error that names a function, and not that calls nested too deeply. -/
def blames (name : String) : EStateM.Result Error Heap Value → Bool
  | .error e _ => e.function == some name && !e.cause.tooDeep
  | .ok _ _ => false

/-- The error of a text that cannot be taken apart stands at its sixth byte. The error of an index
that is out of bounds names the function in whose call it arose, and not the one that was called by
the host. -/
theorem error_attributed_overrun :
    (∃ e, stray.compile = .error e ∧ Text.Boundary stray.text.toList e.position.offset) ∧
    ∃ p f e heap, overrun.compile = .ok p ∧ f ∈ p.functions ∧ f.name = "f" ∧
      p.invoke f.name [] .empty = .error e heap ∧ e.function = some "g" ∧
      ∃ g ∈ p.functions, g.name = "g" ∧
        ∃ count focus m, (Status.start f [] .empty).run p count = .running focus m ∧
          (Status.start f [] .empty).run p (count + 1) = .halted (.error e heap) ∧
          m.current.function = g := by
  refine ⟨?_, ?_⟩
  · have hfails : stray.compile.isOk = false := by decide +kernel
    cases hcompile : stray.compile with
    | ok p => simp [hcompile, Except.isOk, Except.toBool] at hfails
    | error e => exact ⟨e, rfl, ((error_attributed stray).1 e hcompile).1⟩
  · have hrun : (overrun.decls.toOption.bind fun decls =>
        (Program.ofDecls "overrun" decls).toOption.map fun p => p.functions.map fun f =>
          (f.name, f.params.length, blames "g" (p.invoke f.name [] .empty)))
        = some [("g", 1, false), ("f", 0, true)] := by
      decide +kernel
    obtain ⟨decls, hdecls, hrun⟩ := Option.bind_eq_some_iff.mp hrun
    obtain ⟨p, hprogram, hfunctions⟩ := Option.map_eq_some_iff.mp hrun
    obtain ⟨g, rest, hp, hg, hrest⟩ := List.map_eq_cons_iff.mp hfunctions
    obtain ⟨f, rfl, hf⟩ := List.map_eq_singleton_iff.mp hrest
    simp only [Prod.mk.injEq] at hg hf
    have hdecls := eq_ok_of_toOption hdecls
    have hcompile : overrun.compile = .ok p :=
      (compile_eq hdecls).trans (eq_ok_of_toOption hprogram)
    have hmem : f ∈ p.functions := by simp [hp]
    have haccepts : Program.Accepts f [] .empty := ⟨hf.2.1.symm, rfl⟩
    cases hinvoke : p.invoke f.name [] .empty with
    | ok v heap => simp [hinvoke, blames] at hf
    | error e heap =>
      rw [hinvoke] at hf
      simp only [blames, Bool.and_eq_true, beq_iff_eq, Bool.not_eq_true'] at hf
      obtain ⟨hname, -, hfunction, hshallow⟩ := hf
      obtain ⟨owner, howner, decl, -, -, hblamed, -, -, count, focus, m, hlast, hhalt, hcase⟩ :=
        (error_attributed overrun).2.2 decls p f [] .empty e heap hdecls hcompile hmem haccepts
          hinvoke
      rw [hfunction, Option.some.injEq] at hblamed
      refine ⟨p, f, e, heap, hcompile, hmem, hname, hinvoke, hfunction, owner, howner, hblamed.symm,
        count, focus, m, hlast, hhalt, ?_⟩
      rcases hcase with ⟨-, hinnermost⟩ | ⟨hcause, -⟩
      · exact hinnermost.symm
      · rw [hcause] at hshallow
        cases hshallow

end Source

end ArrayScript
