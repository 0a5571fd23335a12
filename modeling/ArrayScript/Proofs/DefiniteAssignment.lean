import ArrayScript.Proofs.Lowering
import ArrayScript.Proofs.Nesting
import ArrayScript.Proofs.Operations
import ArrayScript.Proofs.Pledge

/-!
# `ArrayScript.Proofs.DefiniteAssignment`: variables that have a value where they are read

A run can reach a variable before any assignment to it, and then fails. Which reads can fail in this
way is a matter of the text. `Stmt.Definite` is the rule by which one can tell: it goes through the
statements of a block in order, keeps a list of the variables that the statements so far have
assigned, and asks of every read that its variable is on the list. What an arm assigns counts inside
that arm only.

The rule leaves room for exceptions. A predicate says which reads are `excused`, and only the others
have to pass. So one can follow a single variable, or look at a single part of a function.

`Program.Built.excused_invoke` is the soundness of the rule: if the body of every declaration passes
it, with the parameters on the list, then no run fails at a read that is not excused. It is proved
for the evaluator that runs declarations as they are written, where variables have names
(`ArrayScript.Proofs.Reference`). The invariant along a run is that variables which have a value
never lose it (`Reference.lasting`).
-/

set_option autoImplicit false

namespace ArrayScript

/-! ### Reads -/

namespace Fragment

variable {excused : Nat → String → Prop} {known known' : List String}
  {fragment part inner : Fragment}

/-- Where a fragment reads variables by itself, rather than in a fragment below it. A compound
assignment reads what it overwrites, and the assignment of an element reads the variable that the
array is in. -/
def reads : Fragment → List (Nat × String)
  | expr (.var span name _) => [(span.start, name)]
  | stmt (.update _ _ t _) => [(t.span.start, t.name)]
  | target t => if t.indices.isEmpty then [] else [(t.span.start, t.name)]
  | _ => []

/-- Whether each read in a fragment, at any depth, is excused or of a variable that is known to have
a value. -/
def Covered (excused : Nat → String → Prop) (known : List String) (fragment : Fragment) : Prop :=
  ∀ inner, Occurs [fragment] inner → ∀ offset name, (offset, name) ∈ inner.reads →
    excused offset name ∨ name ∈ known

/-- A fragment occurs in itself. -/
theorem Occurs.self (fragment : Fragment) : Occurs [fragment] fragment :=
  .root (List.mem_singleton_self fragment)

/-- What occurs in a fragment occurs wherever the fragment does. -/
theorem Occurs.trans {roots : List Fragment} (h : Occurs [part] inner) (hpart : Occurs roots part) :
    Occurs roots inner := by
  induction h with
  | root hroot =>
    rw [List.mem_singleton.mp hroot]
    exact hpart
  | child _ hmem ih => exact .child ih hmem

/-- What occurs in a fragment is the fragment itself or occurs in a child. -/
theorem Occurs.eq_or_child (h : Occurs [fragment] inner) :
    inner = fragment ∨ ∃ child ∈ fragment.children, Occurs [child] inner := by
  induction h with
  | root hroot => exact .inl (List.mem_singleton.mp hroot)
  | child _ hmem ih =>
    rcases ih with rfl | ⟨child, hchild, hinner⟩
    · exact .inr ⟨_, hmem, .self _⟩
    · exact .inr ⟨child, hchild, .child hinner hmem⟩

namespace Covered

theorem child (h : fragment.Covered excused known) (hpart : part ∈ fragment.children) :
    part.Covered excused known :=
  fun inner hinner => h inner (hinner.trans (.child (.self fragment) hpart))

theorem mono (h : fragment.Covered excused known) (hknown : known ⊆ known') :
    fragment.Covered excused known' := by
  intro inner hinner offset name hread
  exact (h inner hinner offset name hread).imp_right fun hname => hknown hname

/-- The reads of a fragment are those that it makes by itself and those of its children. -/
theorem of_children
    (hreads : ∀ offset name, (offset, name) ∈ fragment.reads → excused offset name ∨ name ∈ known)
    (hchildren : ∀ child ∈ fragment.children, child.Covered excused known) :
    fragment.Covered excused known := by
  intro inner hinner
  rcases hinner.eq_or_child with rfl | ⟨child, hchild, hinner⟩
  · exact hreads
  · exact hchildren child hchild inner hinner

/-- A fragment that reads nothing by itself reads what its children do. -/
theorem of_silent (hreads : fragment.reads = [])
    (hchildren : ∀ child ∈ fragment.children, child.Covered excused known) :
    fragment.Covered excused known := by
  refine .of_children (fun offset name hread => ?_) hchildren
  rw [hreads] at hread
  cases hread

/-- A target reads at most what its expression does. -/
theorem target_of_read {t : Target} (h : (expr t.read).Covered excused known) :
    (target t).Covered excused known := by
  refine .of_children (fun offset name hread => ?_) fun child hchild => h.child hchild
  rw [reads] at hread
  split at hread
  · cases hread
  · exact h _ (.self _) offset name hread

/-- The value that a compound assignment abbreviates reads what the assignment does. -/
theorem longhand {span : Span} {op : CompoundOp} {t : Target} {value : Expr}
    (h : (stmt (.update span op t value)).Covered excused known) :
    (expr (.binary span op.longhand t.read value)).Covered excused known := by
  have htarget : (target t).Covered excused known := h.child (by simp [children])
  have hvalue : (expr value).Covered excused known := h.child (by simp [children])
  have hread : (expr t.read).Covered excused known := by
    refine .of_children (fun offset name hmem => ?_) fun child hchild => htarget.child hchild
    exact h _ (.self _) offset name hmem
  refine .of_silent rfl ?_
  exact List.forall_mem_cons.mpr ⟨hread, List.forall_mem_singleton.mpr hvalue⟩

end Covered

end Fragment

/-! ### The rule -/

namespace Stmt

/-- The variable that a statement assigns, what it does in arms apart. -/
def assigned? : Stmt → Option String
  | .assign _ target _ | .update _ _ target _ => some target.name
  | .branch .. | .ret .. => none

section
variable (excused : Nat → String → Prop)

mutual

/-- Whether each read in a statement is excused or of a variable that has a value by then, if those
that are `known` have one in front of the statement. -/
def Definite (known : List String) : Stmt → Prop
  | .branch _ condition pass fail =>
    (Fragment.expr condition).Covered excused known ∧ DefiniteAll known pass ∧
      DefiniteOption known fail
  | stmt => (Fragment.stmt stmt).Covered excused known

/-- Companion for a block, in which more and more variables are known. -/
def DefiniteAll (known : List String) : List Stmt → Prop
  | [] => True
  | stmt :: rest => stmt.Definite known ∧ DefiniteAll (stmt.assigned?.toList ++ known) rest

/-- Companion for a block that may be absent. -/
def DefiniteOption (known : List String) : Option (List Stmt) → Prop
  | none => True
  | some block => DefiniteAll known block

end

end

variable {excused : Nat → String → Prop}

mutual

/-- A statement passes if all its reads are in order already in front of it. -/
theorem definite_of_covered : ∀ (stmt : Stmt) {known : List String},
    (Fragment.stmt stmt).Covered excused known → stmt.Definite excused known
  | .branch _ condition pass fail, known, h => by
    refine ⟨h.child (by simp [Fragment.children]), ?_, ?_⟩
    · exact definiteAll_of_covered pass fun s hs => h.child (by simp [Fragment.children, hs])
    · exact definiteOption_of_covered fail fun s hs => h.child (by simp [Fragment.children, hs])
  | .assign .., known, h => h
  | .update .., known, h => h
  | .ret .., known, h => h

/-- Companion for a block. -/
theorem definiteAll_of_covered : ∀ (block : List Stmt) {known : List String},
    (∀ stmt ∈ block, (Fragment.stmt stmt).Covered excused known) →
      DefiniteAll excused known block
  | [], _, _ => trivial
  | stmt :: rest, known, h => by
    obtain ⟨hstmt, hrest⟩ := List.forall_mem_cons.mp h
    refine ⟨definite_of_covered stmt hstmt, definiteAll_of_covered rest fun s hs => ?_⟩
    exact (hrest s hs).mono (List.subset_append_right _ _)

/-- Companion for a block that may be absent. -/
theorem definiteOption_of_covered : ∀ (block : Option (List Stmt)) {known : List String},
    (∀ stmt ∈ block.getD [], (Fragment.stmt stmt).Covered excused known) →
      DefiniteOption excused known block
  | none, _, _ => trivial
  | some block, _, h => definiteAll_of_covered block h

end

end Stmt

/-! ### Errors that are excused -/

variable {excused : String → Nat → String → Prop}

/-- Whether an error is anything but a read, in some function, at some offset and of some variable,
that is not excused. -/
def Error.Excused (excused : String → Nat → String → Prop) (e : Error) : Prop :=
  ∀ function name, e.function = some function → e.cause = .uninitialized name →
    excused function e.position.offset name

/-- Whether a computation on the heap can end only in errors that are excused. -/
def Run.Excused (excused : String → Nat → String → Prop) {α : Type} (m : Run α) : Prop :=
  ∀ heap e heap', m heap = .error e heap' → e.Excused excused

/-- An error with another cause is excused. -/
theorem Error.excused_of_ne {e : Error} (h : ∀ name, e.cause ≠ .uninitialized name) :
    e.Excused excused :=
  fun _ name _ hcause => absurd hcause (h name)

/-- A cause that lies in the values has nothing to do with variables. -/
theorem Error.excused_of_ofValues {e : Error} (h : e.cause.ofValues = true) :
    e.Excused excused := by
  refine excused_of_ne fun name hcause => ?_
  rw [hcause] at h
  cases h

namespace Run.Excused

variable {α β : Type}

theorem pure (a : α) : Run.Excused excused (Pure.pure a) := by
  intro heap e heap' h
  cases h

theorem throw {e : Error} (h : e.Excused excused) :
    Run.Excused excused (MonadExcept.throw e : Run α) := by
  intro heap e' heap' h'
  cases h'
  exact h

theorem bind {m : Run α} {k : α → Run β} (hm : m.Excused excused)
    (hk : ∀ a, (k a).Excused excused) : (m >>= k).Excused excused := by
  intro heap e heap' h
  replace h : EStateM.bind m k heap = .error e heap' := h
  unfold EStateM.bind at h
  cases hr : m heap with
  | ok a heap₁ =>
    rw [hr] at h
    exact hk a heap₁ e heap' h
  | error e₁ heap₁ =>
    rw [hr] at h
    cases h
    exact hm heap _ _ hr

/-- Looking at the heap does not fail. -/
theorem get_bind {k : Heap → Run β} (hk : ∀ heap, (k heap).Excused excused) :
    (get >>= k).Excused excused :=
  fun heap => hk heap heap

/-- Changing the heap does not fail. -/
theorem modifyGet (f : Heap → α × Heap) : Run.Excused excused (MonadStateOf.modifyGet f) := by
  intro heap e heap' h
  cases h

theorem attempt {ref : Reference.Site} {r : Except Cause α} (offset : Nat) (h : FailsByValue r) :
    (ref.attempt offset r).Excused excused := by
  cases r with
  | ok a => exact pure a
  | error cause => exact throw (Error.excused_of_ofValues (h cause rfl))

end Run.Excused

namespace Reference

/-- Whether everything that can be entered from a place ends only in errors that are excused. -/
def Site.Excuses (excused : String → Nat → String → Prop) (ref : Site) : Prop :=
  ∀ name enter, ref.enter? name = some enter → ∀ args, (enter args).Excused excused

/-! ### Expressions -/

section
variable {ref : Site} {known : List String} {env : Env}

/-- Reading a variable is excused, or the variable has a value. -/
theorem excused_read {offset : Nat} {name : String} (hknown : ∀ n ∈ known, (env n).isSome)
    (h : excused ref.name offset name ∨ name ∈ known) :
    (ref.read env offset name).Excused excused := by
  unfold Site.read
  cases hvalue : env name with
  | some v => exact .pure v
  | none =>
    rcases h with hexcused | hmem
    · refine .throw fun function n hfunction hcause => ?_
      cases hfunction
      cases hcause
      exact hexcused
    · have hsome := hknown name hmem
      rw [hvalue] at hsome
      cases hsome

/-- A call ends as the callee does. -/
theorem excused_call (hsite : ref.Excuses excused) (offset : Nat) (name : String)
    (args : List Value) : (ref.call offset name args).Excused excused := by
  unfold Site.call
  cases Builtin.find? name with
  | some b =>
    refine .get_bind fun heap => ?_
    exact .bind (.attempt offset (.apply b heap args)) fun x => .pure _
  | none =>
    cases henter : ref.enter? name with
    | some enter => exact hsite name enter henter args
    | none => exact .throw (Error.excused_of_ne (by simp [Site.error]))

mutual

/-- Evaluating an expression whose reads are covered fails only as excused. -/
theorem excused_eval (hsite : ref.Excuses excused) (hknown : ∀ n ∈ known, (env n).isSome) :
    ∀ e : Expr, (Fragment.expr e).Covered (excused ref.name) known →
      (eval ref env e).Excused excused
  | .number _ value, h => by
    rw [eval]
    exact .pure _
  | .newArray span sizes, h => by
    rw [eval]
    refine .bind ?_ fun _ => .modifyGet _
    exact excused_evalSizes hsite hknown sizes span.start fun e he =>
      h.child (List.mem_map_of_mem he)
  | .list _ items, h => by
    rw [eval]
    refine .bind ?_ fun _ => .modifyGet _
    exact excused_evalAll hsite hknown items fun e he => h.child (List.mem_map_of_mem he)
  | .var span name indices, h => by
    rw [eval]
    have hread := h _ (.self _) span.start name (List.mem_singleton_self _)
    refine .bind (excused_read hknown hread) fun base => ?_
    refine .bind ?_ fun path => .get_bind fun heap => .attempt _ (.walk heap base path)
    exact excused_evalNumbers hsite hknown indices span.start fun e he =>
      h.child (List.mem_map_of_mem he)
  | .call span name args, h => by
    rw [eval]
    refine .bind ?_ fun values => excused_call hsite span.start name values
    exact excused_evalAll hsite hknown args fun e he => h.child (List.mem_map_of_mem he)
  | .unary span op operand, h => by
    rw [eval]
    refine .bind (excused_eval hsite hknown operand (h.child (List.mem_singleton_self _))) ?_
    exact fun v => .bind (.attempt _ (.toNumber v)) fun x => .pure _
  | .binary span op left right, h => by
    rw [eval]
    have hleft := excused_eval hsite hknown left (h.child (by simp [Fragment.children]))
    have hright := excused_eval hsite hknown right (h.child (by simp [Fragment.children]))
    refine .bind hleft fun v => .bind (.attempt _ (.toNumber v)) fun x => ?_
    -- Whether the right operand is looked at or not, its reads are covered.
    split
    · exact .pure _
    · split
      · exact .pure _
      · exact .bind hright fun w => .bind (.attempt _ (.toNumber w)) fun y => .pure _

/-- Companion for several expressions. -/
theorem excused_evalAll (hsite : ref.Excuses excused) (hknown : ∀ n ∈ known, (env n).isSome) :
    ∀ es : List Expr, (∀ e ∈ es, (Fragment.expr e).Covered (excused ref.name) known) →
      (evalAll ref env es).Excused excused
  | [], h => by
    rw [evalAll]
    exact .pure _
  | e :: es, h => by
    obtain ⟨he, hes⟩ := List.forall_mem_cons.mp h
    rw [evalAll]
    refine .bind (excused_eval hsite hknown e he) fun v => ?_
    exact .bind (excused_evalAll hsite hknown es hes) fun vs => .pure _

/-- Companion for several expressions that denote numbers. -/
theorem excused_evalNumbers (hsite : ref.Excuses excused)
    (hknown : ∀ n ∈ known, (env n).isSome) :
    ∀ (es : List Expr) (offset : Nat),
      (∀ e ∈ es, (Fragment.expr e).Covered (excused ref.name) known) →
      (evalNumbers ref env offset es).Excused excused
  | [], offset, h => by
    rw [evalNumbers]
    exact .pure _
  | e :: es, offset, h => by
    obtain ⟨he, hes⟩ := List.forall_mem_cons.mp h
    rw [evalNumbers]
    refine .bind (excused_eval hsite hknown e he) fun v => ?_
    refine .bind (.attempt _ (.toNumber v)) fun x => ?_
    exact .bind (excused_evalNumbers hsite hknown es offset hes) fun xs => .pure _

/-- Companion for several expressions that denote sizes. -/
theorem excused_evalSizes (hsite : ref.Excuses excused) (hknown : ∀ n ∈ known, (env n).isSome) :
    ∀ (es : List Expr) (offset : Nat),
      (∀ e ∈ es, (Fragment.expr e).Covered (excused ref.name) known) →
      (evalSizes ref env offset es).Excused excused
  | [], offset, h => by
    rw [evalSizes]
    exact .pure _
  | e :: es, offset, h => by
    obtain ⟨he, hes⟩ := List.forall_mem_cons.mp h
    rw [evalSizes]
    refine .bind (excused_eval hsite hknown e he) fun v => ?_
    refine .bind (.attempt _ (.toNumber v)) fun x => ?_
    refine .bind (.attempt _ (.toSize x)) fun size => ?_
    exact .bind (excused_evalSizes hsite hknown es offset hes) fun sizes => .pure _

end

end

/-! ### Statements -/

/-- What execution keeps: a variable that has a value never loses it. -/
def lasting (excused : String → Nat → String → Prop) : Pledge State where
  grows s s' := ∀ name, (s.env name).isSome → (s'.env name).isSome
  errors := Error.Excused excused
  refl _ _ h := h
  trans h h' name hname := h' name (h name hname)

section
variable {ref : Site} {known : List String} {state : State}

/-- A computation on the heap leaves the variables alone. -/
theorem lasting_ofRun {α : Type} {run : Env → Run α} (h : (run state.env).Excused excused) :
    (lasting excused).Ends state
      (fun state' a => state'.env = state.env ∧ ∃ heap', run state.env state.heap = .ok a heap')
      (Execution.ofRun run state) := by
  unfold Execution.ofRun
  cases hr : run state.env state.heap with
  | ok a heap' => exact ⟨fun _ hname => hname, rfl, heap', rfl⟩
  | error e heap' => exact ⟨fun _ hname => hname, h _ _ _ hr⟩

/-- A variable that is assigned has a value, and the others have theirs. -/
theorem Env.isSome_set (env : Env) (name : String) (v : Value) {other : String}
    (h : other = name ∨ (env other).isSome) : (env.set name v other).isSome := by
  unfold Env.set
  split
  · rfl
  · exact h.resolve_left ‹_›

/-- A variable that has been read has a value. -/
theorem isSome_of_read {env : Env} {offset : Nat} {name : String} {heap heap' : Heap} {v : Value}
    (h : ref.read env offset name heap = .ok v heap') : (env name).isSome := by
  unfold Site.read at h
  cases hvalue : env name with
  | some w => rfl
  | none =>
    rw [hvalue] at h
    cases h

/-- Behind an assignment the target has a value. With indices it had one before, or else the
assignment would have failed. -/
theorem lasting_assign (hsite : ref.Excuses excused) {target : Target} {value : Expr}
    (hknown : ∀ n ∈ known, (state.env n).isSome)
    (htarget : (Fragment.target target).Covered (excused ref.name) known)
    (hvalue : (Fragment.expr value).Covered (excused ref.name) known) :
    (lasting excused).Ends state (fun state' _ => (state'.env target.name).isSome)
      (assign ref target (fun env => eval ref env value) state) := by
  unfold assign
  refine .bind (lasting_ofRun (excused_evalNumbers hsite hknown target.indices target.span.start
    fun e he => htarget.child (List.mem_map_of_mem he))) ?_
  rintro s₁ path - ⟨henv₁, heap₁, hpath⟩
  rw [← henv₁] at hknown
  refine .bind (lasting_ofRun (excused_eval hsite hknown value hvalue)) ?_
  rintro s₂ v - ⟨henv₂, -⟩
  rw [← henv₂] at hknown
  cases hlast : path.getLast? with
  | none =>
    refine ⟨fun name hname => ?_, ?_⟩
    · exact Env.isSome_set _ _ _ (.inr hname)
    · exact Env.isSome_set _ _ _ (.inl rfl)
  | some last =>
    have hread : excused ref.name target.span.start target.name ∨ target.name ∈ known := by
      refine htarget _ (.self _) target.span.start target.name ?_
      -- A path with a last number comes from a target with indices.
      cases hindices : target.indices with
      | nil =>
        rw [hindices, evalNumbers] at hpath
        cases hpath
        cases hlast
      | cons index indices => simp [Fragment.reads, hindices]
    refine (lasting_ofRun ?_).imp ?_
    · refine .bind (excused_read hknown hread) fun base => ?_
      refine .get_bind fun heap => .bind (.attempt _ (.walk heap base path.dropLast)) ?_
      intro container
      refine .get_bind fun heap => .bind (.attempt _ (.cell heap container last)) fun cell => ?_
      exact .modifyGet _
    · rintro s₃ _ ⟨henv₃, heap₃, hwrite⟩
      obtain ⟨base, heap₄, hbase, -⟩ := Run.bind_ok.mp hwrite
      rw [henv₃]
      exact isSome_of_read hbase

mutual

/-- Executing a statement that passes the rule fails only as excused, and if it does not return, the
variable that it assigns has a value. -/
theorem lasting_exec (hsite : ref.Excuses excused) :
    ∀ (stmt : Stmt) {known : List String} {state : State},
      stmt.Definite (excused ref.name) known → (∀ n ∈ known, (state.env n).isSome) →
      (lasting excused).Ends state
        (fun state' v => v = none → ∀ n ∈ stmt.assigned?, (state'.env n).isSome)
        (exec ref stmt state)
  | .branch span condition pass fail, known, state, h, hknown => by
    obtain ⟨hcondition, hpass, hfail⟩ := h
    rw [exec]
    refine .bind (lasting_ofRun (excused_eval hsite hknown condition hcondition)) ?_
    rintro s₁ v - ⟨henv₁, -⟩
    refine .bind (lasting_ofRun (.attempt _ (.toNumber v))) ?_
    rintro s₂ x - ⟨henv₂, -⟩
    rw [← henv₁, ← henv₂] at hknown
    -- What an arm assigns is not counted behind the branch, since the other arm may have run.
    split
    · exact (lasting_execAll hsite pass hpass hknown).imp fun s' w _ _ => by simp [Stmt.assigned?]
    · exact (lasting_execOption hsite fail hfail hknown).imp fun s' w _ _ => by
        simp [Stmt.assigned?]
  | .assign span target value, known, state, h, hknown => by
    rw [exec]
    refine .bind (lasting_assign hsite hknown (h.child (by simp [Fragment.children]))
      (h.child (by simp [Fragment.children]))) ?_
    rintro s₁ - - hset
    refine .pure fun _ n hn => ?_
    cases hn
    exact hset
  | .update span op target value, known, state, h, hknown => by
    rw [exec_update, exec]
    refine .bind (lasting_assign hsite hknown (h.child (by simp [Fragment.children])) h.longhand) ?_
    rintro s₁ - - hset
    refine .pure fun _ n hn => ?_
    cases hn
    exact hset
  | .ret span value, known, state, h, hknown => by
    rw [exec]
    refine .bind (lasting_ofRun (excused_eval hsite hknown value
      (h.child (by simp [Fragment.children])))) ?_
    rintro s₁ v - -
    refine .pure fun hnone => ?_
    cases hnone

/-- Companion for a block. -/
theorem lasting_execAll (hsite : ref.Excuses excused) :
    ∀ (block : List Stmt) {known : List String} {state : State},
      Stmt.DefiniteAll (excused ref.name) known block → (∀ n ∈ known, (state.env n).isSome) →
      (lasting excused).Ends state (fun _ _ => True) (execAll ref block state)
  | [], known, state, h, hknown => by
    rw [execAll]
    exact .pure trivial
  | stmt :: rest, known, state, h, hknown => by
    rw [execAll]
    refine .bind (lasting_exec hsite stmt h.1 hknown) ?_
    intro s₁ v hgrows hassigned
    cases v with
    | some v => exact .pure trivial
    | none =>
      refine lasting_execAll hsite rest h.2 fun n hn => ?_
      -- What was known before is still so, and the statement has added its own variable.
      rcases List.mem_append.mp hn with hnew | hold
      · exact hassigned rfl n (Option.mem_toList.mp hnew)
      · exact hgrows n (hknown n hold)

/-- Companion for a block that may be absent. -/
theorem lasting_execOption (hsite : ref.Excuses excused) :
    ∀ (block : Option (List Stmt)) {known : List String} {state : State},
      Stmt.DefiniteOption (excused ref.name) known block → (∀ n ∈ known, (state.env n).isSome) →
      (lasting excused).Ends state (fun _ _ => True) (execOption ref block state)
  | none, known, state, h, hknown => by
    rw [execOption]
    exact .pure trivial
  | some block, known, state, h, hknown => by
    rw [execOption]
    exact lasting_execAll hsite block h hknown

end

end

/-- At the beginning of a call every parameter has a value. -/
theorem Env.isSome_ofParams {params : List Param} {args : List Value}
    (hlength : args.length = params.length) :
    ∀ name ∈ params.map Param.name, (Env.ofParams params args name).isSome := by
  unfold Env.ofParams
  induction params generalizing args with
  | nil => simp
  | cons param params ih =>
    cases args with
    | nil => cases hlength
    | cons arg args =>
      intro name hname
      rw [List.map_cons, List.zip_cons_cons, List.lookup_cons]
      cases hfirst : name == param.name with
      | true => rfl
      | false =>
        refine ih (Nat.succ.inj hlength) name ?_
        rw [List.map_cons] at hname
        exact (List.mem_cons.mp hname).resolve_left (ne_of_beq_false hfirst)

end Reference

/-! ### Calls -/

namespace Program

variable {p : Program} {file : String} {decls : List Decl}

/-- Calls a function with as many arguments as it takes. Accepted code calls it in no other way. -/
def callFitting (p : Program) (room : Nat) (f : Function) (args : List Value) : Run Value :=
  if args.length = f.params.length then p.call room f args
  else throw (f.error (.hostArgumentCount f.name f.params.length args.length))

/-- Where the body of the function at an index runs as it is written. What can be called there is
the function itself and those in front of it. -/
def bodySite (p : Program) (room index : Nat) (f : Function) : Reference.Site :=
  ⟨f.file, f.name, fun name =>
    if name = f.name then some (p.callFitting room f)
    else match entry? (p.before index) name with
      | some (.user _ g) => some (p.callFitting room g)
      | _ => none⟩

/-- Code and text correspond there, since accepted code passes as many arguments as there are
parameters. -/
theorem corresponds_bodySite {index : Nat} {f : Function} {decl : Decl}
    (hanalyse : (p.before index).analyse file decl = .ok f) (room : Nat) :
    ((p.before index).setting decl).Corresponds ⟨p, f, p.call room⟩ (p.bodySite room index f) := by
  obtain ⟨hfree, -, hanalyse'⟩ := analyse_ok.mp hanalyse
  obtain ⟨d₀, d, body, result, -, -, -, -, hfunction⟩ := analyseDecl_ok.mp hanalyse'
  have hname : f.name = decl.name := name_of_analyse hanalyse
  refine ⟨rfl, p.inFunction_call room, hfree, ?_, ?_⟩
  · refine ⟨p.callFitting room f, if_pos hname.symm, fun args hlength => ?_⟩
    have hparams : args.length = f.params.length := by
      rw [hfunction]
      exact hlength
    exact (if_pos hparams).symm
  · intro name place g hne hentry
    refine ⟨(getElem?_before (entry?_user hentry).1).1, p.callFitting room g, ?_, ?_⟩
    · replace hentry : entry? (p.before index) name = some (.user place g) := hentry
      show (if name = f.name then _ else _) = _
      rw [if_neg (hname ▸ hne), hentry]
    · exact fun args hlength => (if_pos hlength).symm

/-- A call that is nested in a body ends only in errors that are excused, if all calls do that are
made with less room. -/
theorem excuses_bodySite {index : Nat} {f : Function} {room : Nat}
    (hf : p.functions[index]? = some f)
    (hcall : ∀ {place : Nat} {g : Function}, p.functions[place]? = some g → ∀ args,
      args.length = g.params.length → (p.call room g args).Excused excused) :
    (p.bodySite room index f).Excuses excused := by
  have hfitting {place : Nat} {g : Function} (hg : p.functions[place]? = some g)
      (args : List Value) : (p.callFitting room g args).Excused excused := by
    unfold callFitting
    split
    next hlength => exact hcall hg args hlength
    next => exact .throw (Error.excused_of_ofValues rfl)
  intro name enter henter
  unfold bodySite at henter
  dsimp only at henter
  split at henter
  · cases henter
    exact hfitting hf
  · split at henter
    next place g hentry =>
      cases henter
      exact hfitting (getElem?_before (entry?_user hentry).1).1
    · cases henter

/-- The rule is sound for calls. The induction is on the number of calls that may still be
nested. -/
theorem Built.excused_call (h : Built file decls p)
    (hdefinite : ∀ decl ∈ decls,
      Stmt.DefiniteAll (excused decl.name) (decl.params.map Param.name) decl.body) :
    ∀ (room : Nat) {index : Nat} {f : Function}, p.functions[index]? = some f →
      ∀ args : List Value, args.length = f.params.length →
        (p.call room f args).Excused excused := by
  intro room
  induction room with
  | zero =>
    intro index f hf args hlength
    exact .throw (Error.excused_of_ne (by simp [Function.error]))
  | succ room ih =>
    intro index f hf args hlength heap e heap' hrun
    obtain ⟨decl, hdecl, hanalyse⟩ := h.exists_decl hf
    have hsite := corresponds_bodySite hanalyse room
    obtain ⟨scope, hagree⟩ := h.agree_body hf hdecl hsite hlength heap
    have hparams : args.length = decl.params.length := by
      obtain ⟨d₀, d, body, result, -, -, -, -, hfunction⟩ :=
        analyseDecl_ok.mp (analyse_ok.mp hanalyse).2.2
      rw [hlength, hfunction, List.length_map]
    have hbody := hdefinite decl (List.mem_of_getElem? hdecl)
    rw [← name_of_analyse hanalyse] at hbody
    -- The body as it is written ends as excused, and the code ends in the same way.
    have hends : (Reference.lasting excused).Ends ⟨.ofParams decl.params args, heap⟩
        (fun _ _ => True) (Reference.execAll (p.bodySite room index f) decl.body
          ⟨.ofParams decl.params args, heap⟩) :=
      Reference.lasting_execAll (excuses_bodySite hf ih) decl.body hbody
        (Reference.Env.isSome_ofParams hparams)
    rw [call] at hrun
    replace hrun := (Lowering.outcome_eq hagree).symm.trans hrun
    cases hr : Reference.execAll (p.bodySite room index f) decl.body
        ⟨.ofParams decl.params args, heap⟩ with
    | error e' state =>
      rw [hr] at hrun hends
      cases hrun
      exact hends.2
    | ok v state =>
      rw [hr] at hrun
      cases v with
      | some v => cases hrun
      | none =>
        cases hrun
        exact Error.excused_of_ne (by simp [Function.error])

/-- Builtins read no variables. -/
theorem excused_invokeBuiltin (b : Builtin) (args : List Value) :
    (invokeBuiltin b args).Excused excused := by
  unfold invokeBuiltin
  dsimp only
  split
  · exact .throw (Error.excused_of_ofValues rfl)
  · refine .get_bind fun heap => ?_
    split
    · exact .throw (Error.excused_of_ne (by simp [Cause.atHost]))
    · refine .get_bind fun heap' => ?_
      split
      · exact .pure _
      next cause hcause =>
        exact .throw (Error.excused_of_ofValues (FailsByValue.apply b heap' args cause hcause))

/-- Definite assignment is sound. If every body passes the rule, with the parameters known, then no
call that a host makes fails at a read that is not excused. -/
theorem Built.excused_invoke (h : Built file decls p) (excused : String → Nat → String → Prop)
    (hdefinite : ∀ decl ∈ decls,
      Stmt.DefiniteAll (excused decl.name) (decl.params.map Param.name) decl.body)
    (name : String) (args : List Value) : (p.invoke name args).Excused excused := by
  unfold invoke
  split
  next index f hentry =>
    unfold invokeFunction
    dsimp only
    split
    · exact .throw (Error.excused_of_ofValues rfl)
    next hlength =>
      refine .get_bind fun heap => ?_
      split
      · exact .throw (Error.excused_of_ne (by simp))
      · refine h.excused_call hdefinite _ (entry?_user hentry).1 args ?_
        exact Decidable.not_not.mp hlength
  next b _ => exact excused_invokeBuiltin b args
  next => exact .throw (Error.excused_of_ne (by simp [Cause.atHost]))

end Program

end ArrayScript
