import ArrayScript.Proofs.Program

/-!
# `ArrayScript.Proofs.Callees`: the branches and calls of a body

A body is read twice here: as it is written, and as the code that analysis makes of it. The *marks*
of a text are its branches and its calls by name; the *nodes* of code are its branches and its calls
with what they reach. Both come in the order in which analysis meets them: arguments before the call
that they belong to, the value of an assignment before the indices of its target, and those indices
twice in a compound assignment, which reads its target first.

* `Setting.steps_lowers`: the nodes of the code that analysis accepts are the marks of the text, one
  by one, and each call reaches what its name stands for.
* `Program.analyse_lowers`: the same for a whole declaration.
* `Program.getElem?_of_call`: so a call that reaches a place reaches a function that the program had
  there when the body was analysed, and that function has the name of the call.
-/

set_option autoImplicit false

namespace ArrayScript

open Code (Term Step)

/-! ### Marks of a text -/

/-- A branch or a call in the text of a body. -/
inductive Mark where
  | branch (offset : Nat)
  | call (offset : Nat) (name : String)
deriving DecidableEq, Repr

namespace Mark

/-- Where a branch or call starts. -/
def offset : Mark → Nat
  | branch offset | call offset _ => offset

/-- Whether a mark is a branch. -/
def isBranch : Mark → Bool
  | branch _ => true
  | call .. => false

end Mark

mutual

/-- The calls in an expression. -/
def Expr.marks : Expr → List Mark
  | .number _ _ => []
  | .newArray _ sizes => Expr.marksAll sizes
  | .list _ items => Expr.marksAll items
  | .var _ _ indices => Expr.marksAll indices
  | .call span name args => Expr.marksAll args ++ [.call span.start name]
  | .unary _ _ operand => operand.marks
  | .binary _ _ left right => left.marks ++ right.marks

/-- The calls in several expressions. -/
def Expr.marksAll : List Expr → List Mark
  | [] => []
  | e :: es => e.marks ++ Expr.marksAll es

end

namespace Stmt

mutual

/-- The branches and calls in a statement. -/
def marks : Stmt → List Mark
  | .branch span condition pass fail =>
    condition.marks ++ .branch span.start :: (marksAll pass ++ marksOption fail)
  | .assign _ target value => value.marks ++ Expr.marksAll target.indices
  | .update span op target value =>
    (Expr.binary span op.longhand target.read value).marks ++ Expr.marksAll target.indices
  | .ret _ value => value.marks

/-- The branches and calls in a block. -/
def marksAll : List Stmt → List Mark
  | [] => []
  | stmt :: rest => stmt.marks ++ marksAll rest

/-- The branches and calls in a block that may be absent. -/
def marksOption : Option (List Stmt) → List Mark
  | none => []
  | some block => marksAll block

end

mutual

/-- The number of branches in a statement, itself and those in its arms. -/
def branchCount : Stmt → Nat
  | .branch _ _ pass fail => 1 + branchCountAll pass + branchCountOption fail
  | .assign .. | .update .. | .ret .. => 0

/-- The number of branches in a block. -/
def branchCountAll : List Stmt → Nat
  | [] => 0
  | stmt :: rest => stmt.branchCount + branchCountAll rest

/-- The number of branches in a block that may be absent. -/
def branchCountOption : Option (List Stmt) → Nat
  | none => 0
  | some block => branchCountAll block

end

end Stmt

mutual

/-- No expression has a branch in it. -/
theorem Expr.countP_marks : ∀ e : Expr, e.marks.countP Mark.isBranch = 0
  | .number _ _ => rfl
  | .newArray _ sizes => Expr.countP_marksAll sizes
  | .list _ items => Expr.countP_marksAll items
  | .var _ _ indices => Expr.countP_marksAll indices
  | .call span name args => by
    rw [Expr.marks, List.countP_append, Expr.countP_marksAll args]
    rfl
  | .unary _ _ operand => Expr.countP_marks operand
  | .binary _ _ left right => by
    rw [Expr.marks, List.countP_append, Expr.countP_marks left, Expr.countP_marks right]

/-- Companion for several expressions. -/
theorem Expr.countP_marksAll : ∀ es : List Expr, (Expr.marksAll es).countP Mark.isBranch = 0
  | [] => rfl
  | e :: es => by
    rw [Expr.marksAll, List.countP_append, Expr.countP_marks e, Expr.countP_marksAll es]

end

namespace Stmt

mutual

/-- The marks of a statement have all of its branches among them. -/
theorem countP_marks : ∀ stmt : Stmt, stmt.marks.countP Mark.isBranch = stmt.branchCount
  | .branch span condition pass fail => by
    rw [marks, branchCount, List.countP_append, List.countP_cons, List.countP_append,
      Expr.countP_marks, countP_marksAll pass, countP_marksOption fail]
    simp only [Mark.isBranch, if_true]
    omega
  | .assign _ target value => by
    rw [marks, branchCount, List.countP_append, Expr.countP_marks, Expr.countP_marksAll]
  | .update span op target value => by
    rw [marks, branchCount, List.countP_append, Expr.countP_marks, Expr.countP_marksAll]
  | .ret _ value => Expr.countP_marks value

/-- Companion for blocks. -/
theorem countP_marksAll :
    ∀ block : List Stmt, (marksAll block).countP Mark.isBranch = branchCountAll block
  | [] => rfl
  | stmt :: rest => by
    rw [marksAll, branchCountAll, List.countP_append, countP_marks stmt, countP_marksAll rest]

/-- Companion for blocks that may be absent. -/
theorem countP_marksOption :
    ∀ block : Option (List Stmt),
      (marksOption block).countP Mark.isBranch = branchCountOption block
  | none => rfl
  | some block => countP_marksAll block

end

end Stmt

/-! ### Nodes of code -/

namespace Code

/-- A branch or a call in code. -/
inductive Node where
  | branch (offset : Nat)
  | call (offset : Nat) (name : String) (callee : Callee)
deriving DecidableEq, Repr

namespace Node

/-- The place of the function that a node calls, if it calls one of the program. -/
def place? : Node → Option Nat
  | call _ _ (.user place) => some place
  | _ => none

/-- Whether a node is a branch. -/
def isBranch : Node → Bool
  | branch _ => true
  | call .. => false

end Node

mutual

/-- The calls in an analysed expression. -/
def Term.nodes : Term → List Node
  | .number _ => []
  | .newArray _ sizes => Term.nodesAll sizes
  | .list _ items => Term.nodesAll items
  | .slot _ _ _ _ indices => Term.nodesAll indices
  | .call offset name callee _ args => Term.nodesAll args ++ [.call offset name callee]
  | .unary _ _ operand => operand.nodes
  | .binary _ _ left right => left.nodes ++ right.nodes

/-- The calls in several analysed expressions. -/
def Term.nodesAll : List Term → List Node
  | [] => []
  | t :: ts => t.nodes ++ Term.nodesAll ts

end

mutual

/-- The branches and calls in an analysed statement. -/
def Step.nodes : Step → List Node
  | .branch offset condition pass fail =>
    condition.nodes ++ .branch offset :: (Step.nodesAll pass ++ Step.nodesAll fail)
  | .assign _ _ _ indices value => value.nodes ++ Term.nodesAll indices
  | .ret value => value.nodes

/-- The branches and calls in an analysed block. -/
def Step.nodesAll : List Step → List Node
  | [] => []
  | step :: rest => step.nodes ++ Step.nodesAll rest

end

end Code

namespace Function

/-- The branches and calls in the code of a function. -/
def nodes (f : Function) : List Code.Node :=
  Step.nodesAll f.body

/-- The places of the functions that the code of a function calls, once for each call. Calls of
builtins and of the function itself have no place. -/
def calls (f : Function) : List Nat :=
  f.nodes.filterMap Code.Node.place?

/-- The number of branches in the code of a function. -/
def branchCount (f : Function) : Nat :=
  f.nodes.countP Code.Node.isBranch

end Function

/-! ### From marks to nodes -/

namespace Setting

/-- The function of the program that a call by name reaches, with its place. The function under
analysis is not among them, and neither are the builtins. -/
def callee? (s : Setting) (name : String) : Option (Nat × Function) :=
  if name = s.name then none
  else match s.program.entry? name with
    | some (.user place f) => some (place, f)
    | _ => none

/-- The place that a mark calls, if it calls a function of the program. -/
def place? (s : Setting) : Mark → Option Nat
  | .branch _ => none
  | .call _ name => (s.callee? name).map Prod.fst

/-- The places that a text calls, once for each call. -/
def calls (s : Setting) (marks : List Mark) : List Nat :=
  marks.filterMap s.place?

/-- A node of code is what analysis makes of a mark. -/
inductive Lowers (s : Setting) : Code.Node → Mark → Prop
  | branch (offset : Nat) : Lowers s (.branch offset) (.branch offset)
  | self (offset : Nat) : Lowers s (.call offset s.name .self) (.call offset s.name)
  | builtin {name : String} {b : Builtin} (offset : Nat) (hname : name ≠ s.name)
      (hentry : s.program.entry? name = some (.builtin b)) :
      Lowers s (.call offset name (.builtin b)) (.call offset name)
  | user {name : String} {place : Nat} {f : Function} (offset : Nat) (hname : name ≠ s.name)
      (hentry : s.program.entry? name = some (.user place f)) :
      Lowers s (.call offset name (.user place)) (.call offset name)

variable {s : Setting}

/-- A name reaches a function of the program when it leads to one and is not the own name. -/
theorem callee?_eq_some {name : String} {place : Nat} {f : Function} :
    s.callee? name = some (place, f) ↔
      name ≠ s.name ∧ s.program.entry? name = some (.user place f) := by
  unfold callee?
  by_cases hname : name = s.name
  · simp [hname]
  · rw [if_neg hname]
    rcases hentry : s.program.entry? name with _ | ⟨b⟩ | ⟨place', f'⟩
    · simp
    · simp
    · simp [hname]

/-- A node calls the place that its mark calls. -/
theorem Lowers.place?_eq {node : Code.Node} {mark : Mark} (h : s.Lowers node mark) :
    node.place? = s.place? mark := by
  cases h with
  | branch offset => rfl
  | self offset => simp [Code.Node.place?, place?, callee?]
  | builtin offset hname hentry => simp [Code.Node.place?, place?, callee?, hentry]
  | user offset hname hentry => simp [Code.Node.place?, place?, callee?, hname, hentry]

/-- A node is a branch when its mark is. -/
theorem Lowers.isBranch_eq {node : Code.Node} {mark : Mark} (h : s.Lowers node mark) :
    node.isBranch = mark.isBranch := by
  cases h <;> rfl

/-- The nodes of a list call what its marks call. -/
theorem filterMap_place? {nodes : List Code.Node} {marks : List Mark}
    (h : List.Forall₂ s.Lowers nodes marks) :
    nodes.filterMap Code.Node.place? = s.calls marks := by
  induction h with
  | nil => rfl
  | cons hfirst _ ih =>
    rw [calls, List.filterMap_cons, List.filterMap_cons, ih, hfirst.place?_eq]
    rfl

/-- There are as many branches among the nodes as among the marks. -/
theorem countP_isBranch {nodes : List Code.Node} {marks : List Mark}
    (h : List.Forall₂ s.Lowers nodes marks) :
    nodes.countP Code.Node.isBranch = marks.countP Mark.isBranch := by
  induction h with
  | nil => rfl
  | cons hfirst _ ih => rw [List.countP_cons, List.countP_cons, ih, hfirst.isBranch_eq]

/-- Each node comes from some mark. -/
theorem exists_lowers {nodes : List Code.Node} {marks : List Mark} {node : Code.Node}
    (h : List.Forall₂ s.Lowers nodes marks) (hnode : node ∈ nodes) :
    ∃ mark, s.Lowers node mark := by
  induction h with
  | nil => cases hnode
  | cons hfirst _ ih =>
    rcases List.mem_cons.mp hnode with rfl | hrest
    · exact ⟨_, hfirst⟩
    · exact ih hrest

/-- What a call lowers to is the callee that analysis has found for its name. -/
theorem lowers_of_target {d : Draft} {name : String} {target : CallTarget}
    (h : s.target d name = .ok target) (offset : Nat) :
    s.Lowers (.call offset name target.callee) (.call offset name) := by
  rcases target_ok.mp h with ⟨rfl, result, -, rfl⟩ |
    ⟨hname, ⟨b, hentry, rfl⟩ | ⟨place, f, hentry, rfl⟩⟩
  · exact .self offset
  · exact .builtin offset hname hentry
  · exact .user offset hname hentry

mutual

/-- The nodes of an analysed expression are its marks, one by one. -/
theorem term_lowers :
    ∀ (e : Expr) {d d' : Draft} {t : Term}, s.term e d = .ok (t, d') →
      List.Forall₂ s.Lowers t.nodes e.marks
  | .number _ _, d, d', t, h => by
    obtain ⟨rfl, -⟩ := term_number_ok.mp h
    exact .nil
  | .newArray _ sizes, d, d', t, h => by
    obtain ⟨ts, hts, rfl⟩ := term_newArray_ok.mp h
    exact terms_lowers sizes hts
  | .list _ [], d, d', t, h => (term_list_nil_ok.mp h).elim
  | .list _ (first :: rest), d, d', t, h => by
    obtain ⟨u, d₁, us, hu, hus, rfl⟩ := term_list_ok.mp h
    exact List.rel_append (term_lowers first hu) (terms_lowers rest hus)
  | .var _ _ indices, d, d', t, h => by
    obtain ⟨v, ts, -, -, hts, -, rfl⟩ := term_var_ok.mp h
    exact terms_lowers indices hts
  | .call span name args, d, d', t, h => by
    obtain ⟨target, result, ts, d₁, htarget, -, -, hts, -, rfl⟩ := term_call_ok.mp h
    exact List.rel_append (terms_lowers args hts) (.cons (lowers_of_target htarget span.start) .nil)
  | .unary _ _ operand, d, d', t, h => by
    obtain ⟨u, hu, -, rfl⟩ := term_unary_ok.mp h
    show List.Forall₂ s.Lowers u.nodes operand.marks
    exact term_lowers operand hu
  | .binary _ _ left right, d, d', t, h => by
    obtain ⟨u, d₁, w, hu, -, hw, -, rfl⟩ := term_binary_ok.mp h
    exact List.rel_append (term_lowers left hu) (term_lowers right hw)

/-- Companion for several expressions. -/
theorem terms_lowers :
    ∀ (es : List Expr) {test : Test} {index : Nat} {d d' : Draft} {ts : List Term},
      s.terms test index es d = .ok (ts, d') →
      List.Forall₂ s.Lowers (Term.nodesAll ts) (Expr.marksAll es)
  | [], test, index, d, d', ts, h => by
    obtain ⟨rfl, -⟩ := terms_nil_ok.mp h
    exact .nil
  | e :: es, test, index, d, d', ts, h => by
    obtain ⟨t, d₁, us, ht, -, hus, rfl⟩ := terms_cons_ok.mp h
    exact List.rel_append (term_lowers e ht) (terms_lowers es hus)

end

/-- An assignment has the nodes of its value, and then those of the indices of its target. -/
theorem assign_lowers {target : Target} {value : Expr} {d d' : Draft} {step : Step}
    (h : s.assign target value d = .ok (step, d')) :
    List.Forall₂ s.Lowers step.nodes (value.marks ++ Expr.marksAll target.indices) := by
  obtain ⟨t, d₁, ht, hcase⟩ := assign_ok.mp h
  have hvalue := term_lowers value ht
  rcases hcase with ⟨-, -, -, hindices, rfl, -⟩ | ⟨v, ts, -, -, hts, -, -, rfl⟩
  · rw [hindices]
    exact List.rel_append hvalue .nil
  · exact List.rel_append hvalue (terms_lowers target.indices hts)

mutual

/-- The nodes of an analysed statement are its marks, one by one. -/
theorem step_lowers :
    ∀ (stmt : Stmt) {last : Bool} {d d' : Draft} {step : Step},
      s.step last stmt d = .ok (step, d') → List.Forall₂ s.Lowers step.nodes stmt.marks
  | .branch span condition pass fail, last, d, d', step, h => by
    obtain ⟨t, d₁, c, p, d₂, f, ht, -, -, hp, hf, rfl⟩ := step_branch_ok.mp h
    exact List.rel_append (term_lowers condition ht) (.cons (.branch span.start)
      (List.rel_append (steps_lowers pass hp) (stepsOption_lowers fail hf)))
  | .assign _ target value, last, d, d', step, h => by
    rw [step_assign_ok] at h
    exact assign_lowers h
  | .update span op target value, last, d, d', step, h => by
    rw [step_update_ok] at h
    exact assign_lowers h
  | .ret _ value, last, d, d', step, h => by
    obtain ⟨-, t, d₁, ht, rfl, -⟩ := step_ret_ok.mp h
    exact term_lowers value ht

/-- Companion for blocks. -/
theorem steps_lowers :
    ∀ (block : List Stmt) {d d' : Draft} {steps : List Step},
      s.steps block d = .ok (steps, d') →
      List.Forall₂ s.Lowers (Step.nodesAll steps) (Stmt.marksAll block)
  | [], d, d', steps, h => by
    obtain ⟨rfl, -⟩ := steps_nil_ok.mp h
    exact .nil
  | stmt :: rest, d, d', steps, h => by
    obtain ⟨first, d₁, others, hfirst, hothers, rfl⟩ := steps_cons_ok.mp h
    exact List.rel_append (step_lowers stmt hfirst) (steps_lowers rest hothers)

/-- Companion for blocks that may be absent. -/
theorem stepsOption_lowers :
    ∀ (block : Option (List Stmt)) {d d' : Draft} {steps : List Step},
      s.stepsOption block d = .ok (steps, d') →
      List.Forall₂ s.Lowers (Step.nodesAll steps) (Stmt.marksOption block)
  | none, d, d', steps, h => by
    obtain ⟨rfl, -⟩ := stepsOption_none_ok.mp h
    exact .nil
  | some block, d, d', steps, h => by
    rw [stepsOption_some] at h
    exact steps_lowers block h

end

end Setting

namespace Program

variable {p : Program} {file : String} {decl : Decl} {f : Function}

/-- The nodes of a function are the marks of its declaration, one by one. -/
theorem analyse_lowers (h : p.analyse file decl = .ok f) :
    List.Forall₂ (p.setting decl).Lowers f.nodes (Stmt.marksAll decl.body) := by
  obtain ⟨-, -, hdecl⟩ := analyse_ok.mp h
  obtain ⟨d₀, d, body, result, -, hsteps, -, -, rfl⟩ := analyseDecl_ok.mp hdecl
  exact Setting.steps_lowers decl.body hsteps

/-- A call that reaches a place reaches the function that was there at the time of analysis, and it
does so under the name of that function. -/
theorem getElem?_of_call (h : p.analyse file decl = .ok f) {offset place : Nat} {name : String}
    (hcall : Code.Node.call offset name (.user place) ∈ f.nodes) :
    ∃ g, p.functions[place]? = some g ∧ g.name = name := by
  obtain ⟨mark, hlowers⟩ := Setting.exists_lowers (analyse_lowers h) hcall
  cases hlowers with
  | @user _ _ g _ _ hentry => exact ⟨g, entry?_user hentry⟩

end Program

end ArrayScript
