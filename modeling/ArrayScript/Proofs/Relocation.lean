import ArrayScript.Proofs.Program

/-!
# `ArrayScript.Proofs.Relocation`: moving programs about

Trees and code carry offsets, functions carry the name of a file, and a call in code carries the
place of the function that it reaches. A `Relocation` changes all three. What analysis and running
do with them is to copy them: neither ever compares two offsets, or two places.

* `Setting.Relocates.moves_steps`: analysis of a relocated body gives relocated code, or the
  relocated fault, provided that the names in the body have the same meaning on both sides.
* `Program.analyse_relocate`: the same for a declaration.
* `Program.Relocates.call`: a relocated function runs like the function itself. The value, the heap
  and the cause of an error are the same, and only the position of the error moves.

That the layout of a text does not matter is one use of this, with offsets that are forgotten. That
declarations can be exchanged is another one, with places that are exchanged.
-/

set_option autoImplicit false

namespace ArrayScript

open Code (Term Step)

/-- How files, offsets and places change. -/
structure Relocation where
  file : String → String
  offset : Nat → Nat
  place : Nat → Nat

namespace Relocation

/-- A span with both of its ends moved. -/
def span (ρ : Relocation) (span : Span) : Span :=
  ⟨ρ.offset span.start, ρ.offset span.stop⟩

/-- A fault at another offset. -/
def fault (ρ : Relocation) (fault : Fault) : Fault :=
  ⟨fault.cause, ρ.offset fault.offset⟩

/-- An error at another position. -/
def error (ρ : Relocation) (e : Error) : Error :=
  ⟨e.cause, ⟨ρ.file e.position.file, ρ.offset e.position.offset⟩, e.function⟩

/-- A callee at another place. -/
def callee (ρ : Relocation) : Callee → Callee
  | .builtin b => .builtin b
  | .user place => .user (ρ.place place)
  | .self => .self

end Relocation

/-! ### Trees -/

mutual

/-- An expression with its spans moved. -/
def Expr.relocate (ρ : Relocation) : Expr → Expr
  | .number span value => .number (ρ.span span) value
  | .newArray span sizes => .newArray (ρ.span span) (Expr.relocateAll ρ sizes)
  | .list span items => .list (ρ.span span) (Expr.relocateAll ρ items)
  | .var span name indices => .var (ρ.span span) name (Expr.relocateAll ρ indices)
  | .call span name args => .call (ρ.span span) name (Expr.relocateAll ρ args)
  | .unary span op operand => .unary (ρ.span span) op (operand.relocate ρ)
  | .binary span op left right => .binary (ρ.span span) op (left.relocate ρ) (right.relocate ρ)

/-- Several expressions with their spans moved. -/
def Expr.relocateAll (ρ : Relocation) : List Expr → List Expr
  | [] => []
  | e :: es => e.relocate ρ :: Expr.relocateAll ρ es

end

/-- A target with its spans moved. -/
def Target.relocate (ρ : Relocation) (target : Target) : Target :=
  ⟨target.name, Expr.relocateAll ρ target.indices, ρ.span target.span⟩

mutual

/-- A statement with its spans moved. -/
def Stmt.relocate (ρ : Relocation) : Stmt → Stmt
  | .branch span condition pass fail =>
    .branch (ρ.span span) (condition.relocate ρ) (Stmt.relocateAll ρ pass)
      (Stmt.relocateOption ρ fail)
  | .assign span target value => .assign (ρ.span span) (target.relocate ρ) (value.relocate ρ)
  | .update span op target value =>
    .update (ρ.span span) op (target.relocate ρ) (value.relocate ρ)
  | .ret span value => .ret (ρ.span span) (value.relocate ρ)

/-- A block with its spans moved. -/
def Stmt.relocateAll (ρ : Relocation) : List Stmt → List Stmt
  | [] => []
  | stmt :: rest => stmt.relocate ρ :: Stmt.relocateAll ρ rest

/-- A block that may be absent, with its spans moved. -/
def Stmt.relocateOption (ρ : Relocation) : Option (List Stmt) → Option (List Stmt)
  | none => none
  | some block => some (Stmt.relocateAll ρ block)

end

/-- A parameter with its spans moved. -/
def Param.relocate (ρ : Relocation) (param : Param) : Param :=
  ⟨param.name, param.dims.map (Option.map (Expr.relocate ρ)), ρ.span param.span⟩

/-- A declaration with its spans moved. -/
def Decl.relocate (ρ : Relocation) (decl : Decl) : Decl :=
  ⟨decl.name, decl.params.map (Param.relocate ρ), Stmt.relocateAll ρ decl.body, ρ.span decl.span⟩

/-! ### Code -/

mutual

/-- A term with its offsets and places moved. -/
def Code.Term.relocate (ρ : Relocation) : Term → Term
  | .number value => .number value
  | .newArray offset sizes => .newArray (ρ.offset offset) (Code.Term.relocateAll ρ sizes)
  | .list ty items => .list ty (Code.Term.relocateAll ρ items)
  | .slot offset name place ty indices =>
    .slot (ρ.offset offset) name place ty (Code.Term.relocateAll ρ indices)
  | .call offset name callee ty args =>
    .call (ρ.offset offset) name (ρ.callee callee) ty (Code.Term.relocateAll ρ args)
  | .unary offset op operand => .unary (ρ.offset offset) op (operand.relocate ρ)
  | .binary offset op left right =>
    .binary (ρ.offset offset) op (left.relocate ρ) (right.relocate ρ)

/-- Several terms with their offsets and places moved. -/
def Code.Term.relocateAll (ρ : Relocation) : List Term → List Term
  | [] => []
  | t :: ts => t.relocate ρ :: Code.Term.relocateAll ρ ts

end

mutual

/-- A step with its offsets and places moved. -/
def Code.Step.relocate (ρ : Relocation) : Step → Step
  | .branch offset condition pass fail =>
    .branch (ρ.offset offset) (condition.relocate ρ) (Code.Step.relocateAll ρ pass)
      (Code.Step.relocateAll ρ fail)
  | .assign offset name slot indices value =>
    .assign (ρ.offset offset) name slot (Term.relocateAll ρ indices) (value.relocate ρ)
  | .ret value => .ret (value.relocate ρ)

/-- Several steps with their offsets and places moved. -/
def Code.Step.relocateAll (ρ : Relocation) : List Step → List Step
  | [] => []
  | step :: rest => step.relocate ρ :: Code.Step.relocateAll ρ rest

end

/-- A function with its file, its offsets and the places that it calls moved. -/
def Function.relocate (ρ : Relocation) (f : Function) : Function :=
  { f with file := ρ.file f.file, span := ρ.span f.span, body := Step.relocateAll ρ f.body }

/-- A function or a builtin, moved. -/
def Entry.relocate (ρ : Relocation) : Entry → Entry
  | .builtin b => .builtin b
  | .user place f => .user (ρ.place place) (f.relocate ρ)

/-- A target of a call, moved. -/
def CallTarget.relocate (ρ : Relocation) (target : CallTarget) : CallTarget :=
  { target with callee := ρ.callee target.callee }

section

variable {ρ : Relocation}

theorem Expr.relocateAll_eq_map (es : List Expr) :
    Expr.relocateAll ρ es = es.map (Expr.relocate ρ) := by
  induction es with
  | nil => rfl
  | cons e es ih => rw [Expr.relocateAll, ih, List.map_cons]

theorem Code.Term.relocateAll_eq_map (ts : List Term) :
    Code.Term.relocateAll ρ ts = ts.map (Code.Term.relocate ρ) := by
  induction ts with
  | nil => rfl
  | cons t ts ih => rw [Code.Term.relocateAll, ih, List.map_cons]

/-- An expression starts where it is moved to. -/
@[simp] theorem Expr.start_relocate (e : Expr) : (e.relocate ρ).start = ρ.offset e.start := by
  cases e <;> rfl

/-- Moving a term keeps its type. -/
@[simp] theorem Code.Term.ty_relocate (t : Term) : (t.relocate ρ).ty = t.ty := by
  cases t with
  | newArray offset sizes =>
    simp [Code.Term.relocate, Code.Term.ty, Code.Term.relocateAll_eq_map]
  | _ => rfl

/-- Moving a function keeps its signature. -/
@[simp] theorem Function.signature_relocate (f : Function) :
    (f.relocate ρ).signature = f.signature := rfl

/-- Moving an entry keeps its signature. -/
@[simp] theorem Entry.signature_relocate (entry : Entry) :
    (entry.relocate ρ).signature = entry.signature := by
  cases entry <;> rfl

/-- Moving a parameter keeps its type. -/
@[simp] theorem Ty.ofParam_relocate (param : Param) :
    Ty.ofParam (param.relocate ρ) = Ty.ofParam param := by
  unfold Ty.ofParam Param.relocate
  rw [List.map_map]
  congr 1
  refine List.map_congr_left fun dim _ => ?_
  rcases dim with _ | e
  · rfl
  · cases e <;> rfl

mutual

/-- Moving a statement keeps whether it returns on every path. -/
theorem Stmt.alwaysReturns_relocate :
    ∀ stmt : Stmt, (stmt.relocate ρ).alwaysReturns = stmt.alwaysReturns
  | .branch span condition pass none => rfl
  | .branch span condition pass (some fail) => by
    rw [Stmt.relocate, Stmt.relocateOption, Stmt.alwaysReturns, Stmt.alwaysReturns,
      Stmt.bodyReturns_relocateAll pass, Stmt.bodyReturns_relocateAll fail]
  | .assign .. => rfl
  | .update .. => rfl
  | .ret .. => rfl

/-- Moving a body keeps whether it returns on every path. -/
theorem Stmt.bodyReturns_relocateAll :
    ∀ body : List Stmt, Stmt.bodyReturns (Stmt.relocateAll ρ body) = Stmt.bodyReturns body
  | [] => rfl
  | [stmt] => Stmt.alwaysReturns_relocate stmt
  | _ :: stmt :: rest => Stmt.bodyReturns_relocateAll (stmt :: rest)

end

end

/-! ### Names in a text -/

mutual

/-- The names in an expression, of variables and of callees. -/
def Expr.names : Expr → List String
  | .number _ _ => []
  | .newArray _ sizes => Expr.namesAll sizes
  | .list _ items => Expr.namesAll items
  | .var _ name indices => name :: Expr.namesAll indices
  | .call _ name args => name :: Expr.namesAll args
  | .unary _ _ operand => operand.names
  | .binary _ _ left right => left.names ++ right.names

/-- The names in several expressions. -/
def Expr.namesAll : List Expr → List String
  | [] => []
  | e :: es => e.names ++ Expr.namesAll es

end

/-- The names in a target. -/
def Target.names (target : Target) : List String :=
  target.name :: Expr.namesAll target.indices

mutual

/-- The names in a statement, of variables, callees and targets. -/
def Stmt.names : Stmt → List String
  | .branch _ condition pass fail =>
    condition.names ++ Stmt.namesAll pass ++ Stmt.namesOption fail
  | .assign _ target value => target.names ++ value.names
  | .update _ _ target value => target.names ++ value.names
  | .ret _ value => value.names

/-- The names in a block. -/
def Stmt.namesAll : List Stmt → List String
  | [] => []
  | stmt :: rest => stmt.names ++ Stmt.namesAll rest

/-- The names in a block that may be absent. -/
def Stmt.namesOption : Option (List Stmt) → List String
  | none => []
  | some block => Stmt.namesAll block

end

/-! ### Analysis -/

/-- The outcome of a step of analysis, moved: its result as `move` says, and its fault to another
offset. -/
def Relocation.outcome {α : Type} (ρ : Relocation) (move : α → α) :
    Except Fault (α × Draft) → Except Fault (α × Draft)
  | .ok (a, d) => .ok (move a, d)
  | .error fault => .error (ρ.fault fault)

/-- Whether a step of analysis gives what another one gives, moved. -/
def Analysis.Moves {α : Type} (ρ : Relocation) (move : α → α) (m m' : Analysis α) : Prop :=
  ∀ d, m' d = ρ.outcome move (m d)

namespace Analysis.Moves

variable {α β : Type} {ρ : Relocation} {move : α → α} {move' : β → β}

/-- Giving a value that is moved. -/
theorem pure {a b : α} (h : b = move a) : Moves ρ move (Pure.pure a) (Pure.pure b) := by
  intro d
  rw [h]
  rfl

/-- Two steps move when both do. -/
theorem bind {m m' : Analysis α} {k k' : α → Analysis β} (hm : Moves ρ move m m')
    (hk : ∀ a, Moves ρ move' (k a) (k' (move a))) : Moves ρ move' (m >>= k) (m' >>= k') := by
  intro d
  show StateT.bind m' k' d = ρ.outcome move' (StateT.bind m k d)
  unfold StateT.bind
  rw [hm d]
  cases m d with
  | error fault => rfl
  | ok pair => exact hk pair.1 pair.2

/-- A step that first reads the draft moves when it does in each draft. -/
theorem get_bind {k k' : Draft → Analysis β} (hk : ∀ d, Moves ρ move' (k d) (k' d)) :
    Moves ρ move' (get >>= k) (get >>= k') :=
  fun d => hk d d

/-- Faults move to their new offset. -/
theorem throw {fault fault' : Fault} (h : fault' = ρ.fault fault) :
    Moves ρ move (throw fault) (throw fault') := by
  intro d
  rw [h]
  rfl

/-- Failures move to their new offset. -/
theorem fail (cause : Cause) (offset : Nat) :
    Moves ρ move (Analysis.fail cause offset) (Analysis.fail cause (ρ.offset offset)) :=
  throw rfl

/-- Tests move with their offset. -/
theorem require (condition : Bool) (cause : Cause) (offset : Nat) :
    Moves ρ id (Analysis.require condition cause offset)
      (Analysis.require condition cause (ρ.offset offset)) := by
  cases condition with
  | false => exact fail cause offset
  | true => exact pure rfl

/-- Counting moves with its offset. -/
theorem count (step : Complexity.Counting) (offset : Nat) :
    Moves ρ id (Analysis.count step offset) (Analysis.count step (ρ.offset offset)) := by
  refine get_bind fun d => ?_
  cases step d.complexity with
  | ok _ c => exact fun _ => rfl
  | error cause c => exact fail cause offset

/-- Declaring a variable involves no offset. -/
theorem declare (name : String) (ty : Ty) :
    Moves ρ id (Analysis.declare name ty) (Analysis.declare name ty) :=
  fun _ => rfl

end Analysis.Moves

namespace Setting

/-- Whether two settings differ only by a relocation, as far as some names go. -/
structure Relocates (ρ : Relocation) (s s' : Setting) (names : List String) : Prop where
  name : s'.name = s.name
  params : s'.params = s.params
  entry? : ∀ name ∈ names,
    s'.program.entry? name = (s.program.entry? name).map (Entry.relocate ρ)

/-- Whether a test finds the same fault in a relocated expression. -/
def Test.Relocates (ρ : Relocation) (test test' : Test) : Prop :=
  ∀ index e ty, test' index (e.relocate ρ) ty = (test index e ty).map ρ.fault

section

variable {ρ : Relocation} {s s' : Setting} {names : List String}

theorem relocates_indexTest (name : String) :
    Test.Relocates ρ (indexTest name) (indexTest name) := by
  intro index e ty
  unfold indexTest
  cases ty.isNumber <;> simp [Relocation.fault]

theorem relocates_sizeTest (offset : Nat) :
    Test.Relocates ρ (sizeTest offset) (sizeTest (ρ.offset offset)) := by
  intro index e ty
  unfold sizeTest
  cases ty.isNumber <;> simp [Relocation.fault]

theorem relocates_elementTest (first : Ty) :
    Test.Relocates ρ (elementTest first) (elementTest first) := by
  intro index e ty
  unfold elementTest
  cases ty.compatible first <;> simp [Relocation.fault]

theorem relocates_argumentTest (name : String) (signature : Signature) :
    Test.Relocates ρ (argumentTest name signature) (argumentTest name signature) := by
  intro index e ty
  unfold argumentTest
  cases (signature.param? index).any ty.compatible <;> simp [Relocation.fault]

namespace Relocates

/-- A name stands for a variable or a signature, and neither has a place. -/
theorem resolve_eq (h : s.Relocates ρ s' names) (d : Draft) {name : String}
    (hname : name ∈ names) : s'.resolve d name = s.resolve d name := by
  unfold Setting.resolve Scope.resolve Setting.signature
  rw [h.name, h.params, h.entry? name hname, Option.map_map]
  have hsignature : ((fun entry => Binding.function entry.signature) ∘ Entry.relocate ρ)
      = fun entry => Binding.function entry.signature := by
    funext entry
    simp
  rw [hsignature]

/-- A call reaches the relocated target. -/
theorem target_eq (h : s.Relocates ρ s' names) (d : Draft) {name : String}
    (hname : name ∈ names) :
    s'.target d name = (s.target d name).map (CallTarget.relocate ρ) := by
  unfold Setting.target Setting.signature
  rw [h.name, h.params, h.entry? name hname]
  by_cases hself : name = s.name
  · rw [if_pos hself, if_pos hself]
    cases d.result <;> rfl
  · rw [if_neg hself, if_neg hself]
    cases hentry : s.program.entry? name with
    | none => cases d.scope.find? name <;> simp [Except.map]
    | some entry => cases entry <;> rfl

mutual

/-- Analysis of a relocated expression gives the relocated term. -/
theorem moves_term (h : s.Relocates ρ s' names) :
    ∀ e : Expr, e.names ⊆ names →
      Analysis.Moves ρ (Term.relocate ρ) (s.term e) (s'.term (e.relocate ρ))
  | .number span value, _ => by
    rw [Expr.relocate, term, term]
    exact .pure rfl
  | .newArray span sizes, hnames => by
    rw [Expr.relocate, term, term]
    refine .bind (h.moves_terms (relocates_sizeTest span.start) 0 sizes hnames) fun ts => ?_
    exact .pure rfl
  | .list span [], _ => by
    rw [Expr.relocate, Expr.relocateAll, term, term]
    exact .fail _ _
  | .list span (first :: rest), hnames => by
    rw [Expr.names, Expr.namesAll, List.append_subset] at hnames
    rw [Expr.relocate, Expr.relocateAll, term, term]
    refine .bind (h.moves_term first hnames.1) fun t => ?_
    rw [Term.ty_relocate]
    refine .bind (h.moves_terms (relocates_elementTest t.ty) 1 rest hnames.2) fun ts => ?_
    refine .pure ?_
    rw [Term.relocate, Term.relocateAll, Term.relocateAll_eq_map, List.length_map]
  | .var span name indices, hnames => by
    rw [Expr.names, List.cons_subset] at hnames
    rw [Expr.relocate, term, term]
    refine .get_bind fun d => ?_
    rw [h.resolve_eq d hnames.1]
    have hlength : (Expr.relocateAll ρ indices).length = indices.length := by
      rw [Expr.relocateAll_eq_map, List.length_map]
    have hempty : (Expr.relocateAll ρ indices).isEmpty = indices.isEmpty := by
      rw [Expr.relocateAll_eq_map, List.isEmpty_map]
    -- Both analyses branch on the same binding, so only the spans of what they build differ.
    cases s.resolve d name with
    | none => exact .fail _ _
    | some binding =>
      cases binding with
      | function signature => exact .fail _ _
      | slot v =>
        cases hty : v.ty with
        | number =>
          simp only [hty, hempty]
          exact .bind (.require _ _ _) fun _ => .pure rfl
        | array rank =>
          simp only [hty, hlength]
          refine .bind (h.moves_terms (relocates_indexTest name) 0 indices hnames.2) fun ts => ?_
          exact .bind (.require _ _ _) fun _ => .pure rfl
        | function params rest result score =>
          simp only [hty]
          exact .fail _ _
  | .call span name args, hnames => by
    rw [Expr.names, List.cons_subset] at hnames
    rw [Expr.relocate, term, term]
    refine .get_bind fun d => ?_
    rw [h.target_eq d hnames.1]
    have hlength : (Expr.relocateAll ρ args).length = args.length := by
      rw [Expr.relocateAll_eq_map, List.length_map]
    cases s.target d name with
    | error cause => exact .fail _ _
    | ok target =>
      simp only [Except.map, CallTarget.relocate, hlength]
      refine .bind (.require _ _ _) fun _ => ?_
      refine .bind (h.moves_terms (relocates_argumentTest name _) 0 args hnames.2) fun ts => ?_
      -- A builtin has no score, and its call is not counted.
      cases target.signature.score with
      | none =>
        cases target.signature.result with
        | none => exact .fail _ _
        | some result => exact .pure rfl
      | some score =>
        refine .bind (.count _ _) fun _ => ?_
        cases target.signature.result with
        | none => exact .fail _ _
        | some result => exact .pure rfl
  | .unary span op operand, hnames => by
    rw [Expr.relocate, term, term]
    refine .bind (h.moves_term operand hnames) fun t => ?_
    rw [Term.ty_relocate]
    exact .bind (.require _ _ _) fun _ => .pure rfl
  | .binary span op left right, hnames => by
    rw [Expr.names, List.append_subset] at hnames
    rw [Expr.relocate, term, term]
    refine .bind (h.moves_term left hnames.1) fun t => ?_
    rw [Term.ty_relocate]
    refine .bind (.require _ _ _) fun _ => ?_
    refine .bind (h.moves_term right hnames.2) fun u => ?_
    rw [Term.ty_relocate]
    exact .bind (.require _ _ _) fun _ => .pure rfl

/-- Analysis of relocated expressions gives the relocated terms. -/
theorem moves_terms (h : s.Relocates ρ s' names) {test test' : Test}
    (htest : Test.Relocates ρ test test') :
    ∀ (index : Nat) (es : List Expr), Expr.namesAll es ⊆ names →
      Analysis.Moves ρ (Term.relocateAll ρ) (s.terms test index es)
        (s'.terms test' index (Expr.relocateAll ρ es))
  | _, [], _ => by
    rw [Expr.relocateAll, terms, terms]
    exact .pure rfl
  | index, e :: es, hnames => by
    rw [Expr.namesAll, List.append_subset] at hnames
    rw [Expr.relocateAll, terms, terms]
    refine .bind (h.moves_term e hnames.1) fun t => ?_
    rw [Term.ty_relocate, htest]
    cases test index e t.ty with
    | some fault => exact .throw rfl
    | none =>
      refine .bind (h.moves_terms htest (index + 1) es hnames.2) fun ts => ?_
      exact .pure rfl

end

/-- Analysis of a relocated assignment gives the relocated step. -/
theorem moves_assign (h : s.Relocates ρ s' names) {target : Target} {value : Expr}
    (htarget : target.names ⊆ names) (hvalue : value.names ⊆ names) :
    Analysis.Moves ρ (Step.relocate ρ) (s.assign target value)
      (s'.assign (target.relocate ρ) (value.relocate ρ)) := by
  rw [Target.names, List.cons_subset] at htarget
  unfold Setting.assign Target.relocate
  refine .bind (h.moves_term value hvalue) fun t => ?_
  refine .get_bind fun d => ?_
  rw [h.resolve_eq d htarget.1, Term.ty_relocate]
  have hlength : (Expr.relocateAll ρ target.indices).length = target.indices.length := by
    rw [Expr.relocateAll_eq_map, List.length_map]
  have hempty : (Expr.relocateAll ρ target.indices).isEmpty = target.indices.isEmpty := by
    rw [Expr.relocateAll_eq_map, List.isEmpty_map]
  -- An assignment to a new name declares it, which takes the same slot on both sides.
  cases s.resolve d target.name with
  | none =>
    simp only [hempty]
    refine .bind (.require _ _ _) fun _ => ?_
    exact .bind (.declare _ _) fun slot => .pure rfl
  | some binding =>
    cases binding with
    | function signature => exact .fail _ _
    | slot v =>
      cases hty : v.ty with
      | number =>
        simp only [hty, hempty]
        refine .bind (.require _ _ _) fun _ => ?_
        exact .bind (.require _ _ _) fun _ => .pure rfl
      | array rank =>
        simp only [hty, hlength]
        refine .bind (h.moves_terms (relocates_indexTest _) 0 _ htarget.2) fun ts => ?_
        refine .bind (.require _ _ _) fun _ => ?_
        cases rank.drop target.indices.length with
        | nil => exact .bind (.require _ _ _) fun _ => .pure rfl
        | cons dim dims => exact .bind (.require _ _ _) fun _ => .pure rfl
      | function params rest result score =>
        simp only [hty]
        exact .fail _ _

mutual

/-- Analysis of a relocated statement gives the relocated step. -/
theorem moves_step (h : s.Relocates ρ s' names) (last : Bool) :
    ∀ stmt : Stmt, stmt.names ⊆ names →
      Analysis.Moves ρ (Step.relocate ρ) (s.step last stmt) (s'.step last (stmt.relocate ρ))
  | .branch span condition pass fail, hnames => by
    rw [Stmt.names, List.append_subset, List.append_subset] at hnames
    rw [Stmt.relocate, step, step]
    refine .bind (h.moves_term condition hnames.1.1) fun t => ?_
    rw [Term.ty_relocate]
    refine .bind (.require _ _ _) fun _ => ?_
    refine .bind (.count _ _) fun _ => ?_
    refine .bind (h.moves_steps pass hnames.1.2) fun _ => ?_
    refine .bind (h.moves_stepsOption fail hnames.2) fun _ => ?_
    exact .pure rfl
  | .assign span target value, hnames => by
    rw [Stmt.names, List.append_subset] at hnames
    rw [Stmt.relocate, step, step]
    exact h.moves_assign hnames.1 hnames.2
  | .update span op target value, hnames => by
    rw [Stmt.names, List.append_subset] at hnames
    rw [Stmt.relocate, step, step]
    -- The value that is written out mentions the target once more.
    have hvalue : (Expr.binary span op.longhand target.read value).names ⊆ names := by
      rw [Expr.names, List.append_subset]
      exact hnames
    exact h.moves_assign hnames.1 hvalue
  | .ret span value, hnames => by
    rw [Stmt.relocate, step, step]
    refine .bind (.require _ _ _) fun _ => ?_
    refine .bind (h.moves_term value hnames) fun t => ?_
    refine .get_bind fun d => ?_
    rw [Term.ty_relocate]
    cases d.result with
    | none => exact fun _ => rfl
    | some result => exact .bind (.require _ _ _) fun _ => .pure rfl

/-- Analysis of a relocated block gives the relocated steps. -/
theorem moves_steps (h : s.Relocates ρ s' names) :
    ∀ body : List Stmt, Stmt.namesAll body ⊆ names →
      Analysis.Moves ρ (Step.relocateAll ρ) (s.steps body) (s'.steps (Stmt.relocateAll ρ body))
  | [], _ => by
    rw [Stmt.relocateAll, steps, steps]
    exact .pure rfl
  | stmt :: rest, hnames => by
    rw [Stmt.namesAll, List.append_subset] at hnames
    rw [Stmt.relocateAll, steps, steps]
    have hlast : (Stmt.relocateAll ρ rest).isEmpty = rest.isEmpty := by
      cases rest <;> rfl
    rw [hlast]
    refine .bind (h.moves_step rest.isEmpty stmt hnames.1) fun _ => ?_
    refine .bind (h.moves_steps rest hnames.2) fun _ => ?_
    exact .pure rfl

/-- The same for a block that may be absent. -/
theorem moves_stepsOption (h : s.Relocates ρ s' names) :
    ∀ block : Option (List Stmt), Stmt.namesOption block ⊆ names →
      Analysis.Moves ρ (Step.relocateAll ρ) (s.stepsOption block)
        (s'.stepsOption (Stmt.relocateOption ρ block))
  | none, _ => by
    rw [Stmt.relocateOption, stepsOption, stepsOption]
    exact .pure rfl
  | some block, hnames => by
    rw [Stmt.relocateOption, stepsOption, stepsOption]
    exact h.moves_steps block hnames

end

end Relocates

end

end Setting

/-! ### Declarations -/

section

variable {ρ : Relocation}

/-- Binding relocated parameters. -/
theorem Analysis.moves_bindParams (params : List Param) :
    Analysis.Moves ρ id (Analysis.bindParams params)
      (Analysis.bindParams (params.map (Param.relocate ρ))) := by
  induction params with
  | nil =>
    rw [List.map_nil, Analysis.bindParams]
    exact .pure rfl
  | cons param params ih =>
    rw [List.map_cons, Analysis.bindParams, Analysis.bindParams, Ty.ofParam_relocate]
    refine .get_bind fun d => ?_
    refine .bind (.require _ _ _) fun _ => ?_
    exact .bind (.declare _ _) fun _ => ih

namespace Program

variable {p p' : Program} {decl : Decl}

/-- What analysis against a relocated program starts from. -/
theorem relocates_setting
    (hentry : ∀ name ∈ Stmt.namesAll decl.body,
      p'.entry? name = (p.entry? name).map (Entry.relocate ρ)) :
    (p.setting decl).Relocates ρ (p'.setting (decl.relocate ρ)) (Stmt.namesAll decl.body) where
  name := rfl
  params := by
    have htypes : (Ty.ofParam ∘ Param.relocate ρ) = Ty.ofParam := by
      funext param
      exact Ty.ofParam_relocate param
    simp only [setting, Decl.relocate, List.map_map, htypes]
  entry? := hentry

/-- Analysis of a relocated declaration gives the relocated function, when the names in its body
have the same meaning. -/
theorem analyseDecl_relocate (file : String)
    (hentry : ∀ name ∈ Stmt.namesAll decl.body,
      p'.entry? name = (p.entry? name).map (Entry.relocate ρ)) :
    p'.analyseDecl (ρ.file file) (decl.relocate ρ)
      = ((p.analyseDecl file decl).mapError ρ.fault).map (Function.relocate ρ) := by
  have hs := relocates_setting hentry
  have hbody : p'.analyseBody (decl.relocate ρ)
      = ρ.outcome (Step.relocateAll ρ) (p.analyseBody decl) :=
    Analysis.Moves.bind (Analysis.moves_bindParams decl.params)
      (fun _ => hs.moves_steps decl.body (List.Subset.refl _)) .start
  have hparams : (decl.relocate ρ).params.map Ty.ofParam = decl.params.map Ty.ofParam := hs.params
  have hreturns : Stmt.bodyReturns (decl.relocate ρ).body = Stmt.bodyReturns decl.body :=
    Stmt.bodyReturns_relocateAll decl.body
  unfold analyseDecl
  rw [hbody, hreturns, hparams]
  cases p.analyseBody decl with
  | error fault => rfl
  | ok pair =>
    obtain ⟨body, d⟩ := pair
    simp only [Relocation.outcome, bind, Except.bind]
    cases d.result with
    | none => rfl
    | some result => cases Stmt.bodyReturns decl.body <;> rfl

/-- The same with the name of the declaration, which has to be free on both sides or on none. -/
theorem analyse_relocate (file : String)
    (hentry : ∀ name ∈ Stmt.namesAll decl.body,
      p'.entry? name = (p.entry? name).map (Entry.relocate ρ))
    (hcontains : p'.contains decl.name = p.contains decl.name) :
    p'.analyse (ρ.file file) (decl.relocate ρ)
      = ((p.analyse file decl).mapError ρ.error).map (Function.relocate ρ) := by
  unfold analyse
  rw [analyseDecl_relocate file hentry]
  have hname : (decl.relocate ρ).name = decl.name := rfl
  rw [hname, hcontains]
  cases Builtin.find? decl.name with
  | some b => rfl
  | none =>
    cases p.contains decl.name with
    | true => rfl
    | false => cases p.analyseDecl file decl <;> rfl

end Program

end

/-! ### Running -/

/-- The outcome of a run with its error moved. Values and heaps stay as they are. -/
def Relocation.result {σ α : Type} (ρ : Relocation) :
    EStateM.Result Error σ α → EStateM.Result Error σ α
  | .ok a s => .ok a s
  | .error e s => .error (ρ.error e) s

/-- Whether a run ends like another one, up to the position of an error. -/
def RunsAlike {σ α : Type} (ρ : Relocation) (m m' : EStateM Error σ α) : Prop :=
  ∀ s, m' s = ρ.result (m s)

namespace RunsAlike

variable {ρ : Relocation} {σ α β : Type}

/-- A run that is not concerned with errors. -/
theorem pure (a : α) : RunsAlike ρ (Pure.pure a : EStateM Error σ α) (Pure.pure a) :=
  fun _ => rfl

/-- Two runs after one another. -/
theorem bind {m m' : EStateM Error σ α} {k k' : α → EStateM Error σ β} (hm : RunsAlike ρ m m')
    (hk : ∀ a, RunsAlike ρ (k a) (k' a)) : RunsAlike ρ (m >>= k) (m' >>= k') := by
  intro s
  show EStateM.bind m' k' s = ρ.result (EStateM.bind m k s)
  unfold EStateM.bind
  rw [hm s]
  cases m s with
  | error e s' => rfl
  | ok a s' => exact hk a s'

/-- A run that first reads the state. -/
theorem get_bind {k k' : σ → EStateM Error σ β} (hk : ∀ s, RunsAlike ρ (k s) (k' s)) :
    RunsAlike ρ (get >>= k) (get >>= k') :=
  fun s => hk s s

/-- A run that changes the state. -/
theorem modifyGet (change : σ → α × σ) :
    RunsAlike ρ (MonadStateOf.modifyGet change : EStateM Error σ α)
      (MonadStateOf.modifyGet change) :=
  fun _ => rfl

/-- A run that fails. -/
theorem throw {e e' : Error} (h : e' = ρ.error e) :
    RunsAlike ρ (throw e : EStateM Error σ α) (throw e') := by
  intro s
  rw [h]
  rfl

end RunsAlike

/-- Whether two sites differ only by a relocation. -/
structure Site.Relocates (ρ : Relocation) (site site' : Site) : Prop where
  current : site'.current = site.current.relocate ρ
  functions : ∀ place : Nat, site'.program.functions[ρ.place place]?
    = site.program.functions[place]?.map (Function.relocate ρ)
  enter : ∀ (f : Function) (args : List Value),
    RunsAlike ρ (site.enter f args) (site'.enter (f.relocate ρ) args)

namespace Site.Relocates

open Code

variable {ρ : Relocation} {site site' : Site}

/-- Errors of the function that is running move with it. -/
theorem error_eq (h : site.Relocates ρ site') (offset : Nat) (cause : Cause) :
    site'.error (ρ.offset offset) cause = ρ.error (site.error offset cause) := by
  unfold Site.error
  rw [h.current]
  rfl

/-- An operation has the same outcome. -/
theorem attempt {α : Type} (h : site.Relocates ρ site') (offset : Nat) (r : Except Cause α) :
    RunsAlike ρ (site.attempt offset r) (site'.attempt (ρ.offset offset) r) := by
  cases r with
  | ok a => exact .pure a
  | error cause => exact .throw (h.error_eq offset cause)

/-- A variable has the same value. -/
theorem read (h : site.Relocates ρ site') (frame : Frame) (offset : Nat) (name : String)
    (slot : Nat) :
    RunsAlike ρ (site.read frame offset name slot)
      (site'.read frame (ρ.offset offset) name slot) := by
  unfold Site.read
  rcases frame[slot]? with _ | _ | v
  · exact .throw (h.error_eq offset _)
  · exact .throw (h.error_eq offset _)
  · exact .pure v

mutual

/-- A relocated term has the same value, one case for each form of term. -/
theorem eval (h : site.Relocates ρ site') (frame : Frame) :
    ∀ t : Term, RunsAlike ρ (t.eval site frame) ((t.relocate ρ).eval site' frame)
  | .number value => by
    rw [Term.relocate, Term.eval, Term.eval]
    exact .pure _
  | .newArray offset sizes => by
    rw [Term.relocate, Term.eval, Term.eval]
    exact .bind (h.evalSizes frame offset sizes) fun _ => .modifyGet _
  | .list ty items => by
    rw [Term.relocate, Term.eval, Term.eval]
    exact .bind (h.evalAll frame items) fun _ => .modifyGet _
  | .slot offset name slot ty indices => by
    rw [Term.relocate, Term.eval, Term.eval]
    refine .bind (h.read frame offset name slot) fun base => ?_
    refine .bind (h.evalNumbers frame offset indices) fun path => ?_
    exact .get_bind fun _ => h.attempt offset _
  | .call offset name callee ty args => by
    rw [Term.relocate, Term.eval, Term.eval]
    refine .bind (h.evalAll frame args) fun values => ?_
    -- The code of a call names its callee by its place, and there the relocated program has the
    -- relocated function.
    cases callee with
    | builtin b =>
      refine .get_bind fun heap => ?_
      exact .bind (h.attempt offset _) fun x => .pure _
    | self =>
      simp only [Relocation.callee]
      rw [h.current]
      exact h.enter site.current values
    | user place =>
      simp only [Relocation.callee]
      rw [h.functions place]
      cases site.program.functions[place]? with
      | none => exact .throw (h.error_eq offset _)
      | some f => exact h.enter f values
  | .unary offset op operand => by
    rw [Term.relocate, Term.eval, Term.eval]
    refine .bind (h.eval frame operand) fun v => ?_
    exact .bind (h.attempt offset _) fun x => .pure _
  | .binary offset op left right => by
    rw [Term.relocate, Term.eval, Term.eval]
    refine .bind (h.eval frame left) fun v => ?_
    refine .bind (h.attempt offset _) fun x => ?_
    cases op.shortcut? x with
    | some result => exact .pure _
    | none =>
      refine .bind (h.eval frame right) fun w => ?_
      exact .bind (h.attempt offset _) fun y => .pure _

/-- Companion for several terms. -/
theorem evalAll (h : site.Relocates ρ site') (frame : Frame) :
    ∀ ts : List Term,
      RunsAlike ρ (Code.evalAll site frame ts) (Code.evalAll site' frame (Term.relocateAll ρ ts))
  | [] => by
    rw [Term.relocateAll, Code.evalAll, Code.evalAll]
    exact .pure _
  | t :: ts => by
    rw [Term.relocateAll, Code.evalAll, Code.evalAll]
    refine .bind (h.eval frame t) fun v => ?_
    exact .bind (h.evalAll frame ts) fun vs => .pure _

/-- Companion for several numbers. -/
theorem evalNumbers (h : site.Relocates ρ site') (frame : Frame) (offset : Nat) :
    ∀ ts : List Term,
      RunsAlike ρ (Code.evalNumbers site frame offset ts)
        (Code.evalNumbers site' frame (ρ.offset offset) (Term.relocateAll ρ ts))
  | [] => by
    rw [Term.relocateAll, Code.evalNumbers, Code.evalNumbers]
    exact .pure _
  | t :: ts => by
    rw [Term.relocateAll, Code.evalNumbers, Code.evalNumbers]
    refine .bind (h.eval frame t) fun v => ?_
    refine .bind (h.attempt offset _) fun x => ?_
    exact .bind (h.evalNumbers frame offset ts) fun xs => .pure _

/-- Companion for several sizes. -/
theorem evalSizes (h : site.Relocates ρ site') (frame : Frame) (offset : Nat) :
    ∀ ts : List Term,
      RunsAlike ρ (Code.evalSizes site frame offset ts)
        (Code.evalSizes site' frame (ρ.offset offset) (Term.relocateAll ρ ts))
  | [] => by
    rw [Term.relocateAll, Code.evalSizes, Code.evalSizes]
    exact .pure _
  | t :: ts => by
    rw [Term.relocateAll, Code.evalSizes, Code.evalSizes]
    refine .bind (h.eval frame t) fun v => ?_
    refine .bind (h.attempt offset _) fun x => ?_
    exact .bind (h.evalSizes frame offset ts) fun xs => .pure _

end

/-- Runs on the heap that are alike for every frame are alike inside an execution. -/
theorem ofRun {α : Type} {run run' : Frame → Run α}
    (hrun : ∀ frame, RunsAlike ρ (run frame) (run' frame)) :
    RunsAlike ρ (Execution.ofRun run) (Execution.ofRun run') := by
  rintro ⟨frame, heap⟩
  simp only [Execution.ofRun, hrun frame heap]
  cases run frame heap <;> rfl

/-- An element is written in the same array. -/
theorem writeElement (h : site.Relocates ρ site') (frame : Frame) (offset : Nat) (name : String)
    (slot : Nat) (path : List Float) (last : Float) (v : Value) :
    RunsAlike ρ (Code.writeElement site frame offset name slot path last v)
      (Code.writeElement site' frame (ρ.offset offset) name slot path last v) := by
  unfold Code.writeElement
  refine .bind (h.read frame offset name slot) fun base => ?_
  refine .get_bind fun _ => ?_
  refine .bind (h.attempt offset _) fun container => ?_
  refine .get_bind fun _ => ?_
  refine .bind (h.attempt offset _) fun cell => ?_
  exact .modifyGet _

mutual

/-- A relocated step does the same. -/
theorem exec (h : site.Relocates ρ site') :
    ∀ step : Step, RunsAlike ρ (step.exec site) ((step.relocate ρ).exec site')
  | .branch offset condition pass fail => by
    rw [Step.relocate, Step.exec, Step.exec]
    refine .bind (ofRun fun frame => h.eval frame condition) fun v => ?_
    refine .bind (ofRun fun _ => h.attempt offset _) fun x => ?_
    cases Number.truthy x with
    | true => exact h.execAll pass
    | false => exact h.execAll fail
  | .assign offset name slot indices value => by
    rw [Step.relocate, Step.exec, Step.exec]
    refine .bind (ofRun fun frame => h.evalNumbers frame offset indices) fun path => ?_
    refine .bind (ofRun fun frame => h.eval frame value) fun v => ?_
    cases path.getLast? with
    | none => exact .bind (.modifyGet _) fun _ => .pure _
    | some last =>
      exact .bind (ofRun fun frame => h.writeElement frame offset name slot _ last v)
        fun _ => .pure _
  | .ret value => by
    rw [Step.relocate, Step.exec, Step.exec]
    exact .bind (ofRun fun frame => h.eval frame value) fun v => .pure _

/-- Relocated steps do the same. -/
theorem execAll (h : site.Relocates ρ site') :
    ∀ steps : List Step,
      RunsAlike ρ (Code.execAll site steps) (Code.execAll site' (Step.relocateAll ρ steps))
  | [] => by
    rw [Step.relocateAll, Code.execAll, Code.execAll]
    exact .pure _
  | step :: rest => by
    rw [Step.relocateAll, Code.execAll, Code.execAll]
    refine .bind (h.exec step) fun flow => ?_
    cases flow with
    | returned v => exact .pure _
    | next => exact h.execAll rest

end

end Site.Relocates

namespace Program

/-- Builtins that a host calls know nothing of places in a text. -/
theorem runsAlike_invokeBuiltin {ρ : Relocation}
    (hhost : ∀ cause : Cause, ρ.error cause.atHost = cause.atHost) (b : Builtin)
    (args : List Value) : RunsAlike ρ (invokeBuiltin b args) (invokeBuiltin b args) := by
  unfold invokeBuiltin
  by_cases haccepts : (!b.signature.accepts args.length) = true
  · rw [if_pos haccepts]
    exact .throw (hhost _).symm
  · rw [if_neg haccepts]
    refine .get_bind fun heap => ?_
    cases misfit? heap b.signature args with
    | some index => exact .throw (hhost _).symm
    | none =>
      refine .get_bind fun heap' => ?_
      cases b.apply heap' args with
      | ok x => exact .pure _
      | error cause => exact .throw (hhost _).symm

/-- Whether the functions of one program are those of another one, relocated. -/
def Relocates (ρ : Relocation) (p p' : Program) : Prop :=
  ∀ place : Nat, p'.functions[ρ.place place]? = p.functions[place]?.map (Function.relocate ρ)

namespace Relocates

variable {ρ : Relocation} {p p' : Program}

/-- Calls of a relocated function end like those of the function itself, whatever room there is for
calls inside. -/
theorem call (h : p.Relocates ρ p') :
    ∀ (room : Nat) (f : Function) (args : List Value),
      RunsAlike ρ (p.call room f args) (p'.call room (f.relocate ρ) args)
  | 0, f, args => .throw rfl
  | room + 1, f, args => by
    intro heap
    have hsite : Site.Relocates ρ ⟨p, f, p.call room⟩ ⟨p', f.relocate ρ, p'.call room⟩ :=
      ⟨rfl, h, fun g values => h.call room g values⟩
    have hframe : (f.relocate ρ).frame args = f.frame args := rfl
    have hbody : (f.relocate ρ).body = Step.relocateAll ρ f.body := rfl
    unfold Program.call
    rw [hframe, hbody, hsite.execAll f.body]
    cases Code.execAll ⟨p, f, p.call room⟩ f.body ⟨f.frame args, heap⟩ with
    | error e state => rfl
    | ok flow state => cases flow <;> rfl

/-- A host is answered alike. -/
theorem invokeFunction (h : p.Relocates ρ p') (f : Function) (args : List Value) :
    RunsAlike ρ (p.invokeFunction f args) (p'.invokeFunction (f.relocate ρ) args) := by
  have hname : (f.relocate ρ).name = f.name := rfl
  have hparams : (f.relocate ρ).params = f.params := rfl
  unfold Program.invokeFunction
  rw [hname, hparams, Function.signature_relocate]
  by_cases hlength : args.length ≠ f.params.length
  · rw [if_pos hlength, if_pos hlength]
    exact .throw rfl
  · rw [if_neg hlength, if_neg hlength]
    refine .get_bind fun heap => ?_
    cases misfit? heap f.signature args with
    | some index => exact .throw rfl
    | none => exact h.call (maxCallDepth + 1) f args

/-- Calls by name end alike, where the name has the same meaning and errors of the host itself stay
where they are. -/
theorem invoke (h : p.Relocates ρ p') {name : String}
    (hentry : p'.entry? name = (p.entry? name).map (Entry.relocate ρ))
    (hhost : ∀ cause : Cause, ρ.error cause.atHost = cause.atHost) (args : List Value) :
    RunsAlike ρ (p.invoke name args) (p'.invoke name args) := by
  unfold Program.invoke
  rw [hentry]
  cases p.entry? name with
  | none => exact .throw (hhost _).symm
  | some entry =>
    cases entry with
    | user place f => exact h.invokeFunction f args
    | builtin b => exact runsAlike_invokeBuiltin hhost b args

/-- Names have the same meaning in a relocated program, when every place is the new place of
some old one. -/
theorem entry?_eq (h : p.Relocates ρ p') (hplace : Function.Surjective ρ.place)
    (hindexed : p.Indexed) (hindexed' : p'.Indexed) (name : String) :
    p'.entry? name = (p.entry? name).map (Entry.relocate ρ) := by
  unfold Program.entry?
  cases Builtin.find? name with
  | some b => rfl
  | none =>
    have hfind : p'.find? name
        = (p.find? name).map fun pair => (ρ.place pair.1, pair.2.relocate ρ) := by
      cases hp : p.find? name with
      | some pair =>
        obtain ⟨hf, hname⟩ := hindexed.find?_iff.mp hp
        refine hindexed'.find?_iff.mpr ⟨?_, hname⟩
        rw [h, hf]
        rfl
      | none =>
        refine Option.eq_none_iff_forall_ne_some.mpr ?_
        rintro ⟨place', g⟩ hg
        -- A function under the name on the right comes from one on the left.
        obtain ⟨place, rfl⟩ := hplace place'
        obtain ⟨hat, hname⟩ := hindexed'.find?_iff.mp hg
        rw [h, Option.map_eq_some_iff] at hat
        obtain ⟨f, hf, rfl⟩ := hat
        exact Option.some_ne_none _ ((hindexed.find?_iff.mpr ⟨hf, hname⟩).symm.trans hp)
    rw [hfind, Option.map_map, Option.map_map]
    rfl

end Relocates

end Program

end ArrayScript
