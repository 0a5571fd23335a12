import ArrayScript.Proofs.Depth
import ArrayScript.Proofs.Nesting

/-!
# `ArrayScript.Proofs.Wildcard`: the type of all arrays stays out of programs

An array type without any marker is that of all arrays. Where it is asked for, arrays of every depth
are compatible, and an analysis that met it in a program would accept what has no meaning. Nothing
in the definition of types keeps it out, and it is close by: indices cut markers off, a list puts
one in front of what its first element has, and an array constructor has as many as it has sizes.

`Source.types_of_values` says that no text brings it in. Every type that analysis gives, to a
parameter, a variable, a result or an expression, is that of numbers or has a dimension. Types of
functions are no such types either.

* `Code.Term.parts` and `Code.Step.parts` are the terms of code, at any depth. In typed code all of
  them are typed (`Code.Typed.forall_parts`, `Code.WellTyped.forall_parts`), and a typed term has a
  type of values.
* `Fragment.Occurs.coded` says that these terms are all there is: each expression of a body has been
  analysed, and what it has become is a part of the code. The induction goes from a fragment of the
  text to its children, like analysis does.
-/

set_option autoImplicit false

namespace ArrayScript

/-- Types of values, told by their form: numbers, and arrays with a first dimension. -/
theorem Ty.proper_iff {ty : Ty} :
    ty.Proper ↔ ty = .number ∨ ∃ dim dims, ty = .array (dim :: dims) := by
  constructor
  · intro h
    rw [← h]
    cases ty.rank with
    | nil => exact .inl rfl
    | cons dim dims => exact .inr ⟨dim, dims, rfl⟩
  · rintro (rfl | ⟨dim, dims, rfl⟩)
    · exact proper_number
    · exact proper_ofRank (dim :: dims)

namespace Code

/-! ### Parts of code -/

mutual

/-- A term and all terms inside it. -/
def Term.parts : Term → List Term
  | t@(.number _) => [t]
  | t@(.newArray _ sizes) => t :: Term.partsAll sizes
  | t@(.list _ items) => t :: Term.partsAll items
  | t@(.slot _ _ _ _ indices) => t :: Term.partsAll indices
  | t@(.call _ _ _ _ args) => t :: Term.partsAll args
  | t@(.unary _ _ operand) => t :: operand.parts
  | t@(.binary _ _ left right) => t :: (left.parts ++ right.parts)

/-- The terms inside several terms, and these terms themselves. -/
def Term.partsAll : List Term → List Term
  | [] => []
  | t :: ts => t.parts ++ Term.partsAll ts

end

mutual

/-- All terms inside a step. -/
def Step.parts : Step → List Term
  | .branch _ condition pass fail => condition.parts ++ Step.partsAll pass ++ Step.partsAll fail
  | .assign _ _ _ indices value => value.parts ++ Term.partsAll indices
  | .ret value => value.parts

/-- All terms inside a block. -/
def Step.partsAll : List Step → List Term
  | [] => []
  | step :: rest => step.parts ++ Step.partsAll rest

end

theorem Term.mem_parts_self (t : Term) : t ∈ t.parts := by
  cases t <;> simp [Term.parts]

theorem Term.mem_partsAll {ts : List Term} {u : Term} :
    u ∈ Term.partsAll ts ↔ ∃ t ∈ ts, u ∈ t.parts := by
  induction ts with
  | nil => simp [Term.partsAll]
  | cons t ts ih => simp [Term.partsAll, ih]

theorem Step.mem_partsAll {steps : List Step} {u : Term} :
    u ∈ Step.partsAll steps ↔ ∃ step ∈ steps, u ∈ step.parts := by
  induction steps with
  | nil => simp [Step.partsAll]
  | cons step steps ih => simp [Step.partsAll, ih]

section

variable {P : Term → Prop}

/-- What holds of all parts of some terms, one term after the other. -/
theorem Term.forall_partsAll {ts : List Term} (h : ∀ t ∈ ts, ∀ u ∈ t.parts, P u) :
    ∀ u ∈ Term.partsAll ts, P u := by
  intro u hu
  obtain ⟨t, ht, hu⟩ := Term.mem_partsAll.mp hu
  exact h t ht u hu

/-- What holds of all parts of some steps, one step after the other. -/
theorem Step.forall_partsAll {steps : List Step} (h : ∀ step ∈ steps, ∀ u ∈ step.parts, P u) :
    ∀ u ∈ Step.partsAll steps, P u := by
  intro u hu
  obtain ⟨step, hstep, hu⟩ := Step.mem_partsAll.mp hu
  exact h step hstep u hu

end

variable {Γ : Types}

/-- All parts of a typed term are typed. -/
theorem Typed.forall_parts {t : Term} (h : Typed Γ t) : ∀ u ∈ t.parts, Typed Γ u := by
  induction h with
  | number => exact List.forall_mem_singleton.mpr .number
  | newArray hdims hne hsizes hnumbers ih =>
    exact List.forall_mem_cons.mpr
      ⟨.newArray hdims hne hsizes hnumbers, Term.forall_partsAll ih⟩
  | list hfirst hrest hcompatible ihfirst ihrest =>
    exact List.forall_mem_cons.mpr ⟨.list hfirst hrest hcompatible,
      Term.forall_partsAll (List.forall_mem_cons.mpr ⟨ihfirst, ihrest⟩)⟩
  | slot hslot hle hindices hnumbers ih =>
    exact List.forall_mem_cons.mpr
      ⟨.slot hslot hle hindices hnumbers, Term.forall_partsAll ih⟩
  | call hreaches haccepts hfit hargs ih =>
    exact List.forall_mem_cons.mpr
      ⟨.call hreaches haccepts hfit hargs, Term.forall_partsAll ih⟩
  | unary hoperand hty ih =>
    exact List.forall_mem_cons.mpr ⟨.unary hoperand hty, ih⟩
  | binary hleft hleftTy hright hrightTy ihleft ihright =>
    exact List.forall_mem_cons.mpr ⟨.binary hleft hleftTy hright hrightTy,
      List.forall_mem_append.mpr ⟨ihleft, ihright⟩⟩

/-- All terms inside a well typed step are typed. -/
theorem WellTyped.forall_parts {step : Step} (h : WellTyped Γ step) :
    ∀ u ∈ step.parts, Typed Γ u := by
  induction h with
  | branch hcondition _ _ _ ihpass ihfail =>
    rw [Step.parts, List.forall_mem_append, List.forall_mem_append]
    exact ⟨⟨hcondition.forall_parts, Step.forall_partsAll ihpass⟩, Step.forall_partsAll ihfail⟩
  | assign _ _ hindices _ hvalue _ =>
    rw [Step.parts, List.forall_mem_append]
    exact ⟨hvalue.forall_parts, Term.forall_partsAll fun t ht => (hindices t ht).forall_parts⟩
  | ret hvalue _ => exact hvalue.forall_parts

end Code

open Code (Term Step)

/-! ### Expressions and the parts of code -/

namespace Fragment

variable {s : Setting} {terms : List Term} {fragment : Fragment}

/-- Whether a fragment of a body has been analysed, with all terms of its code among `terms`. -/
def Coded (s : Setting) (terms : List Term) : Fragment → Prop
  | stmt st => ∃ last d d' step, s.step last st d = .ok (step, d') ∧ step.parts ⊆ terms
  | target t => ∃ test index d d' ts,
      s.terms test index t.indices d = .ok (ts, d') ∧ Term.partsAll ts ⊆ terms
  | expr e => ∃ d d' t, s.term e d = .ok (t, d') ∧ t.parts ⊆ terms
  | decl _ | param _ => False

/-- Expressions that are analysed together are analysed each. -/
theorem coded_exprs {es : List Expr} {test : Setting.Test} {index : Nat} {d d' : Draft}
    {ts : List Term} (h : s.terms test index es d = .ok (ts, d'))
    (hts : Term.partsAll ts ⊆ terms) : ∀ child ∈ es.map expr, child.Coded s terms := by
  induction es generalizing index d ts with
  | nil => exact nofun
  | cons e es ih =>
    obtain ⟨t, d₁, us, ht, -, hus, rfl⟩ := Setting.terms_cons_ok.mp h
    obtain ⟨hfirst, hothers⟩ := List.append_subset.mp hts
    exact List.forall_mem_cons.mpr ⟨⟨d, d₁, t, ht, hfirst⟩, ih hus hothers⟩

/-- Statements of a block are analysed each. -/
theorem coded_stmts {block : List Stmt} {d d' : Draft} {steps : List Step}
    (h : s.steps block d = .ok (steps, d')) (hsteps : Step.partsAll steps ⊆ terms) :
    ∀ child ∈ block.map stmt, child.Coded s terms := by
  induction block generalizing d steps with
  | nil => exact nofun
  | cons first rest ih =>
    obtain ⟨step, d₁, others, hstep, hrest, rfl⟩ := Setting.steps_cons_ok.mp h
    obtain ⟨hfirst, hothers⟩ := List.append_subset.mp hsteps
    exact List.forall_mem_cons.mpr ⟨⟨_, d, d₁, step, hstep, hfirst⟩, ih hrest hothers⟩

/-- The two sides of an assignment are analysed. -/
theorem coded_assign {t : Target} {value : Expr} {d d' : Draft} {step : Step}
    (h : s.assign t value d = .ok (step, d')) (hstep : step.parts ⊆ terms) :
    (target t).Coded s terms ∧ (expr value).Coded s terms := by
  obtain ⟨u, d₁, hu, hcases⟩ := Setting.assign_ok.mp h
  rcases hcases with ⟨-, -, -, hnil, rfl, -⟩ | ⟨v, ts, -, -, hts, -, -, rfl⟩
  · -- A new variable has no indices, so there is nothing to analyse on the left.
    obtain ⟨hvalue, hindices⟩ := List.append_subset.mp hstep
    refine ⟨⟨Setting.indexTest t.name, 0, d₁, d₁, [], ?_, hindices⟩, d, d₁, u, hu, hvalue⟩
    rw [hnil]
    exact Setting.terms_nil_ok.mpr ⟨rfl, rfl⟩
  · obtain ⟨hvalue, hindices⟩ := List.append_subset.mp hstep
    exact ⟨⟨_, 0, d₁, d', ts, hts, hindices⟩, d, d₁, u, hu, hvalue⟩

/-- With a statement the fragments directly below it are analysed. -/
theorem coded_children_stmt {st : Stmt} (h : (stmt st).Coded s terms) :
    ∀ child ∈ (stmt st).children, child.Coded s terms := by
  obtain ⟨last, d, d', step, hstep, hparts⟩ := h
  cases st with
  | branch span condition pass fail =>
    obtain ⟨t, d₁, c, p, d₂, f, ht, -, -, hp, hf, rfl⟩ := Setting.step_branch_ok.mp hstep
    obtain ⟨hfront, hfail⟩ := List.append_subset.mp hparts
    obtain ⟨hcondition, hpass⟩ := List.append_subset.mp hfront
    rw [children, List.cons_append, List.forall_mem_cons, List.forall_mem_append]
    refine ⟨⟨d, d₁, t, ht, hcondition⟩, coded_stmts hp hpass, ?_⟩
    cases fail with
    | none => exact nofun
    | some block =>
      rw [Setting.stepsOption_some] at hf
      exact coded_stmts hf hfail
  | assign span t value =>
    rw [Setting.step_assign_ok] at hstep
    obtain ⟨htarget, hvalue⟩ := coded_assign hstep hparts
    exact List.forall_mem_cons.mpr ⟨htarget, List.forall_mem_singleton.mpr hvalue⟩
  | update span op t value =>
    rw [Setting.step_update_ok] at hstep
    obtain ⟨htarget, d₁, d₂, u, hu, hu'⟩ := coded_assign hstep hparts
    -- The value is the right operand of the longhand.
    obtain ⟨v, d₃, w, -, -, hw, -, rfl⟩ := Setting.term_binary_ok.mp hu
    have hvalue : w.parts ⊆ terms := by
      rw [Term.parts, List.cons_subset, List.append_subset] at hu'
      exact hu'.2.2
    exact List.forall_mem_cons.mpr
      ⟨htarget, List.forall_mem_singleton.mpr ⟨d₃, d₂, w, hw, hvalue⟩⟩
  | ret span value =>
    obtain ⟨-, t, d₁, ht, rfl, -⟩ := Setting.step_ret_ok.mp hstep
    exact List.forall_mem_singleton.mpr ⟨d, d₁, t, ht, hparts⟩

/-- With an expression the expressions directly below it are analysed. -/
theorem coded_children_expr {e : Expr} (h : (expr e).Coded s terms) :
    ∀ child ∈ (expr e).children, child.Coded s terms := by
  obtain ⟨d, d', t, ht, hparts⟩ := h
  cases e with
  | number span value => exact nofun
  | newArray span sizes =>
    obtain ⟨ts, hts, rfl⟩ := Setting.term_newArray_ok.mp ht
    exact coded_exprs hts (List.cons_subset.mp hparts).2
  | list span items =>
    cases items with
    | nil => exact (Setting.term_list_nil_ok.mp ht).elim
    | cons first rest =>
      obtain ⟨u, d₁, us, hu, hus, rfl⟩ := Setting.term_list_ok.mp ht
      rw [Term.parts, Term.partsAll, List.cons_subset, List.append_subset] at hparts
      exact List.forall_mem_cons.mpr
        ⟨⟨d, d₁, u, hu, hparts.2.1⟩, coded_exprs hus hparts.2.2⟩
  | var span name indices =>
    obtain ⟨v, ts, -, -, hts, -, rfl⟩ := Setting.term_var_ok.mp ht
    exact coded_exprs hts (List.cons_subset.mp hparts).2
  | call span name args =>
    obtain ⟨callTarget, result, ts, d₁, -, -, -, hts, -, rfl⟩ := Setting.term_call_ok.mp ht
    exact coded_exprs hts (List.cons_subset.mp hparts).2
  | unary span op operand =>
    obtain ⟨u, hu, -, rfl⟩ := Setting.term_unary_ok.mp ht
    exact List.forall_mem_singleton.mpr ⟨d, d', u, hu, (List.cons_subset.mp hparts).2⟩
  | binary span op left right =>
    obtain ⟨u, d₁, w, hu, -, hw, -, rfl⟩ := Setting.term_binary_ok.mp ht
    rw [Term.parts, List.cons_subset, List.append_subset] at hparts
    exact List.forall_mem_cons.mpr ⟨⟨d, d₁, u, hu, hparts.2.1⟩,
      List.forall_mem_singleton.mpr ⟨d₁, d', w, hw, hparts.2.2⟩⟩

/-- Analysis of a fragment goes through its children. -/
theorem Coded.forall_children (h : fragment.Coded s terms) :
    ∀ child ∈ fragment.children, child.Coded s terms := by
  cases fragment with
  | decl d => exact h.elim
  | param p => exact h.elim
  | stmt st => exact coded_children_stmt h
  | target t =>
    obtain ⟨test, index, d, d', ts, hts, hparts⟩ := h
    exact coded_exprs hts hparts
  | expr e => exact coded_children_expr h

/-- Analysis of a body goes through all fragments that occur in it. -/
theorem Occurs.coded {body : List Stmt} {d d' : Draft} {steps : List Step}
    (h : Occurs (body.map stmt) fragment) (hbody : s.steps body d = .ok (steps, d')) :
    fragment.Coded s (Step.partsAll steps) := by
  induction h with
  | root hroot => exact coded_stmts hbody (List.Subset.refl _) _ hroot
  | child _ hchild ih => exact ih.forall_children _ hchild

end Fragment

/-! ### The types that analysis gives -/

/-- The types that analysis gives in a function, where it ends with the draft `d`: to the
parameters, to the result, to the variables, and to all terms of the code, arguments among them. -/
def Function.givenTypes (f : Function) (d : Draft) : List Ty :=
  f.params ++ f.result :: (d.scope.types ++ (Step.partsAll f.body).map Term.ty)

/-- A function that fits types of values is given such types only. -/
theorem Function.Fits.proper {p : Program} {dims : Dim → Prop} {f : Function} {d : Draft}
    (h : f.Fits p dims d.scope.types) (hΓ : (f.types p dims d.scope.types).Proper) :
    ∀ ty ∈ f.givenTypes d, ty.Proper := by
  obtain ⟨-, -, hslots, hresult, hbody⟩ := h
  rw [Function.givenTypes, List.forall_mem_append, List.forall_mem_cons, List.forall_mem_append,
    List.forall_mem_map]
  refine ⟨hΓ.params, hresult.1, fun ty hty => (hslots ty hty).1, ?_⟩
  -- The terms are left: all of them are typed, at any depth.
  apply Step.forall_partsAll
  intro step hstep u hu
  have htyped := (hbody step hstep).forall_parts u hu
  exact (Code.deep_of_typed hΓ htyped).1

/-- Every type that analysis gives in an accepted text is that of numbers or of arrays with a
dimension, so that types which are compatible have the same depth. For the function at a place of
the program, the declaration at that place is analysed with the functions in front of it; each
expression in its body has become a term of the code, and the type of that term is its type. -/
theorem Source.types_of_values {source : Source} {p : Program} {index : Nat} {f : Function}
    (h : source.compile = .ok p) (hf : p.functions[index]? = some f) :
    ∃ decls decl d, source.decls = .ok decls ∧ decls[index]? = some decl ∧
      (p.before index).analyseBody decl = .ok (f.body, d) ∧
      (∀ e, Fragment.Occurs (decl.body.map .stmt) (.expr e) → ∃ d₁ d₂ t,
        ((p.before index).setting decl).term e d₁ = .ok (t, d₂) ∧
          t ∈ Step.partsAll f.body) ∧
      (∀ ty ∈ f.givenTypes d, ty = .number ∨ ∃ dim dims, ty = .array (dim :: dims)) ∧
      ∀ actual ∈ f.givenTypes d, ∀ expected ∈ f.givenTypes d,
        actual.compatible expected = true → actual.depth = expected.depth := by
  obtain ⟨decls, hdecls, hbuilt⟩ := Source.built_of_compile h
  -- A tree could hold an array constructor without sizes; one that was read from a text does not.
  obtain ⟨decl, d, hdecl, hbody, hfits, hΓ⟩ :=
    hbuilt.fits_values (Source.sized_decls hdecls) hf
  have hproper : ∀ ty ∈ f.givenTypes d, ty.Proper := hfits.proper hΓ
  refine ⟨decls, decl, d, hdecls, hdecl, hbody, ?_, fun ty hty => Ty.proper_iff.mp (hproper ty hty),
    fun actual ha expected he => (hproper actual ha).depth_eq (hproper expected he)⟩
  intro e he
  obtain ⟨d₀, -, hsteps⟩ := Program.analyseBody_ok.mp hbody
  obtain ⟨d₁, d₂, t, ht, hparts⟩ := he.coded hsteps
  exact ⟨d₁, d₂, t, ht, hparts t.mem_parts_self⟩

/-- A program with a partial index, lists, an array constructor, a call of a function with an array
for a result, and a call of the builtin that asks for the type of all arrays. -/
def Source.shapes : Source :=
  ⟨"shapes", "pair(g: number[][2]) { return [g[0], [1, 2]]; }
fill(n: number) { g = new number[n][2]; g[0] = [sizeof(g), -n]; return pair(g); }"⟩

/-- The types of the terms of the second function, in the order of its text; each of them, and those
of its parameter, its result and its variables, is a type of values. -/
theorem Source.types_of_values_shapes :
    ∃ p f decls decl d, Source.shapes.compile = .ok p ∧ p.functions[1]? = some f ∧
      (Step.partsAll f.body).map Term.ty
        = [.dynamicArray 2, .number, .number,
            .array [.fixed 2], .number, .dynamicArray 2, .number, .number, .number,
            .array [.fixed 2, .fixed 2], .dynamicArray 2] ∧
      Source.shapes.decls = .ok decls ∧ decls[1]? = some decl ∧
      (p.before 1).analyseBody decl = .ok (f.body, d) ∧
      (∀ ty ∈ f.givenTypes d, ty = .number ∨ ∃ dim dims, ty = .array (dim :: dims)) := by
  have hrun : (Source.shapes.compile.toOption.bind fun p => p.functions[1]?.map fun f =>
      (Step.partsAll f.body).map Term.ty
        == [.dynamicArray 2, .number, .number,
            .array [.fixed 2], .number, .dynamicArray 2, .number, .number, .number,
            .array [.fixed 2, .fixed 2], .dynamicArray 2]) = some true := by
    decide +kernel
  obtain ⟨p, hcompile, hrun⟩ := Option.bind_eq_some_iff.mp hrun
  obtain ⟨f, hf, htypes⟩ := Option.map_eq_some_iff.mp hrun
  have hcompile := eq_ok_of_toOption hcompile
  obtain ⟨decls, decl, d, hdecls, hdecl, hbody, -, hgiven, -⟩ :=
    Source.types_of_values hcompile hf
  exact ⟨p, f, decls, decl, d, hcompile, hf, eq_of_beq htypes, hdecls, hdecl, hbody, hgiven⟩

end ArrayScript
