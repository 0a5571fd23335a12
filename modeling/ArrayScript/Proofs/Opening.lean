import ArrayScript.Proofs.Callees
import ArrayScript.Proofs.Marks

/-!
# `ArrayScript.Proofs.Opening`: a body up to its first return

Analysis knows the result of a function from the end of its first return on, and from then on it
never changes. Until then a call of the function itself has no type, and analysis refuses it. The
part of a body where that is so is its *opening*: everything up to the end of its first return, in
the order of the text, at whatever depth that return stands.

* `Setting.step_selfTyped`: in a statement that is accepted, the calls of the function itself have
  the type that is the result behind the statement.
* `Setting.step_opens`: if the result is open in front of such a statement, then its opening has no
  such calls, and the result is open behind it exactly if it has no return.
* `Setting.step_premature`: a statement that is refused because a result is not known is refused at
  a call of the function itself, in its opening.
-/

set_option autoImplicit false

namespace ArrayScript

open Code (Term Step)

/-! ### The opening of a body -/

namespace Stmt

mutual

/-- The values that a statement returns, itself or in its arms. -/
def results : Stmt → List Expr
  | .branch _ _ pass fail => resultsAll pass ++ resultsOption fail
  | .assign .. | .update .. => []
  | .ret _ value => [value]

/-- The values that a block returns. -/
def resultsAll : List Stmt → List Expr
  | [] => []
  | stmt :: rest => stmt.results ++ resultsAll rest

/-- The values that a block returns, if there is one. -/
def resultsOption : Option (List Stmt) → List Expr
  | none => []
  | some block => resultsAll block

end

mutual

/-- The branches and calls of a statement up to the end of its first return, or all of them if it
has none. -/
def opening : Stmt → List Mark
  | .branch span condition pass fail =>
    condition.marks ++ .branch span.start ::
      (openingAll pass ++ if (resultsAll pass).isEmpty then openingOption fail else [])
  | .assign span target value => (Stmt.assign span target value).marks
  | .update span op target value => (Stmt.update span op target value).marks
  | .ret _ value => value.marks

/-- The branches and calls of a block up to the end of its first return. -/
def openingAll : List Stmt → List Mark
  | [] => []
  | stmt :: rest => stmt.opening ++ if stmt.results.isEmpty then openingAll rest else []

/-- The branches and calls of a block that may be absent, up to the end of its first return. -/
def openingOption : Option (List Stmt) → List Mark
  | none => []
  | some block => openingAll block

end

end Stmt

/-! ### Types of calls -/

namespace Code

mutual

/-- The calls in an analysed expression, with the types that they have. -/
def Term.callTypes : Term → List (Node × Ty)
  | .number _ => []
  | .newArray _ sizes => Term.callTypesAll sizes
  | .list _ items => Term.callTypesAll items
  | .slot _ _ _ _ indices => Term.callTypesAll indices
  | .call offset name callee ty args => Term.callTypesAll args ++ [(.call offset name callee, ty)]
  | .unary _ _ operand => operand.callTypes
  | .binary _ _ left right => left.callTypes ++ right.callTypes

/-- The calls in several analysed expressions. -/
def Term.callTypesAll : List Term → List (Node × Ty)
  | [] => []
  | t :: ts => t.callTypes ++ Term.callTypesAll ts

end

mutual

/-- The calls in an analysed statement, with the types that they have. -/
def Step.callTypes : Step → List (Node × Ty)
  | .branch _ condition pass fail =>
    condition.callTypes ++ (Step.callTypesAll pass ++ Step.callTypesAll fail)
  | .assign _ _ _ indices value => value.callTypes ++ Term.callTypesAll indices
  | .ret value => value.callTypes

/-- The calls in an analysed block. -/
def Step.callTypesAll : List Step → List (Node × Ty)
  | [] => []
  | step :: rest => step.callTypes ++ Step.callTypesAll rest

end

mutual

/-- The calls in an expression are its nodes. -/
theorem Term.map_fst_callTypes : ∀ t : Term, t.callTypes.map Prod.fst = t.nodes
  | .number _ => rfl
  | .newArray _ sizes => Term.map_fst_callTypesAll sizes
  | .list _ items => Term.map_fst_callTypesAll items
  | .slot _ _ _ _ indices => Term.map_fst_callTypesAll indices
  | .call offset name callee ty args => by
    rw [Term.callTypes, Term.nodes, List.map_append, Term.map_fst_callTypesAll args]
    rfl
  | .unary _ _ operand => Term.map_fst_callTypes operand
  | .binary _ _ left right => by
    rw [Term.callTypes, Term.nodes, List.map_append, Term.map_fst_callTypes left,
      Term.map_fst_callTypes right]

/-- Companion for several expressions. -/
theorem Term.map_fst_callTypesAll :
    ∀ ts : List Term, (Term.callTypesAll ts).map Prod.fst = Term.nodesAll ts
  | [] => rfl
  | t :: ts => by
    rw [Term.callTypesAll, Term.nodesAll, List.map_append, Term.map_fst_callTypes t,
      Term.map_fst_callTypesAll ts]

end

mutual

/-- The nodes of a statement that are calls have types. -/
theorem Step.mem_callTypes_of_mem {node : Node} (hcall : node.isBranch = false) :
    ∀ {step : Step}, node ∈ step.nodes → node ∈ step.callTypes.map Prod.fst
  | .branch offset condition pass fail, h => by
    rw [Step.nodes, List.mem_append, List.mem_cons, List.mem_append] at h
    rw [Step.callTypes, List.map_append, List.map_append, List.mem_append, List.mem_append,
      Term.map_fst_callTypes]
    rcases h with hcondition | rfl | hpass | hfail
    · exact .inl hcondition
    · cases hcall
    · exact .inr (.inl (Step.mem_callTypesAll_of_mem hcall hpass))
    · exact .inr (.inr (Step.mem_callTypesAll_of_mem hcall hfail))
  | .assign _ _ _ indices value, h => by
    rw [Step.callTypes, List.map_append, Term.map_fst_callTypes, Term.map_fst_callTypesAll]
    exact h
  | .ret value, h => by
    rw [Step.callTypes, Term.map_fst_callTypes]
    exact h

/-- Companion for blocks. -/
theorem Step.mem_callTypesAll_of_mem {node : Node} (hcall : node.isBranch = false) :
    ∀ {steps : List Step}, node ∈ Step.nodesAll steps →
      node ∈ (Step.callTypesAll steps).map Prod.fst
  | [], h => h
  | step :: rest, h => by
    rw [Step.nodesAll, List.mem_append] at h
    rw [Step.callTypesAll, List.map_append, List.mem_append]
    exact h.imp (Step.mem_callTypes_of_mem hcall) (Step.mem_callTypesAll_of_mem hcall)

end

/-- Whether those of some calls that are calls of the function itself have the type that is its
result. There are none while the result is open. -/
def SelfTyped (result : Option Ty) (calls : List (Node × Ty)) : Prop :=
  ∀ offset name ty, (Node.call offset name .self, ty) ∈ calls → result = some ty

/-- Where there are no calls, none has a wrong type. -/
theorem selfTyped_nil {result : Option Ty} : SelfTyped result [] := by
  simp [SelfTyped]

/-- Calls of two parts have the right type if those of each part have. -/
theorem selfTyped_append {result : Option Ty} {calls calls' : List (Node × Ty)} :
    SelfTyped result (calls ++ calls') ↔ SelfTyped result calls ∧ SelfTyped result calls' := by
  simp only [SelfTyped, List.mem_append, or_imp, forall_and]

/-- A result that is fixed stays, and the types of the calls with it. -/
theorem SelfTyped.grows {d d' : Draft} {calls : List (Node × Ty)}
    (h : SelfTyped d.result calls) (hgrows : d.Grows d') : SelfTyped d'.result calls :=
  fun offset name ty hmem => hgrows.result ty (h offset name ty hmem)

end Code

open Code (SelfTyped selfTyped_nil selfTyped_append)

namespace Setting

variable {s : Setting}

/-- A call that reaches the function itself has the type that is known for its result. -/
theorem target_self {d : Draft} {name : String} {target : CallTarget}
    (h : s.target d name = .ok target) (hself : target.callee = .self) :
    target.signature.result = d.result := by
  rcases target_ok.mp h with ⟨-, -, -, rfl⟩ | ⟨-, ⟨b, -, rfl⟩ | ⟨index, f, -, rfl⟩⟩
  · rfl
  · cases hself
  · cases hself

mutual

/-- In an accepted expression the function itself is called with its result, as known there. -/
theorem term_selfTyped :
    ∀ (e : Expr) {d d' : Draft} {t : Term}, s.term e d = .ok (t, d') →
      SelfTyped d.result t.callTypes
  | .number _ _, d, d', t, h => by
    obtain ⟨rfl, -⟩ := term_number_ok.mp h
    exact selfTyped_nil
  | .newArray _ sizes, d, d', t, h => by
    obtain ⟨ts, hts, rfl⟩ := term_newArray_ok.mp h
    exact terms_selfTyped sizes hts
  | .list _ [], d, d', t, h => (term_list_nil_ok.mp h).elim
  | .list _ (first :: rest), d, d', t, h => by
    obtain ⟨u, d₁, us, hu, hus, rfl⟩ := term_list_ok.mp h
    have hrest := terms_selfTyped rest hus
    -- Expressions leave the result as it is.
    rw [(term_keeps first hu).2] at hrest
    exact selfTyped_append.mpr ⟨term_selfTyped first hu, hrest⟩
  | .var _ _ indices, d, d', t, h => by
    obtain ⟨v, ts, -, -, hts, -, rfl⟩ := term_var_ok.mp h
    exact terms_selfTyped indices hts
  | .call span name args, d, d', t, h => by
    obtain ⟨target, result, ts, d₁, htarget, hresult, -, hts, -, rfl⟩ := term_call_ok.mp h
    refine selfTyped_append.mpr ⟨terms_selfTyped args hts, ?_⟩
    intro offset name' ty hmem
    simp only [List.mem_singleton, Prod.mk.injEq, Code.Node.call.injEq] at hmem
    obtain ⟨⟨-, -, hself⟩, rfl⟩ := hmem
    rw [← hresult]
    exact (target_self htarget hself.symm).symm
  | .unary _ _ operand, d, d', t, h => by
    obtain ⟨u, hu, -, rfl⟩ := term_unary_ok.mp h
    rw [Term.callTypes]
    exact term_selfTyped operand hu
  | .binary _ _ left right, d, d', t, h => by
    obtain ⟨u, d₁, w, hu, -, hw, -, rfl⟩ := term_binary_ok.mp h
    have hright := term_selfTyped right hw
    rw [(term_keeps left hu).2] at hright
    exact selfTyped_append.mpr ⟨term_selfTyped left hu, hright⟩

/-- Companion for several expressions. -/
theorem terms_selfTyped :
    ∀ (es : List Expr) {test : Test} {index : Nat} {d d' : Draft} {ts : List Term},
      s.terms test index es d = .ok (ts, d') → SelfTyped d.result (Term.callTypesAll ts)
  | [], test, index, d, d', ts, h => by
    obtain ⟨rfl, -⟩ := terms_nil_ok.mp h
    exact selfTyped_nil
  | e :: es, test, index, d, d', ts, h => by
    obtain ⟨t, d₁, us, ht, -, hus, rfl⟩ := terms_cons_ok.mp h
    have hrest := terms_selfTyped es hus
    rw [(term_keeps e ht).2] at hrest
    exact selfTyped_append.mpr ⟨term_selfTyped e ht, hrest⟩

end

/-- The same for an assignment. It fixes no result. -/
theorem assign_selfTyped {target : Target} {value : Expr} {d d' : Draft} {step : Step}
    (h : s.assign target value d = .ok (step, d')) :
    SelfTyped d.result step.callTypes ∧ d'.result = d.result := by
  obtain ⟨t, d₁, ht, hcase⟩ := assign_ok.mp h
  have hvalue := term_selfTyped value ht
  have hkeeps := (term_keeps value ht).2
  rcases hcase with ⟨-, -, -, -, rfl, rfl⟩ | ⟨v, ts, -, -, hts, -, -, rfl⟩
  · exact ⟨selfTyped_append.mpr ⟨hvalue, selfTyped_nil⟩, hkeeps⟩
  · have hindices := terms_selfTyped target.indices hts
    rw [hkeeps] at hindices
    exact ⟨selfTyped_append.mpr ⟨hvalue, hindices⟩,
      (terms_keeps target.indices hts).2.trans hkeeps⟩

mutual

/-- In an accepted statement the function itself is called with its result, as known behind it. -/
theorem step_selfTyped :
    ∀ (stmt : Stmt) {last : Bool} {d d' : Draft} {step : Step},
      s.step last stmt d = .ok (step, d') → d.scope.WellFormed →
      SelfTyped d'.result step.callTypes
  | .branch _ condition pass fail, last, d, d', step, h, hd => by
    have hgrows := (step_grows _ h hd).1
    obtain ⟨t, d₁, c, p, d₂, f, ht, -, -, hp, hf, rfl⟩ := step_branch_ok.mp h
    have hd₁ := term_wellFormed ht hd
    have hd₂ := (steps_grows pass hp hd₁).2
    -- Calls in the first arm have the result known behind that arm, and the second one keeps it.
    have hpass := (steps_selfTyped pass hp hd₁).grows (stepsOption_grows fail hf hd₂).1
    exact selfTyped_append.mpr ⟨(term_selfTyped condition ht).grows hgrows,
      selfTyped_append.mpr ⟨hpass, stepsOption_selfTyped fail hf hd₂⟩⟩
  | .assign _ target value, last, d, d', step, h, hd => by
    rw [step_assign_ok] at h
    obtain ⟨htyped, hkeeps⟩ := assign_selfTyped h
    rwa [hkeeps]
  | .update _ op target value, last, d, d', step, h, hd => by
    rw [step_update_ok] at h
    obtain ⟨htyped, hkeeps⟩ := assign_selfTyped h
    rwa [hkeeps]
  | .ret _ value, last, d, d', step, h, hd => by
    have hgrows := (step_grows _ h hd).1
    obtain ⟨-, t, d₁, ht, rfl, -⟩ := step_ret_ok.mp h
    exact (term_selfTyped value ht).grows hgrows

/-- Companion for blocks. -/
theorem steps_selfTyped :
    ∀ (block : List Stmt) {d d' : Draft} {steps : List Step},
      s.steps block d = .ok (steps, d') → d.scope.WellFormed →
      SelfTyped d'.result (Step.callTypesAll steps)
  | [], d, d', steps, h, hd => by
    obtain ⟨rfl, -⟩ := steps_nil_ok.mp h
    exact selfTyped_nil
  | stmt :: rest, d, d', steps, h, hd => by
    obtain ⟨first, d₁, others, hfirst, hothers, rfl⟩ := steps_cons_ok.mp h
    have hd₁ := (step_grows stmt hfirst hd).2
    exact selfTyped_append.mpr
      ⟨(step_selfTyped stmt hfirst hd).grows (steps_grows rest hothers hd₁).1,
        steps_selfTyped rest hothers hd₁⟩

/-- Companion for blocks that may be absent. -/
theorem stepsOption_selfTyped :
    ∀ (block : Option (List Stmt)) {d d' : Draft} {steps : List Step},
      s.stepsOption block d = .ok (steps, d') → d.scope.WellFormed →
      SelfTyped d'.result (Step.callTypesAll steps)
  | none, d, d', steps, h, hd => by
    obtain ⟨rfl, -⟩ := stepsOption_none_ok.mp h
    exact selfTyped_nil
  | some block, d, d', steps, h, hd => by
    rw [stepsOption_some] at h
    exact steps_selfTyped block h hd

end

/-! ### The opening -/

/-- A call of the function itself in a text is one in its code. -/
theorem self_mem_of_lowers {nodes : List Code.Node} {marks : List Mark}
    (h : List.Forall₂ s.Lowers nodes marks) {offset : Nat}
    (hmark : .call offset s.name ∈ marks) : .call offset s.name .self ∈ nodes := by
  induction h with
  | nil => cases hmark
  | cons hfirst _ ih =>
    rcases List.mem_cons.mp hmark with rfl | hrest
    · cases hfirst with
      | self _ => exact List.mem_cons_self
      | builtin _ hname _ => exact (hname rfl).elim
      | user _ hname _ => exact (hname rfl).elim
    · exact List.mem_cons_of_mem _ (ih hrest)

/-- Code in which the function itself is not called comes from a text in which it is not. -/
theorem not_mem_of_lowers {calls : List (Code.Node × Ty)} {marks : List Mark}
    (h : List.Forall₂ s.Lowers (calls.map Prod.fst) marks) (hcalls : SelfTyped none calls)
    (offset : Nat) : .call offset s.name ∉ marks := by
  intro hmark
  obtain ⟨⟨_, ty⟩, hmem, rfl⟩ := List.mem_map.mp (self_mem_of_lowers h hmark)
  cases hcalls _ _ ty hmem

/-- An expression that is accepted while the result is open does not call the function itself. -/
theorem term_opening {e : Expr} {d d' : Draft} {t : Term} (h : s.term e d = .ok (t, d'))
    (hopen : d.result = none) (offset : Nat) : .call offset s.name ∉ e.marks := by
  have hlowers := term_lowers e h
  rw [← Term.map_fst_callTypes] at hlowers
  refine not_mem_of_lowers hlowers ?_ offset
  rw [← hopen]
  exact term_selfTyped e h

/-- Companion for several expressions. -/
theorem terms_opening {test : Test} {index : Nat} {es : List Expr} {d d' : Draft} {ts : List Term}
    (h : s.terms test index es d = .ok (ts, d')) (hopen : d.result = none) (offset : Nat) :
    .call offset s.name ∉ Expr.marksAll es := by
  have hlowers := terms_lowers es h
  rw [← Term.map_fst_callTypesAll] at hlowers
  refine not_mem_of_lowers hlowers ?_ offset
  rw [← hopen]
  exact terms_selfTyped es h

/-- What holds behind a part of the opening that is accepted, where the result was open in front of
it: the function itself is not called there, and the result is still open if nothing is returned. -/
structure Opens (s : Setting) (d' : Draft) (marks : List Mark) (results : List Expr) : Prop where
  calls : ∀ offset, .call offset s.name ∉ marks
  result : d'.result = none ↔ results = []

/-- Two parts behind each other. The second one belongs to the opening only if the first one has no
return. -/
theorem Opens.append {d₁ d' : Draft} {marks marks' : List Mark} {results results' : List Expr}
    (hfirst : s.Opens d₁ marks results) (hgrows : d₁.Grows d')
    (hsecond : d₁.result = none → s.Opens d' marks' results') :
    s.Opens d' (marks ++ if results.isEmpty then marks' else []) (results ++ results') := by
  -- Whether the opening goes on is read off the result between the two parts.
  cases hresult : d₁.result with
  | none =>
    obtain rfl := hfirst.result.mp hresult
    have hsecond := hsecond hresult
    refine ⟨?_, hsecond.result⟩
    intro offset hmem
    rcases List.mem_append.mp hmem with hmem | hmem
    · exact hfirst.calls offset hmem
    · exact hsecond.calls offset hmem
  | some ty =>
    have hne : results ≠ [] := by
      intro hnil
      rw [hfirst.result.mpr hnil] at hresult
      cases hresult
    refine ⟨?_, ?_⟩
    · rw [if_neg (by simpa using hne), List.append_nil]
      exact hfirst.calls
    · simp [hgrows.result ty hresult, hne]

/-- An assignment in the opening leaves the result open. -/
theorem assign_opens {target : Target} {value : Expr} {d d' : Draft} {step : Step}
    (h : s.assign target value d = .ok (step, d')) (hopen : d.result = none) :
    s.Opens d' (value.marks ++ Expr.marksAll target.indices) [] := by
  obtain ⟨t, d₁, ht, hcases⟩ := assign_ok.mp h
  have hopen₁ : d₁.result = none := (term_keeps value ht).2.trans hopen
  have hvalue := term_opening ht hopen
  rcases hcases with ⟨-, -, -, hindices, -, rfl⟩ | ⟨v, ts, -, -, hts, -, -, -⟩
  · rw [hindices, Expr.marksAll, List.append_nil]
    exact ⟨hvalue, iff_of_true hopen₁ rfl⟩
  · have hopen' : d'.result = none := (terms_keeps target.indices hts).2.trans hopen₁
    refine ⟨?_, iff_of_true hopen' rfl⟩
    intro offset hmem
    rcases List.mem_append.mp hmem with hmem | hmem
    · exact hvalue offset hmem
    · exact terms_opening hts hopen₁ offset hmem

mutual

/-- A statement in the opening does not call the function itself up to its first return, and leaves
the result open if it has no return. -/
theorem step_opens :
    ∀ (stmt : Stmt) {last : Bool} {d d' : Draft} {step : Step},
      s.step last stmt d = .ok (step, d') → d.scope.WellFormed → d.result = none →
      s.Opens d' stmt.opening stmt.results
  | .branch span condition pass fail, last, d, d', step, h, hd, hopen => by
    obtain ⟨t, d₁, c, p, d₂, f, ht, -, -, hp, hf, rfl⟩ := step_branch_ok.mp h
    have hd₁ := term_wellFormed ht hd
    have hd₂ := (steps_grows pass hp hd₁).2
    have hopen₁ : d₁.result = none := (term_keeps condition ht).2.trans hopen
    have harms := (steps_opens pass hp hd₁ hopen₁).append
      (stepsOption_grows fail hf hd₂).1 (stepsOption_opens fail hf hd₂)
    refine ⟨?_, harms.result⟩
    intro offset hmem
    rcases List.mem_append.mp hmem with hmem | hmem
    · exact term_opening ht hopen offset hmem
    · exact harms.calls offset (List.mem_of_ne_of_mem (by simp) hmem)
  | .assign _ target value, last, d, d', step, h, hd, hopen => by
    rw [step_assign_ok] at h
    exact assign_opens h hopen
  | .update _ op target value, last, d, d', step, h, hd, hopen => by
    rw [step_update_ok] at h
    exact assign_opens h hopen
  | .ret _ value, last, d, d', step, h, hd, hopen => by
    obtain ⟨-, t, d₁, ht, -, hcases⟩ := step_ret_ok.mp h
    refine ⟨term_opening ht hopen, ?_⟩
    rcases hcases with ⟨-, rfl⟩ | ⟨result, hresult, -, rfl⟩
    · simp [Stmt.results]
    · simp [Stmt.results, hresult]

/-- Companion for blocks. -/
theorem steps_opens :
    ∀ (block : List Stmt) {d d' : Draft} {steps : List Step},
      s.steps block d = .ok (steps, d') → d.scope.WellFormed → d.result = none →
      s.Opens d' (Stmt.openingAll block) (Stmt.resultsAll block)
  | [], d, d', steps, h, hd, hopen => by
    obtain ⟨-, rfl⟩ := steps_nil_ok.mp h
    exact ⟨by simp [Stmt.openingAll], iff_of_true hopen rfl⟩
  | stmt :: rest, d, d', steps, h, hd, hopen => by
    obtain ⟨first, d₁, others, hfirst, hothers, rfl⟩ := steps_cons_ok.mp h
    have hd₁ := (step_grows stmt hfirst hd).2
    exact (step_opens stmt hfirst hd hopen).append (steps_grows rest hothers hd₁).1
      (steps_opens rest hothers hd₁)

/-- Companion for blocks that may be absent. -/
theorem stepsOption_opens :
    ∀ (block : Option (List Stmt)) {d d' : Draft} {steps : List Step},
      s.stepsOption block d = .ok (steps, d') → d.scope.WellFormed → d.result = none →
      s.Opens d' (Stmt.openingOption block) (Stmt.resultsOption block)
  | none, d, d', steps, h, hd, hopen => by
    obtain ⟨-, rfl⟩ := stepsOption_none_ok.mp h
    exact ⟨by simp [Stmt.openingOption], iff_of_true hopen rfl⟩
  | some block, d, d', steps, h, hd, hopen => by
    rw [stepsOption_some] at h
    exact steps_opens block h hd hopen

end

/-! ### Calls that come too early -/

end Setting

/-- The function whose result is not known, if that is the cause. -/
def Cause.unknown? : Cause → Option String
  | resultUnknown function => some function
  | _ => none

/-- A result is unknown exactly if the cause says so, and it names the function. -/
theorem Cause.unknown?_eq_some {cause : Cause} {name : String} :
    cause.unknown? = some name ↔ cause = .resultUnknown name := by
  cases cause <;> simp [unknown?]

/-- Whether every fault of a step of analysis in a draft has a property. -/
def Analysis.Faults {α : Type} (P : Fault → Prop) (d : Draft) (m : Analysis α) : Prop :=
  ∀ fault, m d = .error fault → P fault

namespace Analysis.Faults

variable {α β : Type} {P : Fault → Prop} {d : Draft}

/-- A weaker condition on faults holds where a stronger one does. -/
theorem mono {Q : Fault → Prop} {m : Analysis α} (h : Faults P d m)
    (himp : ∀ fault, P fault → Q fault) : Faults Q d m :=
  fun fault hfault => himp fault (h fault hfault)

/-- An analysis that does nothing has no fault. -/
theorem pure {a : α} : Faults P d (Pure.pure a : Analysis α) := by
  intro fault h
  exact (pure_error.mp h).elim

/-- Two analyses in sequence have only the faults of the first one, and those of the second one
where the first succeeds. What the first one does to the draft may be used for the second. -/
theorem bind {m : Analysis α} {k : α → Analysis β} (hm : Faults P d m)
    (hk : ∀ a d₁, m d = .ok (a, d₁) → Faults P d₁ (k a)) : Faults P d (m >>= k) := by
  intro fault h
  rcases bind_error.mp h with hfirst | ⟨a, d₁, ha, hsecond⟩
  · exact hm fault hfirst
  · exact hk a d₁ ha fault hsecond

/-- An analysis that looks at the draft has the faults that it has with this draft. -/
theorem get_bind {k : Draft → Analysis β} (h : Faults P d (k d)) : Faults P d (get >>= k) :=
  fun fault hfault => h fault (get_bind_error.mp hfault)

/-- An analysis that throws has just that fault. -/
theorem throw {fault : Fault} (h : P fault) : Faults P d (throw fault : Analysis α) := by
  intro fault' hfault
  rw [throw_error.mp hfault]
  exact h

/-- An analysis that fails has just that fault. -/
theorem fail {cause : Cause} {offset : Nat} (h : P ⟨cause, offset⟩) :
    Faults P d (Analysis.fail cause offset : Analysis α) := by
  intro fault hfault
  rw [fail_error.mp hfault]
  exact h

/-- A check has at most the fault that it is given. -/
theorem require {condition : Bool} {cause : Cause} {offset : Nat} (h : P ⟨cause, offset⟩) :
    Faults P d (Analysis.require condition cause offset) := by
  intro fault hfault
  rw [(require_error.mp hfault).2]
  exact h

/-- Counting has at most the fault that the score is full. -/
theorem count {step : Complexity.Counting} {offset : Nat}
    (hstep : ∀ c cause c', step c = .error cause c' → cause = .complexityOverflow)
    (h : P ⟨.complexityOverflow, offset⟩) : Faults P d (Analysis.count step offset) := by
  intro fault hfault
  obtain ⟨cause, c, hcause, rfl⟩ := count_error.mp hfault
  rw [hstep _ _ _ hcause]
  exact h

/-- Changing the draft has no fault. -/
theorem modify {f : Draft → Draft} : Faults P d (modify f) :=
  fun _ hfault => (modify_error.mp hfault).elim

/-- Declaring a variable has no fault. -/
theorem declare {name : String} {ty : Ty} : Faults P d (Analysis.declare name ty) :=
  fun _ hfault => (declare_error.mp hfault).elim

end Analysis.Faults

namespace Setting

/-- Whether a fault, if it is that a result is not known, is about the function itself, at a call of
it among some marks and in a draft where the result is open. -/
def Premature (s : Setting) (d : Draft) (marks : List Mark) (fault : Fault) : Prop :=
  ∀ name, fault.cause.unknown? = some name →
    name = s.name ∧ d.result = none ∧ .call fault.offset name ∈ marks

variable {s : Setting} {d d₁ : Draft} {marks marks' : List Mark} {fault : Fault}

/-- Other causes are of no interest here. -/
theorem premature_of_other {cause : Cause} {offset : Nat}
    (h : cause.unknown? = none := by rfl) : s.Premature d marks ⟨cause, offset⟩ := by
  intro name hname
  cases h.symm.trans hname

/-- What comes too early does so in a larger body too, as long as the same is known of the result.
-/
theorem Premature.mono (h : s.Premature d₁ marks fault) (hresult : d₁.result = d.result)
    (hsubset : marks ⊆ marks') : s.Premature d marks' fault := by
  intro name hname
  obtain ⟨hself, hopen, hmem⟩ := h name hname
  exact ⟨hself, hresult.symm.trans hopen, hsubset hmem⟩

/-- A fault in the second of two parts. If the result is open there, then the first part has no
return, and the second one belongs to the opening. -/
theorem Premature.append {results : List Expr} (h : s.Premature d₁ marks' fault)
    (hgrows : d.Grows d₁) (hfirst : d.result = none → s.Opens d₁ marks results) :
    s.Premature d (marks ++ if results.isEmpty then marks' else []) fault := by
  intro name hname
  obtain ⟨hself, hopen₁, hmem⟩ := h name hname
  have hopen : d.result = none := by
    cases hresult : d.result with
    | none => rfl
    | some ty => cases hopen₁.symm.trans (hgrows.result ty hresult)
  obtain rfl := (hfirst hopen).result.mp hopen₁
  exact ⟨hself, hopen, List.mem_append_right _ hmem⟩

end Setting

section

variable {α : Type} {s : Setting} {d d₁ : Draft} {marks marks' : List Mark} {m : Analysis α}

/-- What holds of the faults in the first of two parts holds in both. -/
theorem Analysis.Faults.left (h : Analysis.Faults (s.Premature d marks) d m) :
    Analysis.Faults (s.Premature d (marks ++ marks')) d m :=
  h.mono fun _ hfault => hfault.mono rfl (List.subset_append_left _ _)

/-- The same for the second part, if the first one leaves the result as it was. -/
theorem Analysis.Faults.right (h : Analysis.Faults (s.Premature d₁ marks') d₁ m)
    (hresult : d₁.result = d.result) :
    Analysis.Faults (s.Premature d (marks ++ marks')) d₁ m :=
  h.mono fun _ hfault => hfault.mono hresult (List.subset_append_right _ _)

end

namespace Setting

variable {s : Setting} {d : Draft} {marks : List Mark}

/-- The target of a call lacks a result only if it is the function itself and its result is open. -/
theorem premature_of_target {name : String} {cause : Cause} {offset : Nat}
    (h : s.target d name = .error cause) (hmem : .call offset name ∈ marks) :
    s.Premature d marks ⟨cause, offset⟩ := by
  rcases target_error.mp h with ⟨rfl, hopen, rfl⟩ | ⟨-, -, rfl⟩
  · rintro _ ⟨⟩
    exact ⟨rfl, hopen, hmem⟩
  · refine premature_of_other ?_
    split <;> rfl

/-- Whether a test on types has no fault about a result that is not known. -/
def Test.Settled (test : Test) : Prop :=
  ∀ index e ty fault, test index e ty = some fault → fault.cause.unknown? = none

/-- A test whose fault has a settled cause never says that a result is unknown. The four tests below
are of this form. -/
theorem unknown?_of_ite {condition : Bool} {fault fault' : Fault}
    (h : (if condition then none else some fault) = some fault')
    (hfault : fault.cause.unknown? = none) : fault'.cause.unknown? = none := by
  cases condition with
  | true => cases h
  | false =>
    cases h
    exact hfault

/-- The test on indices is about types only. -/
theorem settled_indexTest (name : String) : Test.Settled (indexTest name) :=
  fun _ _ _ _ h => unknown?_of_ite h rfl

/-- The test on sizes is about types only. -/
theorem settled_sizeTest (offset : Nat) : Test.Settled (sizeTest offset) :=
  fun _ _ _ _ h => unknown?_of_ite h rfl

/-- The test on the items of a list is about types only. -/
theorem settled_elementTest (first : Ty) : Test.Settled (elementTest first) :=
  fun _ _ _ _ h => unknown?_of_ite h rfl

/-- The test on arguments is about types only. -/
theorem settled_argumentTest (name : String) (signature : Signature) :
    Test.Settled (argumentTest name signature) :=
  fun _ _ _ _ h => unknown?_of_ite h rfl

mutual

/-- An expression is refused for a result that is not known only at a call of the function itself
that it has, and while the result is open. -/
theorem term_premature :
    ∀ (e : Expr) {d : Draft}, Analysis.Faults (s.Premature d e.marks) d (s.term e)
  | .number _ _, d => by
    rw [term]
    exact .pure
  | .newArray span sizes, d => by
    rw [term]
    exact (terms_premature sizes (settled_sizeTest span.start)).bind fun _ _ _ => .pure
  | .list _ [], d => by
    rw [term]
    exact .fail premature_of_other
  | .list _ (first :: rest), d => by
    rw [term]
    refine (term_premature first).left.bind fun t d₁ ht => ?_
    have hkeeps := (term_keeps first ht).2
    exact ((terms_premature rest (settled_elementTest t.ty)).right hkeeps).bind fun _ _ _ => .pure
  | .var _ name indices, d => by
    rw [term]
    refine .get_bind ?_
    cases hb : s.resolve d name with
    | none => exact .fail premature_of_other
    | some binding =>
      cases binding with
      | function signature => exact .fail premature_of_other
      | slot v =>
        cases hty : v.ty with
        | number =>
          simp only [hty]
          exact .bind (.require premature_of_other) fun _ _ _ => .pure
        | array rank =>
          simp only [hty]
          exact (terms_premature indices (settled_indexTest name)).bind fun _ _ _ =>
            .bind (.require premature_of_other) fun _ _ _ => .pure
        | function =>
          simp only [hty]
          exact .fail premature_of_other
  | .call span name args, d => by
    rw [term]
    refine .get_bind ?_
    cases htarget : s.target d name with
    | error cause =>
      -- The target is looked up before the arguments are read, so the result is the one of `d`.
      exact .fail (premature_of_target htarget (List.mem_append_right _ List.mem_cons_self))
    | ok target =>
      refine .bind (.require premature_of_other) fun _ d₁ hrequire => ?_
      obtain ⟨-, rfl⟩ := Prod.mk.inj (Analysis.require_ok.mp hrequire).2
      have hsettled := settled_argumentTest name target.signature
      refine (terms_premature args hsettled).left.bind fun _ _ _ => ?_
      -- A result that is not known has been refused above, before the arguments.
      obtain ⟨result, hresult⟩ := exists_result_of_target htarget
      simp only [hresult]
      cases target.signature.score with
      | none => exact .pure
      | some score =>
        refine .bind (.count (fun _ _ _ herror => (Complexity.eq_of_addCall herror).1) premature_of_other) ?_
        exact fun _ _ _ => .pure
  | .unary _ _ operand, d => by
    rw [term, Expr.marks]
    exact (term_premature operand).bind fun _ _ _ =>
      .bind (.require premature_of_other) fun _ _ _ => .pure
  | .binary _ _ left right, d => by
    rw [term]
    refine (term_premature left).left.bind fun _ d₁ hleft => ?_
    refine .bind (.require premature_of_other) fun _ d₂ hrequire => ?_
    obtain ⟨-, rfl⟩ := Prod.mk.inj (Analysis.require_ok.mp hrequire).2
    have hkeeps := (term_keeps left hleft).2
    exact ((term_premature right).right hkeeps).bind fun _ _ _ =>
      .bind (.require premature_of_other) fun _ _ _ => .pure

/-- Companion for several expressions. -/
theorem terms_premature :
    ∀ (es : List Expr) {test : Test} {index : Nat} {d : Draft}, test.Settled →
      Analysis.Faults (s.Premature d (Expr.marksAll es)) d (s.terms test index es)
  | [], test, index, d, _ => by
    rw [terms]
    exact .pure
  | e :: es, test, index, d, hsettled => by
    rw [terms]
    refine (term_premature e).left.bind fun t d₁ ht => ?_
    cases htest : test index e t.ty with
    | some fault =>
      refine .throw ?_
      intro name hname
      cases (hsettled index e t.ty fault htest).symm.trans hname
    | none =>
      have hkeeps := (term_keeps e ht).2
      exact ((terms_premature es hsettled).right hkeeps).bind fun _ _ _ => .pure

end

/-- The same for an assignment. -/
theorem assign_premature {target : Target} {value : Expr} {d : Draft} :
    Analysis.Faults (s.Premature d (value.marks ++ Expr.marksAll target.indices)) d
      (s.assign target value) := by
  rw [assign]
  refine (term_premature value).left.bind fun t d₁ ht => .get_bind ?_
  cases hb : s.resolve d₁ target.name with
  | none => exact .bind (.require premature_of_other) fun _ _ _ => .bind .declare fun _ _ _ => .pure
  | some binding =>
    cases binding with
    | function signature => exact .fail premature_of_other
    | slot v =>
      cases hty : v.ty with
      | number =>
        simp only [hty]
        exact .bind (.require premature_of_other) fun _ _ _ =>
          .bind (.require premature_of_other) fun _ _ _ => .pure
      | array rank =>
        simp only [hty]
        have hsettled := settled_indexTest target.name
        have hkeeps := (term_keeps value ht).2
        refine ((terms_premature target.indices hsettled).right hkeeps).bind fun _ _ _ =>
          .bind (.require premature_of_other) fun _ _ _ => ?_
        cases rank.drop target.indices.length with
        | nil => exact .bind (.require premature_of_other) fun _ _ _ => .pure
        | cons => exact .bind (.require premature_of_other) fun _ _ _ => .pure
      | function =>
        simp only [hty]
        exact .fail premature_of_other

mutual

/-- A statement is refused for a result that is not known only at a call of the function itself in
its opening, and while the result is open. -/
theorem step_premature :
    ∀ (stmt : Stmt) {last : Bool} {d : Draft}, d.scope.WellFormed →
      Analysis.Faults (s.Premature d stmt.opening) d (s.step last stmt)
  | .branch span condition pass fail, last, d, hd => by
    rw [step]
    refine (term_premature condition).left.bind fun t d₁ ht => ?_
    refine .bind (.require premature_of_other) fun _ d₂ hrequire => ?_
    obtain ⟨-, rfl⟩ := Prod.mk.inj (Analysis.require_ok.mp hrequire).2
    refine .bind (.count (fun _ _ _ herror => (Complexity.eq_of_addBranch herror).1) premature_of_other)
      fun _ d₃ hcount => ?_
    obtain ⟨c, -, hc⟩ := Analysis.count_ok.mp hcount
    obtain ⟨hscope, hresult⟩ := term_keeps condition ht
    -- Both arms are read behind the condition, which leaves the result as it was.
    have hkeeps : d₃.scope = d.scope ∧ d₃.result = d.result := by
      rw [(Prod.mk.inj hc).2]
      exact ⟨hscope, hresult⟩
    have hd₃ : d₃.scope.WellFormed := by
      rw [hkeeps.1]
      exact hd
    refine Analysis.Faults.mono ?_ fun _ h => Premature.mono h hkeeps.2
      (List.Subset.trans (List.subset_cons_self _ _) (List.subset_append_right _ _))
    refine (steps_premature pass hd₃).left.bind fun p d₄ hp => ?_
    obtain ⟨hgrows, hd₄⟩ := steps_grows pass hp hd₃
    refine .bind ((stepsOption_premature fail hd₄).mono fun _ h => h.append hgrows ?_)
      fun _ _ _ => .pure
    exact steps_opens pass hp hd₃
  | .assign _ target value, last, d, hd => by
    rw [step]
    exact assign_premature
  | .update _ op target value, last, d, hd => by
    rw [step]
    exact assign_premature
  | .ret _ value, last, d, hd => by
    rw [step]
    refine .bind (.require premature_of_other) fun _ d₁ hrequire => ?_
    obtain ⟨-, rfl⟩ := Prod.mk.inj (Analysis.require_ok.mp hrequire).2
    refine (term_premature value).bind fun t d₂ _ => .get_bind ?_
    cases d₂.result with
    | none => exact .bind .modify fun _ _ _ => .pure
    | some result => exact .bind (.require premature_of_other) fun _ _ _ => .pure

/-- Companion for blocks. -/
theorem steps_premature :
    ∀ (block : List Stmt) {d : Draft}, d.scope.WellFormed →
      Analysis.Faults (s.Premature d (Stmt.openingAll block)) d (s.steps block)
  | [], d, hd => by
    rw [Setting.steps]
    exact .pure
  | stmt :: rest, d, hd => by
    rw [Setting.steps]
    refine (step_premature stmt hd).left.bind fun first d₁ hfirst => ?_
    obtain ⟨hgrows, hd₁⟩ := step_grows stmt hfirst hd
    refine .bind ((steps_premature rest hd₁).mono fun _ h => h.append hgrows ?_) fun _ _ _ => .pure
    exact step_opens stmt hfirst hd

/-- Companion for blocks that may be absent. -/
theorem stepsOption_premature :
    ∀ (block : Option (List Stmt)) {d : Draft}, d.scope.WellFormed →
      Analysis.Faults (s.Premature d (Stmt.openingOption block)) d (s.stepsOption block)
  | none, d, hd => by
    rw [Setting.stepsOption]
    exact .pure
  | some block, d, hd => by
    rw [Setting.stepsOption]
    exact steps_premature block hd

end

end Setting

end ArrayScript
