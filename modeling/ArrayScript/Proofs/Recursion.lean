import ArrayScript.Proofs.Opening
import ArrayScript.Proofs.Registry
import ArrayScript.Proofs.Typing

/-!
# `ArrayScript.Proofs.Recursion`: functions that call themselves

A function may call itself behind its first return, which fixes the result. What that return gives
is then the type of every call of the function itself, and every other return has to agree with it.
`Registry.recursion_after_return` says so for declarations that are accepted, and for the ones that
are refused because a result is not known.

That the first return agrees with the result looks trivial, but compatibility is reflexive only on
types that a value can have. `Setting.step_returns` carries along that results are such types, and
`Registry.Sound.valued` has it for the functions that a registry has declared.
-/

set_option autoImplicit false

namespace ArrayScript

open Code (Term Step)

/-! ### Returned values -/

namespace Code

mutual

/-- The values that an analysed statement returns. -/
def Step.results : Step → List Term
  | .branch _ _ pass fail => Step.resultsAll pass ++ Step.resultsAll fail
  | .assign .. => []
  | .ret value => [value]

/-- The values that an analysed block returns. -/
def Step.resultsAll : List Step → List Term
  | [] => []
  | step :: rest => step.results ++ Step.resultsAll rest

end

end Code

/-- A type that a value can have is compatible with itself. -/
theorem Ty.compatible_self_of_ofValue {ty : Ty} (h : ty.ofValue = true) :
    ty.compatible ty = true := by
  cases ty with
  | number => rfl
  | array rank =>
    cases rank with
    | nil => rfl
    | cons dim dims => exact Proper.compatible_self rfl
  | function => cases h

/-- Whether the functions of a program result in values. -/
def Program.Valued (p : Program) : Prop :=
  ∀ f ∈ p.functions, f.result.ofValue = true

/-- Whether the result of a function under analysis is a value, if it is known. -/
def Draft.Valued (d : Draft) : Prop :=
  ∀ ty, d.result = some ty → ty.ofValue = true

theorem Draft.Valued.of_result {d d' : Draft} (h : d.Valued) (hresult : d'.result = d.result) :
    d'.Valued := by
  intro ty hty
  exact h ty (hresult.symm.trans hty)

namespace Setting

variable {s : Setting}

/-- A call has the type of a value if those that it can reach have it. -/
theorem ofValue_of_target (hs : s.program.Valued) {d : Draft} (hd : d.Valued) {name : String}
    {target : CallTarget} (h : s.target d name = .ok target) {result : Ty}
    (hresult : target.signature.result = some result) : result.ofValue = true := by
  rcases target_ok.mp h with ⟨-, -, -, rfl⟩ | ⟨-, ⟨b, -, rfl⟩ | ⟨index, f, hentry, rfl⟩⟩
  · exact hd result hresult
  · cases hresult
    rfl
  · cases hresult
    exact hs f (List.mem_of_getElem? (Program.entry?_user hentry).1)

/-- Every accepted expression has the type of a value. -/
theorem ofValue_of_term (hs : s.program.Valued) {d d' : Draft} (hd : d.Valued) {t : Term} {e : Expr}
    (h : s.term e d = .ok (t, d')) : t.ty.ofValue = true := by
  cases e with
  | number =>
    obtain ⟨rfl, -⟩ := term_number_ok.mp h
    rfl
  | newArray =>
    obtain ⟨ts, -, rfl⟩ := term_newArray_ok.mp h
    rfl
  | list _ items =>
    cases items with
    | nil => exact (term_list_nil_ok.mp h).elim
    | cons =>
      obtain ⟨u, d₁, us, -, -, rfl⟩ := term_list_ok.mp h
      rfl
  | var _ _ indices =>
    obtain ⟨v, ts, -, -, -, -, rfl⟩ := term_var_ok.mp h
    rw [Term.ty]
    cases v.ty.rank.drop indices.length with
    | nil => rfl
    | cons => rfl
  -- Only here does the type come from elsewhere: from the result of a function.
  | call =>
    obtain ⟨target, result, ts, d₁, htarget, hresult, -, -, -, rfl⟩ := term_call_ok.mp h
    exact ofValue_of_target hs hd htarget hresult
  | unary =>
    obtain ⟨u, -, -, rfl⟩ := term_unary_ok.mp h
    rfl
  | binary =>
    obtain ⟨u, d₁, w, -, -, -, -, rfl⟩ := term_binary_ok.mp h
    rfl

/-- Whether a term is the code of a returned expression, and compatible with the result. -/
def Returns (s : Setting) (result : Option Ty) (e : Expr) (t : Term) : Prop :=
  (∃ d d', s.term e d = .ok (t, d')) ∧ ∃ ty, result = some ty ∧ t.ty.compatible ty = true

/-- A result that is fixed stays, so what was returned stays compatible with it. -/
theorem Returns.grows {d d' : Draft} {es : List Expr} {ts : List Term}
    (h : List.Forall₂ (s.Returns d.result) es ts) (hgrows : d.Grows d') :
    List.Forall₂ (s.Returns d'.result) es ts := by
  refine h.imp ?_
  rintro e t ⟨hterm, ty, hresult, hcompatible⟩
  exact ⟨hterm, ty, hgrows.result ty hresult, hcompatible⟩

/-- An assignment returns nothing. -/
theorem assign_returns {target : Target} {value : Expr} {d d' : Draft} {step : Step}
    (h : s.assign target value d = .ok (step, d')) (hvalued : d.Valued) :
    List.Forall₂ (s.Returns d'.result) [] step.results ∧ d'.Valued := by
  refine ⟨?_, hvalued.of_result (assign_selfTyped h).2⟩
  obtain ⟨t, d₁, -, ⟨-, -, -, -, rfl, -⟩ | ⟨v, ts, -, -, -, -, -, rfl⟩⟩ := assign_ok.mp h
  · exact .nil
  · exact .nil

mutual

/-- The values that an accepted statement returns are compatible with the result behind it, and that
is the type of a value. -/
theorem step_returns (hs : s.program.Valued) :
    ∀ (stmt : Stmt) {last : Bool} {d d' : Draft} {step : Step},
      s.step last stmt d = .ok (step, d') → d.scope.WellFormed → d.Valued →
      List.Forall₂ (s.Returns d'.result) stmt.results step.results ∧ d'.Valued
  | .branch _ condition pass fail, last, d, d', step, h, hd, hvalued => by
    obtain ⟨t, d₁, c, p, d₂, f, ht, -, -, hp, hf, rfl⟩ := step_branch_ok.mp h
    have hd₁ := term_wellFormed ht hd
    have hvalued₁ : d₁.Valued := hvalued.of_result (term_keeps condition ht).2
    have hd₂ := (steps_grows pass hp hd₁).2
    obtain ⟨hpass, hvalued₂⟩ := steps_returns hs pass hp hd₁ hvalued₁
    obtain ⟨hfail, hvalued'⟩ := stepsOption_returns hs fail hf hd₂ hvalued₂
    exact ⟨List.rel_append (Returns.grows hpass (stepsOption_grows fail hf hd₂).1) hfail, hvalued'⟩
  | .assign _ target value, last, d, d', step, h, hd, hvalued => by
    rw [step_assign_ok] at h
    exact assign_returns h hvalued
  | .update _ op target value, last, d, d', step, h, hd, hvalued => by
    rw [step_update_ok] at h
    exact assign_returns h hvalued
  | .ret _ value, last, d, d', step, h, hd, hvalued => by
    obtain ⟨-, t, d₁, ht, rfl, hcases⟩ := step_ret_ok.mp h
    have hty := ofValue_of_term hs hvalued ht
    -- The first return fixes the result, and the others are tested against it.
    rcases hcases with ⟨-, rfl⟩ | ⟨result, hresult, hcompatible, rfl⟩
    · refine ⟨.cons ⟨⟨d, d₁, ht⟩, t.ty, rfl, Ty.compatible_self_of_ofValue hty⟩ .nil, ?_⟩
      rintro _ ⟨⟩
      exact hty
    · exact ⟨.cons ⟨⟨d, d', ht⟩, result, hresult, hcompatible⟩ .nil,
        hvalued.of_result (term_keeps value ht).2⟩

/-- Companion for blocks. -/
theorem steps_returns (hs : s.program.Valued) :
    ∀ (block : List Stmt) {d d' : Draft} {steps : List Step},
      s.steps block d = .ok (steps, d') → d.scope.WellFormed → d.Valued →
      List.Forall₂ (s.Returns d'.result) (Stmt.resultsAll block) (Step.resultsAll steps) ∧
        d'.Valued
  | [], d, d', steps, h, hd, hvalued => by
    obtain ⟨rfl, rfl⟩ := steps_nil_ok.mp h
    exact ⟨.nil, hvalued⟩
  | stmt :: rest, d, d', steps, h, hd, hvalued => by
    obtain ⟨first, d₁, others, hfirst, hothers, rfl⟩ := steps_cons_ok.mp h
    have hd₁ := (step_grows stmt hfirst hd).2
    obtain ⟨hreturns, hvalued₁⟩ := step_returns hs stmt hfirst hd hvalued
    obtain ⟨hreturns', hvalued'⟩ := steps_returns hs rest hothers hd₁ hvalued₁
    exact ⟨List.rel_append (Returns.grows hreturns (steps_grows rest hothers hd₁).1) hreturns',
      hvalued'⟩

/-- Companion for blocks that may be absent. -/
theorem stepsOption_returns (hs : s.program.Valued) :
    ∀ (block : Option (List Stmt)) {d d' : Draft} {steps : List Step},
      s.stepsOption block d = .ok (steps, d') → d.scope.WellFormed → d.Valued →
      List.Forall₂ (s.Returns d'.result) (Stmt.resultsOption block) (Step.resultsAll steps) ∧
        d'.Valued
  | none, d, d', steps, h, hd, hvalued => by
    obtain ⟨rfl, rfl⟩ := stepsOption_none_ok.mp h
    exact ⟨.nil, hvalued⟩
  | some block, d, d', steps, h, hd, hvalued => by
    rw [stepsOption_some] at h
    exact steps_returns hs block h hd hvalued

end

end Setting

/-! ### Declarations -/

namespace Program

variable {p : Program} {file : String} {decl : Decl} {f : Function}

/-- The body of a function is analysed with its parameters in scope and its result open, and its
result is the one that is known in the end. -/
theorem exists_steps_of_analyse (h : p.analyse file decl = .ok f) :
    ∃ d d', d.scope.WellFormed ∧ d.result = none ∧
      (p.setting decl).steps decl.body d = .ok (f.body, d') ∧ d'.result = some f.result := by
  obtain ⟨-, -, hdecl⟩ := analyse_ok.mp h
  obtain ⟨d, d', body, result, hparams, hsteps, hresult, -, rfl⟩ := analyseDecl_ok.mp hdecl
  obtain ⟨hd, hopen, -, -⟩ := Analysis.bindParams_ok _ hparams Scope.wellFormed_empty
  exact ⟨d, d', hd, hopen, hsteps, hresult⟩

/-- An analysed function results in a value, if those that it can call do. -/
theorem Valued.analyse (hp : p.Valued) (h : p.analyse file decl = .ok f) :
    f.result.ofValue = true := by
  obtain ⟨d, d', hd, hopen, hsteps, hresult⟩ := exists_steps_of_analyse h
  have hvalued : d.Valued := by simp [Draft.Valued, hopen]
  exact (Setting.steps_returns hp decl.body hsteps hd hvalued).2 _ hresult

/-- A declaration that is refused for a result that is not known is refused at a call of its own
name in the opening of its body. -/
theorem premature_of_analyse {e : Error} {name : String} (h : p.analyse file decl = .error e)
    (hcause : e.cause = .resultUnknown name) :
    name = decl.name ∧ Builtin.find? name = none ∧ p.contains name = false ∧
      .call e.position.offset name ∈ Stmt.openingAll decl.body := by
  rcases analyse_error.mp h with ⟨-, rfl⟩ | ⟨-, -, rfl⟩ | ⟨hbuiltin, hcontains, fault, hfault, rfl⟩
  · cases hcause
  · cases hcause
  · -- Only the body can lack a result: parameters, and a body without a return, have other faults.
    have hunknown : fault.cause.unknown? = some name := Cause.unknown?_eq_some.mpr hcause
    rcases analyseDecl_error.mp hfault with hparams | ⟨d, hparams, hsteps | ⟨-, -, -, -, rfl⟩⟩
    · obtain ⟨param, -, rfl⟩ := Analysis.bindParams_error _ hparams
      cases hcause
    · obtain ⟨hd, -⟩ := Analysis.bindParams_ok _ hparams Scope.wellFormed_empty
      obtain ⟨rfl, -, hmem⟩ :=
        Setting.steps_premature decl.body hd fault hsteps name hunknown
      exact ⟨rfl, hbuiltin, hcontains, hmem⟩
    · cases hcause

end Program

namespace Registry

variable {r : Registry}

/-- The functions of a sound registry result in values. The induction is on their places, because
each one was analysed against some in front of it. -/
theorem Sound.valued (h : r.Sound) : r.program.Valued := by
  have hplaces : ∀ (place : Nat) (f : Function), r.program.functions[place]? = some f →
      f.result.ofValue = true := by
    intro place
    induction place using Nat.strong_induction_on with
    | _ place ih =>
      intro f hf
      obtain ⟨count, hle, -, file, decl, hanalyse⟩ := h.declared place f hf
      refine Program.Valued.analyse ?_ hanalyse
      intro g hg
      obtain ⟨i, hi⟩ := List.mem_iff_getElem?.mp hg
      obtain ⟨hg, hlt⟩ := Program.getElem?_before hi
      exact ih i (Nat.lt_of_lt_of_le hlt hle) g hg
  intro f hf
  obtain ⟨place, hplace⟩ := List.mem_iff_getElem?.mp hf
  exact hplaces place f hplace

/-- The rule for calls of a function in its own body. In a declaration that analysis accepts there
is none up to the end of the first return. All calls by its name in the text are calls of itself in
the code, which has no other such calls, and all have the type that is the result of the function in
the end. What the function returns is compatible with that type. A declaration that is refused
because a result is not known is refused at a call of its own name in front of the end of its first
return. That is never the name of a builtin, or of a function that the program has. -/
theorem recursion_after_return (hr : r.Reachable) (file : String) (decl : Decl) :
    (∀ f, r.program.analyse file decl = .ok f →
      (∀ offset, .call offset decl.name ∉ Stmt.openingAll decl.body) ∧
      (∀ offset, .call offset decl.name ∈ Stmt.marksAll decl.body →
        (.call offset decl.name .self, f.result) ∈ Step.callTypesAll f.body) ∧
      (∀ offset name ty, (.call offset name .self, ty) ∈ Step.callTypesAll f.body →
        ty = f.result) ∧
      List.Forall₂
        (fun e t => (∃ d d', (r.program.setting decl).term e d = .ok (t, d')) ∧
          t.ty.compatible f.result = true)
        (Stmt.resultsAll decl.body) (Step.resultsAll f.body)) ∧
    ∀ e name, r.program.analyse file decl = .error e → e.cause = .resultUnknown name →
      name = decl.name ∧ Builtin.find? name = none ∧ r.program.contains name = false ∧
        .call e.position.offset name ∈ Stmt.openingAll decl.body := by
  refine ⟨?_, fun e name => Program.premature_of_analyse⟩
  intro f hf
  obtain ⟨d, d', hd, hopen, hsteps, hresult⟩ := Program.exists_steps_of_analyse hf
  -- While the result is open no call of itself is accepted, and once it is known it does not
  -- change. So all of them have the type that it has in the end.
  have htyped : ∀ offset name ty, (.call offset name .self, ty) ∈ Step.callTypesAll f.body →
      ty = f.result := by
    intro offset name ty hmem
    have hty := Setting.steps_selfTyped decl.body hsteps hd offset name ty hmem
    exact (Option.some.inj (hresult.symm.trans hty)).symm
  refine ⟨(Setting.steps_opens decl.body hsteps hd hopen).calls, ?_, htyped, ?_⟩
  · intro offset hmark
    have hnode : .call offset decl.name .self ∈ f.nodes :=
      Setting.self_mem_of_lowers (Program.analyse_lowers hf) hmark
    obtain ⟨⟨_, ty⟩, hmem, rfl⟩ := List.mem_map.mp (Step.mem_callTypesAll_of_mem rfl hnode)
    rw [← htyped _ _ ty hmem]
    exact hmem
  · have hvalued : d.Valued := by simp [Draft.Valued, hopen]
    refine (Setting.steps_returns hr.sound.valued decl.body hsteps hd hvalued).1.imp ?_
    rintro e t ⟨hterm, ty, hty, hcompatible⟩
    obtain rfl : f.result = ty := Option.some.inj (hresult.symm.trans hty)
    exact ⟨hterm, hcompatible⟩

/-- A declaration that calls itself behind its first return, which calls another function. -/
def countdown : Decl :=
  { name := "h", params := [⟨"n", [], ⟨2, 3⟩⟩],
    body := [
      .branch ⟨7, 29⟩ (.var ⟨11, 12⟩ "n" []) [.ret ⟨16, 27⟩ (.call ⟨23, 26⟩ "f" [])] none,
      .ret ⟨30, 46⟩ (.call ⟨37, 45⟩ "h"
        [.binary ⟨39, 44⟩ .difference (.var ⟨39, 40⟩ "n" []) (.number ⟨43, 44⟩ 1)])],
    span := ⟨0, 48⟩ }

/-- A declaration that calls itself in the condition in front of its first return. -/
def hasty : Decl :=
  { name := "h", params := [⟨"n", [], ⟨2, 3⟩⟩],
    body := [
      .branch ⟨7, 41⟩ (.call ⟨11, 15⟩ "h" [.var ⟨13, 14⟩ "n" []])
        [.ret ⟨17, 26⟩ (.number ⟨24, 25⟩ 1)] (some [.ret ⟨32, 41⟩ (.number ⟨39, 40⟩ 2)])],
    span := ⟨0, 43⟩ }

/-- The first declaration becomes a function whose call of itself has the type of its result, and
the second one is refused at such a call. -/
theorem recursion_after_return_countdown :
    twice.Reachable ∧
    (∃ f, twice.program.analyse "h" countdown = .ok f ∧
      (.call 37 "h" .self, f.result) ∈ Step.callTypesAll f.body) ∧
    ∃ e, twice.program.analyse "h" hasty = .error e ∧ e.cause = .resultUnknown "h" ∧
      .call e.position.offset "h" ∈ Stmt.openingAll hasty.body := by
  have hreachable : twice.Reachable := Reachable.start.after _
  refine ⟨hreachable, ?_, ?_⟩
  · have hrun : (twice.program.analyse "h" countdown).toOption.map Function.name = some "h" := by
      decide +kernel
    obtain ⟨f, hf, -⟩ := Option.map_eq_some_iff.mp hrun
    have hf := eq_ok_of_toOption hf
    obtain ⟨-, hself, -⟩ := (recursion_after_return hreachable "h" countdown).1 f hf
    exact ⟨f, hf, hself 37 (by decide +kernel)⟩
  · have hrun : (Except.tryCatch ((twice.program.analyse "h" hasty).map fun _ => none) fun e =>
        .ok e.cause.unknown?).toOption = some (some "h") := by
      decide +kernel
    cases herror : twice.program.analyse "h" hasty with
    | ok f =>
      rw [herror] at hrun
      cases hrun
    | error e =>
      rw [herror] at hrun
      have hcause := Cause.unknown?_eq_some.mp (Option.some.inj hrun)
      obtain ⟨-, -, -, hmem⟩ := (recursion_after_return hreachable "h" hasty).2 e "h" herror hcause
      exact ⟨e, rfl, hcause, hmem⟩

end Registry

end ArrayScript
