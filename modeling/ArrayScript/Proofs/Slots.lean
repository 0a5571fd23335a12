import ArrayScript.Proofs.Program
import Mathlib.Data.List.Dedup

/-!
# `ArrayScript.Proofs.Slots`: names and slots of variables

Analysed code refers to the variables of a function by slots. A run trusts them: a slot that the
frame does not have, or two variables in one slot, would be a fault that no check at run time finds.
Slots are handed out by a walk over the body, in which a name can also stand for the function itself
or for a global, and both arms of a branch share one scope.

The walk is read off the code it makes. `Code.Step.occurrences` lists where variables stand in code,
in the order of analysis, and `Scope.Develops` says what an occurrence can do to a scope: it has the
slot that its name has there, or it is an assignment to a new name, which takes the next slot.

* `Setting.steps_develops`: analysis of a block lets the scope develop along the code of the block.
* `Scope.Develops.wellFormed`, `Scope.Develops.slotOf?_eq` and `Scope.Develops.find?_name`: what
  holds of a scope that has developed. No two variables share a name or a slot, every occurrence has
  the slot of its name, and the first occurrence of a new name is an assignment.
* `Program.slot_discipline`: what this means for a function.
-/

set_option autoImplicit false

namespace ArrayScript

/-! ### Occurrences of variables -/

namespace Code

/-- What code does with a variable: it reads it, as a whole or one of its elements, or it assigns
it, as a whole or one of its elements. -/
inductive Use where
  | read
  | assign
  | assignElement
deriving DecidableEq

/-- A place in code where a variable stands, with its name and its slot. -/
structure Occurrence where
  use : Use
  name : String
  slot : Nat
deriving DecidableEq

mutual

/-- The occurrences of variables in a term, in the order of analysis: a variable comes before its
indices. -/
def Term.occurrences : Term → List Occurrence
  | .number _ => []
  | .newArray _ sizes => Term.occurrencesAll sizes
  | .list _ items => Term.occurrencesAll items
  | .slot _ name place _ indices => ⟨.read, name, place⟩ :: Term.occurrencesAll indices
  | .call _ _ _ _ args => Term.occurrencesAll args
  | .unary _ _ operand => operand.occurrences
  | .binary _ _ left right => left.occurrences ++ right.occurrences

/-- The occurrences of variables in several terms. -/
def Term.occurrencesAll : List Term → List Occurrence
  | [] => []
  | t :: ts => t.occurrences ++ Term.occurrencesAll ts

end

/-- What an assignment does with its variable: without indices it assigns the whole of it. -/
def Use.ofIndices : List Term → Use
  | [] => .assign
  | _ :: _ => .assignElement

mutual

/-- The occurrences of variables in a step, in the order of analysis: the value of an assignment
comes before its variable, and the variable before its indices. -/
def Step.occurrences : Step → List Occurrence
  | .branch _ condition pass fail =>
    condition.occurrences ++ Step.occurrencesAll pass ++ Step.occurrencesAll fail
  | .assign _ name slot indices value =>
    value.occurrences ++ ⟨.ofIndices indices, name, slot⟩ :: Term.occurrencesAll indices
  | .ret value => value.occurrences

/-- The occurrences of variables in a block. -/
def Step.occurrencesAll : List Step → List Occurrence
  | [] => []
  | step :: rest => step.occurrences ++ Step.occurrencesAll rest

end

/-- The names that are assigned, in the order of the assignments. -/
def assignedNames (os : List Occurrence) : List String :=
  (os.filter fun o => o.use ≠ .read).map Occurrence.name

@[simp]
theorem assignedNames_append (os os' : List Occurrence) :
    assignedNames (os ++ os') = assignedNames os ++ assignedNames os' := by
  simp [assignedNames]

theorem assignedNames_eq_nil {os : List Occurrence} (h : ∀ o ∈ os, o.use = .read) :
    assignedNames os = [] := by
  simpa [assignedNames] using h

theorem assignedNames_cons (o : Occurrence) (os : List Occurrence) :
    assignedNames (o :: os)
      = if o.use = .read then assignedNames os else o.name :: assignedNames os := by
  by_cases h : o.use = .read <;> simp [assignedNames, h]

theorem Use.ofIndices_ne_read (indices : List Term) : Use.ofIndices indices ≠ .read := by
  cases indices <;> simp [Use.ofIndices]

end Code

namespace Stmt

mutual

/-- The names that a statement assigns, itself or in its arms. -/
def targets : Stmt → List String
  | .branch _ _ pass fail => targetsAll pass ++ targetsOption fail
  | .assign _ target _ | .update _ _ target _ => [target.name]
  | .ret _ _ => []

/-- The names that a block assigns. -/
def targetsAll : List Stmt → List String
  | [] => []
  | stmt :: rest => stmt.targets ++ targetsAll rest

/-- The names that a block assigns, if there is one. -/
def targetsOption : Option (List Stmt) → List String
  | none => []
  | some block => targetsAll block

end

end Stmt

open Code (Term Step Occurrence assignedNames)

/-! ### Scopes that develop -/

namespace Scope

variable {s s₁ s' : Scope} {o : Occurrence} {os os' : List Occurrence} {v : Variable}
  {name : String} {ty : Ty}

/-- The slot of a name, if the scope has it. -/
def slotOf? (s : Scope) (name : String) : Option Nat :=
  (s.find? name).map Variable.slot

/-- A name that has a slot is the name of a variable. -/
theorem mem_names_of_slotOf? {slot : Nat} (h : s.slotOf? name = some slot) :
    name ∈ s.entries.map Variable.name := by
  obtain ⟨v, hv, -⟩ := Option.map_eq_some_iff.mp h
  exact List.mem_map.mpr ⟨v, mem_of_find? hv, name_of_find? hv⟩

/-- Slots are those of the frame. -/
theorem WellFormed.slotOf?_lt (hs : s.WellFormed) {slot : Nat} (h : s.slotOf? name = some slot) :
    slot < s.slots := by
  obtain ⟨v, hv, rfl⟩ := Option.map_eq_some_iff.mp h
  exact hs.slot_lt (mem_of_find? hv)

/-- Different names have different slots. -/
theorem WellFormed.slotOf?_inj (hs : s.WellFormed) {name' : String} {slot : Nat}
    (h : s.slotOf? name = some slot) (h' : s.slotOf? name' = some slot) : name = name' := by
  obtain ⟨v, hv, rfl⟩ := Option.map_eq_some_iff.mp h
  obtain ⟨u, hu, hslot⟩ := Option.map_eq_some_iff.mp h'
  have hsame := hs.slot_inj (mem_of_find? hu) (mem_of_find? hv) hslot
  rw [← name_of_find? hv, ← name_of_find? hu, hsame]

/-- There are as many slots as names. -/
theorem WellFormed.slots_eq_length_dedup (hs : s.WellFormed) {names : List String}
    (h : ∀ name, name ∈ s.entries.map Variable.name ↔ name ∈ names) :
    s.slots = names.dedup.length := by
  have hperm : (s.entries.map Variable.name).Perm names.dedup := by
    refine (List.perm_ext_iff_of_nodup hs.names (List.nodup_dedup names)).mpr ?_
    intro name
    rw [h, List.mem_dedup]
  rw [← hperm.length_eq, List.length_map]
  rfl

/-- How a scope develops along the occurrences of variables. An occurrence has the slot of its name.
Only an assignment of a whole variable can have a name that the scope does not have yet, and then
the name is declared and takes the next slot. -/
inductive Develops : Scope → List Occurrence → Scope → Prop
  | nil {s : Scope} : Develops s [] s
  | known {s s' : Scope} {o : Occurrence} {os : List Occurrence} :
      s.slotOf? o.name = some o.slot → Develops s os s' → Develops s (o :: os) s'
  | declared {s s' : Scope} {os : List Occurrence} {name : String} {ty : Ty} :
      s.find? name = none → Develops (s.declare (s.fresh name ty)) os s' →
      Develops s (⟨.assign, name, s.slots⟩ :: os) s'

/-- A name that is declared takes the next slot, and the others keep theirs. -/
theorem slotOf?_declare {new : String} :
    (s.declare (s.fresh new ty)).slotOf? name
      = if new = name then some s.slots else s.slotOf? name := by
  by_cases h : new = name <;> simp [slotOf?, declare, fresh, find?, h]

namespace Develops

theorem append (h : Develops s os s₁) (h' : Develops s₁ os' s') : Develops s (os ++ os') s' := by
  induction h with
  | nil => exact h'
  | known hslot _ ih => exact .known hslot (ih h')
  | declared hnone _ ih => exact .declared hnone (ih h')

/-- Along occurrences of variables that it has a scope stays as it is. -/
theorem of_known (h : ∀ o ∈ os, s.slotOf? o.name = some o.slot) : Develops s os s := by
  induction os with
  | nil => exact .nil
  | cons o os ih =>
    obtain ⟨ho, hos⟩ := List.forall_mem_cons.mp h
    exact .known ho (ih hos)

/-- A scope stays well-formed: only a name that it does not have is declared. -/
theorem wellFormed (h : Develops s os s') (hs : s.WellFormed) : s'.WellFormed := by
  induction h with
  | nil => exact hs
  | known _ _ ih => exact ih hs
  | declared hnone _ ih => exact ih (hs.declare hnone _)

/-- A variable keeps its slot. -/
theorem slotOf?_mono (h : Develops s os s') {slot : Nat} (hslot : s.slotOf? name = some slot) :
    s'.slotOf? name = some slot := by
  induction h with
  | nil => exact hslot
  | known _ _ ih => exact ih hslot
  | declared hnone _ ih =>
    refine ih ?_
    -- The name that is declared is another one, because the scope does not have it.
    rw [slotOf?_declare, if_neg, hslot]
    rintro rfl
    rw [slotOf?, hnone] at hslot
    cases hslot

/-- Every occurrence has the slot that its name has in the end. -/
theorem slotOf?_eq (h : Develops s os s') : ∀ o ∈ os, s'.slotOf? o.name = some o.slot := by
  induction h with
  | nil => simp
  | known hslot h ih => exact List.forall_mem_cons.mpr ⟨h.slotOf?_mono hslot, ih⟩
  | @declared s s' os name ty hnone h ih =>
    refine List.forall_mem_cons.mpr ⟨h.slotOf?_mono ?_, ih⟩
    rw [slotOf?_declare, if_pos rfl]

/-- The names of a scope that has developed are those that it had and those that were assigned. -/
theorem mem_names (h : Develops s os s') :
    name ∈ s'.entries.map Variable.name ↔
      name ∈ s.entries.map Variable.name ∨ name ∈ assignedNames os := by
  induction h with
  | nil => simp [assignedNames]
  | @known s s' o os hslot _ ih =>
    rw [ih, Code.assignedNames_cons]
    split
    next => rfl
    next =>
      -- An assignment to a variable that the scope has adds no name.
      rw [List.mem_cons]
      refine ⟨.imp_right .inr, ?_⟩
      rintro (hmem | rfl | hmem)
      · exact .inl hmem
      · exact .inl (mem_names_of_slotOf? hslot)
      · exact .inr hmem
  | @declared s s' os new ty _ _ ih =>
    have hnames : name ∈ (s.declare (s.fresh new ty)).entries.map Variable.name ↔
        name = new ∨ name ∈ s.entries.map Variable.name := List.mem_cons
    have hassigned : name ∈ assignedNames (⟨.assign, new, s.slots⟩ :: os) ↔
        name = new ∨ name ∈ assignedNames os := List.mem_cons
    rw [ih, hnames, hassigned, or_assoc, or_left_comm]

/-- The first occurrence of a name that the scope does not have is the assignment that declares
it. -/
theorem find?_name (h : Develops s os s') (hnone : s.slotOf? name = none) (ho : o ∈ os)
    (hname : o.name = name) :
    os.find? (fun o => o.name == name) = some ⟨.assign, name, o.slot⟩ := by
  induction h with
  | nil => cases ho
  | @known s s' first os hslot h ih =>
    -- The first occurrence is one of a variable that the scope has, so it is of another name.
    have hne : first.name ≠ name := by
      rintro rfl
      cases hslot.symm.trans hnone
    have hmem : o ∈ os := by
      rcases List.mem_cons.mp ho with rfl | hmem
      · exact absurd hname hne
      · exact hmem
    rw [List.find?_cons_of_neg (by simpa using hne)]
    exact ih hnone hmem
  | @declared s s' os new ty hfree h ih =>
    by_cases hnew : new = name
    · subst hnew
      rw [List.find?_cons_of_pos (by simp)]
      -- The name keeps the slot that it gets here.
      have hdeclared := (declared hfree h).slotOf?_eq
      have hslot := (hdeclared o ho).symm.trans (hname ▸ hdeclared _ List.mem_cons_self)
      rw [Option.some.inj hslot]
    · have hmem : o ∈ os := by
        rcases List.mem_cons.mp ho with rfl | hmem
        · exact absurd hname hnew
        · exact hmem
      rw [List.find?_cons_of_neg (by simpa using hnew)]
      refine ih ?_ hmem
      rw [slotOf?_declare, if_neg hnew]
      exact hnone

/-- In front of an occurrence that does not assign a whole variable, the name was in the scope from
the start, or it was declared by its first occurrence. -/
theorem exists_declared {front back : List Occurrence} (h : Develops s (front ++ o :: back) s')
    (huse : o.use ≠ .assign) (hnone : s.slotOf? o.name = none) :
    ∃ before after, front = before ++ ⟨.assign, o.name, o.slot⟩ :: after ∧
      ∀ o' ∈ before, o'.name ≠ o.name := by
  have hfirst := h.find?_name hnone (List.mem_append_right front List.mem_cons_self) rfl
  rw [List.find?_append] at hfirst
  cases hfront : front.find? fun o' => o'.name == o.name with
  | none =>
    -- Then the occurrence itself is the first one, and it would have to assign.
    rw [hfront, Option.none_or, List.find?_cons_of_pos (by simp)] at hfirst
    exact absurd (congrArg Occurrence.use (Option.some.inj hfirst)) huse
  | some first =>
    rw [hfront, Option.some_or] at hfirst
    obtain rfl := Option.some.inj hfirst
    obtain ⟨-, before, after, hsplit, hbefore⟩ := List.find?_eq_some_iff_append.mp hfront
    refine ⟨before, after, hsplit, ?_⟩
    intro o' ho'
    simpa using hbefore o' ho'

end Develops

end Scope

/-! ### From analysis to scopes that develop -/

namespace Setting

variable {s : Setting}

mutual

/-- The code of an expression only reads, and it reads variables of the scope at their slots. -/
theorem term_occurrences :
    ∀ (e : Expr) {d d' : Draft} {t : Term}, s.term e d = .ok (t, d') →
      ∀ o ∈ t.occurrences, o.use = .read ∧ d.scope.slotOf? o.name = some o.slot
  | .number _ _, d, d', t, h => by
    obtain ⟨rfl, -⟩ := term_number_ok.mp h
    simp [Term.occurrences]
  | .newArray _ sizes, d, d', t, h => by
    obtain ⟨ts, hts, rfl⟩ := term_newArray_ok.mp h
    rw [Term.occurrences]
    exact terms_occurrences sizes hts
  | .list _ [], d, d', t, h => (term_list_nil_ok.mp h).elim
  | .list _ (first :: rest), d, d', t, h => by
    obtain ⟨u, d₁, us, hu, hus, rfl⟩ := term_list_ok.mp h
    -- Analysis of the first item leaves the scope as it is, so the rest is read in the same one.
    have hrest := terms_occurrences rest hus
    rw [(term_keeps first hu).1] at hrest
    rw [Term.occurrences, Term.occurrencesAll]
    exact List.forall_mem_append.mpr ⟨term_occurrences first hu, hrest⟩
  | .var _ name indices, d, d', t, h => by
    obtain ⟨v, ts, hv, -, hts, -, rfl⟩ := term_var_ok.mp h
    have hslot : d.scope.slotOf? name = some v.slot := by rw [Scope.slotOf?, hv, Option.map_some]
    rw [Term.occurrences]
    exact List.forall_mem_cons.mpr ⟨⟨rfl, hslot⟩, terms_occurrences indices hts⟩
  | .call _ _ args, d, d', t, h => by
    obtain ⟨target, result, ts, d₁, -, -, -, hts, -, rfl⟩ := term_call_ok.mp h
    rw [Term.occurrences]
    exact terms_occurrences args hts
  | .unary _ _ operand, d, d', t, h => by
    obtain ⟨u, hu, -, rfl⟩ := term_unary_ok.mp h
    rw [Term.occurrences]
    exact term_occurrences operand hu
  | .binary _ _ left right, d, d', t, h => by
    obtain ⟨u, d₁, w, hu, -, hw, -, rfl⟩ := term_binary_ok.mp h
    have hright := term_occurrences right hw
    rw [(term_keeps left hu).1] at hright
    rw [Term.occurrences]
    exact List.forall_mem_append.mpr ⟨term_occurrences left hu, hright⟩

/-- Companion for several expressions. -/
theorem terms_occurrences :
    ∀ (es : List Expr) {test : Test} {index : Nat} {d d' : Draft} {ts : List Term},
      s.terms test index es d = .ok (ts, d') →
      ∀ o ∈ Term.occurrencesAll ts, o.use = .read ∧ d.scope.slotOf? o.name = some o.slot
  | [], test, index, d, d', ts, h => by
    obtain ⟨rfl, -⟩ := terms_nil_ok.mp h
    simp [Term.occurrencesAll]
  | e :: es, test, index, d, d', ts, h => by
    obtain ⟨t, d₁, us, ht, -, hus, rfl⟩ := terms_cons_ok.mp h
    have hothers := terms_occurrences es hus
    rw [(term_keeps e ht).1] at hothers
    rw [Term.occurrencesAll]
    exact List.forall_mem_append.mpr ⟨term_occurrences e ht, hothers⟩

end

/-- The code of an expression assigns nothing. -/
theorem assignedNames_term {e : Expr} {d d' : Draft} {t : Term} (h : s.term e d = .ok (t, d')) :
    assignedNames t.occurrences = [] :=
  Code.assignedNames_eq_nil fun o ho => (term_occurrences e h o ho).1

/-- A scope stays as it is along the code of an expression. -/
theorem term_develops {e : Expr} {d d' : Draft} {t : Term} (h : s.term e d = .ok (t, d')) :
    d.scope.Develops t.occurrences d'.scope := by
  rw [(term_keeps e h).1]
  exact .of_known fun o ho => (term_occurrences e h o ho).2

/-- A scope develops along the code of an assignment, which assigns its target. -/
theorem assign_develops {target : Target} {value : Expr} {d d' : Draft} {step : Step}
    (h : s.assign target value d = .ok (step, d')) :
    d.scope.Develops step.occurrences d'.scope ∧
      assignedNames step.occurrences = [target.name] := by
  obtain ⟨t, d₁, ht, hcases⟩ := assign_ok.mp h
  have hvalue := term_develops ht
  rcases hcases with ⟨hnone, -, -, -, rfl, rfl⟩ | ⟨v, ts, hv, -, hts, -, -, rfl⟩
  · rw [Step.occurrences, Code.assignedNames_append, assignedNames_term ht]
    exact ⟨hvalue.append (.declared hnone .nil), rfl⟩
  · have hslot : d₁.scope.slotOf? target.name = some v.slot := by
      rw [Scope.slotOf?, hv, Option.map_some]
    have hindices := terms_occurrences target.indices hts
    rw [Step.occurrences, Code.assignedNames_append, assignedNames_term ht, (terms_keeps _ hts).1]
    constructor
    · exact hvalue.append (.known hslot (.of_known fun o ho => (hindices o ho).2))
    · rw [Code.assignedNames_cons, if_neg (Code.Use.ofIndices_ne_read ts),
        Code.assignedNames_eq_nil fun o ho => (hindices o ho).1]
      rfl

mutual

/-- A scope develops along the code of a statement, which assigns what the statement does. -/
theorem step_develops :
    ∀ (stmt : Stmt) {last : Bool} {d d' : Draft} {step : Step},
      s.step last stmt d = .ok (step, d') →
      d.scope.Develops step.occurrences d'.scope ∧
        assignedNames step.occurrences = stmt.targets
  | .branch _ condition pass fail, last, d, d', step, h => by
    obtain ⟨t, d₁, c, p, d₂, f, ht, -, -, hp, hf, rfl⟩ := step_branch_ok.mp h
    obtain ⟨hpass, hpass'⟩ := steps_develops pass hp
    obtain ⟨hfail, hfail'⟩ := stepsOption_develops fail hf
    rw [Step.occurrences, Code.assignedNames_append, Code.assignedNames_append,
      assignedNames_term ht, hpass', hfail', Stmt.targets]
    exact ⟨((term_develops ht).append hpass).append hfail, rfl⟩
  | .assign _ target value, last, d, d', step, h => by
    rw [step_assign_ok] at h
    rw [Stmt.targets]
    exact assign_develops h
  | .update _ op target value, last, d, d', step, h => by
    rw [step_update_ok] at h
    rw [Stmt.targets]
    exact assign_develops h
  | .ret _ value, last, d, d', step, h => by
    obtain ⟨-, t, d₁, ht, rfl, hcases⟩ := step_ret_ok.mp h
    -- A return may fix the result, but it leaves the scope alone.
    have hscope : d'.scope = d₁.scope := by
      rcases hcases with ⟨-, rfl⟩ | ⟨_, -, -, rfl⟩ <;> rfl
    rw [Step.occurrences, assignedNames_term ht, hscope, Stmt.targets]
    exact ⟨term_develops ht, rfl⟩

/-- Companion for a block. -/
theorem steps_develops :
    ∀ (block : List Stmt) {d d' : Draft} {steps : List Step},
      s.steps block d = .ok (steps, d') →
      d.scope.Develops (Step.occurrencesAll steps) d'.scope ∧
        assignedNames (Step.occurrencesAll steps) = Stmt.targetsAll block
  | [], d, d', steps, h => by
    obtain ⟨rfl, rfl⟩ := steps_nil_ok.mp h
    rw [Step.occurrencesAll, Stmt.targetsAll]
    exact ⟨.nil, rfl⟩
  | stmt :: rest, d, d', steps, h => by
    obtain ⟨first, d₁, others, hfirst, hothers, rfl⟩ := steps_cons_ok.mp h
    obtain ⟨hd, htargets⟩ := step_develops stmt hfirst
    obtain ⟨hd', htargets'⟩ := steps_develops rest hothers
    rw [Step.occurrencesAll, Code.assignedNames_append, htargets, htargets', Stmt.targetsAll]
    exact ⟨hd.append hd', rfl⟩

/-- Companion for a block that may be absent. -/
theorem stepsOption_develops :
    ∀ (block : Option (List Stmt)) {d d' : Draft} {steps : List Step},
      s.stepsOption block d = .ok (steps, d') →
      d.scope.Develops (Step.occurrencesAll steps) d'.scope ∧
        assignedNames (Step.occurrencesAll steps) = Stmt.targetsOption block
  | none, d, d', steps, h => by
    obtain ⟨rfl, rfl⟩ := stepsOption_none_ok.mp h
    rw [Step.occurrencesAll, Stmt.targetsOption]
    exact ⟨.nil, rfl⟩
  | some block, d, d', steps, h => by
    rw [stepsOption_some] at h
    rw [Stmt.targetsOption]
    exact steps_develops block h

end

end Setting

/-! ### Functions -/

/-- The occurrences of variables in the code of a function, in the order of analysis. -/
def Function.occurrences (f : Function) : List Occurrence :=
  Step.occurrencesAll f.body

namespace Program

variable {p : Program} {file : String} {decl : Decl} {f : Function}

/-- The parameters have the first slots, in their order, and no other name has a slot in front of
the body. -/
theorem slotOf?_params {d : Draft} (h : Analysis.bindParams decl.params .start = .ok ((), d)) :
    (∀ i param, decl.params[i]? = some param → d.scope.slotOf? param.name = some i) ∧
      d.scope.entries.reverse.map Variable.name = decl.params.map Param.name := by
  obtain ⟨hwf, -, -, hentries⟩ := Analysis.bindParams_ok decl.params h Scope.wellFormed_empty
  have hstart : d.scope.entries.reverse = (decl.params.zipIdx 0).map Analysis.paramVariable :=
    hentries
  constructor
  · intro i param hparam
    have hmem : Analysis.paramVariable (param, i) ∈ d.scope.entries := by
      rw [← List.mem_reverse, hstart]
      exact List.mem_map_of_mem (List.mem_zipIdx_iff_getElem?.mpr hparam)
    have hfind := hwf.find?_name hmem
    rw [Scope.slotOf?]
    exact congrArg (Option.map Variable.slot) hfind
  · rw [hstart]
    exact Analysis.map_paramVariable (fun _ => rfl) decl.params 0

/-- The discipline of slots, for every program and every declaration that analysis accepts.
Parameters have the first slots, in their order. Every occurrence of a variable in the code has the
slot of its name, which the frame has, and different names have different slots. There are as many
slots as names of parameters and of variables that the body assigns. An occurrence that reads a
variable, or assigns an element of it, is one of a parameter, or it comes behind the assignment that
declared the variable, which is the first occurrence of its name. -/
theorem slot_discipline (h : p.analyse file decl = .ok f) :
    ∃ d, p.analyseBody decl = .ok (f.body, d) ∧
      (∀ i param, decl.params[i]? = some param → d.scope.slotOf? param.name = some i) ∧
      (∀ o ∈ f.occurrences, o.slot < f.slots ∧ d.scope.slotOf? o.name = some o.slot) ∧
      (∀ name name' slot, d.scope.slotOf? name = some slot → d.scope.slotOf? name' = some slot →
        name = name') ∧
      f.slots = (decl.params.map Param.name ++ Stmt.targetsAll decl.body).dedup.length ∧
      ∀ front o back, f.occurrences = front ++ o :: back → o.use ≠ .assign →
        o.name ∈ decl.params.map Param.name ∨
          ∃ before after, front = before ++ ⟨.assign, o.name, o.slot⟩ :: after ∧
            ∀ o' ∈ before, o'.name ≠ o.name := by
  obtain ⟨d₀, d, body, result, hbind, hbody, -, -, rfl⟩ := analyseDecl_ok.mp (analyse_ok.mp h).2.2
  obtain ⟨hparams, hnames⟩ := slotOf?_params hbind
  have hwf₀ := (Analysis.bindParams_ok decl.params hbind Scope.wellFormed_empty).1
  obtain ⟨hdevelops, htargets⟩ := Setting.steps_develops decl.body hbody
  have hwf := hdevelops.wellFormed hwf₀
  refine ⟨d, analyseBody_ok.mpr ⟨d₀, hbind, hbody⟩, ?_, ?_, ?_, ?_, ?_⟩
  · -- The body only adds to what the parameters have declared.
    intro i param hparam
    exact hdevelops.slotOf?_mono (hparams i param hparam)
  · intro o ho
    have hslot := hdevelops.slotOf?_eq o ho
    exact ⟨hwf.slotOf?_lt hslot, hslot⟩
  · intro name name' slot hslot hslot'
    exact hwf.slotOf?_inj hslot hslot'
  · -- There is one slot for each name, and these are the names that stand in the scope at the end.
    refine hwf.slots_eq_length_dedup fun name => ?_
    rw [hdevelops.mem_names, htargets, ← hnames, List.mem_append]
    simp
  · intro front o back hsplit huse
    -- The name is one of a parameter, or it is not there when the body begins, and then an
    -- occurrence in front must have declared it.
    cases hslot : d₀.scope.slotOf? o.name with
    | some slot =>
      left
      rw [← hnames, List.map_reverse, List.mem_reverse]
      exact Scope.mem_names_of_slotOf? hslot
    | none =>
      right
      rw [Function.occurrences] at hsplit
      rw [hsplit] at hdevelops
      exact hdevelops.exists_declared huse hslot

end Program

/-- A declaration with two parameters and two variables. One variable is declared in both arms of a
branch, and the other one in the second arm only, but it is used behind the branch. -/
def Decl.juggle : Decl where
  name := "juggle"
  params := [⟨"a", [none], ⟨7, 17⟩⟩, ⟨"n", [], ⟨19, 28⟩⟩]
  body := [
    .branch ⟨32, 73⟩ (.var ⟨36, 37⟩ "n" [])
      [.assign ⟨41, 50⟩ ⟨"x", [], ⟨41, 42⟩⟩ (.var ⟨45, 49⟩ "a" [.var ⟨47, 48⟩ "n" []])]
      (some [
        .assign ⟨60, 66⟩ ⟨"y", [], ⟨60, 61⟩⟩ (.var ⟨64, 65⟩ "a" []),
        .assign ⟨67, 73⟩ ⟨"x", [], ⟨67, 68⟩⟩ (.var ⟨71, 72⟩ "n" [])]),
    .update ⟨76, 86⟩ .addition ⟨"y", [.var ⟨78, 79⟩ "x" []], ⟨76, 80⟩⟩ (.var ⟨84, 85⟩ "x" []),
    .ret ⟨87, 96⟩ (.var ⟨94, 95⟩ "y" [])]
  span := ⟨0, 98⟩

/-- The branch leaves four slots behind, and its first arm does not keep the second one from using
the same slot for the same name. The element that is assigned behind the branch belongs to a
variable that was declared in the second arm. -/
theorem Program.slot_discipline_juggle :
    ∃ f d, empty.analyse "juggle" .juggle = .ok f ∧ f.slots = 4 ∧
      empty.analyseBody .juggle = .ok (f.body, d) ∧ d.scope.slotOf? "n" = some 1 ∧
      ∃ front back before after, f.occurrences = front ++ ⟨.assignElement, "y", 3⟩ :: back ∧
        front = before ++ ⟨.assign, "y", 3⟩ :: after ∧ ∀ o ∈ before, o.name ≠ "y" := by
  have hrun : ((empty.analyse "juggle" .juggle).toOption.map fun f => f.slots == 4 &&
      f.occurrences == [⟨.read, "n", 1⟩, ⟨.read, "a", 0⟩, ⟨.read, "n", 1⟩, ⟨.assign, "x", 2⟩,
        ⟨.read, "a", 0⟩, ⟨.assign, "y", 3⟩, ⟨.read, "n", 1⟩, ⟨.assign, "x", 2⟩, ⟨.read, "y", 3⟩,
        ⟨.read, "x", 2⟩, ⟨.read, "x", 2⟩, ⟨.assignElement, "y", 3⟩, ⟨.read, "x", 2⟩,
        ⟨.read, "y", 3⟩]) = some true := by
    decide +kernel
  obtain ⟨f, hf, hchecks⟩ := Option.map_eq_some_iff.mp hrun
  simp only [Bool.and_eq_true, beq_iff_eq] at hchecks
  obtain ⟨d, hbody, hparams, -, -, -, hdeclared⟩ := slot_discipline (eq_ok_of_toOption hf)
  refine ⟨f, d, eq_ok_of_toOption hf, hchecks.1, hbody, hparams 1 _ rfl, ?_⟩
  have hsplit := hchecks.2.trans (List.take_append_drop 11 _).symm
  rcases hdeclared _ _ _ hsplit (by decide) with hparam | ⟨before, after, hfront, hbefore⟩
  · exact absurd hparam (by decide)
  · exact ⟨_, _, before, after, hsplit, hfront, hbefore⟩

end ArrayScript
