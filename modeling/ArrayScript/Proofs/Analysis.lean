import ArrayScript.Analysis.Stmt

/-!
# `ArrayScript.Proofs.Analysis`: when analysis succeeds

Analysis is written as a state monad that stops at the first fault. For every form of expression
and statement it is said once what it means that analysis accepts it: which parts are accepted, in
which drafts, what was tested, and what code comes out. The forms without a test stand beside the
definitions, and all others here. The facts about analysed programs read these equivalences and
never open the monad.

Two of them join cases that analysis keeps apart:

* `term_var_ok`: reading a number and reading an array are one case, because a number has no
  markers and so takes no index.
* `assign_ok`: the value of an assignment has to be compatible with what is left of the variable's
  type behind the indices, whether that is a number or an array.

`term_keeps` and `terms_keeps` then say what an expression cannot change: the variables and the
result of the function under analysis.
-/

set_option autoImplicit false

namespace ArrayScript

open Code (Term Step)

/-! ### Types -/

namespace Ty

/-- Whether a type can be that of a value. Only the types of functions cannot. -/
def ofValue : Ty → Bool
  | function .. => false
  | _ => true

/-- Only a number can stand where a number is asked for. -/
theorem compatible_number (ty : Ty) : ty.compatible .number = ty.isNumber := by
  cases ty <;> rfl

/-- The type of numbers is the one that `isNumber` accepts. -/
theorem isNumber_iff {ty : Ty} : ty.isNumber = true ↔ ty = .number := by
  cases ty <;> simp [isNumber]

/-- The test on the value of an assignment, as one test on what the indices leave. -/
theorem compatible_ofRank (ty : Ty) (left : List Dim) :
    ty.compatible (.ofRank left)
      = match left with
        | [] => ty.isNumber
        | dim :: dims => ty.compatible (.array (dim :: dims)) := by
  cases left with
  | nil => exact compatible_number ty
  | cons dim dims => rfl

end Ty

/-! ### The steps of the monad -/

namespace Analysis

variable {α β : Type}

/-- Two steps succeed when the first does, and the second does from there. With this lemma every
analysis below is taken apart, without unfolding the monad again. -/
@[simp]
theorem bind_ok {m : Analysis α} {f : α → Analysis β} {d : Draft} {r : β × Draft} :
    (m >>= f) d = .ok r ↔ ∃ a d₁, m d = .ok (a, d₁) ∧ f a d₁ = .ok r := by
  show (StateT.bind m f) d = .ok r ↔ _
  unfold StateT.bind
  cases hm : m d with
  | error fault => simp [bind, Except.bind]
  | ok pair =>
    obtain ⟨a, d₁⟩ := pair
    constructor
    · intro h
      exact ⟨a, d₁, rfl, h⟩
    · rintro ⟨b, d₂, h₁, h₂⟩
      cases h₁
      exact h₂

/-- Giving a value changes nothing. -/
@[simp]
theorem pure_ok {a : α} {d : Draft} {r : α × Draft} :
    (pure a : Analysis α) d = .ok r ↔ r = (a, d) := by
  show Except.ok (a, d) = .ok r ↔ _
  rw [Except.ok.injEq]
  exact eq_comm

/-- What is done with the value of a step does not decide whether it succeeds. -/
@[simp]
theorem map_ok {f : α → β} {m : Analysis α} {d : Draft} {r : β × Draft} :
    (f <$> m) d = .ok r ↔ ∃ a d₁, m d = .ok (a, d₁) ∧ r = (f a, d₁) := by
  rw [map_eq_pure_bind, bind_ok]
  simp

/-- A step that first reads the draft sees the one it starts from. -/
@[simp]
theorem get_bind_ok {f : Draft → Analysis β} {d : Draft} {r : β × Draft} :
    (get >>= f : Analysis β) d = .ok r ↔ f d d = .ok r :=
  Iff.rfl

/-- Changing the draft always succeeds. -/
@[simp]
theorem modify_ok {f : Draft → Draft} {d : Draft} {r : Unit × Draft} :
    (modify f : Analysis Unit) d = .ok r ↔ r = ((), f d) := by
  show Except.ok ((), f d) = .ok r ↔ _
  rw [Except.ok.injEq]
  exact eq_comm

/-- A fault is no success. -/
@[simp]
theorem throw_ok {fault : Fault} {d : Draft} {r : α × Draft} :
    (throw fault : Analysis α) d = .ok r ↔ False := by
  constructor
  · intro h
    cases h
  · exact False.elim

/-- A failure is no success. -/
@[simp]
theorem fail_ok {cause : Cause} {offset : Nat} {d : Draft} {r : α × Draft} :
    (fail cause offset : Analysis α) d = .ok r ↔ False :=
  throw_ok

/-- A test succeeds when its condition holds, and changes nothing. -/
@[simp]
theorem require_ok {condition : Bool} {cause : Cause} {offset : Nat} {d : Draft}
    {r : Unit × Draft} :
    require condition cause offset d = .ok r ↔ condition = true ∧ r = ((), d) := by
  unfold require
  cases condition with
  | false => simp
  | true => simp

/-- Counting succeeds when the count does, and changes only the count. -/
@[simp]
theorem count_ok {step : Complexity.Counting} {offset : Nat} {d : Draft} {r : Unit × Draft} :
    count step offset d = .ok r ↔
      ∃ c, step d.complexity = .ok () c ∧ r = ((), { d with complexity := c }) := by
  unfold count
  rw [get_bind_ok]
  cases hs : step d.complexity with
  | ok _ c => simp
  | error cause c => simp

/-- Declaring a variable always succeeds, and gives it the next slot. -/
@[simp]
theorem declare_ok {name : String} {ty : Ty} {d : Draft} {r : Nat × Draft} :
    declare name ty d = .ok r ↔
      r = (d.scope.slots, { d with scope := d.scope.declare (d.scope.fresh name ty) }) := by
  unfold declare
  rw [get_bind_ok]
  simp [Scope.fresh]

/-! ### Faults -/

variable {fault : Fault}

/-- Two steps fail when the first does, or when the second does behind it. It is the counterpart of
`bind_ok` for statements about faults. -/
@[simp]
theorem bind_error {m : Analysis α} {f : α → Analysis β} {d : Draft} :
    (m >>= f) d = .error fault ↔
      m d = .error fault ∨ ∃ a d₁, m d = .ok (a, d₁) ∧ f a d₁ = .error fault := by
  show (StateT.bind m f) d = .error fault ↔ _
  unfold StateT.bind
  cases hm : m d with
  | error fault' => simp [bind, Except.bind]
  | ok pair =>
    obtain ⟨a, d₁⟩ := pair
    constructor
    · intro h
      exact .inr ⟨a, d₁, rfl, h⟩
    · rintro (h | ⟨b, d₂, h₁, h₂⟩)
      · cases h
      · cases h₁
        exact h₂

/-- Giving a value is no fault. -/
@[simp]
theorem pure_error {a : α} {d : Draft} : (pure a : Analysis α) d = .error fault ↔ False := by
  constructor
  · intro h
    cases h
  · exact False.elim

/-- A step that first reads the draft fails as it does in the draft it starts from. -/
@[simp]
theorem get_bind_error {f : Draft → Analysis β} {d : Draft} :
    (get >>= f : Analysis β) d = .error fault ↔ f d d = .error fault :=
  Iff.rfl

/-- Changing the draft is no fault. -/
@[simp]
theorem modify_error {f : Draft → Draft} {d : Draft} :
    (modify f : Analysis Unit) d = .error fault ↔ False := by
  constructor
  · intro h
    cases h
  · exact False.elim

/-- A step that is a fault fails with it. -/
@[simp]
theorem throw_error {fault' : Fault} {d : Draft} :
    (throw fault' : Analysis α) d = .error fault ↔ fault = fault' := by
  show Except.error fault' = .error fault ↔ _
  rw [Except.error.injEq]
  exact eq_comm

/-- A failure has its cause and its offset. -/
@[simp]
theorem fail_error {cause : Cause} {offset : Nat} {d : Draft} :
    (fail cause offset : Analysis α) d = .error fault ↔ fault = ⟨cause, offset⟩ :=
  throw_error

/-- A test fails when its condition does not hold. -/
@[simp]
theorem require_error {condition : Bool} {cause : Cause} {offset : Nat} {d : Draft} :
    require condition cause offset d = .error fault ↔
      condition = false ∧ fault = ⟨cause, offset⟩ := by
  unfold require
  cases condition with
  | false => simp
  | true => simp

/-- Counting fails when the count does. The counter that comes back then is dropped with the
draft. -/
@[simp]
theorem count_error {step : Complexity.Counting} {offset : Nat} {d : Draft} :
    count step offset d = .error fault ↔
      ∃ cause c, step d.complexity = .error cause c ∧ fault = ⟨cause, offset⟩ := by
  unfold count
  rw [get_bind_error]
  cases hs : step d.complexity with
  | ok _ c => simp
  | error cause c => simp

/-- Declaring a variable is no fault. -/
@[simp]
theorem declare_error {name : String} {ty : Ty} {d : Draft} :
    declare name ty d = .error fault ↔ False := by
  constructor
  · intro h
    cases h
  · exact False.elim

end Analysis

/-- The draft `d'` behind a call in the draft `d`: one call more if the function has a score. -/
def Draft.AfterCall (d : Draft) (name : String) (score : Option Nat) (d' : Draft) : Prop :=
  match score with
  | some score => ∃ c, Complexity.addCall name score d.complexity = .ok () c ∧
      d' = { d with complexity := c }
  | none => d' = d

/-- Counting a call changes neither the variables nor the result. -/
theorem Draft.AfterCall.keeps {d d' : Draft} {name : String} {score : Option Nat}
    (h : d.AfterCall name score d') : d'.scope = d.scope ∧ d'.result = d.result := by
  cases score with
  | none =>
    obtain rfl : d' = d := h
    exact ⟨rfl, rfl⟩
  | some score =>
    obtain ⟨c, -, rfl⟩ := h
    exact ⟨rfl, rfl⟩

namespace Setting

variable {s : Setting} {d d' : Draft}

/-! ### Names -/

/-- A name is a variable exactly when the scope has it. -/
theorem resolve_slot {name : String} {v : Variable} :
    s.resolve d name = some (.slot v) ↔ d.scope.find? name = some v := by
  unfold resolve Scope.resolve
  cases hv : d.scope.find? name with
  | some u => simp
  | none =>
    by_cases hn : name = s.name
    · simp [hn]
    · cases hp : s.program.entry? name <;> simp [hn]

/-- A name has no meaning when it is no variable, not the function itself, and no global. -/
theorem resolve_none {name : String} :
    s.resolve d name = none ↔
      d.scope.find? name = none ∧ name ≠ s.name ∧ s.program.entry? name = none := by
  unfold resolve Scope.resolve
  cases hv : d.scope.find? name with
  | some u => simp
  | none =>
    by_cases hn : name = s.name
    · simp [hn]
    · cases hp : s.program.entry? name <;> simp [hn]

/-- A call has a target when its name is that of the function itself and the result is known, or
else that of a global. -/
theorem target_ok {name : String} {target : CallTarget} :
    s.target d name = .ok target ↔
      (name = s.name ∧ ∃ result, d.result = some result ∧
          target = ⟨.self, s.signature d⟩) ∨
        name ≠ s.name ∧
          ((∃ b, s.program.entry? name = some (.builtin b) ∧
              target = ⟨.builtin b, b.signature⟩) ∨
            ∃ index f, s.program.entry? name = some (.user index f) ∧
              target = ⟨.user index, f.signature⟩) := by
  unfold Setting.target
  by_cases hname : name = s.name
  · cases hresult : d.result <;> simp [hname, @eq_comm _ target]
  · rcases hentry : s.program.entry? name with _ | ⟨b⟩ | ⟨index, f⟩
    · cases (d.scope.find? name).isSome <;> simp [hname]
    · simp [hname, @eq_comm _ target]
    · simp [hname, @eq_comm _ target, and_assoc]

/-- Whatever a call reaches has a known result. A builtin and a declared function have one in their
signatures, and the function itself is no target before it has one. Behind the arguments a call is
therefore never refused for its result. -/
theorem exists_result_of_target {name : String} {target : CallTarget}
    (h : s.target d name = .ok target) : ∃ result, target.signature.result = some result := by
  rcases target_ok.mp h with ⟨-, result, hresult, rfl⟩ | ⟨-, ⟨b, -, rfl⟩ | ⟨index, f, -, rfl⟩⟩
  · exact ⟨result, hresult⟩
  · exact ⟨.number, rfl⟩
  · exact ⟨f.result, rfl⟩

/-- A call has no target when it is one of the function itself and the result is not known, or when
its name is not that of a function. -/
theorem target_error {name : String} {cause : Cause} :
    s.target d name = .error cause ↔
      (name = s.name ∧ d.result = none ∧ cause = .resultUnknown name) ∨
        name ≠ s.name ∧ s.program.entry? name = none ∧
          cause = if (d.scope.find? name).isSome then .notAFunction name
            else .undeclaredFunction name := by
  unfold Setting.target
  by_cases hname : name = s.name
  · cases hresult : d.result <;> simp [hname, @eq_comm _ cause]
  · rcases hentry : s.program.entry? name with _ | ⟨b⟩ | ⟨index, f⟩
    · cases (d.scope.find? name).isSome <;> simp [hname, @eq_comm _ cause]
    · simp [hname]
    · simp [hname]
/-! ### Expressions -/

variable {span : Span} {t : Term}

/-- A new array is accepted when its sizes are numbers. -/
theorem term_newArray_ok {sizes : List Expr} :
    s.term (.newArray span sizes) d = .ok (t, d') ↔
      ∃ ts, s.terms (sizeTest span.start) 0 sizes d = .ok (ts, d') ∧
        t = .newArray span.start ts := by
  simp only [term, Analysis.bind_ok, Analysis.pure_ok, Prod.mk.injEq]
  constructor
  · rintro ⟨ts, d₁, hts, rfl, rfl⟩
    exact ⟨ts, hts, rfl⟩
  · rintro ⟨ts, hts, rfl⟩
    exact ⟨ts, d', hts, rfl, rfl⟩

/-- A list without elements is not accepted. -/
theorem term_list_nil_ok : s.term (.list span []) d = .ok (t, d') ↔ False := by
  simp [term]

/-- A list is accepted when its elements are compatible with the first one. -/
theorem term_list_ok {first : Expr} {rest : List Expr} :
    s.term (.list span (first :: rest)) d = .ok (t, d') ↔
      ∃ u d₁ us, s.term first d = .ok (u, d₁) ∧
        s.terms (elementTest u.ty) 1 rest d₁ = .ok (us, d') ∧
        t = .list (.array (.fixed (us.length + 1) :: u.ty.rank)) (u :: us) := by
  simp only [term, Analysis.bind_ok, Analysis.pure_ok, Prod.mk.injEq]
  constructor
  · rintro ⟨u, d₁, hu, us, d₂, hus, rfl, rfl⟩
    exact ⟨u, d₁, us, hu, hus, rfl⟩
  · rintro ⟨u, d₁, us, hu, hus, rfl⟩
    exact ⟨u, d₁, hu, us, d', hus, rfl, rfl⟩

/-- Several expressions are accepted when the first one is and passes its test, and the others
are. -/
theorem terms_cons_ok {test : Test} {index : Nat} {e : Expr} {es : List Expr} {ts : List Term} :
    s.terms test index (e :: es) d = .ok (ts, d') ↔
      ∃ t d₁ us, s.term e d = .ok (t, d₁) ∧ test index e t.ty = none ∧
        s.terms test (index + 1) es d₁ = .ok (us, d') ∧ ts = t :: us := by
  simp only [terms, Analysis.bind_ok]
  constructor
  · rintro ⟨t, d₁, ht, h⟩
    cases htest : test index e t.ty with
    | some fault => simp [htest] at h
    | none =>
      simp only [htest, Analysis.bind_ok, Analysis.pure_ok, Prod.mk.injEq] at h
      obtain ⟨us, d₂, hus, rfl, rfl⟩ := h
      exact ⟨t, d₁, us, ht, htest, hus, rfl⟩
  · rintro ⟨t, d₁, us, ht, htest, hus, rfl⟩
    refine ⟨t, d₁, ht, ?_⟩
    simp only [htest, Analysis.bind_ok, Analysis.pure_ok]
    exact ⟨us, d', hus, rfl⟩

/-- A variable is accepted when it has as many dimensions as there are indices, and the indices
are numbers. A number has none, so its case needs no statement of its own. -/
theorem term_var_ok {name : String} {indices : List Expr} :
    s.term (.var span name indices) d = .ok (t, d') ↔
      ∃ v ts, d.scope.find? name = some v ∧ v.ty.ofValue = true ∧
        s.terms (indexTest name) 0 indices d = .ok (ts, d') ∧
        indices.length ≤ v.ty.rank.length ∧
        t = .slot span.start name v.slot (.ofRank (v.ty.rank.drop indices.length)) ts := by
  rw [term, Analysis.get_bind_ok]
  constructor
  · -- A name that is no variable, or one of a function, is refused; a number takes no index.
    intro h
    cases hb : s.resolve d name with
    | none => simp [hb] at h
    | some binding =>
      cases binding with
      | function signature => simp [hb] at h
      | slot v =>
        have hv := resolve_slot.mp hb
        cases hty : v.ty with
        | number =>
          simp only [hb, hty, Analysis.bind_ok, Analysis.require_ok, Analysis.pure_ok,
            Prod.mk.injEq, List.isEmpty_iff] at h
          obtain ⟨_, _, ⟨rfl, -, rfl⟩, rfl, rfl⟩ := h
          exact ⟨v, [], hv, by rw [hty]; rfl, terms_nil_ok.mpr ⟨rfl, rfl⟩, Nat.zero_le _,
            by rw [hty]; rfl⟩
        | array rank =>
          simp only [hb, hty, Analysis.bind_ok, Analysis.require_ok, Analysis.pure_ok,
            Prod.mk.injEq, decide_eq_true_eq] at h
          obtain ⟨ts, d₁, hts, _, _, ⟨hle, -, rfl⟩, rfl, rfl⟩ := h
          exact ⟨v, ts, hv, by rw [hty]; rfl, hts, by rw [hty]; exact hle, by rw [hty]; rfl⟩
        | function => simp [hb, hty] at h
  · rintro ⟨v, ts, hv, hvalue, hts, hle, rfl⟩
    have hb : s.resolve d name = some (.slot v) := resolve_slot.mpr hv
    cases hty : v.ty with
    | number =>
      rw [hty] at hle
      obtain rfl : indices = [] := List.length_eq_zero_iff.mp (Nat.le_zero.mp hle)
      obtain ⟨rfl, rfl⟩ := terms_nil_ok.mp hts
      simp [hb, hty, Ty.ofRank, Ty.rank]
    | array rank =>
      rw [hty] at hle
      simp only [hb, hty, Analysis.bind_ok, Analysis.require_ok, Analysis.pure_ok,
        decide_eq_true_eq]
      exact ⟨ts, d', hts, (), d', ⟨hle, rfl⟩, rfl⟩
    | function => simp [hty, Ty.ofValue] at hvalue

/-- A call is accepted when its target and the result of that are known, and the arguments fit its
signature. -/
theorem term_call_ok {name : String} {args : List Expr} :
    s.term (.call span name args) d = .ok (t, d') ↔
      ∃ target result ts d₁, s.target d name = .ok target ∧
        target.signature.result = some result ∧
        target.signature.accepts args.length = true ∧
        s.terms (argumentTest name target.signature) 0 args d = .ok (ts, d₁) ∧
        d₁.AfterCall name target.signature.score d' ∧
        t = .call span.start name target.callee result ts := by
  rw [term, Analysis.get_bind_ok]
  constructor
  · intro h
    cases htarget : s.target d name with
    | error cause => simp [htarget] at h
    | ok target =>
      -- That the result is unknown has been found out with the target, before the arguments.
      obtain ⟨result, hresult⟩ := exists_result_of_target htarget
      simp only [htarget, hresult, Analysis.bind_ok, Analysis.require_ok, Prod.mk.injEq] at h
      obtain ⟨_, _, ⟨haccepts, -, rfl⟩, ts, d₁, hts, h⟩ := h
      cases hscore : target.signature.score with
      | none =>
        simp only [hscore, Analysis.pure_ok, Prod.mk.injEq] at h
        exact ⟨target, result, ts, d₁, rfl, hresult, haccepts, hts, by rw [hscore]; exact h.2, h.1⟩
      | some score =>
        simp only [hscore, Analysis.bind_ok, Analysis.count_ok, Analysis.pure_ok,
          Prod.mk.injEq] at h
        obtain ⟨_, _, ⟨c, hc, -, rfl⟩, rfl, rfl⟩ := h
        exact ⟨target, result, ts, d₁, rfl, hresult, haccepts, hts,
          by rw [hscore]; exact ⟨c, hc, rfl⟩, rfl⟩
  · rintro ⟨target, result, ts, d₁, htarget, hresult, haccepts, hts, hcount, rfl⟩
    simp only [htarget, hresult, Analysis.bind_ok, Analysis.require_ok]
    refine ⟨(), d, ⟨haccepts, rfl⟩, ts, d₁, hts, ?_⟩
    cases hscore : target.signature.score with
    | none =>
      rw [hscore] at hcount
      obtain rfl : d' = d₁ := hcount
      simp
    | some score =>
      rw [hscore] at hcount
      obtain ⟨c, hc, rfl⟩ : ∃ c, Complexity.addCall name score d₁.complexity = .ok () c ∧
        d' = { d₁ with complexity := c } := hcount
      simp [hc]

/-- A prefix operator is accepted in front of a number. -/
theorem term_unary_ok {op : PrefixOp} {operand : Expr} :
    s.term (.unary span op operand) d = .ok (t, d') ↔
      ∃ u, s.term operand d = .ok (u, d') ∧ u.ty = .number ∧ t = .unary span.start op u := by
  simp only [term, Analysis.bind_ok, Analysis.require_ok, Analysis.pure_ok, Prod.mk.injEq,
    Ty.isNumber_iff]
  constructor
  · rintro ⟨u, d₁, hu, _, _, ⟨hty, -, rfl⟩, rfl, rfl⟩
    exact ⟨u, hu, hty, rfl⟩
  · rintro ⟨u, hu, hty, rfl⟩
    exact ⟨u, d', hu, (), d', ⟨hty, trivial, rfl⟩, rfl, rfl⟩

/-- A binary operator is accepted between numbers. -/
theorem term_binary_ok {op : BinaryOp} {left right : Expr} :
    s.term (.binary span op left right) d = .ok (t, d') ↔
      ∃ u d₁ w, s.term left d = .ok (u, d₁) ∧ u.ty = .number ∧
        s.term right d₁ = .ok (w, d') ∧ w.ty = .number ∧
        t = .binary span.start op u w := by
  simp only [term, Analysis.bind_ok, Analysis.require_ok, Analysis.pure_ok, Prod.mk.injEq,
    Ty.isNumber_iff]
  constructor
  · rintro ⟨u, _, hu, _, d₁, ⟨hut, -, rfl⟩, w, _, hw, _, _, ⟨hwt, -, rfl⟩, rfl, rfl⟩
    exact ⟨u, d₁, w, hu, hut, hw, hwt, rfl⟩
  · rintro ⟨u, d₁, w, hu, hut, hw, hwt, rfl⟩
    exact ⟨u, d₁, hu, (), d₁, ⟨hut, trivial, rfl⟩, w, d', hw, (), d', ⟨hwt, trivial, rfl⟩,
      rfl, rfl⟩

mutual

/-- An expression changes neither the variables nor the result of the function around it. -/
theorem term_keeps :
    ∀ (e : Expr) {d d' : Draft} {t : Term}, s.term e d = .ok (t, d') →
      d'.scope = d.scope ∧ d'.result = d.result
  | .number _ _, d, d', t, h => by
    obtain ⟨-, rfl⟩ := term_number_ok.mp h
    exact ⟨rfl, rfl⟩
  | .newArray _ sizes, d, d', t, h => by
    obtain ⟨ts, hts, -⟩ := term_newArray_ok.mp h
    exact terms_keeps sizes hts
  | .list _ [], d, d', t, h => (term_list_nil_ok.mp h).elim
  | .list _ (first :: rest), d, d', t, h => by
    obtain ⟨u, d₁, us, hu, hus, -⟩ := term_list_ok.mp h
    obtain ⟨hs₁, hr₁⟩ := term_keeps first hu
    obtain ⟨hs₂, hr₂⟩ := terms_keeps rest hus
    exact ⟨hs₂.trans hs₁, hr₂.trans hr₁⟩
  | .var _ _ indices, d, d', t, h => by
    obtain ⟨v, ts, -, -, hts, -, -⟩ := term_var_ok.mp h
    exact terms_keeps indices hts
  | .call _ _ args, d, d', t, h => by
    obtain ⟨target, result, ts, d₁, -, -, -, hts, hcount, -⟩ := term_call_ok.mp h
    obtain ⟨hs₁, hr₁⟩ := terms_keeps args hts
    obtain ⟨hs₂, hr₂⟩ := hcount.keeps
    exact ⟨hs₂.trans hs₁, hr₂.trans hr₁⟩
  | .unary _ _ operand, d, d', t, h => by
    obtain ⟨u, hu, -, -⟩ := term_unary_ok.mp h
    exact term_keeps operand hu
  | .binary _ _ left right, d, d', t, h => by
    obtain ⟨u, d₁, w, hu, -, hw, -, -⟩ := term_binary_ok.mp h
    obtain ⟨hs₁, hr₁⟩ := term_keeps left hu
    obtain ⟨hs₂, hr₂⟩ := term_keeps right hw
    exact ⟨hs₂.trans hs₁, hr₂.trans hr₁⟩

/-- Companion for several expressions. -/
theorem terms_keeps :
    ∀ (es : List Expr) {test : Test} {index : Nat} {d d' : Draft} {ts : List Term},
      s.terms test index es d = .ok (ts, d') →
      d'.scope = d.scope ∧ d'.result = d.result
  | [], test, index, d, d', ts, h => by
    obtain ⟨-, rfl⟩ := terms_nil_ok.mp h
    exact ⟨rfl, rfl⟩
  | e :: es, test, index, d, d', ts, h => by
    obtain ⟨t, d₁, us, ht, -, hus, -⟩ := terms_cons_ok.mp h
    obtain ⟨hs₁, hr₁⟩ := term_keeps e ht
    obtain ⟨hs₂, hr₂⟩ := terms_keeps es hus
    exact ⟨hs₂.trans hs₁, hr₂.trans hr₁⟩

end

/-- Each of several expressions has its own code, whose type has passed the test. -/
theorem terms_passed :
    ∀ (es : List Expr) {test : Test} {index : Nat} {d d' : Draft} {ts : List Term},
      s.terms test index es d = .ok (ts, d') →
      ts.length = es.length ∧
        ∀ i t, ts[i]? = some t → ∃ e, es[i]? = some e ∧ test (index + i) e t.ty = none
  | [], test, index, d, d', ts, h => by
    obtain ⟨rfl, -⟩ := terms_nil_ok.mp h
    simp
  | e :: es, test, index, d, d', ts, h => by
    obtain ⟨t, d₁, us, -, htest, hus, rfl⟩ := terms_cons_ok.mp h
    obtain ⟨hlength, hpassed⟩ := terms_passed es hus
    refine ⟨by simp [hlength], ?_⟩
    intro i u hu
    cases i with
    | zero =>
      obtain rfl : t = u := by simpa using hu
      exact ⟨e, rfl, htest⟩
    | succ i =>
      obtain ⟨e', he', htest'⟩ := hpassed i u hu
      exact ⟨e', he', by rwa [Nat.add_right_comm] at htest'⟩

/-- A test that looks only at types is passed by the type of each term. -/
theorem terms_forall {P : Ty → Prop} {test : Test} {index : Nat} {es : List Expr} {d d' : Draft}
    {ts : List Term} (h : s.terms test index es d = .ok (ts, d'))
    (htest : ∀ i e ty, test i e ty = none → P ty) : ∀ t ∈ ts, P t.ty := by
  intro t ht
  obtain ⟨i, hi⟩ := List.mem_iff_getElem?.mp ht
  obtain ⟨e, -, hpassed⟩ := (terms_passed es h).2 i t hi
  exact htest _ _ _ hpassed

/-- Sizes have to be numbers. -/
theorem sizeTest_eq_none {offset i : Nat} {e : Expr} {ty : Ty} :
    sizeTest offset i e ty = none ↔ ty = .number := by
  simp [sizeTest, Ty.isNumber_iff]

/-- Indices have to be numbers. -/
theorem indexTest_eq_none {name : String} {i : Nat} {e : Expr} {ty : Ty} :
    indexTest name i e ty = none ↔ ty = .number := by
  simp [indexTest, Ty.isNumber_iff]

/-- Elements have to be compatible with the first one. -/
theorem elementTest_eq_none {first : Ty} {i : Nat} {e : Expr} {ty : Ty} :
    elementTest first i e ty = none ↔ ty.compatible first = true := by
  simp [elementTest]

/-- Arguments have to be compatible with their parameters. -/
theorem argumentTest_eq_none {name : String} {signature : Signature} {i : Nat} {e : Expr}
    {ty : Ty} :
    argumentTest name signature i e ty = none ↔
      (signature.param? i).any ty.compatible = true := by
  simp [argumentTest]

/-! ### Statements -/

variable {step : Step}

/-- An assignment is accepted in two cases. A name without a meaning becomes a variable with the
type of the value. Behind a variable, the indices are numbers, there are not more of them than
dimensions, and the value is compatible with what they leave. -/
theorem assign_ok {target : Target} {value : Expr} :
    s.assign target value d = .ok (step, d') ↔
      ∃ t d₁, s.term value d = .ok (t, d₁) ∧
        ((d₁.scope.find? target.name = none ∧ target.name ≠ s.name ∧
            s.program.entry? target.name = none ∧ target.indices = [] ∧
            step = .assign target.span.start target.name d₁.scope.slots [] t ∧
            d' = { d₁ with
              scope := d₁.scope.declare (d₁.scope.fresh target.name t.ty) }) ∨
          ∃ v ts, d₁.scope.find? target.name = some v ∧ v.ty.ofValue = true ∧
            s.terms (indexTest target.name) 0 target.indices d₁ = .ok (ts, d') ∧
            target.indices.length ≤ v.ty.rank.length ∧
            t.ty.compatible (.ofRank (v.ty.rank.drop target.indices.length)) = true ∧
            step = .assign target.span.start target.name v.slot ts t) := by
  rw [assign, Analysis.bind_ok]
  refine exists_congr fun t => exists_congr fun d₁ => and_congr_right fun _ => ?_
  rw [Analysis.get_bind_ok]
  cases hb : s.resolve d₁ target.name with
  | none =>
    obtain ⟨hv, hn, hp⟩ := resolve_none.mp hb
    simp only [Analysis.bind_ok, Analysis.require_ok, Analysis.declare_ok, Analysis.pure_ok,
      Prod.mk.injEq, List.isEmpty_iff]
    constructor
    · rintro ⟨_, _, ⟨hi, -, rfl⟩, _, _, ⟨rfl, rfl⟩, rfl, rfl⟩
      exact .inl ⟨hv, hn, hp, hi, rfl, rfl⟩
    · rintro (⟨-, -, -, hi, rfl, rfl⟩ | ⟨v, ts, hv', -⟩)
      · exact ⟨(), d₁, ⟨hi, trivial, rfl⟩, _, _, ⟨rfl, rfl⟩, rfl, rfl⟩
      · cases hv.symm.trans hv'
  | some binding =>
    cases binding with
    | function signature =>
      simp only [Analysis.fail_ok, false_iff]
      rintro (⟨hv, hn, hp, -⟩ | ⟨v, ts, hv, -⟩)
      · cases hb.symm.trans (resolve_none.mpr ⟨hv, hn, hp⟩)
      · cases hb.symm.trans (resolve_slot.mpr hv)
    | slot v =>
      have hv := resolve_slot.mp hb
      -- The variable is known, so only the second case is left.
      have hbound : ∀ {P : Prop}, (d₁.scope.find? target.name = none ∧ P) ↔ False := by
        simp [hv]
      have hsome : ∀ {P : Variable → Prop},
          (∃ u, d₁.scope.find? target.name = some u ∧ P u) ↔ P v := by
        simp [hv]
      simp only [hbound, false_or, exists_and_left, hsome]
      cases hty : v.ty with
      | number =>
        simp only [Analysis.bind_ok, Analysis.require_ok, Analysis.pure_ok, Prod.mk.injEq,
          List.isEmpty_iff]
        constructor
        · rintro ⟨_, _, ⟨hi, -, rfl⟩, _, _, ⟨ht, -, rfl⟩, rfl, rfl⟩
          rw [hi]
          exact ⟨rfl, [], terms_nil_ok.mpr ⟨rfl, rfl⟩, Nat.zero_le _,
            (Ty.compatible_number t.ty).trans ht, rfl⟩
        · rintro ⟨-, ts, hts, hle, ht, rfl⟩
          have hi : target.indices = [] := List.length_eq_zero_iff.mp (Nat.le_zero.mp hle)
          rw [hi] at hts ht
          obtain ⟨rfl, rfl⟩ := terms_nil_ok.mp hts
          exact ⟨(), d', ⟨hi, trivial, rfl⟩, (), d',
            ⟨(Ty.compatible_number t.ty).symm.trans ht, trivial, rfl⟩, rfl, rfl⟩
      | array rank =>
        simp only [Analysis.bind_ok, Analysis.require_ok, Prod.mk.injEq, decide_eq_true_eq,
          Ty.rank, Ty.compatible_ofRank]
        constructor
        · rintro ⟨ts, _, hts, _, _, ⟨hle, -, rfl⟩, h⟩
          refine ⟨rfl, ts, ?_⟩
          cases hleft : rank.drop target.indices.length with
          | nil =>
            simp only [hleft, Analysis.bind_ok, Analysis.require_ok, Analysis.pure_ok,
              Prod.mk.injEq] at h
            obtain ⟨_, _, ⟨ht, -, rfl⟩, rfl, rfl⟩ := h
            exact ⟨hts, hle, ht, rfl⟩
          | cons dim dims =>
            simp only [hleft, Analysis.bind_ok, Analysis.require_ok, Analysis.pure_ok,
              Prod.mk.injEq] at h
            obtain ⟨_, _, ⟨ht, -, rfl⟩, rfl, rfl⟩ := h
            exact ⟨hts, hle, ht, rfl⟩
        · rintro ⟨-, ts, hts, hle, ht, rfl⟩
          refine ⟨ts, d', hts, (), d', ⟨hle, trivial, rfl⟩, ?_⟩
          cases hleft : rank.drop target.indices.length with
          | nil =>
            rw [hleft] at ht
            simp [ht]
          | cons dim dims =>
            rw [hleft] at ht
            simp [ht]
      | function => simp [Ty.ofValue]

/-- A branch is accepted when its condition is a number, one more branch can be counted, and its
arms are accepted one after the other. -/
theorem step_branch_ok {last : Bool} {span : Span} {condition : Expr} {pass : List Stmt}
    {fail : Option (List Stmt)} :
    s.step last (.branch span condition pass fail) d = .ok (step, d') ↔
      ∃ t d₁ c p d₂ f, s.term condition d = .ok (t, d₁) ∧ t.ty = .number ∧
        Complexity.addBranch d₁.complexity = .ok () c ∧
        s.steps pass { d₁ with complexity := c } = .ok (p, d₂) ∧
        s.stepsOption fail d₂ = .ok (f, d') ∧
        step = .branch span.start t p f := by
  simp only [Setting.step, Analysis.bind_ok, Analysis.require_ok, Analysis.count_ok,
    Analysis.pure_ok, Prod.mk.injEq, Ty.isNumber_iff]
  constructor
  · rintro ⟨t, _, ht, _, d₁, ⟨hty, -, rfl⟩, _, _, ⟨c, hc, -, rfl⟩, p, d₂, hp, f, _, hf, rfl, rfl⟩
    exact ⟨t, d₁, c, p, d₂, f, ht, hty, hc, hp, hf, rfl⟩
  · rintro ⟨t, d₁, c, p, d₂, f, ht, hty, hc, hp, hf, rfl⟩
    exact ⟨t, d₁, ht, (), d₁, ⟨hty, trivial, rfl⟩, (), _, ⟨c, hc, trivial, rfl⟩, p, d₂, hp, f, d',
      hf, rfl, rfl⟩

/-- A return is accepted at the end of its block. The first one fixes the result, and later ones
are compatible with it. -/
theorem step_ret_ok {last : Bool} {span : Span} {value : Expr} :
    s.step last (.ret span value) d = .ok (step, d') ↔
      last = true ∧ ∃ t d₁, s.term value d = .ok (t, d₁) ∧ step = .ret t ∧
        ((d₁.result = none ∧ d' = { d₁ with result := some t.ty }) ∨
          ∃ result, d₁.result = some result ∧ t.ty.compatible result = true ∧ d' = d₁) := by
  rw [Setting.step, Analysis.bind_ok]
  constructor
  · rintro ⟨_, _, hrequire, h⟩
    obtain ⟨hlast, heq⟩ := Analysis.require_ok.mp hrequire
    cases heq
    obtain ⟨t, d₁, ht, h⟩ := Analysis.bind_ok.mp h
    rw [Analysis.get_bind_ok] at h
    refine ⟨hlast, t, d₁, ht, ?_⟩
    -- The value is analysed first, and a call in it may need the result; so the result is looked at
    -- behind it.
    cases hr : d₁.result with
    | none =>
      simp only [hr, Analysis.bind_ok, Analysis.modify_ok, Analysis.pure_ok, Prod.mk.injEq] at h
      obtain ⟨_, _, ⟨-, rfl⟩, rfl, rfl⟩ := h
      exact ⟨rfl, .inl ⟨rfl, rfl⟩⟩
    | some result =>
      simp only [hr, Analysis.bind_ok, Analysis.require_ok, Analysis.pure_ok,
        Prod.mk.injEq] at h
      obtain ⟨_, _, ⟨hc, -, rfl⟩, rfl, rfl⟩ := h
      exact ⟨rfl, .inr ⟨result, rfl, hc, rfl⟩⟩
  · rintro ⟨hlast, t, d₁, ht, rfl, h⟩
    refine ⟨(), d, Analysis.require_ok.mpr ⟨hlast, rfl⟩, Analysis.bind_ok.mpr ⟨t, d₁, ht, ?_⟩⟩
    rw [Analysis.get_bind_ok]
    rcases h with ⟨hr, rfl⟩ | ⟨result, hr, hc, rfl⟩
    · simp [hr]
    · simp [hr, hc]

/-- A block is accepted when its first statement is, and then the others. -/
theorem steps_cons_ok {stmt : Stmt} {rest : List Stmt} {steps : List Step} :
    s.steps (stmt :: rest) d = .ok (steps, d') ↔
      ∃ first d₁ others, s.step rest.isEmpty stmt d = .ok (first, d₁) ∧
        s.steps rest d₁ = .ok (others, d') ∧ steps = first :: others := by
  simp only [Setting.steps, Analysis.bind_ok, Analysis.pure_ok, Prod.mk.injEq]
  constructor
  · rintro ⟨first, d₁, hfirst, others, _, hothers, rfl, rfl⟩
    exact ⟨first, d₁, others, hfirst, hothers, rfl⟩
  · rintro ⟨first, d₁, others, hfirst, hothers, rfl⟩
    exact ⟨first, d₁, hfirst, others, d', hothers, rfl, rfl⟩

/-- An absent block has no code. -/
theorem stepsOption_none_ok {steps : List Step} :
    s.stepsOption none d = .ok (steps, d') ↔ steps = [] ∧ d' = d := by
  simp [Setting.stepsOption]

/-- A block that is there is analysed as a block. -/
theorem stepsOption_some {block : List Stmt} : s.stepsOption (some block) d = s.steps block d := by
  simp only [Setting.stepsOption]

end Setting

end ArrayScript
