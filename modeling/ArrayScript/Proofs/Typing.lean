import ArrayScript.Proofs.Program
import ArrayScript.Proofs.Sized

/-!
# `ArrayScript.Proofs.Typing`: the types that code carries

Analysis gives every term of the code a type, and the term keeps it. `Code.Typed Γ t` says that the
types inside a term fit together, and `Code.WellTyped Γ s` that a step puts values only where their
types are compatible with what is asked for. The types `Γ` say what is taken for granted: the type
of each slot of the frame, of the parameters and the result of the function itself, and the program
that calls reach into.

`Program.Built.fits` is the result: the code of every function of a program is well typed. Two
things about the declarations can be carried along. Where every array constructor has a size, no
type is that of all arrays (`Ty.Proper`). Where there is no array constructor at all, the types are
made of the markers that the parameters bring and of the sizes of lists. `Types.dims` holds the
markers, so one proof serves both: what is known of the run of any program
(`ArrayScript.Proofs.Depth`), and what is known of programs in which every size is written out
(`ArrayScript.Proofs.Static`).

The first return of a body fixes the result of the function, and the first assignment to a name
fixes the type of its slot, both half way through analysis. The code in front of that point is typed
by the *finished* body (`Types.Foresees`), which is why the statements carry the last draft along.
-/

set_option autoImplicit false

namespace ArrayScript

open Code (Term Step)

/-! ### Types of values -/

namespace Ty

/-- The number of dimensions of a type. -/
def depth (ty : Ty) : Nat :=
  ty.rank.length

/-- Whether a type is that of numbers, or of arrays with a number of dimensions. Every value has
such a type; the type of all arrays and the types of functions are not of this kind. -/
def Proper (ty : Ty) : Prop :=
  .ofRank ty.rank = ty

@[simp]
theorem rank_ofRank (rank : List Dim) : (ofRank rank).rank = rank := by
  cases rank <;> rfl

@[simp]
theorem depth_ofRank (rank : List Dim) : (ofRank rank).depth = rank.length := by
  rw [depth, rank_ofRank]

@[simp]
theorem depth_dynamicArray (count : Nat) : (dynamicArray count).depth = count :=
  List.length_replicate

theorem proper_number : Ty.number.Proper := rfl

theorem proper_ofRank (rank : List Dim) : (ofRank rank).Proper := by
  rw [Proper, rank_ofRank]

theorem proper_dynamicArray {count : Nat} (h : count ≠ 0) : (dynamicArray count).Proper := by
  obtain ⟨count, rfl⟩ := Nat.exists_eq_succ_of_ne_zero h
  exact proper_ofRank (List.replicate (count + 1) .dynamic)

/-- Between types of values compatibility compares the markers one by one. -/
theorem compatible_ofRank_iff (actual expected : List Dim) :
    (ofRank actual).compatible (ofRank expected) = true ↔
      actual.length = expected.length ∧
        ∀ pair ∈ actual.zip expected, pair.1.compatible pair.2 = true := by
  cases actual <;> cases expected <;> simp [ofRank, compatible]

/-- Between types of values compatibility asks for the same depth. -/
theorem Proper.depth_eq {actual expected : Ty} (ha : actual.Proper) (he : expected.Proper)
    (h : actual.compatible expected = true) : actual.depth = expected.depth := by
  rw [← ha, ← he] at h ⊢
  simp only [depth_ofRank]
  exact ((compatible_ofRank_iff _ _).mp h).1

/-- Where any array is asked for, a value has a dimension. -/
theorem Proper.depth_of_anyArray {actual : Ty} (ha : actual.Proper)
    (h : actual.compatible .anyArray = true) : ∃ k, actual.depth = k + 1 := by
  rw [← ha] at h ⊢
  simp only [depth_ofRank]
  cases hactual : actual.rank with
  | nil => simp [hactual, ofRank, anyArray, compatible] at h
  | cons dim dims => exact ⟨dims.length, rfl⟩

/-- A type of values is compatible with itself. -/
theorem Proper.compatible_self {ty : Ty} (h : ty.Proper) : ty.compatible ty = true := by
  rw [← h, compatible_ofRank_iff]
  refine ⟨rfl, ?_⟩
  rintro ⟨dim, dim'⟩ hpair
  obtain ⟨i, hi⟩ := List.mem_iff_getElem?.mp hpair
  obtain ⟨hdim, hdim'⟩ := List.getElem?_zip_eq_some.mp hi
  obtain rfl : dim = dim' := Option.some.inj (hdim.symm.trans hdim')
  cases dim <;> simp [Dim.compatible]

end Ty

/-! ### Expressions without array constructors -/

mutual

/-- Whether an expression has no array constructor inside. -/
def Expr.plain : Expr → Bool
  | .number _ _ => true
  | .newArray _ _ => false
  | .list _ items => Expr.plainAll items
  | .var _ _ indices => Expr.plainAll indices
  | .call _ _ args => Expr.plainAll args
  | .unary _ _ operand => operand.plain
  | .binary _ _ left right => left.plain && right.plain

/-- Whether several expressions have no array constructor inside. -/
def Expr.plainAll : List Expr → Bool
  | [] => true
  | e :: es => e.plain && Expr.plainAll es

end

/-- Whether the indices of a target have no array constructor inside. -/
def Target.plain (target : Target) : Bool :=
  Expr.plainAll target.indices

mutual

/-- Whether a statement has no array constructor inside. -/
def Stmt.plain : Stmt → Bool
  | .branch _ condition pass fail =>
    condition.plain && Stmt.plainAll pass && Stmt.plainOption fail
  | .assign _ target value => target.plain && value.plain
  | .update _ _ target value => target.plain && value.plain
  | .ret _ value => value.plain

/-- Whether a block has no array constructor inside. -/
def Stmt.plainAll : List Stmt → Bool
  | [] => true
  | s :: rest => s.plain && Stmt.plainAll rest

/-- Whether a block that may be absent has no array constructor inside. -/
def Stmt.plainOption : Option (List Stmt) → Bool
  | none => true
  | some block => Stmt.plainAll block

end

/-- Whether the body of a declaration has no array constructor inside. -/
def Decl.plain (decl : Decl) : Bool :=
  Stmt.plainAll decl.body

namespace Code

/-! ### Typed code -/

/-- What the types of code refer to: the program around it, the markers that types are made of, the
types of its function's parameters and result, and the type of each slot of the frame. -/
structure Types where
  program : Program
  dims : Dim → Prop
  params : List Ty
  result : Ty
  slots : List Ty

/-- Whether a type is one of values, and made of the markers at hand. -/
def Types.Has (Γ : Types) (ty : Ty) : Prop :=
  ty.Proper ∧ ∀ dim ∈ ty.rank, Γ.dims dim

/-- Whether a callee has the given signature, and results in values of type `result`. -/
def Types.Reaches (Γ : Types) : Callee → Signature → (result : Ty) → Prop
  | .builtin b, signature, result => signature = b.signature ∧ result = .number
  | .user index, signature, result => ∃ f, Γ.program.functions[index]? = some f ∧
      signature = f.signature ∧ result = f.result
  | .self, signature, result =>
      signature.params = Γ.params ∧ signature.rest = none ∧ result = Γ.result

/-- Whether the types inside a term fit together. -/
inductive Typed (Γ : Types) : Term → Prop
  | number {value : Float} : Typed Γ (.number value)
  | newArray {offset : Nat} {sizes : List Term} :
      Γ.dims .dynamic → sizes ≠ [] → (∀ t ∈ sizes, Typed Γ t) → (∀ t ∈ sizes, t.ty = .number) →
      Typed Γ (.newArray offset sizes)
  | list {first : Term} {rest : List Term} :
      Typed Γ first → (∀ t ∈ rest, Typed Γ t) →
      (∀ t ∈ rest, t.ty.compatible first.ty = true) →
      Typed Γ (.list (.array (.fixed (rest.length + 1) :: first.ty.rank)) (first :: rest))
  | slot {offset : Nat} {name : String} {slot : Nat} {ty : Ty} {indices : List Term} :
      Γ.slots[slot]? = some ty → indices.length ≤ ty.rank.length → (∀ t ∈ indices, Typed Γ t) →
      (∀ t ∈ indices, t.ty = .number) →
      Typed Γ (.slot offset name slot (.ofRank (ty.rank.drop indices.length)) indices)
  | call {offset : Nat} {name : String} {callee : Callee} {signature : Signature} {result : Ty}
      {args : List Term} :
      Γ.Reaches callee signature result → signature.accepts args.length = true →
      (∀ i t, args[i]? = some t → (signature.param? i).any t.ty.compatible = true) →
      (∀ t ∈ args, Typed Γ t) → Typed Γ (.call offset name callee result args)
  | unary {offset : Nat} {op : PrefixOp} {operand : Term} :
      Typed Γ operand → operand.ty = .number → Typed Γ (.unary offset op operand)
  | binary {offset : Nat} {op : BinaryOp} {left right : Term} :
      Typed Γ left → left.ty = .number → Typed Γ right → right.ty = .number →
      Typed Γ (.binary offset op left right)

/-- Whether a step tests numbers, assigns values whose types are compatible with their place, and
returns values whose types are compatible with the result. -/
inductive WellTyped (Γ : Types) : Step → Prop
  | branch {offset : Nat} {condition : Term} {pass fail : List Step} :
      Typed Γ condition → condition.ty = .number → (∀ s ∈ pass, WellTyped Γ s) →
      (∀ s ∈ fail, WellTyped Γ s) → WellTyped Γ (.branch offset condition pass fail)
  | assign {offset : Nat} {name : String} {slot : Nat} {ty : Ty} {indices : List Term}
      {value : Term} :
      Γ.slots[slot]? = some ty → indices.length ≤ ty.rank.length → (∀ t ∈ indices, Typed Γ t) →
      (∀ t ∈ indices, t.ty = .number) → Typed Γ value →
      value.ty.compatible (.ofRank (ty.rank.drop indices.length)) = true →
      WellTyped Γ (.assign offset name slot indices value)
  | ret {value : Term} :
      Typed Γ value → value.ty.compatible Γ.result = true → WellTyped Γ (.ret value)

/-! ### From analysis to types -/

variable {Γ : Types} {s : Setting}

/-- What is known of a function under analysis, so far: the variables, the result once it is fixed
and the functions before it have types of values, made of the markers at hand, and they are those
of `Γ`. -/
structure Types.Knows (Γ : Types) (s : Setting) (d : Draft) : Prop where
  scope : d.scope.WellFormed
  fixed : ∀ size, Γ.dims (.fixed size)
  slots : ∀ v ∈ d.scope.entries, Γ.Has v.ty ∧ Γ.slots[v.slot]? = some v.ty
  result : ∀ ty, d.result = some ty → Γ.Has ty ∧ Γ.result = ty
  params : Γ.params = s.params
  functions : ∀ (index : Nat) (f : Function), s.program.functions[index]? = some f →
    Γ.program.functions[index]? = some f ∧ Γ.Has f.result

/-- The slots and the result have the types that analysis has found when it ends. -/
structure Types.Foresees (Γ : Types) (d : Draft) : Prop where
  slots : ∀ v ∈ d.scope.entries, Γ.slots[v.slot]? = some v.ty
  result : ∀ ty, d.result = some ty → Γ.result = ty

/-- Only the variables and the result of a draft are looked at. -/
theorem Types.Knows.of_keeps {d d' : Draft} (h : Γ.Knows s d)
    (hkeeps : d'.scope = d.scope ∧ d'.result = d.result) : Γ.Knows s d' where
  scope := by
    rw [hkeeps.1]
    exact h.scope
  fixed := h.fixed
  slots := by
    rw [hkeeps.1]
    exact h.slots
  result := by
    rw [hkeeps.2]
    exact h.result
  params := h.params
  functions := h.functions

theorem Types.has_number : Γ.Has .number :=
  ⟨Ty.proper_number, by simp [Ty.rank]⟩

/-- What is left of an array's type is made of the same markers. -/
theorem Types.Has.drop {ty : Ty} (h : Γ.Has ty) (count : Nat) :
    Γ.Has (.ofRank (ty.rank.drop count)) := by
  refine ⟨Ty.proper_ofRank _, ?_⟩
  intro dim hdim
  rw [Ty.rank_ofRank] at hdim
  exact h.2 dim (List.mem_of_mem_drop hdim)

/-- The target of an accepted call is reached with its signature, and its result has a type of
values. -/
theorem reaches_of_target {d : Draft} {name : String} {target : CallTarget}
    {result : Ty} (hknows : Γ.Knows s d) (htarget : s.target d name = .ok target)
    (hresult : target.signature.result = some result) :
    Γ.Reaches target.callee target.signature result ∧ Γ.Has result := by
  rcases Setting.target_ok.mp htarget with ⟨-, -, -, rfl⟩ |
    ⟨-, ⟨b, -, rfl⟩ | ⟨index, f, hentry, rfl⟩⟩
  · obtain ⟨hhas, heq⟩ := hknows.result result hresult
    exact ⟨⟨hknows.params.symm, rfl, heq.symm⟩, hhas⟩
  · cases hresult
    exact ⟨⟨rfl, rfl⟩, Types.has_number⟩
  · cases hresult
    obtain ⟨hf, hhas⟩ := hknows.functions index f (Program.entry?_user hentry).1
    exact ⟨⟨f, hf, rfl, rfl⟩, hhas⟩

/-! ### Expressions -/

mutual

/-- The code of an accepted expression is typed, and its type is one of values. Without the open
marker there may be no array constructor in the expression. -/
theorem typed_of_term :
    ∀ (e : Expr) {d d' : Draft} {t : Term}, s.term e d = .ok (t, d') → Γ.Knows s d →
      e.sized = true → Γ.dims .dynamic ∨ e.plain = true → Typed Γ t ∧ Γ.Has t.ty
  | .number _ value, d, d', t, h, hknows, hsized, hplain => by
    obtain ⟨rfl, -⟩ := Setting.term_number_ok.mp h
    exact ⟨.number, Types.has_number⟩
  | .newArray _ sizes, d, d', t, h, hknows, hsized, hplain => by
    obtain ⟨ts, hts, rfl⟩ := Setting.term_newArray_ok.mp h
    simp only [Expr.sized, Bool.and_eq_true, Bool.not_eq_true', List.isEmpty_eq_false_iff] at hsized
    have hopen : Γ.dims .dynamic := by simpa [Expr.plain] using hplain
    -- Without a size the type would be that of all arrays, which no value has.
    have hne : ts.length ≠ 0 := by
      rw [(Setting.terms_passed sizes hts).1]
      exact fun hzero => hsized.1 (List.length_eq_zero_iff.mp hzero)
    have hall := typed_of_terms sizes hts hknows hsized.2 (.inl hopen)
    have hnumbers := Setting.terms_forall hts fun _ _ _ => Setting.sizeTest_eq_none.mp
    refine ⟨.newArray hopen (fun hnil => hne (by simp [hnil])) (fun t ht => (hall t ht).1) hnumbers,
      Ty.proper_dynamicArray hne, ?_⟩
    intro dim hdim
    rw [List.eq_of_mem_replicate hdim]
    exact hopen
  | .list _ [], d, d', t, h, hknows, hsized, hplain => (Setting.term_list_nil_ok.mp h).elim
  | .list _ (first :: rest), d, d', t, h, hknows, hsized, hplain => by
    obtain ⟨u, d₁, us, hu, hus, rfl⟩ := Setting.term_list_ok.mp h
    simp only [Expr.sized, Expr.sizedAll, Bool.and_eq_true] at hsized
    simp only [Expr.plain, Expr.plainAll, Bool.and_eq_true] at hplain
    obtain ⟨hfirst, hhas⟩ := typed_of_term first hu hknows hsized.1 (hplain.imp_right And.left)
    -- Analysis of an expression declares nothing, so the rest is analysed with the same variables.
    have hknows₁ := hknows.of_keeps (Setting.term_keeps first hu)
    have hrest := typed_of_terms rest hus hknows₁ hsized.2 (hplain.imp_right And.right)
    have hcompatible := Setting.terms_forall hus fun _ _ _ => Setting.elementTest_eq_none.mp
    refine ⟨.list hfirst (fun t ht => (hrest t ht).1) hcompatible, rfl, ?_⟩
    intro dim hdim
    rcases List.mem_cons.mp hdim with rfl | hdim
    · exact hknows.fixed _
    · exact hhas.2 dim hdim
  | .var _ name indices, d, d', t, h, hknows, hsized, hplain => by
    obtain ⟨v, ts, hv, -, hts, hle, rfl⟩ := Setting.term_var_ok.mp h
    obtain ⟨hhas, hslot⟩ := hknows.slots v (Scope.mem_of_find? hv)
    have hall := typed_of_terms indices hts hknows hsized hplain
    have hnumbers := Setting.terms_forall hts fun _ _ _ => Setting.indexTest_eq_none.mp
    rw [← (Setting.terms_passed indices hts).1] at hle ⊢
    exact ⟨.slot hslot hle (fun t ht => (hall t ht).1) hnumbers, hhas.drop _⟩
  | .call _ name args, d, d', t, h, hknows, hsized, hplain => by
    obtain ⟨target, result, ts, d₁, htarget, hresult, haccepts, hts, -, rfl⟩ :=
      Setting.term_call_ok.mp h
    obtain ⟨hlength, hpassed⟩ := Setting.terms_passed args hts
    have hall := typed_of_terms args hts hknows hsized hplain
    obtain ⟨hreaches, hhas⟩ := reaches_of_target hknows htarget hresult
    rw [← hlength] at haccepts
    refine ⟨.call hreaches haccepts ?_ (fun t ht => (hall t ht).1), hhas⟩
    intro i u hu
    obtain ⟨e, -, htest⟩ := hpassed i u hu
    rw [Nat.zero_add] at htest
    exact Setting.argumentTest_eq_none.mp htest
  | .unary _ op operand, d, d', t, h, hknows, hsized, hplain => by
    obtain ⟨u, hu, hty, rfl⟩ := Setting.term_unary_ok.mp h
    exact ⟨.unary (typed_of_term operand hu hknows hsized hplain).1 hty, Types.has_number⟩
  | .binary _ op left right, d, d', t, h, hknows, hsized, hplain => by
    obtain ⟨u, d₁, w, hu, hut, hw, hwt, rfl⟩ := Setting.term_binary_ok.mp h
    simp only [Expr.sized, Bool.and_eq_true] at hsized
    simp only [Expr.plain, Bool.and_eq_true] at hplain
    have hleft := typed_of_term left hu hknows hsized.1 (hplain.imp_right And.left)
    have hknows₁ := hknows.of_keeps (Setting.term_keeps left hu)
    have hright := typed_of_term right hw hknows₁ hsized.2 (hplain.imp_right And.right)
    exact ⟨.binary hleft.1 hut hright.1 hwt, Types.has_number⟩

/-- Companion for several expressions. -/
theorem typed_of_terms :
    ∀ (es : List Expr) {test : Setting.Test} {index : Nat} {d d' : Draft} {ts : List Term},
      s.terms test index es d = .ok (ts, d') → Γ.Knows s d → Expr.sizedAll es = true →
      Γ.dims .dynamic ∨ Expr.plainAll es = true → ∀ t ∈ ts, Typed Γ t ∧ Γ.Has t.ty
  | [], test, index, d, d', ts, h, hknows, hsized, hplain => by
    obtain ⟨rfl, -⟩ := Setting.terms_nil_ok.mp h
    simp
  | e :: es, test, index, d, d', ts, h, hknows, hsized, hplain => by
    obtain ⟨t, d₁, us, ht, -, hus, rfl⟩ := Setting.terms_cons_ok.mp h
    simp only [Expr.sizedAll, Bool.and_eq_true] at hsized
    simp only [Expr.plainAll, Bool.and_eq_true] at hplain
    have hfirst := typed_of_term e ht hknows hsized.1 (hplain.imp_right And.left)
    have hknows₁ := hknows.of_keeps (Setting.term_keeps e ht)
    have hothers := typed_of_terms es hus hknows₁ hsized.2 (hplain.imp_right And.right)
    exact List.forall_mem_cons.mpr ⟨hfirst, hothers⟩

end

/-! ### Statements -/

/-- An accepted assignment is well typed where the type of its slot is foreseen. -/
theorem wellTyped_of_assign {target : Target} {value : Expr} {d d' last : Draft} {step : Step}
    (h : s.assign target value d = .ok (step, d')) (hknows : Γ.Knows s d)
    (hsized : target.sized = true ∧ value.sized = true)
    (hplain : Γ.dims .dynamic ∨ target.plain = true ∧ value.plain = true)
    (hlast : Γ.Foresees last) (hgrows : d'.Grows last) : WellTyped Γ step ∧ Γ.Knows s d' := by
  obtain ⟨t, d₁, ht, hcases⟩ := Setting.assign_ok.mp h
  obtain ⟨htyped, hhas⟩ := typed_of_term value ht hknows hsized.2 (hplain.imp_right And.right)
  have hknows₁ := hknows.of_keeps (Setting.term_keeps value ht)
  rcases hcases with ⟨hnone, -, -, -, rfl, rfl⟩ | ⟨v, ts, hv, -, hts, hle, hcompatible, rfl⟩
  · -- The new variable is still there at the end, so its slot is foreseen.
    have hslot : Γ.slots[d₁.scope.slots]? = some t.ty :=
      hlast.slots (d₁.scope.fresh target.name t.ty) (hgrows.scope.subset List.mem_cons_self)
    have hself : t.ty.compatible (.ofRank (t.ty.rank.drop 0)) = true := by
      rw [List.drop_zero, hhas.1]
      exact hhas.1.compatible_self
    refine ⟨.assign hslot (Nat.zero_le _) (by simp) (by simp) htyped hself, ?_⟩
    refine { hknows₁ with scope := hknows₁.scope.declare hnone t.ty, slots := ?_ }
    intro v hv
    rcases List.mem_cons.mp hv with rfl | hv
    · exact ⟨hhas, hslot⟩
    · exact hknows₁.slots v hv
  · obtain ⟨-, hslot⟩ := hknows₁.slots v (Scope.mem_of_find? hv)
    have hall := typed_of_terms _ hts hknows₁ hsized.1 (hplain.imp_right And.left)
    have hnumbers := Setting.terms_forall hts fun _ _ _ => Setting.indexTest_eq_none.mp
    rw [← (Setting.terms_passed target.indices hts).1] at hle hcompatible
    exact ⟨.assign hslot hle (fun t ht => (hall t ht).1) hnumbers htyped hcompatible,
      hknows₁.of_keeps (Setting.terms_keeps _ hts)⟩

mutual

/-- The code of an accepted statement is well typed where the types are foreseen that analysis ends
with, and what analysis finds goes on being known. -/
theorem wellTyped_of_step :
    ∀ (stmt : Stmt) {ends : Bool} {d d' last : Draft} {step : Step},
      s.step ends stmt d = .ok (step, d') → Γ.Knows s d → stmt.sized = true →
      Γ.dims .dynamic ∨ stmt.plain = true → Γ.Foresees last → d'.Grows last →
      WellTyped Γ step ∧ Γ.Knows s d'
  | .branch _ condition pass fail, ends, d, d', last, step, h, hknows, hsized, hplain, hlast,
      hgrows => by
    obtain ⟨t, d₁, c, p, d₂, f, ht, hty, -, hp, hf, rfl⟩ := Setting.step_branch_ok.mp h
    simp only [Stmt.sized, Bool.and_eq_true] at hsized
    simp only [Stmt.plain, Bool.and_eq_true] at hplain
    obtain ⟨⟨hcondition, hpass⟩, hfail⟩ := hsized
    obtain ⟨htyped, -⟩ :=
      typed_of_term condition ht hknows hcondition (hplain.imp_right fun h => h.1.1)
    have hkeeps := Setting.term_keeps condition ht
    have hknows₁ : Γ.Knows s { d₁ with complexity := c } := hknows.of_keeps hkeeps
    -- The first arm is foreseen by the same last draft, because the second one only adds to it.
    have hwf₂ := (Setting.steps_grows pass hp hknows₁.scope).2
    have hgrows₂ := (Setting.stepsOption_grows fail hf hwf₂).1.trans hgrows
    obtain ⟨hpass', hknows₂⟩ :=
      wellTyped_of_steps pass hp hknows₁ hpass (hplain.imp_right fun h => h.1.2) hlast hgrows₂
    obtain ⟨hfail', hknows₃⟩ :=
      wellTyped_of_stepsOption fail hf hknows₂ hfail (hplain.imp_right And.right) hlast hgrows
    exact ⟨.branch htyped hty hpass' hfail', hknows₃⟩
  | .assign _ target value, ends, d, d', last, step, h, hknows, hsized, hplain, hlast, hgrows => by
    rw [Setting.step_assign_ok] at h
    simp only [Stmt.sized, Bool.and_eq_true] at hsized
    simp only [Stmt.plain, Bool.and_eq_true] at hplain
    exact wellTyped_of_assign h hknows hsized hplain hlast hgrows
  | .update _ op target value, ends, d, d', last, step, h, hknows, hsized, hplain, hlast,
      hgrows => by
    rw [Setting.step_update_ok] at h
    simp only [Stmt.sized, Bool.and_eq_true] at hsized
    simp only [Stmt.plain, Bool.and_eq_true] at hplain
    -- The longhand reads its target, so what is asked of the two together is asked of its value.
    refine wellTyped_of_assign h hknows ⟨hsized.1, ?_⟩ (hplain.imp_right fun h => ⟨h.1, ?_⟩) hlast
      hgrows
    · simp only [Expr.sized, Bool.and_eq_true]
      exact hsized
    · simp only [Expr.plain, Bool.and_eq_true]
      exact h
  | .ret _ value, ends, d, d', last, step, h, hknows, hsized, hplain, hlast, hgrows => by
    obtain ⟨-, t, d₁, ht, rfl, hcases⟩ := Setting.step_ret_ok.mp h
    obtain ⟨htyped, hhas⟩ := typed_of_term value ht hknows hsized hplain
    have hknows₁ := hknows.of_keeps (Setting.term_keeps value ht)
    rcases hcases with ⟨-, rfl⟩ | ⟨result, hresult, hcompatible, rfl⟩
    · -- The result that is fixed here is the one that analysis ends with.
      have hresult : Γ.result = t.ty := hlast.result _ (hgrows.result _ rfl)
      refine ⟨.ret htyped (hresult ▸ hhas.1.compatible_self), { hknows₁ with result := ?_ }⟩
      rintro ty ⟨⟩
      exact ⟨hhas, hresult⟩
    · obtain ⟨-, rfl⟩ := hknows₁.result result hresult
      exact ⟨.ret htyped hcompatible, hknows₁⟩

/-- Companion for a block. -/
theorem wellTyped_of_steps :
    ∀ (block : List Stmt) {d d' last : Draft} {steps : List Step},
      s.steps block d = .ok (steps, d') → Γ.Knows s d → Stmt.sizedAll block = true →
      Γ.dims .dynamic ∨ Stmt.plainAll block = true → Γ.Foresees last → d'.Grows last →
      (∀ step ∈ steps, WellTyped Γ step) ∧ Γ.Knows s d'
  | [], d, d', last, steps, h, hknows, hsized, hplain, hlast, hgrows => by
    obtain ⟨rfl, rfl⟩ := Setting.steps_nil_ok.mp h
    exact ⟨by simp, hknows⟩
  | stmt :: rest, d, d', last, steps, h, hknows, hsized, hplain, hlast, hgrows => by
    obtain ⟨first, d₁, others, hfirst, hothers, rfl⟩ := Setting.steps_cons_ok.mp h
    simp only [Stmt.sizedAll, Bool.and_eq_true] at hsized
    simp only [Stmt.plainAll, Bool.and_eq_true] at hplain
    have hwf₁ := (Setting.step_grows stmt hfirst hknows.scope).2
    have hgrows₁ := (Setting.steps_grows rest hothers hwf₁).1.trans hgrows
    obtain ⟨hstep, hknows₁⟩ := wellTyped_of_step stmt hfirst hknows hsized.1
      (hplain.imp_right And.left) hlast hgrows₁
    obtain ⟨hall, hknows'⟩ := wellTyped_of_steps rest hothers hknows₁ hsized.2
      (hplain.imp_right And.right) hlast hgrows
    exact ⟨List.forall_mem_cons.mpr ⟨hstep, hall⟩, hknows'⟩

/-- Companion for a block that may be absent. -/
theorem wellTyped_of_stepsOption :
    ∀ (block : Option (List Stmt)) {d d' last : Draft} {steps : List Step},
      s.stepsOption block d = .ok (steps, d') → Γ.Knows s d → Stmt.sizedOption block = true →
      Γ.dims .dynamic ∨ Stmt.plainOption block = true → Γ.Foresees last → d'.Grows last →
      (∀ step ∈ steps, WellTyped Γ step) ∧ Γ.Knows s d'
  | none, d, d', last, steps, h, hknows, hsized, hplain, hlast, hgrows => by
    obtain ⟨rfl, rfl⟩ := Setting.stepsOption_none_ok.mp h
    exact ⟨by simp, hknows⟩
  | some block, d, d', last, steps, h, hknows, hsized, hplain, hlast, hgrows => by
    rw [Setting.stepsOption_some] at h
    exact wellTyped_of_steps block h hknows hsized hplain hlast hgrows

end

end Code

/-! ### Functions -/

/-- The types that the code of a function refers to, when its frame has slots of the given types. -/
def Function.types (p : Program) (dims : Dim → Prop) (f : Function) (slots : List Ty) :
    Code.Types :=
  ⟨p, dims, f.params, f.result, slots⟩

/-- The types of the frame that a scope describes, slot by slot. -/
def Scope.types (scope : Scope) : List Ty :=
  scope.entries.reverse.map Variable.ty

namespace Scope

variable {s : Scope} {v : Variable} {ty : Ty}

theorem mem_types : ty ∈ s.types ↔ ∃ v ∈ s.entries, v.ty = ty := by
  simp [types]

/-- The type of a variable stands at its slot. -/
theorem WellFormed.getElem?_types (hs : s.WellFormed) (hv : v ∈ s.entries) :
    s.types[v.slot]? = some v.ty := by
  rw [types, List.getElem?_map, hs.getElem?_reverse hv]
  rfl

/-- In front of the body the frame has the parameters, in their order. -/
theorem types_of_bindParams {params : List Param} {d : Draft}
    (h : Analysis.bindParams params .start = .ok ((), d)) :
    d.scope.types = params.map Ty.ofParam := by
  obtain ⟨-, -, -, hentries⟩ := Analysis.bindParams_ok params h wellFormed_empty
  rw [types, hentries]
  exact Analysis.map_paramVariable (fun _ => rfl) params 0

end Scope

/-- Whether a function fits the types of a frame, which are types of values made of the markers
`dims`: the frame starts with its parameters, and its code is well typed there. -/
def Function.Fits (p : Program) (dims : Dim → Prop) (f : Function) (slots : List Ty) : Prop :=
  slots.length = f.slots ∧ f.params <+: slots ∧
    (∀ ty ∈ slots, (f.types p dims slots).Has ty) ∧ (f.types p dims slots).Has f.result ∧
    ∀ step ∈ f.body, Code.WellTyped (f.types p dims slots) step

/-- Whether a function fits the types of some frame. -/
def Function.Typed (p : Program) (dims : Dim → Prop) (f : Function) : Prop :=
  ∃ slots : List Ty, f.Fits p dims slots

/-- Whether the parameters of a declaration are made of the markers `dims`. -/
def Decl.MadeOf (dims : Dim → Prop) (decl : Decl) : Prop :=
  ∀ param ∈ decl.params, ∀ dim ∈ param.dims, dims (Dim.ofParam dim)

namespace Program

variable {p q : Program} {file : String} {decl : Decl} {decls : List Decl} {f : Function}
  {dims : Dim → Prop}

/-- Parameters have types of values, whatever the body does. -/
theorem Built.proper_params (h : Built file decls p) (hf : f ∈ p.functions) :
    ∀ ty ∈ f.params, ty.Proper := by
  intro ty hty
  obtain ⟨index, hindex⟩ := List.mem_iff_getElem?.mp hf
  obtain ⟨decl, -, hanalyse⟩ := h.exists_decl hindex
  obtain ⟨d₀, d, body, result, -, -, -, -, rfl⟩ := analyseDecl_ok.mp (analyse_ok.mp hanalyse).2.2
  obtain ⟨param, -, rfl⟩ := List.mem_map.mp hty
  exact Ty.proper_ofRank _

/-- What is known in front of the body: the parameters, whose types are made of the markers that the
declaration brings. -/
theorem knows_of_bindParams {Γ : Code.Types} {d : Draft}
    (hbind : Analysis.bindParams decl.params .start = .ok ((), d)) (hparams : decl.MadeOf Γ.dims)
    (hfixed : ∀ size, Γ.dims (.fixed size))
    (hslots : ∀ v ∈ d.scope.entries, Γ.slots[v.slot]? = some v.ty)
    (hΓ : Γ.params = decl.params.map Ty.ofParam)
    (hfunctions : ∀ (index : Nat) (g : Function), q.functions[index]? = some g →
      Γ.program.functions[index]? = some g ∧ Γ.Has g.result) : Γ.Knows (q.setting decl) d := by
  obtain ⟨hwf, hresult, -, -⟩ := Analysis.bindParams_ok decl.params hbind Scope.wellFormed_empty
  refine ⟨hwf, hfixed, ?_, ?_, hΓ, hfunctions⟩
  · intro v hv
    have hty : v.ty ∈ decl.params.map Ty.ofParam := by
      rw [← Scope.types_of_bindParams hbind]
      exact Scope.mem_types.mpr ⟨v, hv, rfl⟩
    obtain ⟨param, hmem, hparam⟩ := List.mem_map.mp hty
    refine ⟨?_, hslots v hv⟩
    rw [← hparam]
    refine ⟨Ty.proper_ofRank _, ?_⟩
    intro dim hdim
    rw [Ty.ofParam, Ty.rank_ofRank, List.mem_map] at hdim
    obtain ⟨e, he, rfl⟩ := hdim
    exact hparams param hmem e he
  · intro ty hty
    rw [hresult] at hty
    cases hty

/-- A declaration that is analysed against functions of `p` becomes a function that fits the types
which its variables have when analysis ends. -/
theorem fits_of_analyseDecl (h : q.analyseDecl file decl = .ok f) (hsized : decl.sized = true)
    (hplain : dims .dynamic ∨ decl.plain = true) (hfixed : ∀ size, dims (.fixed size))
    (hparams : decl.MadeOf dims)
    (hq : ∀ (index : Nat) (g : Function), q.functions[index]? = some g →
      p.functions[index]? = some g ∧ g.Typed p dims) :
    ∃ d, q.analyseBody decl = .ok (f.body, d) ∧ f.Fits p dims d.scope.types := by
  obtain ⟨d₀, d, body, result, hbind, hbody, hresult, -, rfl⟩ := analyseDecl_ok.mp h
  have hwf₀ := (Analysis.bindParams_ok decl.params hbind Scope.wellFormed_empty).1
  obtain ⟨hgrows, hwf⟩ := Setting.steps_grows decl.body hbody hwf₀
  -- The types are those at the end of analysis. They are known in advance because the scope only
  -- grows and the result, once it is there, stays.
  let Γ : Code.Types := ⟨p, dims, decl.params.map Ty.ofParam, result, d.scope.types⟩
  have hforesees : Γ.Foresees d := by
    refine ⟨fun v hv => hwf.getElem?_types hv, ?_⟩
    intro ty hty
    exact Option.some.inj (hresult.symm.trans hty)
  have hknows₀ : Γ.Knows (q.setting decl) d₀ := by
    refine knows_of_bindParams hbind hparams hfixed ?_ rfl ?_
    · -- A parameter is still there at the end, so its slot is foreseen.
      exact fun v hv => hforesees.slots v (hgrows.scope.subset hv)
    · intro index g hg
      obtain ⟨hg', slots, -, -, -, hhas, -⟩ := hq index g hg
      exact ⟨hg', hhas⟩
  obtain ⟨htyped, hknows⟩ :=
    Code.wellTyped_of_steps decl.body hbody hknows₀ hsized hplain hforesees (.refl d)
  have hprefix : decl.params.map Ty.ofParam <+: d.scope.types := by
    rw [← Scope.types_of_bindParams hbind]
    exact (List.reverse_prefix.mpr hgrows.scope).map _
  have hslots : ∀ ty ∈ d.scope.types, Γ.Has ty := by
    intro ty hty
    obtain ⟨v, hv, rfl⟩ := Scope.mem_types.mp hty
    exact (hknows.slots v hv).1
  exact ⟨d, analyseBody_ok.mpr ⟨d₀, hbind, hbody⟩, by simp [Scope.types, Scope.slots], hprefix,
    hslots, (hknows.result result hresult).1, htyped⟩

/-- Every function of a program fits the types that its variables have when analysis ends, which are
made of the markers that its declarations bring. The functions that it can call are in front of it,
so the induction is on its place. -/
theorem Built.fits (h : Built file decls p) (hsized : ∀ decl ∈ decls, decl.sized = true)
    (hplain : dims .dynamic ∨ ∀ decl ∈ decls, decl.plain = true)
    (hfixed : ∀ size, dims (.fixed size)) (hparams : ∀ decl ∈ decls, decl.MadeOf dims) :
    ∀ (index : Nat) (f : Function), p.functions[index]? = some f →
      ∃ decl d, decls[index]? = some decl ∧ (p.before index).analyseBody decl = .ok (f.body, d) ∧
        f.Fits p dims d.scope.types := by
  intro index
  induction index using Nat.strongRecOn with
  | ind index ih =>
    intro f hf
    obtain ⟨decl, hdecl, hanalyse⟩ := h.exists_decl hf
    have hmem : decl ∈ decls := List.mem_of_getElem? hdecl
    have hfront : ∀ (place : Nat) (g : Function), (p.before index).functions[place]? = some g →
        p.functions[place]? = some g ∧ g.Typed p dims := by
      intro place g hg
      obtain ⟨hg', hlt⟩ := getElem?_before hg
      obtain ⟨-, d, -, -, hfits⟩ := ih place hlt g hg'
      exact ⟨hg', d.scope.types, hfits⟩
    obtain ⟨d, hbody, hfits⟩ := fits_of_analyseDecl (analyse_ok.mp hanalyse).2.2 (hsized decl hmem)
      (hplain.imp_right fun hall => hall decl hmem) hfixed (hparams decl hmem) hfront
    exact ⟨decl, d, hdecl, hbody, hfits⟩

/-- Every function of a program fits its types. -/
theorem Built.typed (h : Built file decls p) (hsized : ∀ decl ∈ decls, decl.sized = true)
    (hplain : dims .dynamic ∨ ∀ decl ∈ decls, decl.plain = true)
    (hfixed : ∀ size, dims (.fixed size)) (hparams : ∀ decl ∈ decls, decl.MadeOf dims) :
    ∀ (index : Nat) (f : Function), p.functions[index]? = some f → f.Typed p dims := by
  intro index f hf
  obtain ⟨-, d, -, -, hfits⟩ := h.fits hsized hplain hfixed hparams index f hf
  exact ⟨d.scope.types, hfits⟩

end Program

end ArrayScript
