import ArrayScript.Proofs.Typing

/-!
# `ArrayScript.Proofs.Depth`: analysed code has depths

Analysis knows more about a value than a run depends on. Whether a size is known does not matter
once the program runs; the number of dimensions does. `Code.Deep Γ t k` says that the term `t` can
only denote values of depth `k`, and `Code.Sound Γ s` that the step `s` puts values only where
their depth is expected. A context `Γ` holds what is taken for granted: the depth of each slot of
the frame, of the parameters and the result of the function itself, and the program that calls
reach into.

`Function.sound_of_compile` is the result: the code of every function of a program that comes from
a text is sound, returns on every path, and takes its arguments in its first slots. That the code is
sound follows from its types (`ArrayScript.Proofs.Typing`), of which only the depths are kept.
-/

set_option autoImplicit false

namespace ArrayScript

open Code (Term Step)

/-- Whether the parameters and the result of a function have types of values. -/
def Function.Proper (f : Function) : Prop :=
  (∀ ty ∈ f.params, ty.Proper) ∧ f.result.Proper

/-! ### Contexts -/

/-- The depths of arguments that a builtin takes. -/
def Builtin.Takes (b : Builtin) (depths : List Nat) : Prop :=
  match b.form with
  | .unary _ => depths = [0]
  | .binary _ => depths = [0, 0]
  | .fold _ => depths ≠ [] ∧ ∀ k ∈ depths, k = 0
  | .size => ∃ k, depths = [k + 1]

namespace Code

/-- What code takes for granted: the program around it, the depths of its function's parameters
and result, and the depth of each slot of the frame. -/
structure Context where
  program : Program
  params : List Nat
  result : Nat
  slots : List Nat

/-- Whether a callee takes arguments of the given depths, and results in a value of depth `k`. -/
def Context.Reaches (Γ : Context) : Callee → (depths : List Nat) → (k : Nat) → Prop
  | .builtin b, depths, k => b.Takes depths ∧ k = 0
  | .user index, depths, k => ∃ f, Γ.program.functions[index]? = some f ∧
      depths = f.params.map Ty.depth ∧ k = f.result.depth
  | .self, depths, k => depths = Γ.params ∧ k = Γ.result

/-- Whether a term denotes values of depth `k` only. -/
inductive Deep (Γ : Context) : Term → Nat → Prop
  | number {value : Float} : Deep Γ (.number value) 0
  | newArray {offset : Nat} {sizes : List Term} :
      (∀ t ∈ sizes, Deep Γ t 0) → Deep Γ (.newArray offset sizes) sizes.length
  | list {ty : Ty} {items : List Term} {k : Nat} :
      (∀ t ∈ items, Deep Γ t k) → Deep Γ (.list ty items) (k + 1)
  | slot {offset : Nat} {name : String} {slot : Nat} {ty : Ty} {indices : List Term} {k : Nat} :
      Γ.slots[slot]? = some (k + indices.length) → (∀ t ∈ indices, Deep Γ t 0) →
      Deep Γ (.slot offset name slot ty indices) k
  | call {offset : Nat} {name : String} {callee : Callee} {ty : Ty} {args : List Term}
      {depths : List Nat} {k : Nat} :
      Γ.Reaches callee depths k → args.length = depths.length →
      (∀ pair ∈ args.zip depths, Deep Γ pair.1 pair.2) →
      Deep Γ (.call offset name callee ty args) k
  | unary {offset : Nat} {op : PrefixOp} {operand : Term} :
      Deep Γ operand 0 → Deep Γ (.unary offset op operand) 0
  | binary {offset : Nat} {op : BinaryOp} {left right : Term} :
      Deep Γ left 0 → Deep Γ right 0 → Deep Γ (.binary offset op left right) 0

/-- Whether a step tests numbers, assigns values as deep as their place, and returns values as deep
as the result. -/
inductive Sound (Γ : Context) : Step → Prop
  | branch {offset : Nat} {condition : Term} {pass fail : List Step} :
      Deep Γ condition 0 → (∀ s ∈ pass, Sound Γ s) → (∀ s ∈ fail, Sound Γ s) →
      Sound Γ (.branch offset condition pass fail)
  | assign {offset : Nat} {name : String} {slot : Nat} {indices : List Term} {value : Term}
      {k : Nat} :
      Γ.slots[slot]? = some (k + indices.length) → (∀ t ∈ indices, Deep Γ t 0) →
      Deep Γ value k → Sound Γ (.assign offset name slot indices value)
  | ret {value : Term} : Deep Γ value Γ.result → Sound Γ (.ret value)

mutual

/-- Whether every path through a step ends in a return. -/
def returns : Step → Bool
  | .branch _ _ pass fail => returnsAll pass && returnsAll fail
  | .assign .. => false
  | .ret _ => true

/-- Whether every path through a block ends in a return. -/
def returnsAll : List Step → Bool
  | [] => false
  | s :: rest => returns s || returnsAll rest

end

/-! ### From types to depths -/

/-- The depths of the types that code refers to. -/
def Types.depths (Γ : Types) : Context :=
  ⟨Γ.program, Γ.params.map Ty.depth, Γ.result.depth, Γ.slots.map Ty.depth⟩

/-- Whether the parameters and the result of a function, and those of the functions that it can
reach, have types of values. -/
structure Types.Proper (Γ : Types) : Prop where
  params : ∀ ty ∈ Γ.params, ty.Proper
  result : Γ.result.Proper
  functions : ∀ f ∈ Γ.program.functions, f.Proper

variable {Γ : Types} {s : Setting}

/-! ### Calls -/

/-- Arguments that fit a signature without further arguments have the depths of its
parameters. -/
theorem depths_of_params {signature : Signature} {ts : List Term} (hrest : signature.rest = none)
    (hproper : ∀ ty ∈ signature.params, ty.Proper) (hts : ∀ t ∈ ts, t.ty.Proper)
    (haccepts : signature.accepts ts.length = true)
    (hfit : ∀ i t, ts[i]? = some t → (signature.param? i).any t.ty.compatible = true) :
    ts.map (fun t => t.ty.depth) = signature.params.map Ty.depth := by
  have hlength : ts.length = signature.params.length := by
    simpa [Signature.accepts, hrest] using haccepts
  apply List.ext_getElem?
  intro i
  rw [List.getElem?_map, List.getElem?_map]
  cases ht : ts[i]? with
  | none =>
    rw [List.getElem?_eq_none (hlength ▸ List.getElem?_eq_none_iff.mp ht)]
    rfl
  | some t =>
    have hlt : i < signature.params.length := hlength ▸ (List.getElem?_eq_some_iff.mp ht).1
    have hparam : signature.params[i]? = some (signature.params[i]) := List.getElem?_eq_getElem hlt
    have hcompatible : t.ty.compatible signature.params[i] = true := by
      simpa [Signature.param?, hparam] using hfit i t ht
    have hdepth := (hts t (List.mem_of_getElem? ht)).depth_eq
      (hproper _ (List.getElem_mem hlt)) hcompatible
    simp [hparam, hdepth]

/-- Arguments that fit the signature of a builtin have depths that it takes. -/
theorem takes_of_signature {b : Builtin} {ts : List Term} (hts : ∀ t ∈ ts, t.ty.Proper)
    (haccepts : b.signature.accepts ts.length = true)
    (hfit : ∀ i t, ts[i]? = some t → (b.signature.param? i).any t.ty.compatible = true) :
    b.Takes (ts.map fun t => t.ty.depth) := by
  unfold Builtin.Takes
  unfold Builtin.signature at haccepts hfit
  generalize b.form = form at haccepts hfit ⊢
  cases form with
  | unary f =>
    dsimp only [Builtin.Form.params] at haccepts hfit
    exact depths_of_params rfl (by simp [Ty.proper_number]) hts haccepts hfit
  | binary f =>
    dsimp only [Builtin.Form.params] at haccepts hfit
    exact depths_of_params rfl (by simp [Ty.proper_number]) hts haccepts hfit
  | fold f =>
    dsimp only [Builtin.Form.params] at haccepts hfit
    refine ⟨?_, ?_⟩
    · rintro hnil
      simp [List.map_eq_nil_iff.mp hnil, Signature.accepts] at haccepts
    · intro k hk
      obtain ⟨t, ht, rfl⟩ := List.mem_map.mp hk
      obtain ⟨i, hi⟩ := List.mem_iff_getElem?.mp ht
      -- The first argument and all further ones are asked to be numbers.
      have hparam : (Signature.mk [.number] (some .number) (some .number) none).param? i
          = some .number := by
        cases i <;> rfl
      have hcompatible := hfit i t hi
      rw [hparam] at hcompatible
      exact (hts t ht).depth_eq Ty.proper_number hcompatible
  | size =>
    dsimp only [Builtin.Form.params] at haccepts hfit
    have hone : ts.length = 1 := by
      simpa [Signature.accepts] using haccepts
    obtain ⟨t, rfl⟩ := List.length_eq_one_iff.mp hone
    obtain ⟨k, hk⟩ := (hts t (List.mem_singleton_self t)).depth_of_anyArray (hfit 0 t rfl)
    exact ⟨k, by simp [hk]⟩

/-- A callee is reached with arguments as deep as its signature asks for, and its result has a type
of values. -/
theorem reaches_depths {callee : Callee} {signature : Signature} {result : Ty} {ts : List Term}
    (hΓ : Γ.Proper) (hreaches : Γ.Reaches callee signature result) (hts : ∀ t ∈ ts, t.ty.Proper)
    (haccepts : signature.accepts ts.length = true)
    (hfit : ∀ i t, ts[i]? = some t → (signature.param? i).any t.ty.compatible = true) :
    result.Proper ∧ Γ.depths.Reaches callee (ts.map fun t => t.ty.depth) result.depth := by
  cases callee with
  | builtin b =>
    obtain ⟨rfl, rfl⟩ := hreaches
    exact ⟨Ty.proper_number, takes_of_signature hts haccepts hfit, rfl⟩
  | user index =>
    obtain ⟨f, hf, rfl, rfl⟩ := hreaches
    obtain ⟨hparams, hresult⟩ := hΓ.functions f (List.mem_of_getElem? hf)
    exact ⟨hresult, f, hf, depths_of_params rfl hparams hts haccepts hfit, rfl⟩
  | self =>
    obtain ⟨hparams, hrest, rfl⟩ := hreaches
    refine ⟨hΓ.result, ?_, rfl⟩
    have hproper := hΓ.params
    rw [← hparams] at hproper
    rw [depths_of_params hrest hproper hts haccepts hfit, hparams]
    rfl

/-! ### Terms and steps -/

/-- Terms of the type of numbers have the depth of numbers. -/
theorem deep_of_numbers {ts : List Term} (hnumbers : ∀ t ∈ ts, t.ty = .number)
    (hdeep : ∀ t ∈ ts, t.ty.Proper ∧ Deep Γ.depths t t.ty.depth) :
    ∀ t ∈ ts, Deep Γ.depths t 0 := by
  intro t ht
  have hdepth := (hdeep t ht).2
  rw [hnumbers t ht] at hdepth
  exact hdepth

/-- A slot is as deep as its type: as what the indices leave of it, and the indices. -/
theorem slots_depths {slot count : Nat} {ty : Ty} (hslot : Γ.slots[slot]? = some ty)
    (hle : count ≤ ty.rank.length) :
    Γ.depths.slots[slot]? = some ((Ty.ofRank (ty.rank.drop count)).depth + count) := by
  rw [Ty.depth_ofRank, List.length_drop, Nat.sub_add_cancel hle]
  simp [Types.depths, hslot, Ty.depth]

/-- A typed term has the depth of its type, and that is a type of values. -/
theorem deep_of_typed {t : Term} (hΓ : Γ.Proper) (ht : Typed Γ t) :
    t.ty.Proper ∧ Deep Γ.depths t t.ty.depth := by
  induction ht with
  | number => exact ⟨Ty.proper_number, .number⟩
  | @newArray offset sizes _ hne _ hnumbers ih =>
    have hlength : sizes.length ≠ 0 := fun hzero => hne (List.length_eq_zero_iff.mp hzero)
    refine ⟨Ty.proper_dynamicArray hlength, ?_⟩
    rw [Term.ty, Ty.depth_dynamicArray]
    exact .newArray (deep_of_numbers hnumbers ih)
  | @list first rest _ _ hcompatible ihfirst ihrest =>
    refine ⟨rfl, .list ?_⟩
    intro x hx
    rcases List.mem_cons.mp hx with rfl | hx
    · exact ihfirst.2
    · -- An element that is compatible with the first one is as deep.
      obtain ⟨hproper, hdeep⟩ := ihrest x hx
      rw [← Ty.depth, ← hproper.depth_eq ihfirst.1 (hcompatible x hx)]
      exact hdeep
  | slot hslot hle _ hnumbers ih =>
    exact ⟨Ty.proper_ofRank _, .slot (slots_depths hslot hle) (deep_of_numbers hnumbers ih)⟩
  | @call offset name callee signature result args hreaches haccepts hfit _ ih =>
    obtain ⟨hproper, hdepths⟩ :=
      reaches_depths hΓ hreaches (fun u hu => (ih u hu).1) haccepts hfit
    refine ⟨hproper, .call hdepths (by simp) ?_⟩
    -- An argument is paired with its own depth.
    intro pair hpair
    rw [List.zip_map_right, List.mem_map] at hpair
    obtain ⟨⟨u, u'⟩, hmem, rfl⟩ := hpair
    obtain ⟨i, hi⟩ := List.mem_iff_getElem?.mp hmem
    obtain ⟨hu, hu'⟩ := List.getElem?_zip_eq_some.mp hi
    obtain rfl : u = u' := Option.some.inj (hu.symm.trans hu')
    exact (ih u (List.mem_of_getElem? hu)).2
  | unary _ hty ih =>
    rw [hty] at ih
    exact ⟨Ty.proper_number, .unary ih.2⟩
  | binary _ hleft _ hright ihleft ihright =>
    rw [hleft] at ihleft
    rw [hright] at ihright
    exact ⟨Ty.proper_number, .binary ihleft.2 ihright.2⟩

/-- A well typed step is sound. -/
theorem sound_of_wellTyped {step : Step} (hΓ : Γ.Proper) (hstep : WellTyped Γ step) :
    Sound Γ.depths step := by
  induction hstep with
  | branch hcondition hty _ _ ihpass ihfail =>
    have hdeep := (deep_of_typed hΓ hcondition).2
    rw [hty] at hdeep
    exact .branch hdeep ihpass ihfail
  | assign hslot hle hindices hnumbers hvalue hcompatible =>
    obtain ⟨hproper, hdeep⟩ := deep_of_typed hΓ hvalue
    rw [hproper.depth_eq (Ty.proper_ofRank _) hcompatible] at hdeep
    exact .assign (slots_depths hslot hle)
      (deep_of_numbers hnumbers fun t ht => deep_of_typed hΓ (hindices t ht)) hdeep
  | ret hvalue hcompatible =>
    obtain ⟨hproper, hdeep⟩ := deep_of_typed hΓ hvalue
    rw [hproper.depth_eq hΓ.result hcompatible] at hdeep
    exact .ret hdeep

mutual

/-- A statement that returns on every path has code that does. -/
theorem returns_of_step :
    ∀ (stmt : Stmt) {ends : Bool} {d d' : Draft} {step : Step},
      s.step ends stmt d = .ok (step, d') → stmt.alwaysReturns = true → returns step = true
  | .branch _ condition pass none, ends, d, d', step, h, hreturns => nomatch hreturns
  | .branch _ condition pass (some fail), ends, d, d', step, h, hreturns => by
    obtain ⟨t, d₁, c, p, d₂, f, -, -, -, hp, hf, rfl⟩ := Setting.step_branch_ok.mp h
    rw [Setting.stepsOption_some] at hf
    simp only [Stmt.alwaysReturns, Bool.and_eq_true] at hreturns
    simp only [returns, Bool.and_eq_true]
    exact ⟨returnsAll_of_steps pass hp hreturns.1, returnsAll_of_steps fail hf hreturns.2⟩
  | .assign _ target value, ends, d, d', step, h, hreturns => nomatch hreturns
  | .update _ op target value, ends, d, d', step, h, hreturns => nomatch hreturns
  | .ret _ value, ends, d, d', step, h, hreturns => by
    obtain ⟨-, t, d₁, -, rfl, -⟩ := Setting.step_ret_ok.mp h
    rfl

/-- Companion for a block. -/
theorem returnsAll_of_steps :
    ∀ (block : List Stmt) {d d' : Draft} {steps : List Step},
      s.steps block d = .ok (steps, d') → Stmt.bodyReturns block = true → returnsAll steps = true
  | [], d, d', steps, h, hreturns => nomatch hreturns
  | [stmt], d, d', steps, h, hreturns => by
    obtain ⟨first, d₁, others, hfirst, -, rfl⟩ := Setting.steps_cons_ok.mp h
    simp [returnsAll, returns_of_step stmt hfirst hreturns]
  | stmt :: next :: rest, d, d', steps, h, hreturns => by
    obtain ⟨first, d₁, others, -, hothers, rfl⟩ := Setting.steps_cons_ok.mp h
    simp [returnsAll, returnsAll_of_steps (next :: rest) hothers hreturns]

end

end Code

/-! ### Functions -/

/-- Whether a function's code fits its types: it returns on every path, and it is sound in a frame
that starts with the parameters. -/
def Function.Sound (p : Program) (f : Function) : Prop :=
  Code.returnsAll f.body = true ∧ ∃ slots : List Nat, slots.length = f.slots ∧
    f.params.map Ty.depth <+: slots ∧
    ∀ step ∈ f.body, Code.Sound ⟨p, f.params.map Ty.depth, f.result.depth, slots⟩ step

namespace Program

variable {p q : Program} {file : String} {decl : Decl} {decls : List Decl} {f : Function}

/-- A function that fits types of values has such types. -/
theorem proper_of_typed {dims : Dim → Prop} (h : f.Typed p dims) : f.Proper := by
  obtain ⟨slots, -, hparams, hslots, hresult, -⟩ := h
  exact ⟨fun ty hty => (hslots ty (hparams.subset hty)).1, hresult.1⟩

/-- Code that returns on every path is what a declaration that does becomes. -/
theorem returns_of_analyse (h : q.analyse file decl = .ok f) : Code.returnsAll f.body = true := by
  obtain ⟨d₀, d, body, result, -, hbody, -, hreturns, rfl⟩ :=
    analyseDecl_ok.mp (analyse_ok.mp h).2.2
  exact Code.returnsAll_of_steps decl.body hbody hreturns

/-- Every function of a program whose array constructors have sizes fits the types that its
variables have when analysis ends, and whatever its code refers to has a type of values. -/
theorem Built.fits_values (h : Built file decls p) (hsized : ∀ decl ∈ decls, decl.sized = true)
    {index : Nat} (hf : p.functions[index]? = some f) :
    ∃ decl d, decls[index]? = some decl ∧ (p.before index).analyseBody decl = .ok (f.body, d) ∧
      f.Fits p (fun _ => True) d.scope.types ∧
      (f.types p (fun _ => True) d.scope.types).Proper := by
  have hdims : ∀ decl ∈ decls, decl.MadeOf fun _ => True := fun _ _ _ _ _ _ => trivial
  have hproper : ∀ g ∈ p.functions, g.Proper := by
    intro g hg
    obtain ⟨place, hplace⟩ := List.mem_iff_getElem?.mp hg
    exact proper_of_typed
      (h.typed hsized (.inl trivial) (fun _ => trivial) hdims place g hplace)
  obtain ⟨decl, d, hdecl, hbody, hfits⟩ :=
    h.fits hsized (.inl trivial) (fun _ => trivial) hdims index f hf
  obtain ⟨hparams, hresult⟩ := hproper f (List.mem_of_getElem? hf)
  exact ⟨decl, d, hdecl, hbody, hfits, hparams, hresult, hproper⟩

/-- Every function of a program whose array constructors have sizes fits its depths. -/
theorem Built.sound (h : Built file decls p) (hsized : ∀ decl ∈ decls, decl.sized = true) :
    ∀ (index : Nat) (f : Function), p.functions[index]? = some f → f.Proper ∧ f.Sound p := by
  intro index f hf
  obtain ⟨decl, -, hanalyse⟩ := h.exists_decl hf
  obtain ⟨-, d, -, -, ⟨hlength, hparams, -, -, hbody⟩, hΓ⟩ := h.fits_values hsized hf
  exact ⟨⟨hΓ.params, hΓ.result⟩, returns_of_analyse hanalyse, d.scope.types.map Ty.depth,
    by simp [hlength], hparams.map _,
    fun step hstep => Code.sound_of_wellTyped hΓ (hbody step hstep)⟩

end Program

/-- Every function of the program of a text fits its types. -/
theorem Function.sound_of_compile {source : Source} {p : Program} {f : Function}
    (h : source.compile = .ok p) (hf : f ∈ p.functions) : f.Proper ∧ f.Sound p := by
  obtain ⟨decls, hdecls, hbuilt⟩ := Source.built_of_compile h
  obtain ⟨index, hindex⟩ := List.mem_iff_getElem?.mp hf
  exact hbuilt.sound (Source.sized_decls hdecls) index f hindex

end ArrayScript
