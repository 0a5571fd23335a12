import ArrayScript.Proofs.Lowering

/-!
# `ArrayScript.Proofs.Loosening`: sizes in parameters can be left out

A parameter may say how long an array has to be. This module proves that leaving such sizes out
takes nothing away: the declarations are still accepted, results have the same types up to sizes
that are no longer known, complexities do not change, and every call that was possible has the same
outcome as before (`Program.loosens_ofDecls`).

A type `Loosens` to another when some known sizes are left open in the second. Compatibility of
types is neither symmetric nor transitive, but it is kept when both sides are loosened
(`Ty.Loosens.compatible`), and that is the one thing that analysis asks of types. So every test that
a body passes it passes again with looser types around it, whichever types the first assignments
and the first return have fixed: `Setting.Loosens.exists_term` and `Setting.Loosens.exists_step`
follow analysis form by form, and `Program.Built.exists_loosens` declaration by declaration.

The outcome of calls needs no argument about types. A declaration and a looser one differ in nothing
that the reference evaluator reads (`Reference.call_eq_of_loosens`).
-/

set_option autoImplicit false

namespace ArrayScript

open Code (Term Step)

/-! ### Related lists and options -/

section Related

variable {α : Type} {R : α → α → Prop} {a b : Option α}

/-- What is related to something is there. -/
theorem exists_of_rel_some (h : Option.Rel R a b) {x : α} (hx : a = some x) :
    ∃ y, b = some y ∧ R x y := by
  subst hx
  cases h with
  | some hxy => exact ⟨_, rfl, hxy⟩

/-- What is related to nothing is not there. -/
theorem eq_none_of_rel_none (h : Option.Rel R a b) (ha : a = none) : b = none := by
  subst ha
  cases h with
  | none => rfl

/-- Related lists have related elements at every place. -/
theorem rel_getElem? {l l' : List α} (h : List.Forall₂ R l l') :
    ∀ index : Nat, Option.Rel R l[index]? l'[index]? := by
  induction h with
  | nil => exact fun _ => .none
  | cons hab _ ih =>
    intro index
    cases index with
    | zero => exact .some hab
    | succ index => exact ih index

/-- Related lists agree on whatever related elements agree on. -/
theorem map_eq_of_forall₂ {β : Type} {g : α → β} (hg : ∀ {x y : α}, R x y → g y = g x)
    {l l' : List α} (h : List.Forall₂ R l l') : l'.map g = l.map g := by
  induction h with
  | nil => rfl
  | cons hab _ ih => rw [List.map_cons, List.map_cons, hg hab, ih]

end Related

/-! ### Types -/

/-- Whether a marker is the same as before, or open now. -/
def Dim.Loosens (dim dim' : Dim) : Prop :=
  dim' = dim ∨ dim' = .dynamic

/-- Whether a type of values is the same as before up to sizes that are open now. -/
inductive Ty.Loosens : Ty → Ty → Prop
  | number : Loosens .number .number
  | array {rank rank' : List Dim} : List.Forall₂ Dim.Loosens rank rank' →
      Loosens (.array rank) (.array rank')

namespace Dim.Loosens

/-- Markers that do not contradict each other do not when some sizes are left open. -/
theorem compatible {a a' e e' : Dim} (ha : a.Loosens a') (he : e.Loosens e')
    (h : a.compatible e = true) : a'.compatible e' = true := by
  rcases ha with rfl | rfl
  · rcases he with rfl | rfl
    · exact h
    · cases a' <;> rfl
  · rfl

/-- The same for lists of markers. -/
theorem all_compatible {actual actual' : List Dim}
    (ha : List.Forall₂ Dim.Loosens actual actual') :
    ∀ {expected expected' : List Dim}, List.Forall₂ Dim.Loosens expected expected' →
      ((actual.zip expected).all fun (a, e) => a.compatible e) = true →
      ((actual'.zip expected').all fun (a, e) => a.compatible e) = true := by
  induction ha with
  | nil => exact fun _ _ => rfl
  | cons hdim _ ih =>
    intro expected expected' he h
    cases he with
    | nil => rfl
    | cons hdim' hdims' =>
      simp only [List.zip_cons_cons, List.all_cons, Bool.and_eq_true] at h ⊢
      exact ⟨hdim.compatible hdim' h.1, ih hdims' h.2⟩

end Dim.Loosens

namespace Ty.Loosens

variable {a a' e e' ty ty' : Ty}

/-- A type of values loosens to itself. -/
theorem refl (h : ty.ofValue = true) : ty.Loosens ty := by
  cases ty with
  | number => exact .number
  | array rank => exact .array (List.forall₂_same.mpr fun _ _ => .inl rfl)
  | function params rest result score => cases h

/-- Looser types have looser markers. -/
theorem rank (h : ty.Loosens ty') : List.Forall₂ Dim.Loosens ty.rank ty'.rank := by
  cases h with
  | number => exact .nil
  | array hrank => exact hrank

/-- Looser markers make looser types. -/
theorem ofRank {rank rank' : List Dim} (h : List.Forall₂ Dim.Loosens rank rank') :
    (Ty.ofRank rank).Loosens (.ofRank rank') := by
  cases h with
  | nil => exact .number
  | cons hdim hdims => exact .array (.cons hdim hdims)

/-- What a type leaves behind some indices is loosened with it. -/
theorem ofRank_drop (h : ty.Loosens ty') (count : Nat) :
    (Ty.ofRank (ty.rank.drop count)).Loosens (.ofRank (ty'.rank.drop count)) :=
  ofRank (List.forall₂_drop count h.rank)

/-- A looser type has as many dimensions. -/
theorem length_rank (h : ty.Loosens ty') : ty'.rank.length = ty.rank.length :=
  h.rank.length_eq.symm

/-- A looser type is a type of values. -/
theorem ofValue (h : ty.Loosens ty') : ty'.ofValue = true := by
  cases h <;> rfl

/-- The type of numbers has no sizes to leave open. -/
theorem eq_number (h : ty.Loosens ty') (hty : ty = .number) : ty' = .number := by
  subst hty
  cases h
  rfl

/-- Compatibility is kept when both sides are loosened. -/
theorem compatible (ha : a.Loosens a') (he : e.Loosens e') (h : a.compatible e = true) :
    a'.compatible e' = true := by
  cases ha with
  | number =>
    cases he with
    | number => rfl
    | array _ => cases h
  | @array actual actual' hactual =>
    cases he with
    | number => cases h
    | @array expected expected' hexpected =>
      cases hexpected with
      | nil => cases actual' <;> rfl
      | cons hdim hdims =>
        simp only [Ty.compatible, Bool.and_eq_true, beq_iff_eq] at h ⊢
        refine ⟨?_, Dim.Loosens.all_compatible hactual (.cons hdim hdims) h.2⟩
        rw [← hactual.length_eq, ← (List.Forall₂.cons hdim hdims).length_eq]
        exact h.1

end Ty.Loosens

/-! ### Values -/

namespace Heap

variable {heap : Heap}

/-- A value that has the sizes that markers give has those that looser markers give. -/
theorem conformsToRank_of_loosens {rank rank' : List Dim}
    (h : List.Forall₂ Dim.Loosens rank rank') :
    ∀ {v : Value}, heap.conformsToRank rank v = true → heap.conformsToRank rank' v = true := by
  induction h with
  | nil => exact fun hv => hv
  | @cons dim dim' dims dims' hdim _ ih =>
    intro v hv
    rw [conformsToRank] at hv ⊢
    cases hitems : heap.items? v with
    | none => simp [hitems] at hv
    | some items =>
      simp only [hitems, Bool.and_eq_true, Array.all_eq_true_iff_forall_mem] at hv ⊢
      exact ⟨Dim.Loosens.compatible (.inl rfl) hdim hv.1, fun item hitem => ih (hv.2 item hitem)⟩

/-- A value that has the shape that a type asks for has the one that a looser type asks for. -/
theorem conforms_of_loosens {ty ty' : Ty} (h : ty.Loosens ty') {v : Value}
    (hv : heap.conforms v ty = true) : heap.conforms v ty' = true := by
  cases h with
  | number => exact hv
  | array hrank =>
    cases hrank with
    | nil => exact hv
    | cons hdim hdims => exact conformsToRank_of_loosens (.cons hdim hdims) hv

end Heap

/-! ### Functions and programs -/

/-- Whether what is known about a function from outside is the same as before up to sizes. -/
structure Signature.Loosens (s s' : Signature) : Prop where
  params : List.Forall₂ Ty.Loosens s.params s'.params
  rest : Option.Rel Ty.Loosens s.rest s'.rest
  result : Option.Rel Ty.Loosens s.result s'.result
  score : s'.score = s.score

namespace Signature.Loosens

variable {s s' : Signature}

/-- A looser signature accepts as many arguments. -/
theorem accepts_eq (h : s.Loosens s') (count : Nat) : s'.accepts count = s.accepts count := by
  have hrest : s'.rest.isSome = s.rest.isSome := by
    cases hr : s.rest with
    | none => rw [eq_none_of_rel_none h.rest hr]
    | some ty =>
      obtain ⟨ty', hr', -⟩ := exists_of_rel_some h.rest hr
      rw [hr']
      rfl
  rw [accepts, accepts, hrest, h.params.length_eq]

/-- A looser signature asks for a looser type at each place. -/
theorem exists_param? (h : s.Loosens s') {index : Nat} {ty : Ty} (hty : s.param? index = some ty) :
    ∃ ty', s'.param? index = some ty' ∧ ty.Loosens ty' := by
  have hplace := rel_getElem? h.params index
  unfold param? at hty ⊢
  cases hparam : s.params[index]? with
  | some param =>
    obtain ⟨param', hparam', hloosens⟩ := exists_of_rel_some hplace hparam
    rw [hparam, Option.some_or, Option.some.injEq] at hty
    exact ⟨param', by rw [hparam', Option.some_or], hty ▸ hloosens⟩
  | none =>
    rw [hparam, Option.none_or] at hty
    rw [eq_none_of_rel_none hplace hparam, Option.none_or]
    exact exists_of_rel_some h.rest hty

/-- An argument that fits its parameter fits when both are loosened. -/
theorem argumentTest (h : s.Loosens s') {name : String} {index : Nat} {e : Expr} {ty ty' : Ty}
    (hty : ty.Loosens ty') (htest : Setting.argumentTest name s index e ty = none) :
    Setting.argumentTest name s' index e ty' = none := by
  rw [Setting.argumentTest_eq_none] at htest ⊢
  cases hparam : s.param? index with
  | none =>
    rw [hparam] at htest
    cases htest
  | some param =>
    obtain ⟨param', hparam', hloosens⟩ := h.exists_param? hparam
    rw [hparam] at htest
    rw [hparam']
    exact hty.compatible hloosens htest

end Signature.Loosens

/-- A builtin asks for no sizes, so its signature loosens to itself. -/
theorem Builtin.loosens_signature (b : Builtin) : b.signature.Loosens b.signature := by
  unfold signature
  cases b.form with
  | unary f => exact ⟨.cons .number .nil, .none, .some .number, rfl⟩
  | binary f => exact ⟨.cons .number (.cons .number .nil), .none, .some .number, rfl⟩
  | fold f => exact ⟨.cons .number .nil, .some .number, .some .number, rfl⟩
  | size => exact ⟨.cons (.array .nil) .nil, .none, .some .number, rfl⟩

/-- Whether two functions differ in what is known about sizes only. Their code may differ. -/
structure Function.Loosens (f f' : Function) : Prop where
  name : f'.name = f.name
  params : List.Forall₂ Ty.Loosens f.params f'.params
  result : f.result.Loosens f'.result
  complexity : f'.complexity = f.complexity

/-- Looser functions have looser signatures. -/
theorem Function.Loosens.signature {f f' : Function} (h : f.Loosens f') :
    f.signature.Loosens f'.signature where
  params := h.params
  rest := .none
  result := .some h.result
  score := by rw [Function.signature, Function.signature, h.complexity]

/-- Whether two programs have the same functions up to sizes, and the same names for them. -/
structure Program.Loosens (p p' : Program) : Prop where
  functions : List.Forall₂ Function.Loosens p.functions p'.functions
  places : p'.places = p.places

namespace Program.Loosens

variable {p p' : Program}

/-- The names that are taken are the same. -/
theorem contains_eq (h : p.Loosens p') (name : String) : p'.contains name = p.contains name := by
  rw [contains, contains, Table.contains, Table.contains, h.places]

/-- A program with one more function is looser if the function is. -/
theorem append (h : p.Loosens p') {f f' : Function} (hf : f.Loosens f') :
    (p.append f).Loosens (p'.append f') where
  functions := List.rel_append h.functions (.cons hf .nil)
  places := by
    rw [Program.places_append, Program.places_append, hf.name, h.functions.length_eq, h.places]

end Program.Loosens

/-- Whether two entries are the same builtin, or functions at the same place that differ in sizes
only. -/
inductive Entry.Loosens : Entry → Entry → Prop
  | builtin (b : Builtin) : Loosens (.builtin b) (.builtin b)
  | user {index : Nat} {f f' : Function} : f.Loosens f' →
      Loosens (.user index f) (.user index f')

/-- A name means the same in a looser program, up to sizes. -/
theorem Program.Loosens.entry? {p p' : Program} (h : p.Loosens p') (name : String) :
    Option.Rel Entry.Loosens (p.entry? name) (p'.entry? name) := by
  unfold Program.entry? Program.find?
  rw [h.places]
  cases Builtin.find? name with
  | some b => exact .some (.builtin b)
  | none =>
    cases p.places.lookup name with
    | none => exact .none
    | some index =>
      have hplace := rel_getElem? h.functions index
      simp only [Option.bind_eq_bind, Option.bind_some]
      cases hf : p.functions[index]? with
      | none =>
        rw [eq_none_of_rel_none hplace hf]
        exact .none
      | some f =>
        obtain ⟨f', hf', hloosens⟩ := exists_of_rel_some hplace hf
        rw [hf']
        exact .some (.user hloosens)

/-! ### Drafts -/

/-- Whether two variables differ in what is known about sizes only. -/
structure Variable.Loosens (v v' : Variable) : Prop where
  name : v'.name = v.name
  ty : v.ty.Loosens v'.ty

/-- In looser scopes a name stands for a looser variable, or for none in both. -/
theorem Scope.rel_find? {s s' : Scope}
    (h : List.Forall₂ Variable.Loosens s.entries s'.entries) (name : String) :
    Option.Rel Variable.Loosens (s.find? name) (s'.find? name) := by
  obtain ⟨vs⟩ := s
  obtain ⟨vs'⟩ := s'
  unfold find?
  dsimp only at h ⊢
  induction h with
  | nil => exact .none
  | @cons v v' _ _ hv _ ih =>
    rw [List.find?_cons, List.find?_cons, hv.name]
    cases v.name == name with
    | true => exact .some hv
    | false => exact ih

/-- Whether analysis knows the same at two points, up to sizes. -/
structure Draft.Loosens (d d' : Draft) : Prop where
  entries : List.Forall₂ Variable.Loosens d.scope.entries d'.scope.entries
  result : Option.Rel Ty.Loosens d.result d'.result
  complexity : d'.complexity = d.complexity

namespace Draft.Loosens

variable {d d' d₁ : Draft} {name : String}

/-- Variables that are declared with looser types are looser. -/
theorem declare (h : d.Loosens d') {ty ty' : Ty} (hty : ty.Loosens ty') (name : String) :
    Loosens { d with scope := d.scope.declare (d.scope.fresh name ty) }
      { d' with scope := d'.scope.declare (d'.scope.fresh name ty') } :=
  { h with entries := .cons ⟨rfl, hty⟩ h.entries }

/-- Counting the same keeps drafts related. -/
theorem count (h : d.Loosens d') (c : Complexity) :
    Loosens { d with complexity := c } { d' with complexity := c } :=
  { h with complexity := rfl }

/-- The same calls can be counted. -/
theorem exists_afterCall (h : d.Loosens d') {score : Option Nat}
    (hcall : d.AfterCall name score d₁) : ∃ d₁', d'.AfterCall name score d₁' ∧ d₁.Loosens d₁' := by
  cases score with
  | none =>
    obtain rfl : d₁ = d := hcall
    exact ⟨d', rfl, h⟩
  | some score =>
    obtain ⟨c, hc, rfl⟩ := hcall
    exact ⟨{ d' with complexity := c }, ⟨c, by rw [h.complexity]; exact hc, rfl⟩, h.count c⟩

end Draft.Loosens

/-- Whether two functions are analysed in settings that differ in sizes only. -/
structure Setting.Loosens (s s' : Setting) : Prop where
  program : s.program.Loosens s'.program
  name : s'.name = s.name
  params : List.Forall₂ Ty.Loosens s.params s'.params

namespace Setting.Loosens

variable {s s' : Setting} {d d' d₁ : Draft}

/-- A call that has a target has a looser one. -/
theorem exists_target (hs : s.Loosens s') (hd : d.Loosens d') {name : String}
    {target : CallTarget} (h : s.target d name = .ok target) :
    ∃ target', s'.target d' name = .ok target' ∧
      target.signature.Loosens target'.signature := by
  unfold Setting.target at h ⊢
  rw [hs.name]
  -- A call of itself depends on the result so far, any other call on the program.
  by_cases hname : name = s.name
  · rw [if_pos hname] at h ⊢
    cases hr : d.result with
    | none => simp [hr] at h
    | some result =>
      obtain ⟨result', hr', -⟩ := exists_of_rel_some hd.result hr
      rw [hr] at h
      cases h
      rw [hr']
      exact ⟨_, rfl, ⟨hs.params, .none, hd.result, rfl⟩⟩
  · rw [if_neg hname] at h ⊢
    cases hentry : s.program.entry? name with
    | none =>
      simp only [hentry] at h
      split at h
      · cases h
      · cases h
    | some entry =>
      obtain ⟨entry', hentry', hloosens⟩ := exists_of_rel_some (hs.program.entry? name) hentry
      rw [hentry] at h
      rw [hentry']
      cases hloosens with
      | builtin b =>
        cases h
        exact ⟨_, rfl, b.loosens_signature⟩
      | user hf =>
        cases h
        exact ⟨_, rfl, hf.signature⟩

/-! ### Analysis -/

mutual

/-- What is accepted as an expression is accepted with looser types around it, and has a looser
type. -/
theorem exists_term (hs : s.Loosens s') :
    ∀ (e : Expr) {d d₁ d' : Draft} {t : Term}, s.term e d = .ok (t, d₁) → d.Loosens d' →
      ∃ t' d₁', s'.term e d' = .ok (t', d₁') ∧ t.ty.Loosens t'.ty ∧ d₁.Loosens d₁'
  | .number _ value, d, d₁, d', t, h, hd => by
    obtain ⟨rfl, rfl⟩ := term_number_ok.mp h
    exact ⟨.number value, d', term_number_ok.mpr ⟨rfl, rfl⟩, .number, hd⟩
  | .newArray span sizes, d, d₁, d', t, h, hd => by
    obtain ⟨ts, hts, rfl⟩ := term_newArray_ok.mp h
    obtain ⟨ts', d₁', hts', hd₁⟩ := exists_terms hs sizes hts hd fun hty htest =>
      sizeTest_eq_none.mpr (hty.eq_number (sizeTest_eq_none.mp htest))
    refine ⟨_, d₁', term_newArray_ok.mpr ⟨ts', hts', rfl⟩, ?_, hd₁⟩
    -- Both arrays have as many dimensions as there are sizes.
    have hlength : ts'.length = ts.length :=
      (terms_passed sizes hts').1.trans (terms_passed sizes hts).1.symm
    show (Ty.dynamicArray ts.length).Loosens (.dynamicArray ts'.length)
    rw [hlength]
    exact .refl rfl
  | .list _ [], d, d₁, d', t, h, hd => (term_list_nil_ok.mp h).elim
  | .list _ (first :: rest), d, d₁, d', t, h, hd => by
    obtain ⟨u, d₂, us, hu, hus, rfl⟩ := term_list_ok.mp h
    obtain ⟨u', d₂', hu', huty, hd₂⟩ := exists_term hs first hu hd
    obtain ⟨us', d₁', hus', hd₁⟩ := exists_terms hs rest hus hd₂ fun hty htest =>
      elementTest_eq_none.mpr (hty.compatible huty (elementTest_eq_none.mp htest))
    refine ⟨_, d₁', term_list_ok.mpr ⟨u', d₂', us', hu', hus', rfl⟩, ?_, hd₁⟩
    have hlength : us'.length = us.length :=
      (terms_passed rest hus').1.trans (terms_passed rest hus).1.symm
    show Ty.Loosens (.array (.fixed (us.length + 1) :: u.ty.rank))
      (.array (.fixed (us'.length + 1) :: u'.ty.rank))
    rw [hlength]
    exact .array (.cons (.inl rfl) huty.rank)
  | .var _ name indices, d, d₁, d', t, h, hd => by
    obtain ⟨v, ts, hv, -, hts, hle, rfl⟩ := term_var_ok.mp h
    obtain ⟨v', hv', hloosens⟩ := exists_of_rel_some (Scope.rel_find? hd.entries name) hv
    obtain ⟨ts', d₁', hts', hd₁⟩ := exists_terms hs indices hts hd fun hty htest =>
      indexTest_eq_none.mpr (hty.eq_number (indexTest_eq_none.mp htest))
    refine ⟨_, d₁', term_var_ok.mpr ⟨v', ts', hv', hloosens.ty.ofValue, hts', ?_, rfl⟩, ?_, hd₁⟩
    · -- Sizes are left open, not dimensions, so there is room for the indices.
      rw [hloosens.ty.length_rank]
      exact hle
    · exact hloosens.ty.ofRank_drop indices.length
  | .call _ name args, d, d₁, d', t, h, hd => by
    obtain ⟨target, result, ts, d₂, htarget, hresult, haccepts, hts, hcall, rfl⟩ :=
      term_call_ok.mp h
    obtain ⟨target', htarget', hloosens⟩ := hs.exists_target hd htarget
    obtain ⟨result', hresult', hty⟩ := exists_of_rel_some hloosens.result hresult
    obtain ⟨ts', d₂', hts', hd₂⟩ := exists_terms hs args hts hd fun hty htest =>
      hloosens.argumentTest hty htest
    -- The callee counts as much as before.
    obtain ⟨d₁', hcall', hd₁⟩ := hd₂.exists_afterCall hcall
    rw [← hloosens.score] at hcall'
    rw [← hloosens.accepts_eq] at haccepts
    exact ⟨_, d₁', term_call_ok.mpr
      ⟨target', result', ts', d₂', htarget', hresult', haccepts, hts', hcall', rfl⟩, hty, hd₁⟩
  | .unary _ _ operand, d, d₁, d', t, h, hd => by
    obtain ⟨u, hu, huty, rfl⟩ := term_unary_ok.mp h
    obtain ⟨u', d₁', hu', hloosens, hd₁⟩ := exists_term hs operand hu hd
    exact ⟨_, d₁', term_unary_ok.mpr ⟨u', hu', hloosens.eq_number huty, rfl⟩, .number, hd₁⟩
  | .binary _ _ left right, d, d₁, d', t, h, hd => by
    obtain ⟨u, d₂, w, hu, huty, hw, hwty, rfl⟩ := term_binary_ok.mp h
    obtain ⟨u', d₂', hu', huloosens, hd₂⟩ := exists_term hs left hu hd
    obtain ⟨w', d₁', hw', hwloosens, hd₁⟩ := exists_term hs right hw hd₂
    exact ⟨_, d₁', term_binary_ok.mpr ⟨u', d₂', w', hu', huloosens.eq_number huty, hw',
      hwloosens.eq_number hwty, rfl⟩, .number, hd₁⟩

/-- Companion for several expressions, when looser types pass the test that the types passed. -/
theorem exists_terms (hs : s.Loosens s') :
    ∀ (es : List Expr) {test test' : Test} {index : Nat} {d d₁ d' : Draft} {ts : List Term},
      s.terms test index es d = .ok (ts, d₁) → d.Loosens d' →
      (∀ {i : Nat} {e : Expr} {ty ty' : Ty}, ty.Loosens ty' → test i e ty = none →
        test' i e ty' = none) →
      ∃ ts' d₁', s'.terms test' index es d' = .ok (ts', d₁') ∧ d₁.Loosens d₁'
  | [], test, test', index, d, d₁, d', ts, h, hd, _ => by
    obtain ⟨rfl, rfl⟩ := terms_nil_ok.mp h
    exact ⟨[], d', terms_nil_ok.mpr ⟨rfl, rfl⟩, hd⟩
  | e :: es, test, test', index, d, d₁, d', ts, h, hd, htest => by
    obtain ⟨t, d₂, us, ht, hpassed, hus, rfl⟩ := terms_cons_ok.mp h
    obtain ⟨t', d₂', ht', hty, hd₂⟩ := exists_term hs e ht hd
    obtain ⟨us', d₁', hus', hd₁⟩ := exists_terms hs es hus hd₂ htest
    exact ⟨_, d₁', terms_cons_ok.mpr ⟨t', d₂', us', ht', htest hty hpassed, hus', rfl⟩, hd₁⟩

end

/-- What is accepted as an assignment is accepted with looser types around it. -/
theorem exists_assign (hs : s.Loosens s') {target : Target} {value : Expr} {step : Step}
    (h : s.assign target value d = .ok (step, d₁)) (hd : d.Loosens d') :
    ∃ step' d₁', s'.assign target value d' = .ok (step', d₁') ∧ d₁.Loosens d₁' := by
  obtain ⟨t, d₂, ht, hcases⟩ := assign_ok.mp h
  obtain ⟨t', d₂', ht', hty, hd₂⟩ := hs.exists_term value ht hd
  have hfind := Scope.rel_find? hd₂.entries target.name
  rcases hcases with ⟨hnone, hname, hentry, hindices, rfl, rfl⟩
    | ⟨v, ts, hv, -, hts, hle, hcompatible, rfl⟩
  · -- The name is free in both, and takes the type of the value.
    have hnone' := eq_none_of_rel_none hfind hnone
    have hentry' := eq_none_of_rel_none (hs.program.entry? target.name) hentry
    refine ⟨_, _, assign_ok.mpr ⟨t', d₂', ht', .inl ⟨hnone', ?_, hentry', hindices, rfl, rfl⟩⟩,
      hd₂.declare hty target.name⟩
    rw [hs.name]
    exact hname
  · obtain ⟨v', hv', hloosens⟩ := exists_of_rel_some hfind hv
    obtain ⟨ts', d₁', hts', hd₁⟩ := hs.exists_terms target.indices hts hd₂ fun hty htest =>
      indexTest_eq_none.mpr (hty.eq_number (indexTest_eq_none.mp htest))
    have hleft := hloosens.ty.ofRank_drop target.indices.length
    have hle' : target.indices.length ≤ v'.ty.rank.length := by
      rw [hloosens.ty.length_rank]
      exact hle
    exact ⟨_, d₁', assign_ok.mpr ⟨t', d₂', ht', .inr ⟨v', ts', hv', hloosens.ty.ofValue, hts',
      hle', hty.compatible hleft hcompatible, rfl⟩⟩, hd₁⟩

mutual

/-- What is accepted as a statement is accepted with looser types around it. -/
theorem exists_step (hs : s.Loosens s') :
    ∀ (stmt : Stmt) {last : Bool} {d d₁ d' : Draft} {step : Step},
      s.step last stmt d = .ok (step, d₁) → d.Loosens d' →
      ∃ step' d₁', s'.step last stmt d' = .ok (step', d₁') ∧ d₁.Loosens d₁'
  | .branch _ condition pass fail, last, d, d₁, d', step, h, hd => by
    obtain ⟨t, d₂, c, p, d₃, f, ht, hty, hc, hp, hf, rfl⟩ := step_branch_ok.mp h
    obtain ⟨t', d₂', ht', hloosens, hd₂⟩ := hs.exists_term condition ht hd
    obtain ⟨p', d₃', hp', hd₃⟩ := exists_steps hs pass hp (hd₂.count c)
    obtain ⟨f', d₁', hf', hd₁⟩ := exists_stepsOption hs fail hf hd₃
    -- Types have no part in the count, so the branch is counted on both sides or refused on both.
    rw [← hd₂.complexity] at hc
    exact ⟨_, d₁', step_branch_ok.mpr ⟨t', d₂', c, p', d₃', f', ht', hloosens.eq_number hty, hc,
      hp', hf', rfl⟩, hd₁⟩
  | .assign _ target value, last, d, d₁, d', step, h, hd => by
    rw [step_assign_ok] at h ⊢
    exact hs.exists_assign h hd
  | .update _ op target value, last, d, d₁, d', step, h, hd => by
    rw [step_update_ok] at h ⊢
    exact hs.exists_assign h hd
  | .ret _ value, last, d, d₁, d', step, h, hd => by
    obtain ⟨hlast, t, d₂, ht, rfl, hcases⟩ := step_ret_ok.mp h
    obtain ⟨t', d₂', ht', hty, hd₂⟩ := hs.exists_term value ht hd
    rcases hcases with ⟨hnone, rfl⟩ | ⟨result, hresult, hcompatible, rfl⟩
    · -- The first return fixes a looser result, which the later ones are compared with.
      have hnone' := eq_none_of_rel_none hd₂.result hnone
      exact ⟨_, _, step_ret_ok.mpr ⟨hlast, t', d₂', ht', rfl, .inl ⟨hnone', rfl⟩⟩,
        { hd₂ with result := .some hty }⟩
    · obtain ⟨result', hresult', hloosens⟩ := exists_of_rel_some hd₂.result hresult
      exact ⟨_, d₂', step_ret_ok.mpr ⟨hlast, t', d₂', ht', rfl,
        .inr ⟨result', hresult', hty.compatible hloosens hcompatible, rfl⟩⟩, hd₂⟩

/-- Companion for a block. -/
theorem exists_steps (hs : s.Loosens s') :
    ∀ (block : List Stmt) {d d₁ d' : Draft} {steps : List Step},
      s.steps block d = .ok (steps, d₁) → d.Loosens d' →
      ∃ steps' d₁', s'.steps block d' = .ok (steps', d₁') ∧ d₁.Loosens d₁'
  | [], d, d₁, d', steps, h, hd => by
    obtain ⟨rfl, rfl⟩ := steps_nil_ok.mp h
    exact ⟨[], d', steps_nil_ok.mpr ⟨rfl, rfl⟩, hd⟩
  | stmt :: rest, d, d₁, d', steps, h, hd => by
    obtain ⟨first, d₂, others, hfirst, hothers, rfl⟩ := steps_cons_ok.mp h
    obtain ⟨first', d₂', hfirst', hd₂⟩ := exists_step hs stmt hfirst hd
    obtain ⟨others', d₁', hothers', hd₁⟩ := exists_steps hs rest hothers hd₂
    exact ⟨_, d₁', steps_cons_ok.mpr ⟨first', d₂', others', hfirst', hothers', rfl⟩, hd₁⟩

/-- Companion for a block that may be absent. -/
theorem exists_stepsOption (hs : s.Loosens s') :
    ∀ (block : Option (List Stmt)) {d d₁ d' : Draft} {steps : List Step},
      s.stepsOption block d = .ok (steps, d₁) → d.Loosens d' →
      ∃ steps' d₁', s'.stepsOption block d' = .ok (steps', d₁') ∧ d₁.Loosens d₁'
  | none, d, d₁, d', steps, h, hd => by
    obtain ⟨rfl, rfl⟩ := stepsOption_none_ok.mp h
    exact ⟨[], d', stepsOption_none_ok.mpr ⟨rfl, rfl⟩, hd⟩
  | some block, d, d₁, d', steps, h, hd => by
    rw [stepsOption_some] at h ⊢
    exact exists_steps hs block h hd

end

end Setting.Loosens

/-! ### Declarations -/

/-- Whether a parameter is the same as before up to sizes that are left out now. -/
structure Param.Loosens (param param' : Param) : Prop where
  name : param'.name = param.name
  span : param'.span = param.span
  dims : List.Forall₂ (fun dim dim' => dim' = dim ∨ dim' = none) param.dims param'.dims

/-- Whether a declaration is the same as before up to sizes of parameters that are left out now. -/
structure Decl.Loosens (decl decl' : Decl) : Prop where
  name : decl'.name = decl.name
  params : List.Forall₂ Param.Loosens decl.params decl'.params
  body : decl'.body = decl.body
  span : decl'.span = decl.span

/-- A parameter whose sizes are left out has a looser type. -/
theorem Param.Loosens.ty {param param' : Param} (h : param.Loosens param') :
    (Ty.ofParam param).Loosens (.ofParam param') := by
  refine .ofRank (List.forall₂_map_left_iff.mpr (List.forall₂_map_right_iff.mpr ?_))
  refine h.dims.imp ?_
  rintro dim dim' (rfl | rfl)
  · exact .inl rfl
  · exact .inr rfl

/-- The parameters of a declaration whose sizes are left out have looser types. -/
theorem Decl.Loosens.types {decl decl' : Decl} (h : decl.Loosens decl') :
    List.Forall₂ Ty.Loosens (decl.params.map Ty.ofParam) (decl'.params.map Ty.ofParam) :=
  List.forall₂_map_left_iff.mpr
    (List.forall₂_map_right_iff.mpr (h.params.imp fun _ _ hparam => hparam.ty))

/-- Parameters that can be bound can be bound when sizes are left out. -/
theorem Analysis.exists_bindParams {params params' : List Param}
    (h : List.Forall₂ Param.Loosens params params') :
    ∀ {d d₁ d' : Draft}, bindParams params d = .ok ((), d₁) → d.Loosens d' →
      ∃ d₁', bindParams params' d' = .ok ((), d₁') ∧ d₁.Loosens d₁' := by
  induction h with
  | nil =>
    intro d d₁ d' hbind hd
    cases bindParams_nil_ok.mp hbind
    exact ⟨d', bindParams_nil_ok.mpr rfl, hd⟩
  | @cons param param' _ _ hparam _ ih =>
    intro d d₁ d' hbind hd
    obtain ⟨hnone, hbind⟩ := bindParams_cons_ok.mp hbind
    obtain ⟨d₁', hbind', hd₁⟩ := ih hbind (hd.declare hparam.ty param.name)
    rw [← hparam.name] at hnone hbind'
    have hnone' := eq_none_of_rel_none (Scope.rel_find? hd.entries _) hnone
    exact ⟨d₁', bindParams_cons_ok.mpr ⟨hnone', hbind'⟩, hd₁⟩

namespace Program

variable {p p' : Program} {file : String} {decl decl' : Decl} {decls decls' : List Decl}
  {f f' : Function} {args : List Value} {heap : Heap}

/-- A declaration that analysis accepts it accepts when sizes are left out, in a looser program. -/
theorem Loosens.exists_analyse (hp : p.Loosens p') (hdecl : decl.Loosens decl')
    (h : p.analyse file decl = .ok f) : ∃ f', p'.analyse file decl' = .ok f' ∧ f.Loosens f' := by
  obtain ⟨hbuiltin, hcontains, hanalyse⟩ := analyse_ok.mp h
  obtain ⟨d₀, d, body, result, hparams, hbody, hresult, hreturns, rfl⟩ :=
    analyseDecl_ok.mp hanalyse
  have hsetting : (p.setting decl).Loosens (p'.setting decl') := ⟨hp, hdecl.name, hdecl.types⟩
  have hstart : Draft.start.Loosens .start := ⟨.nil, .none, rfl⟩
  obtain ⟨d₀', hparams', hd₀⟩ := Analysis.exists_bindParams hdecl.params hparams hstart
  obtain ⟨body', d', hbody', hd⟩ := hsetting.exists_steps decl.body hbody hd₀
  obtain ⟨result', hresult', hloosens⟩ := exists_of_rel_some hd.result hresult
  rw [← hdecl.body] at hbody' hreturns
  rw [← hdecl.name] at hbuiltin
  rw [← hp.contains_eq, ← hdecl.name] at hcontains
  refine ⟨_, analyse_ok.mpr ⟨hbuiltin, hcontains, analyseDecl_ok.mpr
    ⟨d₀', d', body', result', hparams', hbody', hresult', hreturns, rfl⟩⟩, ?_⟩
  exact ⟨hdecl.name, hdecl.types, hloosens, hd.complexity⟩

/-- Declarations that become a program become a looser one when sizes are left out. -/
theorem Built.exists_loosens (h : Built file decls p) :
    ∀ {decls' : List Decl}, List.Forall₂ Decl.Loosens decls decls' →
      ∃ p', Built file decls' p' ∧ p.Loosens p' := by
  induction h with
  | nil =>
    intro decls' hdecls
    cases hdecls
    exact ⟨.empty, .nil, .nil, rfl⟩
  | @snoc decls p decl f hb hf ih =>
    intro decls' hdecls
    -- The history ends with the last declaration, so the lists are read from their ends.
    have hreversed := List.forall₂_reverse_iff.mpr hdecls
    rw [List.reverse_append, List.reverse_singleton, List.singleton_append,
      List.forall₂_cons_left_iff] at hreversed
    obtain ⟨decl', others, hdecl, hothers, heq⟩ := hreversed
    obtain rfl : decls' = others.reverse ++ [decl'] := List.reverse_eq_cons_iff.mp heq
    have hfront : List.Forall₂ Decl.Loosens decls others.reverse := by
      rw [← List.forall₂_reverse_iff, List.reverse_reverse]
      exact hothers
    obtain ⟨p', hb', hp⟩ := ih hfront
    obtain ⟨f', hf', hloosens⟩ := hp.exists_analyse hdecl hf
    exact ⟨_, .snoc hb' hf', hp.append hloosens⟩

/-- Arguments that a function accepts a looser function accepts. -/
theorem Accepts.loosens (h : Accepts f args heap) (hf : f.Loosens f') : Accepts f' args heap := by
  refine ⟨h.1.trans hf.params.length_eq, misfit?_eq_none.mpr ?_⟩
  intro i v hv
  have hconforms := misfit?_eq_none.mp h.2 i v hv
  cases hparam : f.signature.param? i with
  | none =>
    rw [hparam] at hconforms
    cases hconforms
  | some ty =>
    obtain ⟨ty', hparam', hty⟩ := hf.signature.exists_param? hparam
    rw [hparam] at hconforms
    rw [hparam']
    exact Heap.conforms_of_loosens hty hconforms

end Program

/-! ### Outcomes -/

namespace Reference

/-- A name leads to a declaration that differs in sizes only, and so do those in front of it. -/
theorem rel_find? {decls decls' : List Decl} (h : List.Forall₂ Decl.Loosens decls decls')
    (name : String) :
    Option.Rel (fun found found' : List Decl × Decl =>
        List.Forall₂ Decl.Loosens found.1 found'.1 ∧ found.2.Loosens found'.2)
      (find? decls name) (find? decls' name) := by
  induction h with
  | nil => exact .none
  | @cons decl decl' earlier earlier' hdecl hearlier ih =>
    rw [find?, find?, hdecl.name]
    by_cases hname : decl.name = name
    · rw [if_pos hname, if_pos hname]
      exact .some ⟨hearlier, hdecl⟩
    · rw [if_neg hname, if_neg hname]
      exact ih

/-- A declaration runs in the same place as one that differs in sizes only, if what is found there
is entered in the same way. -/
theorem ofDecl_eq_of_loosens {file : String} {enter : List Decl → Decl → List Value → Run Value}
    (henter : ∀ {earlier earlier' : List Decl} {decl decl' : Decl},
      List.Forall₂ Decl.Loosens earlier earlier' → decl.Loosens decl' →
      enter earlier' decl' = enter earlier decl)
    {earlier earlier' : List Decl} {decl decl' : Decl}
    (hearlier : List.Forall₂ Decl.Loosens earlier earlier') (hdecl : decl.Loosens decl') :
    Site.ofDecl file enter earlier' decl' = .ofDecl file enter earlier decl := by
  unfold Site.ofDecl
  rw [hdecl.name, Site.mk.injEq]
  refine ⟨rfl, rfl, ?_⟩
  funext name
  have hfind := rel_find? (.cons hdecl hearlier) name
  cases hfound : find? (decl :: earlier) name with
  | none => rw [eq_none_of_rel_none hfind hfound]
  | some found =>
    obtain ⟨found', hfound', hearlier', hdecl'⟩ := exists_of_rel_some hfind hfound
    rw [hfound', Option.map_some, Option.map_some]
    exact congrArg some (henter hearlier' hdecl')

/-- The reference reads no sizes of parameters. -/
theorem call_eq_of_loosens (file : String) :
    ∀ (room : Nat) {earlier earlier' : List Decl} {decl decl' : Decl},
      List.Forall₂ Decl.Loosens earlier earlier' → decl.Loosens decl' →
      call file room earlier' decl' = call file room earlier decl := by
  intro room
  induction room with
  | zero =>
    intro earlier earlier' decl decl' _ hdecl
    funext args
    rw [call, call, hdecl.name, hdecl.span]
  | succ room ih =>
    intro earlier earlier' decl decl' hearlier hdecl
    funext args heap
    have hsite : Site.ofDecl file (call file room) earlier' decl' = .ofDecl file _ earlier decl :=
      ofDecl_eq_of_loosens ih hearlier hdecl
    have hparams : Env.ofParams decl'.params args = .ofParams decl.params args := by
      unfold Env.ofParams
      rw [map_eq_of_forall₂ (fun hparam => hparam.name) hdecl.params]
    rw [call, call, hsite, hparams, hdecl.name, hdecl.body, hdecl.span]

end Reference

namespace Program

variable {file : String} {decls decls' : List Decl} {p p' : Program} {f f' : Function}
  {args : List Value} {heap : Heap}

/-- Functions whose declarations differ in sizes only have the same outcome for a host. -/
theorem Built.invoke_eq_of_loosens (h : Built file decls p) (h' : Built file decls' p')
    (hdecls : List.Forall₂ Decl.Loosens decls decls') {index : Nat}
    (hf : p.functions[index]? = some f) (hf' : p'.functions[index]? = some f')
    (haccepts : Accepts f args heap) (haccepts' : Accepts f' args heap) :
    p'.invoke f'.name args heap = p.invoke f.name args heap := by
  obtain ⟨decl, hdecl, -⟩ := h.exists_decl hf
  obtain ⟨decl', hdecl', hsame⟩ := exists_of_rel_some (rel_getElem? hdecls index) hdecl
  have hearlier : List.Forall₂ Decl.Loosens (decls.take index).reverse
      (decls'.take index).reverse :=
    List.rel_reverse (List.forall₂_take index hdecls)
  -- Both calls are calls of the reference, and there the declarations do not differ.
  rw [h.invoke_name (List.mem_of_getElem? hf), h'.invoke_name (List.mem_of_getElem? hf'),
    invokeFunction_eq haccepts, invokeFunction_eq haccepts', h.call_eq _ hf hdecl args haccepts.1,
    h'.call_eq _ hf' hdecl' args haccepts'.1,
    Reference.call_eq_of_loosens file _ hearlier hsame]

/-- Sizes can be left out. Whatever declarations analysis accepts, it accepts when any sizes of
their parameters are left open. Function by function, the result has the same type up to sizes that
are no longer known, and the complexity is the same. Whatever arguments a host can bring it can
still bring, and the outcome is the same: the value or the error, and the heap. -/
theorem loosens_ofDecls (h : ofDecls file decls = .ok p)
    (hdecls : List.Forall₂ Decl.Loosens decls decls') :
    ∃ p', ofDecls file decls' = .ok p' ∧
      List.Forall₂ (fun f f' : Function =>
        f'.name = f.name ∧ f.result.Loosens f'.result ∧ f'.complexity = f.complexity ∧
          ∀ (args : List Value) (heap : Heap), Accepts f args heap →
            Accepts f' args heap ∧ p'.invoke f'.name args heap = p.invoke f.name args heap)
        p.functions p'.functions := by
  have hbuilt := ofDecls_ok.mp h
  obtain ⟨p', hbuilt', hp⟩ := hbuilt.exists_loosens hdecls
  refine ⟨p', ofDecls_ok.mpr hbuilt',
    List.forall₂_of_length_eq_of_get hp.functions.length_eq fun index hlt hlt' => ?_⟩
  have hf := hp.functions.get hlt hlt'
  refine ⟨hf.name, hf.result, hf.complexity, fun args heap haccepts => ?_⟩
  have haccepts' := haccepts.loosens hf
  exact ⟨haccepts', hbuilt.invoke_eq_of_loosens hbuilt' hdecls (List.getElem?_eq_getElem hlt)
    (List.getElem?_eq_getElem hlt') haccepts haccepts'⟩

end Program

/-- A declaration without any sizes of parameters. -/
def Decl.withoutSizes (decl : Decl) : Decl :=
  { decl with params := decl.params.map fun param =>
      { param with dims := param.dims.map fun _ => none } }

/-- Leaving out all sizes is one way to leave out some. -/
theorem Decl.loosens_withoutSizes (decl : Decl) : decl.Loosens decl.withoutSizes where
  name := rfl
  params := by
    refine List.forall₂_map_right_iff.mpr (List.forall₂_same.mpr fun param _ => ⟨rfl, rfl, ?_⟩)
    exact List.forall₂_map_right_iff.mpr (List.forall₂_same.mpr fun _ _ => .inr rfl)
  body := rfl
  span := rfl

/-- A program in which a size flows from a parameter into a result, and is compared there with the
size of a list, and then into another function. -/
def Source.order : Source :=
  ⟨"order", "order(a: number[2]) {
      b = [a[1], a[0]];
      if (a[0] < a[1]) { return a; }
      return b;
    }
    least(a: number[2]) { b = order(a); return b[0]; }"⟩

/-- Without sizes both functions are still accepted. The result of the first one has lost its size,
and the second one has the same outcome as before. -/
theorem Program.loosens_ofDecls_order :
    ∃ decls p p' f g f' g', Source.order.decls = .ok decls ∧ ofDecls "order" decls = .ok p ∧
      ofDecls "order" (decls.map Decl.withoutSizes) = .ok p' ∧
      p.functions = [f, g] ∧ p'.functions = [f', g'] ∧
      f.result = .array [.fixed 2] ∧ f'.result = .array [.dynamic] ∧
      g'.complexity = g.complexity ∧
      Accepts g [.array 0] ⟨#[#[.number 2, .number 1]]⟩ ∧
      Accepts g' [.array 0] ⟨#[#[.number 2, .number 1]]⟩ ∧
      p'.invoke g'.name [.array 0] ⟨#[#[.number 2, .number 1]]⟩
        = p.invoke g.name [.array 0] ⟨#[#[.number 2, .number 1]]⟩ := by
  have hrun : (Source.order.decls.toOption.bind fun decls =>
      (ofDecls "order" decls).toOption.bind fun p =>
      (ofDecls "order" (decls.map Decl.withoutSizes)).toOption.map fun p' =>
        (p.functions.map fun f => (f.result,
          decide ([Value.array 0].length = f.params.length) &&
            (misfit? ⟨#[#[.number 2, .number 1]]⟩ f.signature [.array 0]).isNone),
        p'.functions.map Function.result))
      = some ([(.array [.fixed 2], true), (.number, true)], [.array [.dynamic], .number]) := by
    decide +kernel
  obtain ⟨decls, hdecls, hrun⟩ := Option.bind_eq_some_iff.mp hrun
  obtain ⟨p, hprogram, hrun⟩ := Option.bind_eq_some_iff.mp hrun
  obtain ⟨p', hprogram', hchecks⟩ := Option.map_eq_some_iff.mp hrun
  obtain ⟨hfunctions, hfunctions'⟩ := Prod.mk.inj hchecks
  obtain ⟨f, _, hp, hf, hrest⟩ := List.map_eq_cons_iff.mp hfunctions
  obtain ⟨g, rfl, hg⟩ := List.map_eq_singleton_iff.mp hrest
  have hresult : f.result = .array [.fixed 2] := (Prod.mk.inj hf).1
  have haccepts : Accepts g [.array 0] ⟨#[#[.number 2, .number 1]]⟩ := by
    have hg := (Prod.mk.inj hg).2
    simp only [Bool.and_eq_true, decide_eq_true_eq, Option.isNone_iff_eq_none] at hg
    exact hg
  have hloosens : List.Forall₂ Decl.Loosens decls (decls.map Decl.withoutSizes) :=
    List.forall₂_map_right_iff.mpr (List.forall₂_same.mpr fun decl _ => decl.loosens_withoutSizes)
  obtain ⟨q, hq, hall⟩ := loosens_ofDecls (eq_ok_of_toOption hprogram) hloosens
  obtain rfl : p' = q := Except.ok.inj ((eq_ok_of_toOption hprogram').symm.trans hq)
  rw [hp] at hall
  obtain ⟨f', _, -, htail, hp'⟩ := List.forall₂_cons_left_iff.mp hall
  obtain ⟨g', _, ⟨-, -, hcomplexity, hinvoke⟩, hnil, rfl⟩ := List.forall₂_cons_left_iff.mp htail
  obtain rfl := List.forall₂_nil_left_iff.mp hnil
  rw [hp'] at hfunctions'
  obtain ⟨haccepts', heq⟩ := hinvoke _ _ haccepts
  exact ⟨decls, p, p', f, g, f', g', eq_ok_of_toOption hdecls, eq_ok_of_toOption hprogram, hq, hp,
    hp', hresult, (List.cons.inj hfunctions').1, hcomplexity, haccepts, haccepts', heq⟩

end ArrayScript
