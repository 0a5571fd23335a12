import ArrayScript.Proofs.Program
import ArrayScript.Proofs.Spans

/-!
# `ArrayScript.Proofs.Marks`: the offsets that analysis works with

Analysis makes up no offsets. Those in its faults and in the code that it gives are the starts of
nodes of the tree, and in a tree with nested spans (`Decl.Nested`) every node starts inside the
declaration (`Span.Holds`), at the start of a token (`Span.Marks`). Only a missing return is
reported at the end of the declaration.

* `Program.fault_of_analyseDecl`: where the fault of a declaration stands.
* `Program.placed_of_analyse`: where the offsets in the code of a function stand.

A compound assignment is written out as an expression that has no text of its own. It has the span
of the statement, with the target and the value as children, so nothing about it is special.
-/

set_option autoImplicit false

namespace ArrayScript

open Code (Term Step)

/-! ### Starts of nodes -/

namespace Span

/-- Whether an offset lies inside a span. -/
def Holds (span : Span) (offset : Nat) : Prop :=
  span.start ≤ offset ∧ offset ≤ span.stop

/-- Whether an offset is the start of a token and lies inside a span. -/
structure Marks (tokens : List Token) (span : Span) (offset : Nat) : Prop where
  token : ∃ token ∈ tokens, token.span.start = offset
  holds : span.Holds offset

variable {tokens : List Token} {span inner : Span} {children : List Span}

/-- A node inside a span starts inside it. -/
theorem Covers.marks (h : inner.Covers tokens children)
    (hin : Chain span.start span.stop [inner]) : span.Marks tokens inner.start := by
  obtain ⟨hlow, hlt, hhigh⟩ := chain_singleton.mp hin
  exact ⟨h.start, hlow, Nat.le_trans (Nat.le_of_lt hlt) hhigh⟩

/-- The children of a node inside a span are inside it. -/
theorem Covers.inside (h : inner.Covers tokens children)
    (hin : Chain span.start span.stop [inner]) : Chain span.start span.stop children :=
  h.chain.mono hin.1 hin.2.2

/-- The first of several spans and the others. -/
theorem chain_cons_inside {low high : Nat} {first : Span} {rest : List Span}
    (h : Chain low high (first :: rest)) : Chain low high [first] ∧ Chain low high rest := by
  refine ⟨h.of_mem List.mem_cons_self, h.2.2.mono ?_ (Nat.le_refl _)⟩
  have hlow := h.1
  have hlt := h.2.1
  omega

end Span

/-- An expression inside a span starts inside it. -/
theorem Expr.Nested.marks {tokens : List Token} {span : Span} {e : Expr} (h : e.Nested tokens)
    (hin : Span.Chain span.start span.stop [e.span]) : span.Marks tokens e.start := by
  obtain ⟨children, hcovers⟩ := h.covers
  exact hcovers.marks hin

/-! ### Offsets in code -/

namespace Code

section

variable (P : Nat → Prop)

mutual

/-- Whether the offsets in a term have a property. -/
def Term.Placed : Term → Prop
  | .number _ => True
  | .newArray offset sizes => P offset ∧ Term.PlacedAll sizes
  | .list _ items => Term.PlacedAll items
  | .slot offset _ _ _ indices => P offset ∧ Term.PlacedAll indices
  | .call offset _ _ _ args => P offset ∧ Term.PlacedAll args
  | .unary offset _ operand => P offset ∧ operand.Placed
  | .binary offset _ left right => P offset ∧ left.Placed ∧ right.Placed

/-- The same for several terms. -/
def Term.PlacedAll : List Term → Prop
  | [] => True
  | t :: ts => t.Placed ∧ Term.PlacedAll ts

end

mutual

/-- Whether the offsets in a step have a property. -/
def Step.Placed : Step → Prop
  | .branch offset condition pass fail =>
    P offset ∧ condition.Placed P ∧ Step.PlacedAll pass ∧ Step.PlacedAll fail
  | .assign offset _ _ indices value => P offset ∧ Term.PlacedAll P indices ∧ value.Placed P
  | .ret value => value.Placed P

/-- The same for several steps. -/
def Step.PlacedAll : List Step → Prop
  | [] => True
  | step :: rest => step.Placed ∧ Step.PlacedAll rest

end

end

/-- Steps behind steps. -/
theorem Step.placedAll_append {P : Nat → Prop} {steps steps' : List Step} :
    Step.PlacedAll P (steps ++ steps') ↔ Step.PlacedAll P steps ∧ Step.PlacedAll P steps' := by
  induction steps with
  | nil => simp [Step.PlacedAll]
  | cons step steps ih => simp [Step.PlacedAll, ih, and_assoc]

end Code

/-! ### Steps of analysis -/

/-- Whether a cause is that the name of a function is taken. -/
def Cause.redeclares : Cause → Bool
  | builtinRedeclared _ | functionRedeclared _ => true
  | _ => false

/-- Whether a fault stands at an offset with a property, and is not that the name of a function is
taken. Nothing inside a declaration has that fault. -/
structure Fault.Placed (P : Nat → Prop) (fault : Fault) : Prop where
  offset : P fault.offset
  cause : fault.cause.redeclares = false

/-- Whether a step of analysis gives something with a property, and faults at offsets with
another. -/
def Analysis.Places {α : Type} (P : Nat → Prop) (post : α → Prop) (m : Analysis α) : Prop :=
  (∀ d a d', m d = .ok (a, d') → post a) ∧ ∀ d fault, m d = .error fault → fault.Placed P

namespace Analysis.Places

variable {α β : Type} {P : Nat → Prop} {post : α → Prop} {goal : β → Prop}

/-- An analysis that does nothing has no fault, and its result is as given. -/
theorem pure {a : α} (h : post a) : Places P post (Pure.pure a) := by
  refine ⟨?_, by simp⟩
  intro d b d' hb
  rw [pure_ok, Prod.mk.injEq] at hb
  rw [hb.1]
  exact h

/-- Two analyses in sequence have well placed faults if both have. The second one may use what is
known of the result of the first. -/
theorem bind {m : Analysis α} {k : α → Analysis β} (hm : Places P post m)
    (hk : ∀ a, post a → Places P goal (k a)) : Places P goal (m >>= k) := by
  refine ⟨?_, ?_⟩
  · intro d b d' hb
    obtain ⟨a, d₁, ha, hb⟩ := bind_ok.mp hb
    exact (hk a (hm.1 d a d₁ ha)).1 d₁ b d' hb
  · intro d fault hfault
    rcases bind_error.mp hfault with hfirst | ⟨a, d₁, ha, hsecond⟩
    · exact hm.2 d fault hfirst
    · exact (hk a (hm.1 d a d₁ ha)).2 d₁ fault hsecond

/-- Looking at the draft is no source of faults. Nothing is assumed of the draft, as no fault is
placed by it. -/
theorem get_bind {k : Draft → Analysis β} (hk : ∀ d, Places P goal (k d)) :
    Places P goal (get >>= k) :=
  ⟨fun d b d' hb => (hk d).1 d b d' hb, fun d fault hfault => (hk d).2 d fault hfault⟩

/-- A fault that is well placed may be thrown. -/
theorem throw {fault : Fault} (h : fault.Placed P) : Places P post (throw fault) := by
  refine ⟨by simp, ?_⟩
  intro d fault' hfault
  rw [throw_error] at hfault
  rw [hfault]
  exact h

/-- A failure at a good offset is well placed, unless its cause is a redeclaration. These are placed
by their own rule; all other causes are told apart by computation. -/
theorem fail {cause : Cause} {offset : Nat} (h : P offset)
    (hcause : cause.redeclares = false := by rfl) :
    Places P post (Analysis.fail cause offset) :=
  throw ⟨h, hcause⟩

/-- A check that fails at a good offset is well placed, whatever the condition is. -/
theorem require {condition : Bool} {cause : Cause} {offset : Nat} (h : P offset)
    (hcause : cause.redeclares = false := by rfl) :
    Places P (fun _ => True) (Analysis.require condition cause offset) := by
  cases condition with
  | false => exact fail h hcause
  | true => exact pure trivial

/-- Changing the draft is no source of faults. -/
theorem modify {f : Draft → Draft} : Places P (fun _ => True) (modify f) :=
  ⟨fun _ _ _ _ => trivial, by simp⟩

/-- Counting fails for one cause only, at the offset that it is given, whatever the count was. -/
theorem count {step : Complexity.Counting} {offset : Nat} (h : P offset)
    (hstep : ∀ c cause c', step c = .error cause c' → cause = .complexityOverflow) :
    Places P (fun _ => True) (Analysis.count step offset) := by
  refine get_bind fun d => ?_
  cases hcount : step d.complexity with
  | ok _ complexity => exact modify
  | error cause complexity =>
    rw [hstep _ _ _ hcount]
    exact fail h

/-- Declaring a variable is no source of faults. A name that is taken twice is refused elsewhere. -/
theorem declare {name : String} {ty : Ty} :
    Places P (fun _ => True) (Analysis.declare name ty) :=
  ⟨fun _ _ _ _ => trivial, by simp⟩

end Analysis.Places

/-! ### Expressions -/

namespace Setting

/-- The faults of a call by name are about the name of the callee. -/
theorem redeclares_of_target {s : Setting} {d : Draft} {name : String} {cause : Cause}
    (h : s.target d name = .error cause) : cause.redeclares = false := by
  rcases target_error.mp h with ⟨-, -, rfl⟩ | ⟨-, -, rfl⟩
  · rfl
  · split <;> rfl

/-- Whether the faults that a test finds are placed when the expression starts at an offset with the
property. -/
def Test.Places (P : Nat → Prop) (test : Test) : Prop :=
  ∀ index e ty fault, test index e ty = some fault → P e.start → fault.Placed P

section

variable {P : Nat → Prop}

/-- The test on indices blames the index that is not a number. -/
theorem places_indexTest (name : String) : Test.Places P (indexTest name) := by
  intro index e ty fault h
  simp only [indexTest, Option.ite_none_left_eq_some, Option.some.injEq] at h
  obtain ⟨-, rfl⟩ := h
  exact fun hstart => ⟨hstart, rfl⟩

/-- The test on sizes blames the array constructor, whose offset is handed to it. -/
theorem places_sizeTest {offset : Nat} (hoffset : P offset) : Test.Places P (sizeTest offset) := by
  intro index e ty fault h
  simp only [sizeTest, Option.ite_none_left_eq_some, Option.some.injEq] at h
  obtain ⟨-, rfl⟩ := h
  exact fun _ => ⟨hoffset, rfl⟩

/-- The test on the items of a list blames the item that differs from the first one. -/
theorem places_elementTest (first : Ty) : Test.Places P (elementTest first) := by
  intro index e ty fault h
  simp only [elementTest, Option.ite_none_left_eq_some, Option.some.injEq] at h
  obtain ⟨-, rfl⟩ := h
  exact fun hstart => ⟨hstart, rfl⟩

/-- The test on arguments blames the argument that does not match its parameter. -/
theorem places_argumentTest (name : String) (signature : Signature) :
    Test.Places P (argumentTest name signature) := by
  intro index e ty fault h
  simp only [argumentTest, Option.ite_none_left_eq_some, Option.some.injEq] at h
  obtain ⟨-, rfl⟩ := h
  exact fun hstart => ⟨hstart, rfl⟩

end

variable {tokens : List Token} {span : Span} {s : Setting}

mutual

/-- Analysis of an expression stays at the starts of its nodes. -/
theorem places_term :
    ∀ e : Expr, e.Nested tokens → Span.Chain span.start span.stop [e.span] →
      Analysis.Places (span.Marks tokens) (Term.Placed span.Holds) (s.term e)
  | .number inner value, _, _ => by
    rw [term]
    exact .pure trivial
  | .newArray inner sizes, h, hin => by
    have hmark := h.1.marks hin
    rw [term]
    have hsizes := places_terms (places_sizeTest hmark) 0 sizes h.2 (h.1.inside hin)
    exact .bind hsizes fun ts hts => .pure ⟨hmark.holds, hts⟩
  | .list inner [], h, hin => by
    rw [term]
    exact .fail (h.1.marks hin)
  | .list inner (first :: rest), h, hin => by
    obtain ⟨hfirst, hrest⟩ := Span.chain_cons_inside (h.1.inside hin)
    rw [term]
    refine .bind (places_term first h.2.1 hfirst) fun t ht => ?_
    refine .bind (places_terms (places_elementTest t.ty) 1 rest h.2.2 hrest) fun ts hts => ?_
    exact .pure ⟨ht, hts⟩
  | .var inner name indices, h, hin => by
    have hmark := h.1.marks hin
    rw [term]
    refine .get_bind fun d => ?_
    -- Every fault of a variable is at the start of the variable, whatever the name stands for.
    cases s.resolve d name with
    | none => exact .fail hmark
    | some binding =>
      cases binding with
      | function signature => exact .fail hmark
      | slot v =>
        cases hty : v.ty with
        | number =>
          simp only [hty]
          exact .bind (.require hmark) fun _ _ => .pure ⟨hmark.holds, trivial⟩
        | array rank =>
          simp only [hty]
          refine .bind (places_terms (places_indexTest name) 0 indices h.2 (h.1.inside hin))
            fun ts hts => ?_
          exact .bind (.require hmark) fun _ _ => .pure ⟨hmark.holds, hts⟩
        | function params rest result score =>
          simp only [hty]
          exact .fail hmark
  | .call inner name args, h, hin => by
    have hmark := h.1.marks hin
    rw [term]
    refine .get_bind fun d => ?_
    cases htarget : s.target d name with
    | error cause => exact .fail hmark (redeclares_of_target htarget)
    | ok target =>
      refine .bind (.require hmark) fun _ _ => ?_
      refine .bind (places_terms (places_argumentTest name target.signature) 0 args h.2
        (h.1.inside hin)) fun ts hts => ?_
      dsimp only
      -- A target that was found has a result, so the call cannot fail behind its arguments but by
      -- the count.
      obtain ⟨result, hresult⟩ := exists_result_of_target htarget
      simp only [hresult]
      cases target.signature.score with
      | none => exact .pure ⟨hmark.holds, hts⟩
      | some score =>
        exact .bind (.count hmark fun _ _ _ herror => (Complexity.eq_of_addCall herror).1) fun _ _ =>
          .pure ⟨hmark.holds, hts⟩
  | .unary inner op operand, h, hin => by
    have hmark := h.1.marks hin
    rw [term]
    refine .bind (places_term operand h.2 (h.1.inside hin)) fun t ht => ?_
    exact .bind (.require hmark) fun _ _ => .pure ⟨hmark.holds, ht⟩
  | .binary inner op left right, h, hin => by
    have hmark := h.1.marks hin
    obtain ⟨hleft, hright⟩ := Span.chain_cons_inside (h.1.inside hin)
    rw [term]
    refine .bind (places_term left h.2.1 hleft) fun t ht => ?_
    refine .bind (.require hmark) fun _ _ => ?_
    refine .bind (places_term right h.2.2 hright) fun u hu => ?_
    exact .bind (.require hmark) fun _ _ => .pure ⟨hmark.holds, ht, hu⟩

/-- The same for several expressions. -/
theorem places_terms {test : Test} (htest : test.Places (span.Marks tokens)) :
    ∀ (index : Nat) (es : List Expr), Expr.NestedAll tokens es →
      Span.Chain span.start span.stop (es.map Expr.span) →
      Analysis.Places (span.Marks tokens) (Term.PlacedAll span.Holds)
        (s.terms test index es)
  | _, [], _, _ => by
    rw [terms]
    exact .pure trivial
  | index, e :: es, h, hin => by
    obtain ⟨hfirst, hrest⟩ := Span.chain_cons_inside hin
    rw [terms]
    refine .bind (places_term e h.1 hfirst) fun t ht => ?_
    cases hfault : test index e t.ty with
    | some fault => exact .throw (htest index e t.ty fault hfault (h.1.marks hfirst))
    | none =>
      refine .bind (places_terms htest (index + 1) es h.2 hrest) fun ts hts => ?_
      exact .pure ⟨ht, hts⟩

end

/-! ### Statements -/

/-- Analysis of an assignment stays at the starts of the target and of the nodes of the value. -/
theorem places_assign {target : Target} {value : Expr} (htarget : target.Nested tokens)
    (htargetIn : Span.Chain span.start span.stop [target.span]) (hvalue : value.Nested tokens)
    (hvalueIn : Span.Chain span.start span.stop [value.span]) :
    Analysis.Places (span.Marks tokens) (Step.Placed span.Holds)
      (s.assign target value) := by
  have hmark := htarget.1.marks htargetIn
  unfold Setting.assign
  refine .bind (places_term value hvalue hvalueIn) fun t ht => ?_
  refine .get_bind fun d => ?_
  dsimp only
  -- The value comes first; every fault behind it is at the start of the target or of an index.
  cases s.resolve d target.name with
  | none =>
    refine .bind (.require hmark) fun _ _ => ?_
    exact .bind .declare fun slot _ => .pure ⟨hmark.holds, trivial, ht⟩
  | some binding =>
    cases binding with
    | function signature => exact .fail hmark
    | slot v =>
      cases hty : v.ty with
      | number =>
        simp only [hty]
        refine .bind (.require hmark) fun _ _ => ?_
        exact .bind (.require hmark) fun _ _ => .pure ⟨hmark.holds, trivial, ht⟩
      | array rank =>
        simp only [hty]
        refine .bind (places_terms (places_indexTest _) 0 _ htarget.2
          (htarget.1.inside htargetIn)) fun ts hts => ?_
        refine .bind (.require hmark) fun _ _ => ?_
        cases rank.drop target.indices.length with
        | nil => exact .bind (.require hmark) fun _ _ => .pure ⟨hmark.holds, hts, ht⟩
        | cons dim dims => exact .bind (.require hmark) fun _ _ => .pure ⟨hmark.holds, hts, ht⟩
      | function params rest result score =>
        simp only [hty]
        exact .fail hmark

mutual

/-- Analysis of a statement stays at the starts of its nodes. -/
theorem places_step (last : Bool) :
    ∀ stmt : Stmt, stmt.Nested tokens → Span.Chain span.start span.stop [stmt.span] →
      Analysis.Places (span.Marks tokens) (Step.Placed span.Holds) (s.step last stmt)
  | .branch inner condition pass fail, h, hin => by
    have hmark := h.1.marks hin
    obtain ⟨hcondition, harms⟩ := Span.chain_cons_inside (h.1.inside hin)
    obtain ⟨hpass, hfail⟩ := harms.of_append
    rw [step]
    refine .bind (places_term condition h.2.1 hcondition) fun t ht => ?_
    refine .bind (.require hmark) fun _ _ => ?_
    refine .bind (.count hmark fun _ _ _ herror => (Complexity.eq_of_addBranch herror).1) fun _ _ => ?_
    refine .bind (places_steps pass h.2.2.1 hpass) fun passed hpassed => ?_
    refine .bind (places_stepsOption fail h.2.2.2 hfail) fun failed hfailed => ?_
    exact .pure ⟨hmark.holds, ht, hpassed, hfailed⟩
  | .assign inner target value, h, hin => by
    obtain ⟨htarget, hvalue⟩ := Span.chain_cons_inside (h.1.inside hin)
    rw [step]
    exact places_assign h.2.1 htarget h.2.2 hvalue
  | .update inner op target value, h, hin => by
    obtain ⟨htarget, -⟩ := Span.chain_cons_inside (h.1.inside hin)
    rw [step]
    -- The value that is written out covers the target and the value, as the statement does.
    have hwritten : (Expr.binary inner op.longhand target.read value).Nested tokens :=
      ⟨h.1, h.2.1, h.2.2⟩
    exact places_assign h.2.1 htarget hwritten hin
  | .ret inner value, h, hin => by
    have hmark := h.1.marks hin
    rw [step]
    refine .bind (.require hmark) fun _ _ => ?_
    refine .bind (places_term value h.2 (h.1.inside hin)) fun t ht => ?_
    refine .get_bind fun d => ?_
    dsimp only
    cases d.result with
    | none => exact .bind .modify fun _ _ => .pure ht
    | some result => exact .bind (.require hmark) fun _ _ => .pure ht

/-- The same for a block. -/
theorem places_steps :
    ∀ body : List Stmt, Stmt.NestedAll tokens body →
      Span.Chain span.start span.stop (body.map Stmt.span) →
      Analysis.Places (span.Marks tokens) (Step.PlacedAll span.Holds) (s.steps body)
  | [], _, _ => by
    rw [steps]
    exact .pure trivial
  | stmt :: rest, h, hin => by
    obtain ⟨hfirst, hrest⟩ := Span.chain_cons_inside hin
    rw [steps]
    refine .bind (places_step rest.isEmpty stmt h.1 hfirst) fun step hstep => ?_
    exact .bind (places_steps rest h.2 hrest) fun steps hsteps => .pure ⟨hstep, hsteps⟩

/-- The same for a block that may be absent. -/
theorem places_stepsOption :
    ∀ block : Option (List Stmt), Stmt.NestedOption tokens block →
      Span.Chain span.start span.stop ((block.getD []).map Stmt.span) →
      Analysis.Places (span.Marks tokens) (Step.PlacedAll span.Holds)
        (s.stepsOption block)
  | none, _, _ => by
    rw [stepsOption]
    exact .pure trivial
  | some block, h, hin => by
    rw [stepsOption]
    exact places_steps block h hin

end

end Setting

/-! ### Declarations -/

/-- Binding parameters stays at their starts. -/
theorem Analysis.places_bindParams {tokens : List Token} {span : Span} {params : List Param}
    (h : ∀ param ∈ params, param.Nested tokens)
    (hin : Span.Chain span.start span.stop (params.map Param.span)) :
    Places (span.Marks tokens) (fun _ => True) (bindParams params) := by
  induction params with
  | nil =>
    rw [bindParams]
    exact .pure trivial
  | cons param params ih =>
    obtain ⟨hfirst, hrest⟩ := Span.chain_cons_inside hin
    obtain ⟨hparam, hparams⟩ := List.forall_mem_cons.mp h
    rw [bindParams]
    refine .get_bind fun d => ?_
    refine .bind (.require (hparam.1.marks hfirst)) fun _ _ => ?_
    exact .bind .declare fun _ _ => ih hparams hrest

namespace Program

variable {p : Program} {file : String} {tokens : List Token} {decl : Decl}

/-- A fault of a declaration stands at the start of a token inside it, or at its end, and is not
that its name is taken. -/
theorem fault_of_analyseDecl (hnested : decl.Nested tokens) {fault : Fault}
    (h : p.analyseDecl file decl = .error fault) :
    (decl.span.Marks tokens fault.offset ∨ fault.offset = decl.span.stop) ∧
      fault.cause.redeclares = false := by
  obtain ⟨hparams, hbody⟩ := hnested.1.chain.of_append
  rcases analyseDecl_error.mp h with hfault | ⟨d₀, -, hfault | ⟨body, d, -, -, rfl⟩⟩
  · have hplaced := (Analysis.places_bindParams hnested.2.1 hparams).2 _ fault hfault
    exact ⟨.inl hplaced.offset, hplaced.cause⟩
  · have hplaced := (Setting.places_steps decl.body hnested.2.2 hbody).2 d₀ fault hfault
    exact ⟨.inl hplaced.offset, hplaced.cause⟩
  · exact ⟨.inr rfl, rfl⟩

/-- A function has the file and the span of its declaration, and the offsets in its code lie
inside the declaration. -/
theorem placed_of_analyse (hnested : decl.Nested tokens) {f : Function}
    (h : p.analyse file decl = .ok f) :
    f.file = file ∧ f.span = decl.span ∧ Step.PlacedAll decl.span.Holds f.body := by
  obtain ⟨d₀, d, body, result, -, hsteps, -, -, rfl⟩ := analyseDecl_ok.mp (analyse_ok.mp h).2.2
  obtain ⟨-, hbody⟩ := hnested.1.chain.of_append
  exact ⟨rfl, rfl, (Setting.places_steps decl.body hnested.2.2 hbody).1 d₀ body d hsteps⟩

end Program

end ArrayScript
