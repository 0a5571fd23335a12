import ArrayScript.Expr.Basic
import ArrayScript.Number

/-!
# `ArrayScript.Proofs.Grammar`: the grammar of expressions

The language of expressions as a layered grammar, without binding powers and without a parser. Each
layer is made of terms of the next one. The four layers of binary operators are chains that group to
the left, so a chain is a term, or a chain followed by an operator and a term. Below them stand the
prefix operators, then indices and argument lists, and last what needs no other expression in front
of it:

    logical        ::= relational     | logical (&& | ||) relational
    relational     ::= additive       | relational (< | <= | > | >= | == | !=) additive
    additive       ::= multiplicative | additive (+ | -) multiplicative
    multiplicative ::= unary          | multiplicative (* | / | %) unary
    unary          ::= suffixed       | (- | !) unary
    suffixed       ::= primary        | suffixed [ logical ] | suffixed ( logical, ... )
    primary        ::= NUMBER | NAME | ( logical ) | [ logical, ... ] | new number [ logical ] ...

An index can follow only what denotes a variable, in parentheses or not, and an argument list only
what denotes a variable without indices. `Grammar.Derives` has one rule for each of these forms. It
relates a layer, a derivation (`Grammar.Tree`, with one node for each use of a rule) and the
expression that is derived; the terminals at the leaves of a derivation are its yield.

`Derives.unique` says that the grammar is unambiguous. A derivation is read off its yield from the
left: what follows a term decides whether its chain goes on (`Stops`). Chains and suffixes recurse
to the left, so the comparison first turns both sides around (`Spine`).
-/

set_option autoImplicit false

namespace ArrayScript

open Token (Kind)

/-! ### Expressions without spans -/

/-- The span of an expression that does not come from a text. -/
def Span.blank : Span :=
  ⟨0, 0⟩

mutual

/-- An expression without its spans. -/
def Expr.bare : Expr → Expr
  | .number _ value => .number .blank value
  | .newArray _ sizes => .newArray .blank (Expr.bareAll sizes)
  | .list _ items => .list .blank (Expr.bareAll items)
  | .var _ name indices => .var .blank name (Expr.bareAll indices)
  | .call _ name args => .call .blank name (Expr.bareAll args)
  | .unary _ op operand => .unary .blank op operand.bare
  | .binary _ op left right => .binary .blank op left.bare right.bare

/-- Several expressions without their spans. -/
def Expr.bareAll : List Expr → List Expr
  | [] => []
  | e :: es => e.bare :: Expr.bareAll es

end

/-- Several expressions without spans are each of them without spans, in which form lemmas about
lists apply. -/
@[simp]
theorem Expr.bareAll_eq_map (es : List Expr) : Expr.bareAll es = es.map Expr.bare := by
  induction es with
  | nil => rfl
  | cons e es ih => rw [Expr.bareAll, ih, List.map_cons]

/-- Whether an expression reads a variable. -/
def Expr.isVar : Expr → Bool
  | .var .. => true
  | _ => false

/-! ### How operators are written -/

/-- The token kind that a prefix operator is written as. -/
def PrefixOp.kind : PrefixOp → Kind
  | negation => .dash
  | inversion => .bang

/-- The token kind that a binary operator is written as. -/
def BinaryOp.kind : BinaryOp → Kind
  | sum => .plus
  | difference => .dash
  | product => .star
  | quotient => .slash
  | remainder => .percent
  | conjunction => .andAnd
  | disjunction => .orOr
  | lesser => .less
  | greater => .greater
  | noGreater => .lessEquals
  | noLesser => .greaterEquals
  | equal => .equals
  | inequal => .notEquals

/-- A token is taken for a prefix operator exactly if it is the one that the operator is written
with. -/
theorem PrefixOp.ofKind?_eq_some {kind : Kind} {op : PrefixOp} :
    PrefixOp.ofKind? kind = some op ↔ kind = op.kind := by
  constructor
  · intro h
    cases kind <;> cases h <;> rfl
  · rintro rfl
    cases op <;> rfl

/-- A token is taken for an operator exactly if it is the one that the operator is written with. -/
theorem BinaryOp.ofKind?_eq_some {kind : Kind} {op : BinaryOp} :
    BinaryOp.ofKind? kind = some op ↔ kind = op.kind := by
  constructor
  · intro h
    cases kind <;> cases h <;> rfl
  · rintro rfl
    cases op <;> rfl

/-- No two prefix operators are written alike, so a derivation is determined by what it yields. -/
theorem PrefixOp.kind_injective {op op' : PrefixOp} (h : op.kind = op'.kind) : op = op' :=
  Option.some.inj ((ofKind?_eq_some.mpr rfl).symm.trans (ofKind?_eq_some.mpr h))

/-- No two operators are written alike, so a derivation is determined by what it yields. -/
theorem BinaryOp.kind_injective {op op' : BinaryOp} (h : op.kind = op'.kind) : op = op' :=
  Option.some.inj ((ofKind?_eq_some.mpr rfl).symm.trans (ofKind?_eq_some.mpr h))

namespace Grammar

/-! ### Terminals, layers and derivations -/

/-- What the grammar sees of a token: the text of a number or a name, and the kind of any other. -/
inductive Terminal where
  | number (text : String)
  | name (text : String)
  | mark (kind : Kind)
deriving DecidableEq, Repr

/-- The layers of the grammar, from the weakest operators to expressions without any. -/
inductive Layer where
  | logical
  | relational
  | additive
  | multiplicative
  | unary
  | suffixed
  | primary
deriving DecidableEq, Repr

/-- The layer that the terms of a layer belong to. -/
def Layer.next : Layer → Layer
  | logical => relational
  | relational => additive
  | additive => multiplicative
  | multiplicative => unary
  | unary => suffixed
  | suffixed => primary
  | primary => primary

/-- The binary operators of a layer. -/
def Layer.operators : Layer → List BinaryOp
  | logical => [.conjunction, .disjunction]
  | relational => [.lesser, .noGreater, .greater, .noLesser, .equal, .inequal]
  | additive => [.sum, .difference]
  | multiplicative => [.product, .quotient, .remainder]
  | unary | suffixed | primary => []

/-- A derivation: one node for each use of a rule. A `unit` takes a term of the next layer. -/
inductive Tree where
  | number (text : String)
  | name (text : String)
  | group (inner : Tree)
  | list (items : List Tree)
  | newArray (sizes : List Tree)
  | index (base position : Tree)
  | call (base : Tree) (args : List Tree)
  | unary (op : PrefixOp) (operand : Tree)
  | binary (left : Tree) (op : BinaryOp) (right : Tree)
  | unit (term : Tree)

namespace Tree

mutual

/-- The terminals at the leaves of a derivation, from left to right. -/
def yield : Tree → List Terminal
  | .number text => [.number text]
  | .name text => [.name text]
  | .group inner => .mark .openParen :: (inner.yield ++ [.mark .closeParen])
  | .list items => .mark .openBracket :: (separated items ++ [.mark .closeBracket])
  | .newArray sizes => .mark .newWord :: .mark .numberWord :: bracketed sizes
  | .index base position =>
    base.yield ++ .mark .openBracket :: (position.yield ++ [.mark .closeBracket])
  | .call base args => base.yield ++ .mark .openParen :: (separated args ++ [.mark .closeParen])
  | .unary op operand => .mark op.kind :: operand.yield
  | .binary left op right => left.yield ++ .mark op.kind :: right.yield
  | .unit term => term.yield

/-- Derivations with commas between them. -/
def separated : List Tree → List Terminal
  | [] => []
  | t :: ts => t.yield ++ continued ts

/-- Derivations, each behind a comma. -/
def continued : List Tree → List Terminal
  | [] => []
  | t :: ts => .mark .comma :: (t.yield ++ continued ts)

/-- Derivations, each in square brackets. -/
def bracketed : List Tree → List Terminal
  | [] => []
  | t :: ts => .mark .openBracket :: (t.yield ++ .mark .closeBracket :: bracketed ts)

end

end Tree

/-- `Derives layer t e` holds if the derivation `t` follows the rules of the grammar for a layer,
and `e` is the expression that it derives. -/
inductive Derives : Layer → Tree → Expr → Prop
  | unit {layer : Layer} {term : Tree} {e : Expr} :
      layer ≠ .primary → Derives layer.next term e → Derives layer (.unit term) e
  | binary {layer : Layer} {left right : Tree} {op : BinaryOp} {l r : Expr} :
      op ∈ layer.operators → Derives layer left l → Derives layer.next right r →
      Derives layer (.binary left op right) (.binary .blank op l r)
  | unary {op : PrefixOp} {operand : Tree} {e : Expr} :
      Derives .unary operand e → Derives .unary (.unary op operand) (.unary .blank op e)
  | index {base position : Tree} {name : String} {indices : List Expr} {i : Expr} :
      Derives .suffixed base (.var .blank name indices) → Derives .logical position i →
      Derives .suffixed (.index base position) (.var .blank name (indices ++ [i]))
  | call {base : Tree} {name : String} {parts : List (Tree × Expr)} :
      Derives .suffixed base (.var .blank name []) →
      (∀ part ∈ parts, Derives .logical part.1 part.2) →
      Derives .suffixed (.call base (parts.map Prod.fst)) (.call .blank name (parts.map Prod.snd))
  | number {text : String} {value : Float} :
      Decimal.read? text = some value → Derives .primary (.number text) (.number .blank value)
  | name {text : String} : Derives .primary (.name text) (.var .blank text [])
  | group {inner : Tree} {e : Expr} :
      Derives .logical inner e → Derives .primary (.group inner) e
  | list {parts : List (Tree × Expr)} :
      (∀ part ∈ parts, Derives .logical part.1 part.2) →
      Derives .primary (.list (parts.map Prod.fst)) (.list .blank (parts.map Prod.snd))
  | newArray {parts : List (Tree × Expr)} :
      parts ≠ [] → (∀ part ∈ parts, Derives .logical part.1 part.2) →
      Derives .primary (.newArray (parts.map Prod.fst)) (.newArray .blank (parts.map Prod.snd))

/-! ### What can follow -/

/-- The place of a layer, from the weakest to the strongest. -/
def Layer.rank : Layer → Nat
  | logical => 1
  | relational => 2
  | additive => 3
  | multiplicative => 4
  | unary => 5
  | suffixed => 6
  | primary => 7

/-- The layer that a binary operator belongs to. -/
def layerOf : BinaryOp → Layer
  | .conjunction | .disjunction => .logical
  | .lesser | .greater | .noGreater | .noLesser | .equal | .inequal => .relational
  | .sum | .difference => .additive
  | .product | .quotient | .remainder => .multiplicative

/-- Every operator belongs to one layer. The layers partition the operators, and it is enough to
know which one an operator is in. -/
theorem mem_operators {layer : Layer} {op : BinaryOp} :
    op ∈ layer.operators ↔ layerOf op = layer := by
  cases layer <;> cases op <;> decide

section
variable {layer : Layer} {op : BinaryOp}

/-- The layer of prefix operators has no operators between operands. -/
theorem ne_unary_of_mem (h : op ∈ layer.operators) : layer ≠ .unary := by
  rintro rfl
  cases h

/-- The layer of suffixes has no operators between operands. -/
theorem ne_suffixed_of_mem (h : op ∈ layer.operators) : layer ≠ .suffixed := by
  rintro rfl
  cases h

/-- The innermost layer has no operators between operands. -/
theorem ne_primary_of_mem (h : op ∈ layer.operators) : layer ≠ .primary := by
  rintro rfl
  cases h

end

/-- How strongly a terminal that follows an expression goes on with it: the rank of the layer that
it belongs to, and zero if it does not go on at all. -/
def Terminal.rank : Terminal → Nat
  | .mark .openBracket => Layer.suffixed.rank
  | .mark .openParen => Layer.suffixed.rank
  | .mark kind => ((BinaryOp.ofKind? kind).map fun op => (layerOf op).rank).getD 0
  | _ => 0

/-- An operator goes on with an expression as strongly as its layer does, so the ranks of terminals
and of layers are on one scale. -/
theorem rank_mark_kind (op : BinaryOp) : (Terminal.mark op.kind).rank = (layerOf op).rank := by
  cases op <;> rfl

/-- Whether the first of some terminals, if there is one, is weaker than a bound. -/
def Stops (bound : Nat) (rest : List Terminal) : Prop :=
  ∀ t, rest.head? = some t → t.rank < bound

/-- The end goes on with nothing, however weak the bound is. -/
@[simp]
theorem stops_nil (bound : Nat) : Stops bound [] := by
  simp [Stops]

/-- Only the first terminal decides whether an expression goes on. -/
@[simp]
theorem stops_cons {bound : Nat} {t : Terminal} {rest : List Terminal} :
    Stops bound (t :: rest) ↔ t.rank < bound := by
  simp [Stops]

/-- What does not go on beyond a bound does not go on beyond a greater one. -/
theorem Stops.mono {bound bound' : Nat} {rest : List Terminal} (h : Stops bound rest)
    (hle : bound ≤ bound') : Stops bound' rest :=
  fun t ht => Nat.lt_of_lt_of_le (h t ht) hle

/-! ### What expressions start with -/

/-- Whether a terminal begins a primary expression. -/
def Terminal.opens : Terminal → Bool
  | .number _ | .name _ | .mark .openParen | .mark .openBracket | .mark .newWord => true
  | .mark _ => false

/-- Whether a terminal begins an expression of a layer. -/
def Begins (layer : Layer) (t : Terminal) : Prop :=
  t.opens = true ∨ layer.rank ≤ Layer.unary.rank ∧ ∃ op : PrefixOp, t = .mark op.kind

/-- A derivation has a first terminal, and it is one that begins expressions of its layer. -/
theorem Derives.exists_first {layer : Layer} {t : Tree} {e : Expr} (h : Derives layer t e) :
    ∃ first more, t.yield = first :: more ∧ Begins layer first := by
  induction h with
  | @unit layer term e hne _ ih =>
    obtain ⟨first, more, hyield, hbegins⟩ := ih
    refine ⟨first, more, hyield, hbegins.imp_right fun hop => ⟨?_, hop.2⟩⟩
    have hle := hop.1
    cases layer <;> simp [Layer.next, Layer.rank] at hle ⊢
  | binary _ _ _ ihl _ =>
    obtain ⟨first, more, hyield, hbegins⟩ := ihl
    exact ⟨first, _, by rw [Tree.yield, hyield]; rfl, hbegins⟩
  | @unary op operand e _ _ => exact ⟨.mark op.kind, operand.yield, rfl, .inr ⟨by decide, op, rfl⟩⟩
  | index _ _ ihb _ =>
    obtain ⟨first, more, hyield, hbegins⟩ := ihb
    exact ⟨first, _, by rw [Tree.yield, hyield]; rfl, hbegins⟩
  | call _ _ ihb _ =>
    obtain ⟨first, more, hyield, hbegins⟩ := ihb
    exact ⟨first, _, by rw [Tree.yield, hyield]; rfl, hbegins⟩
  | number _ => exact ⟨_, _, rfl, .inl rfl⟩
  | name => exact ⟨_, _, rfl, .inl rfl⟩
  | group _ _ => exact ⟨_, _, rfl, .inl rfl⟩
  | list _ _ => exact ⟨_, _, rfl, .inl rfl⟩
  | newArray _ _ _ => exact ⟨_, _, rfl, .inl rfl⟩

/-- No expression begins with a terminal that closes one. -/
theorem Derives.first_ne {layer : Layer} {t : Tree} {e : Expr} (h : Derives layer t e)
    {close : Kind} (hclose : close = .closeParen ∨ close = .closeBracket)
    (rest rest' : List Terminal) : t.yield ++ rest ≠ .mark close :: rest' := by
  obtain ⟨first, more, hyield, hbegins⟩ := h.exists_first
  rw [hyield]
  intro heq
  obtain rfl : first = .mark close := List.head_eq_of_cons_eq heq
  rcases hbegins with hopens | ⟨-, op, hop⟩
  · rcases hclose with rfl | rfl <;> cases hopens
  · rcases hclose with rfl | rfl <;> cases op <;> cases hop

/-- No expression starts with a closing mark. So an empty list is told from one with items by its
first terminal. -/
theorem Derives.head?_ne {layer : Layer} {t : Tree} {e : Expr} (h : Derives layer t e)
    {close : Kind} (hclose : close = .closeParen ∨ close = .closeBracket) (rest : List Terminal) :
    (t.yield ++ rest).head? ≠ some (.mark close) := by
  intro hhead
  obtain ⟨more, hmore⟩ := List.head?_eq_some_iff.mp hhead
  exact h.first_ne hclose rest more hmore

/-! ### Spines -/

/-- What can follow a chain or a suffixed expression, and makes a larger one of it. -/
inductive Extension where
  | binary (op : BinaryOp) (right : Tree)
  | index (position : Tree)
  | call (args : List Tree)

namespace Extension

/-- The terminals of an extension. -/
def yield : Extension → List Terminal
  | .binary op right => .mark op.kind :: right.yield
  | .index position => .mark .openBracket :: (position.yield ++ [.mark .closeBracket])
  | .call args => .mark .openParen :: (Tree.separated args ++ [.mark .closeParen])

/-- Whether an extension belongs to a layer, and its parts satisfy `part`. -/
def Fits (part : Layer → Tree → Expr → Prop) (layer : Layer) : Extension → Prop
  | .binary op right => op ∈ layer.operators ∧ ∃ e, part layer.next right e
  | .index position => layer = .suffixed ∧ ∃ e, part .logical position e
  | .call args => layer = .suffixed ∧ ∀ arg ∈ args, ∃ e, part .logical arg e

end Extension

/-- The derivation that an extension makes of what is in front of it. -/
def Tree.extend (base : Tree) : Extension → Tree
  | .binary op right => .binary base op right
  | .index position => .index base position
  | .call args => .call base args

/-- An extension yields its terminals behind those of the base. -/
theorem Tree.yield_extend (base : Tree) (x : Extension) :
    (base.extend x).yield = base.yield ++ x.yield := by
  cases x <;> rfl

/-- A base with several extensions yields its own terminals first and then those of the extensions,
in order. Chains lean to the left, and this reads them from the left. -/
theorem Tree.yield_foldl_extend (base : Tree) (xs : List Extension) :
    (xs.foldl Tree.extend base).yield = base.yield ++ xs.flatMap Extension.yield := by
  induction xs generalizing base with
  | nil => simp
  | cons x xs ih => simp [ih, Tree.yield_extend]

/-- A derivation seen from its first term: the term, and the extensions behind it. The term is what
the expression is, if there are none; otherwise suffixes ask for a variable. -/
def Spine (part : Layer → Tree → Expr → Prop) (layer : Layer) (t : Tree) (e : Expr) : Prop :=
  ∃ head e₀ xs, t = xs.foldl Tree.extend (.unit head) ∧ part layer.next head e₀ ∧
    (∀ x ∈ xs, x.Fits part layer) ∧ (xs = [] ∧ e₀ = e ∨ layer ≠ .suffixed ∨ e₀.isVar = true)

section
variable {part : Layer → Tree → Expr → Prop} {layer : Layer} {t : Tree} {e : Expr}

/-- A part of the next layer is a spine without extensions. -/
theorem Spine.unit (h : part layer.next t e) : Spine part layer (.unit t) e :=
  ⟨t, e, [], rfl, h, by simp, .inl ⟨rfl, rfl⟩⟩

/-- A spine grows by an extension, which is allowed behind suffixes if they denote a variable. -/
theorem Spine.extend (h : Spine part layer t e) {x : Extension} (hx : x.Fits part layer)
    (hvar : layer ≠ .suffixed ∨ e.isVar = true) (e' : Expr) :
    Spine part layer (t.extend x) e' := by
  obtain ⟨head, e₀, xs, rfl, hhead, hxs, hcases⟩ := h
  refine ⟨head, e₀, xs ++ [x], by simp, hhead, ?_, .inr ?_⟩
  · intro y hy
    rcases List.mem_append.mp hy with hy | hy
    · exact hxs y hy
    · rw [List.mem_singleton.mp hy]
      exact hx
  · rcases hcases with ⟨-, rfl⟩ | hcases
    · exact hvar
    · exact hcases

/-- A spine is extended by an operator of its layer and a right operand of the next one. -/
theorem Spine.binary {op : BinaryOp} {right : Tree} {r : Expr} (h : Spine part layer t e)
    (hop : op ∈ layer.operators) (hright : part layer.next right r) (e' : Expr) :
    Spine part layer (.binary t op right) e' :=
  h.extend (x := .binary op right) ⟨hop, r, hright⟩ (.inl (ne_suffixed_of_mem hop)) e'

/-- A spine that is a variable is extended by an index. -/
theorem Spine.index {position : Tree} {i : Expr} (h : Spine part .suffixed t e)
    (hvar : e.isVar = true) (hposition : part .logical position i) (e' : Expr) :
    Spine part .suffixed (.index t position) e' :=
  h.extend (x := .index position) ⟨rfl, i, hposition⟩ (.inr hvar) e'

/-- A spine that is a name is extended by arguments. -/
theorem Spine.call {parts : List (Tree × Expr)} (h : Spine part .suffixed t e)
    (hvar : e.isVar = true) (hparts : ∀ arg ∈ parts, part .logical arg.1 arg.2) (e' : Expr) :
    Spine part .suffixed (.call t (parts.map Prod.fst)) e' := by
  refine h.extend (x := .call (parts.map Prod.fst)) ⟨rfl, ?_⟩ (.inr hvar) e'
  intro arg harg
  obtain ⟨pair, hpair, rfl⟩ := List.mem_map.mp harg
  exact ⟨pair.2, hparts pair hpair⟩

end

/-- Derivations of chains and suffixed expressions have a spine. -/
theorem Derives.spine {layer : Layer} {t : Tree} {e : Expr} (h : Derives layer t e)
    (hunary : layer ≠ .unary) (hprimary : layer ≠ .primary) : Spine Derives layer t e := by
  induction h with
  | unit _ hterm _ => exact .unit hterm
  | binary hop _ hright ihl _ => exact (ihl hunary hprimary).binary hop hright _
  | index _ hposition ihb _ => exact (ihb hunary hprimary).index rfl hposition _
  | call _ hparts ihb _ => exact (ihb hunary hprimary).call rfl hparts _
  | unary => exact absurd rfl hunary
  | number => exact absurd rfl hprimary
  | name => exact absurd rfl hprimary
  | group => exact absurd rfl hprimary
  | list => exact absurd rfl hprimary
  | newArray => exact absurd rfl hprimary

/-! ### Derivations are unique -/

/-- The strength that what follows an expression of a layer must not reach. -/
def Layer.bound (layer : Layer) : Nat :=
  min layer.rank Layer.suffixed.rank

/-- The operators of a layer are too weak to go on with an operand of the next one, so the operand
ends in front of them. -/
theorem rank_lt_bound_next {layer : Layer} (hsuffixed : layer ≠ .suffixed)
    (hprimary : layer ≠ .primary) : layer.rank < layer.next.bound := by
  cases layer with
  | suffixed => exact absurd rfl hsuffixed
  | primary => exact absurd rfl hprimary
  | _ => decide

/-- Whether an expression ends here. Suffixes may follow a primary expression, if it denotes a
variable. -/
def Closed (layer : Layer) (e : Expr) (rest : List Terminal) : Prop :=
  Stops layer.bound rest ∨ layer = .primary ∧ e.isVar = true

/-- Whether a derivation is the only one that reads the terminals of its yield, whatever follows. -/
structure Settled (layer : Layer) (t : Tree) (e : Expr) : Prop where
  derives : Derives layer t e
  eq : ∀ {t' : Tree} {e' : Expr} {rest rest' : List Terminal}, Derives layer t' e' →
    t.yield ++ rest = t'.yield ++ rest' → Closed layer e rest → Closed layer e' rest' →
    t = t' ∧ rest = rest'

/-- Only primary expressions may be followed by suffixes, so in every other layer an expression that
ends here is followed by something weaker. -/
theorem closed_of_ne_primary {layer : Layer} {e : Expr} {rest : List Terminal}
    (h : Closed layer e rest) (hne : layer ≠ .primary) : Stops layer.bound rest :=
  h.resolve_right fun hvar => hne hvar.1

/-- A closing terminal ends every expression. -/
theorem closed_mark {layer : Layer} {e : Expr} {kind : Kind} {rest : List Terminal}
    (h : (Terminal.mark kind).rank = 0) : Closed layer e (.mark kind :: rest) := by
  refine .inl (stops_cons.mpr ?_)
  rw [h]
  cases layer <;> decide

/-- What follows the first term of a spine ends that term: another operator of the layer, a suffix
of a variable, or what ends the whole expression. -/
theorem closed_next {part : Layer → Tree → Expr → Prop} {layer : Layer} {e₀ : Expr}
    {xs : List Extension} {rest : List Terminal} (hxs : ∀ x ∈ xs, x.Fits part layer)
    (hvar : xs = [] ∨ layer ≠ .suffixed ∨ e₀.isVar = true) (hrest : Stops layer.bound rest) :
    Closed layer.next e₀ (xs.flatMap Extension.yield ++ rest) := by
  cases xs with
  | nil => exact .inl (hrest.mono (by cases layer <;> decide))
  | cons x xs =>
    have hx := hxs x List.mem_cons_self
    have hsuffix : layer = .suffixed → Closed layer.next e₀
        ((x :: xs).flatMap Extension.yield ++ rest) := by
      rintro rfl
      exact .inr ⟨rfl, (hvar.resolve_left (by simp)).resolve_left (by simp)⟩
    cases x with
    | index position => exact hsuffix hx.1
    | call args => exact hsuffix hx.1
    | binary op right =>
      refine .inl (stops_cons.mpr ?_)
      rw [rank_mark_kind, mem_operators.mp hx.1]
      exact rank_lt_bound_next (ne_suffixed_of_mem hx.1) (ne_primary_of_mem hx.1)

/-- An extension starts with a terminal that is as strong as its layer. -/
theorem Extension.Fits.not_stops {part : Layer → Tree → Expr → Prop} {layer : Layer}
    {x : Extension} (h : x.Fits part layer) (rest : List Terminal) :
    ¬ Stops layer.bound (x.yield ++ rest) := by
  cases x with
  | binary op right =>
    obtain ⟨hop, -⟩ := h
    rw [Extension.yield, List.cons_append, stops_cons, rank_mark_kind, mem_operators.mp hop]
    exact Nat.not_lt.mpr (Nat.min_le_left _ _)
  | index position =>
    obtain ⟨rfl, -⟩ := h
    exact fun hstops => absurd (stops_cons.mp hstops) (by decide)
  | call args =>
    obtain ⟨rfl, -⟩ := h
    exact fun hstops => absurd (stops_cons.mp hstops) (by decide)

/-- Derivations behind commas are settled together, up to what closes them. -/
theorem settled_continued {close : Kind} (hrank : (Terminal.mark close).rank = 0)
    (hcomma : close ≠ .comma) :
    ∀ {ts ts' : List Tree} {rest rest' : List Terminal},
      (∀ t ∈ ts, ∃ e, Settled .logical t e) → (∀ t ∈ ts', ∃ e, Derives .logical t e) →
      Tree.continued ts ++ .mark close :: rest = Tree.continued ts' ++ .mark close :: rest' →
      ts = ts' ∧ rest = rest'
  | [], [], rest, rest', _, _, heq => ⟨rfl, List.tail_eq_of_cons_eq heq⟩
  | [], t' :: ts', rest, rest', _, _, heq => by
    cases List.head_eq_of_cons_eq heq
    exact absurd rfl hcomma
  | t :: ts, [], rest, rest', _, _, heq => by
    cases List.head_eq_of_cons_eq heq
    exact absurd rfl hcomma
  | t :: ts, t' :: ts', rest, rest', hts, hts', heq => by
    obtain ⟨e, ht⟩ := hts t List.mem_cons_self
    obtain ⟨e', ht'⟩ := hts' t' List.mem_cons_self
    simp only [Tree.continued, List.cons_append, List.cons.injEq, true_and, List.append_assoc]
      at heq
    -- An expression in the list is followed by a comma or by the closing mark, and ends in front of
    -- both.
    have hclosed : ∀ (us : List Tree) (e : Expr) (rest : List Terminal),
        Closed .logical e (Tree.continued us ++ .mark close :: rest) := by
      rintro (_ | ⟨u, us⟩) e rest
      · exact closed_mark hrank
      · exact closed_mark rfl
    obtain ⟨rfl, hrest⟩ := ht.eq ht' heq (hclosed ts e rest) (hclosed ts' e' rest')
    obtain ⟨rfl, rfl⟩ := settled_continued hrank hcomma
      (fun u hu => hts u (List.mem_cons_of_mem _ hu))
      (fun u hu => hts' u (List.mem_cons_of_mem _ hu)) hrest
    exact ⟨rfl, rfl⟩

/-- Derivations between commas are settled together, up to the bracket that closes them. -/
theorem settled_separated {close : Kind} (hclose : close = .closeParen ∨ close = .closeBracket)
    {ts ts' : List Tree} {rest rest' : List Terminal} (hts : ∀ t ∈ ts, ∃ e, Settled .logical t e)
    (hts' : ∀ t ∈ ts', ∃ e, Derives .logical t e)
    (heq : Tree.separated ts ++ .mark close :: rest = Tree.separated ts' ++ .mark close :: rest') :
    ts = ts' ∧ rest = rest' := by
  have hrank : (Terminal.mark close).rank = 0 := by rcases hclose with rfl | rfl <;> rfl
  have hcomma : close ≠ .comma := by rcases hclose with rfl | rfl <;> decide
  cases ts with
  | nil =>
    cases ts' with
    | nil => exact ⟨rfl, List.tail_eq_of_cons_eq heq⟩
    | cons t' ts' =>
      obtain ⟨e', ht'⟩ := hts' t' List.mem_cons_self
      simp only [Tree.separated, List.append_assoc, List.nil_append] at heq
      exact absurd heq.symm (ht'.first_ne hclose _ _)
  | cons t ts =>
    cases ts' with
    | nil =>
      obtain ⟨e, ht⟩ := hts t List.mem_cons_self
      simp only [Tree.separated, List.append_assoc, List.nil_append] at heq
      exact absurd heq (ht.derives.first_ne hclose _ _)
    | cons t' ts' =>
      -- A comma in front of both makes them the case above.
      refine settled_continued hrank hcomma hts hts' ?_
      simp only [Tree.separated, Tree.continued, List.cons_append, List.append_assoc] at heq ⊢
      rw [heq]

/-- Derivations in square brackets are settled together, if no further bracket follows. -/
theorem settled_bracketed :
    ∀ {ts ts' : List Tree} {rest rest' : List Terminal},
      (∀ t ∈ ts, ∃ e, Settled .logical t e) → (∀ t ∈ ts', ∃ e, Derives .logical t e) →
      Tree.bracketed ts ++ rest = Tree.bracketed ts' ++ rest' →
      Stops Layer.suffixed.rank rest → Stops Layer.suffixed.rank rest' → ts = ts' ∧ rest = rest'
  | [], [], rest, rest', _, _, heq, _, _ => ⟨rfl, heq⟩
  | [], t' :: ts', rest, rest', _, _, heq, hrest, _ => by
    rw [show rest = Tree.bracketed (t' :: ts') ++ rest' from heq] at hrest
    exact absurd (stops_cons.mp hrest) (by decide)
  | t :: ts, [], rest, rest', _, _, heq, _, hrest' => by
    rw [show rest' = Tree.bracketed (t :: ts) ++ rest from heq.symm] at hrest'
    exact absurd (stops_cons.mp hrest') (by decide)
  | t :: ts, t' :: ts', rest, rest', hts, hts', heq, hrest, hrest' => by
    obtain ⟨e, ht⟩ := hts t List.mem_cons_self
    obtain ⟨e', ht'⟩ := hts' t' List.mem_cons_self
    simp only [Tree.bracketed, List.cons_append, List.cons.injEq, true_and, List.append_assoc]
      at heq
    obtain ⟨rfl, htail⟩ := ht.eq ht' heq (closed_mark rfl) (closed_mark rfl)
    obtain ⟨rfl, rfl⟩ := settled_bracketed (fun u hu => hts u (List.mem_cons_of_mem _ hu))
      (fun u hu => hts' u (List.mem_cons_of_mem _ hu)) (List.tail_eq_of_cons_eq htail) hrest hrest'
    exact ⟨rfl, rfl⟩

/-- The extensions behind a term are settled together. Each one shows by its first terminal what it
is, and whether there is one at all. -/
theorem settled_extensions {layer : Layer} :
    ∀ {xs xs' : List Extension} {rest rest' : List Terminal},
      (∀ x ∈ xs, x.Fits Settled layer) → (∀ x ∈ xs', x.Fits Derives layer) →
      xs.flatMap Extension.yield ++ rest = xs'.flatMap Extension.yield ++ rest' →
      Stops layer.bound rest → Stops layer.bound rest' → xs = xs' ∧ rest = rest'
  | [], [], rest, rest', _, _, heq, _, _ => ⟨rfl, heq⟩
  | [], x' :: xs', rest, rest', _, hxs', heq, hrest, _ => by
    simp only [List.flatMap_nil, List.nil_append, List.flatMap_cons, List.append_assoc] at heq
    rw [heq] at hrest
    exact absurd hrest ((hxs' x' List.mem_cons_self).not_stops _)
  | x :: xs, [], rest, rest', hxs, _, heq, _, hrest' => by
    simp only [List.flatMap_nil, List.nil_append, List.flatMap_cons, List.append_assoc] at heq
    rw [← heq] at hrest'
    exact absurd hrest' ((hxs x List.mem_cons_self).not_stops _)
  | x :: xs, x' :: xs', rest, rest', hxs, hxs', heq, hrest, hrest' => by
    obtain ⟨hx, hmore⟩ := List.forall_mem_cons.mp hxs
    obtain ⟨hx', hmore'⟩ := List.forall_mem_cons.mp hxs'
    simp only [List.flatMap_cons, List.append_assoc] at heq
    -- It is enough that the two extensions are the same, and that the same terminals follow.
    have hstep : x = x' ∧ xs.flatMap Extension.yield ++ rest
        = xs'.flatMap Extension.yield ++ rest' := by
      cases x with
      | binary op right =>
        obtain ⟨hop, r, hright⟩ := hx
        cases x' with
        | binary op' right' =>
          obtain ⟨hop', r', hright'⟩ := hx'
          simp only [Extension.yield, List.cons_append, List.cons.injEq, Terminal.mark.injEq] at heq
          obtain rfl := BinaryOp.kind_injective heq.1
          have hne := ne_suffixed_of_mem hop
          obtain ⟨rfl, hsame⟩ := hright.eq hright' heq.2
            (closed_next hmore (.inr (.inl hne)) hrest)
            (closed_next hmore' (.inr (.inl hne)) hrest')
          exact ⟨rfl, hsame⟩
        | index position' => exact absurd hx'.1 (ne_suffixed_of_mem hop)
        | call args' => exact absurd hx'.1 (ne_suffixed_of_mem hop)
      | index position =>
        obtain ⟨rfl, i, hposition⟩ := hx
        cases x' with
        | binary op' right' => exact absurd rfl (ne_suffixed_of_mem hx'.1)
        | index position' =>
          obtain ⟨-, i', hposition'⟩ := hx'
          simp only [Extension.yield, List.cons_append, List.cons.injEq, true_and,
            List.append_assoc] at heq
          obtain ⟨rfl, hsame⟩ := hposition.eq hposition' heq (closed_mark rfl) (closed_mark rfl)
          exact ⟨rfl, List.tail_eq_of_cons_eq hsame⟩
        | call args' => cases List.head_eq_of_cons_eq heq
      | call args =>
        obtain ⟨rfl, hargs⟩ := hx
        cases x' with
        | binary op' right' => exact absurd rfl (ne_suffixed_of_mem hx'.1)
        | index position' => cases List.head_eq_of_cons_eq heq
        | call args' =>
          simp only [Extension.yield, List.cons_append, List.cons.injEq, true_and,
            List.append_assoc] at heq
          obtain ⟨rfl, hsame⟩ := settled_separated (.inl rfl) hargs hx'.2 heq
          exact ⟨rfl, hsame⟩
    obtain ⟨rfl, hrests⟩ := hstep
    obtain ⟨rfl, rfl⟩ := settled_extensions hmore hmore' hrests hrest hrest'
    exact ⟨rfl, rfl⟩

/-- A derivation with a spine of settled parts is settled. -/
theorem Spine.settled {layer : Layer} {t : Tree} {e : Expr} (hspine : Spine Settled layer t e)
    (hderives : Derives layer t e) (hunary : layer ≠ .unary) (hprimary : layer ≠ .primary) :
    Settled layer t e := by
  refine ⟨hderives, ?_⟩
  intro t' e' rest rest' h' heq hclosed hclosed'
  obtain ⟨head, e₀, xs, rfl, hhead, hxs, hvar⟩ := hspine
  obtain ⟨head', e₀', xs', rfl, hhead', hxs', hvar'⟩ := h'.spine hunary hprimary
  have hrest := closed_of_ne_primary hclosed hprimary
  have hrest' := closed_of_ne_primary hclosed' hprimary
  simp only [Tree.yield_foldl_extend, Tree.yield, List.append_assoc] at heq
  -- First the terms in front agree, then what extends them.
  obtain ⟨rfl, hsame⟩ := hhead.eq hhead' heq (closed_next hxs (hvar.imp_left And.left) hrest)
    (closed_next hxs' (hvar'.imp_left And.left) hrest')
  obtain ⟨rfl, rfl⟩ := settled_extensions hxs hxs' hsame hrest hrest'
  exact ⟨rfl, rfl⟩

/-- What begins a suffixed expression is not a prefix operator. -/
theorem Derives.yield_ne_mark {t : Tree} {e : Expr} (h : Derives .suffixed t e) (op : PrefixOp)
    (rest rest' : List Terminal) : t.yield ++ rest ≠ .mark op.kind :: rest' := by
  obtain ⟨first, more, hyield, hbegins⟩ := h.exists_first
  rw [hyield]
  intro heq
  obtain rfl : first = .mark op.kind := List.head_eq_of_cons_eq heq
  rcases hbegins with hopens | ⟨hle, -⟩
  · cases op <;> cases hopens
  · exact absurd hle (by decide)

section
variable {parts : List (Tree × Expr)}

/-- What holds of each derivation with its expression holds of each derivation with some one. -/
theorem exists_of_parts {part : Layer → Tree → Expr → Prop}
    (h : ∀ pair ∈ parts, part .logical pair.1 pair.2) :
    ∀ t ∈ parts.map Prod.fst, ∃ e, part .logical t e := by
  intro t ht
  obtain ⟨pair, hpair, rfl⟩ := List.mem_map.mp ht
  exact ⟨pair.2, h pair hpair⟩

/-- An expression without a prefix operator is settled, if it is as a suffixed one. The first
terminal shows that no prefix operator was meant. -/
theorem Settled.unit_unary {term : Tree} {e : Expr} (h : Settled .suffixed term e) :
    Settled .unary (.unit term) e := by
  refine ⟨.unit (by decide) h.derives, ?_⟩
  intro t' e' rest rest' h' heq hclosed hclosed'
  cases h' with
  | binary hop => cases hop
  | unary hoperand => exact absurd heq (h.derives.yield_ne_mark _ _ _)
  | unit _ hterm' =>
    have hrest : Stops Layer.suffixed.bound rest :=
      (closed_of_ne_primary hclosed (by decide)).mono (by decide)
    have hrest' : Stops Layer.suffixed.bound rest' :=
      (closed_of_ne_primary hclosed' (by decide)).mono (by decide)
    obtain ⟨rfl, rfl⟩ := h.eq hterm' heq (.inl hrest) (.inl hrest')
    exact ⟨rfl, rfl⟩

/-- An expression with a prefix operator is settled, if its operand is. The operator is the first
terminal, so every derivation must begin with it. -/
theorem Settled.unary {op : PrefixOp} {operand : Tree} {e : Expr} (h : Settled .unary operand e) :
    Settled .unary (.unary op operand) (.unary .blank op e) := by
  refine ⟨.unary h.derives, ?_⟩
  intro t' e' rest rest' h' heq hclosed hclosed'
  cases h' with
  | binary hop => cases hop
  | unit _ hterm' => exact absurd heq.symm (hterm'.yield_ne_mark _ _ _)
  | unary hoperand' =>
    simp only [Tree.yield, List.cons_append, List.cons.injEq, Terminal.mark.injEq] at heq
    obtain rfl := PrefixOp.kind_injective heq.1
    obtain ⟨rfl, rfl⟩ := h.eq hoperand' heq.2
      (.inl (closed_of_ne_primary hclosed (by decide)))
      (.inl (closed_of_ne_primary hclosed' (by decide)))
    exact ⟨rfl, rfl⟩

/-- A number is settled, as it is the only expression that begins with this terminal and is of the
innermost layer. -/
theorem Settled.number {text : String} {value : Float} (h : Decimal.read? text = some value) :
    Settled .primary (.number text) (.number .blank value) := by
  refine ⟨.number h, ?_⟩
  intro t' e' rest rest' h' heq _ _
  cases h' with
  | binary hop => cases hop
  | unit hne => exact absurd rfl hne
  | number _ =>
    cases List.head_eq_of_cons_eq heq
    exact ⟨rfl, List.tail_eq_of_cons_eq heq⟩
  | _ => cases List.head_eq_of_cons_eq heq

/-- A name is settled, as it is the only expression that begins with this terminal and is of the
innermost layer. -/
theorem Settled.name {text : String} : Settled .primary (.name text) (.var .blank text []) := by
  refine ⟨.name, ?_⟩
  intro t' e' rest rest' h' heq _ _
  cases h' with
  | binary hop => cases hop
  | unit hne => exact absurd rfl hne
  | name =>
    cases List.head_eq_of_cons_eq heq
    exact ⟨rfl, List.tail_eq_of_cons_eq heq⟩
  | _ => cases List.head_eq_of_cons_eq heq

/-- An expression in parentheses is settled, if the inner one is: it ends in front of the closing
parenthesis in every derivation. -/
theorem Settled.group {inner : Tree} {e : Expr} (h : Settled .logical inner e) :
    Settled .primary (.group inner) e := by
  refine ⟨.group h.derives, ?_⟩
  intro t' e' rest rest' h' heq _ _
  cases h' with
  | binary hop => cases hop
  | unit hne => exact absurd rfl hne
  | group hinner' =>
    simp only [Tree.yield, List.cons_append, List.cons.injEq, true_and, List.append_assoc] at heq
    obtain ⟨rfl, hsame⟩ := h.eq hinner' heq (closed_mark rfl) (closed_mark rfl)
    exact ⟨rfl, List.tail_eq_of_cons_eq hsame⟩
  | _ => cases List.head_eq_of_cons_eq heq

/-- A list is settled, if its items are. -/
theorem Settled.list (h : ∀ pair ∈ parts, Settled .logical pair.1 pair.2) :
    Settled .primary (.list (parts.map Prod.fst)) (.list .blank (parts.map Prod.snd)) := by
  refine ⟨.list fun pair hpair => (h pair hpair).derives, ?_⟩
  intro t' e' rest rest' h' heq _ _
  cases h' with
  | binary hop => cases hop
  | unit hne => exact absurd rfl hne
  | list hparts' =>
    simp only [Tree.yield, List.cons_append, List.cons.injEq, true_and, List.append_assoc] at heq
    obtain ⟨hsame, rfl⟩ := settled_separated (.inr rfl) (exists_of_parts h)
      (exists_of_parts hparts') heq
    exact ⟨congrArg Tree.list hsame, rfl⟩
  | _ => cases List.head_eq_of_cons_eq heq

/-- An array constructor is settled, if its sizes are. No further bracket follows, so every
derivation has the same number of them. -/
theorem Settled.newArray (hne : parts ≠ []) (h : ∀ pair ∈ parts, Settled .logical pair.1 pair.2) :
    Settled .primary (.newArray (parts.map Prod.fst)) (.newArray .blank (parts.map Prod.snd)) := by
  refine ⟨.newArray hne fun pair hpair => (h pair hpair).derives, ?_⟩
  intro t' e' rest rest' h' heq hclosed hclosed'
  cases h' with
  | binary hop => cases hop
  | unit hne => exact absurd rfl hne
  | newArray _ hparts' =>
    simp only [Tree.yield, List.cons_append, List.cons.injEq, true_and] at heq
    have hrest := hclosed.resolve_right fun hvar => Bool.noConfusion hvar.2
    have hrest' := hclosed'.resolve_right fun hvar => Bool.noConfusion hvar.2
    obtain ⟨hsame, rfl⟩ := settled_bracketed (exists_of_parts h) (exists_of_parts hparts') heq
      hrest hrest'
    exact ⟨congrArg Tree.newArray hsame, rfl⟩
  | _ => cases List.head_eq_of_cons_eq heq

end

/-- Every derivation is settled, and those that have a spine have one of settled parts. -/
theorem Derives.settled {layer : Layer} {t : Tree} {e : Expr} (h : Derives layer t e) :
    Settled layer t e ∧ (layer ≠ .unary → layer ≠ .primary → Spine Settled layer t e) := by
  -- Chains are settled by their spine as a whole, not link by link. So the induction also hands on
  -- the spine, with parts that are settled.
  induction h with
  | @unit layer term e hne hterm ih =>
    have hspine : Spine Settled layer (.unit term) e := .unit ih.1
    refine ⟨?_, fun _ _ => hspine⟩
    by_cases hunary : layer = .unary
    · subst hunary
      exact ih.1.unit_unary
    · exact hspine.settled (.unit hne hterm) hunary hne
  | @binary layer left right op l r hop hleft hright ihl ihr =>
    have hspine := (ihl.2 (ne_unary_of_mem hop) (ne_primary_of_mem hop)).binary hop ihr.1
      (.binary .blank op l r)
    exact ⟨hspine.settled (.binary hop hleft hright) (ne_unary_of_mem hop) (ne_primary_of_mem hop),
      fun _ _ => hspine⟩
  | @index base position name indices i hbase hposition ihb ihp =>
    have hspine := (ihb.2 (by decide) (by decide)).index rfl ihp.1
      (.var .blank name (indices ++ [i]))
    exact ⟨hspine.settled (.index hbase hposition) (by decide) (by decide), fun _ _ => hspine⟩
  | @call base name parts hbase hparts ihb ihp =>
    have hspine := (ihb.2 (by decide) (by decide)).call rfl (fun pair hpair => (ihp pair hpair).1)
      (.call .blank name (parts.map Prod.snd))
    exact ⟨hspine.settled (.call hbase hparts) (by decide) (by decide), fun _ _ => hspine⟩
  | unary _ ih => exact ⟨ih.1.unary, fun hne => absurd rfl hne⟩
  | number hvalue => exact ⟨.number hvalue, fun _ hne => absurd rfl hne⟩
  | name => exact ⟨.name, fun _ hne => absurd rfl hne⟩
  | group _ ih => exact ⟨ih.1.group, fun _ hne => absurd rfl hne⟩
  | list _ ih => exact ⟨.list fun pair hpair => (ih pair hpair).1, fun _ hne => absurd rfl hne⟩
  | newArray hne _ ih =>
    exact ⟨.newArray hne fun pair hpair => (ih pair hpair).1, fun _ hne => absurd rfl hne⟩

/-- Derivations that are equal one by one derive equal expressions, if each one does. -/
theorem map_snd_eq :
    ∀ {parts parts' : List (Tree × Expr)},
      (∀ pair ∈ parts, ∀ {e' : Expr}, Derives .logical pair.1 e' → pair.2 = e') →
      (∀ pair ∈ parts', Derives .logical pair.1 pair.2) →
      parts.map Prod.fst = parts'.map Prod.fst → parts.map Prod.snd = parts'.map Prod.snd
  | [], [], _, _, _ => rfl
  | [], _ :: _, _, _, heq => by cases heq
  | _ :: _, [], _, _, heq => by cases heq
  | (t, e) :: parts, (t', e') :: parts', hparts, hparts', heq => by
    obtain ⟨rfl, hmore⟩ := List.cons.inj heq
    obtain rfl : e = e' := hparts _ List.mem_cons_self (hparts' _ List.mem_cons_self)
    have hrest := map_snd_eq (fun pair hpair => hparts pair (List.mem_cons_of_mem _ hpair))
      (fun pair hpair => hparts' pair (List.mem_cons_of_mem _ hpair)) hmore
    rw [List.map_cons, List.map_cons, hrest]

/-- A derivation derives one expression. -/
theorem Derives.expr_eq {layer : Layer} {t : Tree} {e e' : Expr} (h : Derives layer t e)
    (h' : Derives layer t e') : e = e' := by
  induction h generalizing e' with
  | unit _ _ ih =>
    cases h' with
    | unit _ hterm' => exact ih hterm'
  | binary _ _ _ ihl ihr =>
    cases h' with
    | binary _ hleft' hright' => rw [ihl hleft', ihr hright']
  | unary _ ih =>
    cases h' with
    | unary hoperand' => rw [ih hoperand']
  | index _ _ ihb ihp =>
    cases h' with
    | index hbase' hposition' =>
      cases ihb hbase'
      rw [ihp hposition']
  | @call base name parts _ _ ihb ihp =>
    -- The parts of a node come as a mapped list, which inversion cannot take apart. So the tree is
    -- generalized first, and its equation solved afterwards.
    generalize ht : Tree.call base (parts.map Prod.fst) = t at h'
    cases h' with
    | call hbase' hparts' =>
      obtain ⟨rfl, hmap⟩ := Tree.call.inj ht
      cases ihb hbase'
      rw [map_snd_eq ihp hparts' hmap]
    | _ => cases ht
  | number hvalue =>
    cases h' with
    | number hvalue' => rw [Option.some.inj (hvalue.symm.trans hvalue')]
  | name =>
    cases h' with
    | name => rfl
  | group _ ih =>
    cases h' with
    | group hinner' => exact ih hinner'
  | @list parts _ ih =>
    generalize ht : Tree.list (parts.map Prod.fst) = t at h'
    cases h' with
    | list hparts' => rw [map_snd_eq ih hparts' (Tree.list.inj ht)]
    | _ => cases ht
  | @newArray parts _ _ ih =>
    generalize ht : Tree.newArray (parts.map Prod.fst) = t at h'
    cases h' with
    | newArray _ hparts' => rw [map_snd_eq ih hparts' (Tree.newArray.inj ht)]
    | _ => cases ht

/-- The grammar is unambiguous: what is derived, and how, can be read off the terminals. -/
theorem Derives.unique {layer : Layer} {t t' : Tree} {e e' : Expr} (h : Derives layer t e)
    (h' : Derives layer t' e') (heq : t.yield = t'.yield) : t = t' ∧ e = e' := by
  have happend : t.yield ++ [] = t'.yield ++ [] := by rw [heq]
  obtain ⟨rfl, -⟩ := h.settled.1.eq h' happend (.inl (stops_nil _)) (.inl (stops_nil _))
  exact ⟨rfl, h.expr_eq h'⟩

end Grammar

end ArrayScript
