import ArrayScript.Expr.Parse
import ArrayScript.Proofs.Grammar

/-!
# `ArrayScript.Proofs.Parsing`: what is read is what the grammar derives

The parser of expressions is driven by powers and knows no layers. This file relates it to the
layered grammar of `ArrayScript.Proofs.Grammar`, in both directions.

* Soundness follows the parser function by function. An expression read at some power is derived in
  the layer above that power (`Power.layer`), and what is left does not go on with it. The loop over
  links has an invariant: what it holds is derived in some layer, and what is left goes on with it
  at most as strongly as that layer does.
* Completeness follows the derivation. A chain is read by one loop from its first term on, so the
  induction does not say that the parser reads a part of it and stops, but that it comes to the
  loop with the expression that the part derives (`Parsed`).

`Yields` and `Gives` are what a reader results in if it succeeds, and that it succeeds.
-/

set_option autoImplicit false

namespace ArrayScript

open Grammar
open Token (Kind Cursor)

/-! ### Tokens as terminals -/

/-- Whether the grammar sees no more of a token than its kind. Of numbers and names it sees the text
as well, since the derived expression holds their value or their name. -/
def Token.Kind.isMark : Kind → Bool
  | .number | .identifier => false
  | _ => true

namespace Token

/-- What the grammar sees of a token. Spans are left out, so derivations say nothing of them, and
the parser is compared with the grammar up to spans. -/
def terminal (token : Token) : Terminal :=
  match token.kind with
  | .number => .number token.text
  | .identifier => .name token.text
  | kind => .mark kind

variable {token : Token} {kind : Kind} {text : String}

/-- A token is seen as a mark exactly if it has that kind and the kind is one of a mark. The parser
asks for kinds and the grammar for terminals; this is how each is turned into the other. -/
theorem terminal_eq_mark_iff : token.terminal = .mark kind ↔ token.kind = kind ∧ kind.isMark := by
  constructor
  · intro h
    unfold terminal at h
    split at h
    · cases h
    · cases h
    next hnumber hname =>
      cases h
      refine ⟨rfl, ?_⟩
      unfold Kind.isMark
      split
      · exact absurd ‹_› hnumber
      · exact absurd ‹_› hname
      · rfl
  · rintro ⟨rfl, hmark⟩
    unfold terminal
    split
    next h => rw [h] at hmark; cases hmark
    next h => rw [h] at hmark; cases hmark
    · rfl

/-- A token is seen as a number exactly if it is one, with its text. The value is not part of the
terminal: that the text has one is a condition of the rule for numbers. -/
theorem terminal_eq_number_iff :
    token.terminal = .number text ↔ token.kind = .number ∧ token.text = text := by
  unfold terminal
  split <;> simp_all

/-- A token is seen as a name exactly if it is an identifier, with its text. -/
theorem terminal_eq_name_iff :
    token.terminal = .name text ↔ token.kind = .identifier ∧ token.text = text := by
  unfold terminal
  split <;> simp_all

/-- A terminal goes on with an expression as strongly as its link binds. Argument lists and indices
belong to one layer, which is why ranks are cut off at it. With this the powers of the parser and
the layers of the grammar are measured on one scale. -/
theorem rank_terminal (token : Token) :
    token.terminal.rank
      = ((Link.ofKind? token.kind).map fun link => min link.power.rank 6).getD 0 := by
  unfold terminal
  obtain ⟨kind, text, span⟩ := token
  cases kind <;> rfl

end Token

/-! ### Powers and layers -/

/-- The layer that an expression read at a power belongs to: the one right above the power. Behind a
prefix operator another one may be read, so at that power it is the layer of prefix operators
itself. -/
def Power.layer : Power → Layer
  | lowest => .logical
  | logical => .relational
  | relational => .additive
  | additive => .multiplicative
  | _ => .unary

/-- The layer of a power as a rank, in which form the comparisons below are settled by arithmetic.
-/
theorem Power.rank_layer (power : Power) : power.layer.rank = min (power.rank + 1) 5 := by
  cases power <;> rfl

/-- The layer of a power is at most that of suffixes, so a suffixed expression may be held by the
loop at any power. -/
theorem Power.rank_layer_le (power : Power) : power.layer.rank ≤ 6 := by
  cases power <;> decide

/-- The right operand of an operator is read in the layer above that of the operator. Chains of one
layer therefore lean to the left, as the grammar has it. -/
theorem BinaryOp.layer_power (op : BinaryOp) : op.power.layer = (layerOf op).next := by
  cases op <;> rfl

/-- An operator binds as strongly in the parser as it does in the grammar. The two tables are
independent of each other, and this is where they are compared. -/
theorem BinaryOp.rank_power (op : BinaryOp) : op.power.rank = (layerOf op).rank := by
  cases op <;> rfl

/-- Operators bind less strongly than prefix operators and suffixes. So what stands behind one is
read at a power for which the lemmas below are stated. -/
theorem BinaryOp.rank_power_le (op : BinaryOp) : op.power.rank ≤ 4 := by
  cases op <;> decide

/-- An operator is seen by its kind only, so its token and its terminal determine each other. -/
theorem BinaryOp.isMark_kind (op : BinaryOp) : op.kind.isMark := by
  cases op <;> rfl

/-- A prefix operator is seen by its kind only, so its token and its terminal determine each other.
-/
theorem PrefixOp.isMark_kind (op : PrefixOp) : op.kind.isMark := by
  cases op <;> rfl

/-- The loop takes a link exactly if the token is one and it binds more strongly than the power.
Soundness uses this from left to right, and completeness from right to left. -/
theorem Link.above?_eq_some_iff {power : Power} {kind : Kind} {link : Link} :
    Link.above? power kind = some link ↔
      Link.ofKind? kind = some link ∧ power.rank < link.power.rank := by
  simp [Link.above?, Option.filter_eq_some_iff]

/-- The tokens that link as an operator are those of the operator's kind, and each kind belongs to
one operator only. -/
theorem Link.ofKind?_eq_binary {kind : Kind} {op : BinaryOp} :
    Link.ofKind? kind = some (.binary op) ↔ kind = op.kind := by
  constructor
  · intro h
    cases kind <;> cases h <;> rfl
  · rintro rfl
    cases op <;> rfl

/-- The only token that links as an argument list is an opening parenthesis. -/
theorem Link.ofKind?_eq_call {kind : Kind} :
    Link.ofKind? kind = some .call ↔ kind = .openParen := by
  cases kind <;> simp [Link.ofKind?, BinaryOp.ofKind?]

/-- The only token that links as an index is an opening bracket. -/
theorem Link.ofKind?_eq_index {kind : Kind} :
    Link.ofKind? kind = some .index ↔ kind = .openBracket := by
  cases kind <;> simp [Link.ofKind?, BinaryOp.ofKind?]

/-- A token has no link for a power exactly if its terminal is no stronger than that. So the loop
ends exactly where the grammar says that an expression of the layer has to end. -/
theorem Link.above?_eq_none_iff {power : Power} (hpower : power.rank ≤ 5) {token : Token} :
    Link.above? power token.kind = none ↔ token.terminal.rank ≤ power.rank := by
  rw [Token.rank_terminal, Link.above?]
  cases Link.ofKind? token.kind with
  | none => simp
  | some link =>
    rw [Option.filter_some]
    simp only [Option.map_some, Option.getD_some]
    split
    next h =>
      have := of_decide_eq_true h
      simp only [reduceCtorEq, false_iff]
      omega
    next h =>
      have : ¬ power.rank < link.power.rank := fun hlt => h (decide_eq_true hlt)
      simp only [true_iff]
      omega

/-! ### Cursors -/

namespace Token.Cursor

/-- The terminals that are still to be read. The end token that closes the list is not among them,
since no rule of the grammar mentions it. -/
def terminals (c : Cursor) : List Terminal :=
  c.rest.map Token.terminal

/-- Whether some terminals, and the end token `close` behind them, are still to be read.
Completeness starts from a cursor in front of a given derivation, and this is how it is given. -/
structure Ahead (close : Token) (c : Cursor) (rest : List Terminal) : Prop where
  close_eq : c.close = close
  terminals_eq : c.terminals = rest

section

variable {c : Cursor} {close : Token} {kind : Kind} {t : Terminal} {rest : List Terminal}

/-- Taking a token takes its terminal off those to be read. All steps of the parser come down to
this one. -/
theorem terminals_of_next? {token : Token} {d : c.After} (h : c.next? = some (token, d)) :
    c.terminals = token.terminal :: d.1.terminals := by
  unfold next? at h
  split at h
  · cases h
  next first more hrest =>
    cases h
    simp [terminals, hrest]

/-- Taking a token leaves the end token as it is, so it is the same one all along. -/
theorem close_of_next? {token : Token} {d : c.After} (h : c.next? = some (token, d)) :
    d.1.close = c.close := by
  unfold next? at h
  split at h
  · cases h
  · cases h
    rfl

/-- When no token can be taken, there is no terminal to be read, and hence nothing that could go on
with an expression. -/
theorem terminals_of_next?_none (h : c.next? = none) : c.terminals = [] := by
  unfold next? at h
  split at h
  next hrest => simp [terminals, hrest]
  · cases h

/-- Skipping a mark takes it off the terminals to be read. It is the form in which optional commas
and brackets are met. -/
theorem terminals_of_skip? {d : c.After} (hmark : kind.isMark) (h : c.skip? kind = some d) :
    c.terminals = .mark kind :: d.1.terminals := by
  unfold skip? at h
  split at h
  next token f hnext =>
    split at h
    next hkind =>
      cases h
      rw [terminals_of_next? hnext, terminal_eq_mark_iff.mpr ⟨hkind, hmark⟩]
    · cases h
  · cases h

/-- In front of no terminal, no token can be taken, and the loop over links ends. -/
theorem Ahead.next?_nil (h : c.Ahead close []) : c.next? = none := by
  cases hnext : c.next? with
  | none => rfl
  | some pair =>
    have := terminals_of_next? hnext
    rw [h.terminals_eq] at this
    cases this

/-- In front of a terminal, a token can be taken that is seen as this terminal, and the remaining
ones are ahead of what is left. -/
theorem Ahead.next?_cons (h : c.Ahead close (t :: rest)) :
    ∃ token d hd, c.next? = some (token, ⟨d, hd⟩) ∧ token.terminal = t ∧ d.Ahead close rest := by
  obtain ⟨hclose, hterminals⟩ := h
  cases hnext : c.next? with
  | none =>
    rw [terminals_of_next?_none hnext] at hterminals
    cases hterminals
  | some pair =>
    obtain ⟨token, d, hd⟩ := pair
    rw [terminals_of_next? hnext] at hterminals
    obtain ⟨htoken, hmore⟩ := List.cons.inj hterminals
    exact ⟨token, d, hd, rfl, htoken, (close_of_next? hnext).trans hclose, hmore⟩

/-- In front of a mark, that mark can be skipped, and the remaining terminals are ahead of what is
left. -/
theorem Ahead.skip?_mark (h : c.Ahead close (.mark kind :: rest)) :
    ∃ d hd, c.skip? kind = some ⟨d, hd⟩ ∧ d.Ahead close rest := by
  obtain ⟨token, d, hd, hnext, htoken, hahead⟩ := h.next?_cons
  refine ⟨d, hd, ?_, hahead⟩
  simp [skip?, hnext, (terminal_eq_mark_iff.mp htoken).1]

/-- In front of anything else, a mark cannot be skipped. The parser decides by this whether a list
goes on, so it is needed as much as its counterpart. -/
theorem Ahead.skip?_none (h : c.Ahead close rest) (hmark : kind.isMark)
    (hhead : rest.head? ≠ some (.mark kind)) : c.skip? kind = none := by
  cases hskip : c.skip? kind with
  | none => rfl
  | some d =>
    have := terminals_of_skip? hmark hskip
    rw [h.terminals_eq] at this
    rw [this] at hhead
    exact absurd rfl hhead

end

/-! ### Results of readers -/

section

variable {α β : Type} {P Q : Cursor → Prop} {post : α → Cursor → Prop} {goal : β → Cursor → Prop}

/-- Everything that a reader can result in satisfies `post`. Soundness is stated with it: nothing is
said of whether the reader succeeds. -/
def Yields (result : Except Fault (α × Subtype P)) (post : α → Cursor → Prop) : Prop :=
  ∀ a d hd, result = .ok (a, ⟨d, hd⟩) → post a d

/-- A reader succeeds, and what it results in satisfies `post`. Completeness is stated with it. -/
def Gives (result : Except Fault (α × Subtype P)) (post : α → Cursor → Prop) : Prop :=
  ∃ a d hd, result = .ok (a, ⟨d, hd⟩) ∧ post a d

/-- A reader that ends with a result yields it. It is the last step of each branch of the parser. -/
theorem Yields.ok {a : α} {d : Subtype P} (h : post a d.1) :
    Yields (.ok (a, d) : Except Fault (α × Subtype P)) post := by
  rintro _ _ _ ⟨⟩
  exact h

/-- A reader that fails yields nothing, so soundness has nothing to say of the branches that end in
a fault. -/
theorem Yields.error {fault : Fault} :
    Yields (.error fault : Except Fault (α × Subtype P)) post := by
  rintro _ _ _ ⟨⟩

/-- A reader in two parts yields what the second one does, from everything that the first one
yields. The parser is written as sequences of readers, and soundness follows them by this lemma. -/
theorem Yields.bind {m : Except Fault (α × Subtype P)}
    {k : α × Subtype P → Except Fault (β × Subtype Q)} (hm : Yields m post)
    (hk : ∀ a d hd, post a d → Yields (k (a, ⟨d, hd⟩)) goal) : Yields (m >>= k) goal := by
  intro b f hf h
  cases m with
  | error fault => cases h
  | ok r => exact hk r.1 r.2.1 r.2.2 (hm r.1 r.2.1 r.2.2 rfl) b f hf h

/-- A reader that ends with a result gives it. -/
theorem Gives.ok {a : α} {d : Subtype P} (h : post a d.1) :
    Gives (.ok (a, d) : Except Fault (α × Subtype P)) post :=
  ⟨a, d.1, d.2, rfl, h⟩

/-- A reader in two parts gives what the second one gives from what the first one gives. -/
theorem Gives.bind {m : Except Fault (α × Subtype P)}
    {k : α × Subtype P → Except Fault (β × Subtype Q)} (hm : Gives m post)
    (hk : ∀ a d hd, post a d → Gives (k (a, ⟨d, hd⟩)) goal) : Gives (m >>= k) goal := by
  obtain ⟨a, d, hd, rfl, hpost⟩ := hm
  exact hk a d hd hpost

/-- A reader in two parts, when the result of the first one is known exactly. The loop over links
needs this form, because its spans are made from what was read. -/
theorem Gives.bind_ok {m : Except Fault (α × Subtype P)}
    {k : α × Subtype P → Except Fault (β × Subtype Q)} {r : α × Subtype P} (hm : m = .ok r)
    (hk : Gives (k r) goal) : Gives (m >>= k) goal := by
  rw [hm]
  exact hk

/-- A mark that was asked for was there. After it the terminals are those behind the mark. -/
theorem yields_expect {c : Cursor} {kind : Kind} (hmark : kind.isMark) :
    Yields (c.expect kind) fun _ d => c.terminals = .mark kind :: d.terminals := by
  unfold expect expectOr
  split
  next token f hnext =>
    split
    next hkind =>
      refine .ok ?_
      rw [terminals_of_next? hnext, terminal_eq_mark_iff.mpr ⟨hkind, hmark⟩]
    · exact .error
  · exact .error

/-- A mark that is there is found when it is asked for, whatever fault was held ready in case it
were not. -/
theorem Ahead.gives_expectOr {c : Cursor} {close : Token} {kind : Kind} {rest : List Terminal}
    (h : c.Ahead close (.mark kind :: rest)) (fault : Fault) :
    Gives (c.expectOr kind fault) fun _ d => d.Ahead close rest := by
  obtain ⟨token, d, hd, hnext, htoken, hahead⟩ := h.next?_cons
  refine ⟨token, d, hd, ?_, hahead⟩
  simp [expectOr, hnext, (terminal_eq_mark_iff.mp htoken).1]

/-- A mark that is there is found when it is asked for. Closing brackets and the word behind `new`
are read in this way. -/
theorem Ahead.gives_expect {c : Cursor} {close : Token} {kind : Kind} {rest : List Terminal}
    (h : c.Ahead close (.mark kind :: rest)) :
    Gives (c.expect kind) fun _ d => d.Ahead close rest :=
  h.gives_expectOr c.unexpected

end

end Token.Cursor

/-! ### Soundness -/

namespace Grammar

/-- Whether `all` starts with a derivation of `e` in a layer and goes on with `rest`. The derivation
is of the expression without spans, which the grammar does not know. -/
def Consumes (layer : Layer) (e : Expr) (all rest : List Terminal) : Prop :=
  ∃ t, Derives layer t e.bare ∧ all = t.yield ++ rest

/-- Whether `all` starts with derivations of `es`, arranged by `text`, and goes on with `rest`. The
arrangement is a parameter, as lists are separated by commas and sizes stand in brackets. -/
def ConsumesAll (text : List Tree → List Terminal) (es : List Expr) (all rest : List Terminal) :
    Prop :=
  ∃ parts : List (Tree × Expr), (∀ pair ∈ parts, Derives .logical pair.1 pair.2) ∧
    parts.map Prod.snd = es.map Expr.bare ∧ all = text (parts.map Prod.fst) ++ rest

/-- What the loop over links holds: an expression of some layer from `floor` on, and behind it
terminals that go on with it at most as strongly as its layer does. The layer rises and falls while
the loop runs, so the invariant only bounds it from below. -/
def Held (floor : Nat) (e : Expr) (all rest : List Terminal) : Prop :=
  ∃ layer, floor ≤ layer.rank ∧ layer ≠ .primary ∧ Consumes layer e all rest ∧
    Stops (layer.rank + 1) rest

section

variable {layer : Layer} {span span' : Span} {name : String} {e l r i : Expr} {es : List Expr}
  {floor : Nat} {all mid rest : List Terminal}

/-- An expression of a layer is an expression of every weaker one. In a derivation this is a chain
of unit steps, one for each layer in between, so the induction goes down from the layer to the
weaker one. -/
theorem Consumes.lift (h : Consumes layer e all rest) :
    ∀ {weaker : Layer}, weaker.rank ≤ layer.rank → Consumes weaker e all rest := by
  intro weaker hle
  by_cases heq : weaker = layer
  · rw [heq]
    exact h
  · have hnext : weaker.next.rank ≤ layer.rank ∧ weaker ≠ .primary := by
      revert hle heq
      cases weaker <;> cases layer <;> decide
    obtain ⟨t, ht, hall⟩ := h.lift hnext.1
    exact ⟨.unit t, .unit hnext.2 ht, hall⟩
termination_by weaker => 7 - weaker.rank
decreasing_by
  cases weaker <;> simp_all [Layer.rank, Layer.next]

/-- An expression in parentheses is a primary one. The parentheses leave no trace in the expression,
which is why it is the same on both sides. -/
theorem Consumes.group (h : Consumes .logical e all (.mark .closeParen :: rest)) :
    Consumes .primary e (.mark .openParen :: all) rest := by
  obtain ⟨t, ht, rfl⟩ := h
  exact ⟨.group t, .group ht, by simp [Tree.yield]⟩

/-- Expressions between brackets are a list, which may have no items. -/
theorem ConsumesAll.list (h : ConsumesAll Tree.separated es all (.mark .closeBracket :: rest)) :
    Consumes .primary (.list span es) (.mark .openBracket :: all) rest := by
  obtain ⟨parts, hparts, hes, rfl⟩ := h
  refine ⟨.list (parts.map Prod.fst), ?_, by simp [Tree.yield]⟩
  rw [Expr.bare, Expr.bareAll_eq_map, ← hes]
  exact .list hparts

/-- Sizes behind `new number` are an array constructor. The grammar asks for one size at least, and
so does the parser. -/
theorem ConsumesAll.newArray (hne : es.isEmpty = false)
    (h : ConsumesAll Tree.bracketed es all rest) :
    Consumes .primary (.newArray span es) (.mark .newWord :: .mark .numberWord :: all) rest := by
  obtain ⟨parts, hparts, hes, rfl⟩ := h
  refine ⟨.newArray (parts.map Prod.fst), ?_, by simp [Tree.yield]⟩
  have hsome : parts ≠ [] := by
    rintro rfl
    rw [List.map_eq_nil_iff.mp hes.symm] at hne
    cases hne
  rw [Expr.bare, Expr.bareAll_eq_map, ← hes]
  exact .newArray hsome hparts

/-- A prefix operator in front of an expression of its layer is one of that layer again, so prefix
operators can be stacked. -/
theorem Consumes.unary {op : PrefixOp} (h : Consumes .unary e all rest) :
    Consumes .unary (.unary span op e) (.mark op.kind :: all) rest := by
  obtain ⟨t, ht, rfl⟩ := h
  exact ⟨.unary op t, .unary ht, by simp [Tree.yield]⟩

/-- An operator between an expression of its layer and one of the next is an expression of its
layer. The left side may be a chain of the same layer, the right side may not. -/
theorem Consumes.binary {op : BinaryOp} (hl : Consumes (layerOf op) l all (.mark op.kind :: mid))
    (hr : Consumes (layerOf op).next r mid rest) :
    Consumes (layerOf op) (.binary span op l r) all rest := by
  obtain ⟨t, ht, rfl⟩ := hl
  obtain ⟨u, hu, rfl⟩ := hr
  exact ⟨.binary t op u, .binary (mem_operators.mpr rfl) ht hu, by simp [Tree.yield]⟩

/-- An index behind a variable with indices makes it a variable with one index more. Only variables
have indices, so the rule is about these and not about all suffixed expressions. -/
theorem Consumes.index
    (hbase : Consumes .suffixed (.var span name es) all (.mark .openBracket :: mid))
    (hi : Consumes .logical i mid (.mark .closeBracket :: rest)) :
    Consumes .suffixed (.var span' name (es ++ [i])) all rest := by
  obtain ⟨t, ht, rfl⟩ := hbase
  obtain ⟨u, hu, rfl⟩ := hi
  refine ⟨.index t u, ?_, by simp [Tree.yield]⟩
  rw [Expr.bare, Expr.bareAll_eq_map, List.map_append]
  rw [Expr.bare, Expr.bareAll_eq_map] at ht
  exact .index ht hu

/-- Arguments in parentheses behind a name make a call. The name is a variable without indices, as
elements of arrays cannot be called. -/
theorem Consumes.call
    (hbase : Consumes .suffixed (.var span name []) all (.mark .openParen :: mid))
    (hargs : ConsumesAll Tree.separated es mid (.mark .closeParen :: rest)) :
    Consumes .suffixed (.call span' name es) all rest := by
  obtain ⟨t, ht, rfl⟩ := hbase
  obtain ⟨parts, hparts, hes, rfl⟩ := hargs
  refine ⟨.call t (parts.map Prod.fst), ?_, by simp [Tree.yield]⟩
  rw [Expr.bare, Expr.bareAll_eq_map, ← hes]
  exact .call ht hparts

/-- No expressions are derived from nothing, in every arrangement that makes nothing of them. -/
theorem ConsumesAll.nil (text : List Tree → List Terminal) (htext : text [] = []) :
    ConsumesAll text [] rest rest :=
  ⟨[], by simp, rfl, by simp [htext]⟩

/-- One more expression behind a comma, in front of others that stand behind commas. -/
theorem ConsumesAll.continued (h : Consumes .logical e all mid)
    (hes : ConsumesAll Tree.continued es mid rest) :
    ConsumesAll Tree.continued (e :: es) (.mark .comma :: all) rest := by
  obtain ⟨t, ht, rfl⟩ := h
  obtain ⟨parts, hparts, hsnd, rfl⟩ := hes
  refine ⟨(t, e.bare) :: parts, ?_, by simp [hsnd], by simp [Tree.continued]⟩
  exact List.forall_mem_cons.mpr ⟨ht, hparts⟩

/-- One more expression in brackets, in front of others in brackets. -/
theorem ConsumesAll.bracketed (h : Consumes .logical e all (.mark .closeBracket :: mid))
    (hes : ConsumesAll Tree.bracketed es mid rest) :
    ConsumesAll Tree.bracketed (e :: es) (.mark .openBracket :: all) rest := by
  obtain ⟨t, ht, rfl⟩ := h
  obtain ⟨parts, hparts, hsnd, rfl⟩ := hes
  refine ⟨(t, e.bare) :: parts, ?_, by simp [hsnd], by simp [Tree.bracketed]⟩
  exact List.forall_mem_cons.mpr ⟨ht, hparts⟩

/-- Expressions that all stand behind a comma are separated by commas once the first comma is gone.
The recursion of the parser has a comma in front of each round but the first, and this evens it out.
-/
theorem ConsumesAll.separated (hne : es ≠ [])
    (h : ConsumesAll Tree.continued es (.mark .comma :: all) rest) :
    ConsumesAll Tree.separated es all rest := by
  obtain ⟨parts, hparts, hes, hall⟩ := h
  refine ⟨parts, hparts, hes, ?_⟩
  cases parts with
  | nil => exact absurd (List.map_eq_nil_iff.mp hes.symm) hne
  | cons pair parts => exact List.tail_eq_of_cons_eq hall

/-- No terminal goes on with an expression more strongly than a suffix does. -/
theorem Terminal.rank_le (t : Terminal) : t.rank ≤ 6 := by
  cases t with
  | number text => exact Nat.zero_le 6
  | name text => exact Nat.zero_le 6
  | mark kind => cases kind <;> decide

/-- Nothing is too strong to follow a suffixed expression, so it is always one that the loop may
hold. -/
theorem Consumes.held (h : Consumes .suffixed e all rest) (hfloor : floor ≤ 6) :
    Held floor e all rest :=
  ⟨.suffixed, hfloor, by decide, h, fun t _ => Nat.lt_succ_of_le t.rank_le⟩

/-- A primary expression is a suffixed one without suffixes. -/
theorem Consumes.suffixed (h : Consumes .primary e all rest) : Consumes .suffixed e all rest :=
  h.lift (by decide)

/-- A primary expression may be held. The operand from which a loop starts is mostly of this kind.
-/
theorem Consumes.primary_held (h : Consumes .primary e all rest) : Held 5 e all rest :=
  h.suffixed.held (by decide)

/-- Only a suffixed expression is held in front of a suffix: in all other layers, something as
strong as a suffix would already have been taken. Hence a suffix always applies to what the grammar
wants it to apply to. -/
theorem Held.suffixed {kind : Kind} (h : Held floor e all (.mark kind :: rest))
    (hkind : (Terminal.mark kind).rank = 6) : Consumes .suffixed e all (.mark kind :: rest) := by
  obtain ⟨layer, -, hprimary, hconsumes, hstops⟩ := h
  rw [stops_cons, hkind] at hstops
  cases layer with
  | suffixed => exact hconsumes
  | primary => exact absurd rfl hprimary
  | _ => exact absurd hstops (by decide)

/-- An operator and its right operand are put behind what is held, which becomes a term of the
operator's layer. That it may be one is the second half of the invariant: the operator is not
stronger than the layer that is held. -/
theorem Held.binary {op : BinaryOp} (h : Held floor l all (.mark op.kind :: mid))
    (hfloor : floor ≤ (layerOf op).rank) (hr : Consumes op.power.layer r mid rest)
    (hstops : Stops (op.power.rank + 1) rest) : Held floor (.binary span op l r) all rest := by
  obtain ⟨layer, -, -, hconsumes, hle⟩ := h
  rw [stops_cons, rank_mark_kind] at hle
  rw [op.layer_power] at hr
  rw [op.rank_power] at hstops
  have hl := hconsumes.lift (Nat.le_of_lt_succ hle)
  exact ⟨layerOf op, hfloor, ne_primary_of_mem (mem_operators.mpr rfl), hl.binary hr, hstops⟩

end

end Grammar

namespace Token.Cursor

mutual

/-- An expression read at a power is derived in the layer of that power, and what is left does not
go on with it. The second half is needed by the callers, to put more behind what was read. -/
theorem consumes_expression (power : Power) (hpower : power.rank ≤ 5) (c : Cursor) :
    Yields (c.expression power) fun e d => Consumes power.layer e c.terminals d.terminals ∧
      Stops (power.rank + 1) d.terminals := by
  rw [expression]
  refine (held_operand c).bind fun left d hd hleft => ?_
  have hheld : Held power.layer.rank left c.terminals d.terminals := by
    obtain ⟨layer, hle, hlayer⟩ := hleft
    exact ⟨layer, Nat.le_trans (by rw [power.rank_layer]; omega) hle, hlayer⟩
  exact (consumes_links power hpower left d hheld).bind fun e f _ he => .ok he
termination_by 4 * c.size + 1

/-- An operand may be held by the loop over links. All but those with a prefix operator are primary;
for these the bound on what follows comes from reading their operand. -/
theorem held_operand (c : Cursor) :
    Yields c.operand fun e d => Held 5 e c.terminals d.terminals := by
  rw [operand]
  split
  · exact .error
  next token d hd hnext =>
  -- Each branch reads the first token off the terminals and derives the operand from the rest.
  have hfirst : c.terminals = token.terminal :: d.terminals := terminals_of_next? hnext
  split
  next hkind =>
    split
    next value hvalue =>
      rw [terminal_eq_number_iff.mpr ⟨hkind, rfl⟩] at hfirst
      exact .ok (Consumes.primary_held ⟨.number token.text, .number hvalue, hfirst⟩)
    · exact .error
  next hkind =>
    rw [terminal_eq_name_iff.mpr ⟨hkind, rfl⟩] at hfirst
    exact .ok (Consumes.primary_held ⟨.name token.text, .name, hfirst⟩)
  next hkind =>
    rw [terminal_eq_mark_iff.mpr ⟨hkind, rfl⟩] at hfirst
    refine (consumes_expression .lowest (by decide) d).bind fun e f hf he => ?_
    refine (yields_expect rfl).bind fun _ g _ hg => .ok ?_
    rw [hfirst]
    exact (hg ▸ he.1).group.primary_held
  next hkind =>
    rw [terminal_eq_mark_iff.mpr ⟨hkind, rfl⟩] at hfirst
    refine (consumes_expressions .closeBracket rfl d).bind fun items f _ hitems => .ok ?_
    rw [hfirst]
    exact hitems.list.primary_held
  next hkind =>
    rw [terminal_eq_mark_iff.mpr ⟨hkind, rfl⟩] at hfirst
    refine (yields_expect rfl).bind fun _ f hf hnumber => ?_
    refine (consumes_bracketed f).bind fun sizes g _ hsizes => ?_
    dsimp only
    split
    · exact .error
    next hne =>
      refine .ok ?_
      rw [hfirst, hnumber]
      exact (hsizes.newArray (by simpa using hne)).primary_held
  · split
    next op hop =>
      rw [terminal_eq_mark_iff.mpr ⟨PrefixOp.ofKind?_eq_some.mp hop, op.isMark_kind⟩] at hfirst
      refine (consumes_expression .unary (by decide) d).bind fun e f _ he => .ok ?_
      rw [hfirst]
      exact ⟨.unary, by decide, by decide, he.1.unary, he.2⟩
    · exact .error
termination_by 4 * c.size

/-- From what may be held, the loop over links reads an expression in the layer of its power. Each
link replaces what is held, and the loop ends when nothing is strong enough for the power. -/
theorem consumes_links (power : Power) (hpower : power.rank ≤ 5) (left : Expr) (c : Cursor)
    {all : List Terminal} (hleft : Held power.layer.rank left all c.terminals) :
    Yields (c.links power left) fun e d => Consumes power.layer e all d.terminals ∧
      Stops (power.rank + 1) d.terminals := by
  rw [links]
  split
  next hnext =>
    obtain ⟨layer, hfloor, -, hconsumes, -⟩ := hleft
    refine .ok ⟨hconsumes.lift hfloor, ?_⟩
    rw [val_here, terminals_of_next?_none hnext]
    exact stops_nil _
  next token d hd hnext =>
  have hfirst : c.terminals = token.terminal :: d.terminals := terminals_of_next? hnext
  split
  next habove =>
    obtain ⟨layer, hfloor, -, hconsumes, -⟩ := hleft
    refine .ok ⟨hconsumes.lift hfloor, ?_⟩
    rw [val_here, hfirst, stops_cons]
    exact Nat.lt_succ_of_le ((Link.above?_eq_none_iff hpower).mp habove)
  next op habove =>
    obtain ⟨hlink, hlt⟩ := Link.above?_eq_some_iff.mp habove
    rw [hfirst, terminal_eq_mark_iff.mpr ⟨Link.ofKind?_eq_binary.mp hlink, op.isMark_kind⟩] at hleft
    have hop : op.power.rank ≤ 5 := Nat.le_succ_of_le op.rank_power_le
    refine (consumes_expression op.power hop d).bind fun right f hf hright => ?_
    -- The operator is stronger than the power, so its layer is one that the loop may hold.
    have hfloor : power.layer.rank ≤ (layerOf op).rank := by
      rw [power.rank_layer, ← op.rank_power]
      exact Nat.le_trans (Nat.min_le_left _ _) hlt
    exact (consumes_links power hpower _ f (hleft.binary hfloor hright.1 hright.2)).bind
      fun e g _ he => .ok he
  next span name habove =>
    have hkind := Link.ofKind?_eq_call.mp (Link.above?_eq_some_iff.mp habove).1
    rw [hfirst, terminal_eq_mark_iff.mpr ⟨hkind, rfl⟩] at hleft
    refine (consumes_expressions .closeParen rfl d).bind fun args f hf hargs => ?_
    refine (consumes_links power hpower (.call _ name args) f ?_).bind fun e g _ he => .ok he
    exact ((hleft.suffixed rfl).call hargs).held power.rank_layer_le
  · exact .error
  next span name indices habove =>
    have hkind := Link.ofKind?_eq_index.mp (Link.above?_eq_some_iff.mp habove).1
    rw [hfirst, terminal_eq_mark_iff.mpr ⟨hkind, rfl⟩] at hleft
    refine (consumes_expression .lowest (by decide) d).bind fun index f hf hindex => ?_
    refine (yields_expect rfl).bind fun _ g hg hclose => ?_
    refine (consumes_links power hpower (.var _ name (indices ++ [index])) g ?_).bind
      fun e k _ he => .ok he
    exact ((hleft.suffixed rfl).index (hclose ▸ hindex.1)).held power.rank_layer_le
  · exact .error
termination_by 4 * c.size

/-- Expressions up to a closing mark are derived one by one, separated by commas. There may be none.
-/
theorem consumes_expressions (close : Kind) (hclose : close.isMark) (c : Cursor) :
    Yields (c.expressions close) fun es d =>
      ConsumesAll Tree.separated es c.terminals (.mark close :: d.terminals) := by
  rw [expressions]
  split
  next d hskip =>
    refine .ok ?_
    rw [terminals_of_skip? hclose hskip]
    exact .nil _ rfl
  · exact fun es d hd hrun =>
      (continued_expressionsOne close hclose c es d hd hrun).2.separated
        (continued_expressionsOne close hclose c es d hd hrun).1
termination_by 4 * c.size + 3

/-- One expression or more are derived behind commas, if a comma is put in front of the first one.
This is the form in which the recursion goes through. -/
theorem continued_expressionsOne (close : Kind) (hclose : close.isMark) (c : Cursor) :
    Yields (c.expressionsOne close) fun es d => es ≠ [] ∧
      ConsumesAll Tree.continued es (.mark .comma :: c.terminals) (.mark close :: d.terminals) := by
  rw [expressionsOne]
  refine (consumes_expression _ (by decide) c).bind fun e d hd he => ?_
  dsimp only
  split
  next f hf hskip =>
    refine (continued_expressionsOne close hclose f).bind fun es g _ hes =>
      .ok ⟨List.cons_ne_nil _ _, ?_⟩
    rw [← terminals_of_skip? rfl hskip] at hes
    exact .continued he.1 hes.2
  · refine (yields_expect hclose).bind fun _ f _ hf => .ok ⟨List.cons_ne_nil _ _, ?_⟩
    rw [After.val_within, ← hf]
    exact .continued he.1 (.nil _ rfl)
termination_by 4 * c.size + 2

/-- Expressions in brackets are derived one by one. The row ends where no bracket opens, so there
may be none. -/
theorem consumes_bracketed (c : Cursor) :
    Yields c.bracketed fun es d => ConsumesAll Tree.bracketed es c.terminals d.terminals := by
  rw [bracketed]
  split
  · exact .ok (.nil _ rfl)
  next d hd hskip =>
    refine (consumes_expression _ (by decide) d).bind fun e f hf he => ?_
    refine (yields_expect rfl).bind fun _ g hg hclose => ?_
    refine (consumes_bracketed g).bind fun es k _ hes => .ok ?_
    rw [terminals_of_skip? rfl hskip]
    exact .bracketed (hclose ▸ he.1) hes
termination_by 4 * c.size

end

end Token.Cursor

/-! ### Completeness -/

namespace Grammar

/-- Whether what follows an expression of a layer leaves it as it is, to be taken by the loop over
links: operators of the layer or of a weaker one, and suffixes if there is a variable to take them.
-/
def Leaves (layer : Layer) (e : Expr) (rest : List Terminal) : Prop :=
  Stops (min (layer.rank + 1) 6) rest ∨ Layer.suffixed.rank ≤ layer.rank ∧ e.isVar = true

/-- What leaves an expression of a layer as it is does so in the next layer too. It lets unit steps
of a derivation be followed without any step of the parser. -/
theorem Leaves.next {layer : Layer} {e : Expr} {rest : List Terminal} (h : Leaves layer e rest) :
    Leaves layer.next e rest := by
  have hle : layer.rank ≤ layer.next.rank := by cases layer <;> decide
  refine h.imp (fun hstops => hstops.mono (by omega)) fun hvar => ⟨Nat.le_trans hvar.1 hle, hvar.2⟩

end Grammar

namespace Token.Cursor

section

variable {close : Token} {power : Power} {layer : Layer} {c : Cursor} {t : Tree} {e : Expr}
  {rest : List Terminal}

/-- Whether an expression that is read from `c` starts with `e`, and the loop over links goes on
from there in front of `rest`. What the loop results in is left open, because that depends on the
rest of the chain. -/
def Arrives (close : Token) (power : Power) (c : Cursor) (e : Expr) (rest : List Terminal) : Prop :=
  ∃ (e' : Expr) (d : Cursor), e'.bare = e ∧ d.Ahead close rest ∧
    ∀ {post : Expr → Cursor → Prop}, Gives (d.links power e') post → Gives (c.expression power) post

/-- A derivation that the parser follows, at every power that its layer is above. This is the
statement of the induction over derivations, one lemma below for each rule. -/
structure Parsed (layer : Layer) (t : Tree) (e : Expr) : Prop where
  derives : Derives layer t e
  arrives : ∀ {close : Token} {power : Power} {c : Cursor} {rest : List Terminal},
    power.rank ≤ 5 → power.layer.rank ≤ layer.rank → c.Ahead close (t.yield ++ rest) →
    Leaves layer e rest → Arrives close power c e rest

/-- The loop over links ends in front of what is too weak for it, and results in what it holds. -/
theorem Ahead.gives_links (h : c.Ahead close rest) (hpower : power.rank ≤ 5)
    (hstops : Stops (power.rank + 1) rest) (left : Expr) :
    Gives (c.links power left) fun e d => e = left ∧ d.Ahead close rest := by
  rw [links]
  cases rest with
  | nil =>
    rw [h.next?_nil]
    exact .ok ⟨rfl, h⟩
  | cons first rest =>
    obtain ⟨token, d, hd, hnext, rfl, -⟩ := h.next?_cons
    have habove : Link.above? power token.kind = none :=
      (Link.above?_eq_none_iff hpower).mpr (Nat.le_of_lt_succ (stops_cons.mp hstops))
    rw [hnext]
    dsimp only
    rw [habove]
    exact .ok ⟨rfl, h⟩

/-- An expression at which the loop arrives is the result, if what follows is too weak to go on. It
ends the suspense that `Arrives` keeps up. -/
theorem Arrives.expression (h : Arrives close power c e rest) (hpower : power.rank ≤ 5)
    (hstops : Stops (power.rank + 1) rest) :
    Gives (c.expression power) fun e' d => e'.bare = e ∧ d.Ahead close rest := by
  obtain ⟨e', d, rfl, hahead, hgo⟩ := h
  obtain ⟨_, f, hf, hrun, rfl, hrest⟩ := hahead.gives_links hpower hstops e'
  exact hgo ⟨_, f, hf, hrun, rfl, hrest⟩

/-- A derivation is read to its end, if what follows is too weak to go on. Operands of operators are
read like this, at the power of the operator. -/
theorem Parsed.gives_expression (h : Parsed layer t e) (hpower : power.rank ≤ 5)
    (hlayer : power.layer.rank ≤ layer.rank) (hahead : c.Ahead close (t.yield ++ rest))
    (hstops : Stops (power.rank + 1) rest) :
    Gives (c.expression power) fun e' d => e'.bare = e ∧ d.Ahead close rest := by
  refine (h.arrives hpower hlayer hahead (.inl (hstops.mono ?_))).expression hpower hstops
  rw [power.rank_layer] at hlayer
  omega

/-- What is no operator at all ends an expression. Everything between brackets is read like this, up
to the bracket or a comma. -/
theorem Parsed.gives_lowest {first : Terminal} (h : Parsed .logical t e)
    (hahead : c.Ahead close (t.yield ++ first :: rest)) (hfirst : first.rank = 0) :
    Gives (c.expression .lowest) fun e' d => e'.bare = e ∧ d.Ahead close (first :: rest) :=
  h.gives_expression (by decide) (by decide) hahead (stops_cons.mpr (hfirst ▸ Nat.zero_lt_one))

/-- The loop arrives at whatever is read as an operand. It is how primary expressions and those with
prefix operators get to the loop. -/
theorem Arrives.of_operand (h : Gives c.operand fun e' d => e'.bare = e ∧ d.Ahead close rest) :
    Arrives close power c e rest := by
  obtain ⟨e', d, hd, hrun, hbare, hahead⟩ := h
  refine ⟨e', d, hbare, hahead, ?_⟩
  intro post hgives
  rw [Cursor.expression]
  refine .bind_ok hrun ?_
  exact hgives.bind fun a f _ ha => .ok ha

/-! One step of the loop over links, for each kind of link. -/

section

variable {d : Cursor} {hd : d.size < c.size} {token : Token} {post : Expr → Cursor → Prop}

/-- The loop goes on behind an operator and its right operand, holding the two operands joined. -/
theorem gives_links_binary {op : BinaryOp} {left right : Expr} {f : Cursor} {hf : f.size < d.size}
    (hnext : c.next? = some (token, ⟨d, hd⟩))
    (habove : Link.above? power token.kind = some (.binary op))
    (hright : d.expression op.power = .ok (right, ⟨f, hf⟩))
    (h : Gives (f.links power (.binary ⟨left.span.start, right.span.stop⟩ op left right)) post) :
    Gives (c.links power left) post := by
  rw [links, hnext]
  dsimp only
  rw [habove]
  refine .bind_ok hright ?_
  exact h.bind fun e g _ he => .ok he

/-- The loop goes on behind an index, holding the variable with that index added to those it has. -/
theorem gives_links_index {span : Span} {name : String} {indices : List Expr} {index : Expr}
    {f g : Cursor} {hf : f.size < d.size} {hg : g.size < f.size} {bracket : Token}
    (hnext : c.next? = some (token, ⟨d, hd⟩)) (habove : Link.above? power token.kind = some .index)
    (hindex : d.expression .lowest = .ok (index, ⟨f, hf⟩))
    (hclose : f.expect .closeBracket = .ok (bracket, ⟨g, hg⟩))
    (h : Gives (g.links power (.var ⟨span.start, g.stop⟩ name (indices ++ [index]))) post) :
    Gives (c.links power (.var span name indices)) post := by
  rw [links, hnext]
  dsimp only
  rw [habove]
  refine .bind_ok hindex (.bind_ok hclose ?_)
  exact h.bind fun e k _ he => .ok he

/-- The loop goes on behind a list of arguments, holding the call. What was held is a name, as
nothing else can be called. -/
theorem gives_links_call {span : Span} {name : String} {args : List Expr} {f : Cursor}
    {hf : f.size < d.size} (hnext : c.next? = some (token, ⟨d, hd⟩))
    (habove : Link.above? power token.kind = some .call)
    (hargs : d.expressions .closeParen = .ok (args, ⟨f, hf⟩))
    (h : Gives (f.links power (.call ⟨span.start, f.stop⟩ name args)) post) :
    Gives (c.links power (.var span name [])) post := by
  rw [links, hnext]
  dsimp only
  rw [habove]
  refine .bind_ok hargs ?_
  exact h.bind fun e g _ he => .ok he

end

end

/-! Several expressions. -/

section

variable {close : Token}

/-- Derived expressions, one at least, are read up to the closing mark. The mark is one of the two
that close such lists; neither is an operator, so the last expression ends in front of it. -/
theorem gives_expressionsOne {kind : Kind} (hkind : kind = .closeParen ∨ kind = .closeBracket)
    {rest : List Terminal} :
    ∀ {pair : Tree × Expr} {parts : List (Tree × Expr)} {c : Cursor},
      (∀ part ∈ pair :: parts, Parsed .logical part.1 part.2) →
      c.Ahead close (Tree.separated ((pair :: parts).map Prod.fst) ++ .mark kind :: rest) →
      Gives (c.expressionsOne kind) fun es d =>
        es.map Expr.bare = (pair :: parts).map Prod.snd ∧ d.Ahead close rest := by
  intro pair parts
  -- The first expression is kept apart from the others, as there must be one. Each round takes the
  -- comma behind it and makes the next one the first.
  induction parts generalizing pair with
  | nil =>
    intro c hparts hahead
    have hpair := hparts pair List.mem_cons_self
    simp only [List.map_cons, List.map_nil, Tree.separated, Tree.continued, List.append_nil]
      at hahead
    rw [expressionsOne]
    refine (hpair.gives_lowest hahead (by rcases hkind with rfl | rfl <;> rfl)).bind ?_
    rintro e d _ ⟨he, hd⟩
    have hcomma : d.skip? .comma = none :=
      hd.skip?_none rfl (by rcases hkind with rfl | rfl <;> simp)
    dsimp only
    rw [hcomma]
    exact hd.gives_expect.bind fun _ f _ hf => .ok ⟨by simp [he], hf⟩
  | cons next parts ih =>
    intro c hparts hahead
    have hpair := hparts pair List.mem_cons_self
    simp only [List.map_cons, Tree.separated, Tree.continued, List.append_assoc, List.cons_append]
      at hahead
    rw [expressionsOne]
    refine (hpair.gives_lowest hahead rfl).bind ?_
    rintro e d _ ⟨he, hd⟩
    obtain ⟨f, hf, hcomma, hf'⟩ := hd.skip?_mark
    dsimp only
    rw [hcomma]
    refine (ih (fun part hpart => hparts part (List.mem_cons_of_mem _ hpart)) ?_).bind ?_
    · simpa only [List.map_cons, Tree.separated, List.append_assoc] using hf'
    · rintro es g _ ⟨hes, hg⟩
      exact .ok ⟨by rw [List.map_cons, List.map_cons, he, hes], hg⟩

/-- Derived expressions are read up to the closing mark. Whether there are any is seen from the
first terminal, because no expression starts with a closing mark. -/
theorem gives_expressions {kind : Kind} (hkind : kind = .closeParen ∨ kind = .closeBracket)
    {rest : List Terminal} {parts : List (Tree × Expr)} {c : Cursor}
    (hparts : ∀ part ∈ parts, Parsed .logical part.1 part.2)
    (hahead : c.Ahead close (Tree.separated (parts.map Prod.fst) ++ .mark kind :: rest)) :
    Gives (c.expressions kind) fun es d =>
      es.map Expr.bare = parts.map Prod.snd ∧ d.Ahead close rest := by
  rw [expressions]
  cases parts with
  | nil =>
    obtain ⟨d, hd, hskip, hrest⟩ := hahead.skip?_mark
    rw [hskip]
    exact .ok ⟨rfl, hrest⟩
  | cons pair parts =>
    have hskip : c.skip? kind = none := by
      refine hahead.skip?_none (by rcases hkind with rfl | rfl <;> rfl) ?_
      rw [List.map_cons, Tree.separated, List.append_assoc]
      exact (hparts pair List.mem_cons_self).derives.head?_ne hkind _
    rw [hskip]
    exact gives_expressionsOne hkind hparts hahead

/-- Derived expressions in brackets are read, if no further bracket opens behind them. That one
would be taken for another size. -/
theorem gives_bracketed {rest : List Terminal} (hrest : rest.head? ≠ some (.mark .openBracket)) :
    ∀ {parts : List (Tree × Expr)} {c : Cursor},
      (∀ part ∈ parts, Parsed .logical part.1 part.2) →
      c.Ahead close (Tree.bracketed (parts.map Prod.fst) ++ rest) →
      Gives c.bracketed fun es d => es.map Expr.bare = parts.map Prod.snd ∧ d.Ahead close rest := by
  intro parts
  induction parts with
  | nil =>
    intro c _ hahead
    rw [bracketed, hahead.skip?_none rfl hrest]
    exact .ok ⟨rfl, hahead⟩
  | cons pair parts ih =>
    intro c hparts hahead
    have hpair := hparts pair List.mem_cons_self
    simp only [List.map_cons, Tree.bracketed, List.cons_append, List.append_assoc] at hahead
    obtain ⟨d, hd, hskip, hd'⟩ := hahead.skip?_mark
    rw [bracketed, hskip]
    refine (hpair.gives_lowest hd' rfl).bind ?_
    rintro e f _ ⟨he, hf⟩
    refine hf.gives_expect.bind fun _ g _ hg => ?_
    refine (ih (fun part hpart => hparts part (List.mem_cons_of_mem _ hpart)) hg).bind ?_
    rintro es k _ ⟨hes, hk⟩
    exact .ok ⟨by rw [List.map_cons, List.map_cons, he, hes], hk⟩

end

/-! One derivation rule at a time. -/

section

variable {layer : Layer} {t u : Tree} {e l r : Expr} {function : String}
  {parts : List (Tree × Expr)}

/-- A unit step is followed by doing nothing: the parser knows no layers, and an expression of the
next layer is in place already. -/
theorem Parsed.unit (hne : layer ≠ .primary) (h : Parsed layer.next t e) :
    Parsed layer (.unit t) e := by
  refine ⟨.unit hne h.derives, ?_⟩
  intro close power c rest hpower hlayer hahead hleaves
  have hle : layer.rank ≤ layer.next.rank := by cases layer <;> decide
  exact h.arrives hpower (Nat.le_trans hlayer hle) hahead hleaves.next

/-- The loop takes the operator behind its left operand, reads the right operand up to where the
whole chain ends or goes on, and comes back to itself. The left operand is no result of the parser
but what the loop holds at that point. -/
theorem Parsed.binary {op : BinaryOp} (hop : op ∈ layer.operators) (hl : Parsed layer t l)
    (hr : Parsed layer.next u r) : Parsed layer (.binary t op u) (.binary .blank op l r) := by
  refine ⟨.binary hop hl.derives hr.derives, ?_⟩
  intro close power c rest hpower hlayer hahead hleaves
  obtain rfl := mem_operators.mp hop
  have hfour := op.rank_power_le
  rw [op.rank_power] at hfour
  rw [Tree.yield, List.append_assoc, List.cons_append] at hahead
  -- The left part is followed by an operator of its own layer, which leaves it to the loop.
  have hmid : Leaves (layerOf op) l (.mark op.kind :: (u.yield ++ rest)) := by
    refine .inl (stops_cons.mpr ?_)
    rw [rank_mark_kind]
    omega
  obtain ⟨l', d, rfl, hd, hgo⟩ := hl.arrives hpower hlayer hahead hmid
  obtain ⟨token, f, hf, hnext, htoken, hf'⟩ := hd.next?_cons
  have hkind := (terminal_eq_mark_iff.mp htoken).1
  -- The right operand is read at the operator's power, and so stops at the next one of its layer.
  have hstops : Stops (op.power.rank + 1) rest := by
    refine (hleaves.resolve_right fun hvar => Bool.noConfusion hvar.2).mono ?_
    rw [op.rank_power]
    exact Nat.min_le_left _ _
  obtain ⟨r', g, hg, hrun, rfl, hg'⟩ := hr.gives_expression
    (Nat.le_succ_of_le op.rank_power_le) (Nat.le_of_eq (congrArg Layer.rank op.layer_power)) hf'
    hstops
  refine ⟨.binary ⟨l'.span.start, r'.span.stop⟩ op l' r', g, rfl, hg', ?_⟩
  intro post hpost
  have hlt : power.rank < op.power.rank := by
    rw [power.rank_layer] at hlayer
    rw [op.rank_power]
    omega
  have habove := Link.above?_eq_some_iff.mpr ⟨Link.ofKind?_eq_binary.mpr hkind, hlt⟩
  exact hgo (gives_links_binary hnext habove hrun hpost)

/-- A prefix operator is read as an operand, its own operand by a loop that takes suffixes only. An
operator behind it is left to the loop outside. -/
theorem Parsed.unary {op : PrefixOp} (h : Parsed .unary t e) :
    Parsed .unary (.unary op t) (.unary .blank op e) := by
  refine ⟨.unary h.derives, ?_⟩
  intro close power c rest hpower hlayer hahead hleaves
  obtain ⟨token, d, hd, hnext, htoken, hd'⟩ := hahead.next?_cons
  have hkind := (terminal_eq_mark_iff.mp htoken).1
  have hstops : Stops 6 rest := hleaves.resolve_right fun hvar => Bool.noConfusion hvar.2
  have hoperand : Gives (d.expression .unary) fun e' f => e'.bare = e ∧ f.Ahead close rest :=
    h.gives_expression (by decide) (by decide) hd' hstops
  -- What follows is too weak for the operand's own loop, so the operand ends where `t` does.
  refine .of_operand ?_
  rw [operand, hnext]
  dsimp only
  cases op <;> rw [show token.kind = _ from hkind] <;>
    exact hoperand.bind fun e' f _ he => .ok ⟨by rw [Expr.bare, he.1], he.2⟩

/-- What reads as a variable without spans is a variable. The loop looks at what it holds when it
comes to a suffix, and derivations know that only up to spans. -/
theorem exists_of_bare_eq_var {e : Expr} {name : String} {indices : List Expr}
    (h : e.bare = .var .blank name indices) :
    ∃ span es, e = .var span name es ∧ es.map Expr.bare = indices := by
  cases e with
  | var span _ es =>
    rw [Expr.bare, Expr.bareAll_eq_map] at h
    cases h
    exact ⟨span, es, rfl, rfl⟩
  | _ => cases h

/-- The loop arrives at the variable and takes the index behind it. This happens at every power, as
a suffix is stronger than all of them. -/
theorem Parsed.index {array : String} {indices : List Expr}
    (hbase : Parsed .suffixed t (.var .blank array indices)) (hposition : Parsed .logical u e) :
    Parsed .suffixed (.index t u) (.var .blank array (indices ++ [e])) := by
  refine ⟨.index hbase.derives hposition.derives, ?_⟩
  intro close power c rest hpower hlayer hahead _
  rw [Tree.yield, List.append_assoc, List.cons_append, List.append_assoc] at hahead
  -- A suffix is strong enough to be taken at every power, but only behind a variable.
  obtain ⟨v, d, hv, hd, hgo⟩ := hbase.arrives hpower hlayer hahead (.inr ⟨by decide, rfl⟩)
  obtain ⟨span, es, rfl, rfl⟩ := exists_of_bare_eq_var hv
  obtain ⟨token, f, hf, hnext, htoken, hf'⟩ := hd.next?_cons
  have hkind := (terminal_eq_mark_iff.mp htoken).1
  obtain ⟨i, g, hg, hrun, rfl, hg'⟩ := hposition.gives_lowest hf' rfl
  obtain ⟨bracket, k, hk, hclose, hk'⟩ := hg'.gives_expect
  refine ⟨.var ⟨span.start, k.stop⟩ array (es ++ [i]), k, by simp [Expr.bare], hk', ?_⟩
  intro post hpost
  have habove := Link.above?_eq_some_iff.mpr
    ⟨Link.ofKind?_eq_index.mpr hkind, Nat.lt_of_le_of_lt hpower (by decide)⟩
  exact hgo (gives_links_index hnext habove hrun hclose hpost)

/-- The loop arrives at the name and takes the arguments behind it, at every power like an index. -/
theorem Parsed.call (hbase : Parsed .suffixed t (.var .blank function []))
    (hparts : ∀ part ∈ parts, Parsed .logical part.1 part.2) :
    Parsed .suffixed (.call t (parts.map Prod.fst))
      (.call .blank function (parts.map Prod.snd)) := by
  refine ⟨.call hbase.derives fun part hpart => (hparts part hpart).derives, ?_⟩
  intro close power c rest hpower hlayer hahead _
  rw [Tree.yield, List.append_assoc, List.cons_append, List.append_assoc] at hahead
  obtain ⟨v, d, hv, hd, hgo⟩ := hbase.arrives hpower hlayer hahead (.inr ⟨by decide, rfl⟩)
  obtain ⟨span, es, rfl, hes⟩ := exists_of_bare_eq_var hv
  obtain rfl := List.map_eq_nil_iff.mp hes
  obtain ⟨token, f, hf, hnext, htoken, hf'⟩ := hd.next?_cons
  have hkind := (terminal_eq_mark_iff.mp htoken).1
  obtain ⟨args, g, hg, hrun, hargs, hg'⟩ := gives_expressions (.inl rfl) hparts hf'
  refine ⟨.call ⟨span.start, g.stop⟩ function args, g, by simp [Expr.bare, hargs], hg', ?_⟩
  intro post hpost
  have habove := Link.above?_eq_some_iff.mpr
    ⟨Link.ofKind?_eq_call.mpr hkind, Nat.lt_of_le_of_lt hpower (by decide)⟩
  exact hgo (gives_links_call hnext habove hrun hpost)

/-- A number is read as an operand, with the value that the rule of the grammar says its text has.
-/
theorem Parsed.number {text : String} {value : Float} (hvalue : Decimal.read? text = some value) :
    Parsed .primary (.number text) (.number .blank value) := by
  refine ⟨.number hvalue, ?_⟩
  intro close power c rest _ _ hahead _
  obtain ⟨token, d, hd, hnext, htoken, hd'⟩ := hahead.next?_cons
  obtain ⟨hkind, rfl⟩ := terminal_eq_number_iff.mp htoken
  refine .of_operand ?_
  rw [operand, hnext]
  dsimp only
  rw [hkind]
  dsimp only
  rw [hvalue]
  exact .ok ⟨rfl, hd'⟩

/-- A name is read as an operand, a variable without indices. Indices and arguments are left to the
loop. -/
theorem Parsed.name {text : String} : Parsed .primary (.name text) (.var .blank text []) := by
  refine ⟨.name, ?_⟩
  intro close power c rest _ _ hahead _
  obtain ⟨token, d, hd, hnext, htoken, hd'⟩ := hahead.next?_cons
  obtain ⟨hkind, rfl⟩ := terminal_eq_name_iff.mp htoken
  refine .of_operand ?_
  rw [operand, hnext]
  dsimp only
  rw [hkind]
  exact .ok ⟨rfl, hd'⟩

/-- An expression in parentheses is read as an operand: the inner one is read at the lowest power,
up to the closing parenthesis. -/
theorem Parsed.group (h : Parsed .logical t e) : Parsed .primary (.group t) e := by
  refine ⟨.group h.derives, ?_⟩
  intro close power c rest _ _ hahead _
  rw [Tree.yield, List.cons_append, List.append_assoc] at hahead
  obtain ⟨token, d, hd, hnext, htoken, hd'⟩ := hahead.next?_cons
  refine .of_operand ?_
  rw [operand, hnext]
  dsimp only
  rw [(terminal_eq_mark_iff.mp htoken).1]
  refine (h.gives_lowest hd' rfl).bind fun e' f _ he => ?_
  exact he.2.gives_expect.bind fun _ g _ hg => .ok ⟨he.1, hg⟩

/-- A list is read as an operand, its items up to the closing bracket. -/
theorem Parsed.list (hparts : ∀ part ∈ parts, Parsed .logical part.1 part.2) :
    Parsed .primary (.list (parts.map Prod.fst)) (.list .blank (parts.map Prod.snd)) := by
  refine ⟨.list fun part hpart => (hparts part hpart).derives, ?_⟩
  intro close power c rest _ _ hahead _
  rw [Tree.yield, List.cons_append, List.append_assoc] at hahead
  obtain ⟨token, d, hd, hnext, htoken, hd'⟩ := hahead.next?_cons
  refine .of_operand ?_
  rw [operand, hnext]
  dsimp only
  rw [(terminal_eq_mark_iff.mp htoken).1]
  refine (gives_expressions (.inr rfl) hparts hd').bind fun items f _ hitems => ?_
  exact .ok ⟨by simp [Expr.bare, hitems.1], hitems.2⟩

/-- An array constructor is read as an operand, its sizes up to what is no bracket. A bracket behind
it would be read as a size, and `Leaves` excludes one since the constructor is no variable. -/
theorem Parsed.newArray (hne : parts ≠ [])
    (hparts : ∀ part ∈ parts, Parsed .logical part.1 part.2) :
    Parsed .primary (.newArray (parts.map Prod.fst)) (.newArray .blank (parts.map Prod.snd)) := by
  refine ⟨.newArray hne fun part hpart => (hparts part hpart).derives, ?_⟩
  intro close power c rest _ _ hahead hleaves
  obtain ⟨token, d, hd, hnext, htoken, hd'⟩ := hahead.next?_cons
  -- The sizes end in front of what is not a bracket.
  have hrest : rest.head? ≠ some (.mark .openBracket) := fun hhead =>
    absurd (hleaves.resolve_right (fun hvar => Bool.noConfusion hvar.2) _ hhead) (by decide)
  refine .of_operand ?_
  rw [operand, hnext]
  dsimp only
  rw [(terminal_eq_mark_iff.mp htoken).1]
  refine hd'.gives_expect.bind fun _ f _ hf => ?_
  refine (gives_bracketed hrest hparts hf).bind fun sizes g _ hsizes => ?_
  dsimp only
  have hsome : sizes.isEmpty = false := by
    rw [List.isEmpty_eq_false_iff]
    rintro rfl
    exact hne (List.map_eq_nil_iff.mp hsizes.1.symm)
  rw [hsome]
  exact .ok ⟨by simp [Expr.bare, hsizes.1], hsizes.2⟩

end

/-- The parser follows every derivation. The induction is on the derivation, and each rule is one of
the lemmas above. -/
theorem parsed_of_derives {layer : Layer} {t : Tree} {e : Expr} (h : Derives layer t e) :
    Parsed layer t e := by
  induction h with
  | unit hne _ ih => exact ih.unit hne
  | binary hop _ _ ihl ihr => exact ihl.binary hop ihr
  | unary _ ih => exact ih.unary
  | index _ _ ihb ihp => exact ihb.index ihp
  | call _ _ ihb ihp => exact ihb.call ihp
  | number hvalue => exact .number hvalue
  | name => exact .name
  | group _ ih => exact ih.group
  | list _ ih => exact .list ih
  | newArray hne _ ih => exact .newArray hne ih

/-! ### Whole token lists -/

/-- In the beginning all terminals of the list are ahead, if it is closed by an end token. -/
theorem ahead_start {tokens : List Token} {last : Token} (h : last.kind = .eof) :
    (start (tokens ++ [last])).Ahead last (tokens.map Token.terminal) := by
  have hstart : start (tokens ++ [last]) = ⟨tokens, last, 0⟩ := by simp [start, h]
  rw [hstart]
  exact ⟨rfl, rfl⟩

/-- In front of no terminal the current token is the end token, by which a whole list is recognised.
-/
theorem Ahead.current_nil {c : Cursor} {close : Token} (h : c.Ahead close []) :
    c.current = close := by
  rw [current, List.map_eq_nil_iff.mp h.terminals_eq]
  exact h.close_eq

/-- In front of a terminal, the current token is of no kind that is seen differently. In particular
it is no end token while a derivation goes on. -/
theorem Ahead.current_kind_ne {c : Cursor} {close : Token} {kind : Kind} {first : Terminal}
    {rest : List Terminal} (h : c.Ahead close (first :: rest)) (hmark : kind.isMark)
    (hne : first ≠ .mark kind) : c.current.kind ≠ kind := by
  obtain ⟨tokens, last, stop⟩ := c
  obtain ⟨-, hterminals⟩ := h
  cases tokens with
  | nil => cases hterminals
  | cons token tokens =>
    intro hkind
    have hfirst : token.terminal = first := List.head_eq_of_cons_eq hterminals
    exact hne (hfirst.symm.trans (terminal_eq_mark_iff.mpr ⟨hkind, hmark⟩))

/-- A cursor whose current token is an end token has nothing left but that, if there is none among
the tokens in front of it. Without the condition parsing could stop early, at an end token in the
middle. -/
theorem terminals_eq_nil {tokens : List Token} (htokens : ∀ token ∈ tokens, token.kind ≠ .eof)
    {c : Cursor} {consumed : List Terminal}
    (hall : tokens.map Token.terminal = consumed ++ c.terminals) (heof : c.current.kind = .eof) :
    c.terminals = [] := by
  obtain ⟨rest, close, stop⟩ := c
  cases rest with
  | nil => rfl
  | cons token rest =>
    have hmem : Terminal.mark .eof ∈ tokens.map Token.terminal := by
      rw [hall, ← terminal_eq_mark_iff.mpr ⟨heof, rfl⟩]
      exact List.mem_append_right _ List.mem_cons_self
    obtain ⟨token', htoken', heq⟩ := List.mem_map.mp hmem
    exact absurd (terminal_eq_mark_iff.mp heq).1 (htokens token' htoken')

end Token.Cursor

/-- A token list is read as an expression if that ends in front of an end token. This takes the
sequence of readers apart once, for both directions of the main statement. -/
theorem Expr.parse_eq_ok {tokens : List Token} {e : Expr} :
    Expr.parse tokens = .ok e ↔ ∃ d hd,
      (Cursor.start tokens).expression .lowest = .ok (e, ⟨d, hd⟩) ∧ d.current.kind = .eof := by
  constructor
  · intro h
    rw [Expr.parse] at h
    cases hrun : (Cursor.start tokens).expression .lowest with
    | error fault =>
      rw [hrun] at h
      cases h
    | ok r =>
      obtain ⟨e', d, hd⟩ := r
      rw [hrun] at h
      by_cases heof : d.current.kind = .eof
      · obtain rfl : e' = e := by simpa [bind, Except.bind, pure, Except.pure, heof] using h
        exact ⟨d, hd, rfl, heof⟩
      · simp [bind, Except.bind, heof] at h
  · rintro ⟨d, hd, hrun, heof⟩
    rw [Expr.parse, hrun]
    exact if_pos heof

/-- The parser of expressions accepts exactly what the grammar derives, and results in what is
derived. The grammar is unambiguous, so the terminals decide the derivation and the expression. -/
theorem Expr.parse_ok_iff {tokens : List Token} {last : Token}
    (htokens : ∀ token ∈ tokens, token.kind ≠ .eof) (hlast : last.kind = .eof) :
    (∀ e, (∃ e', Expr.parse (tokens ++ [last]) = .ok e' ∧ e'.bare = e) ↔
      ∃ t, Derives .logical t e ∧ t.yield = tokens.map Token.terminal) ∧
    ∀ {t t' e e'}, Derives .logical t e → Derives .logical t' e' → t.yield = t'.yield →
      t = t' ∧ e = e' := by
  have hstart : (Cursor.start (tokens ++ [last])).Ahead last (tokens.map Token.terminal) :=
    Cursor.ahead_start hlast
  refine ⟨fun e => ⟨?_, ?_⟩, Derives.unique⟩
  · rintro ⟨e', hparse, rfl⟩
    obtain ⟨d, hd, hrun, heof⟩ := Expr.parse_eq_ok.mp hparse
    obtain ⟨⟨t, ht, hyield⟩, -⟩ := Cursor.consumes_expression _ (by decide) _ _ _ _ hrun
    rw [hstart.terminals_eq] at hyield
    rw [Cursor.terminals_eq_nil htokens hyield heof, List.append_nil] at hyield
    exact ⟨t, ht, hyield.symm⟩
  · rintro ⟨t, ht, hyield⟩
    rw [← hyield, ← List.append_nil t.yield] at hstart
    obtain ⟨e', d, hd, hrun, hbare, hend⟩ := (Cursor.parsed_of_derives ht).gives_expression
      (by decide : Power.lowest.rank ≤ 5) (by decide) hstart (stops_nil _)
    refine ⟨e', Expr.parse_eq_ok.mpr ⟨d, hd, hrun, ?_⟩, hbare⟩
    rw [hend.current_nil]
    exact hlast

/-- The tokens of `-a[b] * c < d`. -/
def Token.product : List Token :=
  [(.dash, "-"), (.identifier, "a"), (.openBracket, "["), (.identifier, "b"), (.closeBracket, "]"),
    (.star, "*"), (.identifier, "c"), (.less, "<"), (.identifier, "d")].map fun pair =>
      ⟨pair.1, pair.2, .blank⟩

/-- The index belongs to the operand of the prefix operator, that to the product, and the product to
the comparison. -/
theorem Expr.parse_ok_iff_product :
    (∀ token ∈ Token.product, token.kind ≠ .eof) ∧ (Token.eof 0).kind = .eof ∧
      ∃ e', Expr.parse (Token.product ++ [Token.eof 0]) = .ok e' ∧
        e'.bare = .binary .blank .lesser
          (.binary .blank .product
            (.unary .blank .negation (.var .blank "a" [.var .blank "b" []]))
            (.var .blank "c" []))
          (.var .blank "d" []) := by
  have hname : ∀ (x : String) (layer : Layer) (rest : List Terminal),
      Consumes layer (.var .blank x []) (.name x :: rest) rest := fun x layer rest =>
    Consumes.lift ⟨.name x, .name, rfl⟩ (by cases layer <;> decide)
  obtain ⟨t, ht, hyield⟩ : Consumes .logical
      (.binary .blank .lesser
        (.binary .blank .product
          (.unary .blank .negation (.var .blank "a" [.var .blank "b" []]))
          (.var .blank "c" []))
        (.var .blank "d" []))
      (Token.product.map Token.terminal) [] := by
    refine (Consumes.binary ?_ (hname "d" _ _)).lift (by decide)
    refine (Consumes.binary ?_ (hname "c" _ _)).lift (by decide)
    refine (Consumes.unary ?_).lift (by decide)
    exact ((hname "a" _ _).index (hname "b" _ _)).lift (by decide)
  have htokens : ∀ token ∈ Token.product, token.kind ≠ .eof := by decide
  refine ⟨htokens, rfl, ((Expr.parse_ok_iff htokens rfl).1 _).mpr ⟨t, ht, ?_⟩⟩
  rw [List.append_nil] at hyield
  exact hyield.symm

end ArrayScript
