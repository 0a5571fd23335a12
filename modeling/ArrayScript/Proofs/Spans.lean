import ArrayScript.Decl.Parse
import ArrayScript.Proofs.Scanning

/-!
# `ArrayScript.Proofs.Spans`: the spans of trees

A node of a tree carries the span of the text that it was read from. This module says how the spans
of a tree that comes from tokens lie to each other. `Decl.Nested`, `Stmt.Nested` and `Expr.Nested`
say of every node that its span starts where a token starts and stops where one stops, and that the
spans of its children lie inside it, one behind the other (`Span.Chain`).

The statements follow the parser function by function. A reader that starts behind some offset and
ends behind another one reads something between the two; so what two readers in a row have read is
disjoint and in order, and a node that is put around it covers it. The start of an operator's node
is that of its left operand, which may stand inside parentheses: this is why spans are compared with
the ends of what was read, and not with its first token.

A reader that fails puts its fault at the start of a token.
-/

set_option autoImplicit false

namespace ArrayScript

open Token (Kind Cursor)

/-! ### Spans in a row -/

namespace Span

/-- Whether spans lie between two offsets, one behind the other, and none of them is empty. -/
def Chain (low high : Nat) : List Span → Prop
  | [] => low ≤ high
  | span :: rest => low ≤ span.start ∧ span.start < span.stop ∧ Chain span.stop high rest

variable {low low' high high' middle : Nat} {span : Span} {spans spans' : List Span}

/-- A single span in a row is one that is not empty and lies within the bounds. -/
theorem chain_singleton :
    Chain low high [span] ↔ low ≤ span.start ∧ span.start < span.stop ∧ span.stop ≤ high :=
  Iff.rfl

/-- The offsets around a row are in order. -/
theorem Chain.le (h : Chain low high spans) : low ≤ high := by
  induction spans generalizing low with
  | nil => exact h
  | cons span spans ih =>
    have := ih h.2.2
    have := h.1
    have := h.2.1
    omega

/-- A row can have more room around it. -/
theorem Chain.mono (h : Chain low high spans) (hlow : low' ≤ low) (hhigh : high ≤ high') :
    Chain low' high' spans := by
  induction spans generalizing low low' with
  | nil =>
    have : low ≤ high := h
    show low' ≤ high'
    omega
  | cons span spans ih => exact ⟨Nat.le_trans hlow h.1, h.2.1, ih h.2.2 (Nat.le_refl _)⟩

/-- Two rows, one behind the other. -/
theorem Chain.append (h : Chain low middle spans) (h' : Chain middle high spans') :
    Chain low high (spans ++ spans') := by
  induction spans generalizing low with
  | nil => exact h'.mono h (Nat.le_refl _)
  | cons span spans ih => exact ⟨h.1, h.2.1, ih h.2.2⟩

/-- The two parts of a row lie between the offsets around it. -/
theorem Chain.of_append (h : Chain low high (spans ++ spans')) :
    Chain low high spans ∧ Chain low high spans' := by
  induction spans generalizing low with
  | nil => exact ⟨Chain.le h, h⟩
  | cons span spans ih =>
    have hle : low ≤ span.stop := by
      have := h.1
      have := h.2.1
      omega
    obtain ⟨hfront, hback⟩ := ih h.2.2
    exact ⟨⟨h.1, h.2.1, hfront⟩, hback.mono hle (Nat.le_refl _)⟩

/-- Every span of a row lies between the offsets around it. -/
theorem Chain.of_mem (h : Chain low high spans) (hspan : span ∈ spans) :
    Chain low high [span] := by
  induction spans generalizing low with
  | nil => cases hspan
  | cons first spans ih =>
    rcases List.mem_cons.mp hspan with rfl | hspan
    · exact ⟨h.1, h.2.1, h.2.2.le⟩
    · have hstart := h.1
      have hstop := h.2.1
      exact (ih h.2.2 hspan).mono (by omega) (Nat.le_refl _)

/-- Whether a span starts where a token starts and stops where one stops, is not empty, and has
other spans inside it, one behind the other. -/
structure Covers (tokens : List Token) (span : Span) (children : List Span) : Prop where
  start : ∃ token ∈ tokens, token.span.start = span.start
  stop : ∃ token ∈ tokens, token.span.stop = span.stop
  lt : span.start < span.stop
  chain : Chain span.start span.stop children

end Span

/-! ### Trees -/

section Nested

variable (tokens : List Token)

mutual

/-- Whether the spans of an expression are nested: each node covers its children. -/
def Expr.Nested : Expr → Prop
  | .number span _ => span.Covers tokens []
  | .newArray span sizes => span.Covers tokens (sizes.map Expr.span) ∧ Expr.NestedAll sizes
  | .list span items => span.Covers tokens (items.map Expr.span) ∧ Expr.NestedAll items
  | .var span _ indices => span.Covers tokens (indices.map Expr.span) ∧ Expr.NestedAll indices
  | .call span _ args => span.Covers tokens (args.map Expr.span) ∧ Expr.NestedAll args
  | .unary span _ operand => span.Covers tokens [operand.span] ∧ operand.Nested
  | .binary span _ left right =>
    span.Covers tokens [left.span, right.span] ∧ left.Nested ∧ right.Nested

/-- The same for several expressions. -/
def Expr.NestedAll : List Expr → Prop
  | [] => True
  | e :: es => e.Nested ∧ Expr.NestedAll es

end

/-- Whether the spans of a target are nested. -/
def Target.Nested (target : Target) : Prop :=
  target.span.Covers tokens (target.indices.map Expr.span) ∧ Expr.NestedAll tokens target.indices

mutual

/-- Whether the spans of a statement are nested. The arms of a branch follow its condition. -/
def Stmt.Nested : Stmt → Prop
  | .branch span condition pass fail =>
    span.Covers tokens
        (condition.span :: pass.map Stmt.span ++ (fail.getD []).map Stmt.span) ∧
      condition.Nested tokens ∧ Stmt.NestedAll pass ∧ Stmt.NestedOption fail
  | .assign span target value =>
    span.Covers tokens [target.span, value.span] ∧ target.Nested tokens ∧ value.Nested tokens
  | .update span _ target value =>
    span.Covers tokens [target.span, value.span] ∧ target.Nested tokens ∧ value.Nested tokens
  | .ret span value => span.Covers tokens [value.span] ∧ value.Nested tokens

/-- The same for a block. -/
def Stmt.NestedAll : List Stmt → Prop
  | [] => True
  | stmt :: rest => stmt.Nested ∧ Stmt.NestedAll rest

/-- The same for a block that may be absent. -/
def Stmt.NestedOption : Option (List Stmt) → Prop
  | none => True
  | some block => Stmt.NestedAll block

end

/-- Whether the spans of a parameter are nested. Dimensions that are left open have none. -/
def Param.Nested (param : Param) : Prop :=
  param.span.Covers tokens ((param.dims.filterMap id).map Expr.span) ∧
    Expr.NestedAll tokens (param.dims.filterMap id)

/-- Whether the spans of a declaration are nested. Its statements follow its parameters. -/
def Decl.Nested (decl : Decl) : Prop :=
  decl.span.Covers tokens (decl.params.map Param.span ++ decl.body.map Stmt.span) ∧
    (∀ param ∈ decl.params, param.Nested tokens) ∧ Stmt.NestedAll tokens decl.body

end Nested

section

variable {tokens : List Token}

/-- An expression whose spans are nested has a span that starts and stops at tokens. -/
theorem Expr.Nested.covers {e : Expr} (h : e.Nested tokens) :
    ∃ children, e.span.Covers tokens children := by
  cases e with
  | number span value => exact ⟨_, h⟩
  | _ => exact ⟨_, h.1⟩

/-- Two rows of expressions are nested together if each of them is. Indices are added at the end of
those that are there, so rows are also taken apart at their end. -/
theorem Expr.nestedAll_append {es es' : List Expr} :
    Expr.NestedAll tokens (es ++ es') ↔ Expr.NestedAll tokens es ∧ Expr.NestedAll tokens es' := by
  induction es with
  | nil => simp [Expr.NestedAll]
  | cons e es ih => simp [Expr.NestedAll, ih, and_assoc]

end

/-! ### Cursors -/

namespace Token

/-- Whether tokens stand behind an offset, one behind the other, and none of them is empty. -/
def Ascending (low : Nat) : List Token → Prop
  | [] => True
  | token :: rest =>
    low ≤ token.span.start ∧ token.span.start < token.span.stop ∧ Ascending token.span.stop rest

namespace Cursor

/-- Whether a cursor reads tokens of a list, in order, behind what it has consumed. -/
structure Ordered (tokens : List Token) (c : Cursor) : Prop where
  ascending : Ascending c.stop c.rest
  rest : ∀ token ∈ c.rest, token ∈ tokens
  close : c.close ∈ tokens

/-- Whether a cursor has also consumed a token. -/
structure Advanced (tokens : List Token) (c : Cursor) : Prop extends Ordered tokens c where
  stop : ∃ token ∈ tokens, token.span.stop = c.stop

/-- What is known of a token between two cursors. -/
structure TokenRead (tokens : List Token) (c : Cursor) (token : Token) (d : Cursor) : Prop where
  head : c.rest.head? = some token
  mem : token ∈ tokens
  chain : Span.Chain c.stop d.stop [token.span]
  stop : d.stop = token.span.stop

variable {tokens : List Token} {c : Cursor}

/-- The current token is one of the list. -/
theorem Ordered.current_mem (h : c.Ordered tokens) : c.current ∈ tokens := by
  rcases hrest : c.rest with _ | ⟨token, rest⟩
  · rw [current, hrest]
    exact h.close
  · rw [current, hrest]
    exact h.rest token (by simp [hrest])

/-- If there is a token to read, it is the current one. -/
theorem current_of_head {token : Token} (h : c.rest.head? = some token) : c.current = token := by
  rw [current, List.headD_eq_head?_getD, h, Option.getD_some]

/-- What comes next stands behind what was consumed. -/
theorem Ordered.le_of_head (h : c.Ordered tokens) {token : Token}
    (htoken : c.rest.head? = some token) : c.stop ≤ token.span.start := by
  obtain ⟨rest, hrest⟩ := List.head?_eq_some_iff.mp htoken
  have hascending := h.ascending
  rw [hrest] at hascending
  exact hascending.1

/-- Taking a token moves on in the order of the tokens, and what was taken is one of them. -/
theorem Ordered.next (h : c.Ordered tokens) {token : Token} {d : c.After}
    (hnext : c.next? = some (token, d)) :
    d.1.Advanced tokens ∧ TokenRead tokens c token d.1 := by
  rcases c with ⟨_ | ⟨first, rest⟩, close, stop⟩
  · cases hnext
  · cases hnext
    have hmem : token ∈ tokens := h.rest token List.mem_cons_self
    obtain ⟨hstart, hlt, hrest⟩ := h.ascending
    exact ⟨⟨⟨hrest, fun t ht => h.rest t (List.mem_cons_of_mem _ ht), h.close⟩, token, hmem, rfl⟩,
      rfl, hmem, ⟨hstart, hlt, Nat.le_refl _⟩, rfl⟩

/-! ### Readers -/

section Places

variable {α β : Type} {P Q : Cursor → Prop}

/-- Whether a reader ends at an advanced cursor with a result that has a property there, or with a
fault at the start of a token. -/
def Places (tokens : List Token) (post : α → Cursor → Prop) :
    Except Fault (α × { d : Cursor // P d }) → Prop
  | .ok (a, d) => d.1.Advanced tokens ∧ post a d.1
  | .error fault => ∃ token ∈ tokens, token.span.start = fault.offset

/-- A reader in two parts. -/
theorem Places.bind {post : α → Cursor → Prop} {goal : β → Cursor → Prop}
    {m : Except Fault (α × { d : Cursor // P d })}
    {k : α × { d : Cursor // P d } → Except Fault (β × { d : Cursor // Q d })}
    (hm : Places tokens post m)
    (hk : ∀ a d (hd : P d), d.Advanced tokens → post a d → Places tokens goal (k (a, ⟨d, hd⟩))) :
    Places tokens goal (m >>= k) := by
  cases m with
  | error fault => exact hm
  | ok pair => exact hk pair.1 pair.2.1 pair.2.2 hm.1 hm.2

/-- A token that is not expected has a start. -/
theorem Ordered.unexpected {post : α → Cursor → Prop} (h : c.Ordered tokens) :
    Places (P := P) tokens post (.error c.unexpected) :=
  ⟨c.current, h.current_mem, rfl⟩

/-- A fault at the current token is at the start of a token, whatever was expected there. -/
theorem Ordered.unexpectedFor {post : α → Cursor → Prop} (h : c.Ordered tokens)
    (expectation : Expectation) :
    Places (P := P) tokens post (.error (c.unexpectedFor expectation)) :=
  ⟨c.current, h.current_mem, rfl⟩

end Places

/-- Asking for a token of one kind reads that token, or fails at the start of the current one. -/
theorem Ordered.places_expectOr (h : c.Ordered tokens) (kind : Kind) {fault : Fault}
    (hfault : fault.offset = c.current.span.start) :
    Places tokens (TokenRead tokens c) (c.expectOr kind fault) := by
  have herror : ∃ token ∈ tokens, token.span.start = fault.offset :=
    ⟨c.current, h.current_mem, hfault.symm⟩
  unfold expectOr
  rcases hnext : c.next? with _ | ⟨token, d⟩
  · exact herror
  · dsimp only
    by_cases hkind : token.kind = kind
    · rw [if_pos hkind]
      exact h.next hnext
    · rw [if_neg hkind]
      exact herror

/-- Asking for a token of one kind reads that token, or fails at the start of the current one, with
the usual fault. -/
theorem Ordered.places_expect (h : c.Ordered tokens) (kind : Kind) :
    Places tokens (TokenRead tokens c) (c.expect kind) :=
  h.places_expectOr kind rfl

/-- What is known of an expression that was read behind an offset. -/
def ExprRead (tokens : List Token) (low : Nat) (e : Expr) (d : Cursor) : Prop :=
  e.Nested tokens ∧ Span.Chain low d.stop [e.span]

/-- What is known of several expressions that were read behind an offset. -/
def ExprsRead (tokens : List Token) (low : Nat) (es : List Expr) (d : Cursor) : Prop :=
  Expr.NestedAll tokens es ∧ Span.Chain low d.stop (es.map Expr.span)

variable {low : Nat} {token : Token} {d f : Cursor}

/-- A node from a token to some offset covers what was read behind the token and in front of that
offset. -/
theorem TokenRead.covers (h : TokenRead tokens c token d) {stop : Nat} {children : List Span}
    (hstop : ∃ last ∈ tokens, last.span.stop = stop) (hchildren : Span.Chain d.stop stop children) :
    Span.Covers tokens ⟨token.span.start, stop⟩ children ∧
      Span.Chain c.stop stop [⟨token.span.start, stop⟩] := by
  obtain ⟨hlow, hlt, hle⟩ := Span.chain_singleton.mp h.chain
  have hnext := hchildren.le
  refine ⟨⟨⟨token, h.mem, rfl⟩, hstop, ?_, hchildren.mono ?_ (Nat.le_refl _)⟩, hlow, ?_,
    Nat.le_refl _⟩
  · show token.span.start < stop
    omega
  · show token.span.start ≤ d.stop
    omega
  · show token.span.start < stop
    omega

/-- What is read further on. -/
theorem ExprRead.mono {low' : Nat} {e : Expr} (h : ExprRead tokens low e d) (hlow : low' ≤ low)
    (hstop : d.stop ≤ f.stop) : ExprRead tokens low' e f :=
  ⟨h.1, h.2.mono hlow hstop⟩

/-- Reading a token moves the end of what was read, as no token is empty. -/
theorem TokenRead.lt (h : TokenRead tokens c token d) : c.stop < d.stop := by
  obtain ⟨hstart, hlt, hstop⟩ := Span.chain_singleton.mp h.chain
  omega

/-- A token that is skipped has been read. -/
theorem Ordered.read_of_skip (h : c.Ordered tokens) {kind : Kind} {d : c.After}
    (hskip : c.skip? kind = some d) :
    d.1.Advanced tokens ∧ ∃ token, TokenRead tokens c token d.1 := by
  unfold skip? at hskip
  rcases hnext : c.next? with _ | ⟨token, d'⟩
  · simp [hnext] at hskip
  · obtain ⟨hd, htoken⟩ := h.next hnext
    simp only [hnext, Option.ite_none_right_eq_some, Option.some.injEq] at hskip
    obtain ⟨-, rfl⟩ := hskip
    exact ⟨hd, token, htoken⟩

/-- Skipping a token moves on and moves the end of what was read. The token itself is not kept by
those who skip it. -/
theorem Ordered.skip (h : c.Ordered tokens) {kind : Kind} {d : c.After}
    (hskip : c.skip? kind = some d) : d.1.Advanced tokens ∧ c.stop < d.1.stop := by
  obtain ⟨hd, token, htoken⟩ := h.read_of_skip hskip
  exact ⟨hd, htoken.lt⟩

mutual

/-- Expressions are well placed: the span of what was read lies between the ends before and after
it, and its parts lie in it one after the other. -/
theorem places_expression (power : Power) (c : Cursor) (hc : c.Ordered tokens) :
    Places tokens (ExprRead tokens c.stop) (c.expression power) := by
  rw [expression]
  refine (places_operand c hc).bind fun left d hd hd' hleft => ?_
  exact (places_links power left d hd' hleft).bind fun e f hf hf' he => ⟨hf', he⟩
termination_by 4 * c.size + 1

/-- Operands are well placed. Each starts at the token that it begins with and ends with the last
one that was taken for it. -/
theorem places_operand (c : Cursor) (hc : c.Ordered tokens) :
    Places tokens (ExprRead tokens c.stop) c.operand := by
  rw [operand]
  rcases hnext : c.next? with _ | ⟨token, d, hd⟩
  · exact hc.unexpected
  have hd' : d.Advanced tokens := (hc.next hnext).1
  have htoken : TokenRead tokens c token d := (hc.next hnext).2
  have hlow : c.stop ≤ d.stop := htoken.chain.le
  -- A number or a name spans its only token.
  have hspan : token.span.Covers tokens [] ∧ Span.Chain c.stop d.stop [token.span] := by
    rw [htoken.stop]
    exact htoken.covers ⟨token, htoken.mem, rfl⟩ (Nat.le_of_eq htoken.stop)
  -- Both prefix operators are placed alike: from the operator to the end of the operand.
  have hprefix (op : PrefixOp) : Places tokens (ExprRead tokens c.stop)
      (do
        let (e, f) ← expression .unary d
        return (.unary ⟨token.span.start, e.span.stop⟩ op e, f.within hd)) := by
    refine (places_expression .unary d hd'.toOrdered).bind fun e f hf hf' he => ?_
    obtain ⟨children, hcovers⟩ := he.1.covers
    obtain ⟨hstart, hlt, hstop⟩ := Span.chain_singleton.mp he.2
    have hchild : Span.Chain d.stop e.span.stop [e.span] := ⟨hstart, hlt, Nat.le_refl _⟩
    obtain ⟨hnode, hchain⟩ := htoken.covers hcovers.stop hchild
    exact ⟨hf', ⟨hnode, he.1⟩, hchain.mono (Nat.le_refl _) hstop⟩
  dsimp only
  cases hkind : token.kind with
  | number =>
    cases Decimal.read? token.text with
    | some value => exact ⟨hd', hspan⟩
    | none => exact ⟨token, htoken.mem, rfl⟩
  | identifier => exact ⟨hd', ⟨hspan.1, trivial⟩, hspan.2⟩
  | openParen =>
    refine (places_expression .lowest d hd'.toOrdered).bind fun e f hf hf' he => ?_
    refine (hf'.places_expect .closeParen).bind fun _ g hg hg' hclose => ?_
    exact ⟨hg', he.mono hlow hclose.chain.le⟩
  | openBracket =>
    refine (places_expressions .closeBracket d hd'.toOrdered).bind fun items f hf hf' hitems => ?_
    obtain ⟨hnode, hchain⟩ := htoken.covers hf'.stop hitems.2
    exact ⟨hf', ⟨hnode, hitems.1⟩, hchain⟩
  | newWord =>
    refine (hd'.places_expect .numberWord).bind fun _ f hf hf' hword => ?_
    refine (places_bracketed f hf').bind fun sizes g hg hg' hsizes => ?_
    obtain ⟨hnode, hchain⟩ :=
      htoken.covers hg'.stop (hsizes.2.mono hword.chain.le (Nat.le_refl _))
    cases sizes with
    | nil => exact hg'.unexpectedFor _
    | cons size sizes => exact ⟨hg', ⟨hnode, hsizes.1⟩, hchain⟩
  | bang => exact hprefix .inversion
  | dash => exact hprefix .negation
  | _ => exact hc.unexpected
termination_by 4 * c.size

/-- Links make well placed expressions of well placed ones. The new expression starts where the old
one did, so it spans the old one too. -/
theorem places_links (power : Power) (left : Expr) (c : Cursor) (hc : c.Advanced tokens)
    {low : Nat} (hleft : ExprRead tokens low left c) :
    Places tokens (ExprRead tokens low) (c.links power left) := by
  rw [links]
  rcases hnext : c.next? with _ | ⟨token, d, hd⟩
  · exact ⟨hc, hleft⟩
  have hd' : d.Advanced tokens := (hc.next hnext).1
  have htoken : TokenRead tokens c token d := (hc.next hnext).2
  have hlow : c.stop ≤ d.stop := htoken.chain.le
  -- What is held lies in front of the link, so whatever is joined to it starts where it starts and
  -- ends behind it.
  obtain ⟨hstart, hlt, hstop⟩ := Span.chain_singleton.mp hleft.2
  dsimp only
  rcases Link.above? power token.kind with _ | ⟨op⟩ | _ | _
  · exact ⟨hc, hleft⟩
  · refine (places_expression op.power d hd'.toOrdered).bind fun right f hf hf' hright => ?_
    have hnode : ExprRead tokens low
        (.binary ⟨left.span.start, right.span.stop⟩ op left right) f := by
      obtain ⟨hrightStart, hrightLt, hrightStop⟩ := Span.chain_singleton.mp hright.2
      obtain ⟨_, hleftCovers⟩ := hleft.1.covers
      obtain ⟨_, hrightCovers⟩ := hright.1.covers
      have hwide : left.span.start < right.span.stop := by omega
      refine ⟨⟨⟨hleftCovers.start, hrightCovers.stop, hwide, ?_⟩, hleft.1, hright.1⟩, hstart, hwide,
        hrightStop⟩
      exact ⟨Nat.le_refl _, hlt, by omega, hrightLt, Nat.le_refl _⟩
    exact (places_links power _ f hf' hnode).bind fun e g hg hg' he => ⟨hg', he⟩
  · -- Only a name can be called.
    rcases left with _ | _ | _ | ⟨span, name, _ | ⟨index, indices⟩⟩ | _ | _ | _
    case var.nil =>
      refine (places_expressions .closeParen d hd'.toOrdered).bind fun args f hf hf' hargs => ?_
      have hnode : ExprRead tokens low (.call ⟨span.start, f.stop⟩ name args) f := by
        have hle := hargs.2.le
        have hwide : span.start < f.stop := by
          show (Expr.var span name []).span.start < f.stop
          omega
        refine ⟨⟨⟨hleft.1.1.start, hf'.stop, hwide, ?_⟩, hargs.1⟩, hstart, hwide, Nat.le_refl _⟩
        refine hargs.2.mono ?_ (Nat.le_refl _)
        show (Expr.var span name []).span.start ≤ d.stop
        omega
      exact (places_links power _ f hf' hnode).bind fun e g hg hg' he => ⟨hg', he⟩
    all_goals exact hc.unexpectedFor _
  · -- Only a variable can be indexed, and the index is put behind those that it already has.
    cases left with
    | var span name indices =>
      refine (places_expression .lowest d hd'.toOrdered).bind fun index f hf hf' hindex => ?_
      refine (hf'.places_expect .closeBracket).bind fun _ g hg hg' hclose => ?_
      have hnode : ExprRead tokens low
          (.var ⟨span.start, g.stop⟩ name (indices ++ [index])) g := by
        have hspan : span.stop ≤ c.stop := hstop
        have hopen : span.start < span.stop := hlt
        have hle := hindex.2.le
        have hle' := hclose.chain.le
        have hwide : span.start < g.stop := by omega
        refine ⟨⟨⟨hleft.1.1.start, hg'.stop, hwide, ?_⟩, ?_⟩, hstart, hwide, Nat.le_refl _⟩
        · rw [List.map_append]
          exact hleft.1.1.chain.append (hindex.2.mono (by omega) hle')
        · exact Expr.nestedAll_append.mpr ⟨hleft.1.2, hindex.1, trivial⟩
      exact (places_links power _ g hg' hnode).bind fun e k hk hk' he => ⟨hk', he⟩
    | _ => exact hc.unexpectedFor _
termination_by 4 * c.size

/-- Lists of expressions are well placed, one behind the other. -/
theorem places_expressions (close : Kind) (c : Cursor) (hc : c.Ordered tokens) :
    Places tokens (ExprsRead tokens c.stop) (c.expressions close) := by
  rw [expressions]
  rcases hskip : c.skip? close with _ | d
  · exact places_expressionsOne close c hc
  · obtain ⟨hd, hlt⟩ := hc.skip hskip
    exact ⟨hd, trivial, Nat.le_of_lt hlt⟩
termination_by 4 * c.size + 3

/-- Lists of one expression or more are well placed, one behind the other. -/
theorem places_expressionsOne (close : Kind) (c : Cursor) (hc : c.Ordered tokens) :
    Places tokens (ExprsRead tokens c.stop) (c.expressionsOne close) := by
  rw [expressionsOne]
  refine (places_expression .lowest c hc).bind fun e d hd hd' he => ?_
  dsimp only
  rcases hskip : d.skip? .comma with _ | ⟨f, hf⟩
  · refine (hd'.places_expect close).bind fun _ f hf hf' hclose => ?_
    exact ⟨hf', ⟨he.1, trivial⟩, he.2.mono (Nat.le_refl _) hclose.chain.le⟩
  · have hf' : f.Advanced tokens := (hd'.skip hskip).1
    have hlt : d.stop < f.stop := (hd'.skip hskip).2
    refine (places_expressionsOne close f hf'.toOrdered).bind fun es g hg hg' hes => ?_
    exact ⟨hg', ⟨he.1, hes.1⟩, he.2.append (hes.2.mono (Nat.le_of_lt hlt) (Nat.le_refl _))⟩
termination_by 4 * c.size + 2

/-- Rows of bracketed expressions are well placed, one behind the other. -/
theorem places_bracketed (c : Cursor) (hc : c.Advanced tokens) :
    Places tokens (ExprsRead tokens c.stop) c.bracketed := by
  rw [bracketed]
  rcases hskip : c.skip? .openBracket with _ | ⟨d, hd⟩
  · exact ⟨hc, trivial, Nat.le_refl _⟩
  · have hd' : d.Advanced tokens := (hc.skip hskip).1
    have hlt : c.stop < d.stop := (hc.skip hskip).2
    refine (places_expression .lowest d hd'.toOrdered).bind fun e f hf hf' he => ?_
    refine (hf'.places_expect .closeBracket).bind fun _ g hg hg' hclose => ?_
    refine (places_bracketed g hg').bind fun es k hk hk' hes => ?_
    have hfirst : Span.Chain c.stop g.stop [e.span] :=
      he.2.mono (Nat.le_of_lt hlt) hclose.chain.le
    exact ⟨hk', ⟨he.1, hes.1⟩, hfirst.append hes.2⟩
termination_by 4 * c.size

end

/-! ### Statements -/

/-- What is known of a statement that was read behind an offset. -/
def StmtRead (tokens : List Token) (low : Nat) (stmt : Stmt) (d : Cursor) : Prop :=
  stmt.Nested tokens ∧ Span.Chain low d.stop [stmt.span]

/-- What is known of several statements that were read behind an offset. -/
def StmtsRead (tokens : List Token) (low : Nat) (stmts : List Stmt) (d : Cursor) : Prop :=
  Stmt.NestedAll tokens stmts ∧ Span.Chain low d.stop (stmts.map Stmt.span)

/-- An assignment starts at its name, which has been read before it. -/
theorem places_assignment (htoken : TokenRead tokens c token d) (hd : d.Advanced tokens) :
    Places tokens (StmtRead tokens c.stop) (d.assignment token) := by
  unfold assignment
  refine (places_bracketed d hd).bind fun indices f hf hf' hindices => ?_
  obtain ⟨htarget, htargetChain⟩ := htoken.covers hf'.stop hindices.2
  have hopen := Span.chain_singleton.mp htargetChain
  dsimp only
  rcases hnext : f.next? with _ | ⟨op, g, hg⟩
  · exact hf'.unexpectedFor _
  have hg' : g.Advanced tokens := (hf'.next hnext).1
  have hop : f.stop ≤ g.stop := (hf'.next hnext).2.chain.le
  -- Both kinds of assignment span the same text.
  have hvalue {value : Expr} {k m : Cursor} (hvalue : ExprRead tokens g.stop value k)
      (hm : m.Advanced tokens) (hclose : k.stop ≤ m.stop) :
      Span.Covers tokens ⟨token.span.start, m.stop⟩
          [⟨token.span.start, f.stop⟩, value.span] ∧
        Span.Chain c.stop m.stop [⟨token.span.start, m.stop⟩] := by
    have hle := hvalue.2.le
    have hchildren : Span.Chain token.span.start m.stop
        [⟨token.span.start, f.stop⟩, value.span] :=
      ⟨Nat.le_refl _, hopen.2.1, hvalue.2.mono hop hclose⟩
    obtain ⟨hcovers, hchain⟩ := htoken.covers hm.stop (hindices.2.mono (Nat.le_refl _) (by omega))
    exact ⟨⟨hcovers.start, hcovers.stop, hcovers.lt, hchildren⟩, hchain⟩
  dsimp only
  by_cases hassign : op.kind = .assignment
  · rw [if_pos hassign]
    refine (places_expression .lowest g hg'.toOrdered).bind fun value k hk hk' hread => ?_
    refine (hk'.places_expect .semicolon).bind fun _ m hm hm' hclose => ?_
    obtain ⟨hnode, hchain⟩ := hvalue hread hm' hclose.chain.le
    exact ⟨hm', ⟨hnode, ⟨htarget, hindices.1⟩, hread.1⟩, hchain⟩
  · rw [if_neg hassign]
    rcases CompoundOp.ofKind? op.kind with _ | compound
    · exact hf'.unexpectedFor _
    · refine (places_expression .lowest g hg'.toOrdered).bind fun value k hk hk' hread => ?_
      refine (hk'.places_expect .semicolon).bind fun _ m hm hm' hclose => ?_
      obtain ⟨hnode, hchain⟩ := hvalue hread hm' hclose.chain.le
      exact ⟨hm', ⟨hnode, ⟨htarget, hindices.1⟩, hread.1⟩, hchain⟩

mutual

/-- Statements are well placed, with all that is inside of them. -/
theorem places_statement (c : Cursor) (hc : c.Ordered tokens) :
    Places tokens (StmtRead tokens c.stop) c.statement := by
  rw [statement]
  rcases hnext : c.next? with _ | ⟨token, d, hd⟩
  · exact hc.unexpectedFor _
  have hd' : d.Advanced tokens := (hc.next hnext).1
  have htoken : TokenRead tokens c token d := (hc.next hnext).2
  dsimp only
  cases hkind : token.kind with
  | ifWord =>
    refine (hd'.places_expect .openParen).bind fun _ f hf hf' hopen => ?_
    refine (places_expression .lowest f hf'.toOrdered).bind fun condition g hg hg' hcond => ?_
    refine (hg'.places_expect .closeParen).bind fun _ k hk hk' hclose => ?_
    refine (places_arm k hk'.toOrdered).bind fun pass m hm hm' hpass => ?_
    have hhead : Span.Chain d.stop m.stop (condition.span :: pass.map Stmt.span) :=
      (hcond.2.mono hopen.chain.le hclose.chain.le).append hpass.2
    dsimp only
    rcases hskip : m.skip? .elseWord with _ | ⟨n, hn⟩
    · have hnone : Span.Chain m.stop m.stop [] := Nat.le_refl m.stop
      obtain ⟨hnode, hchain⟩ := htoken.covers hm'.stop (hhead.append hnone)
      exact ⟨hm', ⟨hnode, hcond.1, hpass.1, trivial⟩, hchain⟩
    · have hn' : n.Advanced tokens := (hm'.skip hskip).1
      have hlt : m.stop < n.stop := (hm'.skip hskip).2
      refine (places_arm n hn'.toOrdered).bind fun fail q hq hq' hfail => ?_
      obtain ⟨hnode, hchain⟩ := htoken.covers hq'.stop
        (hhead.append (hfail.2.mono (Nat.le_of_lt hlt) (Nat.le_refl _)))
      exact ⟨hq', ⟨hnode, hcond.1, hpass.1, hfail.1⟩, hchain⟩
  | returnWord =>
    refine (places_expression .lowest d hd'.toOrdered).bind fun value f hf hf' hvalue => ?_
    refine (hf'.places_expect .semicolon).bind fun _ g hg hg' hclose => ?_
    obtain ⟨hnode, hchain⟩ :=
      htoken.covers hg'.stop (hvalue.2.mono (Nat.le_refl _) hclose.chain.le)
    exact ⟨hg', ⟨hnode, hvalue.1⟩, hchain⟩
  | identifier =>
    exact (places_assignment htoken hd').bind fun stmt f hf hf' hstmt => ⟨hf', hstmt⟩
  | _ => exact hc.unexpectedFor _
termination_by 3 * c.size

/-- Arms of a branch are well placed. A block has no span of its own; its statements have. -/
theorem places_arm (c : Cursor) (hc : c.Ordered tokens) :
    Places tokens (StmtsRead tokens c.stop) c.arm := by
  rw [arm]
  rcases hskip : c.skip? .openCurly with _ | ⟨d, hd⟩
  · exact (places_statement c hc).bind fun stmt d hd hd' hstmt => ⟨hd', ⟨hstmt.1, trivial⟩, hstmt.2⟩
  · have hd' : d.Advanced tokens := (hc.skip hskip).1
    have hlt : c.stop < d.stop := (hc.skip hskip).2
    refine (places_statements d hd'.toOrdered).bind fun body f hf hf' hbody => ?_
    exact ⟨hf', hbody.1, hbody.2.mono (Nat.le_of_lt hlt) (Nat.le_refl _)⟩
termination_by 3 * c.size + 1

/-- The statements of a block are well placed, one behind the other. -/
theorem places_statements (c : Cursor) (hc : c.Ordered tokens) :
    Places tokens (StmtsRead tokens c.stop) c.statements := by
  rw [statements]
  rcases hskip : c.skip? .closeCurly with _ | d
  · dsimp only
    by_cases heof : c.current.kind = .eof
    · rw [if_pos heof]
      exact hc.unexpected
    · rw [if_neg heof]
      refine (places_statement c hc).bind fun stmt d hd hd' hstmt => ?_
      refine (places_statements d hd'.toOrdered).bind fun rest f hf hf' hrest => ?_
      exact ⟨hf', ⟨hstmt.1, hrest.1⟩, hstmt.2.append hrest.2⟩
  · obtain ⟨hd, hlt⟩ := hc.skip hskip
    exact ⟨hd, trivial, Nat.le_of_lt hlt⟩
termination_by 3 * c.size + 1

end

/-- Blocks are well placed, as their statements are. -/
theorem places_block (hc : c.Ordered tokens) :
    Places tokens (StmtsRead tokens c.stop) c.block := by
  unfold block
  refine (hc.places_expect .openCurly).bind fun _ d hd hd' hopen => ?_
  refine (places_statements d hd'.toOrdered).bind fun body f hf hf' hbody => ?_
  exact ⟨hf', hbody.1, hbody.2.mono hopen.chain.le (Nat.le_refl _)⟩

/-! ### Declarations -/

/-- The expressions among the dimensions of a parameter are well placed. Dimensions without an
expression leave no trace. -/
theorem places_dimensions (c : Cursor) (hc : c.Advanced tokens) :
    Places tokens (fun dims => ExprsRead tokens c.stop (dims.filterMap id)) c.dimensions := by
  rw [dimensions]
  rcases hskip : c.skip? .openBracket with _ | ⟨d, hd⟩
  · exact ⟨hc, trivial, Nat.le_refl _⟩
  have hd' : d.Advanced tokens := (hc.skip hskip).1
  have hlt : c.stop < d.stop := (hc.skip hskip).2
  dsimp only
  rcases hclose : d.skip? .closeBracket with _ | ⟨f, hf⟩
  · refine (places_expression .lowest d hd'.toOrdered).bind fun e f hf hf' he => ?_
    refine (hf'.places_expect .closeBracket).bind fun _ g hg hg' hclose => ?_
    refine (places_dimensions g hg').bind fun dims k hk hk' hdims => ?_
    have hfirst : Span.Chain c.stop g.stop [e.span] :=
      he.2.mono (Nat.le_of_lt hlt) hclose.chain.le
    exact ⟨hk', ⟨he.1, hdims.1⟩, hfirst.append hdims.2⟩
  · have hf' : f.Advanced tokens := (hd'.skip hclose).1
    have hlt' : d.stop < f.stop := (hd'.skip hclose).2
    refine (places_dimensions f hf').bind fun dims g hg hg' hdims => ?_
    exact ⟨hg', hdims.1, hdims.2.mono (by omega) (Nat.le_refl _)⟩
termination_by c.size

/-- What is known of parameters that were read behind an offset. -/
def ParamsRead (tokens : List Token) (low : Nat) (params : List Param) (d : Cursor) : Prop :=
  (∀ param ∈ params, param.Nested tokens) ∧ Span.Chain low d.stop (params.map Param.span)

/-- Parameters are well placed, from the name to the last bracket. -/
theorem places_parameter (hc : c.Ordered tokens) :
    Places tokens (fun param => ParamsRead tokens c.stop [param]) c.parameter := by
  unfold parameter
  refine (hc.places_expectOr .identifier rfl).bind fun name d hd hd' hname => ?_
  refine (hd'.places_expect .colon).bind fun _ f hf hf' hcolon => ?_
  refine (hf'.places_expectOr .numberWord rfl).bind fun _ g hg hg' hword => ?_
  refine (places_dimensions g hg').bind fun dims k hk hk' hdims => ?_
  have hlow : d.stop ≤ g.stop := Nat.le_trans hcolon.chain.le hword.chain.le
  obtain ⟨hnode, hchain⟩ := hname.covers hk'.stop (hdims.2.mono hlow (Nat.le_refl _))
  exact ⟨hk', List.forall_mem_singleton.mpr ⟨hnode, hdims.1⟩, hchain⟩

/-- Lists of one parameter or more are well placed, one behind the other. -/
theorem places_parametersOne (c : Cursor) (hc : c.Ordered tokens) :
    Places tokens (ParamsRead tokens c.stop) c.parametersOne := by
  rw [parametersOne]
  refine (places_parameter hc).bind fun param d hd hd' hparam => ?_
  dsimp only
  rcases hskip : d.skip? .comma with _ | ⟨f, hf⟩
  · refine (hd'.places_expect .closeParen).bind fun _ f hf hf' hclose => ?_
    exact ⟨hf', hparam.1, hparam.2.mono (Nat.le_refl _) hclose.chain.le⟩
  · have hf' : f.Advanced tokens := (hd'.skip hskip).1
    have hlt : d.stop < f.stop := (hd'.skip hskip).2
    refine (places_parametersOne f hf'.toOrdered).bind fun params g hg hg' hparams => ?_
    refine ⟨hg', List.forall_mem_cons.mpr ⟨hparam.1 param List.mem_cons_self, hparams.1⟩, ?_⟩
    exact hparam.2.append (hparams.2.mono (Nat.le_of_lt hlt) (Nat.le_refl _))
termination_by c.size

/-- Lists of parameters are well placed, one behind the other. -/
theorem places_parameters (hc : c.Ordered tokens) :
    Places tokens (ParamsRead tokens c.stop) c.parameters := by
  unfold parameters
  rcases hskip : c.skip? .closeParen with _ | d
  · exact places_parametersOne c hc
  · obtain ⟨hd, hlt⟩ := hc.skip hskip
    exact ⟨hd, nofun, Nat.le_of_lt hlt⟩

/-- What is known of a declaration that was read behind an offset. -/
def DeclRead (tokens : List Token) (low : Nat) (decl : Decl) (d : Cursor) : Prop :=
  decl.Nested tokens ∧ Span.Chain low d.stop [decl.span]

/-- A declaration starts at its name or, with the word `fn` in front of it, before that. -/
theorem places_declarationFrom (hc : c.Ordered tokens) {start : Nat}
    (hmark : ∃ token ∈ tokens, token.span.start = start)
    (hstart : ∀ token, c.rest.head? = some token → low ≤ start ∧ start ≤ token.span.start) :
    Places tokens (DeclRead tokens low) (c.declarationFrom start) := by
  unfold declarationFrom
  refine (hc.places_expectOr .identifier rfl).bind fun name d hd hd' hname => ?_
  refine (hd'.places_expect .openParen).bind fun _ f hf hf' hopen => ?_
  refine (places_parameters hf'.toOrdered).bind fun params g hg hg' hparams => ?_
  refine (places_block hg'.toOrdered).bind fun body k hk hk' hbody => ?_
  have hle := hopen.chain.le
  have hle' := (hparams.2.append hbody.2).le
  have hspan := Span.chain_singleton.mp hname.chain
  obtain ⟨hlow, hfirst⟩ := hstart name hname.head
  have hwide : start < k.stop := by omega
  refine ⟨hk', ⟨⟨hmark, hk'.stop, hwide, (hparams.2.append hbody.2).mono ?_ (Nat.le_refl _)⟩,
    hparams.1, hbody.1⟩, hlow, hwide, Nat.le_refl _⟩
  show start ≤ f.stop
  omega

/-- Declarations are well placed. They start at the word that introduces them, or at the name if
that is missing. -/
theorem places_declaration (hc : c.Ordered tokens) :
    Places tokens (DeclRead tokens c.stop) c.declaration := by
  have hmark : ∃ token ∈ tokens, token.span.start = c.current.span.start :=
    ⟨c.current, hc.current_mem, rfl⟩
  unfold declaration
  rcases hskip : c.skip? .fnWord with _ | ⟨d, hd⟩
  · refine places_declarationFrom hc hmark fun token htoken => ?_
    rw [current_of_head htoken]
    exact ⟨hc.le_of_head htoken, Nat.le_refl _⟩
  · obtain ⟨hd', word, hword⟩ : d.Advanced tokens ∧ ∃ word, TokenRead tokens c word d :=
      hc.read_of_skip hskip
    refine (places_declarationFrom hd'.toOrdered hmark fun token htoken => ?_).bind
      fun decl f hf hf' hdecl => ⟨hf', hdecl⟩
    have hlow := hd'.le_of_head htoken
    have hspan := Span.chain_singleton.mp hword.chain
    rw [current_of_head hword.head]
    omega

/-- Every declaration that is read has nested spans, declarations follow one another, and a fault
stands at the start of a token. -/
theorem places_declarations (c : Cursor) (hc : c.Ordered tokens) :
    (∀ decls, c.declarations = .ok decls →
      (∀ decl ∈ decls, decl.Nested tokens) ∧
        ∃ high, Span.Chain c.stop high (decls.map Decl.span)) ∧
      ∀ fault, c.declarations = .error fault →
        ∃ token ∈ tokens, token.span.start = fault.offset := by
  rw [declarations]
  by_cases heof : c.current.kind = .eof
  · rw [if_pos heof]
    refine ⟨?_, nofun⟩
    rintro _ ⟨⟩
    exact ⟨nofun, c.stop, Nat.le_refl _⟩
  rw [if_neg heof]
  have hfirst := places_declaration hc
  generalize c.declaration = first at hfirst ⊢
  rcases first with fault | ⟨decl, d, hd⟩
  · refine ⟨nofun, ?_⟩
    rintro _ ⟨⟩
    exact hfirst
  have hrest := places_declarations d hfirst.1.toOrdered
  show (∀ decls, (d.declarations >>= fun decls => pure (decl :: decls)) = .ok decls → _) ∧
    ∀ fault, (d.declarations >>= fun decls => pure (decl :: decls)) = .error fault → _
  rcases hresult : d.declarations with fault | decls
  · refine ⟨nofun, ?_⟩
    rintro _ ⟨⟩
    exact hrest.2 fault hresult
  · refine ⟨?_, nofun⟩
    rintro _ ⟨⟩
    obtain ⟨hnested, high, hchain⟩ := hrest.1 decls hresult
    exact ⟨List.forall_mem_cons.mpr ⟨hfirst.2.1, hnested⟩, high, hfirst.2.2.append hchain⟩
termination_by c.size

end Cursor

/-! ### Texts -/

/-- The tokens of a text are in order. -/
theorem Partition.exists_ascending {offset : Nat} {text : List Char} {tokens : List Token}
    (h : Partition offset text tokens) :
    ∃ body last, tokens = body ++ [last] ∧ last.kind = .eof ∧ Ascending offset body := by
  induction h with
  | close => exact ⟨[], _, rfl, rfl, trivial⟩
  | @token offset start stop gap piece rest kind tokens _ hpiece _ hstart hstop _ ih =>
    obtain ⟨body, last, rfl, hlast, hbody⟩ := ih
    have hwidth := Text.width_pos hpiece
    refine ⟨_ :: body, last, rfl, hlast, ?_, ?_, hbody⟩
    · show offset ≤ start
      omega
    · show start < stop
      omega

/-- Reading a text begins with an ordered cursor. -/
theorem ordered_start {text : String} {tokens : List Token} (h : scan text = .ok tokens) :
    (Cursor.start tokens).Ordered tokens := by
  obtain ⟨body, last, rfl, hlast, hbody⟩ := (partition_scanFrom h).exists_ascending
  have hstart : Cursor.start (body ++ [last]) = ⟨body, last, 0⟩ := by
    simp [Cursor.start, hlast]
  rw [hstart]
  exact ⟨hbody, fun token htoken => List.mem_append_left _ htoken, by simp⟩

/-- Every token of a text starts and stops at character boundaries. -/
theorem boundary_of_mem {text : String} {tokens : List Token} (h : scan text = .ok tokens)
    {token : Token} (htoken : token ∈ tokens) :
    Text.Boundary text.toList token.span.start ∧ Text.Boundary text.toList token.span.stop := by
  obtain ⟨body, rfl, hbody⟩ := (partition_scanFrom h).exists_body (rfl : Text.width [] = 0)
  rcases List.mem_append.mp htoken with hmem | hlast
  · obtain ⟨-, -, back, hcut⟩ := hbody token hmem
    exact ⟨hcut.boundary_start, hcut.boundary_stop⟩
  · have hend : Text.Boundary text.toList (Text.width text.toList) :=
      ⟨text.toList, [], (List.append_nil _).symm, rfl⟩
    rw [List.mem_singleton.mp hlast]
    exact ⟨hend, hend⟩

end Token

namespace Decl

variable {text : String} {tokens : List Token}

/-- The declarations of a text have nested spans. -/
theorem nested_of_parse (hscan : Token.scan text = .ok tokens) {decls : List Decl}
    (hparse : parse tokens = .ok decls) : ∀ decl ∈ decls, decl.Nested tokens :=
  ((Cursor.places_declarations _ (Token.ordered_start hscan)).1 decls hparse).1

/-- The declarations of a text follow one another. -/
theorem exists_chain_of_parse (hscan : Token.scan text = .ok tokens) {decls : List Decl}
    (hparse : parse tokens = .ok decls) : ∃ low high, Span.Chain low high (decls.map Decl.span) :=
  ⟨_, ((Cursor.places_declarations _ (Token.ordered_start hscan)).1 decls hparse).2⟩

/-- A text whose tokens are no declarations has a fault at the start of one of them. -/
theorem exists_start_of_parse (hscan : Token.scan text = .ok tokens) {fault : Fault}
    (hparse : parse tokens = .error fault) : ∃ token ∈ tokens, token.span.start = fault.offset :=
  (Cursor.places_declarations _ (Token.ordered_start hscan)).2 fault hparse

end Decl

/-- The expression that a text consists of has nested spans. -/
theorem Expr.nested_of_parse {text : String} {tokens : List Token}
    (hscan : Token.scan text = .ok tokens) {e : Expr} (hparse : parse tokens = .ok e) :
    e.Nested tokens := by
  have hplaces := Cursor.places_expression .lowest _ (Token.ordered_start hscan)
  unfold parse at hparse
  cases hread : (Cursor.start tokens).expression .lowest with
  | error fault => simp [hread, bind, Except.bind] at hparse
  | ok pair =>
    rw [hread] at hplaces hparse
    by_cases heof : pair.2.1.current.kind = .eof
    · simp only [bind, Except.bind, heof, if_true, pure, Except.pure, Except.ok.injEq] at hparse
      rw [← hparse]
      exact hplaces.2.1
    · simp [bind, Except.bind, heof] at hparse

end ArrayScript
