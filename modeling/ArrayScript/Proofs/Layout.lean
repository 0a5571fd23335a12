import ArrayScript.Proofs.Relocation

/-!
# `ArrayScript.Proofs.Layout`: the layout of a text has no meaning

Blanks and comments move tokens about and do nothing else. Two texts whose tokens have the same
kinds and the same texts are accepted both or refused both, for the same cause, and their programs
cannot be told apart but by the positions of errors (`Source.layout_compile`).

The statement is about two texts, and the proof about one: reading, analysis and running commute
with every relocation of offsets. `ArrayScript.Proofs.Relocation` says so of analysis and running.
Here it is said of the parser, function by function (`Token.Cursor.follows_declaration`): with
moved tokens in front of it, it takes as many of them and gives the moved tree, or the moved fault.
The relocation that forgets all offsets then sends both texts to the same program.
-/

set_option autoImplicit false

namespace ArrayScript

open Token (Kind Cursor)

/-! ### Cursors -/

/-- A token at another place. -/
def Token.relocate (ρ : Relocation) (token : Token) : Token :=
  ⟨token.kind, token.text, ρ.span token.span⟩

/-- A moved token is of the same kind, so the parser takes the same branch at it. -/
@[simp] theorem Token.kind_relocate (ρ : Relocation) (token : Token) :
    (token.relocate ρ).kind = token.kind := rfl

/-- A moved token has the same text, from which numbers and names are taken. -/
@[simp] theorem Token.text_relocate (ρ : Relocation) (token : Token) :
    (token.relocate ρ).text = token.text := rfl

/-- What a moved expression spans. -/
theorem Expr.span_relocate (ρ : Relocation) (e : Expr) : (e.relocate ρ).span = ρ.span e.span := by
  cases e <;> rfl

namespace Token.Cursor

/-- A cursor with moved tokens. -/
def relocate (ρ : Relocation) (c : Cursor) : Cursor :=
  ⟨c.rest.map (Token.relocate ρ), c.close.relocate ρ, ρ.offset c.stop⟩

variable {ρ : Relocation}

/-- A list of moved tokens is read from its beginning. -/
theorem start_relocate (hzero : ρ.offset 0 = 0) (tokens : List Token) :
    start (tokens.map (Token.relocate ρ)) = (start tokens).relocate ρ := by
  unfold start
  rw [List.getLast?_map]
  cases tokens.getLast? with
  | none => simp [relocate, Token.relocate, eof, Relocation.span, hzero]
  | some last =>
    by_cases heof : last.kind = .eof
    · simp [heof, relocate, List.map_dropLast, hzero]
    · simp [heof, relocate, Token.relocate, eof, Relocation.span, hzero]

/-- The current token is the moved one. -/
theorem current_relocate (c : Cursor) : (c.relocate ρ).current = c.current.relocate ρ := by
  rcases c with ⟨_ | ⟨token, rest⟩, close, stop⟩ <;> rfl

/-- The kind of the current token does not depend on where it is. It is all that the parser looks at
before it decides. -/
@[simp] theorem kind_current_relocate (c : Cursor) :
    (c.relocate ρ).current.kind = c.current.kind := by
  rw [current_relocate]
  rfl

/-- A token that is not expected is not expected elsewhere. -/
@[simp] theorem unexpected_relocate (c : Cursor) :
    (c.relocate ρ).unexpected = ρ.fault c.unexpected := by
  rw [unexpected, current_relocate]
  rfl

/-- The same when the fault says what was expected, which has nothing to do with places. -/
@[simp] theorem unexpectedFor_relocate (c : Cursor) (expectation : Expectation) :
    (c.relocate ρ).unexpectedFor expectation = ρ.fault (c.unexpectedFor expectation) := by
  rw [unexpectedFor, current_relocate]
  rfl

/-- At the end there is no moved token. -/
theorem next?_relocate_none {c : Cursor} (h : c.next? = none) : (c.relocate ρ).next? = none := by
  rcases c with ⟨_ | ⟨token, rest⟩, close, stop⟩
  · rfl
  · cases h

/-- The next token is the moved one, with the moved cursor behind it. -/
theorem next?_relocate_some {c : Cursor} {token : Token} {d : c.After}
    (h : c.next? = some (token, d)) :
    ∃ d' : (c.relocate ρ).After, d'.1 = d.1.relocate ρ ∧
      (c.relocate ρ).next? = some (token.relocate ρ, d') := by
  rcases c with ⟨_ | ⟨first, rest⟩, close, stop⟩
  · cases h
  · cases h
    exact ⟨_, rfl, rfl⟩

/-- A token of a kind is not skipped elsewhere when it is not skipped here. -/
theorem skip?_relocate_none {c : Cursor} {kind : Kind} (h : c.skip? kind = none) :
    (c.relocate ρ).skip? kind = none := by
  unfold skip? at h ⊢
  cases hnext : c.next? with
  | none => rw [next?_relocate_none hnext]
  | some pair =>
    obtain ⟨d', -, hnext'⟩ := next?_relocate_some (ρ := ρ) hnext
    rw [hnext']
    have hkind : pair.1.kind ≠ kind := by simpa [hnext] using h
    exact if_neg hkind

/-- A token of a kind is skipped elsewhere when it is skipped here. -/
theorem skip?_relocate_some {c : Cursor} {kind : Kind} {d : c.After}
    (h : c.skip? kind = some d) :
    ∃ d' : (c.relocate ρ).After, d'.1 = d.1.relocate ρ ∧
      (c.relocate ρ).skip? kind = some d' := by
  unfold skip? at h ⊢
  cases hnext : c.next? with
  | none => simp [hnext] at h
  | some pair =>
    obtain ⟨token, e⟩ := pair
    obtain ⟨d', hd', hnext'⟩ := next?_relocate_some (ρ := ρ) hnext
    simp only [hnext, Option.ite_none_right_eq_some, Option.some.injEq] at h
    obtain ⟨hkind, rfl⟩ := h
    refine ⟨d', hd', ?_⟩
    rw [hnext']
    exact if_pos hkind

/-! ### Readers -/

section Follows

variable {α β : Type} {move : α → α} {move' : β → β} {P P' Q Q' : Cursor → Prop}

/-- Whether a reader does with moved tokens what another one does: it gives the moved result and the
moved cursor behind it, or the moved fault. -/
inductive Follows (ρ : Relocation) (move : α → α) :
    Except Fault (α × { d : Cursor // P d }) → Except Fault (α × { d : Cursor // P' d }) → Prop
  | ok {a b : α} {d : { d : Cursor // P d }} {d' : { d : Cursor // P' d }} :
      b = move a → d'.1 = d.1.relocate ρ → Follows ρ move (.ok (a, d)) (.ok (b, d'))
  | error {fault fault' : Fault} :
      fault' = ρ.fault fault → Follows ρ move (.error fault) (.error fault')

/-- A reader in two parts. -/
theorem Follows.bind {m : Except Fault (α × { d : Cursor // P d })}
    {m' : Except Fault (α × { d : Cursor // P' d })}
    {k : α × { d : Cursor // P d } → Except Fault (β × { d : Cursor // Q d })}
    {k' : α × { d : Cursor // P' d } → Except Fault (β × { d : Cursor // Q' d })}
    (hm : Follows ρ move m m')
    (hk : ∀ a c (hc : P c) (hc' : P' (c.relocate ρ)),
      Follows ρ move' (k (a, ⟨c, hc⟩)) (k' (move a, ⟨c.relocate ρ, hc'⟩))) :
    Follows ρ move' (m >>= k) (m' >>= k') := by
  cases hm with
  | error hfault => exact .error hfault
  | @ok a _ d d' hmove hcursor =>
    subst hmove
    obtain ⟨c, hc⟩ := d
    obtain ⟨_, hc'⟩ := d'
    obtain rfl := hcursor
    exact hk a c hc hc'

end Follows

/-- A token of a kind is consumed like the moved one. -/
theorem follows_expectOr (c : Cursor) (kind : Kind) {fault fault' : Fault}
    (hfault : fault' = ρ.fault fault) :
    Follows ρ (Token.relocate ρ) (c.expectOr kind fault)
      ((c.relocate ρ).expectOr kind fault') := by
  unfold expectOr
  rcases hnext : c.next? with _ | ⟨token, d⟩
  · rw [next?_relocate_none hnext]
    exact .error hfault
  · obtain ⟨d', hd', hnext'⟩ := next?_relocate_some (ρ := ρ) hnext
    rw [hnext']
    dsimp only
    rw [Token.kind_relocate]
    by_cases h : token.kind = kind
    · rw [if_pos h, if_pos h]
      exact .ok rfl hd'
    · rw [if_neg h, if_neg h]
      exact .error hfault

/-- A mark that is asked for is found or missed like the moved one. -/
theorem follows_expect (c : Cursor) (kind : Kind) :
    Follows ρ (Token.relocate ρ) (c.expect kind) ((c.relocate ρ).expect kind) :=
  follows_expectOr c kind (unexpected_relocate c)

mutual

/-- Expressions are read like moved ones. Their spans are made from those of the parts, so they move
along with these. -/
theorem follows_expression (power : Power) (c : Cursor) :
    Follows ρ (Expr.relocate ρ) (c.expression power) ((c.relocate ρ).expression power) := by
  rw [expression, expression]
  refine (follows_operand c).bind fun left d hd hd' => ?_
  refine (follows_links power left d).bind fun e f hf hf' => ?_
  exact .ok rfl rfl
termination_by 4 * c.size + 1

/-- Operands are read like moved ones, one case for each kind of token that can start one. -/
theorem follows_operand (c : Cursor) :
    Follows ρ (Expr.relocate ρ) c.operand (c.relocate ρ).operand := by
  rw [operand, operand]
  rcases hnext : c.next? with _ | ⟨token, d, hd⟩
  · rw [next?_relocate_none hnext]
    exact .error (unexpected_relocate c)
  obtain ⟨⟨_, hd'⟩, rfl, hnext'⟩ := next?_relocate_some (ρ := ρ) hnext
  rw [hnext']
  simp only [Token.kind_relocate]
  have hprefix (op : PrefixOp) : Follows ρ (Expr.relocate ρ)
      (do
        let (e, f) ← expression .unary d
        return (.unary ⟨token.span.start, e.span.stop⟩ op e, f.within hd))
      (do
        let (e, f) ← expression .unary (d.relocate ρ)
        return (.unary ⟨(token.relocate ρ).span.start, e.span.stop⟩ op e, f.within hd')) := by
    refine (follows_expression .unary d).bind fun e f hf hf' => ?_
    refine .ok ?_ rfl
    rw [Expr.span_relocate]
    rfl
  cases hkind : token.kind with
  | number =>
    simp only [Token.text_relocate]
    cases Decimal.read? token.text with
    | some value => exact .ok rfl rfl
    | none => exact .error rfl
  | identifier => exact .ok rfl rfl
  | openParen =>
    refine (follows_expression .lowest d).bind fun e f hf hf' => ?_
    exact (follows_expect f .closeParen).bind fun _ g hg hg' => .ok rfl rfl
  | openBracket =>
    exact (follows_expressions .closeBracket d).bind fun items f hf hf' => .ok rfl rfl
  | newWord =>
    refine (follows_expect d .numberWord).bind fun _ f hf hf' => ?_
    refine (follows_bracketed f).bind fun sizes g hg hg' => ?_
    cases sizes with
    | nil => exact .error (unexpectedFor_relocate g _)
    | cons size sizes => exact .ok rfl rfl
  | bang => exact hprefix .inversion
  | dash => exact hprefix .negation
  | _ => exact .error (unexpected_relocate c)
termination_by 4 * c.size

/-- The links behind an expression are read like moved ones. The expression that they start from is
moved as well, and its span goes into those of the results. -/
theorem follows_links (power : Power) (left : Expr) (c : Cursor) :
    Follows ρ (Expr.relocate ρ) (c.links power left)
      ((c.relocate ρ).links power (left.relocate ρ)) := by
  rw [links, links]
  rcases hnext : c.next? with _ | ⟨token, d, hd⟩
  · rw [next?_relocate_none hnext]
    exact .ok rfl rfl
  obtain ⟨⟨_, hd'⟩, rfl, hnext'⟩ := next?_relocate_some (ρ := ρ) hnext
  rw [hnext']
  simp only [Token.kind_relocate]
  rcases Link.above? power token.kind with _ | ⟨op⟩ | _ | _
  · exact .ok rfl rfl
  · refine (follows_expression op.power d).bind fun right f hf hf' => ?_
    -- The joined expression takes its span from both operands, so it has to be seen to move as a
    -- whole.
    have hnode : (Expr.binary ⟨left.span.start, right.span.stop⟩ op left right).relocate ρ
        = .binary ⟨(left.relocate ρ).span.start, (right.relocate ρ).span.stop⟩ op
          (left.relocate ρ) (right.relocate ρ) := by
      rw [Expr.span_relocate, Expr.span_relocate]
      rfl
    have hlinks := follows_links power
      (.binary ⟨left.span.start, right.span.stop⟩ op left right) f
    rw [hnode] at hlinks
    exact hlinks.bind fun e g hg hg' => .ok rfl rfl
  · -- Only a name can be called.
    rcases left with _ | _ | _ | ⟨span, name, _ | ⟨index, indices⟩⟩ | _ | _ | _
    case var.nil =>
      refine (follows_expressions .closeParen d).bind fun args f hf hf' => ?_
      exact (follows_links power (.call ⟨span.start, f.stop⟩ name args) f).bind
        fun e g hg hg' => .ok rfl rfl
    all_goals exact .error (unexpectedFor_relocate c _)
  · -- Only a variable can be indexed, and the index is put behind those that it already has.
    cases left with
    | var span name indices =>
      refine (follows_expression .lowest d).bind fun index f hf hf' => ?_
      refine (follows_expect f .closeBracket).bind fun _ g hg hg' => ?_
      have hnode : (Expr.var ⟨span.start, g.stop⟩ name (indices ++ [index])).relocate ρ
          = .var ⟨ρ.offset span.start, ρ.offset g.stop⟩ name
            (Expr.relocateAll ρ indices ++ [index.relocate ρ]) := by
        simp [Expr.relocate, Relocation.span, Expr.relocateAll_eq_map]
      have hlinks := follows_links power
        (.var ⟨span.start, g.stop⟩ name (indices ++ [index])) g
      rw [hnode] at hlinks
      exact hlinks.bind fun e k hk hk' => .ok rfl rfl
    | _ => exact .error (unexpectedFor_relocate c _)
termination_by 4 * c.size

/-- Lists of expressions are read like moved ones, up to the mark that closes them. -/
theorem follows_expressions (close : Kind) (c : Cursor) :
    Follows ρ (Expr.relocateAll ρ) (c.expressions close) ((c.relocate ρ).expressions close) := by
  rw [expressions, expressions]
  rcases hskip : c.skip? close with _ | d
  · rw [skip?_relocate_none hskip]
    exact follows_expressionsOne close c
  · obtain ⟨d', hd', hskip'⟩ := skip?_relocate_some (ρ := ρ) hskip
    rw [hskip']
    exact .ok rfl hd'
termination_by 4 * c.size + 3

/-- Lists of one expression or more are read like moved ones, round by round. -/
theorem follows_expressionsOne (close : Kind) (c : Cursor) :
    Follows ρ (Expr.relocateAll ρ) (c.expressionsOne close)
      ((c.relocate ρ).expressionsOne close) := by
  rw [expressionsOne, expressionsOne]
  refine (follows_expression .lowest c).bind fun e d hd hd' => ?_
  dsimp only
  rcases hskip : d.skip? .comma with _ | ⟨f, hf⟩
  · rw [skip?_relocate_none hskip]
    exact (follows_expect d close).bind fun _ f hf hf' => .ok rfl rfl
  · obtain ⟨⟨_, hf'⟩, rfl, hskip'⟩ := skip?_relocate_some (ρ := ρ) hskip
    rw [hskip']
    exact (follows_expressionsOne close f).bind fun es g hg hg' => .ok rfl rfl
termination_by 4 * c.size + 2

/-- Rows of bracketed expressions are read like moved ones. -/
theorem follows_bracketed (c : Cursor) :
    Follows ρ (Expr.relocateAll ρ) c.bracketed (c.relocate ρ).bracketed := by
  rw [bracketed, bracketed]
  rcases hskip : c.skip? .openBracket with _ | ⟨d, hd⟩
  · rw [skip?_relocate_none hskip]
    exact .ok rfl rfl
  · obtain ⟨⟨_, hd'⟩, rfl, hskip'⟩ := skip?_relocate_some (ρ := ρ) hskip
    rw [hskip']
    refine (follows_expression .lowest d).bind fun e f hf hf' => ?_
    refine (follows_expect f .closeBracket).bind fun _ g hg hg' => ?_
    exact (follows_bracketed g).bind fun es k hk hk' => .ok rfl rfl
termination_by 4 * c.size

end

/-! ### Statements -/

/-- Assignments are read like moved ones. The name has been read before, so it is moved too. -/
theorem follows_assignment (name : Token) (c : Cursor) :
    Follows ρ (Stmt.relocate ρ) (c.assignment name)
      ((c.relocate ρ).assignment (name.relocate ρ)) := by
  unfold assignment
  refine (follows_bracketed c).bind fun indices d hd hd' => ?_
  dsimp only
  rcases hnext : d.next? with _ | ⟨token, f, hf⟩
  · rw [next?_relocate_none hnext]
    exact .error (unexpectedFor_relocate d _)
  obtain ⟨⟨_, hf'⟩, rfl, hnext'⟩ := next?_relocate_some (ρ := ρ) hnext
  rw [hnext']
  dsimp only
  by_cases hassign : token.kind = .assignment
  · rw [if_pos hassign, if_pos ((Token.kind_relocate ρ token).trans hassign)]
    refine (follows_expression .lowest f).bind fun value g hg hg' => ?_
    exact (follows_expect g .semicolon).bind fun _ k hk hk' => .ok rfl rfl
  · rw [if_neg hassign, if_neg (fun h => hassign ((Token.kind_relocate ρ token).symm.trans h)),
      Token.kind_relocate]
    cases CompoundOp.ofKind? token.kind with
    | none => exact .error (unexpectedFor_relocate d _)
    | some op =>
      refine (follows_expression .lowest f).bind fun value g hg hg' => ?_
      exact (follows_expect g .semicolon).bind fun _ k hk hk' => .ok rfl rfl

mutual

/-- Statements are read like moved ones. An `else` is found or missed at both places alike. -/
theorem follows_statement (c : Cursor) :
    Follows ρ (Stmt.relocate ρ) c.statement (c.relocate ρ).statement := by
  rw [statement, statement]
  rcases hnext : c.next? with _ | ⟨token, d, hd⟩
  · rw [next?_relocate_none hnext]
    exact .error (unexpectedFor_relocate c _)
  obtain ⟨⟨_, hd'⟩, rfl, hnext'⟩ := next?_relocate_some (ρ := ρ) hnext
  rw [hnext']
  simp only [Token.kind_relocate]
  cases hkind : token.kind with
  | ifWord =>
    refine (follows_expect d .openParen).bind fun _ f hf hf' => ?_
    refine (follows_expression .lowest f).bind fun condition g hg hg' => ?_
    refine (follows_expect g .closeParen).bind fun _ k hk hk' => ?_
    refine (follows_arm k).bind fun pass m hm hm' => ?_
    dsimp only
    rcases hskip : m.skip? .elseWord with _ | ⟨n, hn⟩
    · rw [skip?_relocate_none hskip]
      exact .ok rfl rfl
    · obtain ⟨⟨_, hn'⟩, rfl, hskip'⟩ := skip?_relocate_some (ρ := ρ) hskip
      rw [hskip']
      exact (follows_arm n).bind fun fail q hq hq' => .ok rfl rfl
  | returnWord =>
    refine (follows_expression .lowest d).bind fun value f hf hf' => ?_
    exact (follows_expect f .semicolon).bind fun _ g hg hg' => .ok rfl rfl
  | identifier => exact (follows_assignment token d).bind fun s f hf hf' => .ok rfl rfl
  | _ => exact .error (unexpectedFor_relocate c _)
termination_by 3 * c.size

/-- Arms of a branch are read like moved ones, be they a block or a single statement. -/
theorem follows_arm (c : Cursor) :
    Follows ρ (Stmt.relocateAll ρ) c.arm (c.relocate ρ).arm := by
  rw [arm, arm]
  rcases hskip : c.skip? .openCurly with _ | ⟨d, hd⟩
  · rw [skip?_relocate_none hskip]
    exact (follows_statement c).bind fun s d hd hd' => .ok rfl rfl
  · obtain ⟨⟨_, hd'⟩, rfl, hskip'⟩ := skip?_relocate_some (ρ := ρ) hskip
    rw [hskip']
    exact (follows_statements d).bind fun body f hf hf' => .ok rfl rfl
termination_by 3 * c.size + 1

/-- The statements of a block are read like moved ones. Whether the block goes on is seen from kinds
alone. -/
theorem follows_statements (c : Cursor) :
    Follows ρ (Stmt.relocateAll ρ) c.statements (c.relocate ρ).statements := by
  rw [statements, statements]
  rcases hskip : c.skip? .closeCurly with _ | d
  · rw [skip?_relocate_none hskip]
    simp only [kind_current_relocate]
    by_cases heof : c.current.kind = .eof
    · rw [if_pos heof, if_pos heof]
      exact .error (unexpected_relocate c)
    · rw [if_neg heof, if_neg heof]
      refine (follows_statement c).bind fun s d hd hd' => ?_
      exact (follows_statements d).bind fun rest f hf hf' => .ok rfl rfl
  · obtain ⟨d', hd', hskip'⟩ := skip?_relocate_some (ρ := ρ) hskip
    rw [hskip']
    exact .ok rfl hd'
termination_by 3 * c.size + 1

end

/-- Blocks are read like moved ones. -/
theorem follows_block (c : Cursor) :
    Follows ρ (Stmt.relocateAll ρ) c.block (c.relocate ρ).block := by
  unfold block
  refine (follows_expect c .openCurly).bind fun _ d hd hd' => ?_
  exact (follows_statements d).bind fun body f hf hf' => .ok rfl rfl

/-! ### Declarations -/

/-- The dimensions of a parameter are read like moved ones, those without an expression too. -/
theorem follows_dimensions (c : Cursor) :
    Follows ρ (List.map (Option.map (Expr.relocate ρ))) c.dimensions
      (c.relocate ρ).dimensions := by
  rw [dimensions, dimensions]
  rcases hskip : c.skip? .openBracket with _ | ⟨d, hd⟩
  · rw [skip?_relocate_none hskip]
    exact .ok rfl rfl
  obtain ⟨⟨_, hd'⟩, rfl, hskip'⟩ := skip?_relocate_some (ρ := ρ) hskip
  rw [hskip']
  dsimp only
  rcases hclose : d.skip? .closeBracket with _ | ⟨f, hf⟩
  · rw [skip?_relocate_none hclose]
    refine (follows_expression .lowest d).bind fun e f hf hf' => ?_
    refine (follows_expect f .closeBracket).bind fun _ g hg hg' => ?_
    exact (follows_dimensions g).bind fun dims k hk hk' => .ok rfl rfl
  · obtain ⟨⟨_, hf'⟩, rfl, hclose'⟩ := skip?_relocate_some (ρ := ρ) hclose
    rw [hclose']
    exact (follows_dimensions f).bind fun dims g hg hg' => .ok rfl rfl
termination_by c.size

/-- Parameters are read like moved ones. -/
theorem follows_parameter (c : Cursor) :
    Follows ρ (Param.relocate ρ) c.parameter (c.relocate ρ).parameter := by
  unfold parameter
  refine (follows_expectOr c .identifier (unexpectedFor_relocate c _)).bind
    fun name d hd hd' => ?_
  refine (follows_expect d .colon).bind fun _ f hf hf' => ?_
  refine (follows_expectOr f .numberWord (unexpectedFor_relocate f _)).bind fun _ g hg hg' => ?_
  exact (follows_dimensions g).bind fun dims k hk hk' => .ok rfl rfl

/-- Lists of one parameter or more are read like moved ones. -/
theorem follows_parametersOne (c : Cursor) :
    Follows ρ (List.map (Param.relocate ρ)) c.parametersOne (c.relocate ρ).parametersOne := by
  rw [parametersOne, parametersOne]
  refine (follows_parameter c).bind fun p d hd hd' => ?_
  dsimp only
  rcases hskip : d.skip? .comma with _ | ⟨f, hf⟩
  · rw [skip?_relocate_none hskip]
    exact (follows_expect d .closeParen).bind fun _ f hf hf' => .ok rfl rfl
  · obtain ⟨⟨_, hf'⟩, rfl, hskip'⟩ := skip?_relocate_some (ρ := ρ) hskip
    rw [hskip']
    exact (follows_parametersOne f).bind fun ps g hg hg' => .ok rfl rfl
termination_by c.size

/-- Lists of parameters are read like moved ones, up to the closing parenthesis. -/
theorem follows_parameters (c : Cursor) :
    Follows ρ (List.map (Param.relocate ρ)) c.parameters (c.relocate ρ).parameters := by
  unfold parameters
  rcases hskip : c.skip? .closeParen with _ | d
  · rw [skip?_relocate_none hskip]
    exact follows_parametersOne c
  · obtain ⟨d', hd', hskip'⟩ := skip?_relocate_some (ρ := ρ) hskip
    rw [hskip']
    exact .ok rfl hd'

/-- Declarations are read like moved ones from their name on. Where they start is handed over and
moved with the rest. -/
theorem follows_declarationFrom (start : Nat) (c : Cursor) :
    Follows ρ (Decl.relocate ρ) (c.declarationFrom start)
      ((c.relocate ρ).declarationFrom (ρ.offset start)) := by
  unfold declarationFrom
  refine (follows_expectOr c .identifier (unexpectedFor_relocate c _)).bind
    fun name d hd hd' => ?_
  refine (follows_expect d .openParen).bind fun _ f hf hf' => ?_
  refine (follows_parameters f).bind fun params g hg hg' => ?_
  exact (follows_block g).bind fun body k hk hk' => .ok rfl rfl

/-- Declarations are read like moved ones, with or without the word that introduces them. -/
theorem follows_declaration (c : Cursor) :
    Follows ρ (Decl.relocate ρ) c.declaration (c.relocate ρ).declaration := by
  unfold declaration
  rw [current_relocate]
  rcases hskip : c.skip? .fnWord with _ | ⟨d, hd⟩
  · rw [skip?_relocate_none hskip]
    exact follows_declarationFrom _ c
  · obtain ⟨⟨_, hd'⟩, rfl, hskip'⟩ := skip?_relocate_some (ρ := ρ) hskip
    rw [hskip']
    exact (follows_declarationFrom _ d).bind fun decl f hf hf' => .ok rfl rfl

/-- The declarations of moved tokens are the moved declarations. -/
theorem declarations_relocate (c : Cursor) :
    (c.relocate ρ).declarations
      = (c.declarations.mapError ρ.fault).map (List.map (Decl.relocate ρ)) := by
  induction c using declarations.induct with
  | case1 c heof =>
    rw [declarations, declarations, if_pos heof, if_pos (by simpa using heof)]
    rfl
  | case2 c heof ih =>
    rw [declarations, declarations, if_neg heof, if_neg (by simpa using heof)]
    have hfirst := follows_declaration (ρ := ρ) c
    generalize hread : c.declaration = r, (c.relocate ρ).declaration = r' at hfirst
    cases hfirst with
    | error hfault =>
      subst hfault
      rfl
    | @ok decl _ d d' hmove hcursor =>
      subst hmove
      have hrest := ih d.1 d.2
      simp only [bind, Except.bind]
      rw [hcursor, hrest]
      cases d.1.declarations <;> rfl

end Token.Cursor

/-- Parsing moved tokens. -/
theorem Decl.parse_relocate {ρ : Relocation} (hzero : ρ.offset 0 = 0) (tokens : List Token) :
    Decl.parse (tokens.map (Token.relocate ρ))
      = ((Decl.parse tokens).mapError ρ.fault).map (List.map (Decl.relocate ρ)) := by
  unfold Decl.parse
  rw [Token.Cursor.start_relocate hzero, Token.Cursor.declarations_relocate]

/-! ### Programs -/

/-- A program with every function moved. -/
def Program.relocate (ρ : Relocation) (p : Program) : Program :=
  ⟨⟨p.functions.map (Function.relocate ρ), p.places⟩, by
    intro name place hentry
    obtain ⟨f, hf, hname⟩ := p.sound name place hentry
    refine ⟨f.relocate ρ, ?_, hname⟩
    rw [List.getElem?_map, hf]
    rfl⟩

namespace Program

variable {ρ : Relocation}

/-- A relocation that keeps places moves a program function by function. -/
theorem relocates_relocate (hplace : ∀ place, ρ.place place = place) (p : Program) :
    p.Relocates ρ (p.relocate ρ) := by
  intro place
  rw [hplace]
  exact List.getElem?_map

/-- Names lead to the moved functions. -/
theorem entry?_relocate (hplace : ∀ place, ρ.place place = place) (p : Program) (name : String) :
    Program.entry? (p.relocate ρ) name = (p.entry? name).map (Entry.relocate ρ) := by
  have hfind : Program.find? (p.relocate ρ) name
      = (p.find? name).map fun found => (ρ.place found.1, found.2.relocate ρ) := by
    have hplaces : (p.relocate ρ).places = p.places := rfl
    unfold find?
    rw [hplaces]
    cases p.places.lookup name with
    | none => rfl
    | some place =>
      have hat := relocates_relocate hplace p place
      rw [hplace] at hat
      simp only [Option.bind_eq_bind, Option.bind_some, hat]
      cases p.functions[place]? with
      | none => rfl
      | some f => simp [hplace]
  unfold entry?
  cases Builtin.find? name with
  | some b => rfl
  | none =>
    simp only [hfind, Option.map_map]
    rfl

/-- A program with one more function moves together with the function. -/
theorem relocate_append (p : Program) (f : Function) :
    (p.append f).relocate ρ = (p.relocate ρ).append (f.relocate ρ) := by
  apply Program.ext
  · exact List.map_append
  · show (f.name, p.functions.length) :: p.places
      = (f.name, (p.functions.map (Function.relocate ρ)).length) :: p.places
    rw [List.length_map]

/-- A moved program grows by the moved function, or has the moved error. -/
theorem extend_relocate (hplace : ∀ place, ρ.place place = place) (p : Program) (file : String)
    (decl : Decl) :
    (p.relocate ρ).extend (ρ.file file) (decl.relocate ρ)
      = ((p.extend file decl).mapError ρ.error).map (Program.relocate ρ) := by
  have hcontains : (p.relocate ρ).contains decl.name = p.contains decl.name := rfl
  have hanalyse := analyse_relocate file (fun name _ => entry?_relocate hplace p name) hcontains
  cases hf : p.analyse file decl with
  | error e =>
    rw [hf] at hanalyse
    rw [extend_error.mpr hf, extend_error.mpr hanalyse]
    rfl
  | ok f =>
    rw [hf] at hanalyse
    rw [extend_ok.mpr ⟨f, hf, rfl⟩, extend_ok.mpr ⟨_, hanalyse, rfl⟩]
    simp [Except.mapError, Except.map, relocate_append]

/-- Moved declarations make the moved program, or have the moved error. -/
theorem ofDecls_relocate (hplace : ∀ place, ρ.place place = place) (file : String)
    (decls : List Decl) :
    ofDecls (ρ.file file) (decls.map (Decl.relocate ρ))
      = ((ofDecls file decls).mapError ρ.error).map (Program.relocate ρ) := by
  induction decls using List.reverseRecOn with
  | nil => rfl
  | append_singleton decls decl ih =>
    rw [List.map_append, List.map_singleton, ofDecls_concat, ofDecls_concat, ih]
    cases hp : ofDecls file decls with
    | error e => rfl
    | ok p => exact extend_relocate hplace p file decl

end Program

/-! ### Forgetting where things are -/

/-- The relocation that forgets files and offsets. It sends everything to where the errors of a host
are. -/
def Relocation.forget : Relocation where
  file _ := Position.host.file
  offset _ := Position.host.offset
  place := id

/-- Whether two errors are the same but for their positions. -/
def Error.SameCause (e e' : Error) : Prop :=
  e'.cause = e.cause ∧ e'.function = e.function

/-- Errors that cannot be told apart without positions are the same but for these. -/
theorem Error.sameCause_of_forget {e e' : Error}
    (h : Relocation.forget.error e' = Relocation.forget.error e) : e.SameCause e' := by
  obtain ⟨hcause, -, hfunction⟩ := Error.mk.inj h
  exact ⟨hcause, hfunction⟩

/-- Outcomes that cannot be told apart without positions are the same but for those of errors. -/
theorem Relocation.same_of_forget {α : Type} {r r' : EStateM.Result Error Heap α}
    (h : Relocation.forget.result r' = Relocation.forget.result r) :
    (∀ a heap, r = .ok a heap → r' = .ok a heap) ∧
      ∀ e heap, r = .error e heap → ∃ e', r' = .error e' heap ∧ e.SameCause e' := by
  constructor
  · rintro a heap rfl
    cases r' with
    | ok b s => exact h
    | error e s => cases h
  · rintro e heap rfl
    cases r' with
    | ok b s => cases h
    | error e' s =>
      obtain ⟨herror, rfl⟩ := EStateM.Result.error.inj h
      exact ⟨e', rfl, Error.sameCause_of_forget herror⟩

namespace Source

/-- The kinds and texts of tokens, without their places. -/
def lexemes (tokens : List Token) : List (Kind × String) :=
  tokens.map fun token => (token.kind, token.text)

/-- Tokens with the same kinds and texts are the same once places are forgotten. -/
theorem map_forget_eq_of_lexemes {tokens tokens' : List Token}
    (h : lexemes tokens' = lexemes tokens) :
    tokens'.map (Token.relocate .forget) = tokens.map (Token.relocate .forget) := by
  have hforget : ∀ tokens : List Token, tokens.map (Token.relocate .forget)
      = (lexemes tokens).map fun lexeme => ⟨lexeme.1, lexeme.2, ⟨0, 0⟩⟩ := by
    intro tokens
    rw [lexemes, List.map_map]
    rfl
  rw [hforget, hforget, h]

/-- A text that can be taken apart means what its tokens mean. -/
theorem compile_of_scan {source : Source} {tokens : List Token}
    (h : Token.scan source.text = .ok tokens) :
    source.compile = source.orError (Decl.parse tokens) >>= Program.ofDecls source.file := by
  rw [compile, decls, Source.tokens, h]
  rfl

/-- What a text means once places are forgotten. -/
def forget (source : Source) : Except Error Program :=
  (source.compile.mapError Relocation.forget.error).map (Program.relocate .forget)

/-- Without places, a text means what its tokens mean without places. -/
theorem forget_eq {source : Source} {tokens : List Token}
    (h : Token.scan source.text = .ok tokens) :
    source.forget = Source.orError ⟨Position.host.file, ""⟩
      (Decl.parse (tokens.map (Token.relocate .forget))) >>=
        Program.ofDecls Position.host.file := by
  rw [forget, compile_of_scan h, Decl.parse_relocate rfl]
  cases Decl.parse tokens with
  | error fault => rfl
  | ok decls => exact (Program.ofDecls_relocate (fun _ => rfl) source.file decls).symm

end Source

namespace Program

/-- Programs that are the same without places answer a host alike, without places. -/
theorem forget_invoke {p p' : Program} (h : p'.relocate .forget = p.relocate .forget)
    (name : String) (args : List Value) (heap : Heap) :
    Relocation.forget.result (p'.invoke name args heap)
      = Relocation.forget.result (p.invoke name args heap) := by
  have hinvoke : ∀ q : Program, (q.relocate .forget).invoke name args heap
      = Relocation.forget.result (q.invoke name args heap) := fun q =>
    (relocates_relocate (fun _ => rfl) q).invoke (entry?_relocate (fun _ => rfl) q name)
      (fun _ => rfl) args heap
  rw [← hinvoke p, ← hinvoke p', h]

/-- Declarations that are the same without places make programs that are. -/
theorem exists_of_forget {file : String} {decls decls' : List Decl} {p : Program}
    (hp : ofDecls file decls = .ok p)
    (h : decls'.map (Decl.relocate .forget) = decls.map (Decl.relocate .forget)) :
    ∃ p', ofDecls file decls' = .ok p' ∧ p'.relocate .forget = p.relocate .forget := by
  have hforget : ∀ ds : List Decl, ofDecls Position.host.file (ds.map (Decl.relocate .forget))
      = ((ofDecls file ds).mapError Relocation.forget.error).map (relocate .forget) :=
    @ofDecls_relocate .forget (fun _ => rfl) file
  have heq := hforget decls'
  rw [h, hforget decls, hp] at heq
  cases hp' : ofDecls file decls' with
  | error e =>
    rw [hp'] at heq
    cases heq
  | ok p' =>
    rw [hp'] at heq
    exact ⟨p', rfl, (Except.ok.inj heq).symm⟩

/-- Functions that are the same without places look the same to their callers. -/
theorem interface_eq_of_forget {p p' : Program} (h : p'.relocate .forget = p.relocate .forget) :
    p'.functions.map (fun f => (f.name, f.signature, f.complexity))
      = p.functions.map fun f => (f.name, f.signature, f.complexity) := by
  have hforget : ∀ q : Program, q.functions.map (fun f => (f.name, f.signature, f.complexity))
      = (q.relocate .forget).functions.map fun f => (f.name, f.signature, f.complexity) := by
    intro q
    rw [relocate, List.map_map]
    rfl
  rw [hforget p, hforget p', h]

end Program

/-- Layout never changes meaning. Two texts whose tokens have the same kinds and the same texts are
accepted both or refused both, for the same cause and in the same function. The functions of their
programs have the same names, signatures and complexities, in the same order, and every invocation
has the same value, or an error of the same cause in the same function, and leaves the same heap. -/
theorem Source.layout_compile {source source' : Source} {tokens tokens' : List Token}
    (h : Token.scan source.text = .ok tokens) (h' : Token.scan source'.text = .ok tokens')
    (hlexemes : lexemes tokens' = lexemes tokens) :
    (∀ p, source.compile = .ok p → ∃ p', source'.compile = .ok p' ∧
      p'.functions.map (fun f => (f.name, f.signature, f.complexity))
        = p.functions.map (fun f => (f.name, f.signature, f.complexity)) ∧
      ∀ name args heap,
        (∀ v heap', p.invoke name args heap = .ok v heap' →
          p'.invoke name args heap = .ok v heap') ∧
        ∀ e heap', p.invoke name args heap = .error e heap' →
          ∃ e', p'.invoke name args heap = .error e' heap' ∧ e.SameCause e') ∧
    ∀ e, source.compile = .error e → ∃ e', source'.compile = .error e' ∧ e.SameCause e' := by
  -- Without offsets the two texts have the same tokens, hence the same outcome. What is left is to
  -- see how much of an outcome survives when offsets are forgotten.
  have hforget : source'.forget = source.forget := by
    rw [forget_eq h, forget_eq h', map_forget_eq_of_lexemes hlexemes]
  unfold forget at hforget
  refine ⟨fun p hp => ?_, fun e he => ?_⟩
  · rw [hp] at hforget
    cases hp' : source'.compile with
    | error e =>
      rw [hp'] at hforget
      cases hforget
    | ok p' =>
      rw [hp'] at hforget
      have hsame : p'.relocate .forget = p.relocate .forget := Except.ok.inj hforget
      refine ⟨p', rfl, Program.interface_eq_of_forget hsame, fun name args heap => ?_⟩
      exact Relocation.same_of_forget (Program.forget_invoke hsame name args heap)
  · rw [he] at hforget
    cases hp' : source'.compile with
    | ok p' =>
      rw [hp'] at hforget
      cases hforget
    | error e' =>
      rw [hp'] at hforget
      exact ⟨e', rfl, Error.sameCause_of_forget (Except.error.inj hforget)⟩

/-- A program that reads an element, on one line. -/
def Source.dense : Source :=
  ⟨"dense", "f(a:number[]){return a[1];}"⟩

/-- The same program with room and a comment in it, in another file. -/
def Source.airy : Source :=
  ⟨"airy", "f (a: number[]) {
    // The second element.
    return a[ 1 ];
  }"⟩

/-- Where the error of an outcome is. -/
def Run.offset? : EStateM.Result Error Heap Value → Option Nat
  | .error e _ => some e.position.offset
  | .ok _ _ => none

/-- A run with an offset has failed there. It turns the comparison of two offsets in the example
back into a statement about errors. -/
theorem Run.offset?_eq_some {r : EStateM.Result Error Heap Value} {offset : Nat}
    (h : Run.offset? r = some offset) :
    ∃ e heap, r = .error e heap ∧ e.position.offset = offset := by
  cases r with
  | ok v heap => cases h
  | error e heap => exact ⟨e, heap, rfl, Option.some.inj h⟩

/-- Both texts are accepted. For an array without a second element both programs have the same
error, at offsets of their own. -/
theorem Source.layout_compile_dense :
    ∃ tokens tokens' p p', Token.scan dense.text = .ok tokens ∧
      Token.scan airy.text = .ok tokens' ∧ lexemes tokens' = lexemes tokens ∧
      dense.compile = .ok p ∧ airy.compile = .ok p' ∧
      ∃ e e' heap, p.invoke "f" [.array 0] ⟨#[#[]]⟩ = .error e heap ∧
        p'.invoke "f" [.array 0] ⟨#[#[]]⟩ = .error e' heap ∧ e.SameCause e' ∧
        e.position.offset = 21 ∧ e'.position.offset = 56 := by
  have hdense : (dense.compile.toOption.map fun p =>
      Run.offset? (p.invoke "f" [.array 0] ⟨#[#[]]⟩)) = some (some 21) := by
    decide +kernel
  have hairy : (airy.compile.toOption.map fun p =>
      Run.offset? (p.invoke "f" [.array 0] ⟨#[#[]]⟩)) = some (some 56) := by
    decide +kernel
  have hscan : ((Token.scan dense.text).toOption.bind fun tokens =>
      (Token.scan airy.text).toOption.map fun tokens' =>
        decide (lexemes tokens' = lexemes tokens)) = some true := by
    decide +kernel
  obtain ⟨tokens, htokens, hscan⟩ := Option.bind_eq_some_iff.mp hscan
  obtain ⟨tokens', htokens', hlexemes⟩ := Option.map_eq_some_iff.mp hscan
  have htokens := eq_ok_of_toOption htokens
  have htokens' := eq_ok_of_toOption htokens'
  have hlexemes := of_decide_eq_true hlexemes
  obtain ⟨p, hp, hoffset⟩ := Option.map_eq_some_iff.mp hdense
  obtain ⟨p', hp', hoffset'⟩ := Option.map_eq_some_iff.mp hairy
  have hp := eq_ok_of_toOption hp
  have hp' := eq_ok_of_toOption hp'
  obtain ⟨e, heap, herror, hoffset⟩ := Run.offset?_eq_some hoffset
  obtain ⟨q, hq, -, hinvoke⟩ := (layout_compile htokens htokens' hlexemes).1 p hp
  obtain rfl : p' = q := Except.ok.inj (hp'.symm.trans hq)
  obtain ⟨e', herror', hsame⟩ := (hinvoke _ _ _).2 e heap herror
  rw [herror'] at hoffset'
  exact ⟨tokens, tokens', p, p', htokens, htokens', hlexemes, hp, hp', e, e', heap, herror, herror',
    hsame, hoffset, Option.some.inj hoffset'⟩

end ArrayScript
