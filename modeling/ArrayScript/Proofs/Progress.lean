import ArrayScript.Proofs.Walk

/-!
# `ArrayScript.Proofs.Progress`: parsing ends and moves forward

Whatever tokens a list holds, parsing it ends, never looks for a token that is not there, and each
expression, statement or declaration that it reads takes a token at least (`Walk.parse_forward`).

The statement is about the parser with a position (`ArrayScript.Proofs.Walk`), for which all of this
could fail. A cursor stands at a position if it has the tokens from there on to read
(`Token.Cursor.Stands`), and a walk tracks a reader if it does the same and ends where the cursor
behind what was read stands (`Token.Cursor.Tracks`). Function by function, the walk tracks the
reader, given more calls than four for each token that is left; what the types of the readers say
of sizes then holds of positions.
-/

set_option autoImplicit false

namespace ArrayScript

open Token (Kind Cursor)

/-- A walk whose result is changed at its end. The list of declarations is built in this way, each
one put in front of those that follow it. -/
theorem Walk.run_bind_pure {α β : Type} {walk : Walk α} {tokens : List Token} {pos : Nat}
    {outcome : Except Fault α} (h : run walk tokens pos = some outcome) (f : α → β) :
    run (do return f (← walk)) tokens pos = some (do return f (← outcome)) := by
  unfold run at h ⊢
  simp only [bind, Except.bind]
  cases hwalk : walk tokens pos with
  | none =>
    rw [hwalk] at h
    cases h
  | some result =>
    rw [hwalk] at h
    cases h
    cases result <;> rfl

namespace Token.Cursor

variable {tokens : List Token} {pos : Nat} {c : Cursor} {kind : Kind}

/-! ### Positions -/

/-- Whether a cursor stands at a position of a list: what it has yet to read is what the list holds
from there on, up to the end token that closes it. -/
structure Stands (c : Cursor) (tokens : List Token) (pos : Nat) : Prop where
  drop : tokens.drop pos = c.rest ++ [c.close]
  close : c.close.kind = .eof
  stop : Walk.stop tokens pos = some (.ok (c.stop, pos))

namespace Stands

/-- The position and what is left to read make up the list, with the end token as the one more. It
translates between the sizes that readers are about and the positions that walks are about. -/
theorem length_eq (h : c.Stands tokens pos) : tokens.length = pos + c.size + 1 := by
  have hlength := congrArg List.length h.drop
  rw [List.length_drop, List.length_append, List.length_singleton] at hlength
  unfold size
  omega

/-- There is a token at the position, and it is the current one. A walk could look for a token that
is not there; one that stands somewhere does not. -/
theorem getElem?_eq (h : c.Stands tokens pos) : tokens[pos]? = some c.current := by
  rw [← List.head?_drop, h.drop]
  rcases c with ⟨_ | ⟨token, rest⟩, close, stop⟩ <;> rfl

/-- Either only the closing end token is left, or the current token can be taken and the cursor
behind it stands one further on. Every reader that takes a token starts with this distinction. -/
theorem next?_cases (h : c.Stands tokens pos) :
    (c.next? = none ∧ c.current.kind = .eof) ∨
      ∃ d hd, c.next? = some (c.current, ⟨d, hd⟩) ∧ d.Stands tokens (pos + 1) := by
  have htoken := h.getElem?_eq
  obtain ⟨hdrop, hclose, -⟩ := h
  rcases c with ⟨_ | ⟨token, rest⟩, close, stop⟩
  · exact .inl ⟨rfl, hclose⟩
  refine .inr ⟨_, _, rfl, ?_, hclose, ?_⟩
  · rw [← List.tail_drop, hdrop]
    rfl
  · -- The token in front of the new position is the one that was taken.
    rw [Walk.stop, if_neg (Nat.succ_ne_zero pos), Nat.add_sub_cancel, htoken]
    rfl

/-- Either the current token is of another kind and stays, or it is of this kind and taken. It
serves the readers that ask for one kind only, such as a comma or a closing bracket. -/
theorem skip?_cases (h : c.Stands tokens pos) (kind : Kind) (hkind : kind ≠ .eof) :
    (c.skip? kind = none ∧ c.current.kind ≠ kind) ∨
      ∃ d hd, c.skip? kind = some ⟨d, hd⟩ ∧ c.current.kind = kind ∧ d.Stands tokens (pos + 1) := by
  unfold skip?
  rcases h.next?_cases with ⟨hnext, heof⟩ | ⟨d, hd, hnext, hd'⟩
  · -- An end token is skipped by nobody, also where it stands in the middle.
    rw [hnext, heof]
    exact .inl ⟨rfl, hkind.symm⟩
  · rw [hnext]
    by_cases heq : c.current.kind = kind
    · exact .inr ⟨d, hd, if_pos heq, heq, hd'⟩
    · exact .inl ⟨if_neg heq, heq⟩

/-! ### Single steps -/

section

variable {α : Type}

/-- A walk that looks at its current token sees the one that the cursor has. Most walks begin like
this, and afterwards walk and reader branch on the same kind. -/
theorem bind_current (h : c.Stands tokens pos) (k : Token → Walk α) :
    (Walk.current >>= k) tokens pos = k c.current tokens pos := by
  simp only [bind, Walk.current, h.getElem?_eq, Option.map_some]

/-- The current token can always be taken, be it the last one, and the position stays in the list.
At the last token the position does not move, which is why it is not given. -/
theorem exists_advance_eq (h : c.Stands tokens pos) :
    ∃ next, Walk.advance tokens pos = some (.ok (c.current, next)) ∧ next < tokens.length := by
  have hlength := h.length_eq
  rw [Walk.advance, h.getElem?_eq]
  refine ⟨_, rfl, ?_⟩
  split <;> omega

/-- With a token left to read, the position moves. The readers take tokens in no other situation. -/
theorem advance_eq (h : c.Stands tokens pos) (d : c.After) :
    Walk.advance tokens pos = some (.ok (c.current, pos + 1)) := by
  have hlt : pos < tokens.length - 1 := by
    have hlength := h.length_eq
    have hsize := d.2
    omega
  rw [Walk.advance, h.getElem?_eq, Option.map_some, if_pos hlt]

/-- A walk that gives up does so with the fault that the reader has, as both blame the current
token. It settles every branch in which no rule applies. -/
theorem unexpected_eq (h : c.Stands tokens pos) :
    (Walk.unexpected : Walk α) tokens pos = some (.error c.unexpected) :=
  h.bind_current _

/-- The same for a fault that also says what was expected instead. The expectation is fixed by the
place in the parser, so both sides name the same one. -/
theorem unexpectedFor_eq (h : c.Stands tokens pos) (expectation : Expectation) :
    (Walk.unexpectedFor expectation : Walk α) tokens pos
      = some (.error (c.unexpectedFor expectation)) :=
  h.bind_current _

end

end Stands

/-! ### Readers -/

section Tracks

variable {α β : Type} {P Q : Cursor → Prop}

/-- Whether a walk does what a reader does: it gives the same result, at the position where the
cursor behind it stands, or the same fault. In particular it does give something: it neither runs
out of calls nor looks outside of the list. -/
inductive Tracks (tokens : List Token) :
    Option (Except Fault (α × Nat)) → Except Fault (α × { d : Cursor // P d }) → Prop
  | ok {a : α} {next : Nat} {d : { d : Cursor // P d }} :
      d.1.Stands tokens next → Tracks tokens (some (.ok (a, next))) (.ok (a, d))
  | error {fault : Fault} : Tracks tokens (some (.error fault)) (.error fault)

/-- A walk that gives the reader's fault tracks it. It is for faults that are known by an equation,
such as those of an unexpected token. -/
theorem Tracks.of_eq_error {walked : Option (Except Fault (α × Nat))} {fault : Fault}
    (h : walked = some (.error fault)) :
    Tracks tokens walked (.error fault : Except Fault (α × { d : Cursor // P d })) := by
  rw [h]
  exact .error

/-- A reader in two parts is tracked if both parts are. The second one starts from any cursor that
the first may leave, as long as it stands where the walk has got to. -/
theorem Tracks.bind {m : Walk α} {k : α → Walk β} {r : Except Fault (α × { d : Cursor // P d })}
    {s : α × { d : Cursor // P d } → Except Fault (β × { d : Cursor // Q d })}
    (hm : Tracks tokens (m tokens pos) r)
    (hk : ∀ a c (hc : P c) next, c.Stands tokens next →
      Tracks tokens (k a tokens next) (s (a, ⟨c, hc⟩))) :
    Tracks tokens ((m >>= k) tokens pos) (r >>= s) := by
  simp only [Bind.bind]
  generalize m tokens pos = walked at hm
  cases hm with
  | error => exact .error
  | ok hd => exact hk _ _ _ _ hd

/-- A reader whose result is passed on, with a weaker promise about its cursor, is tracked by the
same walk. The readers spend such steps on their types; the walk has nothing in their place. -/
theorem Tracks.pass {walked : Option (Except Fault (α × Nat))}
    {r : Except Fault (α × { d : Cursor // P d })}
    {s : α × { d : Cursor // P d } → Except Fault (α × { d : Cursor // Q d })}
    (h : Tracks tokens walked r)
    (hs : ∀ a c (hc : P c), ∃ hc' : Q c, s (a, ⟨c, hc⟩) = .ok (a, ⟨c, hc'⟩)) :
    Tracks tokens walked (r >>= s) := by
  cases h with
  | error => exact .error
  | @ok a next d hd =>
    obtain ⟨d, hc⟩ := d
    obtain ⟨hc', hs⟩ := hs a d hc
    simp only [Bind.bind, Except.bind, hs]
    exact .ok hd

/-- A reader in two parts, when the place behind the second one is not asked for. This is so at the
outermost level, where the end token must follow or the list is used up. -/
theorem Tracks.run_bind {m : Walk α} {k : α → Walk β}
    {r : Except Fault (α × { d : Cursor // P d })}
    {s : α × { d : Cursor // P d } → Except Fault β} (hm : Tracks tokens (m tokens pos) r)
    (hk : ∀ a c (hc : P c) next, c.Stands tokens next →
      Walk.run (k a) tokens next = some (s (a, ⟨c, hc⟩))) :
    Walk.run (m >>= k) tokens pos = some (r >>= s) := by
  simp only [Walk.run, Bind.bind]
  generalize m tokens pos = walked at hm
  cases hm with
  | error => rfl
  | ok hd => exact hk _ _ _ _ hd

/-- A walk that takes the current token, of which there is one. What remains to be tracked starts
one further on. -/
theorem tracks_advance (h : c.Stands tokens pos) (d : c.After) {k : Token → Walk α}
    {r : Except Fault (α × { d : Cursor // P d })}
    (hk : Tracks tokens (k c.current tokens (pos + 1)) r) :
    Tracks tokens ((Walk.advance >>= k) tokens pos) r := by
  simp only [bind, h.advance_eq d]
  exact hk

/-- A walk that looks where the last token ends. The cursor carries that offset along, while the
walk looks at the token in front of its position; that the two agree is part of standing. -/
theorem tracks_stop (h : c.Stands tokens pos) {k : Nat → Walk α}
    {r : Except Fault (α × { d : Cursor // P d })} (hk : Tracks tokens (k c.stop tokens pos) r) :
    Tracks tokens ((Walk.stop >>= k) tokens pos) r := by
  simp only [bind, h.stop]
  exact hk

end Tracks

/-- Asking for a token of one kind is tracked, with whatever fault is to be given in its absence.
The end token is excluded, since it is never taken. -/
theorem tracks_expectOr (h : c.Stands tokens pos) (hkind : kind ≠ .eof) {otherwise : Walk Token}
    {fault : Fault} (hotherwise : otherwise tokens pos = some (.error fault)) :
    Tracks tokens (Walk.expectOr kind otherwise tokens pos) (c.expectOr kind fault) := by
  rw [Walk.expectOr, h.bind_current, expectOr]
  rcases h.next?_cases with ⟨hnext, heof⟩ | ⟨d, hd, hnext, hd'⟩
  · rw [hnext, heof, if_neg hkind.symm]
    exact .of_eq_error hotherwise
  · rw [hnext]
    dsimp only
    by_cases heq : c.current.kind = kind
    · rw [if_pos heq, if_pos heq, h.advance_eq ⟨d, hd⟩]
      exact .ok hd'
    · rw [if_neg heq, if_neg heq]
      exact .of_eq_error hotherwise

/-- Asking for a token of one kind is tracked, where the fault just names the token that was found.
Brackets, colons and semicolons are asked for in this way. -/
theorem tracks_expect (h : c.Stands tokens pos) (hkind : kind ≠ .eof) :
    Tracks tokens (Walk.expect kind tokens pos) (c.expect kind) :=
  tracks_expectOr h hkind h.unexpected_eq

/-! ### Expressions

The calls that must be left are four for each token, and some more. A reader that has taken a token
may call any other one; a reader that calls another one at the same place needs one call more than
that one, so the numbers that are added follow the order in which the readers call each other.
-/

mutual

/-- Expressions are tracked. An operand comes first and takes a token at least, so what was granted
for that token is left for the links behind it. -/
theorem tracks_expression (power : Power) {c : Cursor} {pos calls : Nat}
    (h : c.Stands tokens pos) (hcalls : 4 * c.size + 1 < calls) :
    Tracks tokens (Walk.expression calls power tokens pos) (c.expression power) := by
  obtain _ | calls := calls
  · omega
  rw [Walk.expression, expression]
  -- The operand has taken a token, so that four calls fewer are enough for the links.
  refine (tracks_operand h (by omega)).bind fun left d hd _ hleft => ?_
  exact (tracks_links power left hleft (by omega)).pass fun _ _ _ => ⟨_, rfl⟩
termination_by 4 * c.size + 1

/-- Operands are tracked, one case for each kind of token that can start one. All of them take that
token first, and then have calls to spare for what stands inside. -/
theorem tracks_operand {c : Cursor} {pos calls : Nat} (h : c.Stands tokens pos)
    (hcalls : 4 * c.size < calls) :
    Tracks tokens (Walk.operand calls tokens pos) c.operand := by
  obtain _ | calls := calls
  · omega
  rw [Walk.operand, h.bind_current, operand]
  rcases h.next?_cases with ⟨hnext, heof⟩ | ⟨d, hd, hnext, hd'⟩
  · rw [hnext, heof]
    exact .of_eq_error h.unexpected_eq
  rw [hnext]
  -- Both prefix operators are read alike.
  have hsigned (op : PrefixOp) : Tracks tokens
      ((do
        let _ ← Walk.advance
        let e ← Walk.expression calls .unary
        return Expr.unary ⟨c.current.span.start, e.span.stop⟩ op e) tokens pos)
      (do
        let (e, f) ← expression .unary d
        return (Expr.unary ⟨c.current.span.start, e.span.stop⟩ op e, f.within hd)) := by
    refine tracks_advance h ⟨d, hd⟩ ?_
    exact (tracks_expression .unary hd' (by omega)).bind fun e f hf _ he => .ok he
  dsimp only
  cases hkind : c.current.kind with
  | number =>
    refine tracks_advance h ⟨d, hd⟩ ?_
    cases Decimal.read? c.current.text with
    | some value => exact .ok hd'
    | none => exact .error
  | identifier => exact tracks_advance h ⟨d, hd⟩ (.ok hd')
  | openParen =>
    refine tracks_advance h ⟨d, hd⟩ ?_
    refine (tracks_expression .lowest hd' (by omega)).bind fun e f hf _ he => ?_
    exact (tracks_expect he (by decide)).bind fun _ g hg _ hclose => .ok hclose
  | openBracket =>
    refine tracks_advance h ⟨d, hd⟩ ?_
    refine (tracks_expressions hd' (by decide) (by omega)).bind fun items f hf _ hitems => ?_
    exact tracks_stop hitems (.ok hitems)
  | newWord =>
    refine tracks_advance h ⟨d, hd⟩ ?_
    refine (tracks_expect hd' (by decide)).bind fun _ f hf _ hword => ?_
    refine (tracks_bracketed hword (by omega)).bind fun sizes g hg _ hsizes => ?_
    cases sizes with
    | nil => exact .of_eq_error (hsizes.unexpectedFor_eq _)
    | cons size sizes => exact tracks_stop hsizes (.ok hsizes)
  | bang => exact hsigned .inversion
  | dash => exact hsigned .negation
  | _ => exact .of_eq_error h.unexpected_eq
termination_by 4 * c.size

/-- The links behind an operand are tracked: operators with their right sides, arguments and
indices. Each link takes a token, after which the remaining ones are tracked in turn. -/
theorem tracks_links (power : Power) (left : Expr) {c : Cursor} {pos calls : Nat}
    (h : c.Stands tokens pos) (hcalls : 4 * c.size < calls) :
    Tracks tokens (Walk.links calls power left tokens pos) (c.links power left) := by
  obtain _ | calls := calls
  · omega
  rw [Walk.links, h.bind_current, links]
  rcases h.next?_cases with ⟨hnext, heof⟩ | ⟨d, hd, hnext, hd'⟩
  · -- The end token is no link.
    rw [hnext, heof]
    exact .ok h
  rw [hnext]
  dsimp only
  rcases Link.above? power c.current.kind with _ | ⟨op⟩ | _ | _
  · exact .ok h
  · refine tracks_advance h ⟨d, hd⟩ ?_
    refine (tracks_expression op.power hd' (by omega)).bind fun right f hf _ hright => ?_
    exact (tracks_links power _ hright (by omega)).pass fun _ _ _ => ⟨_, rfl⟩
  · -- Only a name can be called.
    rcases left with _ | _ | _ | ⟨span, name, _ | ⟨index, indices⟩⟩ | _ | _ | _
    case var.nil =>
      refine tracks_advance h ⟨d, hd⟩ ?_
      refine (tracks_expressions hd' (by decide) (by omega)).bind fun args f hf _ hargs => ?_
      refine tracks_stop hargs ?_
      exact (tracks_links power _ hargs (by omega)).pass fun _ _ _ => ⟨_, rfl⟩
    all_goals exact .of_eq_error (h.unexpectedFor_eq _)
  · -- Only a variable can be indexed.
    cases left with
    | var span name indices =>
      refine tracks_advance h ⟨d, hd⟩ ?_
      refine (tracks_expression .lowest hd' (by omega)).bind fun index f hf _ hindex => ?_
      refine (tracks_expect hindex (by decide)).bind fun _ g hg _ hclose => ?_
      refine tracks_stop hclose ?_
      exact (tracks_links power _ hclose (by omega)).pass fun _ _ _ => ⟨_, rfl⟩
    | _ => exact .of_eq_error (h.unexpectedFor_eq _)
termination_by 4 * c.size

/-- Lists of expressions are tracked, which may be empty. Nothing is taken before the first
expression, and this is what makes up the extra calls here. -/
theorem tracks_expressions {kind : Kind} {c : Cursor} {pos calls : Nat} (h : c.Stands tokens pos)
    (hkind : kind ≠ .eof) (hcalls : 4 * c.size + 3 < calls) :
    Tracks tokens (Walk.expressions calls kind tokens pos) (c.expressions kind) := by
  obtain _ | calls := calls
  · omega
  rw [Walk.expressions, h.bind_current, expressions]
  rcases h.skip?_cases kind hkind with ⟨hskip, hne⟩ | ⟨d, hd, hskip, heq, hclose⟩
  · rw [hskip, if_neg hne]
    exact tracks_expressionsOne h hkind (by omega)
  · rw [hskip, if_pos heq]
    exact tracks_advance h ⟨d, hd⟩ (.ok hclose)
termination_by 4 * c.size + 3

/-- Lists of one expression or more are tracked, by a round for each expression and the comma behind
it. -/
theorem tracks_expressionsOne {kind : Kind} {c : Cursor} {pos calls : Nat}
    (h : c.Stands tokens pos) (hkind : kind ≠ .eof) (hcalls : 4 * c.size + 2 < calls) :
    Tracks tokens (Walk.expressionsOne calls kind tokens pos) (c.expressionsOne kind) := by
  obtain _ | calls := calls
  · omega
  rw [Walk.expressionsOne, expressionsOne]
  refine (tracks_expression .lowest h (by omega)).bind fun e d hd _ he => ?_
  rw [he.bind_current]
  dsimp only
  rcases he.skip?_cases .comma (by decide) with ⟨hskip, hne⟩ | ⟨f, hf, hskip, heq, hcomma⟩
  · rw [hskip, if_neg hne]
    exact (tracks_expect he hkind).bind fun _ f hf _ hclose => .ok hclose
  · rw [hskip, if_pos heq]
    refine tracks_advance he ⟨f, hf⟩ ?_
    exact (tracks_expressionsOne hcomma hkind (by omega)).bind fun es g hg _ hes => .ok hes
termination_by 4 * c.size + 2

/-- Rows of bracketed expressions are tracked, as they stand in array constructors and in
assignments. A row may have no bracket at all, and then takes nothing. -/
theorem tracks_bracketed {c : Cursor} {pos calls : Nat} (h : c.Stands tokens pos)
    (hcalls : 4 * c.size < calls) :
    Tracks tokens (Walk.bracketed calls tokens pos) c.bracketed := by
  obtain _ | calls := calls
  · omega
  rw [Walk.bracketed, h.bind_current, bracketed]
  rcases h.skip?_cases .openBracket (by decide) with ⟨hskip, hne⟩ | ⟨d, hd, hskip, heq, hopen⟩
  · rw [hskip, if_neg hne]
    exact .ok h
  · rw [hskip, if_pos heq]
    refine tracks_advance h ⟨d, hd⟩ ?_
    refine (tracks_expression .lowest hopen (by omega)).bind fun e f hf _ he => ?_
    refine (tracks_expect he (by decide)).bind fun _ g hg _ hclose => ?_
    exact (tracks_bracketed hclose (by omega)).bind fun es k hk _ hes => .ok hes
termination_by 4 * c.size

end

/-! ### Statements -/

/-- Assignments are tracked from behind the name, plain and compound ones. Indices, an operator and
a value are read in sequence, so no calls are needed beyond those for the parts. -/
theorem tracks_assignment (name : Token) {calls : Nat} (h : c.Stands tokens pos)
    (hcalls : 4 * c.size < calls) :
    Tracks tokens (Walk.assignment calls name tokens pos) (c.assignment name) := by
  unfold Walk.assignment assignment
  refine (tracks_bracketed h hcalls).bind fun indices d hd _ hindices => ?_
  refine tracks_stop hindices ?_
  rw [hindices.bind_current]
  dsimp only
  rcases hindices.next?_cases with ⟨hnext, heof⟩ | ⟨f, hf, hnext, hf'⟩
  · -- The end token is no operator.
    rw [hnext, heof]
    exact .of_eq_error (hindices.unexpectedFor_eq _)
  rw [hnext]
  dsimp only
  by_cases hassign : d.current.kind = .assignment
  · rw [if_pos hassign, if_pos hassign]
    refine tracks_advance hindices ⟨f, hf⟩ ?_
    refine (tracks_expression .lowest hf' (by omega)).bind fun value g hg _ hvalue => ?_
    refine (tracks_expect hvalue (by decide)).bind fun _ k hk _ hclose => ?_
    exact tracks_stop hclose (.ok hclose)
  · rw [if_neg hassign, if_neg hassign]
    cases CompoundOp.ofKind? d.current.kind with
    | none => exact .of_eq_error (hindices.unexpectedFor_eq _)
    | some op =>
      refine tracks_advance hindices ⟨f, hf⟩ ?_
      refine (tracks_expression .lowest hf' (by omega)).bind fun value g hg _ hvalue => ?_
      refine (tracks_expect hvalue (by decide)).bind fun _ k hk _ hclose => ?_
      exact tracks_stop hclose (.ok hclose)

mutual

/-- Statements are tracked. Each of the three forms begins with a token of its own, so a branch may
call for its arms with the calls that this token leaves. -/
theorem tracks_statement {c : Cursor} {pos calls : Nat} (h : c.Stands tokens pos)
    (hcalls : 4 * c.size < calls) :
    Tracks tokens (Walk.statement calls tokens pos) c.statement := by
  obtain _ | calls := calls
  · omega
  rw [Walk.statement, h.bind_current, statement]
  rcases h.next?_cases with ⟨hnext, heof⟩ | ⟨d, hd, hnext, hd'⟩
  · rw [hnext, heof]
    exact .of_eq_error (h.unexpectedFor_eq _)
  rw [hnext]
  dsimp only
  cases hkind : c.current.kind with
  | ifWord =>
    refine tracks_advance h ⟨d, hd⟩ ?_
    refine (tracks_expect hd' (by decide)).bind fun _ f hf _ hopen => ?_
    refine (tracks_expression .lowest hopen (by omega)).bind fun condition g hg _ hcondition => ?_
    refine (tracks_expect hcondition (by decide)).bind fun _ k hk _ hclose => ?_
    refine (tracks_arm hclose (by omega)).bind fun pass m hm _ hpass => ?_
    rw [hpass.bind_current]
    dsimp only
    rcases hpass.skip?_cases .elseWord (by decide) with ⟨hskip, hne⟩ | ⟨n, hn, hskip, heq, helse⟩
    · rw [hskip, if_neg hne]
      exact tracks_stop hpass (.ok hpass)
    · rw [hskip, if_pos heq]
      refine tracks_advance hpass ⟨n, hn⟩ ?_
      refine (tracks_arm helse (by omega)).bind fun fail q hq _ hfail => ?_
      exact tracks_stop hfail (.ok hfail)
  | returnWord =>
    refine tracks_advance h ⟨d, hd⟩ ?_
    refine (tracks_expression .lowest hd' (by omega)).bind fun value f hf _ hvalue => ?_
    refine (tracks_expect hvalue (by decide)).bind fun _ g hg _ hclose => ?_
    exact tracks_stop hclose (.ok hclose)
  | identifier =>
    refine tracks_advance h ⟨d, hd⟩ ?_
    exact (tracks_assignment _ hd' (by omega)).pass fun _ _ _ => ⟨_, rfl⟩
  | _ => exact .of_eq_error (h.unexpectedFor_eq _)
termination_by 3 * c.size

/-- Arms of a branch are tracked. Without a curly bracket an arm is a single statement at the same
place, which takes one call more than the statement itself. -/
theorem tracks_arm {c : Cursor} {pos calls : Nat} (h : c.Stands tokens pos)
    (hcalls : 4 * c.size + 1 < calls) :
    Tracks tokens (Walk.arm calls tokens pos) c.arm := by
  obtain _ | calls := calls
  · omega
  rw [Walk.arm, h.bind_current, arm]
  rcases h.skip?_cases .openCurly (by decide) with ⟨hskip, hne⟩ | ⟨d, hd, hskip, heq, hopen⟩
  · rw [hskip, if_neg hne]
    exact (tracks_statement h (by omega)).bind fun s d hd _ hs => .ok hs
  · rw [hskip, if_pos heq]
    refine tracks_advance h ⟨d, hd⟩ ?_
    exact (tracks_statements hopen (by omega)).pass fun _ _ _ => ⟨_, rfl⟩
termination_by 3 * c.size + 1

/-- The statements of a block are tracked up to the curly bracket that closes it. There is a round
for each statement, and every statement takes a token. -/
theorem tracks_statements {c : Cursor} {pos calls : Nat} (h : c.Stands tokens pos)
    (hcalls : 4 * c.size + 1 < calls) :
    Tracks tokens (Walk.statements calls tokens pos) c.statements := by
  obtain _ | calls := calls
  · omega
  rw [Walk.statements, h.bind_current, statements]
  rcases h.skip?_cases .closeCurly (by decide) with ⟨hskip, hne⟩ | ⟨d, hd, hskip, heq, hclose⟩
  · rw [hskip, if_neg hne]
    dsimp only
    -- An end token is a fault of the block, before a statement is asked for.
    by_cases heof : c.current.kind = .eof
    · rw [if_pos heof, if_pos heof]
      exact .of_eq_error h.unexpected_eq
    · rw [if_neg heof, if_neg heof]
      refine (tracks_statement h (by omega)).bind fun s d hd _ hs => ?_
      exact (tracks_statements hs (by omega)).bind fun rest f hf _ hrest => .ok hrest
  · rw [hskip, if_pos heq]
    exact tracks_advance h ⟨d, hd⟩ (.ok hclose)
termination_by 3 * c.size + 1

end

/-- Blocks are tracked: an opening curly bracket and the statements up to the closing one. -/
theorem tracks_block {calls : Nat} (h : c.Stands tokens pos) (hcalls : 4 * c.size < calls) :
    Tracks tokens (Walk.block calls tokens pos) c.block := by
  unfold Walk.block block
  refine (tracks_expect h (by decide)).bind fun _ d hd _ hopen => ?_
  exact (tracks_statements hopen (by omega)).pass fun _ _ _ => ⟨_, rfl⟩

/-! ### Declarations -/

/-- The dimensions of a parameter are tracked. A pair of brackets may be empty or hold an
expression, and both ways the round takes its tokens. -/
theorem tracks_dimensions {c : Cursor} {pos calls : Nat} (h : c.Stands tokens pos)
    (hcalls : 4 * c.size < calls) :
    Tracks tokens (Walk.dimensions calls tokens pos) c.dimensions := by
  obtain _ | calls := calls
  · omega
  rw [Walk.dimensions, h.bind_current, dimensions]
  rcases h.skip?_cases .openBracket (by decide) with ⟨hskip, hne⟩ | ⟨d, hd, hskip, heq, hopen⟩
  · rw [hskip, if_neg hne]
    exact .ok h
  rw [hskip, if_pos heq]
  refine tracks_advance h ⟨d, hd⟩ ?_
  rw [hopen.bind_current]
  dsimp only
  rcases hopen.skip?_cases .closeBracket (by decide) with
    ⟨hskip, hne⟩ | ⟨f, hf, hskip, heq, hclose⟩
  · rw [hskip, if_neg hne]
    refine (tracks_expression .lowest hopen (by omega)).bind fun e f hf _ he => ?_
    refine (tracks_expect he (by decide)).bind fun _ g hg _ hclose => ?_
    exact (tracks_dimensions hclose (by omega)).bind fun dims k hk _ hdims => .ok hdims
  · rw [hskip, if_pos heq]
    refine tracks_advance hopen ⟨f, hf⟩ ?_
    exact (tracks_dimensions hclose (by omega)).bind fun dims g hg _ hdims => .ok hdims
termination_by c.size

/-- Parameters are tracked. A name, a colon and a type are asked for in sequence, each with an
expectation of its own for the fault. -/
theorem tracks_parameter {calls : Nat} (h : c.Stands tokens pos) (hcalls : 4 * c.size < calls) :
    Tracks tokens (Walk.parameter calls tokens pos) c.parameter := by
  unfold Walk.parameter parameter
  refine (tracks_expectOr h (by decide) (h.unexpectedFor_eq _)).bind fun name d hd _ hname => ?_
  refine (tracks_expect hname (by decide)).bind fun _ f hf _ hcolon => ?_
  refine (tracks_expectOr hcolon (by decide) (hcolon.unexpectedFor_eq _)).bind
    fun _ g hg _ hword => ?_
  refine (tracks_dimensions hword (by omega)).bind fun dims k hk _ hdims => ?_
  exact tracks_stop hdims (.ok hdims)

/-- Lists of one parameter or more are tracked, by a round for each parameter and the comma behind
it. -/
theorem tracks_parametersOne {c : Cursor} {pos calls : Nat} (h : c.Stands tokens pos)
    (hcalls : 4 * c.size + 1 < calls) :
    Tracks tokens (Walk.parametersOne calls tokens pos) c.parametersOne := by
  obtain _ | calls := calls
  · omega
  rw [Walk.parametersOne, parametersOne]
  refine (tracks_parameter h (by omega)).bind fun p d hd _ hp => ?_
  rw [hp.bind_current]
  dsimp only
  rcases hp.skip?_cases .comma (by decide) with ⟨hskip, hne⟩ | ⟨f, hf, hskip, heq, hcomma⟩
  · rw [hskip, if_neg hne]
    exact (tracks_expect hp (by decide)).bind fun _ f hf _ hclose => .ok hclose
  · rw [hskip, if_pos heq]
    refine tracks_advance hp ⟨f, hf⟩ ?_
    exact (tracks_parametersOne hcomma (by omega)).bind fun ps g hg _ hps => .ok hps
termination_by c.size

/-- Lists of parameters are tracked up to their closing parenthesis, which may come at once. -/
theorem tracks_parameters {calls : Nat} (h : c.Stands tokens pos)
    (hcalls : 4 * c.size + 1 < calls) :
    Tracks tokens (Walk.parameters calls tokens pos) c.parameters := by
  unfold Walk.parameters parameters
  rw [h.bind_current]
  rcases h.skip?_cases .closeParen (by decide) with ⟨hskip, hne⟩ | ⟨d, hd, hskip, heq, hclose⟩
  · rw [hskip, if_neg hne]
    exact tracks_parametersOne h hcalls
  · rw [hskip, if_pos heq]
    exact tracks_advance h ⟨d, hd⟩ (.ok hclose)

/-- Declarations are tracked from their name on. The offset at which they start is handed over,
because the word in front of the name may be missing. -/
theorem tracks_declarationFrom (start : Nat) {calls : Nat} (h : c.Stands tokens pos)
    (hcalls : 4 * c.size < calls) :
    Tracks tokens (Walk.declarationFrom calls start tokens pos) (c.declarationFrom start) := by
  unfold Walk.declarationFrom declarationFrom
  refine (tracks_expectOr h (by decide) (h.unexpectedFor_eq _)).bind fun name d hd _ hname => ?_
  refine (tracks_expect hname (by decide)).bind fun _ f hf _ hopen => ?_
  refine (tracks_parameters hopen (by omega)).bind fun params g hg _ hparams => ?_
  refine (tracks_block hparams (by omega)).bind fun body k hk _ hbody => ?_
  exact tracks_stop hbody (.ok hbody)

/-- Declarations are tracked, with or without the word that introduces them. -/
theorem tracks_declaration {calls : Nat} (h : c.Stands tokens pos) (hcalls : 4 * c.size < calls) :
    Tracks tokens (Walk.declaration calls tokens pos) c.declaration := by
  unfold Walk.declaration declaration
  rw [h.bind_current]
  rcases h.skip?_cases .fnWord (by decide) with ⟨hskip, hne⟩ | ⟨d, hd, hskip, heq, hword⟩
  · rw [hskip, if_neg hne]
    exact tracks_declarationFrom _ h hcalls
  · rw [hskip, if_pos heq]
    refine tracks_advance h ⟨d, hd⟩ ?_
    exact (tracks_declarationFrom _ hword (by omega)).pass fun _ _ _ => ⟨_, rfl⟩

/-- All declarations of a list are read. The walk ends only at an end token, and it gets there or to
a fault because every declaration takes a token. -/
theorem run_declarations {c : Cursor} {pos calls : Nat} (h : c.Stands tokens pos)
    (hcalls : 4 * c.size + 1 < calls) :
    Walk.run (Walk.declarations calls) tokens pos = some c.declarations := by
  obtain _ | calls := calls
  · omega
  rw [Walk.declarations, Walk.run, h.bind_current, declarations]
  by_cases heof : c.current.kind = .eof
  · rw [if_pos heof, if_pos heof]
    rfl
  · rw [if_neg heof, if_neg heof]
    refine (tracks_declaration h (by omega)).run_bind fun decl d hd next hdecl => ?_
    exact Walk.run_bind_pure (run_declarations hdecl (by omega)) _
termination_by c.size

/-! ### Whole lists -/

/-- Reading starts at the first token. Both parsers close a list that has no end token, and they do
it alike. -/
theorem stands_start (tokens : List Token) : (start tokens).Stands (Walk.closed tokens) 0 := by
  unfold start Walk.closed
  rcases hlast : tokens.getLast? with _ | last
  · exact ⟨rfl, rfl, rfl⟩
  dsimp only
  by_cases heof : last.kind = .eof
  · rw [if_pos heof, if_pos heof]
    obtain ⟨others, rfl⟩ := List.getLast?_eq_some_iff.mp hlast
    refine ⟨?_, heof, rfl⟩
    rw [List.drop_zero, List.dropLast_concat]
  · rw [if_neg heof, if_neg heof]
    exact ⟨rfl, rfl, rfl⟩

/-- An expression with the end token behind it is read. The walk asks for that token like for any
other one, whereas the reader only looks whether it is there. -/
theorem run_wholeExpression {calls : Nat} (hcalls : 4 * (start tokens).size + 1 < calls) :
    Walk.run (Walk.wholeExpression calls) (Walk.closed tokens) 0 = some (Expr.parse tokens) := by
  refine (tracks_expression .lowest (stands_start tokens) hcalls).run_bind fun e d hd next he => ?_
  dsimp only
  by_cases heof : d.current.kind = .eof
  · obtain ⟨behind, hadvance, -⟩ := he.exists_advance_eq
    have hexpect : Walk.expect .eof (Walk.closed tokens) next = some (.ok (d.current, behind)) := by
      rw [Walk.expect, Walk.expectOr, he.bind_current, if_pos heof, hadvance]
    simp only [Walk.run, bind, hexpect, if_pos heof]
    rfl
  · have hexpect : Walk.expect .eof (Walk.closed tokens) next = some (.error d.unexpected) := by
      rw [Walk.expect, Walk.expectOr, he.bind_current, if_neg heof, he.unexpected_eq]
    simp only [Walk.run, bind, hexpect, if_neg heof]
    rfl

/-- At each position of a closed list a cursor can stand. Hence what is said of cursors holds of all
positions, also of those that parsing from the start never comes to. -/
theorem exists_stands (hpos : pos < (Walk.closed tokens).length) :
    ∃ c : Cursor, c.Stands (Walk.closed tokens) pos := by
  induction pos with
  | zero => exact ⟨start tokens, stands_start tokens⟩
  | succ pos ih =>
    obtain ⟨c, hc⟩ := ih (by omega)
    have hlength := hc.length_eq
    rcases hc.next?_cases with ⟨hnext, -⟩ | ⟨d, hd, -, hd'⟩
    · have hsize : c.size = 0 := by
        rcases c with ⟨_ | ⟨token, rest⟩, close, stop⟩
        · rfl
        · cases hnext
      omega
    · exact ⟨d, hd'⟩

end Token.Cursor

namespace Walk

variable {α : Type} {tokens : List Token} {pos calls : Nat} {c : Cursor}

/-- Whether a walk from a position ends as a reader does, and on success further on in the list. The
reader is given by its result, whose type already says that the cursor behind it is smaller. -/
def Forward (tokens : List Token) (pos : Nat) (walk : Walk α) :
    Except Fault (α × c.After) → Prop
  | .error fault => walk tokens pos = some (.error fault)
  | .ok (a, d) => ∃ next, walk tokens pos = some (.ok (a, next)) ∧ d.1.Stands tokens next ∧
      pos < next ∧ next < tokens.length

/-- A walk that tracks a reader goes forward, because the reader does. Sizes become positions here,
and this is the only place where they do. -/
theorem forward_of_tracks {walk : Walk α} {read : Except Fault (α × c.After)}
    (h : c.Stands tokens pos) (htracks : Cursor.Tracks tokens (walk tokens pos) read) :
    Forward tokens pos walk read := by
  generalize hwalked : walk tokens pos = walked at htracks
  -- Position and size make up the list, so that a smaller cursor stands further on.
  cases htracks with
  | error => exact hwalked
  | @ok a next d hd =>
    have hpos := h.length_eq
    have hnext := hd.length_eq
    have hsize := d.2
    exact ⟨next, hwalked, hd, by omega, by omega⟩

/-- Parsing ends and moves forward, whatever the tokens are. Given four calls for each of them, the
declarations and the expression of a list are read to the end, or to a fault, without a look at a
token that is not there. From every position, the token there can be taken without leaving the list.
An expression, a statement and a declaration are read from there as well, and if there is one, the
position behind it is further on and still in the list. -/
theorem parse_forward (tokens : List Token) (hcalls : 4 * (closed tokens).length ≤ calls) :
    run (declarations calls) (closed tokens) 0 = some (Decl.parse tokens) ∧
    run (wholeExpression calls) (closed tokens) 0 = some (Expr.parse tokens) ∧
    ∀ pos < (closed tokens).length, ∃ c : Cursor, c.Stands (closed tokens) pos ∧
      (∃ next, advance (closed tokens) pos = some (.ok (c.current, next)) ∧
        next < (closed tokens).length) ∧
      (∀ power, Forward (closed tokens) pos (expression calls power) (c.expression power)) ∧
      Forward (closed tokens) pos (statement calls) c.statement ∧
      Forward (closed tokens) pos (declaration calls) c.declaration := by
  have hstart := Cursor.stands_start tokens
  have hsize := hstart.length_eq
  refine ⟨Cursor.run_declarations hstart (by omega), Cursor.run_wholeExpression (by omega), ?_⟩
  intro pos hpos
  obtain ⟨c, hc⟩ := Cursor.exists_stands hpos
  have hlength := hc.length_eq
  refine ⟨c, hc, hc.exists_advance_eq, ?_, ?_, ?_⟩
  · intro power
    exact forward_of_tracks hc (Cursor.tracks_expression power hc (by omega))
  · exact forward_of_tracks hc (Cursor.tracks_statement hc (by omega))
  · exact forward_of_tracks hc (Cursor.tracks_declaration hc (by omega))

/-- Tokens that no text has: an end token in front and one in the middle, spans out of order, and
none at the end. -/
theorem parse_forward_unclosed :
    let tokens : List Token := [⟨.eof, "?", ⟨9, 2⟩⟩, ⟨.identifier, "x", ⟨7, 3⟩⟩,
      ⟨.eof, "", ⟨0, 0⟩⟩, ⟨.openParen, "(", ⟨5, 5⟩⟩]
    (closed tokens).length = 5 ∧
      run (declarations 20) (closed tokens) 0 = some (Decl.parse tokens) ∧
      run (wholeExpression 20) (closed tokens) 0 = some (Expr.parse tokens) ∧
      expression 20 .lowest (closed tokens) 1 = some (.ok (.var ⟨7, 3⟩ "x" [], 2)) ∧
      ∃ c : Cursor, c.Stands (closed tokens) 1 ∧
        (∃ next, advance (closed tokens) 1 = some (.ok (c.current, next)) ∧ next < 5) ∧
        Forward (closed tokens) 1 (expression 20 .lowest) (c.expression .lowest) ∧
        Forward (closed tokens) 1 (statement 20) c.statement ∧
        Forward (closed tokens) 1 (declaration 20) c.declaration := by
  intro tokens
  obtain ⟨hdecls, hexpr, hpositions⟩ := @parse_forward 20 tokens (by decide)
  obtain ⟨c, hc, hadvance, hexpression, hstatement, hdeclaration⟩ := hpositions 1 (by decide)
  exact ⟨rfl, hdecls, hexpr, rfl, c, hc, hadvance, hexpression .lowest, hstatement, hdeclaration⟩

end Walk

end ArrayScript
