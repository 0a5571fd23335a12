import ArrayScript.Source

/-!
# `ArrayScript.Proofs.Sized`: array constructors have a size

The tree of an expression can hold an array constructor without any size, but no text is read as
one: `new number` has to be followed by a size in square brackets. `Expr.sized` says that a tree
has no such constructor inside, and `Source.sized_decls` that every tree which comes from a text
passes. Analysis of such trees never meets the type of all arrays.

The statements follow the parser function by function. Each one says of a result that it passes,
whatever the cursor, so the induction is the parser's own recursion.
-/

set_option autoImplicit false

namespace ArrayScript

mutual

/-- Whether every array constructor in an expression has a size. -/
def Expr.sized : Expr → Bool
  | .number _ _ => true
  | .newArray _ sizes => !sizes.isEmpty && Expr.sizedAll sizes
  | .list _ items => Expr.sizedAll items
  | .var _ _ indices => Expr.sizedAll indices
  | .call _ _ args => Expr.sizedAll args
  | .unary _ _ operand => operand.sized
  | .binary _ _ left right => left.sized && right.sized

/-- Whether every array constructor in several expressions has a size. -/
def Expr.sizedAll : List Expr → Bool
  | [] => true
  | e :: es => e.sized && Expr.sizedAll es

end

/-- Whether every array constructor in the indices of a target has a size. -/
def Target.sized (target : Target) : Bool :=
  Expr.sizedAll target.indices

mutual

/-- Whether every array constructor in a statement has a size. -/
def Stmt.sized : Stmt → Bool
  | .branch _ condition pass fail =>
    condition.sized && Stmt.sizedAll pass && Stmt.sizedOption fail
  | .assign _ target value => target.sized && value.sized
  | .update _ _ target value => target.sized && value.sized
  | .ret _ value => value.sized

/-- Whether every array constructor in a block has a size. -/
def Stmt.sizedAll : List Stmt → Bool
  | [] => true
  | s :: rest => s.sized && Stmt.sizedAll rest

/-- Whether every array constructor in a block that may be absent has a size. -/
def Stmt.sizedOption : Option (List Stmt) → Bool
  | none => true
  | some block => Stmt.sizedAll block

end

/-- Whether every array constructor in the body of a declaration has a size. -/
def Decl.sized (decl : Decl) : Bool :=
  Stmt.sizedAll decl.body

/-- Expressions pass together when each of them does. -/
theorem Expr.sizedAll_iff {es : List Expr} :
    Expr.sizedAll es = true ↔ ∀ e ∈ es, e.sized = true := by
  induction es with
  | nil => simp [Expr.sizedAll]
  | cons e es ih => simp [Expr.sizedAll, ih]

namespace Token.Cursor

section Reads

variable {α β γ δ : Type} {test : α → Bool} {goal : γ → Bool}

/-- Everything that a reader can result in passes a test. -/
def Reads (result : Except Fault (α × β)) (test : α → Bool) : Prop :=
  ∀ a b, result = .ok (a, b) → test a = true

/-- A result that passes is one that the reader may have. It ends each branch of the parser that
succeeds. -/
theorem Reads.ok {a : α} {b : β} (h : test a = true) :
    Reads (.ok (a, b) : Except Fault (α × β)) test := by
  rintro _ _ ⟨⟩
  exact h

/-- A reader that fails has no result, so nothing is asked of it. -/
theorem Reads.error {fault : Fault} : Reads (.error fault : Except Fault (α × β)) test := by
  rintro _ _ ⟨⟩

/-- A reader in two parts passes if the second one does after everything the first can result
in. -/
theorem Reads.bind {m : Except Fault (α × β)} {k : α × β → Except Fault (γ × δ)}
    (hm : Reads m test) (hk : ∀ a b, test a = true → Reads (k (a, b)) goal) :
    Reads (m >>= k) goal := by
  intro c d h
  cases m with
  | error fault => cases h
  | ok r => exact hk r.1 r.2 (hm r.1 r.2 rfl) c d h

/-- What a reader results in passes the test that never fails. -/
theorem Reads.any (m : Except Fault (α × β)) : Reads m (fun _ => true) := by
  intro _ _ _
  rfl

end Reads

mutual

/-- Expressions pass. The operand does, and the links behind it keep what they start from. -/
theorem sized_expression (power : Power) (c : Cursor) :
    Reads (c.expression power) Expr.sized := by
  rw [expression]
  refine (sized_operand c).bind fun left ⟨d, hd⟩ hleft => ?_
  exact (sized_links power left d hleft).bind fun e f he => .ok he
termination_by 4 * c.size + 1

/-- Operands pass. Array constructors are the case that matters: the parser fails unless it has read
a size, and this is where the emptiness of the sizes is excluded. -/
theorem sized_operand (c : Cursor) : Reads c.operand Expr.sized := by
  rw [operand]
  split
  · exact .error
  next token d hd _ =>
  split
  · split
    · exact .ok rfl
    · exact .error
  · exact .ok rfl
  · refine (sized_expression .lowest d).bind fun e ⟨f, hf⟩ he => ?_
    exact (Reads.any _).bind fun _ g _ => .ok he
  · exact (sized_expressions .closeBracket d).bind fun items f hitems => .ok hitems
  · -- A constructor: this is the one place where sizes are asked for.
    refine (Reads.any _).bind fun _ ⟨f, hf⟩ _ => ?_
    refine (sized_bracketed f).bind fun sizes g hsizes => ?_
    dsimp only
    split
    · exact .error
    next hne => exact .ok (by simp [Expr.sized, hne, hsizes])
  · split
    · exact (sized_expression .unary d).bind fun e f he => .ok he
    · exact .error
termination_by 4 * c.size

/-- The links behind an expression that passes make one that passes, as each of them only adds parts
which were read as expressions. -/
theorem sized_links (power : Power) (left : Expr) (c : Cursor) (hleft : left.sized = true) :
    Reads (c.links power left) Expr.sized := by
  rw [links]
  split
  · exact .ok hleft
  next token d hd _ =>
  split
  · exact .ok hleft
  · refine (sized_expression _ d).bind fun right ⟨f, hf⟩ hright => ?_
    exact (sized_links power _ f (by simp [Expr.sized, hleft, hright])).bind fun e g he => .ok he
  next span name _ =>
    refine (sized_expressions _ d).bind fun args ⟨f, hf⟩ hargs => ?_
    exact (sized_links power (.call _ name args) f hargs).bind fun e g he => .ok he
  · exact .error
  next span name indices _ =>
    refine (sized_expression _ d).bind fun index ⟨f, hf⟩ hindex => ?_
    refine (Reads.any _).bind fun _ ⟨g, hg⟩ _ => ?_
    -- An index is put behind those that the variable already has.
    have hall : Expr.sizedAll (indices ++ [index]) = true := by
      simp_all [Expr.sized, Expr.sizedAll_iff, or_imp]
    exact (sized_links power (.var _ name (indices ++ [index])) g hall).bind fun e k he => .ok he
  · exact .error
termination_by 4 * c.size

/-- Lists of expressions pass, those without items trivially so. -/
theorem sized_expressions (close : Kind) (c : Cursor) :
    Reads (c.expressions close) Expr.sizedAll := by
  rw [expressions]
  split
  · exact .ok rfl
  · exact sized_expressionsOne close c
termination_by 4 * c.size + 3

/-- Lists of one expression or more pass, round by round. -/
theorem sized_expressionsOne (close : Kind) (c : Cursor) :
    Reads (c.expressionsOne close) Expr.sizedAll := by
  rw [expressionsOne]
  refine (sized_expression _ c).bind fun e ⟨d, hd⟩ he => ?_
  dsimp only
  split
  next f hf _ =>
    refine (sized_expressionsOne close f).bind fun es g hes => .ok ?_
    simp [Expr.sizedAll, he, hes]
  · refine (Reads.any _).bind fun _ f _ => .ok ?_
    simp [Expr.sizedAll, he]
termination_by 4 * c.size + 2

/-- Rows of bracketed expressions pass. That a row is empty is no fault here; array constructors
look at that themselves. -/
theorem sized_bracketed (c : Cursor) : Reads c.bracketed Expr.sizedAll := by
  rw [bracketed]
  split
  · exact .ok rfl
  next d hd _ =>
    refine (sized_expression _ d).bind fun e ⟨f, hf⟩ he => ?_
    refine (Reads.any _).bind fun _ ⟨g, hg⟩ _ => ?_
    refine (sized_bracketed g).bind fun es k hes => .ok ?_
    simp [Expr.sizedAll, he, hes]
termination_by 4 * c.size

end

/-! ### Statements and declarations -/

/-- Assignments pass, with the indices of their target and with their value. -/
theorem sized_assignment (name : Token) (c : Cursor) : Reads (c.assignment name) Stmt.sized := by
  refine (sized_bracketed c).bind fun indices ⟨d, hd⟩ hindices => ?_
  dsimp only
  split
  · exact .error
  next token f hf _ =>
  split
  · refine (sized_expression _ f).bind fun value ⟨g, hg⟩ hvalue => ?_
    refine (Reads.any _).bind fun _ k _ => .ok ?_
    simp [Stmt.sized, Target.sized, hindices, hvalue]
  split
  · refine (sized_expression _ f).bind fun value ⟨g, hg⟩ hvalue => ?_
    refine (Reads.any _).bind fun _ k _ => .ok ?_
    simp [Stmt.sized, Target.sized, hindices, hvalue]
  · exact .error

mutual

/-- Statements pass. Those inside of a branch are covered by the recursion through its arms. -/
theorem sized_statement (c : Cursor) : Reads c.statement Stmt.sized := by
  rw [statement]
  split
  · exact .error
  next token d hd _ =>
  split
  · refine (Reads.any _).bind fun _ ⟨f, hf⟩ _ => ?_
    refine (sized_expression _ f).bind fun condition ⟨g, hg⟩ hcondition => ?_
    refine (Reads.any _).bind fun _ ⟨k, hk⟩ _ => ?_
    refine (sized_arm k).bind fun pass ⟨m, hm⟩ hpass => ?_
    dsimp only
    split
    · exact .ok (by simp [Stmt.sized, Stmt.sizedOption, hcondition, hpass])
    next n hn _ =>
      refine (sized_arm n).bind fun fail q hfail => .ok ?_
      simp [Stmt.sized, Stmt.sizedOption, hcondition, hpass, hfail]
  · refine (sized_expression _ d).bind fun value ⟨f, hf⟩ hvalue => ?_
    exact (Reads.any _).bind fun _ g _ => .ok hvalue
  · exact (sized_assignment token d).bind fun s f hs => .ok hs
  · exact .error
termination_by 3 * c.size

/-- Arms of a branch pass, whether they are a block or a single statement. -/
theorem sized_arm (c : Cursor) : Reads c.arm Stmt.sizedAll := by
  rw [arm]
  split
  next d hd _ => exact (sized_statements d).bind fun body f hbody => .ok hbody
  · refine (sized_statement c).bind fun s d hs => .ok ?_
    simp [Stmt.sizedAll, hs]
termination_by 3 * c.size + 1

/-- The statements of a block pass, one after the other. -/
theorem sized_statements (c : Cursor) : Reads c.statements Stmt.sizedAll := by
  rw [statements]
  split
  · exact .ok rfl
  split
  · exact .error
  · refine (sized_statement c).bind fun s ⟨d, hd⟩ hs => ?_
    refine (sized_statements d).bind fun rest f hrest => .ok ?_
    simp [Stmt.sizedAll, hs, hrest]
termination_by 3 * c.size + 1

end

/-- Declarations pass from their name on. Only the body counts; nothing is asked of what is read
before it. -/
theorem sized_declarationFrom (start : Nat) (c : Cursor) :
    Reads (c.declarationFrom start) Decl.sized := by
  refine (Reads.any _).bind fun name ⟨d, hd⟩ _ => ?_
  refine (Reads.any _).bind fun _ ⟨f, hf⟩ _ => ?_
  refine (Reads.any _).bind fun params ⟨g, hg⟩ _ => ?_
  have hblock : Reads g.block Stmt.sizedAll :=
    (Reads.any _).bind fun _ ⟨k, hk⟩ _ => (sized_statements k).bind fun body m hbody => .ok hbody
  exact hblock.bind fun body k hbody => .ok hbody

/-- Declarations pass, with or without the word that introduces them. -/
theorem sized_declaration (c : Cursor) : Reads c.declaration Decl.sized := by
  rw [declaration]
  split
  next d hd _ => exact (sized_declarationFrom _ d).bind fun decl f hdecl => .ok hdecl
  · exact sized_declarationFrom _ c

/-- All declarations of a token list pass. It is stated of each member, the form in which analysis
of a program asks for it. -/
theorem sized_declarations (c : Cursor) {decls : List Decl} (h : c.declarations = .ok decls) :
    ∀ decl ∈ decls, decl.sized = true := by
  induction c using declarations.induct generalizing decls with
  | case1 c heof =>
    rw [declarations, if_pos heof] at h
    cases h
    simp
  | case2 c heof ih =>
    rw [declarations, if_neg heof] at h
    cases hread : c.declaration with
    | error fault => simp [hread, bind, Except.bind] at h
    | ok r =>
      cases hrest : r.2.1.declarations with
      | error fault => simp [hread, hrest, bind, Except.bind] at h
      | ok rest =>
        have hcons : decls = r.1 :: rest := by
          simpa [hread, hrest, bind, Except.bind, pure, Except.pure, eq_comm] using h
        subst hcons
        intro decl hmem
        rcases List.mem_cons.mp hmem with rfl | hmem
        · exact sized_declaration c _ _ hread
        · exact ih r.2.1 r.2.2 hrest decl hmem

end Token.Cursor

/-- Every array constructor in a program text that can be read has a size. -/
theorem Source.sized_decls {source : Source} {decls : List Decl} (h : source.decls = .ok decls) :
    ∀ decl ∈ decls, decl.sized = true := by
  cases htokens : source.tokens with
  | error e => simp [Source.decls, htokens, bind, Except.bind] at h
  | ok tokens =>
    cases hparse : Decl.parse tokens with
    | error fault => simp [Source.decls, htokens, hparse, Source.orError, bind, Except.bind] at h
    | ok ds =>
      have : ds = decls := by
        simpa [Source.decls, htokens, hparse, Source.orError, bind, Except.bind] using h
      exact this ▸ Token.Cursor.sized_declarations _ hparse

end ArrayScript
