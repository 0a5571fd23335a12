import ArrayScript.Proofs.Program
import ArrayScript.Proofs.Spans

/-!
# `ArrayScript.Proofs.Nesting`: the spans of a text's trees

What a text is parsed into has parts of five kinds: declarations, parameters, statements, targets
and expressions. `Fragment` is one of them, whatever its kind, and `Fragment.children` are the parts
directly below it, in the order in which they are written. A fragment occurs in some trees if steps
from a fragment to one of its children lead there.

`Fragment.orderly_of_parse` says how the spans of all these fragments lie. Each of them starts where
a token starts and stops where one stops, and is not empty; the children of a fragment lie inside
it; and they are disjoint and in order. The invariant that is carried from a fragment to its
children is that of `ArrayScript.Proofs.Spans`, one predicate for each kind (`Fragment.Nested`).
-/

set_option autoImplicit false

namespace ArrayScript

/-! ### Rows of spans -/

/-- Spans in a row are disjoint and in order. -/
theorem Span.Chain.pairwise {low high : Nat} {spans : List Span} (h : Chain low high spans) :
    spans.Pairwise fun span next => span.stop ≤ next.start := by
  induction spans generalizing low with
  | nil => exact .nil
  | cons span spans ih =>
    refine .cons (fun next hnext => ?_) (ih h.2.2)
    exact (Span.chain_singleton.mp (h.2.2.of_mem hnext)).1

/-! ### Fragments -/

/-- A part of what a text is parsed into. -/
inductive Fragment where
  | decl (decl : Decl)
  | param (param : Param)
  | stmt (stmt : Stmt)
  | target (target : Target)
  | expr (expr : Expr)

namespace Fragment

/-- The text that a fragment was read from. -/
def span : Fragment → Span
  | decl d => d.span
  | param p => p.span
  | stmt s => s.span
  | target t => t.span
  | expr e => e.span

/-- The fragments directly below a fragment, in the order in which they are written. A dimension
that is left open is no fragment. -/
def children : Fragment → List Fragment
  | decl d => d.params.map param ++ d.body.map stmt
  | param p => (p.dims.filterMap id).map expr
  | stmt (.branch _ condition pass fail) =>
    expr condition :: pass.map stmt ++ (fail.getD []).map stmt
  | stmt (.assign _ t value) | stmt (.update _ _ t value) => [target t, expr value]
  | stmt (.ret _ value) => [expr value]
  | target t => t.indices.map expr
  | expr (.number _ _) => []
  | expr (.newArray _ sizes) => sizes.map expr
  | expr (.list _ items) => items.map expr
  | expr (.var _ _ indices) => indices.map expr
  | expr (.call _ _ args) => args.map expr
  | expr (.unary _ _ operand) => [expr operand]
  | expr (.binary _ _ left right) => [expr left, expr right]

/-- Whether a fragment is one of some roots or stands below one, at any depth. -/
inductive Occurs (roots : List Fragment) : Fragment → Prop
  | root {fragment : Fragment} : fragment ∈ roots → Occurs roots fragment
  | child {parent fragment : Fragment} :
      Occurs roots parent → fragment ∈ parent.children → Occurs roots fragment

/-- Whether a fragment and its children lie in a text as they should: the fragment from the start of
a token to the end of one, its children inside it, and one child behind the other. -/
structure Orderly (tokens : List Token) (fragment : Fragment) : Prop where
  start : ∃ token ∈ tokens, token.span.start = fragment.span.start
  stop : ∃ token ∈ tokens, token.span.stop = fragment.span.stop
  lt : fragment.span.start < fragment.span.stop
  inside : ∀ child ∈ fragment.children,
    fragment.span.start ≤ child.span.start ∧ child.span.stop ≤ fragment.span.stop
  apart : fragment.children.Pairwise fun child next => child.span.stop ≤ next.span.start

/-- Whether the spans of a fragment and of all that is below it are nested. -/
def Nested (tokens : List Token) : Fragment → Prop
  | decl d => d.Nested tokens
  | param p => p.Nested tokens
  | stmt s => s.Nested tokens
  | target t => t.Nested tokens
  | expr e => e.Nested tokens

variable {tokens : List Token} {fragment : Fragment}

/-! ### From a fragment to its children -/

theorem forall_nested_exprs {es : List Expr} (h : Expr.NestedAll tokens es) :
    ∀ child ∈ es.map expr, child.Nested tokens := by
  induction es with
  | nil => exact nofun
  | cons e es ih => exact List.forall_mem_cons.mpr ⟨h.1, ih h.2⟩

theorem forall_nested_stmts {stmts : List Stmt} (h : Stmt.NestedAll tokens stmts) :
    ∀ child ∈ stmts.map stmt, child.Nested tokens := by
  induction stmts with
  | nil => exact nofun
  | cons s stmts ih => exact List.forall_mem_cons.mpr ⟨h.1, ih h.2⟩

/-- A fragment whose spans are nested covers its children. -/
theorem Nested.covers (h : fragment.Nested tokens) :
    fragment.span.Covers tokens (fragment.children.map span) := by
  have hexprs (es : List Expr) : (es.map expr).map span = es.map Expr.span := by
    rw [List.map_map]
    rfl
  have hstmts (stmts : List Stmt) : (stmts.map stmt).map span = stmts.map Stmt.span := by
    rw [List.map_map]
    rfl
  -- Children are listed as fragments and spans are given for trees; apart from that, each case is
  -- the first half of being nested.
  cases fragment with
  | decl d =>
    rw [children, List.map_append, hstmts, List.map_map]
    exact h.1
  | param p =>
    rw [children, hexprs]
    exact h.1
  | target t =>
    rw [children, hexprs]
    exact h.1
  | stmt s =>
    cases s with
    | branch span condition pass fail =>
      rw [children, List.map_append, List.map_cons, hstmts, hstmts]
      exact h.1
    | _ => exact h.1
  | expr e =>
    cases e with
    | number span value => exact h
    | unary span op operand => exact h.1
    | binary span op left right => exact h.1
    | _ =>
      rw [children, hexprs]
      exact h.1

/-- Spans that are nested are nested in every child. -/
theorem Nested.forall_children (h : fragment.Nested tokens) :
    ∀ child ∈ fragment.children, child.Nested tokens := by
  cases fragment with
  | decl d =>
    obtain ⟨-, hparams, hbody⟩ := h
    refine List.forall_mem_append.mpr ⟨?_, forall_nested_stmts hbody⟩
    exact List.forall_mem_map.mpr hparams
  | param p => exact forall_nested_exprs h.2
  | target t => exact forall_nested_exprs h.2
  | stmt s =>
    cases s with
    | branch span condition pass fail =>
      obtain ⟨-, hcondition, hpass, hfail⟩ := h
      refine List.forall_mem_cons.mpr ⟨hcondition, ?_⟩
      refine List.forall_mem_append.mpr ⟨forall_nested_stmts hpass, ?_⟩
      -- An arm that is absent has no statements.
      cases fail with
      | none => exact nofun
      | some block => exact forall_nested_stmts hfail
    | ret span value => exact List.forall_mem_singleton.mpr h.2
    | _ => exact List.forall_mem_cons.mpr ⟨h.2.1, List.forall_mem_singleton.mpr h.2.2⟩
  | expr e =>
    cases e with
    | number span value => exact nofun
    | unary span op operand => exact List.forall_mem_singleton.mpr h.2
    | binary span op left right =>
      exact List.forall_mem_cons.mpr ⟨h.2.1, List.forall_mem_singleton.mpr h.2.2⟩
    | _ => exact forall_nested_exprs h.2

/-- A fragment with nested spans lies in the text as it should. -/
theorem Nested.orderly (h : fragment.Nested tokens) : fragment.Orderly tokens := by
  have hcovers := h.covers
  refine ⟨hcovers.start, hcovers.stop, hcovers.lt, ?_, List.pairwise_map.mp hcovers.chain.pairwise⟩
  intro child hchild
  obtain ⟨hstart, -, hstop⟩ :=
    Span.chain_singleton.mp (hcovers.chain.of_mem (List.mem_map_of_mem hchild))
  exact ⟨hstart, hstop⟩

/-- What holds of the roots is carried down to every fragment that occurs below them. -/
theorem Occurs.nested {roots : List Fragment} (hroots : ∀ root ∈ roots, root.Nested tokens)
    (h : Occurs roots fragment) : fragment.Nested tokens := by
  induction h with
  | root hroot => exact hroots _ hroot
  | child _ hchild ih => exact ih.forall_children _ hchild

/-- Spans nest and are ordered. In the declarations of a text, and in the expression that a text
consists of, every declaration, parameter, statement, target and expression starts at a token and
stops at one, is not empty, and has its children inside it, one behind the other. The declarations
themselves stand one behind the other, too. -/
theorem orderly_of_parse {text : String} {tokens : List Token}
    (hscan : Token.scan text = .ok tokens) :
    (∀ decls, Decl.parse tokens = .ok decls →
      (decls.Pairwise fun decl next => decl.span.stop ≤ next.span.start) ∧
        ∀ fragment, Occurs (decls.map decl) fragment → fragment.Orderly tokens) ∧
    ∀ e, Expr.parse tokens = .ok e →
      ∀ fragment, Occurs [expr e] fragment → fragment.Orderly tokens := by
  refine ⟨?_, ?_⟩
  · intro decls hparse
    obtain ⟨low, high, hchain⟩ := Decl.exists_chain_of_parse hscan hparse
    refine ⟨List.pairwise_map.mp hchain.pairwise, fun fragment hoccurs => ?_⟩
    refine (hoccurs.nested fun root hroot => ?_).orderly
    obtain ⟨d, hd, rfl⟩ := List.mem_map.mp hroot
    exact Decl.nested_of_parse hscan hparse d hd
  · intro e hparse fragment hoccurs
    refine (hoccurs.nested fun root hroot => ?_).orderly
    rw [List.mem_singleton.mp hroot]
    exact Expr.nested_of_parse hscan hparse

/-- A declaration in which a product starts behind the parenthesis that its first operand stands
in. The spans of its parameter, its statements and all that is in them are orderly. -/
theorem orderly_of_parse_group :
    ∃ tokens decls, Token.scan "f(a: number[]) { a[0] = (1 + 2) * 3; return a; }" = .ok tokens ∧
      Decl.parse tokens = .ok decls ∧
      decls.map (fun d => (d.span, (decl d).children.map span))
        = [(⟨0, 48⟩, [⟨2, 13⟩, ⟨17, 36⟩, ⟨37, 46⟩])] ∧
      ∀ fragment, Occurs (decls.map decl) fragment → fragment.Orderly tokens := by
  have hrun : ((Token.scan "f(a: number[]) { a[0] = (1 + 2) * 3; return a; }").toOption.bind
      fun tokens => (Decl.parse tokens).toOption.map fun decls =>
        decls.map fun d => (d.span, (decl d).children.map span))
      = some [(⟨0, 48⟩, [⟨2, 13⟩, ⟨17, 36⟩, ⟨37, 46⟩])] := by
    decide +kernel
  obtain ⟨tokens, hscan, hrun⟩ := Option.bind_eq_some_iff.mp hrun
  obtain ⟨decls, hparse, hspans⟩ := Option.map_eq_some_iff.mp hrun
  have hscan := eq_ok_of_toOption hscan
  have hparse := eq_ok_of_toOption hparse
  obtain ⟨-, horderly⟩ := (orderly_of_parse hscan).1 decls hparse
  exact ⟨tokens, decls, hscan, hparse, hspans, horderly⟩

end Fragment

end ArrayScript
