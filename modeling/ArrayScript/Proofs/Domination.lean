import ArrayScript.Proofs.Attribution
import ArrayScript.Proofs.DefiniteAssignment
import ArrayScript.Proofs.Layout

/-!
# `ArrayScript.Proofs.Domination`: what stands behind an assignment can read its variable

A block is a function's body or an arm of a branch in a block (`Stmt.Block`). Once a statement of a
block has assigned a variable, every later statement of that block finds it assigned, whatever is
nested in that statement. This is so although variables belong to the whole function: a read that
stands outside the block can fail.

`Program.dominated_reads_succeed` says so for all declarations that make a program, and the same of
parameters everywhere. Where a read stands is where its error would be, so the statement is about
the offsets of errors. `Stmt.exposedAll` lists the offsets of all reads that no assignment
dominates, and only these can be offsets of errors. Declarations that do not come from a text may
have the same offset in several places. They can be given other ones, since a program does not
depend on places (`ArrayScript.Proofs.Layout`).

In a text one can start from the assignment as well. The proof then follows the one variable and the
one statement, and excuses all other reads from the rule of `ArrayScript.Proofs.DefiniteAssignment`.
What it needs from the text is that spans are nested (`ArrayScript.Proofs.Nesting`): a read
elsewhere has its offset elsewhere, in every block on the way from the body down to the assignment.
-/

set_option autoImplicit false

namespace ArrayScript

/-! ### Offsets of reads -/

namespace Span

/-- Whether an offset belongs to the text of a span. -/
def Contains (span : Span) (offset : Nat) : Prop :=
  span.start ≤ offset ∧ offset < span.stop

/-- Whether a span lies in another one. -/
def Inside (inner outer : Span) : Prop :=
  outer.start ≤ inner.start ∧ inner.stop ≤ outer.stop

/-- Whether two spans have no text in common. -/
def Apart (span other : Span) : Prop :=
  span.stop ≤ other.start ∨ other.stop ≤ span.start

variable {inner outer span other : Span} {offset : Nat}

theorem Inside.trans {middle : Span} (h : inner.Inside middle) (h' : middle.Inside outer) :
    inner.Inside outer :=
  ⟨Nat.le_trans h'.1 h.1, Nat.le_trans h.2 h'.2⟩

theorem Inside.contains (h : inner.Inside outer) (hoffset : inner.Contains offset) :
    outer.Contains offset :=
  ⟨Nat.le_trans h.1 hoffset.1, Nat.lt_of_lt_of_le hoffset.2 h.2⟩

theorem Apart.symm (h : span.Apart other) : other.Apart span :=
  Or.symm h

theorem Apart.of_inside (h : span.Apart outer) (hinner : inner.Inside outer) :
    span.Apart inner :=
  h.imp (fun h => Nat.le_trans h hinner.1) fun h => Nat.le_trans hinner.2 h

theorem Apart.not_contains (h : span.Apart other) (hoffset : span.Contains offset) :
    ¬ other.Contains offset := by
  unfold Apart at h
  unfold Contains at hoffset ⊢
  omega

end Span

namespace Fragment

variable {tokens : List Token} {fragment inner : Fragment}

theorem Nested.contains_start (h : fragment.Nested tokens) :
    fragment.span.Contains fragment.span.start :=
  ⟨Nat.le_refl _, h.orderly.lt⟩

/-- A fragment lies in every fragment that it occurs in. -/
theorem Nested.inside (h : fragment.Nested tokens) (hinner : Occurs [fragment] inner) :
    inner.span.Inside fragment.span := by
  have hroot : ∀ root ∈ [fragment], root.Nested tokens := List.forall_mem_singleton.mpr h
  induction hinner with
  | root hmem =>
    rw [List.mem_singleton.mp hmem]
    exact ⟨Nat.le_refl _, Nat.le_refl _⟩
  | child hparent hmem ih => exact .trans ((hparent.nested hroot).orderly.inside _ hmem) ih

/-- A read has its offset in every fragment that it occurs in. -/
theorem Nested.contains_read (h : fragment.Nested tokens) (hinner : Occurs [fragment] inner)
    {offset : Nat} {name : String} (hread : (offset, name) ∈ inner.reads) :
    fragment.span.Contains offset := by
  -- It is the start of the fragment that reads, or else of the target of a compound assignment.
  have hstart {part : Fragment} (hpart : Occurs [fragment] part)
      (heq : offset = part.span.start) : fragment.span.Contains offset := by
    rw [heq]
    refine (h.inside hpart).contains ?_
    exact (hpart.nested (List.forall_mem_singleton.mpr h)).contains_start
  unfold reads at hread
  split at hread
  next span n indices =>
    exact hstart hinner (congrArg Prod.fst (List.mem_singleton.mp hread))
  next span op t value =>
    refine hstart (.child hinner (List.mem_cons_self (a := target t))) ?_
    exact congrArg Prod.fst (List.mem_singleton.mp hread)
  next t =>
    split at hread
    · cases hread
    · exact hstart hinner (congrArg Prod.fst (List.mem_singleton.mp hread))
  · cases hread

/-- Reads of a fragment are excused if it is apart from the text in question. -/
theorem Nested.covered (h : fragment.Nested tokens) {span : Span}
    (hapart : fragment.span.Apart span) {excused : Nat → String → Prop}
    (hexcused : ∀ offset name, ¬ span.Contains offset → excused offset name)
    (known : List String) : fragment.Covered excused known := by
  intro inner hinner offset name hread
  exact .inl (hexcused offset name (hapart.not_contains (h.contains_read hinner hread)))

end Fragment

/-! ### Blocks -/

namespace Stmt

/-- The blocks of a body: the body itself, and the arms of the branches in its blocks. -/
inductive Block (body : List Stmt) : List Stmt → Prop
  | body : Block body body
  | pass {block pass : List Stmt} {span : Span} {condition : Expr} {fail : Option (List Stmt)} :
      Block body block → branch span condition pass fail ∈ block → Block body pass
  | fail {block pass fail : List Stmt} {span : Span} {condition : Expr} :
      Block body block → branch span condition pass (some fail) ∈ block → Block body fail

/-- Whether the statements of a block stand one behind the other in a text, with nested spans. -/
structure Laid (tokens : List Token) (block : List Stmt) : Prop where
  nested : ∀ stmt ∈ block, (Fragment.stmt stmt).Nested tokens
  apart : block.Pairwise fun stmt next => stmt.span.stop ≤ next.span.start

variable {tokens : List Token} {body block : List Stmt} {stmt : Stmt} {span : Span}
  {excused : Nat → String → Prop}

/-- Statements that are children of a fragment with nested spans. -/
theorem Laid.of_children {fragment : Fragment} (h : fragment.Nested tokens)
    (hblock : (block.map Fragment.stmt).Sublist fragment.children) : Laid tokens block where
  nested _ hstmt := h.forall_children _ (hblock.subset (List.mem_map_of_mem hstmt))
  apart := List.pairwise_map.mp (h.orderly.apart.sublist hblock)

/-- Two different statements of a block are apart. -/
theorem Laid.apart_of_ne (h : Laid tokens block) {other : Stmt} (hother : other ∈ block)
    (hstmt : stmt ∈ block) (hne : other ≠ stmt) : other.span.Apart stmt.span := by
  have hapart : block.Pairwise fun s next => s.span.Apart next.span := h.apart.imp .inl
  have : Std.Symm fun s next : Stmt => s.span.Apart next.span := ⟨fun _ _ => Span.Apart.symm⟩
  exact hapart.forall hother hstmt hne

/-- What is laid out in a body is laid out in all its blocks. -/
theorem Block.laid (h : Block body block) (hbody : Laid tokens body) : Laid tokens block := by
  induction h with
  | body => exact hbody
  | pass _ hmem ih =>
    refine .of_children (ih.nested _ hmem) ?_
    exact (List.sublist_append_left _ _).trans ((List.Sublist.refl _).cons _)
  | fail _ hmem ih =>
    refine .of_children (ih.nested _ hmem) ?_
    exact (List.sublist_append_right _ _).cons _

/-! ### From the inside out -/

/-- A block passes the rule if each of its statements does, whatever is known. -/
theorem definiteAll_of_forall (h : ∀ stmt ∈ block, ∀ known, stmt.Definite excused known) :
    ∀ known, DefiniteAll excused known block := by
  induction block with
  | nil => exact fun known => trivial
  | cons stmt rest ih =>
    obtain ⟨hstmt, hrest⟩ := List.forall_mem_cons.mp h
    exact fun known => ⟨hstmt known, ih hrest _⟩

/-- How the parts of a branch lie: the condition in front of the arms, one arm in front of the
other, and the arms inside the branch. -/
theorem laid_of_branch {condition : Expr} {pass : List Stmt} {fail : Option (List Stmt)}
    {whole : Span} (h : (Fragment.stmt (.branch whole condition pass fail)).Nested tokens) :
    (Fragment.expr condition).Nested tokens ∧
      (∀ stmt, stmt ∈ pass ∨ stmt ∈ fail.getD [] → (Fragment.stmt stmt).Nested tokens ∧
        stmt.span.Inside whole ∧ condition.span.Apart stmt.span) ∧
      ∀ stmt ∈ pass, ∀ other ∈ fail.getD [], stmt.span.Apart other.span := by
  have hapart := h.orderly.apart
  simp only [Fragment.children, List.cons_append, List.pairwise_cons, List.pairwise_append,
    List.forall_mem_append, List.forall_mem_map] at hapart
  obtain ⟨⟨hpass, hfail⟩, -, -, harms⟩ := hapart
  refine ⟨h.forall_children _ (by simp [Fragment.children]), fun stmt hstmt => ?_,
    fun stmt hstmt other hother => .inl (harms stmt hstmt other hother)⟩
  have hchild : .stmt stmt ∈ (Fragment.stmt (.branch whole condition pass fail)).children := by
    simpa [Fragment.children] using hstmt
  refine ⟨h.forall_children _ hchild, h.inside (.child (.self _) hchild), .inl ?_⟩
  exact hstmt.elim (hpass stmt) (hfail stmt)

section
variable (hexcused : ∀ offset name, ¬ span.Contains offset → excused offset name)
include hexcused

/-- A statement passes the rule if it is apart from the text in question. -/
theorem definite_of_apart (h : (Fragment.stmt stmt).Nested tokens)
    (hapart : stmt.span.Apart span) : ∀ known, stmt.Definite excused known :=
  fun known => definite_of_covered stmt (h.covered hapart hexcused known)

/-- A block passes the rule if that statement does which the text in question is in. -/
theorem Laid.definiteAll (h : Laid tokens block) (hstmt : stmt ∈ block)
    (hinside : span.Inside stmt.span) (hdefinite : ∀ known, stmt.Definite excused known) :
    ∀ known, DefiniteAll excused known block := by
  refine definiteAll_of_forall fun other hother => ?_
  by_cases heq : other = stmt
  · rw [heq]
    exact hdefinite
  · have hapart := (h.apart_of_ne hother hstmt heq).of_inside hinside
    exact definite_of_apart hexcused (h.nested other hother) hapart

/-- A branch passes the rule if its passing arm does, and the text in question is there. -/
theorem definite_of_pass {condition : Expr} {pass : List Stmt} {fail : Option (List Stmt)}
    {whole : Span} (h : (Fragment.stmt (.branch whole condition pass fail)).Nested tokens)
    (hstmt : stmt ∈ pass) (hinside : span.Inside stmt.span)
    (hpass : ∀ known, DefiniteAll excused known pass) :
    ∀ known, (branch whole condition pass fail).Definite excused known := by
  obtain ⟨hcondition, hparts, harms⟩ := laid_of_branch h
  intro known
  refine ⟨?_, hpass known, definiteOption_of_covered fail fun other hother => ?_⟩
  · have hapart := (hparts stmt (.inl hstmt)).2.2.of_inside hinside
    exact hcondition.covered hapart hexcused known
  · have hapart := (harms stmt hstmt other hother).symm.of_inside hinside
    exact (hparts other (.inr hother)).1.covered hapart hexcused known

/-- A branch passes the rule if its failing arm does, and the text in question is there. -/
theorem definite_of_fail {condition : Expr} {pass fail : List Stmt} {whole : Span}
    (h : (Fragment.stmt (.branch whole condition pass (some fail))).Nested tokens)
    (hstmt : stmt ∈ fail) (hinside : span.Inside stmt.span)
    (hfail : ∀ known, DefiniteAll excused known fail) :
    ∀ known, (branch whole condition pass (some fail)).Definite excused known := by
  obtain ⟨hcondition, hparts, harms⟩ := laid_of_branch h
  intro known
  refine ⟨?_, definiteAll_of_covered pass fun other hother => ?_, hfail known⟩
  · have hapart := (hparts stmt (.inr hstmt)).2.2.of_inside hinside
    exact hcondition.covered hapart hexcused known
  · have hapart := (harms other hother stmt hstmt).of_inside hinside
    exact (hparts other (.inl hother)).1.covered hapart hexcused known

/-- A body passes the rule if that block does which the text in question is in. The induction leads
from the block to the body, and the statement that the text is in grows with it. -/
theorem Block.definiteAll (h : Block body block) (hbody : Laid tokens body) (hstmt : stmt ∈ block)
    (hinside : span.Inside stmt.span) (hdefinite : ∀ known, DefiniteAll excused known block) :
    ∀ known, DefiniteAll excused known body := by
  induction h generalizing stmt with
  | body => exact hdefinite
  | pass hblock hmem ih =>
    have hlaid := hblock.laid hbody
    have hnested := hlaid.nested _ hmem
    have hwhole := hinside.trans ((laid_of_branch hnested).2.1 stmt (.inl hstmt)).2.1
    have hbranch := definite_of_pass hexcused hnested hstmt hinside hdefinite
    exact ih hmem hwhole (hlaid.definiteAll hexcused hmem hwhole hbranch)
  | fail hblock hmem ih =>
    have hlaid := hblock.laid hbody
    have hnested := hlaid.nested _ hmem
    have hwhole := hinside.trans ((laid_of_branch hnested).2.1 stmt (.inr hstmt)).2.1
    have hbranch := definite_of_fail hexcused hnested hstmt hinside hdefinite
    exact ih hmem hwhole (hlaid.definiteAll hexcused hmem hwhole hbranch)

end

/-- A block passes the rule if each of its statements does up to one that assigns a variable, and
those behind it do when that variable is known. -/
theorem definiteAll_of_assigned {before after : List Stmt} {first : Stmt} {v : String}
    (hbefore : ∀ stmt ∈ before, ∀ known, stmt.Definite excused known)
    (hfirst : ∀ known, first.Definite excused known) (hv : first.assigned? = some v)
    (hafter : ∀ known, v ∈ known → DefiniteAll excused known after) :
    ∀ known, DefiniteAll excused known (before ++ first :: after) := by
  induction before with
  | nil => exact fun known => ⟨hfirst known, hafter _ (by simp [hv])⟩
  | cons stmt before ih =>
    obtain ⟨hstmt, hbefore⟩ := List.forall_mem_cons.mp hbefore
    exact fun known => ⟨hstmt known, ih hbefore _⟩

/-- A block passes the rule if only one variable matters and that is known. -/
theorem definiteAll_of_known {v : String}
    (hexcused : ∀ offset name, name ≠ v → excused offset name) {known : List String}
    (hv : v ∈ known) (block : List Stmt) : DefiniteAll excused known block := by
  refine definiteAll_of_covered block fun s _ inner _ offset name _ => ?_
  by_cases hname : name = v
  · exact .inr (hname ▸ hv)
  · exact .inl (hexcused offset name hname)

/-- A body passes the rule for one variable and one statement, if an earlier statement of the same
block assigns the variable. -/
theorem Block.definiteAll_of_dominated {before after : List Stmt} {first : Stmt} {v : String}
    (h : Block body (before ++ first :: after)) (hbody : Laid tokens body)
    (hv : first.assigned? = some v) (hstmt : stmt ∈ after)
    (hexcused : ∀ offset name, ¬ (name = v ∧ stmt.span.Contains offset) → excused offset name) :
    ∀ known, DefiniteAll excused known body := by
  have hlaid := h.laid hbody
  have hmem : stmt ∈ before ++ first :: after := by simp [hstmt]
  have hother : ∀ offset name, ¬ stmt.span.Contains offset → excused offset name :=
    fun offset name hoffset => hexcused offset name fun hread => hoffset hread.2
  refine h.definiteAll hother hbody hmem ⟨Nat.le_refl _, Nat.le_refl _⟩ ?_
  -- What stands in front of the statement is apart from it, and so are its reads.
  have hfront : ∀ s ∈ before ++ [first], ∀ known, s.Definite excused known := by
    intro s hs
    have happend : before ++ first :: after = (before ++ [first]) ++ after := by simp
    have hapart := hlaid.apart
    rw [happend, List.pairwise_append] at hapart
    refine definite_of_apart hother (hlaid.nested s ?_) (.inl (hapart.2.2 s hs stmt hstmt))
    rw [happend]
    exact List.mem_append_left _ hs
  have hbefore : ∀ s ∈ before, ∀ known, s.Definite excused known :=
    fun s hs => hfront s (List.mem_append_left _ hs)
  refine definiteAll_of_assigned hbefore (hfront first (by simp)) hv fun known hknown => ?_
  exact definiteAll_of_known (fun offset name hne => hexcused offset name fun hread => hne hread.1)
    hknown after

end Stmt

/-! ### Exposed reads -/

mutual

/-- Where an expression reads a variable. -/
def Expr.readsOf (v : String) : Expr → List Nat
  | .number .. => []
  | .newArray _ es | .list _ es | .call _ _ es => Expr.readsOfAll v es
  | .var span name indices =>
    (if name = v then [span.start] else []) ++ Expr.readsOfAll v indices
  | .unary _ _ operand => operand.readsOf v
  | .binary _ _ left right => left.readsOf v ++ right.readsOf v

/-- Where some expressions read a variable. -/
def Expr.readsOfAll (v : String) : List Expr → List Nat
  | [] => []
  | e :: es => e.readsOf v ++ Expr.readsOfAll v es

end

namespace Stmt

mutual

/-- Where a statement reads a variable and no assignment inside it dominates. -/
def exposed (v : String) : Stmt → List Nat
  | .branch _ condition pass fail =>
    condition.readsOf v ++ exposedAll v pass ++ exposedOption v fail
  | .assign _ target value =>
    (if target.indices.isEmpty then [] else target.read.readsOf v) ++ value.readsOf v
  | .update _ _ target value => target.read.readsOf v ++ value.readsOf v
  | .ret _ value => value.readsOf v

/-- Where a block reads a variable and no assignment inside it dominates. Behind the first of its
statements that assigns the variable there is no such read. -/
def exposedAll (v : String) : List Stmt → List Nat
  | [] => []
  | stmt :: rest => stmt.exposed v ++ if stmt.assigned? = some v then [] else exposedAll v rest

/-- Companion for a block that may be absent. -/
def exposedOption (v : String) : Option (List Stmt) → List Nat
  | none => []
  | some block => exposedAll v block

end

end Stmt

section
variable {v : String} {offsets : List Nat}

mutual

/-- An expression passes the rule if only one variable matters, and only away from some offsets that
all reads of this variable are at. -/
theorem Expr.covered_of_readsOf : ∀ (e : Expr) {known : List String}, e.readsOf v ⊆ offsets →
    (Fragment.expr e).Covered (fun offset name => name = v → offset ∈ offsets) known
  | .number .., _, _ => .of_silent rfl (List.forall_mem_nil _)
  | .newArray _ es, _, h | .list _ es, _, h | .call _ _ es, _, h =>
    .of_silent rfl (Expr.covered_of_readsOfAll es h)
  | .var span name indices, _, h => by
    rw [readsOf, List.append_subset] at h
    refine .of_children (fun offset n hread => .inl fun hname => ?_)
      (covered_of_readsOfAll indices h.2)
    obtain ⟨rfl, rfl⟩ := Prod.mk.inj (List.mem_singleton.mp hread)
    exact h.1 (by simp [hname])
  | .unary _ _ operand, _, h =>
    .of_silent rfl (List.forall_mem_singleton.mpr (operand.covered_of_readsOf h))
  | .binary _ _ left right, _, h => by
    rw [readsOf, List.append_subset] at h
    refine .of_silent rfl (List.forall_mem_cons.mpr ⟨left.covered_of_readsOf h.1, ?_⟩)
    exact List.forall_mem_singleton.mpr (right.covered_of_readsOf h.2)

/-- Companion for several expressions. -/
theorem Expr.covered_of_readsOfAll : ∀ (es : List Expr) {known : List String},
    Expr.readsOfAll v es ⊆ offsets → ∀ child ∈ es.map Fragment.expr,
      child.Covered (fun offset name => name = v → offset ∈ offsets) known
  | [], _, _ => List.forall_mem_nil _
  | e :: es, _, h => by
    rw [readsOfAll, List.append_subset] at h
    exact List.forall_mem_cons.mpr ⟨e.covered_of_readsOf h.1, covered_of_readsOfAll es h.2⟩

end

/-- The same for the target of an assignment, which is read unless it is a variable as a whole. -/
theorem Target.covered_of_readsOf {target : Target} {known : List String}
    (h : (if target.indices.isEmpty then [] else target.read.readsOf v) ⊆ offsets) :
    (Fragment.target target).Covered (fun offset name => name = v → offset ∈ offsets) known := by
  split at h
  next hindices =>
    have hreads : (Fragment.target target).reads = [] := if_pos hindices
    refine .of_silent hreads fun child hchild => ?_
    simp [Fragment.children, List.isEmpty_iff.mp hindices] at hchild
  next => exact .target_of_read (target.read.covered_of_readsOf h)

namespace Stmt

mutual

/-- A statement passes the rule if only one variable matters, and only away from some offsets that
all exposed reads of this variable are at. -/
theorem definite_of_exposed : ∀ (stmt : Stmt) {known : List String}, stmt.exposed v ⊆ offsets →
    stmt.Definite (fun offset name => name = v → offset ∈ offsets) known
  | .branch _ condition pass fail, _, h => by
    rw [exposed, List.append_subset, List.append_subset] at h
    obtain ⟨⟨hcondition, hpass⟩, hfail⟩ := h
    exact ⟨condition.covered_of_readsOf hcondition, definiteAll_of_exposed pass hpass,
      definiteOption_of_exposed fail hfail⟩
  | .assign _ target value, _, h => by
    rw [exposed, List.append_subset] at h
    refine .of_silent rfl (List.forall_mem_cons.mpr ⟨Target.covered_of_readsOf h.1, ?_⟩)
    exact List.forall_mem_singleton.mpr (value.covered_of_readsOf h.2)
  | .update _ _ target value, known, h => by
    rw [exposed, List.append_subset] at h
    have hread : (Fragment.expr target.read).Covered _ known := target.read.covered_of_readsOf h.1
    -- The statement reads the target itself, besides what its parts read.
    refine .of_children (hread (.expr target.read) (.self _)) ?_
    refine List.forall_mem_cons.mpr ⟨.target_of_read hread, ?_⟩
    exact List.forall_mem_singleton.mpr (value.covered_of_readsOf h.2)
  | .ret _ value, _, h =>
    .of_silent rfl (List.forall_mem_singleton.mpr (value.covered_of_readsOf h))

/-- Companion for a block. -/
theorem definiteAll_of_exposed : ∀ (block : List Stmt) {known : List String},
    exposedAll v block ⊆ offsets →
      DefiniteAll (fun offset name => name = v → offset ∈ offsets) known block
  | [], _, _ => trivial
  | stmt :: rest, known, h => by
    rw [exposedAll, List.append_subset] at h
    refine ⟨definite_of_exposed stmt h.1, ?_⟩
    by_cases hv : stmt.assigned? = some v
    · have hknown : v ∈ stmt.assigned?.toList ++ known := by simp [hv]
      exact definiteAll_of_known (fun _ _ hne heq => absurd heq hne) hknown rest
    · rw [if_neg hv] at h
      exact definiteAll_of_exposed rest h.2

/-- Companion for a block that may be absent. -/
theorem definiteOption_of_exposed : ∀ (block : Option (List Stmt)) {known : List String},
    exposedOption v block ⊆ offsets →
      DefiniteOption (fun offset name => name = v → offset ∈ offsets) known block
  | none, _, _ => trivial
  | some block, _, h => definiteAll_of_exposed block h

end

end Stmt

end

/-! ### Programs -/

/-- Whether some call that a host can make fails in a function of a given name, at a given offset,
because a variable has no value there. -/
def Program.FailsToRead (p : Program) (function : String) (offset : Nat) (v : String) : Prop :=
  ∃ name args heap e heap', p.invoke name args heap = .error e heap' ∧
    e.function = some function ∧ e.cause = .uninitialized v ∧ e.position.offset = offset

/-- In a function whose body passes the rule only reads fail that are excused. -/
theorem Program.Built.excused_of_failsToRead {file : String} {decls : List Decl} {p : Program}
    (h : Built file decls p) {decl : Decl} (hdecl : decl ∈ decls) (excused : Nat → String → Prop)
    (hbody : Stmt.DefiniteAll excused (decl.params.map Param.name) decl.body) {offset : Nat}
    {v : String} (hfails : p.FailsToRead decl.name offset v) : excused offset v := by
  obtain ⟨name, args, heap, e, heap', hrun, hfunction, hcause, rfl⟩ := hfails
  refine h.excused_invoke (fun function offset n => function = decl.name → excused offset n) ?_
    name args heap e heap' hrun decl.name v hfunction hcause rfl
  intro other hother
  by_cases hname : other.name = decl.name
  · have hnodup : (decls.map Decl.name).Nodup := h.names_eq ▸ h.nodup_names
    rw [List.inj_on_of_nodup_map hnodup hother hdecl hname]
    simpa using hbody
  · -- What other functions read is excused.
    refine Stmt.definiteAll_of_covered other.body fun s _ inner _ offset n _ => .inl ?_
    exact fun heq => absurd heq hname

namespace Program

variable {file : String} {decls : List Decl} {p : Program}

/-- In a text, where offsets tell reads apart, no read fails in a statement that stands behind an
assignment to its variable in some block. -/
theorem Built.not_failsToRead_of_dominated (h : Built file decls p) {source : Source}
    (hsource : source.decls = .ok decls) {decl : Decl} (hdecl : decl ∈ decls) {v : String}
    {before after : List Stmt} {first stmt : Stmt}
    (hblock : Stmt.Block decl.body (before ++ first :: after)) (hv : first.assigned? = some v)
    (hstmt : stmt ∈ after) {inner : Fragment} (hinner : Fragment.Occurs [.stmt stmt] inner)
    {offset : Nat} (hread : (offset, v) ∈ inner.reads) : ¬ p.FailsToRead decl.name offset v := by
  intro hfails
  obtain ⟨tokens, hscan, hparse⟩ := Source.exists_tokens hsource
  have hnested : (Fragment.decl decl).Nested tokens := Decl.nested_of_parse hscan hparse decl hdecl
  have hlaid : Stmt.Laid tokens decl.body := .of_children hnested (List.sublist_append_right _ _)
  have hlater : (Fragment.stmt stmt).Nested tokens :=
    (hblock.laid hlaid).nested stmt (by simp [hstmt])
  refine h.excused_of_failsToRead hdecl (fun offset n => ¬ (n = v ∧ stmt.span.Contains offset)) ?_
    hfails ⟨rfl, hlater.contains_read hinner hread⟩
  exact hblock.definiteAll_of_dominated hlaid hv hstmt (fun _ _ hexcused => hexcused) _

/-- A variable can be read wherever an assignment to it dominates. Let declarations make a program.
How their places are chosen does not matter to it, so one can choose them such that they tell all
reads apart. A read of a parameter never fails for want of a value, and if a read of another
variable does, then it is one that no assignment dominates. If the declarations are those of a text,
then this means that no read fails in a statement that stands, in some block of its function, behind
one that assigns the variable. -/
theorem dominated_reads_succeed (h : ofDecls file decls = .ok p) :
    (∀ decls', decls'.map (Decl.relocate .forget) = decls.map (Decl.relocate .forget) →
      ∃ p', ofDecls file decls' = .ok p' ∧ ∀ name args heap,
        Relocation.forget.result (p'.invoke name args heap)
          = Relocation.forget.result (p.invoke name args heap)) ∧
    ∀ decl ∈ decls, ∀ v,
      (v ∈ decl.params.map Param.name → ∀ offset, ¬ p.FailsToRead decl.name offset v) ∧
      (∀ offset, p.FailsToRead decl.name offset v → offset ∈ Stmt.exposedAll v decl.body) ∧
      ∀ source : Source, source.decls = .ok decls →
        ∀ before first after, Stmt.Block decl.body (before ++ first :: after) →
          first.assigned? = some v → ∀ stmt ∈ after, ∀ inner offset,
            Fragment.Occurs [.stmt stmt] inner → (offset, v) ∈ inner.reads →
            ¬ p.FailsToRead decl.name offset v := by
  have hbuilt : Built file decls p := ofDecls_ok.mp h
  refine ⟨fun decls' hsame => ?_, fun decl hdecl v => ⟨?_, ?_, ?_⟩⟩
  · obtain ⟨p', hp', hforget⟩ := exists_of_forget h hsame
    exact ⟨p', hp', forget_invoke hforget⟩
  · -- What is known of a parameter never ends, so nothing is asked of the body.
    intro hparam offset hfails
    refine hbuilt.excused_of_failsToRead hdecl (fun _ n => n ≠ v) ?_ hfails rfl
    exact Stmt.definiteAll_of_known (fun _ _ hne => hne) hparam decl.body
  · intro offset hfails
    exact hbuilt.excused_of_failsToRead hdecl _
      (Stmt.definiteAll_of_exposed decl.body (List.Subset.refl _)) hfails rfl
  · -- In a text places are distinct, and so a read behind the assignment is not one of the exposed
    -- ones.
    intro source hsource before first after hblock hv stmt hstmt inner offset hinner hread
    exact hbuilt.not_failsToRead_of_dominated hsource hdecl hblock hv hstmt hinner hread

/-- The function and the variable of an outcome that is a read without a value. -/
def unreadable? : EStateM.Result Error Heap Value → Option (String × String)
  | .error ⟨.uninitialized v, _, some function⟩ _ => some (function, v)
  | _ => none

theorem exists_failsToRead {name function v : String} {args : List Value} {heap : Heap}
    (h : unreadable? (p.invoke name args heap) = some (function, v)) :
    ∃ offset, p.FailsToRead function offset v := by
  unfold unreadable? at h
  split at h
  next position _ heap' hrun =>
    cases h
    exact ⟨position.offset, name, args, heap, _, heap', hrun, rfl, rfl, rfl⟩
  · cases h

end Program

/-- A function whose last statement reads a variable that only one arm assigns. -/
def Source.lopsided : Source :=
  ⟨"lopsided", "f(x: number) { if (x) { y = x; if (y) { return y; } } return y; }"⟩

/-- The branch behind the assignment, whose condition and arm read the variable. -/
def Stmt.lopsidedBranch : Stmt :=
  .branch ⟨31, 51⟩ (.var ⟨35, 36⟩ "y" []) [.ret ⟨40, 49⟩ (.var ⟨47, 48⟩ "y" [])] none

/-- The declaration in that text. -/
def Decl.lopsided : Decl where
  name := "f"
  params := [⟨"x", [], ⟨2, 11⟩⟩]
  body :=
    [.branch ⟨15, 53⟩ (.var ⟨19, 20⟩ "x" [])
      [.assign ⟨24, 30⟩ ⟨"y", [], ⟨24, 25⟩⟩ (.var ⟨28, 29⟩ "x" []), .lopsidedBranch] none,
    .ret ⟨54, 63⟩ (.var ⟨61, 62⟩ "y" [])]
  span := ⟨0, 65⟩

/-- Only the read in the last statement is exposed, and it fails in some run. The reads behind the
assignment do not, and without places the function is accepted as well. -/
theorem Program.dominated_reads_succeed_lopsided :
    Source.lopsided.decls = .ok [Decl.lopsided] ∧
      Stmt.exposedAll "y" Decl.lopsided.body = [61] ∧
      (∃ p', ofDecls "lopsided" [Decl.lopsided.relocate .forget] = .ok p') ∧
      ∃ p, ofDecls "lopsided" [Decl.lopsided] = .ok p ∧ p.FailsToRead "f" 61 "y" ∧
        ¬ p.FailsToRead "f" 35 "y" ∧ ¬ p.FailsToRead "f" 47 "y" ∧
        ∀ offset, ¬ p.FailsToRead "f" offset "x" := by
  have hdecls : Source.lopsided.decls = .ok [Decl.lopsided] := by
    set_option maxRecDepth 10000 in with_unfolding_all rfl
  have hexposed : Stmt.exposedAll "y" Decl.lopsided.body = [61] := by decide
  have hrun : ((ofDecls "lopsided" [Decl.lopsided]).toOption.bind fun p =>
      unreadable? (p.invoke "f" [.number 0] .empty)) = some ("f", "y") := by
    decide +kernel
  obtain ⟨p, hp, hunreadable⟩ := Option.bind_eq_some_iff.mp hrun
  have hp := eq_ok_of_toOption hp
  obtain ⟨hplaces, hreads⟩ := dominated_reads_succeed hp
  obtain ⟨p', hp', -⟩ := hplaces [Decl.lopsided.relocate .forget] rfl
  have hmem : Decl.lopsided ∈ [Decl.lopsided] := List.mem_singleton_self _
  obtain ⟨-, hfails, htext⟩ := hreads _ hmem "y"
  obtain ⟨offset, hoffset⟩ := exists_failsToRead hunreadable
  have hlast : offset = 61 := by simpa [hexposed] using hfails offset hoffset
  refine ⟨hdecls, hexposed, ⟨p', hp'⟩, p, hp, hlast ▸ hoffset, fun h => ?_, ?_, ?_⟩
  · exact absurd (hfails 35 h) (by decide)
  · -- The arm of the branch is nested in a statement behind the assignment.
    refine htext _ hdecls [] _ [.lopsidedBranch] (.pass .body List.mem_cons_self) rfl _
      (List.mem_singleton_self _) (.expr (.var ⟨47, 48⟩ "y" [])) 47 ?_ (List.mem_singleton_self _)
    exact .child (.child (.self _) (List.mem_cons_of_mem _ List.mem_cons_self)) List.mem_cons_self
  · exact (hreads _ hmem "x").1 (List.mem_singleton_self _)

end ArrayScript
