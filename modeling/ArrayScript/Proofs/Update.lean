import ArrayScript.Proofs.Extension
import ArrayScript.Proofs.Lowering

/-!
# `ArrayScript.Proofs.Update`: a compound assignment updates one cell

A compound assignment is written out as a plain one, in which the target occurs twice: once where it
is read, and once where it is assigned. The indices of the target are evaluated both times. Unless
they call functions, both times lead to the same place, and neither the indices nor the value change
anything that was there before. The statement then does to the state what it seems to do
(`Setting.update_changes_one`): one cell, or one variable, gets a new value, which comes from its
old value and the value on the right, and nothing else changes.

* `Setting.step_update_inv`: what analysis makes of a compound assignment whose indices and value
  call builtins only. The indices are analysed twice and have the same code both times.
* `Update.Finds` says what there has to be in the state before: numbers for the indices and for the
  value, and a number where the indices lead to.
* `Update.exec_of_finds` and `Update.exec_of_not_finds`: this decides whether the statement
  succeeds, and the results are those of `ArrayScript.Proofs.Extension`, which are steady.
-/

set_option autoImplicit false

namespace ArrayScript

open Code (Term Step State Flow Execution)

/-! ### Analysis -/

namespace Setting

variable {s : Setting} {d d' : Draft}

/-- Whether all calls in a text are calls of builtins. -/
def CallsBuiltins (s : Setting) (marks : List Mark) : Prop :=
  ∀ (offset : Nat) (name : String), Mark.call offset name ∈ marks →
    name ≠ s.name ∧ (Builtin.find? name).isSome = true

theorem callsBuiltins_append {marks marks' : List Mark} :
    s.CallsBuiltins (marks ++ marks') ↔ s.CallsBuiltins marks ∧ s.CallsBuiltins marks' := by
  constructor
  · intro h
    exact ⟨fun offset name hmem => h offset name (List.mem_append_left _ hmem),
      fun offset name hmem => h offset name (List.mem_append_right _ hmem)⟩
  · rintro ⟨h, h'⟩ offset name hmem
    rcases List.mem_append.mp hmem with hmem | hmem
    · exact h offset name hmem
    · exact h' offset name hmem

/-- The code of a text that calls builtins only calls builtins only. Expressions have no branches
in them. -/
theorem builtin_of_lowers {nodes : List Code.Node} {marks : List Mark}
    (hlowers : List.Forall₂ s.Lowers nodes marks) (hmarks : s.CallsBuiltins marks)
    (hbranches : marks.countP Mark.isBranch = 0) : ∀ node ∈ nodes, node.builtin = true := by
  induction hlowers with
  | nil => simp
  | @cons node mark nodes marks hfirst _ ih =>
    rw [List.countP_cons, Nat.add_eq_zero_iff] at hbranches
    have hrest : s.CallsBuiltins marks :=
      fun offset name hmem => hmarks offset name (List.mem_cons_of_mem _ hmem)
    refine List.forall_mem_cons.mpr ⟨?_, ih hrest hbranches.1⟩
    cases hfirst with
    | branch offset => simp [Mark.isBranch] at hbranches
    | self offset => exact absurd rfl (hmarks offset _ List.mem_cons_self).1
    | builtin offset hname hentry => rfl
    | user offset hname hentry =>
      -- A name that a builtin has cannot stand for a function of the program.
      have hfind := (hmarks offset _ List.mem_cons_self).2
      rw [Program.builtin_find?_of_user hentry] at hfind
      cases hfind

mutual

/-- An expression that calls builtins only leaves the draft as it is: builtins are not counted. -/
theorem term_draft_eq :
    ∀ (e : Expr) {d d' : Draft} {t : Term}, s.CallsBuiltins e.marks →
      s.term e d = .ok (t, d') → d' = d
  | .number _ _, d, d', t, _, h => (term_number_ok.mp h).2
  | .newArray _ sizes, d, d', t, hmarks, h => by
    obtain ⟨ts, hts, -⟩ := term_newArray_ok.mp h
    exact terms_draft_eq sizes hmarks hts
  | .list _ [], d, d', t, _, h => (term_list_nil_ok.mp h).elim
  | .list _ (first :: rest), d, d', t, hmarks, h => by
    obtain ⟨u, d₁, us, hu, hus, -⟩ := term_list_ok.mp h
    rw [Expr.marks, Expr.marksAll, callsBuiltins_append] at hmarks
    rw [terms_draft_eq rest hmarks.2 hus, term_draft_eq first hmarks.1 hu]
  | .var _ _ indices, d, d', t, hmarks, h => by
    obtain ⟨v, ts, -, -, hts, -, -⟩ := term_var_ok.mp h
    exact terms_draft_eq indices hmarks hts
  | .call span name args, d, d', t, hmarks, h => by
    obtain ⟨target, result, ts, d₁, htarget, -, -, hts, hcount, -⟩ := term_call_ok.mp h
    rw [Expr.marks, callsBuiltins_append] at hmarks
    -- A builtin has no score, so the call is not counted.
    have hscore : target.signature.score = none := by
      obtain ⟨hname, hbuiltin⟩ := hmarks.2 span.start name (List.mem_singleton_self _)
      obtain ⟨b, hb⟩ := Option.isSome_iff_exists.mp hbuiltin
      have hentry : s.program.entry? name = some (.builtin b) := by
        unfold Program.entry?
        rw [hb]
      rw [Setting.target, if_neg hname, hentry] at htarget
      cases htarget
      rfl
    rw [hscore] at hcount
    obtain rfl : d' = d₁ := hcount
    exact terms_draft_eq args hmarks.1 hts
  | .unary _ _ operand, d, d', t, hmarks, h => by
    obtain ⟨u, hu, -, -⟩ := term_unary_ok.mp h
    exact term_draft_eq operand hmarks hu
  | .binary _ _ left right, d, d', t, hmarks, h => by
    obtain ⟨u, d₁, w, hu, -, hw, -, -⟩ := term_binary_ok.mp h
    rw [Expr.marks, callsBuiltins_append] at hmarks
    rw [term_draft_eq right hmarks.2 hw, term_draft_eq left hmarks.1 hu]

/-- Companion for several expressions. -/
theorem terms_draft_eq :
    ∀ (es : List Expr) {test : Test} {index : Nat} {d d' : Draft} {ts : List Term},
      s.CallsBuiltins (Expr.marksAll es) → s.terms test index es d = .ok (ts, d') → d' = d
  | [], test, index, d, d', ts, _, h => (terms_nil_ok.mp h).2
  | e :: es, test, index, d, d', ts, hmarks, h => by
    obtain ⟨t, d₁, us, ht, -, hus, -⟩ := terms_cons_ok.mp h
    rw [Expr.marksAll, callsBuiltins_append] at hmarks
    rw [terms_draft_eq es hmarks.2 hus, term_draft_eq e hmarks.1 ht]

end

/-- The code of a compound assignment whose indices and value call builtins only. The target is a
variable, and its indices have the same code where it is read and where it is assigned, because the
analysis of the one leaves no trace for the other. -/
theorem step_update_inv {last : Bool} {span : Span} {op : CompoundOp} {target : Target}
    {value : Expr} {step : Step}
    (h : s.step last (.update span op target value) d = .ok (step, d'))
    (hindices : s.CallsBuiltins (Expr.marksAll target.indices))
    (hvalue : s.CallsBuiltins value.marks) :
    ∃ v ty indices t, d.scope.find? target.name = some v ∧
      s.terms (indexTest target.name) 0 target.indices d = .ok (indices, d) ∧
      s.term value d = .ok (t, d) ∧
      step = .assign target.span.start target.name v.slot indices
        (.binary span.start op.longhand
          (.slot target.span.start target.name v.slot ty indices) t) := by
  rw [step_update_ok] at h
  obtain ⟨u, d₁, hu, hcase⟩ := assign_ok.mp h
  obtain ⟨left, d₂, t, hleft, -, ht, -, rfl⟩ := term_binary_ok.mp hu
  obtain ⟨v, indices, hfind, -, hread, -, rfl⟩ := term_var_ok.mp hleft
  -- Nothing changes the draft, so it is the same one at each of the three places.
  obtain rfl := terms_draft_eq target.indices hindices hread
  obtain rfl := term_draft_eq value hvalue ht
  rcases hcase with ⟨hnone, -⟩ | ⟨w, indices', hfind', -, hassign, -, -, rfl⟩
  · rw [hfind] at hnone
    cases hnone
  · rw [hfind] at hfind'
    rw [hread] at hassign
    cases hfind'
    cases hassign
    exact ⟨v, _, indices, t, hfind, hread, ht, rfl⟩

end Setting

/-! ### Cells -/

namespace Heap

/-- Where a path leads to a value from an array, there is a cell that holds the value: all indices
but the last lead to an array, and the last picks a cell of it. -/
theorem exists_cell_of_walk {h : Heap} {v w : Value} {front : List Float} {last : Float}
    (hwalk : h.walk v (front ++ [last]) = .ok w) :
    ∃ (container : Value) (cell : Cell) (items : Array Value),
      h.walk v front = .ok container ∧ h.cell container last = .ok cell ∧
        h.arrays[cell.ref]? = some items ∧ items[cell.index]? = some w := by
  -- The last step of the walk is a reading of an element, and what it reads from is the container.
  -- All branches in which that fails are excluded by the result.
  have hsplit : h.walk v front >>= (fun container => h.element container last) = .ok w := by
    simpa [walk, List.foldlM_append] using hwalk
  cases hcontainer : h.walk v front with
  | error cause =>
    rw [hcontainer] at hsplit
    cases hsplit
  | ok container =>
    rw [hcontainer] at hsplit
    replace hsplit : h.element container last = .ok w := hsplit
    unfold element at hsplit
    cases container with
    | number x => cases hsplit
    | array ref =>
      cases hitems : h.arrays[ref]? with
      | none =>
        simp only [items?, hitems] at hsplit
        cases hsplit
      | some items =>
        simp only [items?, hitems] at hsplit
        cases hindex : Number.toIndex last items.size with
        | error cause =>
          simp only [hindex] at hsplit
          cases hsplit
        | ok i =>
          simp only [hindex] at hsplit
          cases hsplit
          refine ⟨.array ref, ⟨ref, i⟩, items, rfl, ?_, hitems, ?_⟩
          · simp only [cell, hitems, hindex]
            rfl
          · simp

/-- Whether the arrays of a heap have all stayed as they were but for one cell. It is the cell that
a path leads to from a value, it has held `x`, and holds `new` now. -/
def ChangesCell (h : Heap) (v : Value) (path : List Float) (x new : Float) (h' : Heap) : Prop :=
  ∃ (front : List Float) (last : Float) (container : Value) (cell : Cell) (items : Array Value),
    path = front ++ [last] ∧ h.walk v front = .ok container ∧ h.cell container last = .ok cell ∧
    h.arrays[cell.ref]? = some items ∧ items[cell.index]? = some (.number x) ∧
    ∀ (ref : Nat) (old : Array Value), h.arrays[ref]? = some old →
      h'.arrays[ref]? = some
        (if ref = cell.ref then old.setIfInBounds cell.index (.number new) else old)

end Heap

/-! ### Execution -/

/-- A compound assignment computes its result from both operands. -/
theorem CompoundOp.shortcut?_longhand (op : CompoundOp) (x : Float) :
    op.longhand.shortcut? x = none := by
  cases op <;> rfl

namespace Code.Execution

variable {α β : Type} {run : Frame → Run α} {k : α → Execution β} {frame : Frame}
  {heap heap' : Heap}

theorem ofRun_bind_of_ok {a : α} (h : run frame heap = .ok a heap') :
    (ofRun run >>= k) ⟨frame, heap⟩ = k a ⟨frame, heap'⟩ := by
  show EStateM.bind (ofRun run) k ⟨frame, heap⟩ = k a ⟨frame, heap'⟩
  unfold EStateM.bind ofRun
  dsimp only
  rw [h]

theorem ofRun_bind_of_error {e : Error} (h : run frame heap = .error e heap') :
    (ofRun run >>= k) ⟨frame, heap⟩ = .error e ⟨frame, heap'⟩ := by
  show EStateM.bind (ofRun run) k ⟨frame, heap⟩ = .error e ⟨frame, heap'⟩
  unfold EStateM.bind ofRun
  dsimp only
  rw [h]

end Code.Execution

namespace Update

section
variable {site : Site} {frame : Frame} {heap : Heap} {offset opOffset slot : Nat} {op : BinaryOp}
  {indices : List Term} {t : Term} {base : Value} {path : Except Error (List Float)}
  {old : Except Error Value} {operand : Except Error Float}

/-- The old value of the target is steady: the indices are, and what they lead to was there. -/
theorem steady_old (name : String) (ty : Ty) (hclosed : heap.Closed)
    (hbase : frame[slot]? = some (some base)) (hknows : heap.Knows base)
    (hpath : heap.Steady (Code.evalNumbers site frame offset indices) path) :
    heap.Steady ((Term.slot offset name slot ty indices).eval site frame)
      (path >>= fun xs => (heap.walk base xs).mapError (site.error offset)) := by
  have hread : site.read frame offset name slot = pure base := by
    unfold Site.read
    rw [hbase]
  rw [Term.eval, hread, pure_bind]
  refine hpath.bind fun xs _ => ?_
  exact .attempt_get offset fun h₁ hext => hext.walk_eq hclosed xs hknows

/-- The new value is steady, if the operands are. -/
theorem steady_new {left : Term} (hop : ∀ x, op.shortcut? x = none)
    (hold : heap.Steady (left.eval site frame) old)
    (hoperand : heap.Steady
      (t.eval site frame >>= fun v => site.attempt opOffset v.toNumber) operand) :
    heap.Steady ((Term.binary opOffset op left t).eval site frame)
      (old >>= fun v => v.toNumber.mapError (site.error opOffset) >>= fun x =>
        operand >>= fun y => .ok (.number (op.apply x y))) := by
  rw [Term.eval]
  refine hold.bind fun v _ => ?_
  refine .bind (.attempt opOffset v.toNumber) fun x _ => ?_
  simp only [hop]
  rw [← bind_assoc]
  exact hoperand.bind fun y _ => .pure _

end

/-- What a compound assignment finds in the state in front of it: the numbers that its indices
denote, what its variable holds, the number that the indices lead to from there, and the number that
its value denotes. -/
structure Finds (site : Site) (frame : Frame) (heap : Heap) (offset slot : Nat)
    (indices : List Term) (t : Term) (path : List Float) (base : Value) (x y : Float) : Prop where
  numbers : ∃ heap', Code.evalNumbers site frame offset indices heap = .ok path heap'
  holds : frame[slot]? = some (some base)
  old : heap.walk base path = .ok (.number x)
  operand : ∃ heap', t.eval site frame heap = .ok (.number y) heap'

/-- The code of a compound assignment. -/
def code (offset opOffset : Nat) (name : String) (slot : Nat) (ty : Ty) (indices : List Term)
    (op : BinaryOp) (t : Term) : Step :=
  .assign offset name slot indices (.binary opOffset op (.slot offset name slot ty indices) t)

/-- A value is written to a cell that was there before. -/
theorem writeElement_eq {site : Site} {frame : Frame} {heap heap' : Heap} {offset slot : Nat}
    {name : String} {base container : Value} {front : List Float} {last : Float} {cell : Heap.Cell}
    (hstate : State.Closed ⟨frame, heap⟩) (hext : heap.Extends heap')
    (hbase : frame[slot]? = some (some base)) (hwalk : heap.walk base front = .ok container)
    (hcell : heap.cell container last = .ok cell) (v : Value) :
    Code.writeElement site frame offset name slot front last v heap'
      = .ok () (heap'.write cell v) := by
  have hknows : heap.Knows base := hstate.frame slot base hbase
  have hread : site.read frame offset name slot = pure base := by
    unfold Site.read
    rw [hbase]
  have hwalk' : heap'.walk base front = .ok container := by
    rw [hext.walk_eq hstate.heap front hknows, hwalk]
  have hcell' : heap'.cell container last = .ok cell := by
    rw [hext.cell_eq (hstate.heap.knows_walk front hknows hwalk), hcell]
  have hattempt : site.attempt offset (.ok container) = pure container := rfl
  unfold Code.writeElement
  rw [hread, pure_bind, Program.get_bind_apply, hwalk', hattempt, pure_bind,
    Program.get_bind_apply, hcell']
  rfl

section
variable {p : Program} {f : Function} {room : Nat} {frame : Frame} {heap : Heap}
  {offset slot : Nat} {op : BinaryOp} {indices : List Term} {t : Term} {path : List Float}
  {base : Value} {x y : Float} (opOffset : Nat) (name : String) (ty : Ty)

/-- What is found in front of the statement is found again, while it runs: the new value comes from
the old value and the value on the right, as they were. -/
theorem eval_new_of_finds (hstate : State.Closed ⟨frame, heap⟩)
    (hindices : ∀ node ∈ Term.nodesAll indices, node.builtin = true)
    (hvalue : ∀ node ∈ t.nodes, node.builtin = true) (hop : ∀ x, op.shortcut? x = none)
    (h : Finds ⟨p, f, p.call room⟩ frame heap offset slot indices t path base x y) :
    ∃ heap₁ heap₂, heap.Extends heap₂ ∧
      Code.evalNumbers ⟨p, f, p.call room⟩ frame offset indices heap = .ok path heap₁ ∧
      (Term.binary opOffset op (.slot offset name slot ty indices) t).eval ⟨p, f, p.call room⟩ frame
        heap₁ = .ok (.number (op.apply x y)) heap₂ := by
  obtain ⟨rpath, hrpath⟩ := hstate.exists_steady_evalNumbers p f room offset hindices
  obtain ⟨ry, hry⟩ := hstate.exists_steady_number p f room opOffset hvalue
  obtain ⟨_, hnumbers⟩ := h.numbers
  obtain ⟨_, hoperand⟩ := h.operand
  obtain rfl := hrpath.eq_of_ok hnumbers
  obtain rfl : ry = .ok y := hry.eq_of_ok (Run.bind_ok.mpr ⟨_, _, hoperand, rfl⟩)
  obtain ⟨heap₁, hext₁, hrun₁⟩ := hrpath heap (.refl heap)
  have hold := steady_old name ty hstate.heap h.holds
    (hstate.frame slot base h.holds) hrpath
  obtain ⟨heap₂, hext₂, hrun₂⟩ := steady_new hop hold hry heap₁ hext₁
  refine ⟨heap₁, heap₂, hext₁.trans hext₂, hrun₁, ?_⟩
  rw [hrun₂]
  simp only [bind, Except.bind, h.old]
  rfl

/-- Where nothing is missing, the statement succeeds. Without indices the variable gets the new
value. With indices the cell gets it that they have led to before. -/
theorem exec_of_finds (hstate : State.Closed ⟨frame, heap⟩)
    (hindices : ∀ node ∈ Term.nodesAll indices, node.builtin = true)
    (hvalue : ∀ node ∈ t.nodes, node.builtin = true) (hop : ∀ x, op.shortcut? x = none)
    (h : Finds ⟨p, f, p.call room⟩ frame heap offset slot indices t path base x y) :
    ∃ state, (code offset opOffset name slot ty indices op t).exec ⟨p, f, p.call room⟩
        ⟨frame, heap⟩ = .ok .next state ∧
      (path = [] → base = .number x ∧ heap.Extends state.heap ∧
        state.frame = frame.setIfInBounds slot (some (.number (op.apply x y)))) ∧
      (path ≠ [] → state.frame = frame ∧
        heap.ChangesCell base path x (op.apply x y) state.heap) := by
  obtain ⟨heap₁, heap₂, hext, hpath, hnew⟩ := eval_new_of_finds opOffset name ty
    hstate hindices hvalue hop h
  rw [code, Step.exec, Execution.ofRun_bind_of_ok hpath, Execution.ofRun_bind_of_ok hnew]
  rcases path.eq_nil_or_concat' with rfl | ⟨front, last, rfl⟩
  · refine ⟨_, rfl, fun _ => ⟨?_, hext, rfl⟩, fun hne => absurd rfl hne⟩
    -- Without indices, what the variable holds is the number itself.
    have hold : Except.ok base = (.ok (.number x) : Except Cause Value) := h.old
    cases hold
    rfl
  · obtain ⟨container, cell, items, hwalk, hcell, hitems, hold⟩ :=
      Heap.exists_cell_of_walk h.old
    rw [List.getLast?_concat, List.dropLast_concat]
    dsimp only
    rw [Execution.ofRun_bind_of_ok
      (writeElement_eq hstate hext h.holds hwalk hcell (.number (op.apply x y)))]
    refine ⟨_, rfl, fun hnil => absurd hnil (by simp), fun _ => ⟨rfl, ?_⟩⟩
    refine ⟨front, last, container, cell, items, rfl, hwalk, hcell, hitems, hold, ?_⟩
    -- The indices and the value have left the old arrays alone, so only the write is to look at.
    intro ref old href
    rw [World.getElem?_write, hext ref old href]
    by_cases hsame : cell.ref = ref
    · simp [hsame]
    · rw [if_neg hsame, if_neg fun heq => hsame heq.symm]

/-- The old value of the target is steady also where there is none. Where there is one, it is what
the indices lead to in the state in front of the statement. -/
theorem exists_steady_old (slot : Nat) {site : Site} (hstate : State.Closed ⟨frame, heap⟩)
    {rpath : Except Error (List Float)}
    (hpath : heap.Steady (Code.evalNumbers site frame offset indices) rpath) :
    ∃ old, heap.Steady ((Term.slot offset name slot ty indices).eval site frame) old ∧
      ∀ v, old = .ok v → ∃ path base, rpath = .ok path ∧ frame[slot]? = some (some base) ∧
        heap.walk base path = .ok v := by
  have hnone : (∀ base, frame[slot]? ≠ some (some base)) →
      heap.Steady ((Term.slot offset name slot ty indices).eval site frame)
        (.error (site.error offset (.uninitialized name))) := by
    intro hnone heap₁ _
    refine ⟨heap₁, .refl heap₁, ?_⟩
    rw [Term.eval, Site.read]
    rcases hread : frame[slot]? with _ | _ | base
    · rfl
    · rfl
    · exact absurd hread (hnone base)
  -- A variable without a value stays so, whatever the indices do to the heap.
  by_cases hbase : ∃ base, frame[slot]? = some (some base)
  · obtain ⟨base, hbase⟩ := hbase
    refine ⟨_, steady_old name ty hstate.heap hbase (hstate.frame slot base hbase) hpath, ?_⟩
    intro v hv
    cases rpath with
    | error e => cases hv
    | ok path =>
      refine ⟨path, base, rfl, hbase, ?_⟩
      replace hv : (heap.walk base path).mapError (site.error offset) = .ok v := hv
      cases hwalk : heap.walk base path with
      | error cause =>
        rw [hwalk] at hv
        cases hv
      | ok w =>
        rw [hwalk] at hv
        cases hv
        rfl
  · refine ⟨_, hnone fun base h => hbase ⟨base, h⟩, ?_⟩
    intro v hv
    cases hv

/-- Where something is missing, the statement fails and has changed nothing that was there. -/
theorem exec_of_not_finds (hstate : State.Closed ⟨frame, heap⟩)
    (hindices : ∀ node ∈ Term.nodesAll indices, node.builtin = true)
    (hvalue : ∀ node ∈ t.nodes, node.builtin = true) (hop : ∀ x, op.shortcut? x = none)
    (h : ¬ ∃ path base x y,
      Finds ⟨p, f, p.call room⟩ frame heap offset slot indices t path base x y) :
    ∃ e heap', heap.Extends heap' ∧
      (code offset opOffset name slot ty indices op t).exec ⟨p, f, p.call room⟩ ⟨frame, heap⟩
        = .error e ⟨frame, heap'⟩ := by
  obtain ⟨rpath, hrpath⟩ := hstate.exists_steady_evalNumbers p f room offset hindices
  obtain ⟨ry, hry⟩ := hstate.exists_steady_number p f room opOffset hvalue
  obtain ⟨old, hold, holdOk⟩ := exists_steady_old name ty slot hstate hrpath
  obtain ⟨heap₁, hext₁, hrun₁⟩ := hrpath heap (.refl heap)
  rw [code, Step.exec]
  cases rpath with
  | error e => exact ⟨e, heap₁, hext₁, Execution.ofRun_bind_of_error hrun₁⟩
  | ok path =>
    obtain ⟨heap₂, hext₂, hrun₂⟩ := steady_new hop hold hry heap₁ hext₁
    rw [Execution.ofRun_bind_of_ok hrun₁]
    -- If both operands are there as numbers, then nothing is missing.
    cases old with
    | error e =>
      exact ⟨e, heap₂, hext₁.trans hext₂, Execution.ofRun_bind_of_error hrun₂⟩
    | ok v =>
      obtain ⟨path', base, hpath', hbase, hwalk⟩ := holdOk v rfl
      cases hpath'
      cases v with
      | array ref =>
        exact ⟨_, heap₂, hext₁.trans hext₂, Execution.ofRun_bind_of_error hrun₂⟩
      | number x =>
        cases ry with
        | error e =>
          exact ⟨e, heap₂, hext₁.trans hext₂, Execution.ofRun_bind_of_error hrun₂⟩
        | ok y =>
          obtain ⟨heap₃, -, hrun₃⟩ := hry heap (.refl heap)
          obtain ⟨w, heap₄, hw, hnumber⟩ := Run.bind_ok.mp hrun₃
          cases w with
          | array ref => cases hnumber
          | number _ =>
            cases hnumber
            exact absurd ⟨path, base, x, y, ⟨heap₁, hrun₁⟩, hbase, hwalk, ⟨_, hw⟩⟩ h

end

end Update

/-- There are as many numbers as terms. -/
theorem Code.length_evalNumbers {site : Site} {frame : Frame} {offset : Nat} {ts : List Term} :
    ∀ {heap heap' : Heap} {xs : List Float},
      evalNumbers site frame offset ts heap = .ok xs heap' → xs.length = ts.length := by
  induction ts with
  | nil =>
    intro heap heap' xs h
    rw [evalNumbers] at h
    cases h
    rfl
  | cons t ts ih =>
    intro heap heap' xs h
    rw [evalNumbers] at h
    obtain ⟨v, heap₁, -, h⟩ := Run.bind_ok.mp h
    obtain ⟨x, heap₂, -, h⟩ := Run.bind_ok.mp h
    obtain ⟨ys, heap₃, hys, h⟩ := Run.bind_ok.mp h
    cases h
    simp [ih hys]

/-- A compound assignment updates exactly one cell, or one variable. Let the indices of its target
and its value call no functions of the program, and let it run in any frame and heap without
dangling references, at any depth.

* It succeeds exactly if, in the state in front of it, the indices and the value denote numbers and
  the indices lead to a number.
* Without indices, the variable then holds the number that the operator makes of the old one and the
  value. The other variables are as they were, and so are all arrays.
* With indices, the cell that they lead to in the state in front of the statement then holds that
  number. All other cells of all arrays that were there are as they were, and so are the variables.
* If it fails, no variable has changed, and no array that was there.

In either case there are no dangling references behind the statement. -/
theorem Setting.update_changes_one {s : Setting} {isLast : Bool} {span : Span} {op : CompoundOp}
    {target : Target} {value : Expr} {d d' : Draft} {step : Step}
    (haccepted : s.step isLast (.update span op target value) d = .ok (step, d'))
    (hindices : s.CallsBuiltins (Expr.marksAll target.indices))
    (hvalue : s.CallsBuiltins value.marks) (p : Program) (f : Function) (room : Nat)
    {frame : Frame} {heap : Heap} (hstate : State.Closed ⟨frame, heap⟩) :
    ∃ v indices t, d.scope.find? target.name = some v ∧
      s.terms (indexTest target.name) 0 target.indices d = .ok (indices, d) ∧
      s.term value d = .ok (t, d) ∧
      ((∃ flow state, step.exec ⟨p, f, p.call room⟩ ⟨frame, heap⟩ = .ok flow state) ↔
        ∃ path base x y, Update.Finds ⟨p, f, p.call room⟩ frame heap target.span.start v.slot
          indices t path base x y) ∧
      (∀ path base x y, Update.Finds ⟨p, f, p.call room⟩ frame heap target.span.start v.slot
          indices t path base x y →
        ∀ flow state, step.exec ⟨p, f, p.call room⟩ ⟨frame, heap⟩ = .ok flow state →
        flow = .next ∧ state.Closed ∧
        (target.indices = [] → base = .number x ∧ heap.Extends state.heap ∧
          state.frame = frame.setIfInBounds v.slot (some (.number (op.combine x y)))) ∧
        (target.indices ≠ [] → state.frame = frame ∧
          heap.ChangesCell base path x (op.combine x y) state.heap)) ∧
      ∀ e state, step.exec ⟨p, f, p.call room⟩ ⟨frame, heap⟩ = .error e state →
        state.Closed ∧ state.frame = frame ∧ heap.Extends state.heap := by
  obtain ⟨v, ty, indices, t, hfind, hterms, hterm, rfl⟩ :=
    step_update_inv haccepted hindices hvalue
  have hnodes := builtin_of_lowers (terms_lowers target.indices hterms) hindices
    (Expr.countP_marksAll _)
  have hnodes' := builtin_of_lowers (term_lowers value hterm) hvalue (Expr.countP_marks _)
  have hop := op.shortcut?_longhand
  have hclosed := hstate.exec p f room (Update.code target.span.start span.start target.name v.slot
    ty indices op.longhand t)
  unfold Execution.stateAfter at hclosed
  refine ⟨v, indices, t, hfind, hterms, hterm, ⟨?_, ?_⟩, ?_, ?_⟩
  · rintro ⟨flow, state, hrun⟩
    by_contra hmissing
    obtain ⟨e, heap', -, herror⟩ := Update.exec_of_not_finds span.start
      target.name ty hstate hnodes hnodes' hop hmissing
    rw [Update.code, hrun] at herror
    cases herror
  · rintro ⟨path, base, x, y, hfinds⟩
    obtain ⟨state, hrun, -⟩ := Update.exec_of_finds span.start
      target.name ty hstate hnodes hnodes' hop hfinds
    exact ⟨.next, state, hrun⟩
  · intro path base x y hfinds flow state hrun
    obtain ⟨state', hrun', hplain, hindexed⟩ := Update.exec_of_finds span.start
      target.name ty hstate hnodes hnodes' hop hfinds
    rw [op.apply_longhand] at hplain hindexed
    rw [Update.code] at hrun' hclosed
    rw [hrun] at hrun' hclosed
    cases hrun'
    -- There are as many numbers as indices in the text.
    obtain ⟨_, hnumbers⟩ := hfinds.numbers
    have hlength : path.length = target.indices.length := by
      rw [Code.length_evalNumbers hnumbers, (terms_passed target.indices hterms).1]
    refine ⟨rfl, hclosed, fun hnil => hplain ?_, fun hne => hindexed ?_⟩
    · rw [hnil] at hlength
      exact List.length_eq_zero_iff.mp hlength
    · intro hnil
      rw [hnil] at hlength
      exact hne (List.length_eq_zero_iff.mp hlength.symm)
  · intro e state hrun
    have hmissing : ¬ ∃ path base x y, Update.Finds ⟨p, f, p.call room⟩ frame heap
        target.span.start v.slot indices t path base x y := by
      rintro ⟨path, base, x, y, hfinds⟩
      obtain ⟨state', hrun', -⟩ := Update.exec_of_finds span.start
        target.name ty hstate hnodes hnodes' hop hfinds
      rw [Update.code, hrun] at hrun'
      cases hrun'
    obtain ⟨e', heap', hext, hrun'⟩ := Update.exec_of_not_finds span.start
      target.name ty hstate hnodes hnodes' hop hmissing
    rw [Update.code] at hrun' hclosed
    rw [hrun] at hrun' hclosed
    cases hrun'
    exact ⟨hclosed, rfl, hext⟩

namespace Update

/-- The target `a[i][sizeof(a[i]) - 1]`: the last element of a row. -/
def lastOfRow : Target :=
  ⟨"a", [.var ⟨2, 3⟩ "i" [], .binary ⟨5, 21⟩ .difference
    (.call ⟨5, 17⟩ "sizeof" [.var ⟨12, 16⟩ "a" [.var ⟨14, 15⟩ "i" []]]) (.number ⟨20, 21⟩ 1)],
    ⟨0, 22⟩⟩

/-- The value `i + 5`. -/
def raised : Expr :=
  .binary ⟨26, 31⟩ .sum (.var ⟨26, 27⟩ "i" []) (.number ⟨30, 31⟩ 5)

/-- What is known about `a` and `i` in a function with these parameters. -/
def parameters : Draft :=
  ⟨⟨[⟨"i", .number, 1⟩, ⟨"a", .array [.dynamic, .dynamic], 0⟩]⟩, none, .start⟩

/-- A function with these parameters, whose body does not matter. -/
def around : Function :=
  ⟨"raise", "raise", ⟨0, 0⟩, [.array [.dynamic, .dynamic], .number], .number, .start, 2, []⟩

/-- The grid is `a`, and `i` is zero. -/
def before : State :=
  ⟨#[some (.array 1), some (.number 0)], .grid⟩

theorem closed_before : before.Closed where
  heap := by
    intro ref items hitems v hv
    have hlt : ref < 2 := (Array.getElem?_eq_some_iff.mp hitems).1
    rcases (by omega : ref = 0 ∨ ref = 1) with rfl | rfl
    · obtain rfl : #[Value.number 1, .number 2] = items := by
        simpa [before, Heap.grid] using hitems
      have hnumber : v = .number 1 ∨ v = .number 2 := by simpa using hv
      rcases hnumber with rfl | rfl
      · trivial
      · trivial
    · obtain rfl : #[Value.array 0] = items := by simpa [before, Heap.grid] using hitems
      obtain rfl : v = .array 0 := by simpa using hv
      show 0 < 2
      omega
  frame := by
    intro slot v hv
    have hlt : slot < 2 := (Array.getElem?_eq_some_iff.mp hv).1
    rcases (by omega : slot = 0 ∨ slot = 1) with rfl | rfl
    · cases hv
      show 1 < 2
      omega
    · cases hv
      trivial

/-- Whether a run has succeeded, with a given number behind the first one of the row. -/
def leaves (expected : Float) : EStateM.Result Error State Flow → Bool
  | .ok _ state =>
    match state.heap.element (.array 0) 1 with
    | .ok (.number x) => x == expected
    | _ => false
  | .error _ _ => false

/-- Whether the statement `a[i][sizeof(a[i]) - 1] op= i + 5` is accepted and succeeds on the grid,
where it leaves the expected number, which the operator makes of the old one and the value, and
changes no other cell. -/
def Turns (op : CompoundOp) (expected : Float) : Prop :=
  ∃ step d', Setting.step ⟨.empty, "raise", []⟩ false (.update ⟨0, 31⟩ op lastOfRow raised)
      parameters = .ok (step, d') ∧
    ∃ state, step.exec ⟨.empty, around, Program.empty.call 0⟩ before = .ok .next state ∧
      leaves expected (.ok .next state) = true ∧ state.frame = before.frame ∧
      ∃ base path x y, Heap.grid.ChangesCell base path x (op.combine x y) state.heap

end Update

/-- Each of the operators turns the two of the grid into something else with a five. -/
theorem Setting.update_changes_one_grid :
    Update.Turns .addition 7 ∧ Update.Turns .subtraction (-3) ∧ Update.Turns .multiplication 10 ∧
      Update.Turns .division 0.4 ∧ Update.Turns .modulo 2 := by
  suffices hturns : ∀ op expected, ((Setting.step ⟨.empty, "raise", []⟩ false
      (.update ⟨0, 31⟩ op Update.lastOfRow Update.raised) Update.parameters).toOption.any
        fun r => Update.leaves expected
          (r.1.exec ⟨.empty, Update.around, Program.empty.call 0⟩ Update.before)) = true →
      Update.Turns op expected from
    ⟨hturns _ _ (by decide +kernel), hturns _ _ (by decide +kernel), hturns _ _ (by decide +kernel),
      hturns _ _ (by decide +kernel), hturns _ _ (by decide +kernel)⟩
  intro op expected hrun
  obtain ⟨⟨step, d'⟩, hstep, hleaves⟩ := (Option.any_eq_true _ _).mp hrun
  have hindices : Setting.CallsBuiltins ⟨.empty, "raise", []⟩
      (Expr.marksAll Update.lastOfRow.indices) := by
    intro offset name hmem
    obtain ⟨-, rfl⟩ : offset = 5 ∧ name = "sizeof" := by
      simpa [Update.lastOfRow, Expr.marksAll, Expr.marks] using hmem
    decide +kernel
  have hvalue : Setting.CallsBuiltins ⟨.empty, "raise", []⟩ Update.raised.marks := by
    intro offset name hmem
    simp [Update.raised, Expr.marksAll, Expr.marks] at hmem
  obtain ⟨v, indices, t, -, -, -, hfinds, hchanges, -⟩ := update_changes_one
    (eq_ok_of_toOption hstep) hindices hvalue .empty Update.around 0 Update.closed_before
  refine ⟨step, d', eq_ok_of_toOption hstep, ?_⟩
  dsimp only at hleaves
  cases hexec : step.exec ⟨.empty, Update.around, Program.empty.call 0⟩ Update.before with
  | error e state =>
    rw [hexec] at hleaves
    cases hleaves
  | ok flow state =>
    rw [hexec] at hleaves
    obtain ⟨path, base, x, y, hfound⟩ := hfinds.mp ⟨flow, state, hexec⟩
    obtain ⟨rfl, -, -, hindexed⟩ := hchanges path base x y hfound flow state hexec
    obtain ⟨hframe, hcell⟩ := hindexed (by simp [Update.lastOfRow])
    exact ⟨state, rfl, hleaves, hframe, base, path, x, y, hcell⟩

end ArrayScript
