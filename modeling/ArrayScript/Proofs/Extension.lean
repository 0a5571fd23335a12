import ArrayScript.Proofs.Callees
import ArrayScript.Proofs.Locality

/-!
# `ArrayScript.Proofs.Extension`: expressions without calls only make arrays

An expression can change the heap in two ways. It makes arrays, and it calls functions, which can do
anything. Without calls of functions only the first is left: the heap behind the expression extends
the one in front of it (`Heap.Extends`), so that everything that was there can be read as before.

This makes it possible to evaluate an expression a second time. On an extended heap it makes its own
arrays once more, under other names, but a number comes out the same. `Heap.Steady` says this of any
run: on a heap and on all its extensions it ends with one and the same result, and extends the heap
further. Steady runs compose (`Steady.bind`), and the results of an expression that are numbers are
steady (`exists_steady_evalNumbers`, `exists_steady_number`).

The heaps in question have no dangling references. `State.Closed` says so, and `State.Closed.exec`
shows that code keeps it that way.
-/

set_option autoImplicit false

namespace ArrayScript

open Code (Term Step State)

/-! ### Heaps that gain arrays -/

namespace Heap

variable {h h₁ h₂ : Heap} {v : Value}

/-- Whether a heap has all arrays of an earlier one, as they were. It may have others too. -/
def Extends (h h' : Heap) : Prop :=
  ∀ (ref : Nat) (items : Array Value), h.arrays[ref]? = some items → h'.arrays[ref]? = some items

/-- To extend the heap, whatever the errors are. -/
def extension : Pledge Heap where
  grows := Extends
  errors _ := True
  refl _ _ _ hitems := hitems
  trans hfirst hnext ref items hitems := hnext ref items (hfirst ref items hitems)

theorem Extends.refl (h : Heap) : h.Extends h :=
  extension.refl h

theorem Extends.trans (hfirst : h.Extends h₁) (hnext : h₁.Extends h₂) : h.Extends h₂ :=
  extension.trans hfirst hnext

theorem Extends.size_le (hext : h.Extends h₁) : h.arrays.size ≤ h₁.arrays.size := by
  by_cases hsize : h.arrays.size = 0
  · omega
  · -- The last array of the one heap is still there in the other.
    have hlast : h.arrays.size - 1 < h.arrays.size := by omega
    have hitems := hext _ _ (Array.getElem?_eq_getElem hlast)
    have hlt := (Array.getElem?_eq_some_iff.mp hitems).1
    omega

/-- A new array leaves the others alone. -/
theorem extends_push (h : Heap) (items : Array Value) : h.Extends (h.push items).2 := by
  intro ref old hold
  have hlt := (Array.getElem?_eq_some_iff.mp hold).1
  rw [World.getElem?_push, if_neg (by omega)]
  exact hold

/-- So do several things that are made one after the other. -/
theorem extends_pushMany {make : Heap → Value × Heap} (hmake : ∀ h : Heap, h.Extends (make h).2) :
    ∀ (count : Nat) (items : Array Value) (h : Heap),
      h.Extends (pushMany make count items h).2 := by
  intro count
  induction count with
  | zero =>
    intro items h
    exact .refl h
  | succ count ih =>
    intro items h
    exact (hmake h).trans (ih (items.push (make h).1) (make h).2)

/-- So do new arrays of zeros. -/
theorem extends_allocate : ∀ (sizes : List Nat) (h : Heap), h.Extends (allocate sizes h).2
  | [], h => .refl h
  | [_], h => extends_push h _
  | size :: next :: sizes, h =>
    (extends_pushMany (extends_allocate (next :: sizes)) size #[] h).trans (extends_push _ _)

/-! ### Heaps without dangling references -/

/-- Whether a value is a number or an array of the heap. -/
def Knows (h : Heap) : Value → Prop
  | .number _ => True
  | .array ref => ref < h.arrays.size

/-- Whether all elements of arrays are known. -/
def Closed (h : Heap) : Prop :=
  ∀ (ref : Nat) (items : Array Value), h.arrays[ref]? = some items → ∀ v ∈ items, h.Knows v

/-- A known value has the same elements in an extended heap. -/
theorem Extends.items?_eq (hext : h.Extends h₁) (hv : h.Knows v) : h₁.items? v = h.items? v := by
  cases v with
  | number x => rfl
  | array ref =>
    have hitems := Array.getElem?_eq_getElem (show ref < h.arrays.size from hv)
    show h₁.arrays[ref]? = h.arrays[ref]?
    rw [hitems]
    exact hext ref _ hitems

/-- The elements of a known array are known. -/
theorem Closed.knows_element (hclosed : h.Closed) {x : Float} {w : Value}
    (helement : h.element v x = .ok w) : h.Knows w := by
  unfold element at helement
  cases hitems : h.items? v with
  | none =>
    rw [hitems] at helement
    cases helement
  | some items =>
    rw [hitems] at helement
    cases hindex : Number.toIndex x items.size with
    | error cause =>
      simp only [hindex] at helement
      cases helement
    | ok i =>
      simp only [hindex] at helement
      cases helement
      cases v with
      | number y => cases hitems
      | array ref => exact hclosed ref items hitems _ (Array.getElem_mem i.isLt)

/-- From a known value, a path leads to the same value in an extended heap. -/
theorem Extends.walk_eq (hext : h.Extends h₁) (hclosed : h.Closed) (path : List Float) :
    ∀ {v : Value}, h.Knows v → h₁.walk v path = h.walk v path := by
  induction path with
  | nil =>
    intro v hv
    rfl
  | cons x path ih =>
    intro v hv
    have hstep : h₁.element v x = h.element v x := by
      unfold element
      rw [hext.items?_eq hv]
    simp only [walk, List.foldlM_cons, hstep]
    cases helement : h.element v x with
    | error cause => rfl
    | ok w => exact ih (hclosed.knows_element helement)

/-- From a known value, a path leads to a known value. -/
theorem Closed.knows_walk (hclosed : h.Closed) (path : List Float) :
    ∀ {v w : Value}, h.Knows v → h.walk v path = .ok w → h.Knows w := by
  induction path with
  | nil =>
    intro v w hv hwalk
    cases hwalk
    exact hv
  | cons x path ih =>
    intro v w hv hwalk
    simp only [walk, List.foldlM_cons] at hwalk
    cases helement : h.element v x with
    | error cause =>
      rw [helement] at hwalk
      cases hwalk
    | ok u =>
      rw [helement] at hwalk
      exact ih (hclosed.knows_element helement) hwalk

/-- A known array has the same cells in an extended heap. -/
theorem Extends.cell_eq (hext : h.Extends h₁) (hv : h.Knows v) (x : Float) :
    h₁.cell v x = h.cell v x := by
  cases v with
  | number y => rfl
  | array ref =>
    have hitems : h₁.arrays[ref]? = h.arrays[ref]? := hext.items?_eq hv
    simp only [cell, hitems]

end Heap

/-! ### Code without calls of functions -/

/-- Whether a node of code is a call of a builtin. -/
def Code.Node.builtin : Code.Node → Bool
  | .call _ _ (.builtin _) => true
  | _ => false

namespace Heap

variable {site : Site} {frame : Frame}

theorem ends_attempt {α : Type} (offset : Nat) (r : Except Cause α) (h : Heap) :
    extension.Ends h (fun _ _ => True) (site.attempt offset r h) := by
  cases r with
  | ok a => exact .pure trivial
  | error cause => exact .throw trivial

theorem ends_read (offset : Nat) (name : String) (slot : Nat) (h : Heap) :
    extension.Ends h (fun _ _ => True) (site.read frame offset name slot h) := by
  unfold Site.read
  rcases frame[slot]? with _ | _ | v
  · exact .throw trivial
  · exact .throw trivial
  · exact .pure trivial

mutual

/-- An expression without calls of functions only extends the heap. -/
theorem ends_eval :
    ∀ (t : Term) (h : Heap), (∀ node ∈ t.nodes, node.builtin = true) →
      extension.Ends h (fun _ _ => True) (t.eval site frame h)
  | .number value, h, _ => by
    rw [Term.eval]
    exact .pure trivial
  | .newArray offset sizes, h, hnodes => by
    rw [Term.eval]
    refine .bind (ends_evalSizes sizes offset h hnodes) fun h₁ counts _ _ => ?_
    exact ⟨extends_allocate counts h₁, trivial⟩
  | .list ty items, h, hnodes => by
    rw [Term.eval]
    refine .bind (ends_evalAll items h hnodes) fun h₁ values _ _ => ?_
    exact ⟨extends_push h₁ values.toArray, trivial⟩
  | .slot offset name slot ty indices, h, hnodes => by
    rw [Term.eval]
    refine .bind (ends_read offset name slot h) fun h₁ base _ _ => ?_
    refine .bind (ends_evalNumbers indices offset h₁ hnodes) fun h₂ path _ _ => ?_
    exact .get_bind (ends_attempt offset _ h₂)
  | .call offset name callee ty args, h, hnodes => by
    rw [Term.nodes, List.forall_mem_append] at hnodes
    have hcallee := hnodes.2 _ (List.mem_singleton_self _)
    rw [Term.eval]
    refine .bind (ends_evalAll args h hnodes.1) fun h₁ values _ _ => ?_
    -- A builtin only looks at the heap, and other callees are ruled out.
    cases callee with
    | builtin b =>
      exact .get_bind (.bind (ends_attempt offset _ h₁) fun h₂ x _ _ => .pure trivial)
    | self => cases hcallee
    | user index => cases hcallee
  | .unary offset op operand, h, hnodes => by
    rw [Term.eval]
    refine .bind (ends_eval operand h hnodes) fun h₁ v _ _ => ?_
    exact .bind (ends_attempt offset _ h₁) fun h₂ x _ _ => .pure trivial
  | .binary offset op left right, h, hnodes => by
    rw [Term.nodes, List.forall_mem_append] at hnodes
    rw [Term.eval]
    refine .bind (ends_eval left h hnodes.1) fun h₁ v _ _ => ?_
    refine .bind (ends_attempt offset _ h₁) fun h₂ x _ _ => ?_
    cases op.shortcut? x with
    | some result => exact .pure trivial
    | none =>
      refine .bind (ends_eval right h₂ hnodes.2) fun h₃ w _ _ => ?_
      exact .bind (ends_attempt offset _ h₃) fun h₄ y _ _ => .pure trivial

/-- Companion for several terms. -/
theorem ends_evalAll :
    ∀ (ts : List Term) (h : Heap), (∀ node ∈ Term.nodesAll ts, node.builtin = true) →
      extension.Ends h (fun _ _ => True) (Code.evalAll site frame ts h)
  | [], h, _ => by
    rw [Code.evalAll]
    exact .pure trivial
  | t :: ts, h, hnodes => by
    rw [Term.nodesAll, List.forall_mem_append] at hnodes
    rw [Code.evalAll]
    refine .bind (ends_eval t h hnodes.1) fun h₁ v _ _ => ?_
    exact .bind (ends_evalAll ts h₁ hnodes.2) fun h₂ vs _ _ => .pure trivial

/-- Companion for several numbers. -/
theorem ends_evalNumbers :
    ∀ (ts : List Term) (offset : Nat) (h : Heap),
      (∀ node ∈ Term.nodesAll ts, node.builtin = true) →
      extension.Ends h (fun _ _ => True) (Code.evalNumbers site frame offset ts h)
  | [], offset, h, _ => by
    rw [Code.evalNumbers]
    exact .pure trivial
  | t :: ts, offset, h, hnodes => by
    rw [Term.nodesAll, List.forall_mem_append] at hnodes
    rw [Code.evalNumbers]
    refine .bind (ends_eval t h hnodes.1) fun h₁ v _ _ => ?_
    refine .bind (ends_attempt offset _ h₁) fun h₂ x _ _ => ?_
    exact .bind (ends_evalNumbers ts offset h₂ hnodes.2) fun h₃ xs _ _ => .pure trivial

/-- Companion for several sizes. -/
theorem ends_evalSizes :
    ∀ (ts : List Term) (offset : Nat) (h : Heap),
      (∀ node ∈ Term.nodesAll ts, node.builtin = true) →
      extension.Ends h (fun _ _ => True) (Code.evalSizes site frame offset ts h)
  | [], offset, h, _ => by
    rw [Code.evalSizes]
    exact .pure trivial
  | t :: ts, offset, h, hnodes => by
    rw [Term.nodesAll, List.forall_mem_append] at hnodes
    rw [Code.evalSizes]
    refine .bind (ends_eval t h hnodes.1) fun h₁ v _ _ => ?_
    refine .bind (ends_attempt offset _ h₁) fun h₂ size _ _ => ?_
    exact .bind (ends_evalSizes ts offset h₂ hnodes.2) fun h₃ sizes _ _ => .pure trivial

end

end Heap

/-! ### Closed states -/

/-- Whether neither the arrays nor the variables have dangling references. -/
structure Code.State.Closed (state : State) : Prop where
  heap : state.heap.Closed
  frame : ∀ (slot : Nat) (v : Value), state.frame[slot]? = some (some v) → state.heap.Knows v

namespace Naming

variable {N : Naming} {h h₂ : Heap} {v : Value}

theorem Owns.knows (hv : N.Owns h v) : h.Knows v := by
  cases v with
  | number x => trivial
  | array ref =>
    obtain ⟨-, items, hitems⟩ := hv
    exact (Array.getElem?_eq_some_iff.mp hitems).1

/-- Functions of a program are entered alike, whatever the names. -/
theorem enters_call (p : Program) (f : Function) (room : Nat) : N.Enters ⟨p, f, p.call room⟩ :=
  alike_call p room

/-- Where all arrays are owned, heaps that are alike have no dangling references. -/
theorem Alike.closed (ha : N.Alike h h₂) (hall : ∀ ref, N.owned ref) : h.Closed :=
  fun ref _ hitems v hv => ((ha.arrays (hall ref) hitems).1 v hv).knows

/-- The names of arrays in an extended heap: those that are there keep their names, and new ones are
paired in the order in which they are made. -/
def ofExtends (hext : h.Extends h₂) : Naming where
  owned _ := True
  name := h.namesAfter h₂ id
  injective {ref ref'} _ _ hname := by
    -- Names that are kept lie below the size of the first heap, new ones behind the extended one.
    have hle := hext.size_le
    unfold Heap.namesAfter at hname
    split at hname
    · split at hname
      · exact hname
      · simp only [id] at hname
        omega
    · split at hname
      · simp only [id] at hname
        omega
      · omega

section
variable (hext : h.Extends h₂)

/-- A known value keeps its name. -/
theorem rename_ofExtends (hv : h.Knows v) : v.rename (ofExtends hext).name = v := by
  cases v with
  | number x => rfl
  | array ref =>
    have hlt : ref < h.arrays.size := hv
    show Value.array (if ref < h.arrays.size then ref else _) = .array ref
    rw [if_pos hlt]

/-- A known value is owned. -/
theorem owns_ofExtends (hv : h.Knows v) : (ofExtends hext).Owns h v := by
  cases v with
  | number x => trivial
  | array ref => exact ⟨trivial, _, Array.getElem?_eq_getElem hv⟩

/-- A closed heap and an extension are alike. -/
theorem alike_ofExtends (hclosed : h.Closed) : (ofExtends hext).Alike h h₂ := by
  refine ⟨?_, ?_⟩
  · intro ref items _ hitems
    have hlt := (Array.getElem?_eq_some_iff.mp hitems).1
    have hknows := hclosed ref items hitems
    have hname : (ofExtends hext).name ref = ref := if_pos hlt
    have hitems₂ : items.map (Value.rename (ofExtends hext).name) = items := by
      rw [Array.map_congr_left fun v hv => rename_ofExtends hext (hknows v hv), Array.map_id']
    refine ⟨fun v hv => owns_ofExtends hext (hknows v hv), ?_⟩
    rw [hname, hitems₂]
    exact hext ref items hitems
  · intro count
    refine ⟨trivial, ?_⟩
    show h.namesAfter h₂ id (h.arrays.size + count) = h₂.arrays.size + count
    rw [Heap.namesAfter, if_neg (by omega)]
    omega

/-- A frame without dangling references is its own counterpart. -/
theorem sameFrame_ofExtends {frame : Frame}
    (hframe : ∀ (slot : Nat) (v : Value), frame[slot]? = some (some v) → h.Knows v) :
    (ofExtends hext).SameFrame h frame frame := by
  refine ⟨fun slot v hv => owns_ofExtends hext (hframe slot v hv), ?_⟩
  apply Array.ext_getElem?
  intro slot
  rw [Array.getElem?_map]
  rcases hread : frame[slot]? with _ | _ | v
  · rfl
  · rfl
  · simp only [Option.map_some]
    rw [rename_ofExtends hext (hframe slot v hread)]

end

end Naming

/-- The state that a run of code leaves, whether it succeeds or fails. -/
def Code.Execution.stateAfter {α : Type} (m : Code.Execution α) (state : State) : State :=
  match m state with
  | .ok _ state' => state'
  | .error _ state' => state'

/-- Code leaves no dangling references where there were none. Two runs of it, side by side on the
same state, keep the states alike, and that is enough. -/
theorem Code.State.Closed.exec {state : State} (hstate : state.Closed) (p : Program) (f : Function)
    (room : Nat) (step : Step) :
    ((step.exec ⟨p, f, p.call room⟩).stateAfter state).Closed := by
  have hrefl := Heap.Extends.refl state.heap
  have hends := Naming.alike_exec (Naming.enters_call p f room) step
    (Naming.alike_ofExtends hrefl hstate.heap) (Naming.sameFrame_ofExtends hrefl hstate.frame)
  unfold Code.Execution.stateAfter
  cases hrun : step.exec ⟨p, f, p.call room⟩ state with
  | ok flow state' =>
    rw [hrun] at hends
    obtain ⟨-, ⟨halike, hframe⟩, -⟩ := hends
    exact ⟨halike.closed fun _ => trivial, fun slot v hv => (hframe.1 slot v hv).knows⟩
  | error e state' =>
    rw [hrun] at hends
    obtain ⟨-, ⟨halike, hframe⟩, -⟩ := hends
    exact ⟨halike.closed fun _ => trivial, fun slot v hv => (hframe.1 slot v hv).knows⟩

/-! ### Steady runs -/

/-- A result with the heap behind it. -/
def Run.ending {α : Type} : Except Error α → Heap → EStateM.Result Error Heap α
  | .ok a, heap => .ok a heap
  | .error e, heap => .error e heap

/-- Whether a run has one and the same result on a heap and on all its extensions, and extends the
heap that it runs on. -/
def Heap.Steady {α : Type} (h : Heap) (m : Run α) (r : Except Error α) : Prop :=
  ∀ h₁, h.Extends h₁ → ∃ h₂, h₁.Extends h₂ ∧ m h₁ = Run.ending r h₂

namespace Heap.Steady

variable {α β : Type} {h : Heap} {site : Site} {frame : Frame}

/-- Steady runs compose. -/
theorem bind {m : Run α} {k : α → Run β} {r : Except Error α} {s : α → Except Error β}
    (hm : h.Steady m r) (hk : ∀ a, r = .ok a → h.Steady (k a) (s a)) :
    h.Steady (m >>= k) (r >>= s) := by
  intro h₁ hext₁
  obtain ⟨h₂, hext₂, hrun⟩ := hm h₁ hext₁
  show ∃ h₃, h₁.Extends h₃ ∧ EStateM.bind m k h₁ = Run.ending (r >>= s) h₃
  unfold EStateM.bind
  rw [hrun]
  cases r with
  | error e => exact ⟨h₂, hext₂, rfl⟩
  | ok a =>
    -- The second run starts on an extension of an extension.
    obtain ⟨h₃, hext₃, hrun₃⟩ := hk a rfl h₂ (hext₁.trans hext₂)
    exact ⟨h₃, hext₂.trans hext₃, hrun₃⟩

/-- The result is the one that the run has on the heap itself. -/
theorem eq_of_ok {m : Run α} {r : Except Error α} (hm : h.Steady m r) {a : α} {h' : Heap}
    (hrun : m h = .ok a h') : r = .ok a := by
  obtain ⟨h₂, -, hrun₂⟩ := hm h (.refl h)
  rw [hrun] at hrun₂
  cases r with
  | ok b =>
    cases hrun₂
    rfl
  | error e => cases hrun₂

theorem pure (a : α) : h.Steady (Pure.pure a) (.ok a) :=
  fun h₁ _ => ⟨h₁, .refl h₁, rfl⟩

/-- An operation that does not look at the heap. -/
theorem attempt (offset : Nat) (r : Except Cause α) :
    h.Steady (site.attempt offset r) (r.mapError (site.error offset)) := by
  intro h₁ _
  refine ⟨h₁, .refl h₁, ?_⟩
  cases r with
  | ok a => rfl
  | error cause => rfl

/-- An operation that looks only at what extensions have in common. -/
theorem attempt_get (offset : Nat) {op : Heap → Except Cause α} {r : Except Cause α}
    (hop : ∀ h₁, h.Extends h₁ → op h₁ = r) :
    h.Steady (get >>= fun heap => site.attempt offset (op heap))
      (r.mapError (site.error offset)) := by
  intro h₁ hext₁
  rw [Program.get_bind_apply, hop h₁ hext₁]
  exact attempt offset r h₁ hext₁

/-- A run that only extends the heap, and does not see the names of arrays, is steady. -/
theorem of_alike {m : Run α} (hext : ∀ h₁, extension.Ends h₁ (fun _ _ => True) (m h₁))
    (halike : ∀ {h₁} (hext₁ : h.Extends h₁), (Naming.ofExtends hext₁).pledge.EndsAlike
      (Naming.ofExtends hext₁).Alike h (fun _ a b => b = a) (m h) (m h₁)) :
    ∃ r, h.Steady m r := by
  cases hrun : m h with
  | ok a h' =>
    refine ⟨.ok a, ?_⟩
    intro h₁ hext₁
    have hends := halike hext₁
    have hgrows := hext h₁
    rw [hrun] at hends
    -- The run on the extended heap ends alike, with the same result and not only a renamed one.
    cases hrun₁ : m h₁ with
    | ok b h₂ =>
      rw [hrun₁] at hends hgrows
      obtain rfl : b = a := hends.2.2
      exact ⟨h₂, hgrows.1, rfl⟩
    | error e h₂ =>
      rw [hrun₁] at hends
      exact hends.elim
  | error e h' =>
    refine ⟨.error e, ?_⟩
    intro h₁ hext₁
    have hends := halike hext₁
    have hgrows := hext h₁
    rw [hrun] at hends
    cases hrun₁ : m h₁ with
    | ok b h₂ =>
      rw [hrun₁] at hends
      exact hends.elim
    | error e' h₂ =>
      rw [hrun₁] at hends hgrows
      obtain rfl : e' = e := hends.2.2.2
      exact ⟨h₂, hgrows.1, rfl⟩

end Heap.Steady

section
variable {frame : Frame} {heap : Heap} (p : Program) (f : Function) (room : Nat)

/-- Indices without calls of functions are the same numbers again and again. -/
theorem Code.State.Closed.exists_steady_evalNumbers (hstate : State.Closed ⟨frame, heap⟩)
    (offset : Nat) {ts : List Term} (hnodes : ∀ node ∈ Term.nodesAll ts, node.builtin = true) :
    ∃ r, heap.Steady (Code.evalNumbers ⟨p, f, p.call room⟩ frame offset ts) r := by
  refine Heap.Steady.of_alike (fun h₁ => Heap.ends_evalNumbers ts offset h₁ hnodes) fun hext => ?_
  exact Naming.alike_evalNumbers (Naming.enters_call p f room) ts
    (Naming.alike_ofExtends hext hstate.heap) (Naming.sameFrame_ofExtends hext hstate.frame)

/-- An expression without calls of functions is the same number again and again. -/
theorem Code.State.Closed.exists_steady_number (hstate : State.Closed ⟨frame, heap⟩)
    (offset : Nat) {t : Term} (hnodes : ∀ node ∈ t.nodes, node.builtin = true) :
    ∃ r, heap.Steady (t.eval ⟨p, f, p.call room⟩ frame >>= fun v =>
      Site.attempt ⟨p, f, p.call room⟩ offset v.toNumber) r := by
  refine Heap.Steady.of_alike (fun h₁ => ?_) fun hext => ?_
  · exact .bind (Heap.ends_eval t h₁ hnodes) fun h₂ v _ _ => Heap.ends_attempt offset _ h₂
  · refine .bind (Naming.alike_eval (Naming.enters_call p f room) t
      (Naming.alike_ofExtends hext hstate.heap)
      (Naming.sameFrame_ofExtends hext hstate.frame)) ?_
    exact fun h₁ h₂ v w _ ha hv => ha.toNumber hv

end

end ArrayScript
