import ArrayScript.Heap
import Mathlib.Logic.Function.Basic

/-!
# `ArrayScript.Proofs.World`: heaps whose arrays have a depth

Arrays are shared, so what a write does to one view of an array it does to all others. What keeps
the views together is that every array has one depth: an array of depth one holds numbers, and an
array of depth `k + 1` holds arrays of depth `k`. A `World` is a heap with such depths. Arrays that
a run has nothing to do with have the depth zero there, and nothing is asked of them.

An array without elements has no depth of its own. It can be seen as an array of numbers and as an
array of arrays at once, and since it has no place to write to, no view of it can harm another.
`World.HasDepth` therefore accepts it at every depth above zero.

The operations on the heap each take a world to a world that has grown from it (`World.Grows`):

* `World.push` and `World.makes_allocate` make new arrays,
* `World.write` overwrites an element.

Reading changes nothing, and what is read is one less deep (`World.HasDepth.elements`).
`World.conforms` goes back to the shapes that a host can ask for.
-/

set_option autoImplicit false

namespace ArrayScript

/-- Whether a value is nested to depth `k`, when arrays have the given depths. -/
def Heap.HasDepth (h : Heap) (depth : Nat → Nat) : Value → Nat → Prop
  | .number _, k => k = 0
  | .array ref, k => k ≠ 0 ∧ ∃ items, h.arrays[ref]? = some items ∧ (items = #[] ∨ depth ref = k)

/-- Whether a second heap, with depths of its own, keeps the arrays of a first one with their
lengths and depths. Elements may differ. -/
def Heap.Keeps (h : Heap) (depth : Nat → Nat) (h' : Heap) (depth' : Nat → Nat) : Prop :=
  ∀ ⦃ref : Nat⦄ ⦃items : Array Value⦄, h.arrays[ref]? = some items →
    ∃ items', h'.arrays[ref]? = some items' ∧ items'.size = items.size ∧ depth' ref = depth ref

/-- The depth of a value reads only what `Keeps` keeps. -/
theorem Heap.HasDepth.of_keeps {h h' : Heap} {depth depth' : Nat → Nat} {v : Value} {k : Nat}
    (hv : h.HasDepth depth v k) (hkeeps : h.Keeps depth h' depth') : h'.HasDepth depth' v k := by
  cases v with
  | number x => exact hv
  | array ref =>
    obtain ⟨hk, items, hitems, hcases⟩ := hv
    obtain ⟨items', hitems', hsize, hdepth⟩ := hkeeps hitems
    refine ⟨hk, items', hitems', hcases.imp (fun hempty => ?_) hdepth.trans⟩
    rw [hempty] at hsize
    exact Array.eq_empty_of_size_eq_zero hsize

/-- A heap with a depth for each of its arrays, zero for those that are left alone. What an array
of some depth holds is one less deep. -/
structure World where
  heap : Heap
  depth : Nat → Nat
  nested : ∀ {ref : Nat} {items : Array Value}, heap.arrays[ref]? = some items →
    depth ref ≠ 0 → ∀ v ∈ items, heap.HasDepth depth v (depth ref - 1)

namespace World

variable {w w₁ w' : World} {v u : Value} {k : Nat}

/-- Whether a value is nested to depth `k` in a world. -/
def HasDepth (w : World) (v : Value) (k : Nat) : Prop :=
  w.heap.HasDepth w.depth v k

/-- A value of depth zero is a number. -/
theorem HasDepth.exists_number (h : w.HasDepth v 0) : ∃ x, v = .number x := by
  cases v with
  | number x => exact ⟨x, rfl⟩
  | array ref => exact absurd rfl h.1

/-- A value of another depth is an array of the heap. -/
theorem HasDepth.exists_array (h : w.HasDepth v (k + 1)) :
    ∃ ref items, v = .array ref ∧ w.heap.arrays[ref]? = some items := by
  cases v with
  | number x => cases h
  | array ref =>
    obtain ⟨-, items, hitems, -⟩ := h
    exact ⟨ref, items, rfl, hitems⟩

/-- An array with a position for an element has a depth of its own. -/
theorem HasDepth.depth_eq {ref : Nat} {items : Array Value} (h : w.HasDepth (.array ref) k)
    (hitems : w.heap.arrays[ref]? = some items) (i : Fin items.size) : w.depth ref = k := by
  obtain ⟨-, items', hitems', hcases⟩ := h
  obtain rfl : items = items' := Option.some.inj (hitems.symm.trans hitems')
  rcases hcases with rfl | hdepth
  · exact i.elim0
  · exact hdepth

/-- What an array holds is one less deep. -/
theorem HasDepth.elements {ref : Nat} {items : Array Value} (h : w.HasDepth (.array ref) (k + 1))
    (hitems : w.heap.arrays[ref]? = some items) : ∀ u ∈ items, w.HasDepth u k := by
  intro u hu
  -- The array has an element, so the world knows its depth and what it holds.
  obtain ⟨i, hi, -⟩ := Array.getElem_of_mem hu
  have hdepth : w.depth ref = k + 1 := h.depth_eq hitems ⟨i, hi⟩
  have hnested := w.nested hitems (by omega) u hu
  rw [hdepth] at hnested
  exact hnested

/-! ### Growth -/

/-- What a later world `w'` keeps of an earlier world `w`: its arrays, and the elements of those
that are left alone. New arrays are never left alone. -/
structure Grows (w w' : World) : Prop where
  keeps : w.heap.Keeps w.depth w'.heap w'.depth
  alone : ∀ {ref : Nat} {items : Array Value}, w.heap.arrays[ref]? = some items →
    w.depth ref = 0 → w'.heap.arrays[ref]? = some items
  fresh : ∀ {ref : Nat} {items : Array Value}, w'.heap.arrays[ref]? = some items →
    w.heap.arrays[ref]? = none → w'.depth ref ≠ 0

namespace Grows

/-- A world keeps what it has. -/
theorem refl (w : World) : w.Grows w where
  keeps _ _ h := ⟨_, h, rfl, rfl⟩
  alone h _ := h
  fresh h hnone := by cases hnone.symm.trans h

/-- Growth composes. -/
theorem trans (h : w.Grows w₁) (h' : w₁.Grows w') : w.Grows w' where
  keeps _ _ hitems := by
    obtain ⟨items₁, h₁, hsize₁, hdepth₁⟩ := h.keeps hitems
    obtain ⟨items₂, h₂, hsize₂, hdepth₂⟩ := h'.keeps h₁
    exact ⟨items₂, h₂, hsize₂.trans hsize₁, hdepth₂.trans hdepth₁⟩
  alone hitems hzero := by
    obtain ⟨_, _, _, hdepth⟩ := h.keeps hitems
    exact h'.alone (h.alone hitems hzero) (hdepth.trans hzero)
  fresh {ref items} hitems hnone := by
    cases hmid : w₁.heap.arrays[ref]? with
    | none => exact h'.fresh hitems hmid
    | some items₁ =>
      obtain ⟨items₂, -, -, hdepth⟩ := h'.keeps hmid
      rw [hdepth]
      exact h.fresh hmid hnone

/-- A value keeps its depth. -/
theorem hasDepth (h : w.Grows w') (hv : w.HasDepth v k) : w'.HasDepth v k :=
  Heap.HasDepth.of_keeps hv h.keeps

end Grows

/-! ### Making arrays -/

/-- The references of a heap with one more array: the old ones, and the new one. -/
theorem getElem?_push (h : Heap) (items : Array Value) (ref : Nat) :
    (h.push items).2.arrays[ref]?
      = if ref = h.arrays.size then some items else h.arrays[ref]? :=
  Array.getElem?_push

/-- A new array leaves the others as they are. -/
theorem keeps_push (w : World) (items : Array Value) (k : Nat) :
    w.heap.Keeps w.depth (w.heap.push items).2
      (Function.update w.depth w.heap.arrays.size k) := by
  intro ref old hold
  have hne : ref ≠ w.heap.arrays.size := by
    have hlt := (Array.getElem?_eq_some_iff.mp hold).1
    omega
  refine ⟨old, ?_, rfl, Function.update_of_ne hne _ _⟩
  rw [getElem?_push, if_neg hne]
  exact hold

/-- The world with one more array, whose elements have the depth `k`. -/
def push (w : World) (items : Array Value) (k : Nat) (h : ∀ v ∈ items, w.HasDepth v k) : World where
  heap := (w.heap.push items).2
  depth := Function.update w.depth w.heap.arrays.size (k + 1)
  nested {ref old} hold hdepth v hv := by
    rw [getElem?_push] at hold
    by_cases href : ref = w.heap.arrays.size
    · rw [if_pos href] at hold
      cases hold
      rw [href, Function.update_self]
      exact Heap.HasDepth.of_keeps (h v hv) (w.keeps_push items (k + 1))
    · rw [if_neg href] at hold
      rw [Function.update_of_ne href] at hdepth ⊢
      exact Heap.HasDepth.of_keeps (w.nested hold hdepth v hv) (w.keeps_push items (k + 1))

section
variable {items : Array Value} {h : ∀ v ∈ items, w.HasDepth v k}

/-- A world grows by a new array. -/
theorem grows_push : w.Grows (w.push items k h) where
  keeps := w.keeps_push items (k + 1)
  alone hitems _ := by
    obtain ⟨hlt, -⟩ := Array.getElem?_eq_some_iff.mp hitems
    show (w.heap.push items).2.arrays[_]? = _
    rw [getElem?_push, if_neg (by omega)]
    exact hitems
  fresh {ref new} hnew hnone := by
    change (w.heap.push items).2.arrays[ref]? = some new at hnew
    rw [getElem?_push] at hnew
    by_cases href : ref = w.heap.arrays.size
    · show Function.update w.depth w.heap.arrays.size (k + 1) ref ≠ 0
      rw [href, Function.update_self]
      omega
    · rw [if_neg href, hnone] at hnew
      cases hnew

/-- The new array is one deeper than its elements. -/
theorem hasDepth_push : (w.push items k h).HasDepth (w.heap.push items).1 (k + 1) := by
  refine ⟨by omega, items, ?_, .inr ?_⟩
  · show (w.heap.push items).2.arrays[w.heap.arrays.size]? = some items
    rw [getElem?_push, if_pos rfl]
  · exact Function.update_self ..

end

/-- Whether making something always gives a value of depth `k`, in a world that has grown. -/
def Makes (make : Heap → Value × Heap) (k : Nat) : Prop :=
  ∀ w : World, ∃ w', w.Grows w' ∧ w'.heap = (make w.heap).2 ∧ w'.HasDepth (make w.heap).1 k

/-- Making the same thing several times gives values of the same depth. -/
theorem exists_pushMany {make : Heap → Value × Heap} (hmake : Makes make k) :
    ∀ (count : Nat) (items : Array Value) (w : World), (∀ v ∈ items, w.HasDepth v k) →
      ∃ w', w.Grows w' ∧ w'.heap = (Heap.pushMany make count items w.heap).2 ∧
        ∀ v ∈ (Heap.pushMany make count items w.heap).1, w'.HasDepth v k := by
  intro count
  induction count with
  | zero =>
    intro items w hitems
    exact ⟨w, .refl w, rfl, hitems⟩
  | succ count ih =>
    intro items w hitems
    obtain ⟨w₁, hgrows₁, hheap₁, hdepth₁⟩ := hmake w
    -- What was made before keeps its depth while the next one is made.
    have hitems₁ : ∀ v ∈ items.push (make w.heap).1, w₁.HasDepth v k := by
      intro v hv
      rcases Array.mem_push.mp hv with hold | rfl
      · exact hgrows₁.hasDepth (hitems v hold)
      · exact hdepth₁
    obtain ⟨w', hgrows, hheap, hall⟩ := ih _ w₁ hitems₁
    rw [hheap₁] at hheap hall
    exact ⟨w', hgrows₁.trans hgrows, hheap, hall⟩

/-- A new array of zeros is as deep as there are sizes. -/
theorem makes_allocate : ∀ sizes : List Nat, Makes (Heap.allocate sizes) sizes.length
  | [], w => ⟨w, .refl w, rfl, rfl⟩
  | [size], w => by
    have hzero : ∀ v ∈ Array.replicate size Value.zero, w.HasDepth v 0 := by
      intro v hv
      rw [(Array.mem_replicate.mp hv).2]
      exact rfl
    exact ⟨w.push _ 0 hzero, grows_push, rfl, hasDepth_push⟩
  | size :: next :: sizes, w => by
    obtain ⟨w₁, hgrows₁, hheap₁, hrows⟩ :=
      exists_pushMany (makes_allocate (next :: sizes)) size #[] w (by simp)
    refine ⟨w₁.push _ _ hrows, hgrows₁.trans grows_push, ?_, ?_⟩
    · show (w₁.heap.push _).2 = _
      rw [hheap₁]
      rfl
    · have hdepth := hasDepth_push (h := hrows)
      rw [hheap₁] at hdepth
      exact hdepth

/-! ### Writing elements -/

/-- The arrays behind a write: only the one that is written to can differ. -/
theorem getElem?_write (h : Heap) (cell : Heap.Cell) (v : Value) (ref : Nat) :
    (h.write cell v).arrays[ref]?
      = if cell.ref = ref then
          h.arrays[ref]?.map fun items => items.setIfInBounds cell.index v
        else h.arrays[ref]? := by
  unfold Heap.write
  rw [Array.getElem?_modify]

/-- A write keeps the length of every array. -/
theorem keeps_write (h : Heap) (depth : Nat → Nat) (cell : Heap.Cell) (v : Value) :
    h.Keeps depth (h.write cell v) depth := by
  intro ref items hitems
  rw [getElem?_write, hitems]
  by_cases href : cell.ref = ref
  · rw [if_pos href]
    exact ⟨_, rfl, by simp, rfl⟩
  · rw [if_neg href]
    exact ⟨items, rfl, rfl, rfl⟩

/-- The world in which a cell holds another value, which is as deep as the cell asks for. -/
def write (w : World) (cell : Heap.Cell) (v : Value) (k : Nat) (hcell : w.depth cell.ref = k + 1)
    (hv : w.HasDepth v k) : World where
  heap := w.heap.write cell v
  depth := w.depth
  nested {ref items} hitems hdepth u hu := by
    have hkeeps := keeps_write w.heap w.depth cell v
    rw [getElem?_write] at hitems
    by_cases href : cell.ref = ref
    · rw [if_pos href] at hitems
      obtain ⟨old, hold, rfl⟩ := Option.map_eq_some_iff.mp hitems
      rcases Array.mem_or_eq_of_mem_setIfInBounds hu with hmem | rfl
      · exact (w.nested hold hdepth u hmem).of_keeps hkeeps
      · rw [← href, hcell]
        exact Heap.HasDepth.of_keeps hv hkeeps
    · rw [if_neg href] at hitems
      exact (w.nested hitems hdepth u hu).of_keeps hkeeps

/-- A world grows by a write. -/
theorem grows_write {cell : Heap.Cell} {hcell : w.depth cell.ref = k + 1} {hv : w.HasDepth v k} :
    w.Grows (w.write cell v k hcell hv) where
  keeps := keeps_write w.heap w.depth cell v
  alone {ref items} hitems hzero := by
    -- A cell that is written to belongs to an array with a depth.
    have href : cell.ref ≠ ref := by
      rintro rfl
      omega
    show (w.heap.write cell v).arrays[ref]? = some items
    rw [getElem?_write, if_neg href]
    exact hitems
  fresh {ref items} hitems hnone := by
    obtain ⟨old, hold⟩ : ∃ old, w.heap.arrays[ref]? = some old := by
      change (w.heap.write cell v).arrays[ref]? = some items at hitems
      rw [getElem?_write] at hitems
      split at hitems
      · obtain ⟨old, hold, -⟩ := Option.map_eq_some_iff.mp hitems
        exact ⟨old, hold⟩
      · exact ⟨items, hitems⟩
    cases hnone.symm.trans hold

/-! ### Shapes -/

/-- A value of depth `k` has the shape of an array with `k` open dimensions. -/
theorem conformsToRank :
    ∀ (k : Nat) {v : Value}, w.HasDepth v k →
      w.heap.conformsToRank (List.replicate k .dynamic) v = true
  | 0, v, hv => by
    obtain ⟨x, rfl⟩ := hv.exists_number
    simp [Heap.conformsToRank]
  | k + 1, v, hv => by
    obtain ⟨ref, items, rfl, hitems⟩ := hv.exists_array
    rw [List.replicate_succ, Heap.conformsToRank]
    simp only [Heap.items?, hitems, Bool.and_eq_true]
    refine ⟨rfl, ?_⟩
    rw [Array.all_eq_true_iff_forall_mem]
    intro u hu
    exact conformsToRank k (hv.elements hitems u hu)

/-- A value of depth `k` above zero has the type of an array with `k` open dimensions. -/
theorem conforms (hv : w.HasDepth v (k + 1)) :
    w.heap.conforms v (.dynamicArray (k + 1)) = true := by
  have hrank := conformsToRank (k + 1) hv
  rw [List.replicate_succ] at hrank
  unfold Ty.dynamicArray
  rw [List.replicate_succ]
  exact hrank

end World

end ArrayScript
