import ArrayScript.Proofs.Arguments
import Mathlib.Logic.Relation

/-!
# `ArrayScript.Proofs.Acyclic`: when runs make no cycles

Arrays hold references, so a write can close a cycle: an array that contains itself through a chain
of elements. Within one view of an array this cannot happen, because an element is always one less
deep than its array. It can happen when one array enters a call under two views. An empty array
inside it fits both, and a write through the deeper view may put the array into itself
(`Program.invoke_makes_cycle`).

If every array with elements is seen with one number of dimensions, the views never disagree, and a
run keeps a heap without cycles free of them, whether it succeeds or fails
(`Program.acyclic_invoke`). Arguments may share arrays freely under this condition, and arrays
that no argument reaches may be anything. The proof is about worlds: depths fall along every edge
out of an array that has a depth, and arrays without one are never written to
(`World.Grows.acyclic`).
-/

set_option autoImplicit false

namespace ArrayScript

open Relation (TransGen ReflTransGen)

/-- Whether one array is an element of another. -/
def Heap.Holds (h : Heap) (outer inner : Nat) : Prop :=
  ∃ items, h.arrays[outer]? = some items ∧ Value.array inner ∈ items

/-- Whether no array contains itself through any chain of elements. -/
def Heap.Acyclic (h : Heap) : Prop :=
  ∀ ref, ¬ TransGen h.Holds ref ref

/-- The heap that a computation leaves, whether it succeeds or fails. -/
def Run.heapAfter {α : Type} (m : Run α) (h : Heap) : Heap :=
  match m h with
  | .ok _ h' => h'
  | .error _ h' => h'

/-! ### Depths and cycles -/

namespace World

variable {w w' : World} {outer inner ref : Nat}

/-- An element of an array with a depth is one less deep, if it has elements of its own. -/
theorem depth_of_holds (hholds : w.heap.Holds outer inner) (hdepth : w.depth outer ≠ 0)
    (helement : ∃ next, w.heap.Holds inner next) :
    w.depth inner ≠ 0 ∧ w.depth inner < w.depth outer := by
  obtain ⟨items, hitems, hmem⟩ := hholds
  obtain ⟨next, items', hitems', hmem'⟩ := helement
  obtain ⟨hne, items'', hitems'', hcases⟩ := w.nested hitems hdepth _ hmem
  obtain rfl : items' = items'' := Option.some.inj (hitems'.symm.trans hitems'')
  rcases hcases with rfl | heq
  · simp at hmem'
  · omega

/-- The same along a chain of elements. -/
theorem depth_of_chain (hchain : TransGen w.heap.Holds outer inner) (hdepth : w.depth outer ≠ 0)
    (helement : ∃ next, w.heap.Holds inner next) :
    w.depth inner ≠ 0 ∧ w.depth inner < w.depth outer := by
  induction hchain with
  | single hholds => exact depth_of_holds hholds hdepth helement
  | @tail middle inner _ hholds ih =>
    obtain ⟨hne, hlt⟩ := ih ⟨inner, hholds⟩
    obtain ⟨hne', hlt'⟩ := depth_of_holds hholds hne helement
    exact ⟨hne', hlt'.trans hlt⟩

/-- An array on a cycle has no depth. -/
theorem depth_of_cycle (hcycle : TransGen w.heap.Holds ref ref) : w.depth ref = 0 := by
  by_contra hdepth
  obtain ⟨next, hnext, -⟩ := TransGen.head'_iff.mp hcycle
  exact Nat.lt_irrefl _ (depth_of_chain hcycle hdepth ⟨next, hnext⟩).2

/-- An array without a depth holds what it held before. -/
theorem Grows.holds (hgrows : w.Grows w') (hdepth : w'.depth outer = 0)
    (hholds : w'.heap.Holds outer inner) : w.heap.Holds outer inner := by
  obtain ⟨items, hitems, hmem⟩ := hholds
  cases hold : w.heap.arrays[outer]? with
  | none => exact absurd hdepth (hgrows.fresh hitems hold)
  | some old =>
    obtain ⟨_, _, _, heq⟩ := hgrows.keeps hold
    have hsame := hgrows.alone hold (heq.symm.trans hdepth)
    obtain rfl : old = items := Option.some.inj (hsame.symm.trans hitems)
    exact ⟨old, hold, hmem⟩

/-- A world that has grown from one without cycles has none. Every array on a cycle would have no
depth, so the cycle would have been there before. -/
theorem Grows.acyclic (hgrows : w.Grows w') (hw : w.heap.Acyclic) : w'.heap.Acyclic := by
  intro ref hcycle
  have hback : ∀ {inner : Nat}, TransGen w'.heap.Holds ref inner →
      ReflTransGen w'.heap.Holds inner ref → TransGen w.heap.Holds ref inner := by
    intro inner hchain
    induction hchain with
    | single hholds =>
      intro _
      exact .single (hgrows.holds (depth_of_cycle hcycle) hholds)
    | @tail middle inner hchain hholds ih =>
      intro hrest
      -- The array in the middle lies on the cycle as well.
      have hmiddle : TransGen w'.heap.Holds middle middle :=
        (TransGen.head' hholds hrest).trans hchain
      exact .tail (ih (.head hholds hrest)) (hgrows.holds (depth_of_cycle hmiddle) hholds)
  exact hw ref (hback hcycle .refl)

end World

/-! ### Runs -/

/-- A run that ends well leaves the heap of a world that has grown. -/
theorem World.Ends.exists_heapAfter {α : Type} {m : Run α} {heap : Heap} {w : World}
    {post : World → Heap → α → Prop} (h : w.Ends id post (m heap)) :
    ∃ w', w.Grows w' ∧ w'.heap = m.heapAfter heap := by
  unfold Run.heapAfter
  cases hr : m heap with
  | ok a heap' =>
    rw [hr] at h
    obtain ⟨w', hgrows, hheap, -⟩ := h
    exact ⟨w', hgrows, hheap⟩
  | error e heap' =>
    rw [hr] at h
    obtain ⟨w', hgrows, hheap, -⟩ := h
    exact ⟨w', hgrows, hheap⟩

/-- A run keeps a heap without cycles free of them, if no array with elements enters the call with
two different numbers of dimensions. -/
theorem Program.acyclic_invoke {source : Source} {p : Program} (hcompile : source.compile = .ok p)
    {f : Function} (hf : f ∈ p.functions) {args : List Value} {heap : Heap}
    (hheap : heap.Acyclic) (hargs : heap.Coherent f.params args) :
    ((p.invoke f.name args).heapAfter heap).Acyclic := by
  by_cases haccepts : Accepts f args heap
  · obtain ⟨w, rfl, hends⟩ := ends_invoke hcompile hf haccepts hargs
    obtain ⟨w', hgrows, hheap'⟩ := hends.exists_heapAfter
    rw [← hheap']
    exact hgrows.acyclic hheap
  · -- A host that is refused has not touched the heap.
    obtain ⟨decls, -, hbuilt⟩ := Source.built_of_compile hcompile
    obtain ⟨e, he⟩ := exists_invokeFunction_eq (p := p) haccepts
    rw [Run.heapAfter, hbuilt.invoke_name hf, he]
    exact hheap

/-- A program that puts a row into a grid. -/
def Source.put : Source :=
  ⟨"put", "fn put(row: number[], grid: number[][]) { grid[0] = row; return grid; }"⟩

/-- Along edges to smaller references there is no cycle. -/
theorem Heap.acyclic_of_lt {h : Heap} (hlt : ∀ outer inner, h.Holds outer inner → inner < outer) :
    h.Acyclic := by
  intro ref hcycle
  have hdown : ∀ {inner : Nat}, TransGen h.Holds ref inner → inner < ref := by
    intro inner hchain
    induction hchain with
    | single hholds => exact hlt _ _ hholds
    | tail _ hholds ih => exact (hlt _ _ hholds).trans ih
  exact Nat.lt_irrefl ref (hdown hcycle)

/-- The grid holds its row and the row holds numbers. -/
theorem Heap.acyclic_grid : Heap.grid.Acyclic := by
  refine acyclic_of_lt ?_
  rintro outer inner ⟨items, hitems, hmem⟩
  rcases outer with _ | _ | i
  · obtain rfl : #[Value.number 1, .number 2] = items := by simpa [grid] using hitems
    simp at hmem
  · obtain rfl : #[Value.array 0] = items := by simpa [grid] using hitems
    simp_all
  · simp [grid] at hitems

/-- The row is shared between the two arguments, and both see it with one dimension. The run writes
to the grid, and no cycle arises. -/
theorem Program.acyclic_invoke_put :
    ∃ p f, Source.put.compile = .ok p ∧ f ∈ p.functions ∧ Accepts f [.array 0, .array 1] .grid ∧
      Heap.grid.Acyclic ∧ Heap.grid.Coherent f.params [.array 0, .array 1] ∧
      ((p.invoke f.name [.array 0, .array 1]).heapAfter .grid).Acyclic := by
  have hrun : (Source.put.compile.toOption.map fun p => p.functions.map fun f =>
      decide ([Value.array 0, .array 1].length = f.params.length) &&
        (misfit? .grid f.signature [.array 0, .array 1]).isNone &&
        decide (f.params.map Ty.depth = [1, 2])) = some [true] := by
    decide +kernel
  obtain ⟨p, f, hcompile, hf, hchecks⟩ := Source.exists_of_compile hrun
  simp only [Bool.and_eq_true, decide_eq_true_eq, Option.isNone_iff_eq_none] at hchecks
  obtain ⟨⟨hlength, hmisfit⟩, hdepths⟩ := hchecks
  have hplace : ∀ {place : Place} {ref : Nat},
      Heap.grid.at? [.array 0, .array 1] place = some (.array ref) →
      (place.rank f.params).length = ref + 1 := by
    rintro ⟨argument, path⟩ ref h
    rw [Place.length_rank, hdepths]
    rcases argument with _ | _ | i
    · obtain ⟨rfl, rfl⟩ := Heap.foldlM_child?_row h
      rfl
    · rcases Heap.foldlM_child?_grid h with ⟨rfl, rfl⟩ | ⟨rfl, rfl⟩
      · rfl
      · rfl
    · simp [Heap.at?] at h
  have hargs : Heap.grid.Coherent f.params [.array 0, .array 1] := by
    intro p q ref items hp hq _ _
    rw [hplace hp, hplace hq]
  have hmem : f ∈ p.functions := by
    rw [hf]
    exact List.mem_singleton_self f
  exact ⟨p, f, hcompile, hmem, ⟨hlength, hmisfit⟩, Heap.acyclic_grid, hargs,
    acyclic_invoke hcompile hmem Heap.acyclic_grid hargs⟩

/-! ### One array, two depths -/

/-- A program that puts its first argument into its second. -/
def Source.nest : Source :=
  ⟨"nest", "f(a: number[][], b: number[][][]) { b[0] = a; return 0; }"⟩

/-- A heap with an empty array, and an array that holds it. -/
def Heap.hollow : Heap :=
  ⟨#[#[], #[.array 0]]⟩

/-- The array that a value is, if it is one. -/
def Value.ref? : Value → Option Nat
  | .number _ => none
  | .array ref => some ref

/-- A value with a reference is that array. -/
theorem Value.eq_array_of_ref? {v : Value} {ref : Nat} (h : v.ref? = some ref) :
    v = .array ref := by
  cases v with
  | number x => cases h
  | array other =>
    cases h
    rfl

/-- An array that holds an empty one has the shape of both parameters, so a host can pass it as
both, and the run puts it into itself. -/
theorem Program.invoke_makes_cycle :
    ∃ p f, Source.nest.compile = .ok p ∧ f ∈ p.functions ∧
      Accepts f [.array 1, .array 1] .hollow ∧ Heap.hollow.Acyclic ∧
      ¬ ((p.invoke f.name [.array 1, .array 1]).heapAfter .hollow).Acyclic := by
  have hrun : (Source.nest.compile.toOption.map fun p => p.functions.map fun f =>
      decide ([Value.array 1, .array 1].length = f.params.length) &&
        (misfit? .hollow f.signature [.array 1, .array 1]).isNone &&
        decide ((((p.invoke f.name [.array 1, .array 1]).heapAfter .hollow).child?
          (.array 1) 0).bind Value.ref? = some 1)) = some [true] := by
    decide +kernel
  obtain ⟨p, f, hcompile, hf, hchecks⟩ := Source.exists_of_compile hrun
  simp only [Bool.and_eq_true, decide_eq_true_eq, Option.isNone_iff_eq_none] at hchecks
  obtain ⟨⟨hlength, hmisfit⟩, hcycle⟩ := hchecks
  refine ⟨p, f, hcompile, ?_, ⟨hlength, hmisfit⟩, ?_, ?_⟩
  · rw [hf]
    exact List.mem_singleton_self f
  · refine Heap.acyclic_of_lt ?_
    rintro outer inner ⟨items, hitems, hmem⟩
    rcases outer with _ | _ | i
    · obtain rfl : #[] = items := by simpa [Heap.hollow] using hitems
      simp at hmem
    · obtain rfl : #[Value.array 0] = items := by simpa [Heap.hollow] using hitems
      simp_all
    · simp [Heap.hollow] at hitems
  · obtain ⟨v, hchild, href⟩ := Option.bind_eq_some_iff.mp hcycle
    obtain rfl : v = .array 1 := Value.eq_array_of_ref? href
    obtain ⟨items, hitems, helement⟩ := Option.bind_eq_some_iff.mp hchild
    intro hacyclic
    exact hacyclic 1 (.single ⟨items, hitems, Array.mem_of_getElem? helement⟩)

end ArrayScript
