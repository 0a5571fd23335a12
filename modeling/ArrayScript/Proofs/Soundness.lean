import ArrayScript.Proofs.Arguments

/-!
# `ArrayScript.Proofs.Soundness`: what analysis promises about a run

A program that analysis has accepted cannot go wrong in any way that its types speak about. Called
with arguments that fit and share no array, a function never takes an array for a number or a
number for an array, never misses a function or a return, and never assigns a slot that its frame
does not have. It may fail only for a cause that depends on values, and what it returns has the
number of dimensions that analysis found for its result.
-/

set_option autoImplicit false

namespace ArrayScript

/-- A value of the depth of a type is a number or an array with as many open dimensions. -/
theorem World.conforms_of_proper {w : World} {v : Value} {ty : Ty} (hty : ty.Proper)
    (hv : w.HasDepth v ty.depth) :
    (ty = .number → ∃ x, v = .number x) ∧
      (ty ≠ .number → w.heap.conforms v (.dynamicArray ty.depth) = true) := by
  cases hrank : ty.rank with
  | nil =>
    have hnumber : ty = .number := by rw [← hty, hrank]; rfl
    rw [hnumber] at hv
    exact ⟨fun _ => hv.exists_number, fun hne => absurd hnumber hne⟩
  | cons dim dims =>
    have hdepth : ty.depth = dims.length + 1 := by rw [Ty.depth, hrank]; rfl
    refine ⟨fun hnumber => ?_, fun _ => ?_⟩
    · rw [hnumber] at hrank
      cases hrank
    · rw [hdepth] at hv ⊢
      exact w.conforms hv

/-- Type soundness. Whatever text compiles, a function called with arguments that it accepts and
that form separate trees fails only for a cause that depends on values. A result is a number if
the function's result type is that of numbers, and otherwise an array with as many dimensions as
that type has. No function of the program assigns a slot outside its frame. -/
theorem Program.typeSound_invoke {source : Source} {p : Program} (hcompile : source.compile = .ok p)
    {f : Function} (hf : f ∈ p.functions) {args : List Value} {heap : Heap}
    (haccepts : Accepts f args heap) (hargs : heap.Separate args) :
    (match p.invoke f.name args heap with
      | .ok v heap' => (f.result = .number → ∃ x, v = .number x) ∧
          (f.result ≠ .number → heap'.conforms v (.dynamicArray f.result.depth) = true)
      | .error e _ => e.cause.dynamic = true) ∧
    ∀ g ∈ p.functions, ∀ (arguments : List Value), ∀ slot ∈ Code.assignedAll g.body,
      slot < (g.frame arguments).size := by
  have hsound : ∀ g ∈ p.functions, g.Proper ∧ g.Sound p := fun g hg =>
    Function.sound_of_compile hcompile hg
  refine ⟨?_, fun g hg arguments => Function.assigned_lt (hsound g hg).2 arguments⟩
  obtain ⟨w, -, hends⟩ := ends_invoke hcompile hf haccepts hargs.coherent
  cases hr : p.invoke f.name args heap with
  | error e heap' =>
    rw [hr] at hends
    obtain ⟨w', -, -, hdynamic⟩ := hends
    exact hdynamic
  | ok v heap' =>
    rw [hr] at hends
    obtain ⟨w', -, hheap, hv⟩ := hends
    obtain rfl : w'.heap = heap' := hheap
    exact World.conforms_of_proper (hsound f hf).1.2 hv

/-- Whether a computation gives a value. -/
def Run.succeeds {α : Type} : EStateM.Result Error Heap α → Bool
  | .ok _ _ => true
  | .error _ _ => false

/-- A program that raises the first number of a row and returns the row. -/
def Source.bump : Source :=
  ⟨"bump", "fn bump(grid: number[][], i: number) { row = grid[i]; row[0] += 1; return row; }"⟩

/-- The grid holds its row once, and the row holds numbers. -/
theorem Heap.separate_grid : Heap.grid.Separate [.array 1, .number 0] := by
  have hplace : ∀ {place : Place} {ref : Nat},
      Heap.grid.at? [.array 1, .number 0] place = some (.array ref) →
      place = ⟨0, []⟩ ∧ ref = 1 ∨ place = ⟨0, [0]⟩ ∧ ref = 0 := by
    rintro ⟨argument, path⟩ ref h
    rcases argument with _ | _ | i
    · exact (foldlM_child?_grid h).imp (by simp +contextual) (by simp +contextual)
    · exact absurd h (foldlM_child?_number path)
    · simp [Heap.at?] at h
  intro p q ref hp hq
  rcases hplace hp with ⟨rfl, rfl⟩ | ⟨rfl, rfl⟩
  · rcases hplace hq with ⟨rfl, -⟩ | ⟨-, h⟩
    · rfl
    · cases h
  · rcases hplace hq with ⟨-, h⟩ | ⟨rfl, -⟩
    · cases h
    · rfl

/-- The program compiles, its function accepts the grid, and the row that comes back has the one
dimension that analysis found for it. -/
theorem Program.typeSound_invoke_bump :
    ∃ p f, Source.bump.compile = .ok p ∧ f ∈ p.functions ∧
      Accepts f [.array 1, .number 0] .grid ∧ Heap.grid.Separate [.array 1, .number 0] ∧
      f.result ≠ .number ∧
      ∃ v heap', p.invoke f.name [.array 1, .number 0] .grid = .ok v heap' ∧
        heap'.conforms v (.dynamicArray f.result.depth) = true := by
  have hrun : (Source.bump.compile.toOption.map fun p => p.functions.map fun f =>
      decide ([Value.array 1, .number 0].length = f.params.length) &&
        (misfit? .grid f.signature [.array 1, .number 0]).isNone && decide (f.result ≠ .number) &&
        Run.succeeds (p.invoke f.name [.array 1, .number 0] .grid)) = some [true] := by
    decide +kernel
  obtain ⟨p, f, hcompile, hf, hchecks⟩ := Source.exists_of_compile hrun
  simp only [Bool.and_eq_true, decide_eq_true_eq, Option.isNone_iff_eq_none] at hchecks
  obtain ⟨⟨⟨hlength, hmisfit⟩, hne⟩, hsucceeds⟩ := hchecks
  have hmem : f ∈ p.functions := by
    rw [hf]
    exact List.mem_singleton_self f
  have hsound := (typeSound_invoke hcompile hmem ⟨hlength, hmisfit⟩ Heap.separate_grid).1
  refine ⟨p, f, hcompile, hmem, ⟨hlength, hmisfit⟩, Heap.separate_grid, hne, ?_⟩
  cases hr : p.invoke f.name [.array 1, .number 0] .grid with
  | error e heap' =>
    rw [hr] at hsucceeds
    cases hsucceeds
  | ok v heap' =>
    rw [hr] at hsound
    exact ⟨v, heap', rfl, hsound.2 hne⟩

end ArrayScript
