import ArrayScript.Proofs.Safety

/-!
# `ArrayScript.Proofs.Arguments`: what the arguments of a host say about the heap

A host hands over values that have the shapes of the parameters. Each array below an argument is
then seen with some number of dimensions, namely those that the parameter's type still has at its
`Place`. The heap becomes a `World` when no array with elements is seen with two different numbers
of dimensions (`Heap.Coherent`); `World.ofArguments` is that world.

Arguments that share no array at all are coherent (`Heap.Separate.coherent`). Sharing alone does no
harm, but an array that is seen at two depths can: see `ArrayScript.Proofs.Acyclic`.

`Program.ends_invoke` joins this to the safety of calls: a host that brings coherent arguments
starts a run that ends well.
-/

set_option autoImplicit false

namespace ArrayScript

/-! ### Places -/

/-- A place below a list of arguments: which argument, and the positions that lead down from it. -/
structure Place where
  argument : Nat
  path : List Nat

/-- The place of an element, below the place of its array. -/
def Place.extend (place : Place) (position : Nat) : Place :=
  ⟨place.argument, place.path ++ [position]⟩

/-- The dimensions that the parameters' types leave at a place. -/
def Place.rank (params : List Ty) (place : Place) : List Dim :=
  ((params[place.argument]?.map Ty.rank).getD []).drop place.path.length

/-- As many dimensions are left as the parameter has, less those that the path has used up. -/
theorem Place.length_rank (params : List Ty) (place : Place) :
    (place.rank params).length
      = (params.map Ty.depth)[place.argument]?.getD 0 - place.path.length := by
  cases hty : params[place.argument]? <;> simp [Place.rank, hty, Ty.depth]

/-- An element has one dimension less than its array. -/
theorem Place.rank_extend (params : List Ty) (place : Place) (position : Nat) :
    (place.extend position).rank params = (place.rank params).tail := by
  simp [Place.extend, Place.rank]

namespace Heap

/-- The element of an array at a position. -/
def child? (h : Heap) (v : Value) (position : Nat) : Option Value := do
  let items ← h.items? v
  items[position]?

/-- What stands at a place below arguments. -/
def at? (h : Heap) (args : List Value) (place : Place) : Option Value := do
  let v ← args[place.argument]?
  place.path.foldlM h.child? v

variable {h : Heap} {params : List Ty} {args : List Value} {place : Place} {v : Value} {ref : Nat}

/-- What stands below a place is an element of what stands at it. -/
theorem at?_extend (h : Heap) (args : List Value) (place : Place) (position : Nat) :
    h.at? args (place.extend position)
      = (h.at? args place).bind fun v => h.child? v position := by
  cases harg : args[place.argument]? with
  | none => simp [at?, Place.extend, harg]
  | some v => simp [at?, Place.extend, harg, List.foldlM_append]

/-- Whether no array stands at two places: the arguments form separate trees. -/
def Separate (h : Heap) (args : List Value) : Prop :=
  ∀ ⦃p q : Place⦄ ⦃ref : Nat⦄, h.at? args p = some (.array ref) →
    h.at? args q = some (.array ref) → p = q

/-- Whether every array with elements is seen with one number of dimensions, wherever it stands. -/
def Coherent (h : Heap) (params : List Ty) (args : List Value) : Prop :=
  ∀ ⦃p q : Place⦄ ⦃ref : Nat⦄ ⦃items : Array Value⦄, h.at? args p = some (.array ref) →
    h.at? args q = some (.array ref) → h.arrays[ref]? = some items → items ≠ #[] →
    (p.rank params).length = (q.rank params).length

/-- Separate trees are coherent, whatever the parameters. -/
theorem Separate.coherent (hargs : h.Separate args) : h.Coherent params args := by
  intro p q ref items hp hq _ _
  rw [hargs hp hq]

/-! ### Shapes at places -/

/-- A type of values asks for the shape of its dimensions. -/
theorem conforms_of_proper {ty : Ty} (hty : ty.Proper) (v : Value) :
    h.conforms v ty = h.conformsToRank ty.rank v := by
  rw [← hty]
  cases hrank : ty.rank <;> simp [Ty.ofRank, Ty.rank, conforms]

/-- Whether each argument has the shape that its parameter's dimensions ask for. -/
def ArgumentsFit (h : Heap) (params : List Ty) (args : List Value) : Prop :=
  ∀ (i : Nat) (v : Value), args[i]? = some v →
    ∃ ty, params[i]? = some ty ∧ h.conformsToRank ty.rank v = true

/-- What stands at a place has the shape of the dimensions that are left there. -/
theorem conformsToRank_at (hfit : h.ArgumentsFit params args) :
    h.at? args place = some v → h.conformsToRank (place.rank params) v = true := by
  obtain ⟨argument, path⟩ := place
  -- Places are extended at the end of their path, so the induction takes it apart there.
  induction path using List.reverseRecOn generalizing v with
  | nil =>
    intro hv
    have harg : args[argument]? = some v := by simpa [at?] using hv
    obtain ⟨ty, hty, hrank⟩ := hfit argument v harg
    simpa [Place.rank, hty] using hrank
  | append_singleton path position ih =>
    intro hv
    change h.at? args (Place.extend ⟨argument, path⟩ position) = some v at hv
    show h.conformsToRank ((Place.extend ⟨argument, path⟩ position).rank params) v = true
    rw [at?_extend] at hv
    obtain ⟨u, hu, hchild⟩ := Option.bind_eq_some_iff.mp hv
    obtain ⟨items, hitems, hposition⟩ := Option.bind_eq_some_iff.mp hchild
    have hconforms := ih hu
    rw [Place.rank_extend]
    -- What has an element is an array, so a dimension is left.
    cases hrank : Place.rank params ⟨argument, path⟩ with
    | nil =>
      cases u with
      | number x => cases hitems
      | array ref => simp [hrank, conformsToRank] at hconforms
    | cons dim dims =>
      rw [hrank, conformsToRank, hitems] at hconforms
      simp only [Bool.and_eq_true, Array.all_eq_true_iff_forall_mem] at hconforms
      exact hconforms.2 v (Array.mem_of_getElem? hposition)

/-! ### Depths -/

open Classical in
/-- The number of dimensions that an array is seen with, and zero for arrays that stand at no
place. -/
noncomputable def depthOf (h : Heap) (params : List Ty) (args : List Value) (ref : Nat) : Nat :=
  if hplace : ∃ p, h.at? args p = some (.array ref) then (hplace.choose.rank params).length else 0

/-- An array with elements has the depth that each of its places gives it. -/
theorem depthOf_eq (hargs : h.Coherent params args) (hplace : h.at? args place = some (.array ref))
    {items : Array Value} (hitems : h.arrays[ref]? = some items) (hne : items ≠ #[]) :
    h.depthOf params args ref = (place.rank params).length := by
  have hexists : ∃ p, h.at? args p = some (.array ref) := ⟨place, hplace⟩
  rw [depthOf, dif_pos hexists]
  exact hargs hexists.choose_spec hplace hitems hne

/-- An array with a depth stands at a place that gives it this depth. -/
theorem exists_place (hdepth : h.depthOf params args ref ≠ 0) :
    ∃ p, h.at? args p = some (.array ref) ∧
      h.depthOf params args ref = (p.rank params).length := by
  by_cases hexists : ∃ p, h.at? args p = some (.array ref)
  · refine ⟨hexists.choose, hexists.choose_spec, ?_⟩
    rw [depthOf, dif_pos hexists]
  · rw [depthOf, dif_neg hexists] at hdepth
    exact absurd rfl hdepth

/-- What stands at a place is as deep as dimensions are left there. -/
theorem hasDepth_at (hfit : h.ArgumentsFit params args) (hargs : h.Coherent params args)
    (hplace : h.at? args place = some v) :
    h.HasDepth (h.depthOf params args) v (place.rank params).length := by
  have hconforms := conformsToRank_at hfit hplace
  cases hrank : place.rank params with
  | nil =>
    cases v with
    | number x => exact rfl
    | array ref => simp [hrank, conformsToRank] at hconforms
  | cons dim dims =>
    cases v with
    | number x => simp [hrank, conformsToRank, items?] at hconforms
    | array ref =>
      cases hitems : h.arrays[ref]? with
      | none => simp [hrank, conformsToRank, items?, hitems] at hconforms
      | some items =>
        refine ⟨by simp, items, hitems, ?_⟩
        by_cases hempty : items = #[]
        · exact .inl hempty
        · rw [← hrank]
          exact .inr (depthOf_eq hargs hplace hitems hempty)

end Heap

/-- The world of coherent arguments: arrays below an argument have the depth they are seen with,
and all others are left alone. -/
noncomputable def World.ofArguments {h : Heap} {params : List Ty} {args : List Value}
    (hfit : h.ArgumentsFit params args) (hargs : h.Coherent params args) : World where
  heap := h
  depth := h.depthOf params args
  nested {ref items} hitems hdepth v hv := by
    obtain ⟨place, hplace, heq⟩ := Heap.exists_place hdepth
    obtain ⟨position, hposition⟩ := Array.getElem?_of_mem hv
    -- An element of an array at a place stands at a place of its own.
    have helement : h.at? args (place.extend position) = some v := by
      rw [Heap.at?_extend, hplace]
      simp [Heap.child?, Heap.items?, hitems, hposition]
    have hv' := Heap.hasDepth_at hfit hargs helement
    rw [Place.rank_extend, List.length_tail] at hv'
    rw [heq]
    exact hv'

/-- In the world of its arguments, a function is called with arguments as deep as its parameters. -/
theorem World.haveDepths_ofArguments {h : Heap} {params : List Ty} {args : List Value}
    (hfit : h.ArgumentsFit params args) (hargs : h.Coherent params args)
    (hlength : args.length = params.length) :
    (World.ofArguments hfit hargs).HaveDepths args (params.map Ty.depth) := by
  refine List.forall₂_iff_get.mpr ⟨by simpa using hlength, ?_⟩
  intro i hi hi'
  have hi'' : i < params.length := by simpa using hi'
  have hplace : h.at? args ⟨i, []⟩ = some args[i] := by simp [Heap.at?, hi]
  have hdepth := Heap.hasDepth_at hfit hargs hplace
  have hrank : Place.rank params ⟨i, []⟩ = params[i].rank := by
    simp [Place.rank, hi'']
  rw [hrank] at hdepth
  simp only [List.get_eq_getElem, List.getElem_map]
  exact hdepth

/-- Arguments that a function accepts have the shapes of its parameters' dimensions. -/
theorem Program.Accepts.argumentsFit {f : Function} {args : List Value} {heap : Heap}
    (h : Program.Accepts f args heap) (hf : ∀ ty ∈ f.params, ty.Proper) :
    heap.ArgumentsFit f.params args := by
  intro i v hv
  have hany := Program.misfit?_eq_none.mp h.2 i v hv
  cases hty : f.params[i]? with
  | none => simp [Signature.param?, Function.signature, hty] at hany
  | some ty =>
    have hconforms : heap.conforms v ty = true := by
      simpa [Signature.param?, Function.signature, hty] using hany
    rw [Heap.conforms_of_proper (hf ty (List.mem_of_getElem? hty))] at hconforms
    exact ⟨ty, rfl, hconforms⟩

/-- A host that brings coherent arguments to a function of a program that comes from a text starts
a run in a world, and the run ends well. -/
theorem Program.ends_invoke {source : Source} {p : Program} (hcompile : source.compile = .ok p)
    {f : Function} (hf : f ∈ p.functions) {args : List Value} {heap : Heap}
    (haccepts : Accepts f args heap) (hargs : heap.Coherent f.params args) :
    ∃ w : World, w.heap = heap ∧
      w.Ends id (fun w' _ v => w'.HasDepth v f.result.depth) (p.invoke f.name args heap) := by
  obtain ⟨decls, -, hbuilt⟩ := Source.built_of_compile hcompile
  have hfit := haccepts.argumentsFit (Function.sound_of_compile hcompile hf).1.1
  have hsafe := safe_call (fun g hg => (Function.sound_of_compile hcompile hg).2)
    (maxCallDepth + 1) f hf (.ofArguments hfit hargs) args
    (World.haveDepths_ofArguments hfit hargs haccepts.1)
  refine ⟨.ofArguments hfit hargs, rfl, ?_⟩
  rw [hbuilt.invoke_name hf, invokeFunction_eq haccepts]
  exact hsafe

/-! ### A small heap and small programs -/

/-- A text that compiles to one function, which passes a test. -/
theorem Source.exists_of_compile {source : Source} {test : Program → Function → Bool}
    (h : (source.compile.toOption.map fun p => p.functions.map (test p)) = some [true]) :
    ∃ p f, source.compile = .ok p ∧ p.functions = [f] ∧ test p f = true := by
  obtain ⟨p, hp, hfunctions⟩ := Option.map_eq_some_iff.mp h
  obtain ⟨f, hf, htest⟩ := List.map_eq_singleton_iff.mp hfunctions
  exact ⟨p, f, eq_ok_of_toOption hp, hf, htest⟩

/-- A heap with a row of two numbers, and a grid that consists of this row. -/
def Heap.grid : Heap :=
  ⟨#[#[.number 1, .number 2], #[.array 0]]⟩

/-- No array stands below a number. -/
theorem Heap.foldlM_child?_number {h : Heap} {x : Float} {ref : Nat} (path : List Nat) :
    path.foldlM h.child? (.number x) ≠ some (.array ref) := by
  cases path <;> simp [child?, items?]

/-- Below the row there is no array but the row itself. -/
theorem Heap.foldlM_child?_row {path : List Nat} {ref : Nat}
    (h : path.foldlM Heap.grid.child? (.array 0) = some (.array ref)) : path = [] ∧ ref = 0 := by
  rcases path with _ | ⟨_ | _ | i, path⟩
  · simpa [eq_comm] using h
  · exact absurd h (foldlM_child?_number path)
  · exact absurd h (foldlM_child?_number path)
  · simp [child?, items?, grid] at h

/-- Below the grid there are the grid itself and, at its first position, the row. -/
theorem Heap.foldlM_child?_grid {path : List Nat} {ref : Nat}
    (h : path.foldlM Heap.grid.child? (.array 1) = some (.array ref)) :
    path = [] ∧ ref = 1 ∨ path = [0] ∧ ref = 0 := by
  rcases path with _ | ⟨_ | i, path⟩
  · simpa [eq_comm] using h
  · obtain ⟨rfl, rfl⟩ := foldlM_child?_row h
    exact .inr ⟨rfl, rfl⟩
  · simp [child?, items?, grid] at h

end ArrayScript
