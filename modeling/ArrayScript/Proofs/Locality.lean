import ArrayScript.Proofs.Renaming
import ArrayScript.Proofs.Soundness

/-!
# `ArrayScript.Proofs.Locality`: a call touches only what its arguments reach

A host brings arguments to a call, and with them the arrays that they reach: those among the
arguments, and those inside of them through any chain of elements (`Heap.Reaches`). The rest of the
heap is out of bounds. `Program.local_invoke` says so in four ways, for every program and every run,
whether it succeeds or fails: arrays that the arguments do not reach stay as they are, no array
changes its length, a result reaches nothing that the arguments did not reach and the run did not
make, and the rest of the heap has no influence on the outcome.

For the last one the heap is exchanged for another that holds a copy of what the arguments reach,
under names of its own (`Heap.Copies`). The least such heap is the restriction of the first one to
the arrays that the arguments reach (`Heap.restrict`). The proof runs the program on both heaps side
by side (`ArrayScript.Proofs.Renaming`): what a run owns are the arrays that its arguments reach, as
they stand at the start, and all arrays that are made later.
-/

set_option autoImplicit false

namespace ArrayScript

open Relation (ReflTransGen)

namespace Heap

/-! ### Reach -/

/-- Whether an array is one of the given values, or inside of one through a chain of elements. -/
def Reaches (h : Heap) (values : List Value) (ref : Nat) : Prop :=
  ∃ start, Value.array start ∈ values ∧ ReflTransGen h.Holds start ref

variable {h h₂ : Heap} {values : List Value} {name : Nat → Nat} {outer inner ref : Nat}

/-- The elements of an array that is reached are reached. -/
theorem Reaches.tail (hreach : h.Reaches values outer) (hholds : h.Holds outer inner) :
    h.Reaches values inner := by
  obtain ⟨start, hmem, hchain⟩ := hreach
  exact ⟨start, hmem, hchain.tail hholds⟩

/-- Values that have shapes reach only arrays that the heap has. The shapes get smaller from one
array to the next. -/
theorem Reaches.exists_items (hshapes : ∀ v ∈ values, ∃ rank, h.conformsToRank rank v = true)
    (hreach : h.Reaches values ref) : ∃ items, h.arrays[ref]? = some items := by
  have hshape : ∃ rank, h.conformsToRank rank (.array ref) = true := by
    obtain ⟨start, hmem, hchain⟩ := hreach
    induction hchain with
    | refl => exact hshapes _ hmem
    | tail _ hholds ih =>
      obtain ⟨rank, hrank⟩ := ih
      obtain ⟨items, hitems, hinner⟩ := hholds
      cases rank with
      | nil => simp [conformsToRank] at hrank
      | cons dim dims =>
        simp only [conformsToRank, items?, hitems, Bool.and_eq_true,
          Array.all_eq_true_iff_forall_mem] at hrank
        exact ⟨dims, hrank.2 _ hinner⟩
  obtain ⟨rank, hrank⟩ := hshape
  cases rank with
  | nil => simp [conformsToRank] at hrank
  | cons dim dims =>
    cases hitems : h.arrays[ref]? with
    | none => simp [conformsToRank, items?, hitems] at hrank
    | some items => exact ⟨items, rfl⟩

/-! ### Copies -/

/-- Whether the arrays that some values reach are also in a second heap, under other names. -/
structure Copies (h : Heap) (values : List Value) (name : Nat → Nat) (h₂ : Heap) : Prop where
  injective : ∀ {ref ref' : Nat}, h.Reaches values ref → h.Reaches values ref' →
    name ref = name ref' → ref = ref'
  arrays : ∀ {ref : Nat}, h.Reaches values ref → ∃ items, h.arrays[ref]? = some items ∧
    h₂.arrays[name ref]? = some (items.map (Value.rename name))

/-- The names of arrays in a second heap, when two runs make new ones: the arrays that were there
keep the names they have, and new arrays are paired in the order in which they are made. -/
def namesAfter (h h₂ : Heap) (name : Nat → Nat) (ref : Nat) : Nat :=
  if ref < h.arrays.size then name ref else ref - h.arrays.size + h₂.arrays.size

/-- The arrays that a run on some values may come across: those that they reach at its start, and
those that it makes. -/
def Known (h : Heap) (values : List Value) (ref : Nat) : Prop :=
  h.Reaches values ref ∨ h.arrays.size ≤ ref

namespace Copies

variable (hcopy : h.Copies values name h₂)

include hcopy

/-- What is reached is there in both heaps. -/
theorem lt (hreach : h.Reaches values ref) :
    ref < h.arrays.size ∧ name ref < h₂.arrays.size := by
  obtain ⟨items, hitems, hitems₂⟩ := hcopy.arrays hreach
  exact ⟨(Array.getElem?_eq_some_iff.mp hitems).1, (Array.getElem?_eq_some_iff.mp hitems₂).1⟩

theorem namesAfter_of_reaches (hreach : h.Reaches values ref) :
    h.namesAfter h₂ name ref = name ref :=
  if_pos (hcopy.lt hreach).1

/-- What a run owns, and what its arrays are called in the second heap. -/
def naming : Naming where
  owned := h.Known values
  name := h.namesAfter h₂ name
  injective {ref ref'} howned howned' hname := by
    unfold namesAfter at hname
    rcases howned with hreach | hnew
    · have hlt := hcopy.lt hreach
      rcases howned' with hreach' | hnew'
      · have hlt' := hcopy.lt hreach'
        rw [if_pos hlt.1, if_pos hlt'.1] at hname
        exact hcopy.injective hreach hreach' hname
      · rw [if_pos hlt.1, if_neg (by omega)] at hname
        omega
    · rcases howned' with hreach' | hnew'
      · have hlt' := hcopy.lt hreach'
        rw [if_neg (by omega), if_pos hlt'.1] at hname
        omega
      · rw [if_neg (by omega), if_neg (by omega)] at hname
        omega

/-- Values that reach what is copied are owned. -/
theorem owns {v : Value} (hv : ∀ ref, v = .array ref → h.Reaches values ref) :
    hcopy.naming.Owns h v := by
  cases v with
  | number x => trivial
  | array ref =>
    obtain ⟨items, hitems, -⟩ := hcopy.arrays (hv ref rfl)
    exact ⟨.inl (hv ref rfl), items, hitems⟩

/-- A run may start with the names that the copy gives. -/
theorem rename_eq {v : Value} (hv : ∀ ref, v = .array ref → h.Reaches values ref) :
    v.rename (h.namesAfter h₂ name) = v.rename name := by
  cases v with
  | number x => rfl
  | array ref => rw [Value.rename, Value.rename, hcopy.namesAfter_of_reaches (hv ref rfl)]

/-- A heap and a copy are alike at the start of a run. -/
theorem alike : hcopy.naming.Alike h h₂ := by
  refine ⟨?_, ?_⟩
  · intro ref items howned hitems
    have hlt := (Array.getElem?_eq_some_iff.mp hitems).1
    have hreach : h.Reaches values ref := howned.resolve_right (by omega)
    have helement : ∀ v ∈ items, ∀ inner, v = .array inner → h.Reaches values inner := by
      rintro _ hv inner rfl
      exact hreach.tail ⟨items, hitems, hv⟩
    obtain ⟨items', hitems', hitems₂⟩ := hcopy.arrays hreach
    obtain rfl : items = items' := Option.some.inj (hitems.symm.trans hitems')
    refine ⟨fun v hv => hcopy.owns (helement v hv), ?_⟩
    show h₂.arrays[h.namesAfter h₂ name ref]?
      = some (items.map (Value.rename (h.namesAfter h₂ name)))
    rw [hcopy.namesAfter_of_reaches hreach, hitems₂]
    congr 1
    exact Array.map_congr_left fun v hv => (hcopy.rename_eq (helement v hv)).symm
  · intro count
    refine ⟨.inr (by omega), ?_⟩
    show h.namesAfter h₂ name (h.arrays.size + count) = h₂.arrays.size + count
    rw [namesAfter, if_neg (by omega)]
    omega

/-- The values themselves are the same up to their names. -/
theorem sameAll : hcopy.naming.SameAll h values (values.map (Value.rename name)) := by
  have hself : ∀ v ∈ values, ∀ ref, v = .array ref → h.Reaches values ref := by
    rintro _ hv ref rfl
    exact ⟨ref, hv, .refl⟩
  refine ⟨fun v hv => hcopy.owns (hself v hv), ?_⟩
  exact List.map_congr_left fun v hv => (hcopy.rename_eq (hself v hv)).symm

end Copies

/-! ### The least copy -/

open Classical in
/-- The arrays that values reach, in the order in which they were made. -/
noncomputable def reached (h : Heap) (values : List Value) : List Nat :=
  (List.range h.arrays.size).filter fun ref => decide (h.Reaches values ref)

/-- The name of an array among those that values reach. -/
noncomputable def nameAmong (h : Heap) (values : List Value) (ref : Nat) : Nat :=
  (h.reached values).idxOf ref

/-- The heap that has the arrays that values reach, and no others. -/
noncomputable def restrict (h : Heap) (values : List Value) : Heap :=
  ⟨((h.reached values).map fun ref =>
    (h.arrays[ref]?.getD #[]).map (Value.rename (h.nameAmong values))).toArray⟩

/-- The restriction to what values reach is a copy of it. -/
theorem copies_restrict (hshapes : ∀ v ∈ values, ∃ rank, h.conformsToRank rank v = true) :
    h.Copies values (h.nameAmong values) (h.restrict values) := by
  have hmem : ∀ {ref : Nat}, h.Reaches values ref → ref ∈ h.reached values := by
    intro ref hreach
    obtain ⟨items, hitems⟩ := hreach.exists_items hshapes
    have hlt := (Array.getElem?_eq_some_iff.mp hitems).1
    simp [reached, hlt, hreach]
  refine ⟨?_, ?_⟩
  · intro ref ref' hreach hreach' hname
    exact (List.idxOf_inj (hmem hreach)).mp hname
  · intro ref hreach
    obtain ⟨items, hitems⟩ := hreach.exists_items hshapes
    refine ⟨items, hitems, ?_⟩
    have hplace : (h.reached values)[h.nameAmong values ref]? = some ref :=
      List.getElem?_idxOf (hmem hreach)
    simp [restrict, hplace, hitems]

end Heap

/-! ### Outcomes -/

/-- Whether some arrays of a heap are also in a second heap, under other names. What the first heap
does not have, the second does not have either. -/
def Heap.SameArrays (known : Nat → Prop) (name : Nat → Nat) (h h₂ : Heap) : Prop :=
  ∀ ref, known ref → h₂.arrays[name ref]? = h.arrays[ref]?.map (Array.map (Value.rename name))

/-- Whether two runs have the same outcome, up to the names of arrays: both succeed with the same
result or both fail with the same error, and they leave the same arrays. -/
def Run.SameOutcome (known : Nat → Prop) (name : Nat → Nat) :
    EStateM.Result Error Heap Value → EStateM.Result Error Heap Value → Prop
  | .ok v h, .ok w h₂ => w = v.rename name ∧ h.SameArrays known name h₂
  | .error e h, .error e' h₂ => e' = e ∧ h.SameArrays known name h₂
  | _, _ => False

namespace Naming

variable {N : Naming} {h h₂ : Heap}

/-- Heaps that are alike have the same owned arrays. -/
theorem Alike.sameArrays (ha : N.Alike h h₂) : h.SameArrays N.owned N.name h₂ := by
  intro ref howned
  cases hitems : h.arrays[ref]? with
  | some items => exact (ha.arrays howned hitems).2
  | none =>
    have hge : h.arrays.size ≤ ref := Array.getElem?_eq_none_iff.mp hitems
    have hname := (ha.fresh (ref - h.arrays.size)).2
    rw [Nat.add_sub_cancel' hge] at hname
    exact Array.getElem?_eq_none (by omega)

/-- Runs that end alike have the same outcome. -/
theorem sameOutcome {start : Heap} {r r' : EStateM.Result Error Heap Value}
    (hends : N.pledge.EndsAlike N.Alike start N.Same r r') :
    Run.SameOutcome N.owned N.name r r' := by
  cases r with
  | ok v h =>
    cases r' with
    | ok w h₂ => exact ⟨hends.2.2.2, hends.2.1.sameArrays⟩
    | error e h₂ => exact hends
  | error e h =>
    cases r' with
    | ok w h₂ => exact hends
    | error e' h₂ => exact ⟨hends.2.2.2, hends.2.1.sameArrays⟩

/-- From an owned value only owned arrays of the heap are reached. -/
theorem Alike.owns_of_reaches (ha : N.Alike h h₂) {v : Value} (hv : N.Owns h v) {ref : Nat}
    (hreach : h.Reaches [v] ref) : N.Owns h (.array ref) := by
  obtain ⟨start, hmem, hchain⟩ := hreach
  obtain rfl := List.mem_singleton.mp hmem
  induction hchain with
  | refl => exact hv
  | tail _ hholds ih =>
    obtain ⟨items, hitems, hinner⟩ := hholds
    exact (ha.arrays ih.1 hitems).1 _ hinner

end Naming

namespace Program

variable {p : Program} {file : String} {decls : List Decl} {f : Function} {args : List Value}
  {heap heap₂ : Heap} {name : Nat → Nat}

/-- Arguments that a function accepts have shapes. -/
theorem Accepts.exists_rank (h : Accepts f args heap) (hf : ∀ ty ∈ f.params, ty.Proper) :
    ∀ v ∈ args, ∃ rank, heap.conformsToRank rank v = true := by
  intro v hv
  obtain ⟨i, hi⟩ := List.mem_iff_getElem?.mp hv
  obtain ⟨ty, -, hrank⟩ := h.argumentsFit hf i v hi
  exact ⟨ty.rank, hrank⟩

/-- A function that accepts arguments accepts a copy of them. -/
theorem Accepts.of_copies (h : Accepts f args heap) (hf : ∀ ty ∈ f.params, ty.Proper)
    (hcopy : heap.Copies args name heap₂) :
    Accepts f (args.map (Value.rename name)) heap₂ := by
  refine ⟨by simpa using h.1, misfit?_eq_none.mpr ?_⟩
  obtain ⟨howns, hnames⟩ := hcopy.sameAll
  rw [hnames]
  intro i w hw
  rw [List.getElem?_map] at hw
  obtain ⟨v, hv, rfl⟩ := Option.map_eq_some_iff.mp hw
  have hany := misfit?_eq_none.mp h.2 i v hv
  have hsame : hcopy.naming.Same heap v (v.rename hcopy.naming.name) :=
    ⟨howns v (List.mem_of_getElem? hv), rfl⟩
  cases hty : f.params[i]? with
  | none => simp [Signature.param?, Function.signature, hty] at hany
  | some ty =>
    simp only [Signature.param?, Function.signature, hty, Option.some_or, Option.any_some] at hany ⊢
    rw [hcopy.alike.conforms_eq hsame (hf ty (List.mem_of_getElem? hty))]
    exact hany

/-- A call by a host and the same call on a copy end alike. -/
theorem Built.alike_invoke (hp : Built file decls p) (hf : f ∈ p.functions)
    (haccepts : Accepts f args heap) (hcopy : heap.Copies args name heap₂) :
    hcopy.naming.pledge.EndsAlike hcopy.naming.Alike heap hcopy.naming.Same
      (p.invoke f.name args heap) (p.invoke f.name (args.map (Value.rename name)) heap₂) := by
  have haccepts₂ := haccepts.of_copies (hp.proper_params hf) hcopy
  rw [hp.invoke_name hf, hp.invoke_name hf, invokeFunction_eq haccepts,
    invokeFunction_eq haccepts₂]
  exact Naming.alike_call p (maxCallDepth + 1) f hcopy.alike hcopy.sameAll

/-- A call is local to what its arguments reach, whether it succeeds or fails. Every array keeps its
length, and its elements too unless the arguments reach it. A result reaches only arrays that the
arguments reached, and arrays that the run has made. And the rest of the heap has no influence: the
restriction of the heap to what the arguments reach is a copy of that part, and on every copy the
run has the same outcome, up to the names of arrays. -/
theorem local_invoke (hp : ofDecls file decls = .ok p) (hf : f ∈ p.functions)
    (haccepts : Accepts f args heap) :
    (∀ (ref : Nat) (items : Array Value), heap.arrays[ref]? = some items →
      ∃ items', ((p.invoke f.name args).heapAfter heap).arrays[ref]? = some items' ∧
        items'.size = items.size ∧ (¬ heap.Reaches args ref → items' = items)) ∧
    (∀ (v : Value) (heap' : Heap), p.invoke f.name args heap = .ok v heap' →
      ∀ ref, heap'.Reaches [v] ref →
        heap.Reaches args ref ∨ heap.arrays.size ≤ ref ∧ ref < heap'.arrays.size) ∧
    heap.Copies args (heap.nameAmong args) (heap.restrict args) ∧
    ∀ (name : Nat → Nat) (heap₂ : Heap), heap.Copies args name heap₂ →
      Run.SameOutcome (heap.Known args) (heap.namesAfter heap₂ name) (p.invoke f.name args heap)
        (p.invoke f.name (args.map (Value.rename name)) heap₂) := by
  have hbuilt := ofDecls_ok.mp hp
  -- Everything is read off one comparison, that with the run on the smallest copy: it says what the
  -- run changes and what the result can reach.
  have hrestrict := Heap.copies_restrict (haccepts.exists_rank (hbuilt.proper_params hf))
  have hends := hbuilt.alike_invoke hf haccepts hrestrict
  refine ⟨?_, ?_, hrestrict, ?_⟩
  · intro ref items hitems
    have hlt := (Array.getElem?_eq_some_iff.mp hitems).1
    obtain ⟨items', hitems', hsize, hkeep⟩ := hends.heapAfter ref items hitems
    refine ⟨items', hitems', hsize, fun hnot => hkeep ?_⟩
    rintro (hreach | hnew)
    · exact hnot hreach
    · omega
  · intro v heap' hrun ref hreach
    rw [hrun] at hends
    cases hrun₂ : p.invoke f.name (args.map (Value.rename (heap.nameAmong args)))
        (heap.restrict args) with
    | error e h₂ =>
      rw [hrun₂] at hends
      exact hends.elim
    | ok w h₂ =>
      rw [hrun₂] at hends
      obtain ⟨-, halike, howns, -⟩ := hends
      obtain ⟨howned, items, hitems⟩ := halike.owns_of_reaches howns hreach
      exact howned.imp_right fun hnew => ⟨hnew, (Array.getElem?_eq_some_iff.mp hitems).1⟩
  · -- The comparison with any other copy is the same statement again.
    intro name heap₂ hcopy
    exact Naming.sameOutcome (hbuilt.alike_invoke hf haccepts hcopy)

end Program

/-- A program that changes a row, and returns it together with a new one. -/
def Source.pair : Source :=
  ⟨"pair", "fn pair(row: number[]) { row[0] += 1; return [row, [row[0]]]; }"⟩

/-- The row of the grid, alone. -/
def Heap.row : Heap :=
  ⟨#[#[.number 1, .number 2]]⟩

/-- The row reaches only itself, not the grid that it is part of. -/
theorem Heap.eq_zero_of_reaches_row {ref : Nat} (h : Heap.grid.Reaches [.array 0] ref) :
    ref = 0 := by
  obtain ⟨start, hmem, hchain⟩ := h
  obtain rfl : start = 0 := by simpa using hmem
  induction hchain with
  | refl => rfl
  | tail _ hholds ih =>
    obtain ⟨items, hitems, hinner⟩ := hholds
    rw [ih] at hitems
    obtain rfl : #[Value.number 1, .number 2] = items := by simpa [grid] using hitems
    simp at hinner

/-- The row without the grid is a copy of what the row reaches. -/
theorem Heap.copies_row : Heap.grid.Copies [.array 0] id .row := by
  refine ⟨?_, ?_⟩
  · intro ref ref' _ _ hname
    exact hname
  · intro ref hreach
    rw [eq_zero_of_reaches_row hreach]
    exact ⟨#[.number 1, .number 2], rfl, by simp [row, Value.rename]⟩

/-- The run writes to the row, the grid around it stays as it is, and without the grid the outcome
is the same. -/
theorem Program.local_invoke_pair :
    ∃ decls p f, ofDecls Source.pair.file decls = .ok p ∧ f ∈ p.functions ∧
      Accepts f [.array 0] .grid ∧ Run.succeeds (p.invoke f.name [.array 0] .grid) = true ∧
      ((p.invoke f.name [.array 0]).heapAfter .grid).arrays[1]? = some #[.array 0] ∧
      Run.SameOutcome (Heap.grid.Known [.array 0]) (Heap.grid.namesAfter .row id)
        (p.invoke f.name [.array 0] .grid) (p.invoke f.name [.array 0] .row) := by
  have hrun : (Source.pair.compile.toOption.map fun p => p.functions.map fun f =>
      decide ([Value.array 0].length = f.params.length) &&
        (misfit? .grid f.signature [.array 0]).isNone &&
        Run.succeeds (p.invoke f.name [.array 0] .grid)) = some [true] := by
    decide +kernel
  obtain ⟨p, f, hcompile, hf, hchecks⟩ := Source.exists_of_compile hrun
  simp only [Bool.and_eq_true, decide_eq_true_eq, Option.isNone_iff_eq_none] at hchecks
  obtain ⟨⟨hlength, hmisfit⟩, hsucceeds⟩ := hchecks
  have hmem : f ∈ p.functions := by
    rw [hf]
    exact List.mem_singleton_self f
  obtain ⟨decls, -, hbuilt⟩ := Source.built_of_compile hcompile
  have hp := ofDecls_ok.mpr hbuilt
  obtain ⟨hframe, -, -, hsame⟩ := local_invoke hp hmem ⟨hlength, hmisfit⟩
  obtain ⟨items, hitems, -, hkeep⟩ := hframe 1 #[.array 0] rfl
  refine ⟨decls, p, f, hp, hmem, ⟨hlength, hmisfit⟩, hsucceeds, ?_, hsame id .row Heap.copies_row⟩
  rw [hitems, hkeep fun hreach => absurd (Heap.eq_zero_of_reaches_row hreach) (by decide)]

end ArrayScript
