import ArrayScript.Proofs.Allocation

/-!
# `ArrayScript.Proofs.Conformance`: compatible types are those that share a value

Compatibility compares two lists of markers before a program runs, and conformance compares a list
of markers with a value while it runs. `Ty.compatible_iff_exists_value` says that they describe one
relation: two types are compatible exactly if some value has both of them.

Arrays without elements have to be left out. Nothing can be said about what is inside of them, so
they conform to types that differ there: `[]` is an array of pairs and also one of triples. For the
same reason no size of the types may be zero.

* `Heap.compatible_of_conforms`: what a value conforms to twice is compatible. The induction is on
  the markers and goes down into the first element of each array, which is why there has to be one.
* `Heap.exists_conforms`: for compatible markers, a new array of zeros conforms to both lists. Its
  sizes are those that one of the markers gives, and one where both are open (`Dim.common`).
-/

set_option autoImplicit false

namespace ArrayScript

/-- Whether a type is that of numbers or of arrays with a number of dimensions, none of which is
known to be empty. -/
def Ty.Fillable (ty : Ty) : Prop :=
  ty.Proper ∧ ∀ size, .fixed size ∈ ty.rank → 1 ≤ size

/-- A size that suits two markers. -/
def Dim.common : (a b : Dim) → Nat
  | fixed size, _ => size
  | dynamic, fixed size => size
  | dynamic, dynamic => 1

/-- A size that suits two compatible markers is compatible with both. -/
theorem Dim.common_compatible {a b : Dim} (h : a.compatible b = true) :
    (fixed (common a b)).compatible a = true ∧ (fixed (common a b)).compatible b = true := by
  cases a <;> cases b <;> simp_all [common, compatible]

/-- It is one at least if the sizes that the markers give are. -/
theorem Dim.one_le_common {a b : Dim} (ha : ∀ size, a = fixed size → 1 ≤ size)
    (hb : ∀ size, b = fixed size → 1 ≤ size) : 1 ≤ common a b := by
  cases a with
  | fixed size => exact ha size rfl
  | dynamic =>
    cases b with
    | fixed size => exact hb size rfl
    | dynamic => exact Nat.le_refl 1

/-- Markers that a size is compatible with are compatible with each other. -/
theorem Dim.compatible_of_fixed {a b : Dim} {size : Nat} (ha : (fixed size).compatible a = true)
    (hb : (fixed size).compatible b = true) : a.compatible b = true := by
  cases a <;> cases b <;> simp_all [compatible]

namespace Heap

variable {h : Heap} {v : Value} {ref : Nat} {a b rank : List Dim} {sizes : List Nat}

/-- Whether no array without elements is anywhere inside a value. -/
def Filled (h : Heap) (v : Value) : Prop :=
  ∀ ref, h.Reaches [v] ref → h.arrays[ref]? ≠ some #[]

/-- What is inside an element is inside the array. -/
theorem Filled.element {items : Array Value} (hv : h.Filled v) (hitems : h.items? v = some items)
    {u : Value} (hu : u ∈ items) : h.Filled u := by
  rintro ref ⟨start, hstart, hchain⟩
  obtain rfl := List.mem_singleton.mp hstart
  cases v with
  | number x => cases hitems
  | array outer =>
    have hholds : h.Holds outer start := ⟨items, hitems, hu⟩
    exact hv ref ⟨outer, List.mem_singleton_self _, .head hholds hchain⟩

/-- The array that a filled value refers to has an element. -/
theorem Filled.exists_mem {items : Array Value} (hv : h.Filled v)
    (hitems : h.items? v = some items) : ∃ u, u ∈ items := by
  cases v with
  | number x => cases hitems
  | array outer =>
    refine Array.exists_mem_of_ne_empty items ?_
    rintro rfl
    exact hv outer ⟨outer, List.mem_singleton_self _, .refl⟩ hitems

/-! ### From values to types -/

/-- A value with the shape of a rank that has a first dimension is an array. -/
theorem conformsToRank_cons {dim : Dim} {dims : List Dim} :
    h.conformsToRank (dim :: dims) v = true ↔ ∃ items, h.items? v = some items ∧
      (Dim.fixed items.size).compatible dim = true ∧
        ∀ u ∈ items, h.conformsToRank dims u = true := by
  rw [conformsToRank]
  cases h.items? v with
  | none => simp
  | some items => simp only [Bool.and_eq_true, Array.all_eq_true_iff_forall_mem, Option.some.injEq,
      exists_eq_left']

/-- Markers that one value conforms to twice are compatible one by one, unless an empty array hides
some of them. -/
theorem compatible_of_conforms (hv : h.Filled v) (ha : h.conformsToRank a v = true)
    (hb : h.conformsToRank b v = true) : List.Forall₂ (fun x y => x.compatible y = true) a b := by
  induction a generalizing b v with
  | nil =>
    cases b with
    | nil => exact .nil
    | cons dim' dims' =>
      -- A number is no array.
      obtain ⟨items, hitems, -⟩ := conformsToRank_cons.mp hb
      cases v with
      | number x => cases hitems
      | array ref => cases ha
  | cons dim dims ih =>
    obtain ⟨items, hitems, hdim, hall⟩ := conformsToRank_cons.mp ha
    cases b with
    | nil =>
      cases v with
      | number x => cases hitems
      | array ref => cases hb
    | cons dim' dims' =>
      obtain ⟨items', hitems', hdim', hall'⟩ := conformsToRank_cons.mp hb
      obtain rfl : items = items' := Option.some.inj (hitems.symm.trans hitems')
      obtain ⟨u, hu⟩ := hv.exists_mem hitems
      exact .cons (Dim.compatible_of_fixed hdim hdim')
        (ih (hv.element hitems hu) (hall u hu) (hall' u hu))

/-! ### From types to values -/

/-- A value with sizes that suit the markers of a rank conforms to it. -/
theorem conformsToRank_of_hasSizes
    (hfit : List.Forall₂ (fun size dim => (Dim.fixed size).compatible dim = true) sizes rank)
    (hv : h.HasSizes sizes v) : h.conformsToRank rank v = true := by
  induction hfit generalizing v with
  | nil =>
    obtain ⟨x, rfl⟩ := hv
    rfl
  | cons hsize _ ih =>
    obtain ⟨items, hitems, rfl, hall⟩ := hv
    exact conformsToRank_cons.mpr ⟨items, hitems, hsize, fun u hu => ih (hall u hu)⟩

/-- An array that has sizes has a first one, and its elements have the others. -/
theorem HasSizes.exists_items (hsizes : h.HasSizes sizes (.array ref)) :
    ∃ (items : Array Value) (rest : List Nat), h.arrays[ref]? = some items ∧
      sizes = items.size :: rest ∧ ∀ u ∈ items, h.HasSizes rest u := by
  cases sizes with
  | nil =>
    obtain ⟨x, hx⟩ := hsizes
    cases hx
  | cons size rest =>
    obtain ⟨items, hitems, rfl, hall⟩ := hsizes
    exact ⟨items, rest, hitems, rfl, hall⟩

/-- A value with sizes above zero is filled: every array inside has some of these sizes. -/
theorem HasSizes.filled (hv : h.HasSizes sizes v) (hpos : ∀ size ∈ sizes, 1 ≤ size) :
    h.Filled v := by
  rintro ref ⟨start, hstart, hchain⟩
  obtain rfl := List.mem_singleton.mp hstart
  have hinside : ∃ left, (∀ size ∈ left, 1 ≤ size) ∧ h.HasSizes left (.array ref) := by
    induction hchain with
    | refl => exact ⟨sizes, hpos, hv⟩
    | tail _ hholds ih =>
      obtain ⟨left, hleft, hsizes⟩ := ih
      obtain ⟨items, hitems, hinner⟩ := hholds
      obtain ⟨items', rest, hitems', rfl, hall⟩ := hsizes.exists_items
      obtain rfl : items = items' := Option.some.inj (hitems.symm.trans hitems')
      exact ⟨rest, (List.forall_mem_cons.mp hleft).2, hall _ hinner⟩
  obtain ⟨left, hleft, hsizes⟩ := hinside
  obtain ⟨items, rest, hitems, rfl, -⟩ := hsizes.exists_items
  have hsize : 1 ≤ items.size := (List.forall_mem_cons.mp hleft).1
  intro hempty
  obtain rfl : items = #[] := Option.some.inj (hitems.symm.trans hempty)
  cases hsize

/-- Markers that are compatible one by one have a filled value that conforms to both lists. -/
theorem exists_conforms (hab : List.Forall₂ (fun x y => x.compatible y = true) a b)
    (ha : ∀ size, .fixed size ∈ a → 1 ≤ size) (hb : ∀ size, .fixed size ∈ b → 1 ≤ size) :
    ∃ h v, Filled h v ∧ h.conformsToRank a v = true ∧ h.conformsToRank b v = true := by
  have hsizes : ∃ sizes : List Nat, (∀ size ∈ sizes, 1 ≤ size) ∧
      List.Forall₂ (fun size dim => (Dim.fixed size).compatible dim = true) sizes a ∧
      List.Forall₂ (fun size dim => (Dim.fixed size).compatible dim = true) sizes b := by
    induction hab with
    | nil => exact ⟨[], by simp, .nil, .nil⟩
    | @cons x y a b hxy _ ih =>
      obtain ⟨sizes, hpos, hfit, hfit'⟩ := ih
        (fun size hmem => ha size (List.mem_cons_of_mem _ hmem))
        (fun size hmem => hb size (List.mem_cons_of_mem _ hmem))
      obtain ⟨hx, hy⟩ := Dim.common_compatible hxy
      refine ⟨Dim.common x y :: sizes, List.forall_mem_cons.mpr ⟨?_, hpos⟩, .cons hx hfit,
        .cons hy hfit'⟩
      refine Dim.one_le_common ?_ ?_
      · rintro size rfl
        exact ha size List.mem_cons_self
      · rintro size rfl
        exact hb size List.mem_cons_self
  obtain ⟨sizes, hpos, hfit, hfit'⟩ := hsizes
  have hmade := (zeros_allocate sizes empty).2.2.hasSizes
  exact ⟨_, _, hmade.filled hpos, conformsToRank_of_hasSizes hfit hmade,
    conformsToRank_of_hasSizes hfit' hmade⟩

end Heap

namespace Ty

/-- Two types are compatible exactly if some value without empty arrays inside has the shape of
both. -/
theorem compatible_iff_exists_value {actual expected : Ty} (ha : actual.Fillable)
    (he : expected.Fillable) :
    actual.compatible expected = true ↔
      ∃ (h : Heap) (v : Value), h.Filled v ∧ h.conforms v actual = true ∧
        h.conforms v expected = true := by
  have hmarkers : actual.compatible expected = true ↔
      List.Forall₂ (fun x y => x.compatible y = true) actual.rank expected.rank := by
    rw [← ha.1, ← he.1, compatible_ofRank_iff, List.forall₂_iff_zip, rank_ofRank, rank_ofRank]
    exact and_congr_right fun _ => ⟨fun hall _ _ hpair => hall _ hpair,
      fun hall _ hpair => hall hpair⟩
  simp only [hmarkers, Heap.conforms_of_proper ha.1, Heap.conforms_of_proper he.1]
  constructor
  · intro hab
    exact Heap.exists_conforms hab ha.2 he.2
  · rintro ⟨h, v, hv, hactual, hexpected⟩
    exact Heap.compatible_of_conforms hv hactual hexpected

/-- Two rows of any length and any number of rows of length three share a value; two rows and three
rows share none. -/
theorem compatible_iff_exists_value_rows :
    (∃ (h : Heap) (v : Value), h.Filled v ∧
      h.conforms v (.array [.fixed 2, .dynamic]) = true ∧
      h.conforms v (.array [.dynamic, .fixed 3]) = true) ∧
    ¬ ∃ (h : Heap) (v : Value), h.Filled v ∧
      h.conforms v (.array [.fixed 2, .dynamic]) = true ∧
      h.conforms v (.array [.fixed 3, .dynamic]) = true := by
  have htwo : Fillable (.array [.fixed 2, .dynamic]) := ⟨rfl, by simp [rank]⟩
  have hopen : Fillable (.array [.dynamic, .fixed 3]) := ⟨rfl, by simp [rank]⟩
  have hthree : Fillable (.array [.fixed 3, .dynamic]) := ⟨rfl, by simp [rank]⟩
  refine ⟨(compatible_iff_exists_value htwo hopen).mp rfl, ?_⟩
  rw [← compatible_iff_exists_value htwo hthree]
  decide

end Ty

end ArrayScript
