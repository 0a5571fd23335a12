import ArrayScript.Proofs.Pledge
import ArrayScript.Proofs.Soundness

/-!
# `ArrayScript.Proofs.Static`: programs in which every size is written out

In a program without array constructors, whose parameters have a written size in every dimension,
analysis knows the size of every array. This module proves that the sizes mean what they say. A run
never takes an array for a number or a number for an array, a result has exactly the sizes of the
result type, and the arguments still have the sizes of their parameters when the run is over,
whether it succeeds or fails (`Program.static_invoke`).

Arguments may share arrays, and an array may be seen with different sizes: an array of two empty
arrays has the sizes 2, 0 and also the sizes 2, 0, 5. That does no harm, because a value is never
written over one with other sizes, and two values that have some sizes in common have all of them in
common (`Heap.HasSizes.transfer`). So a write keeps whatever sizes any value has
(`Heap.preserves_write`), and no typing of the heap has to be carried along: the heap itself says
which sizes its arrays have.
-/

set_option autoImplicit false

namespace ArrayScript

open Code (Term Step)

/-! ### Types with written sizes -/

/-- The size that a marker gives. An open dimension gives none. -/
def Dim.size : Dim → Nat
  | fixed size => size
  | dynamic => 0

namespace Ty

/-- The sizes that a type gives, dimension by dimension. -/
def sizes (ty : Ty) : List Nat :=
  ty.rank.map Dim.size

/-- Whether a type is that of numbers, or of arrays all of whose sizes are known. -/
def Static (ty : Ty) : Prop :=
  ty.Proper ∧ ∀ dim ∈ ty.rank, dim ≠ .dynamic

theorem static_number : Ty.number.Static :=
  ⟨proper_number, by simp [rank]⟩

/-- What indices leave of a static type has the sizes that are left. -/
theorem sizes_drop (ty : Ty) (count : Nat) :
    (ofRank (ty.rank.drop count)).sizes = ty.sizes.drop count := by
  rw [sizes, rank_ofRank, List.map_drop]
  rfl

theorem Static.drop {ty : Ty} (h : ty.Static) (count : Nat) :
    (ofRank (ty.rank.drop count)).Static := by
  refine ⟨proper_ofRank _, ?_⟩
  intro dim hdim
  rw [rank_ofRank] at hdim
  exact h.2 dim (List.mem_of_mem_drop hdim)

/-- Markers that give a size are compatible only if they give the same one. -/
theorem map_size_eq :
    ∀ {actual expected : List Dim}, (∀ dim ∈ actual, dim ≠ .dynamic) →
      (∀ dim ∈ expected, dim ≠ .dynamic) → actual.length = expected.length →
      (∀ pair ∈ actual.zip expected, pair.1.compatible pair.2 = true) →
      actual.map Dim.size = expected.map Dim.size
  | [], [], _, _, _, _ => rfl
  | a :: actual, e :: expected, ha, he, hlength, hall => by
    obtain ⟨hfirst, hrest⟩ := List.forall_mem_cons.mp hall
    obtain ⟨hka, hkas⟩ := List.forall_mem_cons.mp ha
    obtain ⟨hke, hkes⟩ := List.forall_mem_cons.mp he
    rw [List.map_cons, List.map_cons, map_size_eq hkas hkes (Nat.succ.inj hlength) hrest]
    cases a with
    | dynamic => exact absurd rfl hka
    | fixed m =>
      cases e with
      | dynamic => exact absurd rfl hke
      | fixed n =>
        have hmn : m = n := by simpa [Dim.compatible] using hfirst
        rw [hmn]

/-- Static types are compatible only if they give the same sizes. -/
theorem Static.sizes_eq {actual expected : Ty} (ha : actual.Static) (he : expected.Static)
    (h : actual.compatible expected = true) : actual.sizes = expected.sizes := by
  have hmarkers := h
  rw [← ha.1, ← he.1, compatible_ofRank_iff] at hmarkers
  exact map_size_eq ha.2 he.2 hmarkers.1 hmarkers.2

end Ty

/-! ### Values with exact sizes -/

namespace Heap

variable {h : Heap} {u v : Value} {sizes others : List Nat}

/-- Whether a value is nested as deeply as there are sizes, and each array inside has its size. -/
def HasSizes (h : Heap) : (sizes : List Nat) → Value → Prop
  | [], v => ∃ x, v = .number x
  | size :: sizes, v =>
    ∃ items, h.items? v = some items ∧ items.size = size ∧ ∀ u ∈ items, h.HasSizes sizes u

/-- Where all sizes are known, having the shape of a rank is having its sizes. -/
theorem hasSizes_iff :
    ∀ {rank : List Dim} {v : Value}, (∀ dim ∈ rank, dim ≠ .dynamic) →
      (h.HasSizes (rank.map Dim.size) v ↔ h.conformsToRank rank v = true)
  | [], .number x, _ => by simp [HasSizes, conformsToRank]
  | [], .array ref, _ => by simp [HasSizes, conformsToRank]
  | dim :: dims, v, hknown => by
    obtain ⟨hdim, hdims⟩ := List.forall_mem_cons.mp hknown
    rw [List.map_cons, HasSizes, conformsToRank]
    cases hitems : h.items? v with
    | none => simp
    | some items =>
      have hsize : (Dim.fixed items.size).compatible dim = true ↔ items.size = dim.size := by
        cases dim with
        | dynamic => exact absurd rfl hdim
        | fixed size => simp [Dim.compatible, Dim.size]
      simp only [Option.some.injEq, exists_eq_left', Bool.and_eq_true,
        Array.all_eq_true_iff_forall_mem, hsize]
      exact and_congr_right fun _ => forall₂_congr fun u _ => hasSizes_iff hdims

/-- A value has the shape of a static type when it has its sizes. -/
theorem conforms_iff_hasSizes {ty : Ty} (hty : ty.Static) :
    h.conforms v ty = true ↔ h.HasSizes ty.sizes v := by
  rw [conforms_of_proper hty.1]
  exact (hasSizes_iff hty.2).symm

/-- A value that shares one list of sizes with another shares all of them. An array without elements
has many lists of sizes, but they all begin with zero; behind that nothing is asked. -/
theorem HasSizes.transfer :
    ∀ {sizes others : List Nat} {u v : Value}, h.HasSizes sizes u → h.HasSizes others u →
      h.HasSizes sizes v → h.HasSizes others v
  | [], [], u, v, _, _, hv => hv
  | [], other :: others, u, v, ⟨x, hx⟩, ⟨items, hitems, _⟩, _ => by
    rw [hx] at hitems
    cases hitems
  | size :: sizes, [], u, v, ⟨items, hitems, _⟩, ⟨x, hx⟩, _ => by
    rw [hx] at hitems
    cases hitems
  | size :: sizes, other :: others, u, v, ⟨items, hitems, hsize, hall⟩,
      ⟨items', hitems', hsize', hall'⟩, ⟨elements, helements, hlength, hv⟩ => by
    obtain rfl : items = items' := Option.some.inj (hitems.symm.trans hitems')
    refine ⟨elements, helements, by omega, ?_⟩
    intro w hw
    -- If there is an element to speak of, the first array has one too, and its sizes are compared.
    have hpos : 0 < items.size := by
      have := Array.size_pos_of_mem hw
      omega
    have hfirst : items[0] ∈ items := Array.getElem_mem hpos
    exact (hall _ hfirst).transfer (hall' _ hfirst) (hv w hw)

/-! ### Steps of the heap -/

/-- Whether a second heap keeps all sizes that values have in a first one. -/
def Preserves (h h' : Heap) : Prop :=
  ∀ (sizes : List Nat) (v : Value), h.HasSizes sizes v → h'.HasSizes sizes v

/-- A new array leaves the sizes of all others as they are. -/
theorem preserves_push (h : Heap) (items : Array Value) : h.Preserves (h.push items).2 := by
  intro sizes
  induction sizes with
  | nil => exact fun v hv => hv
  | cons size sizes ih =>
    rintro v ⟨old, hold, hsize, hall⟩
    refine ⟨old, ?_, hsize, fun u hu => ih u (hall u hu)⟩
    cases v with
    | number x => cases hold
    | array ref =>
      have hlt : ref < h.arrays.size := (Array.getElem?_eq_some_iff.mp hold).1
      show (h.push items).2.arrays[ref]? = some old
      rw [World.getElem?_push, if_neg (by omega)]
      exact hold

/-- The new array has the number of its elements as its size. -/
theorem hasSizes_push {items : Array Value} (hitems : ∀ v ∈ items, h.HasSizes sizes v) :
    (h.push items).2.HasSizes (items.size :: sizes) (h.push items).1 := by
  refine ⟨items, ?_, rfl, fun v hv => preserves_push h items sizes v (hitems v hv)⟩
  show (h.push items).2.arrays[h.arrays.size]? = some items
  rw [World.getElem?_push, if_pos rfl]

/-- Whether what a cell holds has the given sizes. -/
def CellHas (h : Heap) (cell : Cell) (sizes : List Nat) : Prop :=
  ∃ items u, h.arrays[cell.ref]? = some items ∧ items[cell.index]? = some u ∧ h.HasSizes sizes u

/-- Overwriting a value by one that has its sizes keeps the sizes of everything. -/
theorem preserves_write {cell : Cell} (hcell : h.CellHas cell sizes) (hv : h.HasSizes sizes v) :
    h.Preserves (h.write cell v) := by
  obtain ⟨items, u, hitems, hu, hsizes⟩ := hcell
  intro others
  -- The induction is on the sizes of the value that is looked at: its elements have fewer.
  induction others with
  | nil => exact fun w hw => hw
  | cons size others ih =>
    rintro w ⟨old, hold, hsize, hall⟩
    cases w with
    | number x => cases hold
    | array ref =>
      have hold : h.arrays[ref]? = some old := hold
      by_cases href : cell.ref = ref
      · -- The array that is written to: the new element has the sizes of the one it replaces.
        obtain rfl : items = old := by
          rw [← href, hitems] at hold
          exact Option.some.inj hold
        have hnew : h.HasSizes others v := hsizes.transfer (hall u (Array.mem_of_getElem? hu)) hv
        refine ⟨items.setIfInBounds cell.index v, ?_, by simpa using hsize, ?_⟩
        · show (h.write cell v).arrays[ref]? = _
          rw [World.getElem?_write, if_pos href, hold]
          rfl
        · intro x hx
          rcases Array.mem_or_eq_of_mem_setIfInBounds hx with hmem | rfl
          · exact ih x (hall x hmem)
          · exact ih x hnew
      · refine ⟨old, ?_, hsize, fun x hx => ih x (hall x hx)⟩
        show (h.write cell v).arrays[ref]? = some old
        rw [World.getElem?_write, if_neg href]
        exact hold

/-- An array has an element with the sizes that are left, unless the index does not fit. -/
theorem settles_element {size : Nat} (hv : h.HasSizes (size :: sizes) v) (x : Float) :
    Settles (fun u => h.HasSizes sizes u) (h.element v x) := by
  obtain ⟨items, hitems, -, hall⟩ := hv
  simp only [element, hitems]
  refine (Number.settles_toIndex x items.size).bind fun i _ => ?_
  exact hall items[i] (Array.getElem_mem i.isLt)

/-- A path that is not longer than there are sizes leads to a value with the sizes that are left,
unless an index does not fit. -/
theorem settles_walk :
    ∀ (path : List Float) {sizes : List Nat} {v : Value}, path.length ≤ sizes.length →
      h.HasSizes sizes v → Settles (fun u => h.HasSizes (sizes.drop path.length) u) (h.walk v path)
  | [], sizes, v, _, hv => hv
  | x :: path, size :: sizes, v, hle, hv => by
    simp only [walk, List.foldlM_cons]
    refine (settles_element hv x).bind fun next hnext => ?_
    exact settles_walk path (Nat.le_of_succ_le_succ hle) hnext

/-- An array has a cell whose contents have the sizes that are left, unless the index does not
fit. -/
theorem settles_cell {size : Nat} (hv : h.HasSizes (size :: sizes) v) (x : Float) :
    Settles (fun cell => h.CellHas cell sizes) (h.cell v x) := by
  obtain ⟨items, hitems, -, hall⟩ := hv
  cases v with
  | number y => cases hitems
  | array ref =>
    have hitems : h.arrays[ref]? = some items := hitems
    simp only [cell, hitems]
    refine (Number.settles_toIndex x items.size).bind fun i _ => ?_
    exact ⟨items, items[i], hitems, by simp, hall _ (Array.getElem_mem i.isLt)⟩

end Heap

/-! ### What static code promises -/

/-- Sizes stay as they are, and no value is of the wrong kind. -/
def Pledge.static : Pledge Heap where
  grows := Heap.Preserves
  errors e := e.cause ≠ .numberExpected ∧ e.cause ≠ .notIndexable
  refl _ _ _ hv := hv
  trans hfirst hnext sizes v hv := hnext sizes v (hfirst sizes v hv)

namespace Pledge.Ends

variable {α : Type} {site : Site} {offset : Nat} {h : Heap} {v : Value} {post : Heap → α → Prop}

/-- An operation that settles ends by the pledge. -/
theorem attempt {r : Except Cause α} (hr : Settles (post h) r) :
    static.Ends h post (site.attempt offset r h) := by
  cases r with
  | ok a => exact pure hr
  | error cause =>
    refine throw ⟨?_, ?_⟩
    · rintro rfl
      cases hr
    · rintro rfl
      cases hr

/-- A value without dimensions can be taken as a number. -/
theorem toNumber (hv : h.HasSizes [] v) :
    static.Ends h (fun _ _ => True) (site.attempt offset v.toNumber h) := by
  obtain ⟨x, rfl⟩ := hv
  exact pure trivial

/-- Writing keeps all sizes where the new value has those of the old one. -/
theorem write {cell : Heap.Cell} {sizes : List Nat} (hcell : h.CellHas cell sizes)
    (hv : h.HasSizes sizes v) :
    static.Ends h (fun _ _ => True)
      ((modify fun heap => heap.write cell v : Run Unit) h) :=
  ⟨Heap.preserves_write hcell hv, trivial⟩

/-- A new array keeps all sizes, and has the number of its elements as its own. -/
theorem push {items : Array Value} {sizes : List Nat} (hitems : ∀ u ∈ items, h.HasSizes sizes u) :
    static.Ends h (fun h' u => h'.HasSizes (items.size :: sizes) u)
      ((modifyGet fun heap => heap.push items : Run Value) h) :=
  ⟨Heap.preserves_push h items, Heap.hasSizes_push hitems⟩

end Pledge.Ends

namespace Code

/-- Whether every type that code refers to gives all its sizes. -/
structure Types.Static (Γ : Types) : Prop where
  slots : ∀ ty ∈ Γ.slots, ty.Static
  params : ∀ ty ∈ Γ.params, ty.Static
  result : Γ.result.Static
  functions : ∀ f ∈ Γ.program.functions, (∀ ty ∈ f.params, ty.Static) ∧ f.result.Static
  closed : ¬ Γ.dims .dynamic

/-- The values of a frame have the sizes of its slots. A slot may have no value yet. -/
def Types.Fits (Γ : Types) (h : Heap) (frame : Frame) : Prop :=
  ∀ (slot : Nat) (v : Value), frame[slot]? = some (some v) →
    ∃ ty, Γ.slots[slot]? = some ty ∧ h.HasSizes ty.sizes v

/-- Each value has the sizes of the type next to it. -/
def HaveSizes (h : Heap) (values : List Value) (types : List Ty) : Prop :=
  List.Forall₂ (fun v ty => h.HasSizes (Ty.sizes ty) v) values types

/-- Whether a site is the place that types describe, and entering a function ends by the pledge. -/
structure Types.Holds (Γ : Types) (site : Site) : Prop where
  program : site.program = Γ.program
  current : site.current ∈ Γ.program.functions
  params : site.current.params = Γ.params
  result : site.current.result = Γ.result
  enter : ∀ f ∈ Γ.program.functions, ∀ (h : Heap) (args : List Value), HaveSizes h args f.params →
    Pledge.static.Ends h (fun h' v => h'.HasSizes f.result.sizes v) (site.enter f args h)

variable {Γ : Types} {site : Site} {h h' : Heap} {frame : Frame}

/-- A frame goes on fitting. -/
theorem Types.Fits.of_preserves (hfits : Γ.Fits h frame) (hheap : h.Preserves h') :
    Γ.Fits h' frame := by
  intro slot v hv
  obtain ⟨ty, hty, hsizes⟩ := hfits slot v hv
  exact ⟨ty, hty, hheap _ v hsizes⟩

/-- A frame goes on fitting when a slot is given a value with its sizes. -/
theorem Types.Fits.assign {slot : Nat} {ty : Ty} {v : Value} (hfits : Γ.Fits h frame)
    (hslot : Γ.slots[slot]? = some ty) (hv : h.HasSizes ty.sizes v) :
    Γ.Fits h (frame.setIfInBounds slot (some v)) := by
  intro i u hu
  rw [Array.getElem?_setIfInBounds] at hu
  split at hu
  next heq =>
    split at hu
    · cases hu
      exact ⟨ty, heq ▸ hslot, hv⟩
    · cases hu
  · exact hfits i u hu

/-- A callee that can be reached has a static result. -/
theorem Types.Static.result_of_reaches {callee : Callee} {signature : Signature} {result : Ty}
    (hΓ : Γ.Static) (hreaches : Γ.Reaches callee signature result) : result.Static := by
  cases callee with
  | builtin b =>
    obtain ⟨-, rfl⟩ := hreaches
    exact Ty.static_number
  | user index =>
    obtain ⟨f, hf, -, rfl⟩ := hreaches
    exact (hΓ.functions f (List.mem_of_getElem? hf)).2
  | self =>
    obtain ⟨-, -, rfl⟩ := hreaches
    exact hΓ.result

/-- Where all types are static, so is the type of a term. There is no array constructor, and a list
has as many elements as are written. -/
theorem static_of_typed (hΓ : Γ.Static) {t : Term} (ht : Typed Γ t) : t.ty.Static := by
  induction ht with
  | number => exact Ty.static_number
  | newArray hdynamic => exact absurd hdynamic hΓ.closed
  | list _ _ _ ihfirst _ =>
    refine ⟨rfl, ?_⟩
    intro dim hdim
    rcases List.mem_cons.mp hdim with rfl | hdim
    · simp
    · exact ihfirst.2 dim hdim
  | slot hslot => exact (hΓ.slots _ (List.mem_of_getElem? hslot)).drop _
  | call hreaches => exact hΓ.result_of_reaches hreaches
  | unary => exact Ty.static_number
  | binary => exact Ty.static_number

/-! ### Terms -/

/-- Whether a term evaluates to values with the sizes of its type, on every heap and in every frame
that fits. -/
def Types.Evaluates (Γ : Types) (site : Site) (t : Term) : Prop :=
  ∀ (h : Heap) (frame : Frame), Γ.Fits h frame →
    Pledge.static.Ends h (fun h' v => h'.HasSizes t.ty.sizes v) (t.eval site frame h)

/-- Several terms evaluate to as many values, each with the sizes of its term's type. -/
theorem ends_evalAll :
    ∀ (ts : List Term), (∀ t ∈ ts, Γ.Evaluates site t) → ∀ h : Heap, Γ.Fits h frame →
      Pledge.static.Ends h (fun h' values => HaveSizes h' values (ts.map Term.ty))
        (evalAll site frame ts h)
  | [], _, h, hfits => by
    rw [evalAll]
    exact .pure .nil
  | t :: ts, heval, h, hfits => by
    rw [evalAll]
    obtain ⟨ht, hts⟩ := List.forall_mem_cons.mp heval
    refine .bind (ht h frame hfits) fun h₁ v hheap₁ hv => ?_
    refine .bind (ends_evalAll ts hts h₁ (hfits.of_preserves hheap₁))
      fun h₂ values hheap₂ hvalues => ?_
    exact .pure (.cons (hheap₂ _ v hv) hvalues)

/-- Several terms of the type of numbers evaluate to as many numbers. -/
theorem ends_evalNumbers {offset : Nat} :
    ∀ (ts : List Term), (∀ t ∈ ts, Γ.Evaluates site t) → (∀ t ∈ ts, t.ty = .number) →
      ∀ h : Heap, Γ.Fits h frame →
      Pledge.static.Ends h (fun _ numbers => numbers.length = ts.length)
        (evalNumbers site frame offset ts h)
  | [], _, _, h, hfits => by
    rw [evalNumbers]
    exact .pure rfl
  | t :: ts, heval, hnumbers, h, hfits => by
    rw [evalNumbers]
    obtain ⟨ht, hts⟩ := List.forall_mem_cons.mp heval
    obtain ⟨hnumber, hothers⟩ := List.forall_mem_cons.mp hnumbers
    refine .bind (ht h frame hfits) fun h₁ v hheap₁ hv => ?_
    rw [hnumber] at hv
    refine .bind (.toNumber hv) fun h₂ x hheap₂ _ => ?_
    have hfits₂ := (hfits.of_preserves hheap₁).of_preserves hheap₂
    refine .bind (ends_evalNumbers ts hts hothers h₂ hfits₂) fun h₃ xs _ hxs => ?_
    exact .pure (by simp [hxs])

/-- Reading a variable gives a value with the sizes of its slot, unless it has none yet. -/
theorem ends_read {offset slot : Nat} {name : String} {ty : Ty} (hfits : Γ.Fits h frame)
    (hslot : Γ.slots[slot]? = some ty) :
    Pledge.static.Ends h (fun h' v => h'.HasSizes ty.sizes v)
      (site.read frame offset name slot h) := by
  unfold Site.read
  rcases hread : frame[slot]? with _ | _ | v
  · exact .throw ⟨by simp [Site.error], by simp [Site.error]⟩
  · exact .throw ⟨by simp [Site.error], by simp [Site.error]⟩
  · obtain ⟨ty', hty', hsizes⟩ := hfits slot v hread
    obtain rfl : ty' = ty := Option.some.inj (hty'.symm.trans hslot)
    exact .pure hsizes

/-- Where all types give the same sizes, every value has them. -/
theorem HaveSizes.forall_mem {values : List Value} {types : List Ty} {sizes : List Nat}
    (hvalues : HaveSizes h values types) (hsizes : ∀ ty ∈ types, ty.sizes = sizes) :
    ∀ v ∈ values, h.HasSizes sizes v := by
  induction hvalues with
  | nil => simp
  | cons hv _ ih =>
    obtain ⟨hty, htypes⟩ := List.forall_mem_cons.mp hsizes
    rw [hty] at hv
    exact List.forall_mem_cons.mpr ⟨hv, ih htypes⟩

/-- Values that have the sizes of types are of the kinds of those types. -/
theorem HaveSizes.hasKinds {values : List Value} {types : List Ty}
    (hvalues : HaveSizes h values types) :
    List.Forall₂ h.HasKind values (types.map Ty.depth) := by
  rw [List.forall₂_map_right_iff]
  refine hvalues.imp ?_
  intro v ty hv
  unfold Ty.sizes at hv
  unfold Ty.depth
  cases hrank : ty.rank with
  | nil =>
    rw [hrank] at hv
    exact hv
  | cons dim dims =>
    rw [hrank] at hv
    obtain ⟨items, hitems, -⟩ := hv
    exact ⟨items, hitems⟩

/-- Values that have the sizes of arguments which fit a signature have those of its parameters. -/
theorem HaveSizes.of_fit {signature : Signature} {ts : List Term} {values : List Value}
    (hvalues : HaveSizes h values (ts.map Term.ty)) (hrest : signature.rest = none)
    (hparams : ∀ ty ∈ signature.params, ty.Static) (hts : ∀ t ∈ ts, t.ty.Static)
    (haccepts : signature.accepts ts.length = true)
    (hfit : ∀ i t, ts[i]? = some t → (signature.param? i).any t.ty.compatible = true) :
    HaveSizes h values signature.params := by
  have hlength : ts.length = signature.params.length := by
    simpa [Signature.accepts, hrest] using haccepts
  unfold HaveSizes at hvalues ⊢
  rw [List.forall₂_map_right_iff] at hvalues
  obtain ⟨hsame, hall⟩ := List.forall₂_iff_get.mp hvalues
  refine List.forall₂_iff_get.mpr ⟨hsame.trans hlength, ?_⟩
  intro i hi hi'
  have hit : i < ts.length := hsame ▸ hi
  have hparam : signature.param? i = some signature.params[i] := by
    simp [Signature.param?, List.getElem?_eq_getElem hi']
  have hcompatible : ts[i].ty.compatible signature.params[i] = true := by
    simpa [hparam] using hfit i ts[i] (List.getElem?_eq_getElem hit)
  have hsizes := (hts _ (List.getElem_mem hit)).sizes_eq (hparams _ (List.getElem_mem hi'))
    hcompatible
  simp only [List.get_eq_getElem] at hall ⊢
  rw [← hsizes]
  exact hall i hi hit

/-- A term evaluates to values with the sizes of its type, one case for each form of term. -/
theorem ends_eval {t : Term} (ht : Typed Γ t) (hΓ : Γ.Static) (hsite : Γ.Holds site) :
    Γ.Evaluates site t := by
  induction ht with
  | number =>
    intro h frame hfits
    rw [Term.eval]
    exact .pure ⟨_, rfl⟩
  | newArray hdynamic => exact absurd hdynamic hΓ.closed
  | @list first rest hfirst hrest hcompatible ihfirst ihrest =>
    intro h frame hfits
    rw [Term.eval]
    have hall := ends_evalAll (first :: rest) (List.forall_mem_cons.mpr ⟨ihfirst, ihrest⟩) h hfits
    refine .bind hall fun h₁ values hheap₁ hvalues => ?_
    have hlength : values.toArray.size = rest.length + 1 := by simpa using hvalues.length_eq
    -- The sizes of the other elements are those of the first one.
    have hsizes : ∀ ty ∈ (first :: rest).map Term.ty, ty.sizes = first.ty.sizes := by
      intro ty hty
      rcases List.mem_cons.mp hty with rfl | hty
      · rfl
      · obtain ⟨t, ht, rfl⟩ := List.mem_map.mp hty
        exact (static_of_typed hΓ (hrest t ht)).sizes_eq (static_of_typed hΓ hfirst)
          (hcompatible t ht)
    have hitems : ∀ u ∈ values.toArray, h₁.HasSizes first.ty.sizes u := by
      intro u hu
      exact hvalues.forall_mem hsizes u (List.mem_toArray.mp hu)
    rw [Term.ty, Ty.sizes, Ty.rank, List.map_cons, Dim.size, ← hlength]
    exact .push hitems
  | @slot offset name slot ty indices hslot hle _ hnumbers ih =>
    intro h frame hfits
    rw [Term.eval]
    refine .bind (ends_read hfits hslot) fun h₁ base hheap₁ hbase => ?_
    refine .bind (ends_evalNumbers indices ih hnumbers h₁ (hfits.of_preserves hheap₁))
      fun h₂ path hheap₂ hpath => ?_
    -- There are no more indices than the variable has dimensions, so none of them meets a number.
    have hle' : path.length ≤ ty.sizes.length := by
      rw [hpath]
      simpa [Ty.sizes] using hle
    rw [Term.ty, Ty.sizes_drop, ← hpath]
    exact .get_bind (.attempt (Heap.settles_walk path hle' (hheap₂ _ base hbase)))
  | @call offset name callee signature result args hreaches haccepts hfit hargs ih =>
    intro h frame hfits
    rw [Term.eval]
    refine .bind (ends_evalAll args ih h hfits) fun h₁ values _ hvalues => ?_
    have hstatic : ∀ t ∈ args, t.ty.Static := fun t ht => static_of_typed hΓ (hargs t ht)
    cases callee with
    | builtin b =>
      obtain ⟨rfl, rfl⟩ := hreaches
      have htakes := takes_of_signature (fun t ht => (hstatic t ht).1) haccepts hfit
      obtain ⟨x, hx⟩ := Builtin.exists_apply htakes (by simpa using hvalues.hasKinds)
      refine .get_bind ?_
      rw [hx]
      exact .pure ⟨x, rfl⟩
    | self =>
      obtain ⟨hparams, hrest, rfl⟩ := hreaches
      have hvalues' := hvalues.of_fit hrest (hparams ▸ hΓ.params) hstatic haccepts hfit
      rw [hparams, ← hsite.params] at hvalues'
      have henter := hsite.enter site.current hsite.current h₁ values hvalues'
      rw [hsite.result] at henter
      exact henter
    | user index =>
      obtain ⟨f, hf, rfl, rfl⟩ := hreaches
      have hmem : f ∈ Γ.program.functions := List.mem_of_getElem? hf
      have hvalues' := hvalues.of_fit rfl (hΓ.functions f hmem).1 hstatic haccepts hfit
      rw [← hsite.program] at hf
      simp only [hf]
      exact hsite.enter f hmem h₁ values hvalues'
  | @unary offset op operand _ hty ih =>
    intro h frame hfits
    rw [Term.eval]
    refine .bind (ih h frame hfits) fun h₁ v _ hv => ?_
    rw [hty] at hv
    exact .bind (.toNumber hv) fun h₂ x _ _ => .pure ⟨_, rfl⟩
  | @binary offset op left right _ hleft _ hright ihl ihr =>
    intro h frame hfits
    rw [Term.eval]
    refine .bind (ihl h frame hfits) fun h₁ v hheap₁ hv => ?_
    rw [hleft] at hv
    refine .bind (.toNumber hv) fun h₂ x hheap₂ _ => ?_
    cases op.shortcut? x with
    | some result => exact .pure ⟨_, rfl⟩
    | none =>
      have hfits₂ := (hfits.of_preserves hheap₁).of_preserves hheap₂
      refine .bind (ihr h₂ frame hfits₂) fun h₃ u _ hu => ?_
      rw [hright] at hu
      exact .bind (.toNumber hu) fun h₄ y _ _ => .pure ⟨_, rfl⟩

/-! ### Steps -/

/-- What execution may do behind code: go on, or return a value with the sizes of the result. -/
def Types.Flows (Γ : Types) (h : Heap) : Flow → Prop
  | .next => True
  | .returned v => h.HasSizes Γ.result.sizes v

/-- Whether a computation of a flow keeps a frame that fits, on every heap. -/
def Types.Executes (Γ : Types) (m : Execution Flow) : Prop :=
  ∀ (h : Heap) (frame : Frame), Γ.Fits h frame →
    Pledge.static.lift.Ends ⟨frame, h⟩
      (fun state flow => Γ.Fits state.heap state.frame ∧ Γ.Flows state.heap flow) (m ⟨frame, h⟩)

/-- Writing to an element ends by the pledge where the value has the sizes that are left. -/
theorem ends_writeElement {offset slot : Nat} {name : String} {ty : Ty} {path : List Float}
    {last : Float} {v : Value} (hfits : Γ.Fits h frame) (hslot : Γ.slots[slot]? = some ty)
    (hlt : path.length < ty.sizes.length)
    (hv : h.HasSizes (ty.sizes.drop (path.length + 1)) v) :
    Pledge.static.Ends h (fun _ _ => True)
      (writeElement site frame offset name slot path last v h) := by
  unfold writeElement
  refine .bind (ends_read hfits hslot) fun h₁ base hheap₁ hbase => ?_
  have hwalk : Pledge.static.Ends h₁ (fun h' u => h'.HasSizes (ty.sizes.drop path.length) u)
      (site.attempt offset (h₁.walk base path) h₁) :=
    .attempt (Heap.settles_walk path hlt.le hbase)
  refine .get_bind (.bind hwalk fun h₂ container hheap₂ hcontainer => ?_)
  rw [List.drop_eq_getElem_cons hlt] at hcontainer
  have hfind : Pledge.static.Ends h₂
      (fun h' cell => h'.CellHas cell (ty.sizes.drop (path.length + 1)))
      (site.attempt offset (h₂.cell container last) h₂) :=
    .attempt (Heap.settles_cell hcontainer last)
  refine .get_bind (.bind hfind fun h₃ cell hheap₃ hcell => ?_)
  exact .write hcell (hheap₃ _ v (hheap₂ _ v (hheap₁ _ v hv)))

/-- A block keeps a frame that fits if each of its steps does. -/
theorem ends_execAll :
    ∀ steps : List Step, (∀ s ∈ steps, Γ.Executes (s.exec site)) → Γ.Executes (execAll site steps)
  | [], _, h, frame, hfits => by
    rw [execAll]
    exact .pure ⟨hfits, trivial⟩
  | s :: rest, hsteps, h, frame, hfits => by
    rw [execAll]
    obtain ⟨hs, hrest⟩ := List.forall_mem_cons.mp hsteps
    refine .bind (hs h frame hfits) ?_
    rintro ⟨frame₁, h₁⟩ flow hheap₁ hflow
    cases flow with
    | returned v => exact .pure hflow
    | next => exact ends_execAll rest hrest h₁ frame₁ hflow.1

/-- A well typed step keeps a frame that fits, one case for each form of step. -/
theorem ends_exec {s : Step} (hs : WellTyped Γ s) (hΓ : Γ.Static) (hsite : Γ.Holds site) :
    Γ.Executes (s.exec site) := by
  induction hs with
  | @branch offset condition pass fail hcondition hty _ _ ihpass ihfail =>
    intro h frame hfits
    rw [Step.exec]
    refine .bind (.ofRun (ends_eval hcondition hΓ hsite h frame hfits)) ?_
    rintro ⟨_, h₁⟩ v hheap₁ ⟨rfl, hv⟩
    rw [hty] at hv
    refine .bind (.ofRun (.toNumber hv)) ?_
    rintro ⟨_, h₂⟩ x hheap₂ ⟨rfl, -⟩
    have hfits₂ := (hfits.of_preserves hheap₁).of_preserves hheap₂
    split
    · exact ends_execAll pass ihpass h₂ _ hfits₂
    · exact ends_execAll fail ihfail h₂ _ hfits₂
  | @assign offset name slot ty indices value hslot hle hindices hnumbers hvalue hcompatible =>
    intro h frame hfits
    rw [Step.exec]
    have hpath : Pledge.static.Ends h (fun _ numbers => numbers.length = indices.length)
        (evalNumbers site frame offset indices h) :=
      ends_evalNumbers indices (fun t ht => ends_eval (hindices t ht) hΓ hsite) hnumbers h hfits
    refine .bind (.ofRun hpath) ?_
    rintro ⟨_, h₁⟩ path hheap₁ ⟨rfl, hlength⟩
    have hfits₁ := hfits.of_preserves hheap₁
    refine .bind (.ofRun (ends_eval hvalue hΓ hsite h₁ _ hfits₁)) ?_
    rintro ⟨_, h₂⟩ v hheap₂ ⟨rfl, hv⟩
    have hfits₂ := hfits₁.of_preserves hheap₂
    have hty := hΓ.slots ty (List.mem_of_getElem? hslot)
    rw [(static_of_typed hΓ hvalue).sizes_eq (hty.drop _) hcompatible, Ty.sizes_drop,
      ← hlength] at hv
    -- Without indices the slot itself is assigned, otherwise an element of the array in it.
    cases hlast : path.getLast? with
    | none =>
      obtain rfl : path = [] := List.getLast?_eq_none_iff.mp hlast
      refine .bind .assign ?_
      rintro _ _ - rfl
      exact .pure ⟨hfits₂.assign hslot hv, trivial⟩
    | some last =>
      obtain ⟨init, rfl⟩ := List.getLast?_eq_some_iff.mp hlast
      rw [List.length_append, List.length_singleton] at hv hlength
      have hlt : init.length < ty.sizes.length := by
        simp only [Ty.sizes, List.length_map]
        omega
      rw [List.dropLast_concat]
      refine .bind (.ofRun (ends_writeElement hfits₂ hslot hlt hv)) ?_
      rintro ⟨_, h₃⟩ _ hheap₃ ⟨rfl, -⟩
      exact .pure ⟨hfits₂.of_preserves hheap₃, trivial⟩
  | ret hvalue hcompatible =>
    intro h frame hfits
    rw [Step.exec]
    refine .bind (.ofRun (ends_eval hvalue hΓ hsite h frame hfits)) ?_
    rintro ⟨_, h₁⟩ v hheap₁ ⟨rfl, hv⟩
    rw [(static_of_typed hΓ hvalue).sizes_eq hΓ.result hcompatible] at hv
    exact .pure ⟨hfits.of_preserves hheap₁, hv⟩

end Code

/-! ### Calls -/

/-- Whether every size in a declaration is written out: its parameters have a size in each
dimension, and its body has no array constructor. -/
def Decl.static (decl : Decl) : Bool :=
  decl.plain && decl.params.all fun param => param.dims.all fun dim => Dim.ofParam dim != .dynamic

namespace Program

variable {p : Program} {f : Function} {args : List Value} {heap : Heap}

/-- A function whose types are made of sizes has static types. -/
theorem static_of_typed (h : f.Typed p (· ≠ .dynamic)) :
    (∀ ty ∈ f.params, ty.Static) ∧ f.result.Static := by
  obtain ⟨slots, -, hparams, hslots, hresult, -⟩ := h
  exact ⟨fun ty hty => hslots ty (hparams.subset hty), hresult⟩

/-- A call of a function of a static program, with arguments that have the sizes of the parameters,
ends by the pledge, and results in a value with the sizes of the result. The induction is on the
number of frames that may still be opened. -/
theorem ends_call (hp : ∀ f ∈ p.functions, f.Typed p (· ≠ .dynamic)) :
    ∀ (room : Nat), ∀ f ∈ p.functions, ∀ (h : Heap) (args : List Value),
      Code.HaveSizes h args f.params →
      Pledge.static.Ends h (fun h' v => h'.HasSizes f.result.sizes v) (p.call room f args h) := by
  intro room
  induction room with
  | zero =>
    intro f hf h args hargs
    rw [call]
    exact .throw ⟨by simp [Function.error], by simp [Function.error]⟩
  | succ room ih =>
    intro f hf h args hargs
    obtain ⟨slots, hslots, hstart, hhas, -, hbody⟩ := hp f hf
    let Γ : Code.Types := f.types p (· ≠ .dynamic) slots
    have hΓ : Γ.Static := by
      refine ⟨hhas, (static_of_typed (hp f hf)).1, (static_of_typed (hp f hf)).2, ?_, ?_⟩
      · exact fun g hg => static_of_typed (hp g hg)
      · exact fun hne => hne rfl
    have hsite : Γ.Holds ⟨p, f, p.call room⟩ := ⟨rfl, hf, rfl, rfl, ih⟩
    -- At first a frame holds the arguments and nothing else.
    have hfits : Γ.Fits h (f.frame args) := by
      intro slot v hv
      have hsize : slot < f.slots := by
        rw [← Function.size_frame f args]
        exact (Array.getElem?_eq_some_iff.mp hv).1
      have harg : args[slot]? = some v := by
        rw [Function.getElem?_frame args hsize] at hv
        exact Option.some.inj hv
      obtain ⟨hlength, hsizes⟩ := List.forall₂_iff_get.mp hargs
      obtain ⟨hlt, rfl⟩ := List.getElem?_eq_some_iff.mp harg
      have hlt' : slot < f.params.length := hlength ▸ hlt
      refine ⟨f.params[slot], ?_, hsizes slot hlt hlt'⟩
      obtain ⟨rest, hrest⟩ := hstart
      show slots[slot]? = _
      rw [← hrest, List.getElem?_append_left hlt', List.getElem?_eq_getElem hlt']
    have hexec := Code.ends_execAll f.body (fun s hs => Code.ends_exec (hbody s hs) hΓ hsite) h
      (f.frame args) hfits
    rw [call]
    dsimp only
    cases hr : Code.execAll ⟨p, f, p.call room⟩ f.body ⟨f.frame args, h⟩ with
    | error e state =>
      rw [hr] at hexec
      exact hexec
    | ok flow state =>
      rw [hr] at hexec
      obtain ⟨hheap, -, hflow⟩ := hexec
      cases flow with
      | next => exact ⟨hheap, by simp [Function.error], by simp [Function.error]⟩
      | returned v => exact ⟨hheap, hflow⟩

/-- The functions of a static text have types that are made of sizes. -/
theorem typed_of_static {source : Source} {decls : List Decl} (hcompile : source.compile = .ok p)
    (hdecls : source.decls = .ok decls) (hstatic : ∀ decl ∈ decls, decl.static = true) :
    ∀ f ∈ p.functions, f.Typed p (· ≠ .dynamic) := by
  intro f hf
  obtain ⟨decls', hdecls', hbuilt⟩ := Source.built_of_compile hcompile
  obtain rfl : decls = decls' := Except.ok.inj (hdecls.symm.trans hdecls')
  simp only [Decl.static, Bool.and_eq_true, List.all_eq_true, bne_iff_ne] at hstatic
  have hparams : ∀ decl ∈ decls, decl.MadeOf (· ≠ .dynamic) :=
    fun decl hdecl => (hstatic decl hdecl).2
  obtain ⟨index, hindex⟩ := List.mem_iff_getElem?.mp hf
  exact hbuilt.typed (Source.sized_decls hdecls) (.inr fun decl hdecl => (hstatic decl hdecl).1)
    (by simp) hparams index f hindex

/-- Arguments that a function with static types accepts have the sizes of its parameters. -/
theorem Accepts.haveSizes (h : Accepts f args heap) (hf : ∀ ty ∈ f.params, ty.Static) :
    Code.HaveSizes heap args f.params := by
  refine List.forall₂_iff_get.mpr ⟨h.1, ?_⟩
  intro i hi hi'
  have hany := misfit?_eq_none.mp h.2 i args[i] (List.getElem?_eq_getElem hi)
  have hconforms : heap.conforms args[i] f.params[i] = true := by
    simpa [Signature.param?, Function.signature, List.getElem?_eq_getElem hi'] using hany
  exact (Heap.conforms_iff_hasSizes (hf _ (List.getElem_mem hi'))).mp hconforms

/-- Sizes mean what they say in a program in which every size is written out. Whatever arguments a
function accepts, shared or not, a run never takes a value of the wrong kind. A result has exactly
the sizes of the function's result type, which has one for every dimension. When the run is over,
whether it has succeeded or failed, every argument still has the shape of its parameter. -/
theorem static_invoke {source : Source} {decls : List Decl} (hcompile : source.compile = .ok p)
    (hdecls : source.decls = .ok decls) (hstatic : ∀ decl ∈ decls, decl.static = true)
    (hf : f ∈ p.functions) (haccepts : Accepts f args heap) :
    (match p.invoke f.name args heap with
      | .ok v heap' => heap'.conforms v f.result = true
      | .error e _ => e.cause ≠ .numberExpected ∧ e.cause ≠ .notIndexable) ∧
    (∀ dim ∈ f.result.rank, ∃ size, dim = .fixed size) ∧
    ∀ (i : Nat) (v : Value) (ty : Ty), args[i]? = some v → f.params[i]? = some ty →
      ((p.invoke f.name args).heapAfter heap).conforms v ty = true := by
  have htyped := typed_of_static hcompile hdecls hstatic
  obtain ⟨hparams, hresult⟩ := static_of_typed (htyped f hf)
  have hargs := haccepts.haveSizes hparams
  obtain ⟨decls', -, hbuilt⟩ := Source.built_of_compile hcompile
  -- That sizes are kept is an invariant of every part of the run, so it also holds where the run
  -- fails. The three statements are its three readings.
  have hends : Pledge.static.Ends heap (fun h' v => h'.HasSizes f.result.sizes v)
      (p.invoke f.name args heap) := by
    rw [hbuilt.invoke_name hf, invokeFunction_eq haccepts]
    exact ends_call htyped (maxCallDepth + 1) f hf heap args hargs
  refine ⟨?_, ?_, ?_⟩
  · cases hr : p.invoke f.name args heap with
    | error e heap' =>
      rw [hr] at hends
      exact hends.2
    | ok v heap' =>
      rw [hr] at hends
      exact (Heap.conforms_iff_hasSizes hresult).mpr hends.2
  · intro dim hdim
    cases dim with
    | fixed size => exact ⟨size, rfl⟩
    | dynamic => exact absurd rfl (hresult.2 _ hdim)
  · intro i v ty hv hty
    obtain ⟨hi, rfl⟩ := List.getElem?_eq_some_iff.mp hv
    obtain ⟨hi', rfl⟩ := List.getElem?_eq_some_iff.mp hty
    have hsizes : heap.HasSizes f.params[i].sizes args[i] :=
      (List.forall₂_iff_get.mp hargs).2 i hi hi'
    rw [Heap.conforms_iff_hasSizes (hparams _ (List.getElem_mem hi'))]
    exact hends.heapAfter _ _ hsizes

end Program

/-- A program that writes to an array which it sees with two ranks, and returns a square. -/
def Source.square : Source :=
  ⟨"square", "f(a: number[2][0], b: number[2][0][5], c: number[2]) {
    b[1] = b[0]; a[0] = a[1]; rows = [c, [7, 8]]; rows[0] = rows[1]; return rows; }"⟩

/-- An empty array, an array that holds it twice, and a row of two numbers. -/
def Heap.twice : Heap :=
  ⟨#[#[], #[.array 0, .array 0], #[.number 1, .number 2]]⟩

/-- The one array has the shapes of both its parameters before and after the run, and the square
that comes back has the sizes that analysis found for it. -/
theorem Program.static_invoke_square :
    ∃ p f decls, Source.square.compile = .ok p ∧ Source.square.decls = .ok decls ∧
      (∀ decl ∈ decls, decl.static = true) ∧ f ∈ p.functions ∧
      Accepts f [.array 1, .array 1, .array 2] .twice ∧
      f.params = [.array [.fixed 2, .fixed 0], .array [.fixed 2, .fixed 0, .fixed 5],
        .array [.fixed 2]] ∧
      f.result = .array [.fixed 2, .fixed 2] ∧
      (∃ v heap', p.invoke f.name [.array 1, .array 1, .array 2] .twice = .ok v heap' ∧
        heap'.conforms v f.result = true) ∧
      ∀ (i : Nat) (v : Value) (ty : Ty), [Value.array 1, .array 1, .array 2][i]? = some v →
        f.params[i]? = some ty →
        ((p.invoke f.name [.array 1, .array 1, .array 2]).heapAfter .twice).conforms v ty
          = true := by
  have hrun : (Source.square.compile.toOption.map fun p => p.functions.map fun f =>
      decide ([Value.array 1, .array 1, .array 2].length = f.params.length) &&
        (misfit? .twice f.signature [.array 1, .array 1, .array 2]).isNone &&
        decide (f.params = [.array [.fixed 2, .fixed 0], .array [.fixed 2, .fixed 0, .fixed 5],
          .array [.fixed 2]]) && decide (f.result = .array [.fixed 2, .fixed 2]) &&
        Run.succeeds (p.invoke f.name [.array 1, .array 1, .array 2] .twice)) = some [true] := by
    decide +kernel
  obtain ⟨p, f, hcompile, hf, hchecks⟩ := Source.exists_of_compile hrun
  simp only [Bool.and_eq_true, decide_eq_true_eq, Option.isNone_iff_eq_none] at hchecks
  obtain ⟨⟨⟨⟨hlength, hmisfit⟩, hparams⟩, hresult⟩, hsucceeds⟩ := hchecks
  have hmem : f ∈ p.functions := by
    rw [hf]
    exact List.mem_singleton_self f
  obtain ⟨decls, hdecls, -⟩ := Source.built_of_compile hcompile
  have hstatic : ∀ decl ∈ decls, decl.static = true := by
    have hall : (Source.square.decls.toOption.map fun decls => decls.all Decl.static)
        = some true := by
      decide +kernel
    rw [hdecls] at hall
    exact List.all_eq_true.mp (Option.some.inj hall)
  obtain ⟨hsound, -, hargs⟩ := static_invoke hcompile hdecls hstatic hmem ⟨hlength, hmisfit⟩
  refine ⟨p, f, decls, hcompile, hdecls, hstatic, hmem, ⟨hlength, hmisfit⟩, hparams, hresult, ?_,
    hargs⟩
  cases hr : p.invoke f.name [.array 1, .array 1, .array 2] .twice with
  | error e heap' =>
    rw [hr] at hsucceeds
    cases hsucceeds
  | ok v heap' =>
    rw [hr] at hsound
    exact ⟨v, heap', rfl, hsound⟩

end ArrayScript
