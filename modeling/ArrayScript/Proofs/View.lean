import ArrayScript.Proofs.Acyclic
import ArrayScript.Proofs.Extension
import ArrayScript.Proofs.Literal

/-!
# `ArrayScript.Proofs.View`: values as they are printed

A value is a number or a reference into a heap, and what is printed of it is a tree. `Heap.Shows`
relates the two: a value shows a datum if it is the number of the datum, or refers to an array whose
elements show the items of the datum, one by one. Arrays may be shared, so one array can show
several parts of a datum. In a heap without cycles and dangling references all values show something
(`Heap.Acyclic.exists_shows`).

A value shows at most one datum (`Heap.Shows.unique`), and `Heap.view` finds it. This is not clear
from its definition, which goes down only as many levels as the heap has arrays. It is enough
because the arrays on a way down show data of different depths, so that no two of them are the same
(`Heap.Shows.depth_le`).

`Heap.read_view` says that what is printed can be fed back: the text of a value is read as the datum
that the value shows, and when this datum is stored, in any heap, the new value shows it again.
-/

set_option autoImplicit false

namespace ArrayScript

open Relation (TransGen)

/-! ### What a value shows -/

mutual

/-- Whether a value is built like a datum, out of the same numbers. -/
inductive Heap.Shows (h : Heap) : Value → Datum → Prop
  | number (x : Float) : Heap.Shows h (.number x) (.number x)
  | array {ref : Nat} {values : Array Value} {items : List Datum} :
      h.arrays[ref]? = some values → Heap.ShowsAll h values.toList items →
        Heap.Shows h (.array ref) (.array items)

/-- Companion for the elements of an array. -/
inductive Heap.ShowsAll (h : Heap) : List Value → List Datum → Prop
  | nil : Heap.ShowsAll h [] []
  | cons {v : Value} {vs : List Value} {d : Datum} {ds : List Datum} :
      Heap.Shows h v d → Heap.ShowsAll h vs ds → Heap.ShowsAll h (v :: vs) (d :: ds)

end

namespace Datum

mutual

/-- How deeply the arrays of a datum are nested. -/
def depth : Datum → Nat
  | number _ => 0
  | array items => depthAll items + 1

/-- The greatest depth of some data. -/
def depthAll : List Datum → Nat
  | [] => 0
  | d :: ds => max (depth d) (depthAll ds)

end

end Datum

namespace Heap

variable {h h' : Heap}

mutual

/-- A value shows at most one datum. -/
theorem Shows.unique : ∀ {v : Value} {d d' : Datum}, h.Shows v d → h.Shows v d' → d' = d
  | _, _, _, .number x, hd' => by
    cases hd'
    rfl
  | _, _, _, .array hvalues hitems, hd' => by
    cases hd' with
    | array hvalues' hitems' =>
      cases hvalues.symm.trans hvalues'
      rw [hitems.unique hitems']

/-- Companion for the elements of an array. -/
theorem ShowsAll.unique : ∀ {vs : List Value} {ds ds' : List Datum}, h.ShowsAll vs ds →
    h.ShowsAll vs ds' → ds' = ds
  | _, _, _, .nil, hds' => by
    cases hds'
    rfl
  | _, _, _, .cons hd hds, hds' => by
    cases hds' with
    | cons hd' hds' => rw [hd.unique hd', hds.unique hds']

end

/-! ### Which values show something -/

/-- Values show something together if each of them does. -/
theorem exists_showsAll {vs : List Value} (hvs : ∀ v ∈ vs, ∃ d, h.Shows v d) :
    ∃ ds, h.ShowsAll vs ds := by
  induction vs with
  | nil => exact ⟨[], .nil⟩
  | cons v vs ih =>
    obtain ⟨⟨d, hd⟩, hrest⟩ := List.forall_mem_cons.mp hvs
    obtain ⟨ds, hds⟩ := ih hrest
    exact ⟨d :: ds, .cons hd hds⟩

/-- Without cycles, a way down from array to array comes to an end. -/
theorem Acyclic.wellFounded (hacyclic : h.Acyclic) :
    WellFounded fun inner outer : Fin h.arrays.size => TransGen h.Holds outer inner := by
  have : IsTrans (Fin h.arrays.size) fun inner outer => TransGen h.Holds outer inner :=
    ⟨fun _ _ _ hinner houter => houter.trans hinner⟩
  have : Std.Irrefl fun inner outer : Fin h.arrays.size => TransGen h.Holds outer inner :=
    ⟨fun ref => hacyclic ref⟩
  exact Finite.wellFounded_of_trans_of_irrefl _

/-- In a heap without cycles and dangling references all values show something. -/
theorem Acyclic.exists_shows (hacyclic : h.Acyclic) (hclosed : h.Closed) {v : Value}
    (hv : h.Knows v) : ∃ d, h.Shows v d := by
  -- The induction is on the way down from an array, through the arrays that it holds.
  have harray : ∀ ref : Fin h.arrays.size, ∃ d, h.Shows (.array ref) d := by
    intro ref
    induction ref using hacyclic.wellFounded.induction with
    | _ ref ih =>
      have hvalues : h.arrays[ref.val]? = some h.arrays[ref] := Array.getElem?_eq_getElem ref.isLt
      have hitems : ∀ v ∈ h.arrays[ref].toList, ∃ d, h.Shows v d := by
        intro v hmem
        rw [Array.mem_toList_iff] at hmem
        cases v with
        | number x => exact ⟨_, .number x⟩
        | array inner =>
          have hlt : inner < h.arrays.size := hclosed ref _ hvalues _ hmem
          exact ih ⟨inner, hlt⟩ (.single ⟨_, hvalues, hmem⟩)
      obtain ⟨ds, hds⟩ := exists_showsAll hitems
      exact ⟨.array ds, .array hvalues hds⟩
  cases v with
  | number x => exact ⟨_, .number x⟩
  | array ref => exact harray ⟨ref, hv⟩

/-! ### How deep to look -/

mutual

/-- A view that goes deep enough is what the value shows. -/
theorem Shows.viewTo_eq : ∀ {v : Value} {d : Datum} {n : Nat}, h.Shows v d → d.depth ≤ n →
    h.viewTo n v = d
  | _, _, _, .number x, _ => by rw [viewTo]
  | _, _, 0, .array _ _, hn => absurd hn (Nat.not_succ_le_zero _)
  | _, _, n + 1, .array hvalues hitems, hn => by
    -- The reference leads somewhere, so the view does not fall back on an empty array.
    rw [viewTo, hvalues, Option.getD_some, Array.toList_map,
      hitems.map_viewTo (Nat.le_of_succ_le_succ hn)]

/-- Companion for the elements of an array. -/
theorem ShowsAll.map_viewTo : ∀ {vs : List Value} {ds : List Datum} {n : Nat},
    h.ShowsAll vs ds → Datum.depthAll ds ≤ n → vs.map (h.viewTo n) = ds
  | _, _, _, .nil, _ => rfl
  | _, _, _, .cons hd hds, hn => by
    rw [Datum.depthAll, Nat.max_le] at hn
    rw [List.map_cons, hd.viewTo_eq hn.1, hds.map_viewTo hn.2]

end

mutual

/-- On the way down from a value there is an array of each smaller depth. -/
theorem Shows.exists_depth : ∀ {v : Value} {d : Datum} {k : Nat}, h.Shows v d → k < d.depth →
    ∃ ref d', h.Shows (.array ref) d' ∧ d'.depth = k + 1
  | _, _, _, .number x, hk => absurd hk (Nat.not_lt_zero _)
  | _, _, k, .array hvalues hitems, hk => by
    -- The array itself has the greatest depth, and its elements have all others.
    rcases Nat.lt_succ_iff_lt_or_eq.mp hk with hlt | heq
    · exact hitems.exists_depth hlt
    · exact ⟨_, _, .array hvalues hitems, by rw [Datum.depth, heq]⟩

/-- Companion for the elements of an array. -/
theorem ShowsAll.exists_depth : ∀ {vs : List Value} {ds : List Datum} {k : Nat},
    h.ShowsAll vs ds → k < Datum.depthAll ds → ∃ ref d', h.Shows (.array ref) d' ∧ d'.depth = k + 1
  | _, _, _, .nil, hk => absurd hk (Nat.not_lt_zero _)
  | _, _, _, .cons hd hds, hk => by
    rcases lt_max_iff.mp hk with hk | hk
    · exact hd.exists_depth hk
    · exact hds.exists_depth hk

end

/-- A value is not nested more deeply than there are arrays. The arrays that `exists_depth` gives
are different ones, since each shows a single datum and so has a single depth. -/
theorem Shows.depth_le {v : Value} {d : Datum} (hd : h.Shows v d) : d.depth ≤ h.arrays.size := by
  -- An array that shows something is in the heap, so its reference is one of finitely many.
  have hexists : ∀ k : Fin d.depth, ∃ ref : Fin h.arrays.size, ∃ d',
      h.Shows (.array ref) d' ∧ d'.depth = k + 1 := by
    intro k
    obtain ⟨ref, d', hshows, hdepth⟩ := hd.exists_depth k.isLt
    cases hshows with
    | array hvalues hitems =>
      exact ⟨⟨ref, (Array.getElem?_eq_some_iff.mp hvalues).1⟩, _, .array hvalues hitems, hdepth⟩
  choose ref datum hshows hdepth using hexists
  have hinj : Function.Injective ref := by
    intro k k' heq
    have hdatum : datum k' = datum k := (hshows k).unique (heq ▸ hshows k')
    have hsame : (k : Nat) + 1 = k' + 1 := by rw [← hdepth k, ← hdepth k', hdatum]
    exact Fin.ext (Nat.succ.inj hsame)
  simpa using Fintype.card_le_of_injective ref hinj

/-- What is seen of a value is what the value shows. -/
theorem Shows.view_eq {v : Value} {d : Datum} (hd : h.Shows v d) : h.view v = d :=
  hd.viewTo_eq hd.depth_le

/-! ### Data that are stored -/

mutual

/-- A value shows the same when the heap gains arrays. -/
theorem Shows.mono (hext : h.Extends h') : ∀ {v : Value} {d : Datum}, h.Shows v d → h'.Shows v d
  | _, _, .number x => .number x
  | _, _, .array hvalues hitems => .array (hext _ _ hvalues) (hitems.mono hext)

/-- Companion for the elements of an array. -/
theorem ShowsAll.mono (hext : h.Extends h') : ∀ {vs : List Value} {ds : List Datum},
    h.ShowsAll vs ds → h'.ShowsAll vs ds
  | _, _, .nil => .nil
  | _, _, .cons hd hds => .cons (hd.mono hext) (hds.mono hext)

end

mutual

/-- To store a datum is to make arrays. -/
theorem extends_store : ∀ (d : Datum) (h : Heap), h.Extends (h.store d).2
  | .number _, h => .refl h
  | .array items, h => (extends_storeAll items h).trans (extends_push _ _)

/-- Companion for the items of a datum. -/
theorem extends_storeAll : ∀ (ds : List Datum) (h : Heap), h.Extends (h.storeAll ds).2
  | [], h => .refl h
  | d :: ds, h => (extends_store d h).trans (extends_storeAll ds _)

end

mutual

/-- A datum that has been stored is shown. -/
theorem shows_store : ∀ (d : Datum) (h : Heap), (h.store d).2.Shows (h.store d).1 d
  | .number x, _ => .number x
  | .array items, h => by
    have hnew : (h.store (.array items)).2.arrays[(h.storeAll items).2.arrays.size]?
        = some (h.storeAll items).1.toArray :=
      (World.getElem?_push _ _ _).trans (if_pos rfl)
    -- The elements were stored first and are still there behind the new array.
    exact .array hnew ((showsAll_storeAll items h).mono (extends_push _ _))

/-- Companion for the items of a datum. -/
theorem showsAll_storeAll : ∀ (ds : List Datum) (h : Heap),
    (h.storeAll ds).2.ShowsAll (h.storeAll ds).1 ds
  | [], _ => .nil
  | d :: ds, h =>
    .cons ((shows_store d h).mono (extends_storeAll ds _)) (showsAll_storeAll ds (h.store d).2)

end

/-- Printed values can be fed back. If a value is built of finite numbers, then its text is read as
the datum that it shows, with the sign of every zero, and in every heap the value that this datum is
stored as shows it again. All values are built in this way if there are no cycles and no dangling
references. -/
theorem read_view (h : Heap) :
    (∀ v d, h.Shows v d → d.isFinite = true →
      Datum.read (h.view v).text = .ok d ∧
        ∀ other : Heap, (other.store d).2.Shows (other.store d).1 d) ∧
    (h.Acyclic → h.Closed → ∀ v, h.Knows v → ∃ d, h.Shows v d) := by
  refine ⟨fun v d hv hd => ?_, fun hacyclic hclosed v hv => hacyclic.exists_shows hclosed hv⟩
  rw [hv.view_eq]
  exact ⟨Datum.read_text hd, shows_store d⟩

/-- An array with numbers beside arrays, one of which stands in it twice. -/
def shared : Heap :=
  ⟨#[#[], #[.number (-0.0), .array 0], #[.array 1, .number 0.1, .array 1, .number (-250.0)]]⟩

/-- What that array shows: a negative zero, an empty array, and different depths side by side. -/
def ragged : Datum :=
  .array [.array [.number (-0.0), .array []], .number 0.1, .array [.number (-0.0), .array []],
    .number (-250.0)]

theorem read_view_shared :
    shared.Shows (.array 2) ragged ∧ ragged.isFinite = true ∧
      (shared.view (.array 2)).text = "[[-0, []], 0.1, [-0, []], -250]" ∧
      Datum.read (shared.view (.array 2)).text = .ok ragged ∧
      (shared.store ragged).2.Shows (shared.store ragged).1 ragged := by
  have hempty : shared.Shows (.array 0) (.array []) := .array rfl .nil
  have hinner : shared.Shows (.array 1) (.array [.number (-0.0), .array []]) :=
    .array rfl (.cons (.number _) (.cons hempty .nil))
  have hshows : shared.Shows (.array 2) ragged :=
    .array rfl (.cons hinner (.cons (.number _) (.cons hinner (.cons (.number _) .nil))))
  have hfinite : ragged.isFinite = true := by decide +kernel
  obtain ⟨hread, hstore⟩ := (read_view shared).1 _ _ hshows hfinite
  exact ⟨hshows, hfinite, by decide +kernel, hread, hstore shared⟩

end Heap

end ArrayScript
