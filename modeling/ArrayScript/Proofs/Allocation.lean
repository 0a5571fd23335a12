import ArrayScript.Proofs.Static
import ArrayScript.Proofs.Update

/-!
# `ArrayScript.Proofs.Allocation`: new arrays of zeros are independent

A new array of arrays could share its rows. It would have the right shape and be full of zeros, and
only a later write would show that two of its rows are one array. `Heap.allocate_independent` says
that this is not so, at no depth: the arrays inside are all new, each of them stands at one place
only, and a write at one path is read at that path alone.

The proof looks at where the arrays are. `Heap.Zeros` says of a value that it is nested as the sizes
ask for, with zeros at the bottom, and that its arrays have consecutive references: those of the
first row, those of the second one, and so on, and behind them the array that holds the rows.

* `Heap.zeros_allocate`: this is how new arrays are laid out.
* `Heap.Zeros.ref_bounds`, `Heap.Zeros.exists_path`: so the arrays at places below the value are
  those of one interval,
* `Heap.Zeros.path_unique`: and no two places have the same array.
* `Heap.foldlM_write_of_misses`: a write is not seen on a path that does not come through its cell.
-/

set_option autoImplicit false

namespace ArrayScript.Heap

variable {h h' : Heap} {v u w : Value} {sizes : List Nat} {low ref : Nat}

/-! ### Layout -/

/-- The number of arrays that an array with the given sizes is made of, itself and those inside. -/
def arrayCount : (sizes : List Nat) → Nat
  | [] => 0
  | size :: sizes => size * arrayCount sizes + 1

/-- Whether a value is an array of zeros with the given sizes, and its arrays have the references
from `low` on. Each row has its own part of them, and the array itself comes last. -/
def Zeros (h : Heap) : (sizes : List Nat) → (low : Nat) → Value → Prop
  | [], _, v => v = .zero
  | size :: sizes, low, v =>
    v = .array (low + size * arrayCount sizes) ∧
      ∃ items, h.arrays[low + size * arrayCount sizes]? = some items ∧ items.size = size ∧
        ∀ (i : Nat) (u : Value), items[i]? = some u → h.Zeros sizes (low + i * arrayCount sizes) u

/-- More arrays leave the layout as it is. -/
theorem Zeros.of_extends (hext : h.Extends h') (hv : h.Zeros sizes low v) :
    h'.Zeros sizes low v := by
  induction sizes generalizing low v with
  | nil => exact hv
  | cons size sizes ih =>
    obtain ⟨href, items, hitems, hsize, hrows⟩ := hv
    exact ⟨href, items, hext _ _ hitems, hsize, fun i u hu => ih (hrows i u hu)⟩

/-- Whether making something lays out an array of zeros behind the arrays that are there. -/
def LaysOut (make : Heap → Value × Heap) (sizes : List Nat) : Prop :=
  ∀ h : Heap, h.Extends (make h).2 ∧
    (make h).2.arrays.size = h.arrays.size + arrayCount sizes ∧
    (make h).2.Zeros sizes h.arrays.size (make h).1

/-- Rows that are made one after the other lie one behind the other. -/
theorem LaysOut.pushMany {make : Heap → Value × Heap} (hmake : LaysOut make sizes) (low : Nat) :
    ∀ (count : Nat) (items : Array Value) (h : Heap),
      h.arrays.size = low + items.size * arrayCount sizes →
      (∀ (i : Nat) (u : Value), items[i]? = some u →
        h.Zeros sizes (low + i * arrayCount sizes) u) →
      (Heap.pushMany make count items h).1.size = items.size + count ∧
      (Heap.pushMany make count items h).2.arrays.size
        = low + (items.size + count) * arrayCount sizes ∧
      ∀ (i : Nat) (u : Value), (Heap.pushMany make count items h).1[i]? = some u →
        (Heap.pushMany make count items h).2.Zeros sizes (low + i * arrayCount sizes) u := by
  intro count
  -- The rows made so far are kept as an invariant: each takes up as many references as the sizes
  -- need, so the next one starts right behind them.
  induction count with
  | zero =>
    intro items h hsize hrows
    exact ⟨rfl, hsize, hrows⟩
  | succ count ih =>
    intro items h hsize hrows
    obtain ⟨hext, hgrown, hzeros⟩ := hmake h
    have hnext : (make h).2.arrays.size
        = low + (items.push (make h).1).size * arrayCount sizes := by
      rw [hgrown, hsize, Array.size_push, Nat.add_one_mul]
      omega
    have hrows' : ∀ (i : Nat) (u : Value), (items.push (make h).1)[i]? = some u →
        (make h).2.Zeros sizes (low + i * arrayCount sizes) u := by
      intro i u hu
      rw [Array.getElem?_push] at hu
      split at hu
      next hi =>
        cases hu
        rw [hi, ← hsize]
        exact hzeros
      next => exact (hrows i u hu).of_extends hext
    have hall := ih (items.push (make h).1) (make h).2 hnext hrows'
    rw [Array.size_push, Nat.add_assoc, Nat.add_comm 1] at hall
    exact hall

/-- New arrays of zeros are laid out behind the arrays that are there. -/
theorem zeros_allocate : ∀ sizes : List Nat, LaysOut (allocate sizes) sizes
  | [], h => ⟨.refl h, rfl, rfl⟩
  | [size], h => by
    refine ⟨extends_push h _, Array.size_push _, rfl, Array.replicate size .zero, ?_, by simp, ?_⟩
    · exact (World.getElem?_push h _ _).trans (if_pos rfl)
    · intro i u hu
      exact (Array.mem_replicate.mp (Array.mem_of_getElem? hu)).2
  | size :: next :: sizes, h => by
    obtain ⟨hsize, hgrown, hrows⟩ :=
      (zeros_allocate (next :: sizes)).pushMany h.arrays.size size #[] h (by simp) (by simp)
    rw [Array.size_empty, Nat.zero_add] at hsize hgrown
    refine ⟨extends_allocate _ _, ?_, congrArg _ hgrown, _, ?_, hsize, ?_⟩
    · rw [arrayCount, ← Nat.add_assoc, ← hgrown]
      exact Array.size_push _
    · exact (World.getElem?_push _ _ _).trans (if_pos hgrown.symm)
    · exact fun i u hu => (hrows i u hu).of_extends (extends_push _ _)

/-- An array of zeros has its sizes. -/
theorem Zeros.hasSizes (hv : h.Zeros sizes low v) : h.HasSizes sizes v := by
  induction sizes generalizing low v with
  | nil => exact ⟨0, hv⟩
  | cons size sizes ih =>
    obtain ⟨rfl, items, hitems, hsize, hrows⟩ := hv
    refine ⟨items, hitems, hsize, ?_⟩
    intro u hu
    obtain ⟨i, hi⟩ := Array.mem_iff_getElem?.mp hu
    exact ih (hrows i u hi)

/-! ### Places -/

/-- The part of the references that a row has lies in front of the array that holds the rows. -/
theorem row_le {i size : Nat} (hi : i < size) (count : Nat) : i * count + count ≤ size * count := by
  have hle := Nat.mul_le_mul_right count (Nat.succ_le_of_lt hi)
  rwa [Nat.succ_mul] at hle

/-- What stands at a path below an array of zeros stands below one of its rows. -/
theorem Zeros.exists_row {size position : Nat} {path : List Nat}
    (hv : h.Zeros (size :: sizes) low v)
    (hw : (position :: path).foldlM h.child? v = some w) :
    position < size ∧ ∃ row, h.child? v position = some row ∧
      h.Zeros sizes (low + position * arrayCount sizes) row ∧
        path.foldlM h.child? row = some w := by
  obtain ⟨rfl, items, hitems, hsize, hrows⟩ := hv
  rw [List.foldlM_cons] at hw
  obtain ⟨row, hrow, hw⟩ := Option.bind_eq_some_iff.mp hw
  have hget : items[position]? = some row := by
    simpa [child?, items?, hitems] using hrow
  have hlt := (Array.getElem?_eq_some_iff.mp hget).1
  exact ⟨by omega, row, hrow, hrows position row hget, hw⟩

/-- The arrays at places below an array of zeros have the references that it was laid out with. -/
theorem Zeros.ref_bounds (hv : h.Zeros sizes low v) :
    ∀ {path : List Nat}, path.foldlM h.child? v = some (.array ref) →
      low ≤ ref ∧ ref < low + arrayCount sizes := by
  induction sizes generalizing low v with
  | nil =>
    intro path hpath
    cases hv
    cases path <;> cases hpath
  | cons size sizes ih =>
    intro path hpath
    rw [arrayCount]
    cases path with
    | nil =>
      obtain ⟨rfl, -⟩ := hv
      cases hpath
      omega
    | cons position path =>
      obtain ⟨hlt, row, -, hrow, hpath⟩ := hv.exists_row hpath
      obtain ⟨hlow, hhigh⟩ := ih hrow hpath
      have := row_le hlt (arrayCount sizes)
      omega

/-- Each of these references is that of an array at some place. -/
theorem Zeros.exists_path (hv : h.Zeros sizes low v) (hlow : low ≤ ref)
    (hhigh : ref < low + arrayCount sizes) :
    ∃ path : List Nat, path.foldlM h.child? v = some (.array ref) := by
  induction sizes generalizing low v with
  | nil =>
    rw [arrayCount] at hhigh
    omega
  | cons size sizes ih =>
    obtain ⟨rfl, items, hitems, hsize, hrows⟩ := hv
    rw [arrayCount] at hhigh
    by_cases hlast : ref = low + size * arrayCount sizes
    · exact ⟨[], by rw [hlast]; rfl⟩
    · -- The reference belongs to the row whose part of the interval it lies in.
      have hinside : ref - low < arrayCount sizes * size := by
        rw [Nat.mul_comm]
        omega
      have hlt := Nat.div_lt_of_lt_mul hinside
      have hdiv := Nat.div_add_mod' (ref - low) (arrayCount sizes)
      have hmod := Nat.mod_lt (ref - low) (Nat.pos_of_mul_pos_right (Nat.zero_lt_of_lt hinside))
      have hget := Array.getElem?_eq_getElem (hsize ▸ hlt)
      obtain ⟨path, hpath⟩ := ih (hrows _ _ hget) (by omega) (by omega)
      refine ⟨(ref - low) / arrayCount sizes :: path, ?_⟩
      rw [List.foldlM_cons, child?, items?, hitems]
      simpa [hget] using hpath

/-- No two places below an array of zeros have the same array. -/
theorem Zeros.path_unique (hv : h.Zeros sizes low v) :
    ∀ {path other : List Nat}, path.foldlM h.child? v = some (.array ref) →
      other.foldlM h.child? v = some (.array ref) → path = other := by
  induction sizes generalizing low v with
  | nil =>
    intro path other hpath
    cases hv
    cases path <;> cases hpath
  | cons size sizes ih =>
    intro path other hpath hother
    -- An array at a place inside a row has a smaller reference than the array of the rows.
    have hinner : ∀ {position : Nat} {path : List Nat},
        (position :: path).foldlM h.child? v = some (.array ref) →
        ref < low + size * arrayCount sizes := by
      intro position path hpath
      obtain ⟨hlt, row, -, hrow, hpath⟩ := hv.exists_row hpath
      have := (hrow.ref_bounds hpath).2
      have := row_le hlt (arrayCount sizes)
      omega
    have houter : some v = some (.array ref) → ref = low + size * arrayCount sizes := by
      intro href
      cases hv.1.symm.trans (Option.some.inj href)
      rfl
    rcases path with _ | ⟨i, path⟩ <;> rcases other with _ | ⟨j, other⟩
    · rfl
    · exact absurd (houter hpath) (Nat.ne_of_lt (hinner hother))
    · exact absurd (houter hother) (Nat.ne_of_lt (hinner hpath))
    · obtain ⟨hi, row, hrow, hzeros, hpath⟩ := hv.exists_row hpath
      obtain ⟨hj, row', hrow', hzeros', hother⟩ := hv.exists_row hother
      obtain ⟨hlow, hhigh⟩ := hzeros.ref_bounds hpath
      obtain ⟨hlow', hhigh'⟩ := hzeros'.ref_bounds hother
      rcases Nat.lt_trichotomy i j with hij | rfl | hji
      · have := row_le hij (arrayCount sizes)
        omega
      · obtain rfl : row = row' := Option.some.inj (hrow.symm.trans hrow')
        rw [ih hzeros hpath hother]
      · have := row_le hji (arrayCount sizes)
        omega

/-- Positions that fit the sizes lead to a zero. -/
theorem Zeros.foldlM_eq_zero (hv : h.Zeros sizes low v) {positions : List Nat}
    (hfit : List.Forall₂ (· < ·) positions sizes) :
    positions.foldlM h.child? v = some .zero := by
  induction hfit generalizing low v with
  | nil => rw [show v = .zero from hv]; rfl
  | @cons position size positions sizes hlt _ ih =>
    obtain ⟨rfl, items, hitems, rfl, hrows⟩ := hv
    have hget := Array.getElem?_eq_getElem hlt
    simpa [child?, items?, hitems, hget] using ih (hrows position _ hget)

/-! ### Paths of numbers -/

theorem child?_array (h : Heap) (ref i : Nat) :
    h.child? (.array ref) i = h.arrays[ref]?.bind fun items => items[i]? :=
  rfl

/-- The element at an index is the one at the position that the index stands for. -/
theorem element_ok {x : Float} :
    h.element v x = .ok w ↔ ∃ i, Number.whole? x = some i ∧ h.child? v i = some w := by
  unfold element child?
  cases h.items? v with
  | none => simp
  | some items =>
    unfold Number.toIndex
    cases Number.whole? x with
    | none => simp
    | some i =>
      by_cases hi : i < items.size
      · simp [hi, bind, Except.bind, pure, Except.pure]
      · simp [hi, bind, Except.bind]

/-- The cell at an index is that of the element there. -/
theorem cell_ok {x : Float} {cell : Cell} :
    h.cell v x = .ok cell ↔ v = .array cell.ref ∧ Number.whole? x = some cell.index ∧
      ∃ w, h.child? v cell.index = some w := by
  obtain ⟨ref, index⟩ := cell
  cases v with
  | number y => simp [Heap.cell]
  | array ref' =>
    cases hitems : h.arrays[ref']? with
    | none => simp [Heap.cell, child?, items?, hitems]
    | some items =>
      cases hwhole : Number.whole? x with
      | none => simp [Heap.cell, hitems, Number.toIndex, hwhole]
      | some i =>
        -- The index is whole; what is left to compare is the length of the array.
        by_cases hi : i < items.size
        · have hcell : h.cell (.array ref') x = .ok ⟨ref', i⟩ := by
            simp [Heap.cell, hitems, Number.toIndex, hwhole, hi]
          rw [hcell, child?_array, hitems]
          constructor
          · intro heq
            cases heq
            exact ⟨rfl, rfl, _, Array.getElem?_eq_getElem hi⟩
          · rintro ⟨href, hindex, -⟩
            cases href
            cases hindex
            rfl
        · rw [child?_array, hitems]
          simp only [Heap.cell, hitems, Number.toIndex, hwhole, hi, dite_false]
          constructor
          · intro heq
            cases heq
          · rintro ⟨-, hindex, w, hw⟩
            cases hindex
            exact absurd (Array.getElem?_eq_some_iff.mp hw).1 hi

/-- Whether numbers stand for positions, one by one. Zero and negative zero stand for the same. -/
def Denotes (path : List Float) (positions : List Nat) : Prop :=
  List.Forall₂ (fun x i => Number.whole? x = some i) path positions

/-- Numbers stand for no more than one list of positions. -/
theorem Denotes.unique {path : List Float} {positions positions' : List Nat}
    (hpath : Denotes path positions) (hpath' : Denotes path positions') :
    positions = positions' := by
  refine List.right_unique_forall₂' ?_ hpath hpath'
  intro x i j hi hj
  exact Option.some.inj (hi.symm.trans hj)

/-- A path of numbers leads where the positions lead that it stands for. -/
theorem walk_ok {path : List Float} :
    h.walk v path = .ok w ↔
      ∃ positions, Denotes path positions ∧ positions.foldlM h.child? v = some w := by
  induction path generalizing v with
  | nil =>
    constructor
    · intro hwalk
      cases hwalk
      exact ⟨[], .nil, rfl⟩
    · rintro ⟨_, ⟨⟩, hw⟩
      cases hw
      rfl
  | cons x path ih =>
    -- One step of the walk, as an equation that both directions can use.
    have hstep : h.walk v (x :: path) = .ok w ↔
        ∃ u, h.element v x = .ok u ∧ h.walk u path = .ok w := by
      simp only [walk, List.foldlM_cons]
      cases h.element v x with
      | error cause => simp [bind, Except.bind]
      | ok u => simp [bind, Except.bind]
    rw [hstep]
    constructor
    · rintro ⟨u, helement, hwalk⟩
      obtain ⟨i, hi, hu⟩ := element_ok.mp helement
      obtain ⟨positions, hpath, hw⟩ := ih.mp hwalk
      refine ⟨i :: positions, .cons hi hpath, ?_⟩
      rw [List.foldlM_cons, hu]
      exact hw
    · rintro ⟨_, hdenotes, hw⟩
      obtain ⟨i, positions, hi, hpath, rfl⟩ := List.forall₂_cons_left_iff.mp hdenotes
      rw [List.foldlM_cons] at hw
      obtain ⟨u, hu, hw⟩ := Option.bind_eq_some_iff.mp hw
      exact ⟨u, element_ok.mpr ⟨i, hi, hu⟩, ih.mpr ⟨positions, hpath, hw⟩⟩

/-! ### Writes -/

/-- A write puts its value into its cell. -/
theorem child?_write_self {cell : Cell} (hold : h.child? (.array cell.ref) cell.index = some u)
    (item : Value) :
    (h.write cell item).child? (.array cell.ref) cell.index = some item := by
  rw [child?_array] at hold ⊢
  obtain ⟨items, hitems, hu⟩ := Option.bind_eq_some_iff.mp hold
  have hlt := (Array.getElem?_eq_some_iff.mp hu).1
  rw [World.getElem?_write, if_pos rfl, hitems]
  simp [hlt]

/-- A write leaves all other elements as they are. -/
theorem child?_write_of_ne {cell : Cell} {i : Nat} (hne : v = .array cell.ref → i ≠ cell.index)
    (item : Value) : (h.write cell item).child? v i = h.child? v i := by
  cases v with
  | number x => rfl
  | array ref =>
    rw [child?_array, child?_array, World.getElem?_write]
    by_cases href : cell.ref = ref
    · rw [if_pos href]
      have hi := hne (congrArg _ href.symm)
      cases h.arrays[ref]? with
      | none => rfl
      | some items => simp [Ne.symm hi]
    · rw [if_neg href]

/-- A write is not seen on a path that does not come through its cell. -/
theorem foldlM_write_of_misses {cell : Cell} (item : Value) :
    ∀ {positions : List Nat} {v w : Value},
      (∀ front i back, positions = front ++ i :: back →
        front.foldlM h.child? v = some (.array cell.ref) → i ≠ cell.index) →
      positions.foldlM h.child? v = some w →
      positions.foldlM (h.write cell item).child? v = some w := by
  intro positions
  induction positions with
  | nil => exact fun _ hw => hw
  | cons i positions ih =>
    intro v w hmisses hw
    rw [List.foldlM_cons] at hw ⊢
    obtain ⟨u, hu, hw⟩ := Option.bind_eq_some_iff.mp hw
    have hne : v = .array cell.ref → i ≠ cell.index := by
      intro hv
      exact hmisses [] i positions rfl (congrArg some hv)
    rw [child?_write_of_ne hne, hu]
    refine ih ?_ hw
    intro front j back hsplit hfront
    refine hmisses (i :: front) j back (congrArg _ hsplit) ?_
    rw [List.foldlM_cons, hu]
    exact hfront

/-- Behind a write at one path below an array of zeros, the path leads to the value that was
written, and every other path to a zero. -/
theorem Zeros.foldlM_write (hv : h.Zeros sizes low v) {cell : Cell} {front : List Nat}
    (hfit : List.Forall₂ (· < ·) (front ++ [cell.index]) sizes)
    (hcontainer : front.foldlM h.child? v = some (.array cell.ref)) (item : Value) :
    (front ++ [cell.index]).foldlM (h.write cell item).child? v = some item ∧
      ∀ other, List.Forall₂ (· < ·) other sizes → other ≠ front ++ [cell.index] →
        other.foldlM (h.write cell item).child? v = some .zero := by
  -- Only one path comes to the array that is written to, and it does so once.
  have hunique : ∀ {start : List Nat}, start.foldlM h.child? v = some (.array cell.ref) →
      start = front := fun hstart => hv.path_unique hstart hcontainer
  refine ⟨?_, ?_⟩
  · have hold := hv.foldlM_eq_zero hfit
    rw [List.foldlM_append, hcontainer] at hold
    have hfront : front.foldlM (h.write cell item).child? v = some (.array cell.ref) := by
      refine foldlM_write_of_misses item ?_ hcontainer
      intro start i back hsplit hstart
      have := congrArg List.length (hunique hstart)
      simp [hsplit] at this
    rw [List.foldlM_append, hfront]
    have hcell : h.child? (.array cell.ref) cell.index = some .zero := by simpa using hold
    simpa using child?_write_self hcell item
  · intro other hother hne
    refine foldlM_write_of_misses item ?_ (hv.foldlM_eq_zero hother)
    intro start i back hsplit hstart hi
    -- The other path would end in the cell, as the first one does.
    have hlength : other.length = (front ++ [cell.index]).length :=
      hother.length_eq.trans hfit.length_eq.symm
    rw [hunique hstart, hi] at hsplit
    have hback : back = [] := by simpa [hsplit] using hlength
    exact hne (by rw [hsplit, hback])

/-! ### New arrays -/

/-- What stands below a single value. -/
theorem at?_singleton {place : Place} :
    h.at? [v] place = some w ↔ place.argument = 0 ∧ place.path.foldlM h.child? v = some w := by
  obtain ⟨argument, path⟩ := place
  cases argument with
  | zero => simp [at?]
  | succ argument => simp [at?]

/-- Whether numbers are the indices of an element in an array with the given sizes, one index for
each size, and stand for the given positions. -/
def Addresses (sizes : List Nat) (path : List Float) (positions : List Nat) : Prop :=
  Denotes path positions ∧ List.Forall₂ (· < ·) positions sizes

/-- A new array of zeros is independent of everything else, and so are its parts of each other.

* The arrays that were there are as they were.
* The new array has the sizes that were asked for, and every path of indices to an element leads to
  a zero.
* The arrays at places below it are exactly those that the heap has gained, and none of them stands
  at two places.
* At every path of indices a value can be written. It is then read at that path, and a zero is read
  at all paths that stand for other positions. -/
theorem allocate_independent (hsizes : sizes ≠ []) (hmade : allocate sizes h = (v, h')) :
    h.Extends h' ∧
    h'.conforms v (.array (sizes.map .fixed)) = true ∧
    (∀ path positions, Addresses sizes path positions → h'.walk v path = .ok .zero) ∧
    (∀ ref, (∃ place, h'.at? [v] place = some (.array ref)) ↔
      h.arrays.size ≤ ref ∧ ref < h'.arrays.size) ∧
    h'.Separate [v] ∧
    ∀ front last positions, Addresses sizes (front ++ [last]) positions →
      ∃ container cell, h'.walk v front = .ok container ∧ h'.cell container last = .ok cell ∧
        ∀ item, (h'.write cell item).walk v (front ++ [last]) = .ok item ∧
          ∀ other positions', Addresses sizes other positions' → positions' ≠ positions →
            (h'.write cell item).walk v other = .ok .zero := by
  obtain ⟨hext, hgrown, hzeros⟩ := zeros_allocate sizes h
  rw [hmade] at hext hgrown hzeros
  dsimp only at hext hgrown hzeros
  refine ⟨hext, ?_, ?_, ?_, ?_, ?_⟩
  · -- The sizes are those of the type.
    have hstatic : Ty.Static (.array (sizes.map .fixed)) := by
      refine ⟨?_, by simp [Ty.rank]⟩
      obtain ⟨size, others, rfl⟩ := List.exists_cons_of_ne_nil hsizes
      rfl
    rw [conforms_iff_hasSizes hstatic]
    have hgiven : Ty.sizes (.array (sizes.map .fixed)) = sizes := by
      simp [Ty.sizes, Ty.rank, Function.comp_def, Dim.size]
    rw [hgiven]
    exact hzeros.hasSizes
  · -- Every element is zero.
    rintro path positions ⟨hpath, hfit⟩
    exact walk_ok.mpr ⟨positions, hpath, hzeros.foldlM_eq_zero hfit⟩
  · -- The arrays below are those that were gained.
    intro ref
    rw [hgrown]
    constructor
    · rintro ⟨place, hplace⟩
      exact hzeros.ref_bounds (at?_singleton.mp hplace).2
    · rintro ⟨hlow, hhigh⟩
      obtain ⟨path, hpath⟩ := hzeros.exists_path hlow hhigh
      exact ⟨⟨0, path⟩, at?_singleton.mpr ⟨rfl, hpath⟩⟩
  · -- No array stands at two places, because paths to it are unique.
    rintro ⟨argument, path⟩ ⟨argument', path'⟩ ref hplace hplace'
    obtain ⟨rfl, hpath⟩ := at?_singleton.mp hplace
    obtain ⟨rfl, hpath'⟩ := at?_singleton.mp hplace'
    exact congrArg (Place.mk 0) (hzeros.path_unique hpath hpath')
  · -- A write reaches one position only. The path is split where the cell is, and positions are
    -- compared instead of numbers, as two numbers may stand for one position.
    rintro front last positions ⟨hpath, hfit⟩
    obtain ⟨container, cell, -, hwalk, hcell, -, -⟩ :=
      exists_cell_of_walk (walk_ok.mpr ⟨positions, hpath, hzeros.foldlM_eq_zero hfit⟩)
    obtain ⟨places, hfront, hdown⟩ := walk_ok.mp hwalk
    obtain ⟨rfl, hlast, -⟩ := cell_ok.mp hcell
    obtain rfl : positions = places ++ [cell.index] :=
      hpath.unique (List.rel_append hfront (.cons hlast .nil))
    refine ⟨_, cell, hwalk, hcell, ?_⟩
    intro item
    obtain ⟨hself, hothers⟩ := hzeros.foldlM_write hfit hdown item
    refine ⟨walk_ok.mpr ⟨_, hpath, hself⟩, ?_⟩
    rintro other positions' ⟨hother, hfit'⟩ hne
    exact walk_ok.mpr ⟨positions', hother, hothers positions' hfit' hne⟩

/-- Two rows of two zeros, made behind another array. The array of rows is written into one of its
own rows, and the other row does not notice. -/
theorem allocate_independent_square :
    ∃ v h', allocate [2, 2] ⟨#[#[.number 7]]⟩ = (v, h') ∧ h'.arrays[0]? = some #[.number 7] ∧
      h'.Separate [v] ∧ ∃ container cell, h'.walk v [0] = .ok container ∧
        h'.cell container 1 = .ok cell ∧ (h'.write cell v).walk v [0, 1] = .ok v ∧
        (h'.write cell v).walk v [1, 1] = .ok .zero := by
  have hmade : allocate [2, 2] ⟨#[#[.number 7]]⟩ = (_, _) := rfl
  obtain ⟨hext, -, -, -, hseparate, hwrite⟩ := allocate_independent (by simp) hmade
  have haddress : Addresses [2, 2] ([0] ++ [1]) [0, 1] ∧ Addresses [2, 2] [1, 1] [1, 1] := by
    have hzero : Number.whole? 0 = some 0 := by decide +kernel
    have hone : Number.whole? 1 = some 1 := by decide +kernel
    simp [Addresses, Denotes, hzero, hone]
  obtain ⟨container, cell, hcontainer, hcell, hitem⟩ := hwrite [0] 1 [0, 1] haddress.1
  refine ⟨_, _, rfl, hext 0 _ rfl, hseparate, container, cell, hcontainer, hcell,
    (hitem _).1, ?_⟩
  exact (hitem _).2 [1, 1] [1, 1] haddress.2 (by simp)

end ArrayScript.Heap
