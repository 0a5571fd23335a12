import ArrayScript.Proofs.Pledge

/-!
# `ArrayScript.Proofs.Renaming`: runs do not look at the names of arrays

A reference is the name of an array, and nothing that code does depends on it. This module follows
two runs of the same code side by side, on two heaps that hold the same arrays under different
names. The heaps need not agree on all their arrays: a `Naming` says which arrays a run *owns*, that
is, may come across, and what each of them is called in the other heap.

Two things are shown at once, because each needs the other. The first run changes no array that it
does not own, and keeps the length of every array (`Naming.pledge`). And the two heaps go on holding
the same arrays, with owned elements only (`Naming.Alike`), so that the runs take the same course
and end alike:

* `alike_eval`: terms evaluate to the same value, up to its name,
* `alike_exec`: steps leave the same frame, up to names,
* `alike_call`: calls end alike, by induction on the number of frames that may still be opened.

Nothing is asked of the code. It need not be typed.
-/

set_option autoImplicit false

namespace ArrayScript

open Code (Term Step Flow State)

/-- A value whose array has another name. -/
def Value.rename (name : Nat → Nat) : Value → Value
  | .number x => .number x
  | .array ref => .array (name ref)

/-- Whether a value is a number, and which, is not a matter of names. -/
@[simp]
theorem Value.toNumber_rename (name : Nat → Nat) (v : Value) :
    (v.rename name).toNumber = v.toNumber := by
  cases v <;> rfl

/-- Which arrays a run may come across, and what each of them is called in another heap. -/
structure Naming where
  owned : Nat → Prop
  name : Nat → Nat
  injective : ∀ {ref ref' : Nat}, owned ref → owned ref' → name ref = name ref' → ref = ref'

namespace Naming

section
variable (N : Naming)

/-- Whether a value is a number or an owned array that the heap has. -/
def Owns (h : Heap) : Value → Prop
  | .number _ => True
  | .array ref => N.owned ref ∧ ∃ items, h.arrays[ref]? = some items

/-- Every array keeps its length, and those that are not owned keep their elements. -/
def pledge : Pledge Heap where
  grows h h' := ∀ (ref : Nat) (items : Array Value), h.arrays[ref]? = some items →
    ∃ items', h'.arrays[ref]? = some items' ∧ items'.size = items.size ∧
      (¬ N.owned ref → items' = items)
  errors _ := True
  refl _ _ items hitems := ⟨items, hitems, rfl, fun _ => rfl⟩
  trans hfirst hnext ref items hitems := by
    obtain ⟨items₁, hitems₁, hsize₁, hkeep₁⟩ := hfirst ref items hitems
    obtain ⟨items₂, hitems₂, hsize₂, hkeep₂⟩ := hnext ref items₁ hitems₁
    exact ⟨items₂, hitems₂, hsize₂.trans hsize₁, fun h => (hkeep₂ h).trans (hkeep₁ h)⟩

/-- Whether two heaps hold the same owned arrays under their two names, with owned elements. The
arrays that both heaps will make next are owned too, and named in the order in which they are
made. -/
structure Alike (h h₂ : Heap) : Prop where
  arrays : ∀ {ref : Nat} {items : Array Value}, N.owned ref → h.arrays[ref]? = some items →
    (∀ v ∈ items, N.Owns h v) ∧ h₂.arrays[N.name ref]? = some (items.map (Value.rename N.name))
  fresh : ∀ count : Nat, N.owned (h.arrays.size + count) ∧
    N.name (h.arrays.size + count) = h₂.arrays.size + count

/-- Whether a value is owned, and another one is the same up to its name. -/
def Same (h : Heap) (v w : Value) : Prop :=
  N.Owns h v ∧ w = v.rename N.name

/-- Whether several values are owned, and others are the same up to their names. -/
def SameAll (h : Heap) (vs ws : List Value) : Prop :=
  (∀ v ∈ vs, N.Owns h v) ∧ ws = vs.map (Value.rename N.name)

end

variable {N : Naming} {h h' h₂ : Heap} {v w : Value}

/-- A value goes on being owned. -/
theorem Owns.of_grows (hv : N.Owns h v) (hgrows : N.pledge.grows h h') : N.Owns h' v := by
  cases v with
  | number x => trivial
  | array ref =>
    obtain ⟨howned, items, hitems⟩ := hv
    obtain ⟨items', hitems', -⟩ := hgrows ref items hitems
    exact ⟨howned, items', hitems'⟩

theorem Same.of_grows (hv : N.Same h v w) (hgrows : N.pledge.grows h h') : N.Same h' v w :=
  ⟨hv.1.of_grows hgrows, hv.2⟩

theorem same_number (x : Float) : N.Same h (.number x) (.number x) :=
  ⟨trivial, rfl⟩

/-- Values that are the same are the same number, or no number both. -/
theorem Same.toNumber_eq (hv : N.Same h v w) : w.toNumber = v.toNumber := by
  rw [hv.2, Value.toNumber_rename]

/-! ### Steps of the heap -/

/-- A new array changes no other one. -/
theorem grows_push (h : Heap) (items : Array Value) : N.pledge.grows h (h.push items).2 := by
  intro ref old hold
  have hlt := (Array.getElem?_eq_some_iff.mp hold).1
  refine ⟨old, ?_, rfl, fun _ => rfl⟩
  rw [World.getElem?_push, if_neg (by omega)]
  exact hold

/-- A write changes an owned array only. -/
theorem grows_write {cell : Heap.Cell} (howned : N.owned cell.ref) :
    N.pledge.grows h (h.write cell v) := by
  intro ref items hitems
  rw [World.getElem?_write, hitems]
  by_cases href : cell.ref = ref
  · rw [if_pos href]
    exact ⟨_, rfl, by simp, fun hnot => absurd (href ▸ howned) hnot⟩
  · rw [if_neg href]
    exact ⟨items, rfl, rfl, fun _ => rfl⟩

/-- Heaps stay alike when both make an array of the same elements, and the two arrays are the
same. -/
theorem Alike.push (ha : N.Alike h h₂) {items : Array Value} (hitems : ∀ v ∈ items, N.Owns h v) :
    N.Alike (h.push items).2 (h₂.push (items.map (Value.rename N.name))).2 ∧
      N.Same (h.push items).2 (h.push items).1 (h₂.push (items.map (Value.rename N.name))).1 := by
  have hgrows := grows_push (N := N) h items
  obtain ⟨hnext, hname⟩ := ha.fresh 0
  simp only [Nat.add_zero] at hnext hname
  refine ⟨⟨?_, ?_⟩, ⟨hnext, items, ?_⟩, ?_⟩
  · intro ref old howned hold
    rw [World.getElem?_push] at hold ⊢
    -- The array is the new one on both sides, or an old one on both.
    by_cases href : ref = h.arrays.size
    · rw [if_pos href] at hold
      cases hold
      rw [href, hname, if_pos rfl]
      exact ⟨fun v hv => (hitems v hv).of_grows hgrows, rfl⟩
    · rw [if_neg href] at hold
      obtain ⟨helements, hold₂⟩ := ha.arrays howned hold
      have hlt := (Array.getElem?_eq_some_iff.mp hold₂).1
      rw [if_neg (by omega)]
      exact ⟨fun v hv => (helements v hv).of_grows hgrows, hold₂⟩
  · intro count
    have hfresh := ha.fresh (1 + count)
    simpa [Heap.push, Nat.add_assoc] using hfresh
  · rw [World.getElem?_push, if_pos rfl]
  · show Value.array h₂.arrays.size = .array (N.name h.arrays.size)
    rw [hname]

/-- Heaps stay alike when the same value is written to the same place of an owned array. -/
theorem Alike.write (ha : N.Alike h h₂) {cell : Heap.Cell} (howned : N.owned cell.ref)
    (hv : N.Owns h v) :
    N.Alike (h.write cell v)
      (h₂.write ⟨N.name cell.ref, cell.index⟩ (v.rename N.name)) := by
  have hgrows : N.pledge.grows h (h.write cell v) := grows_write howned
  refine ⟨?_, ?_⟩
  · intro ref items hown hitems
    rw [World.getElem?_write] at hitems ⊢
    by_cases href : cell.ref = ref
    · obtain rfl := href
      rw [if_pos rfl] at hitems ⊢
      obtain ⟨old, hold, rfl⟩ := Option.map_eq_some_iff.mp hitems
      obtain ⟨helements, hold₂⟩ := ha.arrays hown hold
      refine ⟨?_, ?_⟩
      · intro u hu
        rcases Array.mem_or_eq_of_mem_setIfInBounds hu with hmem | rfl
        · exact (helements u hmem).of_grows hgrows
        · exact hv.of_grows hgrows
      · simp [hold₂, Array.map_setIfInBounds]
    · -- Two owned arrays have different names, so the second write misses the array as well.
      have hname : N.name cell.ref ≠ N.name ref := fun heq => href (N.injective howned hown heq)
      rw [if_neg href] at hitems
      rw [if_neg hname]
      obtain ⟨helements, hitems₂⟩ := ha.arrays hown hitems
      exact ⟨fun u hu => (helements u hu).of_grows hgrows, hitems₂⟩
  · intro count
    simpa [Heap.write] using ha.fresh count

/-! ### Operations on the heap -/

/-- Whether two operations succeed together, with results that satisfy `post`, or fail for the same
cause. -/
def Pairs {α β : Type} (post : α → β → Prop) : Except Cause α → Except Cause β → Prop
  | .ok a, .ok b => post a b
  | .error cause, .error cause' => cause' = cause
  | _, _ => False

/-- Operations that go in pairs compose. -/
theorem Pairs.bind {α β γ δ : Type} {post : α → β → Prop} {goal : γ → δ → Prop}
    {r : Except Cause α} {r' : Except Cause β} {k : α → Except Cause γ} {k' : β → Except Cause δ}
    (hr : Pairs post r r') (hk : ∀ a b, post a b → Pairs goal (k a) (k' b)) :
    Pairs goal (r >>= k) (r' >>= k') := by
  cases r with
  | ok a =>
    cases r' with
    | ok b => exact hk a b hr
    | error cause => exact hr.elim
  | error cause =>
    cases r' with
    | ok b => exact hr.elim
    | error cause' => exact hr

/-- An operation that does not see names goes in a pair with itself. -/
theorem Pairs.refl {α : Type} (r : Except Cause α) : Pairs (fun a b => b = a) r r := by
  cases r <;> rfl

/-- A number is the same index for two arrays of the same length. -/
theorem pairs_toIndex (x : Float) {m n : Nat} (hlength : n = m) :
    Pairs (fun (i : Fin m) (j : Fin n) => j.val = i.val) (Number.toIndex x m)
      (Number.toIndex x n) := by
  subst hlength
  unfold Number.toIndex
  split
  · rfl
  · split <;> rfl

/-- Values that are the same have the same elements, up to names, or none both. -/
theorem Alike.items?_eq (ha : N.Alike h h₂) (hv : N.Same h v w) :
    h₂.items? w = (h.items? v).map (Array.map (Value.rename N.name)) := by
  obtain ⟨howns, rfl⟩ := hv
  cases v with
  | number x => rfl
  | array ref =>
    obtain ⟨howned, items, hitems⟩ := howns
    show h₂.arrays[N.name ref]? = h.arrays[ref]?.map _
    rw [(ha.arrays howned hitems).2, hitems]
    rfl

/-- The elements of an owned array are owned. -/
theorem Alike.owns_of_mem (ha : N.Alike h h₂) (hv : N.Owns h v) {items : Array Value}
    (hitems : h.items? v = some items) : ∀ u ∈ items, N.Owns h u := by
  cases v with
  | number x => cases hitems
  | array ref => exact (ha.arrays hv.1 hitems).1

/-- The same index leads to the same element. -/
theorem Alike.element (ha : N.Alike h h₂) (hv : N.Same h v w) (x : Float) :
    Pairs (N.Same h) (h.element v x) (h₂.element w x) := by
  unfold Heap.element
  rw [ha.items?_eq hv]
  cases hitems : h.items? v with
  | none => rfl
  | some items =>
    refine (pairs_toIndex x (by simp)).bind ?_
    intro i j hij
    refine ⟨ha.owns_of_mem hv.1 hitems _ (Array.getElem_mem i.isLt), ?_⟩
    simp [hij]

/-- The same path leads to the same value. -/
theorem Alike.walk (ha : N.Alike h h₂) :
    ∀ (path : List Float) {v w : Value}, N.Same h v w →
      Pairs (N.Same h) (h.walk v path) (h₂.walk w path)
  | [], v, w, hv => hv
  | x :: path, v, w, hv => by
    simp only [Heap.walk, List.foldlM_cons]
    exact (ha.element hv x).bind fun u u' hu => ha.walk path hu

/-- The same index leads to the same cell, of an owned array. -/
theorem Alike.cell (ha : N.Alike h h₂) (hv : N.Same h v w) (x : Float) :
    Pairs (fun cell cell' => N.owned cell.ref ∧ cell' = ⟨N.name cell.ref, cell.index⟩)
      (h.cell v x) (h₂.cell w x) := by
  obtain ⟨howns, rfl⟩ := hv
  cases v with
  | number y => rfl
  | array ref =>
    obtain ⟨howned, items, hitems⟩ := howns
    simp only [Heap.cell, Value.rename, hitems, (ha.arrays howned hitems).2]
    refine (pairs_toIndex x (by simp)).bind ?_
    intro i j hij
    refine ⟨howned, ?_⟩
    simp [hij]

/-- Values that are the same have the same shape. -/
theorem Alike.conformsToRank_eq (ha : N.Alike h h₂) :
    ∀ (rank : List Dim) {v w : Value}, N.Same h v w →
      h₂.conformsToRank rank w = h.conformsToRank rank v
  | [], .number x, w, hv => by
    rw [hv.2]
    rfl
  | [], .array ref, w, hv => by
    rw [hv.2]
    rfl
  | dim :: dims, v, w, hv => by
    rw [Heap.conformsToRank, Heap.conformsToRank, ha.items?_eq hv]
    cases hitems : h.items? v with
    | none => rfl
    | some items =>
      have hall : (items.map (Value.rename N.name)).all (h₂.conformsToRank dims)
          = items.all (h.conformsToRank dims) := by
        rw [Bool.eq_iff_iff, Array.all_eq_true_iff_forall_mem, Array.all_eq_true_iff_forall_mem,
          Array.forall_mem_map]
        refine forall₂_congr fun u hu => ?_
        rw [ha.conformsToRank_eq dims ⟨ha.owns_of_mem hv.1 hitems u hu, rfl⟩]
      simp only [Option.map_some]
      rw [hall, Array.size_map]

/-- Values that are the same conform to the same types. -/
theorem Alike.conforms_eq (ha : N.Alike h h₂) (hv : N.Same h v w) {ty : Ty} (hty : ty.Proper) :
    h₂.conforms w ty = h.conforms v ty := by
  rw [Heap.conforms_of_proper hty, Heap.conforms_of_proper hty]
  exact ha.conformsToRank_eq ty.rank hv

/-- A builtin gives the same result for the same arguments. -/
theorem Alike.apply_eq (ha : N.Alike h h₂) {vs ws : List Value} (hvs : N.SameAll h vs ws)
    (b : Builtin) : b.apply h₂ ws = b.apply h vs := by
  obtain ⟨howns, rfl⟩ := hvs
  have hargument : ∀ index : Nat,
      b.argument (vs.map (Value.rename N.name)) index = b.argument vs index := by
    intro index
    unfold Builtin.argument
    rw [List.getElem?_map]
    cases vs[index]? <;> simp
  unfold Builtin.apply
  cases b.form with
  | unary f => simp only [hargument]
  | binary f => simp only [hargument]
  | fold f => simp only [hargument, ← List.map_tail, List.foldlM_map, Value.toNumber_rename]
  | size =>
    cases vs with
    | nil => rfl
    | cons v vs =>
      have hitems := ha.items?_eq ⟨howns v List.mem_cons_self, rfl⟩
      cases hv : h.items? v <;> simp [Heap.length?, hitems, hv]

/-! ### New arrays of zeros -/

/-- Whether making something leaves heaps alike, and gives the same value in both. -/
def Makes (N : Naming) (make : Heap → Value × Heap) : Prop :=
  ∀ {h h₂ : Heap}, N.Alike h h₂ → N.pledge.grows h (make h).2 ∧ N.Alike (make h).2 (make h₂).2 ∧
    N.Same (make h).2 (make h).1 (make h₂).1

/-- Making the same thing several times leaves heaps alike, and gives the same values in both. -/
theorem Makes.pushMany {make : Heap → Value × Heap} (hmake : N.Makes make) :
    ∀ (count : Nat) {items : Array Value} {h h₂ : Heap}, N.Alike h h₂ →
      (∀ v ∈ items, N.Owns h v) →
      N.pledge.grows h (Heap.pushMany make count items h).2 ∧
      N.Alike (Heap.pushMany make count items h).2
        (Heap.pushMany make count (items.map (Value.rename N.name)) h₂).2 ∧
      (∀ v ∈ (Heap.pushMany make count items h).1,
        N.Owns (Heap.pushMany make count items h).2 v) ∧
      (Heap.pushMany make count (items.map (Value.rename N.name)) h₂).1
        = (Heap.pushMany make count items h).1.map (Value.rename N.name) := by
  intro count
  -- Each round adds a value to the items on both sides, so these are general in the induction.
  induction count with
  | zero =>
    intro items h h₂ ha hitems
    exact ⟨N.pledge.refl h, ha, hitems, rfl⟩
  | succ count ih =>
    intro items h h₂ ha hitems
    obtain ⟨hgrows₁, ha₁, hsame⟩ := hmake ha
    have hitems₁ : ∀ v ∈ items.push (make h).1, N.Owns (make h).2 v := by
      intro v hv
      rcases Array.mem_push.mp hv with hold | rfl
      · exact (hitems v hold).of_grows hgrows₁
      · exact hsame.1
    obtain ⟨hgrows, hall⟩ := ih ha₁ hitems₁
    rw [Array.map_push, ← hsame.2] at hall
    exact ⟨N.pledge.trans hgrows₁ hgrows, hall⟩

/-- New arrays of zeros leave heaps alike. -/
theorem makes_allocate : ∀ sizes : List Nat, N.Makes (Heap.allocate sizes)
  | [], h, h₂, ha => ⟨N.pledge.refl h, ha, same_number 0⟩
  | [size], h, h₂, ha => by
    have hzero : ∀ v ∈ Array.replicate size Value.zero, N.Owns h v := by
      intro v hv
      rw [(Array.mem_replicate.mp hv).2]
      trivial
    have hpush := ha.push hzero
    rw [Array.map_replicate] at hpush
    exact ⟨grows_push h _, hpush⟩
  | size :: next :: sizes, h, h₂, ha => by
    have noRows : ∀ v ∈ (#[] : Array Value), N.Owns h v := by simp
    obtain ⟨hgrows, ha₁, hrows, hsame⟩ :=
      Makes.pushMany (makes_allocate (next :: sizes)) size ha noRows
    have hpush := ha₁.push hrows
    rw [← hsame, Array.map_empty] at hpush
    exact ⟨N.pledge.trans hgrows (grows_push _ _), hpush⟩

/-! ### Terms -/

/-- Whether the values of a frame are owned, and another frame has the same ones up to names. -/
def SameFrame (N : Naming) (h : Heap) (frame frame₂ : Frame) : Prop :=
  (∀ (slot : Nat) (v : Value), frame[slot]? = some (some v) → N.Owns h v) ∧
    frame₂ = frame.map (Option.map (Value.rename N.name))

theorem SameFrame.of_grows {frame frame₂ : Frame} (hframe : N.SameFrame h frame frame₂)
    (hgrows : N.pledge.grows h h') : N.SameFrame h' frame frame₂ :=
  ⟨fun slot v hv => (hframe.1 slot v hv).of_grows hgrows, hframe.2⟩

/-- Frames stay the same when a variable of both is assigned the same value. -/
theorem SameFrame.assign {frame frame₂ : Frame} (hframe : N.SameFrame h frame frame₂)
    (hv : N.Same h v w) (slot : Nat) :
    N.SameFrame h (frame.setIfInBounds slot (some v)) (frame₂.setIfInBounds slot (some w)) := by
  refine ⟨?_, ?_⟩
  · intro i u hu
    rw [Array.getElem?_setIfInBounds] at hu
    split at hu
    · split at hu
      · cases hu
        exact hv.1
      · cases hu
    · exact hframe.1 i u hu
  · rw [hframe.2, hv.2, Array.map_setIfInBounds]
    rfl

/-- Whether entering a function with the same arguments ends alike. -/
def Enters (N : Naming) (site : Site) : Prop :=
  ∀ (f : Function) {h h₂ : Heap} {args args₂ : List Value}, N.Alike h h₂ → N.SameAll h args args₂ →
    N.pledge.EndsAlike N.Alike h N.Same (site.enter f args h) (site.enter f args₂ h₂)

section
variable {site : Site} {offset : Nat} {frame frame₂ : Frame}

/-- Operations that go in pairs are attempted alike. -/
theorem Alike.attempt {α β : Type} {post : Heap → α → β → Prop} {r : Except Cause α}
    {r' : Except Cause β} (ha : N.Alike h h₂) (hr : Pairs (post h) r r') :
    N.pledge.EndsAlike N.Alike h post (site.attempt offset r h) (site.attempt offset r' h₂) := by
  cases r with
  | ok a =>
    cases r' with
    | ok b => exact .pure ha hr
    | error cause => exact hr.elim
  | error cause =>
    cases r' with
    | ok b => exact hr.elim
    | error cause' =>
      obtain rfl : cause' = cause := hr
      exact .throw ha trivial

/-- An operation that does not see names is attempted alike. -/
theorem Alike.attempt_self {α : Type} (ha : N.Alike h h₂) (r : Except Cause α) :
    N.pledge.EndsAlike N.Alike h (fun _ a b => b = a) (site.attempt offset r h)
      (site.attempt offset r h₂) :=
  ha.attempt (.refl r)

/-- Values that are the same are taken as the same number. -/
theorem Alike.toNumber (ha : N.Alike h h₂) (hv : N.Same h v w) :
    N.pledge.EndsAlike N.Alike h (fun _ x y => y = x) (site.attempt offset v.toNumber h)
      (site.attempt offset w.toNumber h₂) := by
  rw [hv.toNumber_eq]
  exact ha.attempt_self _

/-- Frames that are the same have the same variables. -/
theorem Alike.read {name : String} {slot : Nat} (ha : N.Alike h h₂)
    (hframe : N.SameFrame h frame frame₂) :
    N.pledge.EndsAlike N.Alike h N.Same (site.read frame offset name slot h)
      (site.read frame₂ offset name slot h₂) := by
  unfold Site.read
  rw [hframe.2, Array.getElem?_map]
  rcases hread : frame[slot]? with _ | _ | v
  · exact .throw ha trivial
  · exact .throw ha trivial
  · exact .pure ha ⟨hframe.1 slot v hread, rfl⟩

mutual

/-- A term evaluates to the same value, up to its name, one case for each form of term. -/
theorem alike_eval (hsite : N.Enters site) :
    ∀ (t : Term) {h h₂ : Heap} {frame frame₂ : Frame}, N.Alike h h₂ →
      N.SameFrame h frame frame₂ →
      N.pledge.EndsAlike N.Alike h N.Same (t.eval site frame h) (t.eval site frame₂ h₂)
  | .number value, h, h₂, frame, frame₂, ha, hframe => by
    rw [Term.eval, Term.eval]
    exact .pure ha (same_number value)
  | .newArray offset sizes, h, h₂, frame, frame₂, ha, hframe => by
    rw [Term.eval, Term.eval]
    refine .bind (alike_evalSizes hsite sizes ha hframe) ?_
    rintro h' h₂' _ counts - ha' rfl
    exact makes_allocate counts ha'
  | .list _ items, h, h₂, frame, frame₂, ha, hframe => by
    rw [Term.eval, Term.eval]
    refine .bind (alike_evalAll hsite items ha hframe) ?_
    rintro h' h₂' values _ - ha' ⟨hvalues, rfl⟩
    have hitems : ∀ v ∈ values.toArray, N.Owns h' v :=
      fun v hv => hvalues v (List.mem_toArray.mp hv)
    have hpush := ha'.push hitems
    rw [List.map_toArray] at hpush
    -- Both heaps make their next array, and next arrays are named in the order of being made.
    exact ⟨grows_push h' values.toArray, hpush⟩
  | .slot offset name slot _ indices, h, h₂, frame, frame₂, ha, hframe => by
    rw [Term.eval, Term.eval]
    refine .bind (ha.read hframe) ?_
    intro h₁ h₁₂ base base' hgrows₁ ha₁ hbase
    refine .bind (alike_evalNumbers hsite indices ha₁ (hframe.of_grows hgrows₁)) ?_
    rintro h' h₂' _ path hgrows' ha' rfl
    exact .get_bind (ha'.attempt (ha'.walk path (hbase.of_grows hgrows')))
  | .call offset name callee _ args, h, h₂, frame, frame₂, ha, hframe => by
    rw [Term.eval, Term.eval]
    refine .bind (alike_evalAll hsite args ha hframe) ?_
    rintro h' h₂' values values' - ha' hvalues
    cases callee with
    | builtin b =>
      refine .get_bind ?_
      rw [ha'.apply_eq hvalues b]
      refine .bind (ha'.attempt_self _) ?_
      rintro h'' h₂'' _ x - ha'' rfl
      exact .pure ha'' (same_number x)
    | self => exact hsite site.current ha' hvalues
    | user index =>
      dsimp only
      cases site.program.functions[index]? with
      | none => exact .throw ha' trivial
      | some f => exact hsite f ha' hvalues
  | .unary offset op operand, h, h₂, frame, frame₂, ha, hframe => by
    rw [Term.eval, Term.eval]
    refine .bind (alike_eval hsite operand ha hframe) ?_
    rintro h₁ h₁₂ v w - ha₁ hv
    refine .bind (ha₁.toNumber hv) ?_
    rintro h' h₂' _ x - ha' rfl
    exact .pure ha' (same_number _)
  | .binary offset op left right, h, h₂, frame, frame₂, ha, hframe => by
    rw [Term.eval, Term.eval]
    refine .bind (alike_eval hsite left ha hframe) ?_
    intro h₁ h₁₂ v w hgrows₁ ha₁ hv
    refine .bind (ha₁.toNumber hv) ?_
    rintro h₃ h₃₂ _ x hgrows₃ ha₃ rfl
    cases op.shortcut? x with
    | some result => exact .pure ha₃ (same_number result)
    | none =>
      -- The left operand may have made arrays, which leaves the frame as it is.
      have hframe₃ := (hframe.of_grows hgrows₁).of_grows hgrows₃
      refine .bind (alike_eval hsite right ha₃ hframe₃) ?_
      rintro h₄ h₄₂ u u' - ha₄ hu
      refine .bind (ha₄.toNumber hu) ?_
      rintro h' h₂' _ y - ha' rfl
      exact .pure ha' (same_number _)

/-- Companion for several terms. -/
theorem alike_evalAll (hsite : N.Enters site) :
    ∀ (ts : List Term) {h h₂ : Heap} {frame frame₂ : Frame}, N.Alike h h₂ →
      N.SameFrame h frame frame₂ →
      N.pledge.EndsAlike N.Alike h N.SameAll (Code.evalAll site frame ts h)
        (Code.evalAll site frame₂ ts h₂)
  | [], h, h₂, frame, frame₂, ha, hframe => by
    rw [Code.evalAll, Code.evalAll]
    exact .pure ha ⟨by simp, rfl⟩
  | t :: ts, h, h₂, frame, frame₂, ha, hframe => by
    rw [Code.evalAll, Code.evalAll]
    refine .bind (alike_eval hsite t ha hframe) ?_
    intro h₁ h₁₂ v w hgrows₁ ha₁ hv
    refine .bind (alike_evalAll hsite ts ha₁ (hframe.of_grows hgrows₁)) ?_
    intro h' h₂' vs ws hgrows' ha' hvs
    refine .pure ha' ⟨List.forall_mem_cons.mpr ⟨hv.1.of_grows hgrows', hvs.1⟩, ?_⟩
    rw [hv.2, hvs.2, List.map_cons]

/-- Companion for several numbers. -/
theorem alike_evalNumbers (hsite : N.Enters site) :
    ∀ (ts : List Term) {offset : Nat} {h h₂ : Heap} {frame frame₂ : Frame}, N.Alike h h₂ →
      N.SameFrame h frame frame₂ →
      N.pledge.EndsAlike N.Alike h (fun _ xs ys => ys = xs)
        (Code.evalNumbers site frame offset ts h) (Code.evalNumbers site frame₂ offset ts h₂)
  | [], offset, h, h₂, frame, frame₂, ha, hframe => by
    rw [Code.evalNumbers, Code.evalNumbers]
    exact .pure ha rfl
  | t :: ts, offset, h, h₂, frame, frame₂, ha, hframe => by
    rw [Code.evalNumbers, Code.evalNumbers]
    refine .bind (alike_eval hsite t ha hframe) ?_
    intro h₁ h₁₂ v w hgrows₁ ha₁ hv
    refine .bind (ha₁.toNumber hv) ?_
    rintro h₃ h₃₂ _ x hgrows₃ ha₃ rfl
    have hframe₃ := (hframe.of_grows hgrows₁).of_grows hgrows₃
    refine .bind (alike_evalNumbers hsite ts ha₃ hframe₃) ?_
    rintro h' h₂' _ xs - ha' rfl
    exact .pure ha' rfl

/-- Companion for several sizes. -/
theorem alike_evalSizes (hsite : N.Enters site) :
    ∀ (ts : List Term) {offset : Nat} {h h₂ : Heap} {frame frame₂ : Frame}, N.Alike h h₂ →
      N.SameFrame h frame frame₂ →
      N.pledge.EndsAlike N.Alike h (fun _ sizes sizes' => sizes' = sizes)
        (Code.evalSizes site frame offset ts h) (Code.evalSizes site frame₂ offset ts h₂)
  | [], offset, h, h₂, frame, frame₂, ha, hframe => by
    rw [Code.evalSizes, Code.evalSizes]
    exact .pure ha rfl
  | t :: ts, offset, h, h₂, frame, frame₂, ha, hframe => by
    rw [Code.evalSizes, Code.evalSizes]
    refine .bind (alike_eval hsite t ha hframe) ?_
    intro h₁ h₁₂ v w hgrows₁ ha₁ hv
    rw [hv.toNumber_eq]
    refine .bind (ha₁.attempt_self _) ?_
    rintro h₃ h₃₂ _ size hgrows₃ ha₃ rfl
    have hframe₃ := (hframe.of_grows hgrows₁).of_grows hgrows₃
    refine .bind (alike_evalSizes hsite ts ha₃ hframe₃) ?_
    rintro h' h₂' _ sizes - ha' rfl
    exact .pure ha' rfl

end

/-! ### Steps -/

/-- Whether two states are the same, up to the names of owned arrays. -/
def SameState (N : Naming) (s t : State) : Prop :=
  N.Alike s.heap t.heap ∧ N.SameFrame s.heap s.frame t.frame

/-- Whether execution goes on in the same way behind two runs. -/
def SameFlow (N : Naming) (s : State) : Flow → Flow → Prop
  | .next, .next => True
  | .returned v, .returned w => N.Same s.heap v w
  | _, _ => False

/-- Runs on the heap that end alike leave the same states, with the frames that they start in. -/
theorem SameFrame.ofRun {α β : Type} {post : Heap → α → β → Prop} {run : Frame → Run α}
    {run' : Frame → Run β} (hframe : N.SameFrame h frame frame₂)
    (hrun : N.pledge.EndsAlike N.Alike h post (run frame h) (run' frame₂ h₂)) :
    N.pledge.lift.EndsAlike N.SameState ⟨frame, h⟩
      (fun state a b => state.frame = frame ∧ post state.heap a b)
      (Code.Execution.ofRun run ⟨frame, h⟩) (Code.Execution.ofRun run' ⟨frame₂, h₂⟩) :=
  .ofRun hrun fun _ _ hgrows ha => ⟨ha, hframe.of_grows hgrows⟩

/-- Writing the same value to the same element ends alike. -/
theorem Alike.writeElement {name : String} {slot : Nat} {path : List Float} {last : Float}
    (ha : N.Alike h h₂) (hframe : N.SameFrame h frame frame₂) (hv : N.Same h v w) :
    N.pledge.EndsAlike N.Alike h (fun _ _ _ => True)
      (Code.writeElement site frame offset name slot path last v h)
      (Code.writeElement site frame₂ offset name slot path last w h₂) := by
  unfold Code.writeElement
  refine .bind (ha.read hframe) ?_
  intro h₁ h₁₂ base base' hgrows₁ ha₁ hbase
  have hwalk : N.pledge.EndsAlike N.Alike h₁ N.Same (site.attempt offset (h₁.walk base path) h₁)
      (site.attempt offset (h₁₂.walk base' path) h₁₂) :=
    ha₁.attempt (ha₁.walk path hbase)
  refine .get_bind (.bind hwalk ?_)
  intro h₃ h₃₂ container container' hgrows₃ ha₃ hcontainer
  have hcell : N.pledge.EndsAlike N.Alike h₃
      (fun _ cell cell' => N.owned cell.ref ∧ cell' = ⟨N.name cell.ref, cell.index⟩)
      (site.attempt offset (h₃.cell container last) h₃)
      (site.attempt offset (h₃₂.cell container' last) h₃₂) :=
    ha₃.attempt (ha₃.cell hcontainer last)
  refine .get_bind (.bind hcell ?_)
  rintro h₄ h₄₂ cell _ hgrows₄ ha₄ ⟨howned, rfl⟩
  have hv₄ := ((hv.of_grows hgrows₁).of_grows hgrows₃).of_grows hgrows₄
  obtain ⟨howns, rfl⟩ := hv₄
  exact ⟨grows_write howned, ha₄.write howned howns, trivial⟩

mutual

/-- A step leaves the same state, up to names, one case for each form of step. -/
theorem alike_exec (hsite : N.Enters site) :
    ∀ (step : Step) {h h₂ : Heap} {frame frame₂ : Frame}, N.Alike h h₂ →
      N.SameFrame h frame frame₂ →
      N.pledge.lift.EndsAlike N.SameState ⟨frame, h⟩ N.SameFlow (step.exec site ⟨frame, h⟩)
        (step.exec site ⟨frame₂, h₂⟩)
  | .branch offset condition pass fail, h, h₂, frame, frame₂, ha, hframe => by
    rw [Step.exec]
    refine .bind (hframe.ofRun (alike_eval hsite condition ha hframe)) ?_
    rintro ⟨_, h₁⟩ ⟨_, h₁₂⟩ v w - ⟨ha₁, hframe₁⟩ ⟨rfl, hv⟩
    refine .bind (hframe₁.ofRun (ha₁.toNumber hv)) ?_
    rintro ⟨_, h₃⟩ ⟨_, h₃₂⟩ _ x - ⟨ha₃, hframe₃⟩ ⟨rfl, rfl⟩
    split
    · exact alike_execAll hsite pass ha₃ hframe₃
    · exact alike_execAll hsite fail ha₃ hframe₃
  | .assign offset name slot indices value, h, h₂, frame, frame₂, ha, hframe => by
    rw [Step.exec]
    refine .bind (hframe.ofRun (alike_evalNumbers hsite indices ha hframe)) ?_
    rintro ⟨_, h₁⟩ ⟨_, h₁₂⟩ _ path - ⟨ha₁, hframe₁⟩ ⟨rfl, rfl⟩
    refine .bind (hframe₁.ofRun (alike_eval hsite value ha₁ hframe₁)) ?_
    rintro ⟨_, h₃⟩ ⟨_, h₃₂⟩ v w - ⟨ha₃, hframe₃⟩ ⟨rfl, hv⟩
    -- Without an index the variable itself is assigned, which changes the frame and not the heap.
    cases path.getLast? with
    | none => exact ⟨N.pledge.refl h₃, ⟨ha₃, hframe₃.assign hv slot⟩, trivial⟩
    | some last =>
      refine .bind (hframe₃.ofRun (ha₃.writeElement hframe₃ hv)) ?_
      rintro s t _ _ - hstate -
      exact .pure hstate trivial
  | .ret value, h, h₂, frame, frame₂, ha, hframe => by
    rw [Step.exec]
    refine .bind (hframe.ofRun (alike_eval hsite value ha hframe)) ?_
    rintro s t v w - hstate ⟨-, hv⟩
    exact .pure hstate hv

/-- Companion for a block. -/
theorem alike_execAll (hsite : N.Enters site) :
    ∀ (steps : List Step) {h h₂ : Heap} {frame frame₂ : Frame}, N.Alike h h₂ →
      N.SameFrame h frame frame₂ →
      N.pledge.lift.EndsAlike N.SameState ⟨frame, h⟩ N.SameFlow
        (Code.execAll site steps ⟨frame, h⟩) (Code.execAll site steps ⟨frame₂, h₂⟩)
  | [], h, h₂, frame, frame₂, ha, hframe => by
    rw [Code.execAll]
    exact .pure ⟨ha, hframe⟩ trivial
  | step :: rest, h, h₂, frame, frame₂, ha, hframe => by
    rw [Code.execAll]
    refine .bind (alike_exec hsite step ha hframe) ?_
    rintro ⟨frame₁, h₁⟩ ⟨frame₁₂, h₁₂⟩ flow flow' - hstate hflow
    cases flow with
    | next =>
      cases flow' with
      | next => exact alike_execAll hsite rest hstate.1 hstate.2
      | returned w => exact hflow.elim
    | returned v =>
      cases flow' with
      | next => exact hflow.elim
      | returned w => exact .pure hstate hflow

end

end

/-! ### Calls -/

/-- Frames of a call with the same arguments are the same. -/
theorem SameAll.frame {args args₂ : List Value} (hargs : N.SameAll h args args₂) (f : Function) :
    N.SameFrame h (f.frame args) (f.frame args₂) := by
  refine ⟨?_, ?_⟩
  · intro slot v hv
    have hslot : slot < f.slots := by
      rw [← Function.size_frame f args]
      exact (Array.getElem?_eq_some_iff.mp hv).1
    rw [Function.getElem?_frame args hslot] at hv
    exact hargs.1 v (List.mem_of_getElem? (Option.some.inj hv))
  · rw [hargs.2]
    simp [Function.frame, List.map_take, Function.comp_def]

/-- Calls with the same arguments end alike. The induction is on the number of frames that may still
be opened: the calls inside have one less. -/
theorem alike_call (p : Program) :
    ∀ (room : Nat) (f : Function) {h h₂ : Heap} {args args₂ : List Value}, N.Alike h h₂ →
      N.SameAll h args args₂ →
      N.pledge.EndsAlike N.Alike h N.Same (p.call room f args h) (p.call room f args₂ h₂) := by
  intro room
  induction room with
  | zero =>
    intro f h h₂ args args₂ ha hargs
    rw [Program.call, Program.call]
    exact .throw ha trivial
  | succ room ih =>
    intro f h h₂ args args₂ ha hargs
    -- The calls inside are covered by the induction, so the bodies end alike. What is left is to
    -- see that the outcome of a body becomes that of the call in the same way.
    have hsite : N.Enters ⟨p, f, p.call room⟩ := ih
    have hbody := alike_execAll hsite f.body ha (hargs.frame f)
    rw [Program.call, Program.call]
    dsimp only
    cases hr : Code.execAll ⟨p, f, p.call room⟩ f.body ⟨f.frame args, h⟩ with
    | error e s =>
      cases hr' : Code.execAll ⟨p, f, p.call room⟩ f.body ⟨f.frame args₂, h₂⟩ with
      | error e' t =>
        rw [hr, hr'] at hbody
        obtain ⟨hgrows, ⟨ha', -⟩, -, rfl⟩ := hbody
        exact ⟨hgrows, ha', trivial, rfl⟩
      | ok flow t =>
        rw [hr, hr'] at hbody
        exact hbody.elim
    | ok flow s =>
      cases hr' : Code.execAll ⟨p, f, p.call room⟩ f.body ⟨f.frame args₂, h₂⟩ with
      | error e' t =>
        rw [hr, hr'] at hbody
        exact hbody.elim
      | ok flow' t =>
        rw [hr, hr'] at hbody
        obtain ⟨hgrows, ⟨ha', -⟩, hflow⟩ := hbody
        cases flow with
        | next =>
          cases flow' with
          | next => exact ⟨hgrows, ha', trivial, rfl⟩
          | returned w => exact hflow.elim
        | returned v =>
          cases flow' with
          | next => exact hflow.elim
          | returned w => exact ⟨hgrows, ha', hflow⟩

end Naming

end ArrayScript
