import ArrayScript.Builtin
import ArrayScript.Heap

/-!
# `ArrayScript.Proofs.Operations`: why operations fail

Evaluation attempts operations on numbers and on the heap: it takes values as numbers, sizes and
indices, follows paths, looks for cells and calls builtins. Each of them can fail, but only for a
cause that lies in the values at hand (`Cause.ofValues`). In particular none of them has to do with
variables or with calls.
-/

set_option autoImplicit false

namespace ArrayScript

/-- Whether a cause lies in the values that an operation is given. Of the causes that a run can have
this leaves out an unassigned variable, an argument of the wrong type and a call that is too deep,
so whoever rules out one of these need not look into the operations at all. -/
def Cause.ofValues : Cause → Bool
  | indexOutOfBounds .. | invalidIndex _ | invalidDimension _ | notIndexable | numberExpected
  | hostArgumentCount .. => true
  | _ => false

/-- Whether an operation fails only for a cause that lies in the values that it is given. This is
all that the proofs about variables and about calls want to know of an operation; the lemmas below
supply it for each one that evaluation attempts. -/
def FailsByValue {α : Type} (r : Except Cause α) : Prop :=
  ∀ cause, r = .error cause → cause.ofValues = true

namespace FailsByValue

variable {α β : Type}

/-- An operation that has its result does not fail. It closes the good branches of the definitions
below, and the last step of every sequence of checks. -/
theorem ok (a : α) : FailsByValue (.ok a) := by
  intro cause h
  cases h

/-- An operation that fails at once does so by value if its cause is of that kind. The kind of a
cause can be computed, so in the operations below the hypothesis holds by `rfl`. -/
theorem error {cause : Cause} (h : cause.ofValues = true) :
    FailsByValue (α := α) (.error cause) := by
  intro cause' h'
  cases h'
  exact h

/-- Two operations in sequence fail by value if each of them does. The second is taken at every
result of the first, since no operation below owes the kind of its failure to an earlier result. -/
theorem bind {r : Except Cause α} {k : α → Except Cause β} (hr : FailsByValue r)
    (hk : ∀ a, FailsByValue (k a)) : FailsByValue (r >>= k) := by
  cases r with
  | ok a => exact hk a
  | error cause => exact error (hr cause rfl)

/-- A walk along a list fails by value if each of its steps does. Paths are followed and the
arguments of `max` and `min` are joined by such walks, so of both only a single step remains to be
looked at. -/
theorem foldlM {f : β → α → Except Cause β} (h : ∀ b a, FailsByValue (f b a)) (as : List α)
    (b : β) : FailsByValue (as.foldlM f b) := by
  induction as generalizing b with
  | nil => exact ok b
  | cons a as ih =>
    rw [List.foldlM_cons]
    exact (h b a).bind ih

/-- Taking a value as a number fails for an array only, and then because a number was expected.
Arithmetic, conditions and the arguments of builtins all begin with it. -/
theorem toNumber (v : Value) : FailsByValue v.toNumber := by
  cases v with
  | number value => exact ok value
  | array ref => exact error rfl

/-- Taking a number as the size of an array fails by value. Every dimension of a new array goes
through this check before the array is made. -/
theorem toSize (x : Float) : FailsByValue (Number.toSize x) := by
  unfold Number.toSize
  split
  · exact error rfl
  · exact ok _

/-- Taking a number as an index fails by value: it is no whole number, or it lies beyond the end of
the array. Reading and writing an element share this check. -/
theorem toIndex (x : Float) (length : Nat) : FailsByValue (Number.toIndex x length) := by
  unfold Number.toIndex
  split
  · exact error rfl
  · split
    · exact ok _
    · exact error rfl

/-- Reading one element fails by value: what is read from is no array, or the index is at fault.
This is the step that paths are made of. -/
theorem element (heap : Heap) (v : Value) (index : Float) :
    FailsByValue (heap.element v index) := by
  unfold Heap.element
  split
  · exact error rfl
  · exact (toIndex _ _).bind fun _ => ok _

/-- Following a path of indices fails by value, as it reads one element after the other. The path
may break off at any depth, but always for one of the causes above. -/
theorem walk (heap : Heap) (v : Value) (path : List Float) : FailsByValue (heap.walk v path) :=
  foldlM (element heap) path v

/-- Looking for the cell that an assignment writes to fails by value, for the same causes as reading
the element that is there. Writing to a cell that was found does not fail. -/
theorem cell (heap : Heap) (v : Value) (index : Float) : FailsByValue (heap.cell v index) := by
  unfold Heap.cell
  split
  · exact error rfl
  · split
    · exact error rfl
    · exact (toIndex _ _).bind fun _ => ok _

/-- Taking an argument of a builtin fails by value: it is missing, or it is no number. Only a host
can leave an argument out, but the definition has to provide for it. -/
theorem argument (b : Builtin) (args : List Value) (index : Nat) :
    FailsByValue (b.argument args index) := by
  unfold Builtin.argument
  split
  · exact toNumber _
  · exact error rfl

/-- Calling a builtin fails by value, whichever form it has. With the lemmas above this covers
everything that an expression or a statement attempts. -/
theorem apply (b : Builtin) (heap : Heap) (args : List Value) :
    FailsByValue (b.apply heap args) := by
  unfold Builtin.apply
  split
  · exact (argument b args 0).bind fun _ => ok _
  · exact (argument b args 0).bind fun _ => (argument b args 1).bind fun _ => ok _
  · exact (argument b args 0).bind fun _ =>
      foldlM (fun _ v => (toNumber v).bind fun _ => ok _) _ _
  · split
    · exact ok _
    · exact error rfl

end FailsByValue

end ArrayScript
