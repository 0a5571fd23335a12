import ArrayScript.Code
import ArrayScript.Complexity
import ArrayScript.Error.Basic

/-!
# `ArrayScript.Program`: the functions of a program

A program is the list of its analysed functions in the order of their declarations, together with a
table that has the place of each function under its name. It only grows, so the place of a function
never changes, and the code of a function can refer to earlier ones by their places.

The list and the table are two data structures, and nothing but the order of operations in
`Table.declare` keeps them in step. `Table.Sound` is the half of that which every lookup relies on:
a name in the table leads to a function that has it. A `Program` carries the proof. The other half,
that every function is found under its name, is proved in `ArrayScript.Proofs.Program`.
-/

set_option autoImplicit false

namespace ArrayScript

/-- An analysed function: how it is called, how complex it is, and what it does in a frame with
`slots` slots, of which the first ones hold its arguments. -/
structure Function where
  name : String
  file : String
  span : Span
  params : List Ty
  result : Ty
  complexity : Complexity
  slots : Nat
  body : List Code.Step

namespace Function

/-- Where a function's declaration starts. -/
def position (f : Function) : Position :=
  ⟨f.file, f.span.start⟩

/-- What a call of a function has to look like. -/
def signature (f : Function) : Signature :=
  ⟨f.params, none, some f.result, some f.complexity.score⟩

end Function

/-- Functions in the order of their declarations, and the places of some of them by name. Of two
entries for a name the newer one counts, which is in front. -/
structure Table where
  functions : List Function
  places : List (String × Nat)

namespace Table

/-- Whether there is a place for a name. -/
def contains (t : Table) (name : String) : Bool :=
  (t.places.lookup name).isSome

/-- Enters a place for a name. -/
def insert (t : Table) (name : String) (place : Nat) : Table :=
  { t with places := (name, place) :: t.places }

/-- Appends a function. -/
def push (t : Table) (f : Function) : Table :=
  { t with functions := t.functions ++ [f] }

/-- Declares a function. A name that is taken is refused. The name is entered while the function is
not there yet, with the number of the functions before it. -/
def declare (f : Function) : EStateM Error Table Unit := do
  if (← get).contains f.name then
    throw ⟨.functionRedeclared f.name, f.position, none⟩
  else
    modify fun t => t.insert f.name t.functions.length
    modify fun t => t.push f

/-- The table with one more function, and its name. -/
def append (t : Table) (f : Function) : Table :=
  ⟨t.functions ++ [f], (f.name, t.functions.length) :: t.places⟩

/-- All that declaring a function can lead to. -/
theorem declare_eq (f : Function) (t : Table) :
    declare f t
      = if t.contains f.name then .error ⟨.functionRedeclared f.name, f.position, none⟩ t
        else .ok () (t.append f) := by
  show (if t.contains f.name then (throw _ : EStateM Error Table Unit) else _) t = _
  split
  · rfl
  · rfl

/-- Whether the names in a table lead to functions that have them. -/
def Sound (t : Table) : Prop :=
  ∀ name place, (name, place) ∈ t.places → ∃ f, t.functions[place]? = some f ∧ f.name = name

namespace Sound

variable {t t' : Table} {f : Function}

/-- A function that is appended is found at the place that was entered for it, and the others are
where they were. -/
theorem append (h : t.Sound) (f : Function) : (t.append f).Sound := by
  intro name place hentry
  rcases List.mem_cons.mp hentry with heq | hold
  · cases heq
    exact ⟨f, List.getElem?_concat_length, rfl⟩
  · obtain ⟨g, hg, hname⟩ := h name place hold
    have hlt : place < t.functions.length := (List.getElem?_eq_some_iff.mp hg).1
    exact ⟨g, (List.getElem?_append_left hlt).trans hg, hname⟩

/-- A table stays sound when a function is declared. -/
theorem declare_ok (h : t.Sound) (heq : declare f t = .ok () t') : t'.Sound := by
  rw [declare_eq] at heq
  split at heq
  · cases heq
  · cases heq
    exact h.append f

/-- A table stays sound when a function is refused. -/
theorem declare_error (h : t.Sound) {e : Error} (heq : declare f t = .error e t') : t'.Sound := by
  rw [declare_eq] at heq
  split at heq
  · cases heq
    exact h
  · cases heq

end Sound

end Table

/-- The functions of a program and their places, as far as they are entered. -/
@[ext] structure Program extends Table where
  sound : toTable.Sound

/-- What a global name stands for. -/
inductive Entry where
  | builtin (b : Builtin)
  | user (index : Nat) (function : Function)

/-- What a call of a global name has to look like. -/
def Entry.signature : Entry → Signature
  | builtin b => b.signature
  | user _ f => f.signature

namespace Program

/-- A program without functions. -/
def empty : Program :=
  ⟨⟨[], []⟩, nofun⟩

/-- The function with a given name, and its place. -/
def find? (p : Program) (name : String) : Option (Nat × Function) := do
  let place ← p.places.lookup name
  let f ← p.functions[place]?
  return (place, f)

/-- Whether a function with this name is declared. Builtins do not count. -/
def contains (p : Program) (name : String) : Bool :=
  p.toTable.contains name

/-- What a global name stands for, builtins first. -/
def entry? (p : Program) (name : String) : Option Entry :=
  match Builtin.find? name with
  | some b => some (.builtin b)
  | none => (p.find? name).map fun (index, f) => .user index f

/-- Declares a function. A name that is taken is refused. -/
def declare (f : Function) : EStateM Error Program Unit := fun p =>
  match h : Table.declare f p.toTable with
  | .ok _ t => .ok () ⟨t, p.sound.declare_ok h⟩
  | .error e t => .error e ⟨t, p.sound.declare_error h⟩

/-- The complexity of every function, a line for each. -/
def report (p : Program) : String :=
  "\n".intercalate (p.functions.map fun f => f.complexity.report f.name)

end Program

end ArrayScript
