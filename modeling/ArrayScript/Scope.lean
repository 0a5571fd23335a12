import ArrayScript.Program

/-!
# `ArrayScript.Scope`: the names of a function body

A function body has one flat scope. A name is bound by a parameter or by its first assignment, and
gets the next free slot of the frame. Names that are not bound there are looked for in the program.
-/

set_option autoImplicit false

namespace ArrayScript

/-- A parameter or local of a function. -/
structure Variable where
  name : String
  ty : Ty
  slot : Nat

/-- What a name stands for. -/
inductive Binding where
  | slot (v : Variable)
  | function (signature : Signature)

/-- The variables of a body, the newest first. -/
structure Scope where
  entries : List Variable

namespace Scope

/-- A scope without variables. -/
def empty : Scope :=
  ⟨[]⟩

/-- The number of slots that a frame for this scope needs: one for each variable. -/
def slots (s : Scope) : Nat :=
  s.entries.length

/-- The variable with a given name, the newest one if there are several. -/
def find? (s : Scope) (name : String) : Option Variable :=
  s.entries.find? fun v => v.name == name

/-- The variable that a name gets when it is declared now. -/
def fresh (s : Scope) (name : String) (ty : Ty) : Variable :=
  ⟨name, ty, s.slots⟩

/-- The scope with one more variable. -/
def declare (s : Scope) (v : Variable) : Scope :=
  ⟨v :: s.entries⟩

/-- What a name stands for in a scope inside a program. -/
def resolve (s : Scope) (p : Program) (name : String) : Option Binding :=
  match s.find? name with
  | some v => some (.slot v)
  | none => (p.entry? name).map fun entry => .function entry.signature

end Scope

end ArrayScript
