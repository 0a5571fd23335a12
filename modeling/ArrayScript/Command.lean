import ArrayScript.Datum
import ArrayScript.Run.Call
import ArrayScript.Source

/-!
# `ArrayScript.Command`: the command line

Two commands work on a program file. `check` analyses it and prints how complex its functions are;
`run` calls one of its functions with arguments that are written like literals and prints the
result. What a command prints, and how it ends, is a function of its words and of the file's text.
-/

set_option autoImplicit false

namespace ArrayScript

/-- What to do with a program file. -/
inductive Command where
  | check
  | run (function : String) (args : List String)

/-- How a command ended, and what it printed. -/
structure Outcome where
  code : Nat
  stdout : String
  stderr : String
deriving DecidableEq, Repr

/-- Whether output is coloured. -/
structure Style where
  color : Bool

namespace Style

/-- Text in red and bold letters. -/
def alarm (style : Style) (text : String) : String :=
  if style.color then "\x1b[1;31m" ++ text ++ "\x1b[0m" else text

/-- Text in yellow letters. -/
def hint (style : Style) (text : String) : String :=
  if style.color then "\x1b[33m" ++ text ++ "\x1b[0m" else text

end Style

/-- The parts of a path that are not empty and do not stand for the directory they are in. -/
def pathParts (path : String) : List String :=
  ((path.splitOn "/").zipIdx.filter fun (part, index) =>
    part ≠ "" && (part ≠ "." || index = 0)).map Prod.fst

/-- The name of the file that a path leads to, or the path itself if it ends in none. -/
def baseName (path : String) : String :=
  match (pathParts path).getLast? with
  | some part => if part = "." || part = ".." then path else part
  | none => path

namespace Outcome

/-- A command that succeeded. -/
def success (stdout : String) : Outcome :=
  ⟨0, stdout, ""⟩

/-- A command that failed. -/
def failure (stderr : String) : Outcome :=
  ⟨1, "", stderr⟩

end Outcome

/-- An error with its tip, and with the excerpt if its position lies in the program's file. -/
def Error.render (error : Error) (style : Style) (path text : String) : String :=
  let tip := match error.cause.tip? with
    | some tip => " (" ++ style.hint tip ++ ")"
    | none => ""
  let excerpt :=
    if error.position.file = baseName path then
      match error.excerpt? text path with
      | some excerpt => excerpt ++ "\n"
      | none => ""
    else ""
  style.alarm error.headline ++ "\n    " ++ error.cause.message ++ tip ++ "\n" ++ excerpt

namespace Command

/-- The arguments of a call, or why one of them is refused. -/
def readArgs : List String → Except String (List Datum)
  | [] => .ok []
  | arg :: args => do
    let d ← Datum.read arg
    let ds ← readArgs args
    return d :: ds

/-- Calls a function of a program, and gives the result as data. -/
def callWith (p : Program) (function : String) (args : List Datum) : Except Error Datum :=
  let (values, heap) := Heap.empty.storeAll args
  match p.invoke function values heap with
  | .ok v heap => .ok (heap.view v)
  | .error e _ => .error e

/-- Carries out a command on a file with the given text. -/
def execute (command : Command) (style : Style) (path text : String) : Outcome :=
  match (Source.mk (baseName path) text).compile with
  | .error e => .failure (e.render style path text)
  | .ok p =>
    match command with
    | check =>
      let report := p.report
      .success (if report = "" then "" else report ++ "\n")
    | run function args =>
      match readArgs args with
      | .error message => .failure (style.alarm "Invalid argument:" ++ " " ++ message ++ "\n")
      | .ok args =>
        match callWith p function args with
        | .ok d => .success (d.text ++ "\n")
        | .error e => .failure (e.render style path text)

/-- What a command prints when its file cannot be read, for the reason given. -/
def unreadable (style : Style) (path reason : String) : Outcome :=
  .failure (style.alarm "Error:" ++ " failed to read " ++ path ++ ": " ++ reason ++ "\n")

/-- What a command prints when its file does not exist. -/
def missing (style : Style) (path : String) : Outcome :=
  unreadable style path "No such file or directory (os error 2)"

end Command

end ArrayScript
