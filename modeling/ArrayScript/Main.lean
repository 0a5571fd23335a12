import ArrayScript.Command

/-!
# `ArrayScript.Main`: the program

Reads the words of the command line and the program file, and prints what the command says.
-/

set_option autoImplicit false

namespace ArrayScript

/-- The command and the file that the words of a command line ask for. -/
def parseWords : List String → Option (Command × String)
  | ["check", path] => some (.check, path)
  | "run" :: path :: function :: args => some (.run function args, path)
  | _ => none

/-- Colours are used when they are forced, or on a terminal unless they are unwanted. -/
def useColor : IO Bool := do
  let forced := ((← IO.getEnv "CLICOLOR_FORCE").getD "0") != "0"
  let unwanted := (← IO.getEnv "NO_COLOR").isSome
  let terminal ← (← IO.getStdout).isTty
  return forced || (terminal && !unwanted)

/-- Carries out a command on the file at a path. -/
def perform (command : Command) (style : Style) (path : String) : IO Outcome := do
  try
    let text ← IO.FS.readFile path
    return command.execute style path text
  catch
    | .noFileOrDirectory .. => return Command.missing style path
    | e => return Command.unreadable style path (toString e)

end ArrayScript

open ArrayScript in
/-- Runs the program. -/
def main (words : List String) : IO UInt32 := do
  let plain := words.head? == some "--no-color"
  let words := if plain then words.tail else words
  match parseWords words with
  | none =>
    IO.eprintln "usage: [--no-color] check <file> | [--no-color] run <file> <function> [args...]"
    return 2
  | some (command, path) =>
    let style : Style := ⟨!plain && (← useColor)⟩
    let outcome ← perform command style path
    IO.print outcome.stdout
    IO.eprint outcome.stderr
    return outcome.code.toUInt32
