import ArrayScript.Analysis.Stmt

/-!
# `ArrayScript.Analysis.Function`: from declarations to functions

A declaration is analysed against the functions that are declared before it. Its errors belong to
it, but for a name that is already taken: that is an error of the text around it.
-/

set_option autoImplicit false

namespace ArrayScript

namespace Analysis

/-- Binds the parameters of a function to its first slots. -/
def bindParams : List Param → Analysis Unit
  | [] => return
  | param :: params => do
    require ((← get).scope.find? param.name).isNone (.parameterRedeclared param.name)
      param.span.start
    let _ ← declare param.name (.ofParam param)
    bindParams params

end Analysis

/-- The draft of a function that nothing is known about yet. -/
def Draft.start : Draft :=
  ⟨.empty, none, .start⟩

namespace Program

/-- Everything that analysis finds in the parameters and the body of a declaration: its code, and
what is known at its end. -/
def analyseBody (p : Program) (decl : Decl) : Except Fault (List Code.Step × Draft) :=
  let setting : Setting := ⟨p, decl.name, decl.params.map Ty.ofParam⟩
  let analysis : Analysis (List Code.Step) := do
    Analysis.bindParams decl.params
    setting.steps decl.body
  analysis.run .start

/-- The function that a declaration in `file` becomes, apart from the question whether its name is
free. It has to return a value on every path. -/
def analyseDecl (p : Program) (file : String) (decl : Decl) : Except Fault Function := do
  let (body, draft) ← p.analyseBody decl
  match draft.result with
  | some result =>
    if Stmt.bodyReturns decl.body then
      return {
        name := decl.name, file, span := decl.span,
        params := decl.params.map Ty.ofParam, result, complexity := draft.complexity,
        slots := draft.scope.slots, body }
    else .error ⟨.missingReturn, decl.span.stop⟩
  | none => .error ⟨.missingReturn, decl.span.stop⟩

/-- The function that a declaration in `file` becomes. -/
def analyse (p : Program) (file : String) (decl : Decl) : Except Error Function :=
  let position : Position := ⟨file, decl.span.start⟩
  if (Builtin.find? decl.name).isSome then
    .error ⟨.builtinRedeclared decl.name, position, none⟩
  else if p.contains decl.name then
    .error ⟨.functionRedeclared decl.name, position, none⟩
  else match p.analyseDecl file decl with
    | .ok f => .ok f
    | .error fault => .error ((fault.inFile file).inFunction decl.name)

/-- The program with one more declaration, analysed and declared. -/
def extend (p : Program) (file : String) (decl : Decl) : Except Error Program := do
  let f ← p.analyse file decl
  match declare f p with
  | .ok _ p => .ok p
  | .error e _ => .error e

/-- The program of a list of declarations. -/
def ofDecls (file : String) (decls : List Decl) : Except Error Program :=
  decls.foldlM (fun p decl => p.extend file decl) empty

end Program

end ArrayScript
