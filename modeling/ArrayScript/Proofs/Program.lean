import ArrayScript.Proofs.Scope
import ArrayScript.Run.Call
import ArrayScript.Source

/-!
# `ArrayScript.Proofs.Program`: how programs come about

A program grows by one function for each declaration, and each declaration is analysed against the
functions before it. `Program.Built file decls p` is that history, and `ofDecls_ok` says that it is
exactly what analysis of a whole list does. From it:

* `Built.exists_decl`: the function at a place is the one that analysis makes of the declaration
  at that place, against the functions before it (`Program.before`).
* `Built.indexed`: the table of the program is in step with its functions, so a name leads to a place
  exactly when the function there has it (`Indexed.find?_iff`), and no two functions share a name.
* `Built.entry?_name`: the name of a function leads to that function, because none has the name of a
  builtin.

`analyseDecl_ok` opens the analysis of one declaration into its parameters and its body, and
`Built.invoke_name` opens what a host does with the program: it checks the arguments and calls the
function that has the name.
-/

set_option autoImplicit false

namespace ArrayScript

open Code (Term Step)

/-- An outcome that can be had is a success. -/
theorem eq_ok_of_toOption {ε α : Type} {r : Except ε α} {a : α} (h : r.toOption = some a) :
    r = .ok a := by
  cases r with
  | error e => cases h
  | ok b =>
    cases h
    rfl

/-! ### Frames -/

/-- A frame has the slots that its function asks for. -/
theorem Function.size_frame (f : Function) (args : List Value) :
    (f.frame args).size = f.slots := by
  simp [frame]
  omega

/-- A frame starts out with the arguments in its first slots, and nothing in the others. -/
theorem Function.getElem?_frame {f : Function} {slot : Nat} (args : List Value)
    (hslot : slot < f.slots) : (f.frame args)[slot]? = some args[slot]? := by
  simp only [frame, List.getElem?_toArray, List.getElem?_take_of_lt hslot]
  rcases Nat.lt_or_ge slot args.length with hlt | hge
  · rw [List.getElem?_append_left (by simpa using hlt), List.getElem?_map,
      List.getElem?_eq_getElem hlt]
    rfl
  · rw [List.getElem?_append_right (by simpa using hge), List.getElem?_eq_none hge,
      List.getElem?_replicate_of_lt (by simp; omega)]

namespace Program

variable {p : Program} {file : String} {decl : Decl} {decls : List Decl} {f : Function}

/-! ### One declaration -/

/-- What the analysis of a declaration against a program starts from. -/
def setting (p : Program) (decl : Decl) : Setting :=
  ⟨p, decl.name, decl.params.map Ty.ofParam⟩

/-- A body is analysed behind the parameters, in the draft that has them. -/
theorem analyseBody_ok {body : List Step} {d : Draft} :
    p.analyseBody decl = .ok (body, d) ↔
      ∃ d₀, Analysis.bindParams decl.params .start = .ok ((), d₀) ∧
        (p.setting decl).steps decl.body d₀ = .ok (body, d) := by
  refine Analysis.bind_ok.trans ?_
  constructor
  · rintro ⟨_, d₀, h₀, h⟩
    exact ⟨d₀, h₀, h⟩
  · rintro ⟨d₀, h₀, h⟩
    exact ⟨(), d₀, h₀, h⟩

/-- A declaration becomes a function when its parameters can be bound and its body is accepted,
and the body returns on every path. -/
theorem analyseDecl_ok :
    p.analyseDecl file decl = .ok f ↔
      ∃ d₀ d body result, Analysis.bindParams decl.params .start = .ok ((), d₀) ∧
        (p.setting decl).steps decl.body d₀ = .ok (body, d) ∧
        d.result = some result ∧ Stmt.bodyReturns decl.body = true ∧
        f = {
          name := decl.name, file, span := decl.span,
          params := decl.params.map Ty.ofParam, result, complexity := d.complexity,
          slots := d.scope.slots, body } := by
  unfold analyseDecl
  cases hb : p.analyseBody decl with
  | error fault =>
    constructor
    · intro h
      cases h
    · rintro ⟨d₀, d, body, result, h₀, h, -⟩
      cases hb.symm.trans (analyseBody_ok.mpr ⟨d₀, h₀, h⟩)
  | ok pair =>
    obtain ⟨body, d⟩ := pair
    simp only [bind, Except.bind, pure, Except.pure]
    constructor
    · intro h
      obtain ⟨d₀, h₀, hsteps⟩ := analyseBody_ok.mp hb
      -- A body without any return leaves the result open, and one that can run past its end is
      -- refused as well.
      cases hr : d.result with
      | none => simp [hr] at h
      | some result =>
        by_cases hret : Stmt.bodyReturns decl.body = true
        · simp only [hr, hret, if_true] at h
          cases h
          exact ⟨d₀, d, body, result, h₀, hsteps, hr, hret, rfl⟩
        · simp [hr, hret] at h
    · rintro ⟨d₀, d', body', result, h₀, h, hr, hret, rfl⟩
      cases hb.symm.trans (analyseBody_ok.mpr ⟨d₀, h₀, h⟩)
      simp only [hr, hret, if_true]

/-- A declaration is accepted when its name is free and analysis makes a function of it. -/
theorem analyse_ok :
    p.analyse file decl = .ok f ↔
      Builtin.find? decl.name = none ∧ p.contains decl.name = false ∧
        p.analyseDecl file decl = .ok f := by
  unfold analyse
  cases hbuiltin : Builtin.find? decl.name with
  | some b => simp
  | none =>
    cases hcontains : p.contains decl.name with
    | true => simp
    | false => cases hdecl : p.analyseDecl file decl <;> simp

/-- A declaration becomes no function when its parameters cannot be bound, when its body is not
accepted, or when the body does not return on every path. -/
theorem analyseDecl_error {fault : Fault} :
    p.analyseDecl file decl = .error fault ↔
      Analysis.bindParams decl.params .start = .error fault ∨
        ∃ d₀, Analysis.bindParams decl.params .start = .ok ((), d₀) ∧
          ((p.setting decl).steps decl.body d₀ = .error fault ∨
            ∃ body d, (p.setting decl).steps decl.body d₀ = .ok (body, d) ∧
              (d.result = none ∨ Stmt.bodyReturns decl.body = false) ∧
              fault = ⟨.missingReturn, decl.span.stop⟩) := by
  -- The body is analysed in the draft that the parameters leave. Which of the two has failed is
  -- asked first, since the faults of both are passed on as they are.
  have hbody : p.analyseBody decl
      = (Analysis.bindParams decl.params >>= fun _ => (p.setting decl).steps decl.body) .start :=
    rfl
  unfold analyseDecl
  rw [hbody]
  cases h₀ : Analysis.bindParams decl.params .start with
  | error fault' =>
    rw [Analysis.bind_error.mpr (.inl h₀)]
    simp [bind, Except.bind, @eq_comm _ fault]
  | ok pair =>
    obtain ⟨_, d₀⟩ := pair
    cases hsteps : (p.setting decl).steps decl.body d₀ with
    | error fault' =>
      rw [Analysis.bind_error.mpr (.inr ⟨_, d₀, h₀, hsteps⟩)]
      simp [bind, Except.bind, hsteps, @eq_comm _ fault]
    | ok pair =>
      obtain ⟨body, d⟩ := pair
      rw [Analysis.bind_ok.mpr ⟨_, d₀, h₀, hsteps⟩]
      cases hresult : d.result with
      | none => simp [bind, Except.bind, hsteps, hresult, @eq_comm _ fault]
      | some result =>
        cases hreturns : Stmt.bodyReturns decl.body with
        | false => simp [bind, Except.bind, hsteps, hresult, @eq_comm _ fault]
        | true => simp [bind, Except.bind, pure, Except.pure, hsteps, hresult]

/-- A declaration is refused when its name is taken, or when analysis makes no function of it. Only
in the latter case does the error belong to the declaration. -/
theorem analyse_error {e : Error} :
    p.analyse file decl = .error e ↔
      (Builtin.find? decl.name ≠ none ∧
          e = ⟨.builtinRedeclared decl.name, ⟨file, decl.span.start⟩, none⟩) ∨
        (Builtin.find? decl.name = none ∧ p.contains decl.name = true ∧
          e = ⟨.functionRedeclared decl.name, ⟨file, decl.span.start⟩, none⟩) ∨
        (Builtin.find? decl.name = none ∧ p.contains decl.name = false ∧
          ∃ fault, p.analyseDecl file decl = .error fault ∧
            e = ⟨fault.cause, ⟨file, fault.offset⟩, some decl.name⟩) := by
  unfold analyse
  cases hbuiltin : Builtin.find? decl.name with
  | some b => simp [@eq_comm _ e]
  | none =>
    cases hcontains : p.contains decl.name with
    | true => simp [@eq_comm _ e]
    | false =>
      cases hdecl : p.analyseDecl file decl with
      | ok f => simp
      | error fault => simp [Fault.inFile, Error.inFunction, @eq_comm _ e]

/-- A function has the name of its declaration. -/
theorem name_of_analyse (h : p.analyse file decl = .ok f) : f.name = decl.name := by
  obtain ⟨-, -, hdecl⟩ := analyse_ok.mp h
  obtain ⟨d₀, d, body, result, -, -, -, -, rfl⟩ := analyseDecl_ok.mp hdecl
  rfl

/-- The program with one more function, and its name. -/
def append (p : Program) (f : Function) : Program :=
  ⟨p.toTable.append f, p.sound.append f⟩

@[simp] theorem functions_append (p : Program) (f : Function) :
    (p.append f).functions = p.functions ++ [f] :=
  rfl

/-- The name of the new function is entered in front of the other names. -/
theorem places_append (p : Program) (f : Function) :
    (p.append f).places = (f.name, p.functions.length) :: p.places :=
  rfl

/-- The functions are then the others, at their places, and the new one behind them. -/
theorem getElem?_append {place : Nat} {g : Function}
    (h : (p.append f).functions[place]? = some g) :
    p.functions[place]? = some g ∨ place = p.functions.length ∧ g = f := by
  rw [functions_append] at h
  rcases Nat.lt_trichotomy place p.functions.length with hlt | rfl | hgt
  · rw [List.getElem?_append_left hlt] at h
    exact .inl h
  · rw [List.getElem?_concat_length] at h
    exact .inr ⟨rfl, (Option.some.inj h).symm⟩
  · rw [List.getElem?_eq_none (by simp; omega)] at h
    cases h

/-- The name of the new function has the place behind the others. -/
theorem lookup_append_self (p : Program) (f : Function) :
    (p.append f).places.lookup f.name = some p.functions.length := by
  rw [places_append, List.lookup_cons, beq_self_eq_true]

/-- Other names have the places that they had. -/
theorem lookup_append_of_ne {name : String} (h : name ≠ f.name) :
    (p.append f).places.lookup name = p.places.lookup name := by
  rw [places_append, List.lookup_cons, beq_false_of_ne h]

/-- Declaring a function appends it, unless its name is taken. Then the program stays as it was. -/
theorem declare_eq (f : Function) (p : Program) :
    declare f p
      = if p.contains f.name then .error ⟨.functionRedeclared f.name, f.position, none⟩ p
        else .ok () (p.append f) := by
  have heq := Table.declare_eq f p.toTable
  unfold declare contains
  by_cases htaken : p.toTable.contains f.name = true
  · rw [if_pos htaken] at heq ⊢
    split
    next t hok => cases hok.symm.trans heq
    next e t herror =>
      cases herror.symm.trans heq
      rfl
  · rw [if_neg htaken] at heq ⊢
    split
    next t hok =>
      cases hok.symm.trans heq
      rfl
    next e t herror => cases herror.symm.trans heq

/-- A program grows by the function that analysis makes of a declaration. -/
theorem extend_ok {p' : Program} :
    p.extend file decl = .ok p' ↔ ∃ f, p.analyse file decl = .ok f ∧ p' = p.append f := by
  unfold extend
  cases hf : p.analyse file decl with
  | error e => simp [bind, Except.bind]
  | ok f =>
    have hfree : p.contains f.name = false := by
      rw [name_of_analyse hf]
      exact (analyse_ok.mp hf).2.1
    -- The name was free for analysis, so declaring the function cannot fail.
    simp only [bind, Except.bind, declare_eq, hfree, Bool.false_eq_true, if_false, Except.ok.injEq]
    constructor
    · rintro rfl
      exact ⟨f, rfl, rfl⟩
    · rintro ⟨_, rfl, rfl⟩
      rfl

/-- A program does not grow by a declaration that analysis refuses, and by every other one. -/
theorem extend_error {e : Error} :
    p.extend file decl = .error e ↔ p.analyse file decl = .error e := by
  cases hf : p.analyse file decl with
  | error e' =>
    unfold extend
    simp [hf, bind, Except.bind]
  | ok f =>
    rw [extend_ok.mpr ⟨f, hf, rfl⟩]
    simp

/-! ### Whole programs -/

/-- The history of a program: one function for each declaration, analysed against the program
before it. -/
inductive Built (file : String) : List Decl → Program → Prop
  | nil : Built file [] .empty
  | snoc {decls : List Decl} {p : Program} {decl : Decl} {f : Function} :
      Built file decls p → p.analyse file decl = .ok f →
      Built file (decls ++ [decl]) (p.append f)

/-- The last declaration extends the program of the others. -/
theorem ofDecls_concat :
    ofDecls file (decls ++ [decl]) = ofDecls file decls >>= fun p => p.extend file decl := by
  unfold ofDecls
  rw [List.foldlM_append]
  simp

/-- Analysis of a list of declarations succeeds with a program exactly when the program has such
a history. -/
theorem ofDecls_ok : ofDecls file decls = .ok p ↔ Built file decls p := by
  constructor
  · intro h
    induction decls using List.reverseRecOn generalizing p with
    | nil =>
      cases h
      exact .nil
    | append_singleton decls decl ih =>
      rw [ofDecls_concat] at h
      cases hp : ofDecls file decls with
      | error e =>
        rw [hp] at h
        cases h
      | ok q =>
        rw [hp] at h
        obtain ⟨f, hf, rfl⟩ := extend_ok.mp h
        exact .snoc (ih hp) hf
  · intro h
    induction h with
    | nil => rfl
    | snoc hb hf ih =>
      rw [ofDecls_concat, ih]
      exact extend_ok.mpr ⟨_, hf, rfl⟩

/-- Analysis of a list of declarations fails at the first one that is refused. -/
theorem ofDecls_error {e : Error} (h : ofDecls file decls = .error e) :
    ∃ earlier decl later p, decls = earlier ++ decl :: later ∧ Built file earlier p ∧
      p.analyse file decl = .error e := by
  induction decls using List.reverseRecOn with
  | nil => cases h
  | append_singleton decls decl ih =>
    rw [ofDecls_concat] at h
    cases hp : ofDecls file decls with
    | error e' =>
      rw [hp] at h
      cases h
      obtain ⟨earlier, refused, later, p, rfl, hbuilt, herror⟩ := ih hp
      exact ⟨earlier, refused, later ++ [decl], p, by simp, hbuilt, herror⟩
    | ok p =>
      rw [hp] at h
      exact ⟨decls, decl, [], p, rfl, ofDecls_ok.mp hp, extend_error.mp h⟩

/-- The functions in front of a place, and their names. -/
def before (p : Program) (index : Nat) : Program :=
  ⟨⟨p.functions.take index, p.places.filter fun entry => entry.2 < index⟩, by
    intro name place hentry
    obtain ⟨hmem, hlt⟩ := List.mem_filter.mp hentry
    obtain ⟨f, hf, hname⟩ := p.sound name place hmem
    exact ⟨f, (List.getElem?_take_of_lt (by simpa using hlt)).trans hf, hname⟩⟩

@[simp] theorem functions_before (p : Program) (index : Nat) :
    (p.before index).functions = p.functions.take index :=
  rfl

/-- What is in front of a place stays the same when the program grows. -/
theorem before_append {index : Nat} (h : index ≤ p.functions.length) (f : Function) :
    (p.append f).before index = p.before index := by
  unfold before
  have hplaces : (p.append f).places.filter (fun entry => entry.2 < index)
      = p.places.filter fun entry => entry.2 < index := by
    rw [places_append, List.filter_cons_of_neg (by simpa using h)]
  simp only [hplaces, functions_append, List.take_append_of_le_length h]

/-- All functions are in front of the place behind the last one. -/
theorem before_length (p : Program) : p.before p.functions.length = p := by
  have hplaces : p.places.filter (fun entry => entry.2 < p.functions.length) = p.places := by
    rw [List.filter_eq_self]
    rintro ⟨name, place⟩ hentry
    obtain ⟨f, hf, -⟩ := p.sound name place hentry
    simpa using (List.getElem?_eq_some_iff.mp hf).1
  unfold before
  simp only [hplaces, List.take_length]

namespace Built

/-- There is one function for each declaration. -/
theorem length_eq (h : Built file decls p) : p.functions.length = decls.length := by
  induction h with
  | nil => rfl
  | snoc _ _ ih => simp [ih]

/-- The function at a place is what analysis makes of the declaration there. -/
theorem exists_decl (h : Built file decls p) {index : Nat}
    (hf : p.functions[index]? = some f) :
    ∃ decl, decls[index]? = some decl ∧ (p.before index).analyse file decl = .ok f := by
  induction h with
  | nil => simp [empty] at hf
  | @snoc decls p decl g hb hg ih =>
    have hlength := hb.length_eq
    rcases getElem?_append hf with hold | ⟨rfl, rfl⟩
    · have hlt : index < p.functions.length := (List.getElem?_eq_some_iff.mp hold).1
      obtain ⟨decl', hdecl, hanalyse⟩ := ih hold
      refine ⟨decl', ?_, ?_⟩
      · rw [List.getElem?_append_left (by omega)]
        exact hdecl
      · rw [before_append (Nat.le_of_lt hlt)]
        exact hanalyse
    · refine ⟨decl, ?_, ?_⟩
      · rw [hlength, List.getElem?_concat_length]
      · rw [before_append (Nat.le_refl _), before_length]
        exact hg

/-- Functions have the names of their declarations. -/
theorem names_eq (h : Built file decls p) :
    p.functions.map Function.name = decls.map Decl.name := by
  induction h with
  | nil => rfl
  | snoc _ hf ih => simp [ih, name_of_analyse hf]

/-- No function has the name of a builtin. -/
theorem builtin_find?_name (h : Built file decls p) (hf : f ∈ p.functions) :
    Builtin.find? f.name = none := by
  obtain ⟨index, hindex⟩ := List.mem_iff_getElem?.mp hf
  obtain ⟨decl, -, hanalyse⟩ := h.exists_decl hindex
  rw [name_of_analyse hanalyse]
  exact (analyse_ok.mp hanalyse).1

end Built

/-! ### Looking up names -/

/-- A place that is looked up under a name is entered for it. -/
theorem mem_of_lookup {entries : List (String × Nat)} {name : String} {place : Nat}
    (h : entries.lookup name = some place) : (name, place) ∈ entries := by
  induction entries with
  | nil => cases h
  | cons entry entries ih =>
    obtain ⟨key, value⟩ := entry
    rw [List.lookup_cons] at h
    split at h
    next heq =>
      cases h
      rw [eq_of_beq heq]
      exact List.mem_cons_self
    next => exact List.mem_cons_of_mem _ (ih h)

/-- A name is found exactly when there is a place for it. -/
theorem find?_iff_lookup {name : String} {index : Nat} :
    p.find? name = some (index, f) ↔
      p.places.lookup name = some index ∧ p.functions[index]? = some f := by
  unfold find?
  cases p.places.lookup name with
  | none => simp
  | some place =>
    cases hf : p.functions[place]? with
    | none =>
      simp only [Option.bind_eq_bind, Option.bind_some, hf, Option.bind_none]
      constructor
      · intro h
        cases h
      · rintro ⟨heq, h⟩
        cases heq
        cases hf.symm.trans h
    | some g =>
      simp only [Option.bind_eq_bind, Option.bind_some, hf, Option.pure_def, Option.some.injEq,
        Prod.mk.injEq]
      constructor
      · rintro ⟨rfl, rfl⟩
        exact ⟨rfl, hf⟩
      · rintro ⟨rfl, h⟩
        exact ⟨rfl, Option.some.inj (hf.symm.trans h)⟩

/-- What is found under a name is at its place, and has the name. -/
theorem find?_eq_some {name : String} {index : Nat} (h : p.find? name = some (index, f)) :
    p.functions[index]? = some f ∧ f.name = name := by
  obtain ⟨hlookup, hf⟩ := find?_iff_lookup.mp h
  obtain ⟨g, hg, hname⟩ := p.sound name index (mem_of_lookup hlookup)
  cases hf.symm.trans hg
  exact ⟨hf, hname⟩

/-- A name that leads to a function leads to one that has the name. -/
theorem entry?_user {name : String} {index : Nat} (h : p.entry? name = some (.user index f)) :
    p.functions[index]? = some f ∧ f.name = name := by
  unfold entry? at h
  cases hb : Builtin.find? name with
  | some b => simp [hb] at h
  | none =>
    simp only [hb, Option.map_eq_some_iff, Entry.user.injEq, Prod.exists] at h
    obtain ⟨i, g, hfind, rfl, rfl⟩ := h
    exact find?_eq_some hfind

/-- A global name that leads to a builtin is the name of that builtin. -/
theorem entry?_builtin {name : String} {b : Builtin}
    (h : p.entry? name = some (.builtin b)) : Builtin.find? name = some b := by
  unfold entry? at h
  cases hb : Builtin.find? name with
  | some b' =>
    rw [hb] at h
    cases h
    rfl
  | none => simp [hb] at h

/-- A global name that leads to a function is not the name of a builtin. -/
theorem builtin_find?_of_user {name : String} {index : Nat}
    (h : p.entry? name = some (.user index f)) : Builtin.find? name = none := by
  unfold entry? at h
  cases hb : Builtin.find? name with
  | some b' => simp [hb] at h
  | none => rfl

/-- A function in front of a place is a function of the program. -/
theorem getElem?_before {index place : Nat} (h : (p.before place).functions[index]? = some f) :
    p.functions[index]? = some f ∧ index < place := by
  have hlt : index < place := by
    have hlength := (List.getElem?_eq_some_iff.mp h).1
    exact Nat.lt_of_lt_of_le hlength (List.length_take_le _ _)
  refine ⟨?_, hlt⟩
  rw [functions_before, List.getElem?_take_of_lt hlt] at h
  exact h

/-- Whether every function is entered under its name. -/
def Indexed (p : Program) : Prop :=
  ∀ place f, p.functions[place]? = some f → p.places.lookup f.name = some place

namespace Indexed

theorem empty : Program.empty.Indexed := by
  intro place f hf
  simp [Program.empty] at hf

/-- A function with a name that is free is found after it is appended, and the others still are. -/
theorem append (h : p.Indexed) (hfree : p.contains f.name = false) : (p.append f).Indexed := by
  intro place g hg
  rcases getElem?_append hg with hold | ⟨rfl, rfl⟩
  · have hlookup := h place g hold
    have hne : g.name ≠ f.name := by
      intro hname
      rw [contains, Table.contains, ← hname, hlookup] at hfree
      cases hfree
    rw [lookup_append_of_ne hne]
    exact hlookup
  · exact lookup_append_self p g

/-- A name leads to a place exactly when the function there has it. -/
theorem lookup_iff (h : p.Indexed) {name : String} {place : Nat} :
    p.places.lookup name = some place ↔ ∃ f, p.functions[place]? = some f ∧ f.name = name := by
  constructor
  · intro hlookup
    exact p.sound name place (mem_of_lookup hlookup)
  · rintro ⟨f, hf, rfl⟩
    exact h place f hf

/-- What is found under a name is the function that has it. -/
theorem find?_iff (h : p.Indexed) {name : String} {index : Nat} :
    p.find? name = some (index, f) ↔ p.functions[index]? = some f ∧ f.name = name := by
  refine ⟨find?_eq_some, ?_⟩
  rintro ⟨hf, rfl⟩
  exact find?_iff_lookup.mpr ⟨h index f hf, hf⟩

/-- No two functions share a name, since it has one place. -/
theorem nodup_names (h : p.Indexed) : (p.functions.map Function.name).Nodup := by
  rw [List.nodup_iff_getElem?_ne_getElem?]
  intro i j hij hj heq
  rw [List.length_map] at hj
  have hi : i < p.functions.length := Nat.lt_trans hij hj
  have hplace := h i _ (List.getElem?_eq_getElem hi)
  have hplace' := h j _ (List.getElem?_eq_getElem hj)
  simp only [List.getElem?_map, List.getElem?_eq_getElem hi, List.getElem?_eq_getElem hj,
    Option.map_some, Option.some.injEq] at heq
  rw [heq, hplace', Option.some.injEq] at hplace
  omega

/-- A name is taken exactly when a function has it. -/
theorem contains_iff (h : p.Indexed) {name : String} :
    p.contains name = true ↔ name ∈ p.functions.map Function.name := by
  rw [contains, Table.contains, Option.isSome_iff_exists, List.mem_map]
  constructor
  · rintro ⟨place, hlookup⟩
    obtain ⟨f, hf, hname⟩ := h.lookup_iff.mp hlookup
    exact ⟨f, List.mem_of_getElem? hf, hname⟩
  · rintro ⟨f, hf, hname⟩
    obtain ⟨place, hplace⟩ := List.mem_iff_getElem?.mp hf
    exact ⟨place, h.lookup_iff.mpr ⟨f, hplace, hname⟩⟩

end Indexed

namespace Built

/-- The table of a program is in step with its functions: a name that analysis finds free is free
when the function is declared. -/
theorem indexed (h : Built file decls p) : p.Indexed := by
  induction h with
  | nil => exact .empty
  | @snoc decls p decl f hb hf ih =>
    refine ih.append ?_
    rw [name_of_analyse hf]
    exact (analyse_ok.mp hf).2.1

/-- No two functions share a name. -/
theorem nodup_names (h : Built file decls p) : (p.functions.map Function.name).Nodup :=
  h.indexed.nodup_names

end Built

/-- The name of a function leads to it. -/
theorem Built.entry?_name (h : Built file decls p) {index : Nat}
    (hf : p.functions[index]? = some f) : p.entry? f.name = some (.user index f) := by
  unfold entry?
  rw [h.builtin_find?_name (List.mem_of_getElem? hf), h.indexed.find?_iff.mpr ⟨hf, rfl⟩]
  rfl

/-! ### Calls by a host -/

/-- Arguments that a host brings fit a function: there is one for each parameter, and each has the
shape that its parameter asks for. -/
def Accepts (f : Function) (args : List Value) (heap : Heap) : Prop :=
  args.length = f.params.length ∧ misfit? heap f.signature args = none

/-- All arguments fit when each of them has the shape that the signature asks for at its place. -/
theorem misfit?_eq_none {heap : Heap} {signature : Signature} {args : List Value} :
    misfit? heap signature args = none ↔
      ∀ (i : Nat) (v : Value), args[i]? = some v →
        (signature.param? i).any (heap.conforms v) = true := by
  unfold misfit?
  simp [List.findSome?_eq_none_iff, List.mem_zipIdx_iff_getElem?]
  exact forall_comm

/-- A computation that first reads the heap sees the one that it starts from. -/
theorem get_bind_apply {α : Type} (k : Heap → Run α) (heap : Heap) :
    (get >>= k : Run α) heap = k heap heap :=
  rfl

/-- A host that brings fitting arguments calls the function with them. -/
theorem invokeFunction_eq {args : List Value} {heap : Heap} (h : Accepts f args heap) :
    p.invokeFunction f args heap = p.call (maxCallDepth + 1) f args heap := by
  unfold invokeFunction
  rw [if_neg (not_not.mpr h.1), get_bind_apply, h.2]

/-- A host whose arguments do not fit is refused, and the heap stays as it is. -/
theorem exists_invokeFunction_eq {args : List Value} {heap : Heap} (h : ¬ Accepts f args heap) :
    ∃ e, p.invokeFunction f args heap = .error e heap := by
  unfold invokeFunction
  by_cases hlength : args.length = f.params.length
  · rw [if_neg (not_not.mpr hlength)]
    cases hmisfit : misfit? heap f.signature args with
    | none => exact absurd ⟨hlength, hmisfit⟩ h
    | some index =>
      refine ⟨⟨.hostArgumentType f.name index, f.position, none⟩, ?_⟩
      rw [get_bind_apply, hmisfit]
      rfl
  · rw [if_pos hlength]
    exact ⟨_, rfl⟩

/-- A host that calls a function by its name calls that function. -/
theorem Built.invoke_name (h : Built file decls p) (hf : f ∈ p.functions) (args : List Value) :
    p.invoke f.name args = p.invokeFunction f args := by
  obtain ⟨index, hindex⟩ := List.mem_iff_getElem?.mp hf
  unfold invoke
  rw [h.entry?_name hindex]

end Program

/-- The program of a text has a history. -/
theorem Source.built_of_compile {source : Source} {p : Program} (h : source.compile = .ok p) :
    ∃ decls, source.decls = .ok decls ∧ Program.Built source.file decls p := by
  cases hdecls : source.decls with
  | error e => simp [Source.compile, hdecls, bind, Except.bind] at h
  | ok decls =>
    refine ⟨decls, rfl, Program.ofDecls_ok.mp ?_⟩
    simpa [Source.compile, hdecls, bind, Except.bind] using h

end ArrayScript
