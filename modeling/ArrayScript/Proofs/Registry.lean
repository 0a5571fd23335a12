import ArrayScript.Proofs.Tally

/-!
# `ArrayScript.Proofs.Registry`: analysing and declaring in any order

A host can analyse a declaration now and declare the function later, or never. In between the
program may have grown, by a function of the same name among others. A registry is a program
together with the functions that wait to be declared, and requests reach it in any order.

Declaring a function looks only at its name, and changes two things that have to stay in step: the
list of functions and the table of their places. That a name leads to the function that has it, and
that the code of a function still means what it meant when it was analysed, rests on
`Registry.Sound`: every function is entered under its name, and every function, declared or waiting,
was analysed against the first functions of the program as it is now. Those never change, because a
program only grows at its end.

* `Registry.sound_handle` is the step: no request breaks that fact, whether it succeeds or fails.
* `Registry.Reachable.sound` is the run.
* `Registry.reachable_invariant` reads off it what holds in every reachable state.
-/

set_option autoImplicit false

namespace ArrayScript

/-- A program that can still grow, and the functions that were analysed and not declared yet. -/
structure Registry where
  program : Program
  pending : List Function

/-- What a host can ask of a registry: to analyse a declaration, and to declare the function that
waits at some place. -/
inductive Request where
  | analyse (file : String) (decl : Decl)
  | declare (place : Nat)

namespace Registry

/-- A registry without functions. -/
def start : Registry :=
  ⟨.empty, []⟩

/-- Carries out a request. The registry outlives a failure. A function that is declared waits no
longer, also if its name is refused. -/
def handle (request : Request) : EStateM Error Registry Unit := fun r =>
  match request with
  | .analyse file decl =>
    match r.program.analyse file decl with
    | .ok f => .ok () { r with pending := r.pending ++ [f] }
    | .error e => .error e r
  | .declare place =>
    match r.pending[place]? with
    | none => .ok () r
    | some f =>
      let pending := r.pending.eraseIdx place
      match Program.declare f r.program with
      | .ok _ program => .ok () { program, pending }
      | .error e program => .error e { program, pending }

/-- The registry behind an outcome. -/
def behind : EStateM.Result Error Registry Unit → Registry
  | .ok _ r | .error _ r => r

/-- The registries that requests lead to, whether they succeed or fail. -/
inductive Reachable : Registry → Prop
  | start : Reachable start
  | handle {r : Registry} (request : Request) :
      Reachable r → Reachable (behind (handle request r))

/-- The registry behind several requests, one after the other. -/
def after (r : Registry) (requests : List Request) : Registry :=
  requests.foldl (fun r request => behind (handle request r)) r

/-- Whether a function was analysed against the first `count` functions of a program. -/
def AnalysedAt (p : Program) (count : Nat) (f : Function) : Prop :=
  count ≤ p.functions.length ∧ ∃ file decl, (p.before count).analyse file decl = .ok f

/-- What every request keeps: every function is entered under its name, every function was analysed
against some of the functions in front of it, and those that wait against some of the program. -/
structure Sound (r : Registry) : Prop where
  indexed : r.program.Indexed
  declared : ∀ place f, r.program.functions[place]? = some f →
    ∃ count ≤ place, AnalysedAt r.program count f
  pending : ∀ f ∈ r.pending, ∃ count, AnalysedAt r.program count f

variable {r : Registry} {p : Program} {f : Function}

/-- A function that was analysed against the first functions of a program was so when the program
has grown. -/
theorem AnalysedAt.append {count : Nat} (h : AnalysedAt p count f) (g : Function) :
    AnalysedAt (p.append g) count f := by
  obtain ⟨hle, file, decl, hanalyse⟩ := h
  refine ⟨by rw [Program.functions_append, List.length_append]; omega, file, decl, ?_⟩
  rw [Program.before_append hle]
  exact hanalyse

/-- A function that was analysed against the whole program was so against its first functions. -/
theorem analysedAt_of_analyse {file : String} {decl : Decl} (h : p.analyse file decl = .ok f) :
    AnalysedAt p p.functions.length f := by
  refine ⟨Nat.le_refl _, file, decl, ?_⟩
  rw [Program.before_length]
  exact h

/-- An analysed function has no name of a builtin. -/
theorem AnalysedAt.builtin_find?_name {count : Nat} (h : AnalysedAt p count f) :
    Builtin.find? f.name = none := by
  obtain ⟨-, file, decl, hanalyse⟩ := h
  rw [Program.name_of_analyse hanalyse]
  exact (Program.analyse_ok.mp hanalyse).1

/-- A call in the code of an analysed function reaches one of the first functions. -/
theorem AnalysedAt.getElem?_of_call {count : Nat} (h : AnalysedAt p count f) {offset place : Nat}
    {name : String} (hcall : Code.Node.call offset name (.user place) ∈ f.nodes) :
    place < count ∧ ∃ g, p.functions[place]? = some g ∧ g.name = name := by
  obtain ⟨-, file, decl, hanalyse⟩ := h
  obtain ⟨g, hg, hname⟩ := Program.getElem?_of_call hanalyse hcall
  obtain ⟨hg, hlt⟩ := Program.getElem?_before hg
  exact ⟨hlt, g, hg, hname⟩

/-- The complexity of an analysed function is exact. -/
theorem AnalysedAt.exact {count : Nat} (h : AnalysedAt p count f) : f.Exact p := by
  obtain ⟨-, file, decl, hanalyse⟩ := h
  exact (Program.exact_of_analyse hanalyse).mono (List.take_prefix count p.functions)

/-! ### One request -/

/-- All that a request can lead to: one more function waits, a function that waited is declared,
there was none to declare, or the request fails, and then the program is as it was. -/
theorem handle_cases (request : Request) (r : Registry) :
    (∃ file decl f, request = .analyse file decl ∧ r.program.analyse file decl = .ok f ∧
        handle request r = .ok () { r with pending := r.pending ++ [f] }) ∨
      (∃ place f, request = .declare place ∧ r.pending[place]? = some f ∧
        r.program.contains f.name = false ∧
        handle request r
          = .ok () ⟨r.program.append f, r.pending.eraseIdx place⟩) ∨
      (∃ place, request = .declare place ∧ r.pending[place]? = none ∧
        handle request r = .ok () r) ∨
      ∃ e pending, pending ⊆ r.pending ∧ handle request r = .error e ⟨r.program, pending⟩ := by
  cases request with
  | analyse file decl =>
    cases hanalyse : r.program.analyse file decl with
    | ok f => exact .inl ⟨file, decl, f, rfl, hanalyse, by simp only [handle, hanalyse]⟩
    | error e =>
      exact .inr (.inr (.inr ⟨e, r.pending, List.Subset.refl _, by simp only [handle, hanalyse]⟩))
  | declare place =>
    cases hpending : r.pending[place]? with
    | none => exact .inr (.inr (.inl ⟨place, rfl, hpending, by simp only [handle, hpending]⟩))
    | some f =>
      -- The function leaves the pending ones before it is declared, also where its name is taken.
      have hdeclare := Program.declare_eq f r.program
      cases htaken : r.program.contains f.name with
      | false =>
        rw [htaken] at hdeclare
        refine .inr (.inl ⟨place, f, rfl, hpending, htaken, ?_⟩)
        simp only [handle, hpending, hdeclare, Bool.false_eq_true, if_false]
      | true =>
        rw [htaken] at hdeclare
        refine .inr (.inr (.inr ⟨⟨.functionRedeclared f.name, f.position, none⟩,
          r.pending.eraseIdx place, ?_, ?_⟩))
        · exact (List.eraseIdx_sublist r.pending place).subset
        · simp only [handle, hpending, hdeclare, if_true]

/-- One more function, analysed against some of the others and with a name that is free, keeps a
registry sound. -/
theorem Sound.declare (h : r.Sound) {count : Nat} (hf : AnalysedAt r.program count f)
    (hfree : r.program.contains f.name = false) {pending : List Function}
    (hpending : pending ⊆ r.pending) : Sound ⟨r.program.append f, pending⟩ where
  indexed := h.indexed.append hfree
  declared place g hg := by
    rcases Program.getElem?_append hg with hold | ⟨rfl, rfl⟩
    · obtain ⟨count', hle, hanalysed⟩ := h.declared place g hold
      exact ⟨count', hle, hanalysed.append f⟩
    · exact ⟨count, hf.1, hf.append g⟩
  pending g hg := by
    obtain ⟨count', hg⟩ := h.pending g (hpending hg)
    exact ⟨count', hg.append f⟩

/-- No request breaks a sound registry, whether it succeeds or fails. -/
theorem sound_handle (h : r.Sound) (request : Request) : (behind (handle request r)).Sound := by
  rcases handle_cases request r with ⟨file, decl, f, -, hanalyse, heq⟩ |
    ⟨place, f, -, hf, hfree, heq⟩ | ⟨place, -, -, heq⟩ | ⟨e, pending, hsubset, heq⟩
  · rw [heq]
    refine ⟨h.indexed, h.declared, ?_⟩
    intro g hg
    rcases List.mem_append.mp hg with hold | hnew
    · exact h.pending g hold
    · obtain rfl : g = f := List.mem_singleton.mp hnew
      exact ⟨_, analysedAt_of_analyse hanalyse⟩
  · rw [heq]
    obtain ⟨count, hanalysed⟩ := h.pending f (List.mem_of_getElem? hf)
    exact h.declare hanalysed hfree (List.eraseIdx_sublist r.pending place).subset
  · rw [heq]
    exact h
  · rw [heq]
    exact ⟨h.indexed, h.declared, fun g hg => h.pending g (hsubset hg)⟩

/-! ### All requests -/

/-- Every reachable registry is sound. -/
theorem Reachable.sound (h : r.Reachable) : r.Sound := by
  induction h with
  | start =>
    refine ⟨.empty, ?_, ?_⟩
    · intro place f hf
      simp [Registry.start, Program.empty] at hf
    · intro f hf
      simp [Registry.start] at hf
  | handle request _ ih => exact sound_handle ih request

/-- Requests lead from a reachable registry to another one. -/
theorem Reachable.after (h : r.Reachable) (requests : List Request) :
    (r.after requests).Reachable := by
  induction requests generalizing r with
  | nil => exact h
  | cons request requests ih => exact ih (h.handle request)

/-- What holds in every state that a registry can reach. A place is entered for a name exactly when
the function there has the name, and then the function is found. No two functions share a name, and
none has that of a builtin. Every call in the code of a function reaches a function in front of it,
one that was there when the code was analysed, by the name that is written at the call. The score of
a function is one, its branches, and the scores of the functions that it calls, each once. A request
that fails leaves the program as it was, both its functions and their places. One that declares a
function appends that function to the others, and every other name leads where it led. -/
theorem reachable_invariant (h : r.Reachable) :
    (∀ name place, r.program.places.lookup name = some place ↔
        ∃ f, r.program.functions[place]? = some f ∧ f.name = name) ∧
      (∀ name place f, r.program.find? name = some (place, f) ↔
        r.program.functions[place]? = some f ∧ f.name = name) ∧
      (r.program.functions.map Function.name).Nodup ∧
      (∀ f ∈ r.program.functions, Builtin.find? f.name = none) ∧
      (∀ place f, r.program.functions[place]? = some f →
        ∃ count ≤ place,
          (∃ file decl, (r.program.before count).analyse file decl = .ok f) ∧
          (∀ offset name callee, Code.Node.call offset name (.user callee) ∈ f.nodes →
            callee < count ∧ ∃ g, r.program.functions[callee]? = some g ∧ g.name = name) ∧
          f.complexity.score
            = 1 + f.branchCount + ∑ callee ∈ f.calls.toFinset, r.program.scoreAt callee) ∧
      (∀ request e r', handle request r = .error e r' → r'.program = r.program) ∧
      ∀ place f r', r.pending[place]? = some f → handle (.declare place) r = .ok () r' →
        r'.program.functions = r.program.functions ++ [f] ∧
          ∀ name, name ≠ f.name →
            r'.program.places.lookup name = r.program.places.lookup name := by
  have hsound := h.sound
  refine ⟨fun _ _ => hsound.indexed.lookup_iff, fun _ _ _ => hsound.indexed.find?_iff,
    hsound.indexed.nodup_names, ?_, ?_, ?_, ?_⟩
  · -- Analysis refuses the names of builtins before anything else.
    intro f hf
    obtain ⟨place, hplace⟩ := List.mem_iff_getElem?.mp hf
    obtain ⟨count, -, hanalysed⟩ := hsound.declared place f hplace
    exact hanalysed.builtin_find?_name
  · -- The code refers to the functions that were there when it was analysed, which may be fewer
    -- than those in front of it now.
    intro place f hf
    obtain ⟨count, hle, hanalysed⟩ := hsound.declared place f hf
    exact ⟨count, hle, hanalysed.2, fun _ _ _ hcall => hanalysed.getElem?_of_call hcall,
      hanalysed.exact.score⟩
  · -- Of the four ways in which a request can end, only the last one is an error.
    intro request e r' herror
    rcases handle_cases request r with ⟨_, _, _, -, -, heq⟩ | ⟨_, _, -, -, -, heq⟩ |
      ⟨_, -, -, heq⟩ | ⟨_, pending, -, heq⟩
    · cases heq.symm.trans herror
    · cases heq.symm.trans herror
    · cases heq.symm.trans herror
    · cases heq.symm.trans herror
      rfl
  · -- Only the second way declares a function, and it is the one that was pending.
    intro place f r' hf hok
    rcases handle_cases (.declare place) r with ⟨_, _, _, hrequest, -, -⟩ |
      ⟨place', g, hrequest, hg, -, heq⟩ | ⟨place', hrequest, hnone, -⟩ | ⟨_, _, -, heq⟩
    · cases hrequest
    · cases hrequest
      cases hf.symm.trans hg
      cases heq.symm.trans hok
      exact ⟨rfl, fun name hne => Program.lookup_append_of_ne hne⟩
    · cases hrequest
      cases hf.symm.trans hnone
    · cases heq.symm.trans hok

/-- A declaration that returns one. -/
def unit : Decl :=
  { name := "f", params := [], body := [.ret ⟨4, 9⟩ (.number ⟨5, 8⟩ 1)], span := ⟨0, 9⟩ }

/-- A declaration that calls the other one. -/
def caller : Decl :=
  { name := "g", params := [], body := [.ret ⟨14, 19⟩ (.call ⟨15, 18⟩ "f" [])], span := ⟨10, 19⟩ }

/-- One declaration is analysed twice and declared once, and the other one is analysed and declared
after it. -/
def twice : Registry :=
  start.after [.analyse "f" unit, .analyse "f" unit, .declare 0, .analyse "g" caller, .declare 1]

/-- The second function is found under its name and calls the first one, and the copy that still
waits is refused. -/
theorem reachable_invariant_twice :
    twice.Reachable ∧ ∃ f g, twice.program.functions = [f, g] ∧ f.name = "f" ∧
      twice.program.places.lookup "g" = some 1 ∧ twice.program.find? "g" = some (1, g) ∧
      Code.Node.call 15 "f" (.user 0) ∈ g.nodes ∧
      g.complexity.score = 1 + g.branchCount + twice.program.scoreAt 0 ∧
      ∃ e r', handle (.declare 0) twice = .error e r' ∧ r'.program = twice.program := by
  have hreachable : twice.Reachable := Reachable.start.after _
  obtain ⟨hplaces, hfound, -, -, hfunctions, hfailure, -⟩ := reachable_invariant hreachable
  have hrun : (twice.program.functions.map fun f => (f.name, f.nodes, f.calls))
      = [("f", [], []), ("g", [.call 15 "f" (.user 0)], [0])] := by
    decide +kernel
  obtain ⟨f, _, hprogram, hf, hrest⟩ := List.map_eq_cons_iff.mp hrun
  obtain ⟨g, rfl, hg⟩ := List.map_eq_singleton_iff.mp hrest
  obtain ⟨hname, hnodes, hcalls⟩ : g.name = "g" ∧ g.nodes = _ ∧ g.calls = [0] := by
    simpa using hg
  have hsecond : twice.program.functions[1]? = some g := by
    rw [hprogram]
    rfl
  obtain ⟨count, -, -, -, hscore⟩ := hfunctions 1 g hsecond
  rw [hcalls] at hscore
  have hrefused : twice.pending.map (fun copy => twice.program.contains copy.name) = [true] := by
    decide +kernel
  obtain ⟨copy, hpending, hcontains⟩ := List.map_eq_singleton_iff.mp hrefused
  have herror : handle (.declare 0) twice
      = .error ⟨.functionRedeclared copy.name, copy.position, none⟩ ⟨twice.program, []⟩ := by
    simp [handle, hpending, Program.declare_eq, hcontains]
  exact ⟨hreachable, f, g, hprogram, (Prod.mk.inj hf).1, (hplaces "g" 1).mpr ⟨g, hsecond, hname⟩,
    (hfound "g" 1 g).mpr ⟨hsecond, hname⟩, by simp [hnodes], by simpa using hscore, _, _, herror,
    hfailure _ _ _ herror⟩

end Registry

end ArrayScript
