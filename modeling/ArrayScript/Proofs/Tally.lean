import Mathlib.Algebra.BigOperators.Group.Finset.Basic
import ArrayScript.Proofs.Callees
import ArrayScript.Source

/-!
# `ArrayScript.Proofs.Tally`: complexity is an exact sum

Analysis keeps a counter and adds to it as it walks through a body. The walk visits values before
targets and compound targets twice, and the counter looks at each callee only the first time. What
it ends with is nevertheless a plain sum over the text (`Setting.total`): one, one for each branch,
and the score of each function of the program that is called, once.

* `Setting.Tally` says what a counter knows about the marks that were met so far, and `Tally.count`
  is its step: one more mark keeps it, unless the exact sum is too large.
* `Setting.Counts` ties the walk to the marks. `counts_steps` is the run lemma: analysis of a body
  counts its marks in their order, and overflows only where counting them does.
* `Function.Exact` is the result for a function, told by its code and the program around it. It
  stays true when the program grows.
* `Program.complexity_exact` joins these for whole programs, and says when a score is refused.
-/

set_option autoImplicit false

namespace ArrayScript

open Code (Term Step)

/-! ### The counter -/

namespace Complexity

/-- What is counted for a name after one more call of a function. -/
theorem mem_recount {callee name : String} {calls : List (String × Nat)} {n : Nat}
    (h : (calls.map Prod.fst).Nodup) :
    (name, n) ∈ recount callee calls ↔
      ∃ m, (name, m) ∈ calls ∧ n = if name = callee then m + 1 else m := by
  rw [recount_eq_map h, List.mem_map]
  constructor
  · rintro ⟨⟨other, m⟩, hmem, heq⟩
    cases heq
    exact ⟨m, hmem, rfl⟩
  · rintro ⟨m, hmem, rfl⟩
    exact ⟨(name, m), hmem, rfl⟩

end Complexity

/-! ### Exact sums -/

/-- The score of the function at a place. -/
def Program.scoreAt (p : Program) (place : Nat) : Nat :=
  (p.functions[place]?.map fun f => f.complexity.score).getD 0

namespace Setting

/-- Counts a branch, or a call of another function of the program. -/
def count (s : Setting) : Mark → Complexity.Counting
  | .branch _ => Complexity.addBranch
  | .call _ name =>
    match s.callee? name with
    | some (_, f) => Complexity.addCall name f.complexity.score
    | none => pure ()

/-- A mark that is refused leaves the counter as it was. -/
theorem count_error {s : Setting} {mark : Mark} {c c' : Complexity} {cause : Cause}
    (h : s.count mark c = .error cause c') : c' = c := by
  cases mark with
  | branch offset => exact (Complexity.eq_of_addBranch h).2
  | call offset name =>
    rw [count] at h
    cases hcallee : s.callee? name with
    | none =>
      rw [hcallee] at h
      cases h
    | some callee =>
      rw [hcallee] at h
      exact (Complexity.eq_of_addCall h).2

/-- Counts the branches and calls of a text, one after the other. -/
def countAll (s : Setting) (marks : List Mark) : Complexity.Counting :=
  marks.forM s.count

/-- The exact score of a text: one, one for each branch, and the score of each other function of the
program that it calls, once. -/
def total (s : Setting) (marks : List Mark) : Nat :=
  1 + marks.countP Mark.isBranch
    + ∑ place ∈ (s.calls marks).toFinset, s.program.scoreAt place

/-- A counter says how often each of the other functions is called in a text, how many branches
there are, and what the exact score is. -/
structure Tally (s : Setting) (marks : List Mark) (c : Complexity) : Prop where
  branches : c.branches = marks.countP Mark.isBranch
  nodup : (c.calls.map Prod.fst).Nodup
  mem_calls : ∀ name n, (name, n) ∈ c.calls ↔
    ∃ place f, s.callee? name = some (place, f) ∧ place ∈ s.calls marks ∧
      n = (s.calls marks).count place
  score : c.score = s.total marks
  le_greatest : c.score ≤ Complexity.greatestScore

variable {s : Setting} {marks : List Mark} {c c' : Complexity}

/-- The function that a name reaches is at its place. -/
theorem scoreAt_of_callee? {name : String} {place : Nat} {f : Function}
    (h : s.callee? name = some (place, f)) : s.program.scoreAt place = f.complexity.score := by
  have hplace := (Program.entry?_user (callee?_eq_some.mp h).2).1
  rw [Program.scoreAt, hplace]
  rfl

/-- A place is reached under one name only. -/
theorem name_eq_of_callee? {name name' : String} {place : Nat} {f f' : Function}
    (h : s.callee? name = some (place, f)) (h' : s.callee? name' = some (place, f')) :
    name = name' := by
  obtain ⟨hf, hname⟩ := Program.entry?_user (callee?_eq_some.mp h).2
  obtain ⟨hf', hname'⟩ := Program.entry?_user (callee?_eq_some.mp h').2
  cases hf.symm.trans hf'
  exact hname.symm.trans hname'

/-- A counter has an entry for a name when the text calls what the name reaches. -/
theorem Tally.mem_names (h : s.Tally marks c) {name : String} {place : Nat} {f : Function}
    (hcallee : s.callee? name = some (place, f)) :
    name ∈ c.calls.map Prod.fst ↔ place ∈ s.calls marks := by
  rw [List.mem_map]
  constructor
  · rintro ⟨⟨other, n⟩, hmem, rfl⟩
    obtain ⟨place', f', hcallee', hplace, -⟩ := (h.mem_calls other n).mp hmem
    cases hcallee.symm.trans hcallee'
    exact hplace
  · intro hplace
    exact ⟨(name, _), (h.mem_calls name _).mpr ⟨place, f, hcallee, hplace, rfl⟩, rfl⟩

/-- Nothing is counted before the first mark. -/
theorem tally_start (s : Setting) : s.Tally [] .start where
  branches := rfl
  nodup := List.nodup_nil
  mem_calls := by simp [Complexity.start, calls]
  score := by simp [Complexity.start, total, calls]
  le_greatest := by decide

/-- A place that a text calls has a function, and the name of that function reaches it. -/
theorem exists_of_mem_calls {place : Nat} (h : place ∈ s.calls marks) :
    ∃ f, s.program.functions[place]? = some f ∧ s.callee? f.name = some (place, f) := by
  obtain ⟨mark, -, hmark⟩ := List.mem_filterMap.mp h
  cases mark with
  | branch offset => cases hmark
  | call offset name =>
    obtain ⟨⟨_, f⟩, hcallee, rfl⟩ := Option.map_eq_some_iff.mp hmark
    obtain ⟨hf, rfl⟩ := Program.entry?_user (callee?_eq_some.mp hcallee).2
    exact ⟨f, hf, hcallee⟩

/-! ### One mark -/

/-- One more mark calls one more place, if it calls one at all. -/
theorem calls_concat (marks : List Mark) (mark : Mark) :
    s.calls (marks ++ [mark]) = s.calls marks ++ (s.place? mark).toList := by
  unfold calls
  rw [List.filterMap_append]
  cases hplace : s.place? mark with
  | none => simp [hplace]
  | some place => simp [hplace]

/-- A branch adds one to the exact score. -/
theorem total_branch (marks : List Mark) (offset : Nat) :
    s.total (marks ++ [.branch offset]) = s.total marks + 1 := by
  unfold total
  rw [calls_concat, List.countP_append]
  simp [place?, Mark.isBranch]
  omega

section

variable {offset place : Nat} {name : String} {f : Function}

/-- A call of another function calls its place. -/
theorem calls_call (marks : List Mark) (offset : Nat) (h : s.callee? name = some (place, f)) :
    s.calls (marks ++ [.call offset name]) = s.calls marks ++ [place] := by
  rw [calls_concat, place?, h]
  rfl

/-- The first call of a function adds its score to the exact score. -/
theorem total_first (h : s.callee? name = some (place, f)) (hplace : place ∉ s.calls marks) :
    s.total (marks ++ [.call offset name]) = s.total marks + f.complexity.score := by
  unfold total
  rw [calls_call marks offset h, List.toFinset_append, List.countP_append, Finset.union_comm]
  simp only [List.toFinset_cons, List.toFinset_nil, Finset.insert_union]
  rw [Finset.empty_union, Finset.sum_insert (by simpa using hplace), scoreAt_of_callee? h]
  simp [Mark.isBranch]
  omega

/-- Another call of the same function adds nothing. -/
theorem total_again (h : s.callee? name = some (place, f)) (hplace : place ∈ s.calls marks) :
    s.total (marks ++ [.call offset name]) = s.total marks := by
  unfold total
  have hsame : (s.calls marks ++ [place]).toFinset = (s.calls marks).toFinset := by
    ext other
    simp only [List.mem_toFinset, List.mem_append, List.mem_singleton]
    constructor
    · rintro (hother | rfl)
      · exact hother
      · exact hplace
    · exact .inl
  rw [calls_call marks offset h, hsame, List.countP_append]
  simp [Mark.isBranch]

/-- A call of anything else adds nothing either. -/
theorem total_other (h : s.callee? name = none) :
    s.total (marks ++ [.call offset name]) = s.total marks := by
  unfold total
  rw [calls_concat, place?, h, List.countP_append]
  simp [Mark.isBranch]

namespace Tally

/-- A branch is counted. -/
theorem branch (h : s.Tally marks c) (offset : Nat)
    (hle : c.score + 1 ≤ Complexity.greatestScore) :
    s.Tally (marks ++ [.branch offset])
      { c with score := c.score + 1, branches := c.branches + 1 } where
  branches := by
    rw [List.countP_append, ← h.branches]
    rfl
  nodup := h.nodup
  mem_calls := by
    have hcalls : s.calls (marks ++ [.branch offset]) = s.calls marks := by
      rw [calls_concat]
      exact List.append_nil _
    rw [hcalls]
    exact h.mem_calls
  score := by rw [total_branch, ← h.score]
  le_greatest := hle

/-- The first call of a function begins a new entry. -/
theorem first (h : s.Tally marks c) (hcallee : s.callee? name = some (place, f))
    (hplace : place ∉ s.calls marks)
    (hle : c.score + f.complexity.score ≤ Complexity.greatestScore) :
    s.Tally (marks ++ [.call offset name])
      { c with score := c.score + f.complexity.score, calls := c.calls ++ [(name, 1)] } where
  branches := by
    rw [List.countP_append, ← h.branches]
    rfl
  nodup := by
    rw [List.map_append, List.map_singleton, ← List.concat_eq_append]
    exact h.nodup.concat fun hname => hplace ((h.mem_names hcallee).mp hname)
  mem_calls := by
    intro other n
    rw [calls_call marks offset hcallee, List.mem_append, h.mem_calls, List.mem_singleton]
    -- An entry is an old one, of another function, or the new one, which is counted once.
    constructor
    · rintro (⟨place', f', hcallee', hplace', rfl⟩ | heq)
      · have hne : place' ≠ place := by
          rintro rfl
          exact hplace hplace'
        refine ⟨place', f', hcallee', List.mem_append_left _ hplace', ?_⟩
        rw [List.count_append, List.count_singleton, if_neg (by simpa using hne.symm)]
        rfl
      · cases heq
        refine ⟨place, f, hcallee, List.mem_append_right _ (List.mem_singleton_self _), ?_⟩
        rw [List.count_append, List.count_eq_zero_of_not_mem hplace, List.count_singleton_self]
    · rintro ⟨place', f', hcallee', hplace', rfl⟩
      rcases List.mem_append.mp hplace' with hold | hnew
      · have hne : place' ≠ place := by
          rintro rfl
          exact hplace hold
        refine .inl ⟨place', f', hcallee', hold, ?_⟩
        rw [List.count_append, List.count_singleton, if_neg (by simpa using hne.symm)]
        rfl
      · obtain rfl : place' = place := List.mem_singleton.mp hnew
        right
        rw [List.count_append, List.count_eq_zero_of_not_mem hplace, List.count_singleton_self,
          name_eq_of_callee? hcallee' hcallee]
  score := by rw [total_first hcallee hplace, ← h.score]
  le_greatest := hle

/-- Another call of the same function makes its entry greater by one. -/
theorem again (h : s.Tally marks c) (hcallee : s.callee? name = some (place, f))
    (hplace : place ∈ s.calls marks) :
    s.Tally (marks ++ [.call offset name])
      { c with calls := Complexity.recount name c.calls } where
  branches := by
    rw [List.countP_append, ← h.branches]
    rfl
  nodup := by
    rw [Complexity.map_fst_recount]
    exact h.nodup
  mem_calls := by
    intro other n
    rw [calls_call marks offset hcallee, Complexity.mem_recount h.nodup]
    -- A name is the one that is called now exactly when its place is.
    have hcount : ∀ {place' : Nat} {f' : Function}, s.callee? other = some (place', f') →
        (s.calls marks ++ [place]).count place'
          = if other = name then (s.calls marks).count place' + 1
            else (s.calls marks).count place' := by
      intro place' f' hcallee'
      rw [List.count_append, List.count_singleton]
      by_cases hname : other = name
      · subst hname
        cases hcallee.symm.trans hcallee'
        simp
      · have hne : place' ≠ place := by
          rintro rfl
          exact hname (name_eq_of_callee? hcallee' hcallee)
        simp [hname, hne.symm]
    constructor
    · rintro ⟨m, hmem, rfl⟩
      obtain ⟨place', f', hcallee', hplace', rfl⟩ := (h.mem_calls other m).mp hmem
      exact ⟨place', f', hcallee', List.mem_append_left _ hplace', (hcount hcallee').symm⟩
    · rintro ⟨place', f', hcallee', hplace', rfl⟩
      have hold : place' ∈ s.calls marks := by
        rcases List.mem_append.mp hplace' with hold | hnew
        · exact hold
        · rw [List.mem_singleton.mp hnew]
          exact hplace
      exact ⟨_, (h.mem_calls other _).mpr ⟨place', f', hcallee', hold, rfl⟩, hcount hcallee'⟩
  score := by rw [total_again hcallee hplace, ← h.score]
  le_greatest := h.le_greatest

/-- A call of anything else is not counted. -/
theorem other (h : s.Tally marks c) (hcallee : s.callee? name = none) :
    s.Tally (marks ++ [.call offset name]) c where
  branches := by
    rw [List.countP_append, ← h.branches]
    rfl
  nodup := h.nodup
  mem_calls := by
    have hcalls : s.calls (marks ++ [.call offset name]) = s.calls marks := by
      rw [calls_concat, place?, hcallee]
      exact List.append_nil _
    rw [hcalls]
    exact h.mem_calls
  score := by rw [total_other hcallee, ← h.score]
  le_greatest := h.le_greatest

/-- Counting one more mark keeps the tally, unless the exact score is too large. -/
theorem count (h : s.Tally marks c) (mark : Mark) :
    (∃ c', s.count mark c = .ok () c' ∧ s.Tally (marks ++ [mark]) c') ∨
      s.count mark c = .error .complexityOverflow c ∧
        Complexity.greatestScore < s.total (marks ++ [mark]) := by
  cases mark with
  | branch offset =>
    rw [Setting.count, Complexity.addBranch_eq, total_branch, ← h.score]
    by_cases hle : c.score + 1 ≤ Complexity.greatestScore
    · exact .inl ⟨_, if_pos hle, h.branch offset hle⟩
    · exact .inr ⟨if_neg hle, Nat.lt_of_not_le hle⟩
  | call offset name =>
    cases hcallee : s.callee? name with
    | none => exact .inl ⟨c, by rw [Setting.count, hcallee]; rfl, h.other hcallee⟩
    | some pair =>
      obtain ⟨place, f⟩ := pair
      rw [Setting.count, hcallee]
      by_cases hplace : place ∈ s.calls marks
      · have hname := (h.mem_names hcallee).mpr hplace
        exact .inl ⟨_, Complexity.addCall_of_mem hname _, h.again hcallee hplace⟩
      · have hname := mt (h.mem_names hcallee).mp hplace
        dsimp only
        rw [Complexity.addCall_of_notMem hname, total_first hcallee hplace, ← h.score]
        by_cases hle : c.score + f.complexity.score ≤ Complexity.greatestScore
        · exact .inl ⟨_, if_pos hle, h.first hcallee hplace hle⟩
        · exact .inr ⟨if_neg hle, Nat.lt_of_not_le hle⟩

end Tally

end

/-! ### Whole texts -/

/-- A text is counted part by part. -/
theorem countAll_append_ok {before after : List Mark} :
    s.countAll (before ++ after) c = .ok () c' ↔
      ∃ c₁, s.countAll before c = .ok () c₁ ∧ s.countAll after c₁ = .ok () c' := by
  have hsplit : s.countAll (before ++ after)
      = s.countAll before >>= fun _ => s.countAll after := List.forM_append
  rw [hsplit]
  cases hbefore : s.countAll before c with
  | error cause c₁ => simp [bind, EStateM.bind, hbefore]
  | ok _ c₁ => simp [bind, EStateM.bind, hbefore]

/-- One mark is counted by itself. -/
theorem countAll_singleton (mark : Mark) : s.countAll [mark] = s.count mark := by
  simp [countAll]

/-- Counting a whole text from the start gives its tally. -/
theorem tally_of_countAll (h : s.countAll marks .start = .ok () c) : s.Tally marks c := by
  induction marks using List.reverseRecOn generalizing c with
  | nil =>
    cases h
    exact tally_start s
  | append_singleton marks mark ih =>
    obtain ⟨c₁, hmarks, hmark⟩ := countAll_append_ok.mp h
    rw [countAll_singleton] at hmark
    rcases (ih hmarks).count mark with ⟨c₂, hok, hnext⟩ | ⟨herror, -⟩
    · cases hok.symm.trans hmark
      exact hnext
    · cases herror.symm.trans hmark

/-- Whether counting a text stops at an offset: everything in front of some mark there is counted,
and that mark would make the score too large. -/
def Overflows (s : Setting) (marks : List Mark) (c : Complexity) (offset : Nat) : Prop :=
  ∃ before mark after c', marks = before ++ mark :: after ∧ mark.offset = offset ∧
    s.countAll before c = .ok () c' ∧ s.count mark c' = .error .complexityOverflow c'

/-- What overflows in front overflows in the whole. -/
theorem Overflows.append_right {offset : Nat} (h : s.Overflows marks c offset)
    (later : List Mark) : s.Overflows (marks ++ later) c offset := by
  obtain ⟨before, mark, after, c', rfl, hoffset, hbefore, hmark⟩ := h
  exact ⟨before, mark, after ++ later, c', by simp, hoffset, hbefore, hmark⟩

/-- What overflows behind something that is counted overflows in the whole. -/
theorem Overflows.append_left {offset : Nat} (h : s.Overflows marks c' offset)
    {earlier : List Mark} (hearlier : s.countAll earlier c = .ok () c') :
    s.Overflows (earlier ++ marks) c offset := by
  obtain ⟨before, mark, after, c₁, rfl, hoffset, hbefore, hmark⟩ := h
  exact ⟨earlier ++ before, mark, after, c₁, by simp, hoffset,
    countAll_append_ok.mpr ⟨c', hearlier, hbefore⟩, hmark⟩

/-- What overflows from the start has an exact score that is too large. -/
theorem Overflows.total_gt {offset : Nat} (h : s.Overflows marks .start offset) :
    ∃ before mark after, marks = before ++ mark :: after ∧ mark.offset = offset ∧
      s.total before ≤ Complexity.greatestScore ∧
      Complexity.greatestScore < s.total (before ++ [mark]) := by
  obtain ⟨before, mark, after, c, hmarks, hoffset, hbefore, hmark⟩ := h
  have htally := tally_of_countAll hbefore
  have hfits : s.total before ≤ Complexity.greatestScore := by
    rw [← htally.score]
    exact htally.le_greatest
  rcases htally.count mark with ⟨c', hok, -⟩ | ⟨-, htotal⟩
  · cases hok.symm.trans hmark
  · exact ⟨before, mark, after, hmarks, hoffset, hfits, htotal⟩

/-! ### Counting along analysis -/

/-- Whether a step of analysis counts the marks of a text, no more and no less. It overflows only
where counting them does. -/
structure Counts {α : Type} (s : Setting) (m : Analysis α) (marks : List Mark) : Prop where
  ok : ∀ {d : Draft} {a : α} {d' : Draft}, m d = .ok (a, d') →
    s.countAll marks d.complexity = .ok () d'.complexity
  overflow : ∀ {d : Draft} {offset : Nat}, m d = .error ⟨.complexityOverflow, offset⟩ →
    s.Overflows marks d.complexity offset

/-- Whether a test fails for some other reason than a score that is too large. -/
def Test.Uncounted (test : Test) : Prop :=
  ∀ index e ty fault, test index e ty = some fault → fault.cause ≠ .complexityOverflow

namespace Counts

variable {α β : Type} {m : Analysis α} {f : α → Analysis β} {marks' : List Mark}

/-- Giving a value counts nothing. -/
theorem pure (a : α) : s.Counts (Pure.pure a) [] where
  ok h := by
    cases Analysis.pure_ok.mp h
    rfl
  overflow h := (Analysis.pure_error.mp h).elim

/-- Two steps count one after the other. -/
theorem bind (h : s.Counts m marks) (h' : ∀ a, s.Counts (f a) marks') :
    s.Counts (m >>= f) (marks ++ marks') where
  ok hok := by
    obtain ⟨a, d₁, hm, hf⟩ := Analysis.bind_ok.mp hok
    exact countAll_append_ok.mpr ⟨_, h.ok hm, (h' a).ok hf⟩
  overflow herror := by
    rcases Analysis.bind_error.mp herror with hm | ⟨a, d₁, hm, hf⟩
    · exact (h.overflow hm).append_right marks'
    · exact ((h' a).overflow hf).append_left (h.ok hm)

/-- What follows a step may count nothing more. -/
theorem bind_nil (h : s.Counts m marks) (h' : ∀ a, s.Counts (f a) []) :
    s.Counts (m >>= f) marks := by
  have hboth := h.bind h'
  rwa [List.append_nil] at hboth

/-- Reading the draft counts nothing. -/
theorem get_bind {f : Draft → Analysis β} (h : ∀ d, s.Counts (f d) marks) :
    s.Counts (get >>= f) marks where
  ok hok := (h _).ok (Analysis.get_bind_ok.mp hok)
  overflow herror := (h _).overflow (Analysis.get_bind_error.mp herror)

/-- A fault of another kind counts whatever is asked for, because nothing follows it. -/
theorem throw {fault : Fault} (h : fault.cause ≠ .complexityOverflow) :
    s.Counts (throw fault : Analysis α) marks where
  ok hok := (Analysis.throw_ok.mp hok).elim
  overflow herror := by
    cases Analysis.throw_error.mp herror
    exact absurd rfl h

/-- A failure of another kind is such a fault. -/
theorem fail {cause : Cause} (h : cause ≠ .complexityOverflow) (offset : Nat) :
    s.Counts (Analysis.fail cause offset : Analysis α) marks :=
  throw h

/-- A test counts nothing, and what follows it can rely on its condition. -/
theorem require_bind {condition : Bool} {cause : Cause} {f : Unit → Analysis β} {offset : Nat}
    (hcause : cause ≠ .complexityOverflow) (h : condition = true → s.Counts (f ()) marks) :
    s.Counts (Analysis.require condition cause offset >>= f) marks where
  ok hok := by
    obtain ⟨_, d₁, hrequire, hf⟩ := Analysis.bind_ok.mp hok
    obtain ⟨hcondition, heq⟩ := Analysis.require_ok.mp hrequire
    cases heq
    exact (h hcondition).ok hf
  overflow herror := by
    rcases Analysis.bind_error.mp herror with hrequire | ⟨_, d₁, hrequire, hf⟩
    · obtain ⟨-, heq⟩ := Analysis.require_error.mp hrequire
      cases heq
      exact absurd rfl hcause
    · obtain ⟨hcondition, heq⟩ := Analysis.require_ok.mp hrequire
      cases heq
      exact (h hcondition).overflow hf

/-- Changing something else than the counter counts nothing. -/
theorem modify {g : Draft → Draft} (h : ∀ d, (g d).complexity = d.complexity) :
    s.Counts (modify g) [] where
  ok hok := by
    cases Analysis.modify_ok.mp hok
    rw [h]
    rfl
  overflow herror := (Analysis.modify_error.mp herror).elim

/-- Declaring a variable counts nothing. -/
theorem declare (name : String) (ty : Ty) : s.Counts (Analysis.declare name ty) [] where
  ok hok := by
    cases Analysis.declare_ok.mp hok
    rfl
  overflow herror := (Analysis.declare_error.mp herror).elim

/-- Counting a mark counts it. -/
theorem count (mark : Mark) : s.Counts (Analysis.count (s.count mark) mark.offset) [mark] where
  ok hok := by
    obtain ⟨c, hstep, heq⟩ := Analysis.count_ok.mp hok
    cases heq
    rw [countAll_singleton]
    exact hstep
  overflow herror := by
    obtain ⟨cause, c, hstep, heq⟩ := Analysis.count_error.mp herror
    cases heq
    -- What was refused has left the counter as it was.
    obtain rfl := count_error hstep
    exact ⟨[], mark, [], _, rfl, rfl, rfl, hstep⟩

/-- A call of something that has no score counts nothing. -/
theorem uncounted {offset : Nat} {name : String} (hcallee : s.callee? name = none)
    (h : s.Counts m []) : s.Counts m [.call offset name] where
  ok hok := by
    rw [countAll_singleton, Setting.count, hcallee]
    exact h.ok hok
  overflow herror := by
    obtain ⟨before, mark, after, -, hnil, -⟩ := h.overflow herror
    simp at hnil

end Counts

/-- A size that is no number is not counted. -/
theorem uncounted_sizeTest (offset : Nat) : Test.Uncounted (sizeTest offset) := by
  intro index e ty fault h
  unfold sizeTest at h
  split at h <;> cases h
  simp

/-- An index that is no number is not counted. -/
theorem uncounted_indexTest (name : String) : Test.Uncounted (indexTest name) := by
  intro index e ty fault h
  unfold indexTest at h
  split at h <;> cases h
  simp

/-- An element of another type is not counted. -/
theorem uncounted_elementTest (first : Ty) : Test.Uncounted (elementTest first) := by
  intro index e ty fault h
  unfold elementTest at h
  split at h <;> cases h
  simp

/-- An argument that does not fit is not counted. -/
theorem uncounted_argumentTest (name : String) (signature : Signature) :
    Test.Uncounted (argumentTest name signature) := by
  intro index e ty fault h
  unfold argumentTest at h
  split at h <;> cases h
  simp

/-- A call without a target is no matter of scores. -/
theorem target_error_ne {d : Draft} {name : String} {cause : Cause}
    (h : s.target d name = .error cause) : cause ≠ .complexityOverflow := by
  rcases target_error.mp h with ⟨-, -, rfl⟩ | ⟨-, -, rfl⟩
  · simp
  · split <;> simp

/-- The score of a target is that of the function that its name reaches, if it reaches one. -/
theorem score_of_target {d : Draft} {name : String} {target : CallTarget}
    (h : s.target d name = .ok target) :
    target.signature.score = (s.callee? name).map fun callee => callee.2.complexity.score := by
  rcases target_ok.mp h with ⟨rfl, result, -, rfl⟩ |
    ⟨hname, ⟨b, hentry, rfl⟩ | ⟨place, f, hentry, rfl⟩⟩
  · simp [callee?, Setting.signature]
  · simp [callee?, hname, hentry, Builtin.signature]
  · simp [callee?, hname, hentry, Function.signature]

mutual

/-- Analysis of an expression counts its calls. -/
theorem counts_term : ∀ e : Expr, s.Counts (s.term e) e.marks
  | .number _ _ => by
    rw [term]
    exact .pure _
  | .newArray span sizes => by
    rw [term]
    exact (counts_terms (uncounted_sizeTest _) _ sizes).bind_nil fun _ => .pure _
  | .list span [] => by
    rw [term]
    exact .fail (by simp) _
  | .list span (first :: rest) => by
    rw [term]
    exact (counts_term first).bind fun u =>
      (counts_terms (uncounted_elementTest _) _ rest).bind_nil fun _ => .pure _
  | .var span name indices => by
    rw [term]
    refine .get_bind fun d => ?_
    rcases s.resolve d name with _ | ⟨v⟩ | _
    · exact .fail (by simp) _
    · dsimp only
      cases v.ty with
      | number =>
        -- A number takes no index, so none is left out of the count.
        refine .require_bind (by simp) fun hempty => ?_
        rw [Expr.marks, List.isEmpty_iff.mp hempty]
        exact .pure _
      | array rank =>
        exact (counts_terms (uncounted_indexTest _) _ indices).bind_nil fun _ =>
          .require_bind (by simp) fun _ => .pure _
      | function => exact .fail (by simp) _
    · exact .fail (by simp) _
  | .call span name args => by
    rw [term]
    refine .get_bind fun d => ?_
    cases htarget : s.target d name with
    | error cause => exact .fail (target_error_ne htarget) _
    | ok target =>
      have hscore := score_of_target htarget
      obtain ⟨result, hresult⟩ := exists_result_of_target htarget
      simp only [hresult]
      refine .require_bind (by simp) fun _ => ?_
      refine (counts_terms (uncounted_argumentTest _ _) _ args).bind fun ts => ?_
      cases hcallee : s.callee? name with
      | none =>
        rw [hcallee] at hscore
        simp only [show target.signature.score = none from hscore]
        exact .uncounted hcallee (.pure _)
      | some callee =>
        rw [hcallee] at hscore
        simp only [show target.signature.score = some callee.2.complexity.score from hscore]
        have hcount : Complexity.addCall name callee.2.complexity.score
            = s.count (.call span.start name) := by
          rw [Setting.count, hcallee]
        rw [hcount]
        exact (Counts.count (.call span.start name)).bind_nil fun _ => .pure _
  | .unary span op operand => by
    rw [term]
    exact (counts_term operand).bind_nil fun _ => .require_bind (by simp) fun _ => .pure _
  | .binary span op left right => by
    rw [term]
    refine (counts_term left).bind fun _ => .require_bind (by simp) fun _ => ?_
    exact (counts_term right).bind_nil fun _ => .require_bind (by simp) fun _ => .pure _

/-- Companion for several expressions. -/
theorem counts_terms {test : Test} (htest : Test.Uncounted test) :
    ∀ (index : Nat) (es : List Expr), s.Counts (s.terms test index es) (Expr.marksAll es)
  | _, [] => by
    rw [terms]
    exact .pure _
  | index, e :: es => by
    rw [terms]
    refine (counts_term e).bind fun t => ?_
    cases hpassed : test index e t.ty with
    | some fault => exact .throw (htest _ _ _ _ hpassed)
    | none => exact (counts_terms htest _ es).bind_nil fun _ => .pure _

end

/-- Analysis of an assignment counts the calls in its value and then those in its target. -/
theorem counts_assign (target : Target) (value : Expr) :
    s.Counts (s.assign target value) (value.marks ++ Expr.marksAll target.indices) := by
  rw [assign]
  refine (counts_term value).bind fun t => .get_bind fun d => ?_
  rcases s.resolve d target.name with _ | ⟨v⟩ | _
  · refine .require_bind (by simp) fun hempty => ?_
    rw [List.isEmpty_iff.mp hempty]
    exact (Counts.declare _ _).bind_nil fun _ => .pure _
  · dsimp only
    cases v.ty with
    | number =>
      refine .require_bind (by simp) fun hempty => .require_bind (by simp) fun _ => ?_
      rw [List.isEmpty_iff.mp hempty]
      exact .pure _
    | array rank =>
      refine (counts_terms (uncounted_indexTest _) _ target.indices).bind_nil fun ts => ?_
      refine .require_bind (by simp) fun _ => ?_
      cases rank.drop target.indices.length with
      | nil => exact .require_bind (by simp) fun _ => .pure _
      | cons dim dims => exact .require_bind (by simp) fun _ => .pure _
    | function => exact .fail (by simp) _
  · exact .fail (by simp) _

mutual

/-- Analysis of a statement counts its branches and calls. -/
theorem counts_step (last : Bool) : ∀ stmt : Stmt, s.Counts (s.step last stmt) stmt.marks
  | .branch span condition pass fail => by
    rw [step]
    refine (counts_term condition).bind fun t => .require_bind (by simp) fun _ => ?_
    show s.Counts _ ([.branch span.start] ++ (Stmt.marksAll pass ++ Stmt.marksOption fail))
    refine (Counts.count (.branch span.start)).bind fun _ => (counts_steps pass).bind fun _ => ?_
    exact (counts_stepsOption fail).bind_nil fun _ => .pure _
  | .assign _ target value => by
    rw [step]
    exact counts_assign target value
  | .update span op target value => by
    rw [step]
    exact counts_assign target _
  | .ret span value => by
    rw [step]
    refine .require_bind (by simp) fun _ => ?_
    refine (counts_term value).bind_nil fun t => .get_bind fun d => ?_
    cases d.result with
    | none =>
      refine Counts.bind_nil (.modify ?_) fun _ => .pure _
      exact fun _ => rfl
    | some result => exact .require_bind (by simp) fun _ => .pure _

/-- Companion for blocks. -/
theorem counts_steps : ∀ block : List Stmt, s.Counts (s.steps block) (Stmt.marksAll block)
  | [] => by
    rw [steps]
    exact .pure _
  | stmt :: rest => by
    rw [steps]
    exact (counts_step _ stmt).bind fun _ => (counts_steps rest).bind_nil fun _ => .pure _

/-- Companion for blocks that may be absent. -/
theorem counts_stepsOption :
    ∀ block : Option (List Stmt), s.Counts (s.stepsOption block) (Stmt.marksOption block)
  | none => by
    rw [stepsOption]
    exact .pure _
  | some block => by
    rw [stepsOption]
    exact counts_steps block

end

end Setting

/-! ### Functions -/

/-- Whether the complexity of a function of `p`, or of one that may become its next function, is
exact. Its branches are those of the code. It has an entry for each function of the program that the
code calls, with the number of those calls, and no other entry. Its score is one, one for each
branch, and the score of each of those functions, once. -/
structure Function.Exact (p : Program) (f : Function) : Prop where
  branches : f.complexity.branches = f.branchCount
  nodup : (f.complexity.calls.map Prod.fst).Nodup
  places : ∀ place ∈ f.calls, place < p.functions.length
  mem_calls : ∀ name n, (name, n) ∈ f.complexity.calls ↔
    ∃ place g, p.functions[place]? = some g ∧ g.name = name ∧ place ∈ f.calls ∧
      n = f.calls.count place
  score : f.complexity.score = 1 + f.branchCount + ∑ place ∈ f.calls.toFinset, p.scoreAt place
  le_greatest : f.complexity.score ≤ Complexity.greatestScore

/-- More functions behind the others change nothing. -/
theorem Function.Exact.mono {p q : Program} {f : Function} (h : f.Exact p)
    (hgrows : p.functions <+: q.functions) : f.Exact q := by
  have hplaces : ∀ place ∈ f.calls, q.functions[place]? = p.functions[place]? := by
    intro place hplace
    obtain ⟨more, hmore⟩ := hgrows
    rw [← hmore, List.getElem?_append_left (h.places place hplace)]
  refine ⟨h.branches, h.nodup, ?_, ?_, ?_, h.le_greatest⟩
  · intro place hplace
    exact Nat.lt_of_lt_of_le (h.places place hplace) hgrows.length_le
  · intro name n
    rw [h.mem_calls]
    refine exists_congr fun place => exists_congr fun g => ?_
    constructor
    · rintro ⟨hg, hname, hplace, hn⟩
      exact ⟨(hplaces place hplace).trans hg, hname, hplace, hn⟩
    · rintro ⟨hg, hname, hplace, hn⟩
      exact ⟨(hplaces place hplace).symm.trans hg, hname, hplace, hn⟩
  · rw [h.score]
    congr 1
    refine Finset.sum_congr rfl fun place hplace => ?_
    rw [Program.scoreAt, Program.scoreAt, hplaces place (List.mem_toFinset.mp hplace)]

namespace Program

variable {p : Program} {file : String} {decl : Decl} {decls : List Decl} {f : Function}

/-- The counter of an analysed function is a tally of its declaration. -/
theorem tally_of_analyse (h : p.analyse file decl = .ok f) :
    (p.setting decl).Tally (Stmt.marksAll decl.body) f.complexity := by
  obtain ⟨-, -, hdecl⟩ := analyse_ok.mp h
  obtain ⟨d₀, d, body, result, hparams, hsteps, -, -, rfl⟩ := analyseDecl_ok.mp hdecl
  obtain ⟨-, -, hcomplexity, -⟩ := Analysis.bindParams_ok decl.params hparams Scope.wellFormed_empty
  have hcount := (Setting.counts_steps decl.body).ok hsteps
  rw [hcomplexity] at hcount
  exact Setting.tally_of_countAll hcount

/-- The complexity of an analysed function is exact. -/
theorem exact_of_analyse (h : p.analyse file decl = .ok f) : f.Exact p := by
  have htally := tally_of_analyse h
  have hcalls : f.calls = (p.setting decl).calls (Stmt.marksAll decl.body) :=
    Setting.filterMap_place? (analyse_lowers h)
  have hbranches : f.branchCount = (Stmt.marksAll decl.body).countP Mark.isBranch :=
    Setting.countP_isBranch (analyse_lowers h)
  refine ⟨htally.branches.trans hbranches.symm, htally.nodup, ?_, ?_, ?_, htally.le_greatest⟩
  · intro place hplace
    rw [hcalls] at hplace
    obtain ⟨g, hg, -⟩ := Setting.exists_of_mem_calls hplace
    exact (List.getElem?_eq_some_iff.mp hg).1
  · intro name n
    rw [htally.mem_calls, hcalls]
    constructor
    · rintro ⟨place, g, hcallee, hplace, hn⟩
      obtain ⟨hg, hname⟩ := entry?_user (Setting.callee?_eq_some.mp hcallee).2
      exact ⟨place, g, hg, hname, hplace, hn⟩
    · rintro ⟨place, g, hg, rfl, hplace, hn⟩
      obtain ⟨g', hg', hcallee⟩ := Setting.exists_of_mem_calls hplace
      cases hg.symm.trans hg'
      exact ⟨place, g, hcallee, hplace, hn⟩
  · rw [htally.score, Setting.total, hbranches, hcalls]
    rfl

/-- A declaration whose score is too large overflows at one of its branches and calls. -/
theorem overflows_of_analyse {e : Error} (h : p.analyse file decl = .error e)
    (hcause : e.cause = .complexityOverflow) :
    (p.setting decl).Overflows (Stmt.marksAll decl.body) .start e.position.offset := by
  rcases analyse_error.mp h with ⟨-, rfl⟩ | ⟨-, -, rfl⟩ | ⟨-, -, ⟨cause, offset⟩, hfault, rfl⟩
  · cases hcause
  · cases hcause
  · obtain rfl : cause = .complexityOverflow := hcause
    rcases analyseDecl_error.mp hfault with hparams | ⟨d₀, hparams, hsteps | ⟨body, d, -, -, heq⟩⟩
    · obtain ⟨param, -, heq⟩ := Analysis.bindParams_error decl.params hparams
      cases heq
    · obtain ⟨-, -, hcomplexity, -⟩ :=
        Analysis.bindParams_ok decl.params hparams Scope.wellFormed_empty
      have hoverflow := (Setting.counts_steps decl.body).overflow hsteps
      rw [hcomplexity] at hoverflow
      exact hoverflow
    · cases heq

/-- The complexity of a function is exact in the whole program. -/
theorem Built.exact (h : Built file decls p) {index : Nat} (hf : p.functions[index]? = some f) :
    f.Exact p := by
  obtain ⟨decl, -, hanalyse⟩ := h.exists_decl hf
  exact (exact_of_analyse hanalyse).mono (List.take_prefix index p.functions)

/-- Complexity is an exact sum. In a program that analysis accepts, the complexity of each function
counts the branches of its body. It has one entry for each other function of the program that the
code calls, with the number of those calls, and none for the function itself or for a builtin. Its
score is one, the number of branches, and the scores of the functions that are called, each of them
once; the sum is not cut off at the greatest score. A declaration is refused for a score that is too
large only at a branch or call with which the exact sum of what was met so far, that branch or call
included, exceeds the greatest score. -/
theorem complexity_exact (file : String) :
    (∀ decls p, ofDecls file decls = .ok p →
      ∀ (index : Nat) (decl : Decl) (f : Function),
        decls[index]? = some decl → p.functions[index]? = some f →
        f.complexity.branches = Stmt.branchCountAll decl.body ∧
        (f.complexity.calls.map Prod.fst).Nodup ∧
        (∀ name n, (name, n) ∈ f.complexity.calls ↔
          ∃ place g, p.functions[place]? = some g ∧ g.name = name ∧ place ∈ f.calls ∧
            n = f.calls.count place) ∧
        (∀ name ∈ f.complexity.calls.map Prod.fst, name ≠ f.name ∧ Builtin.find? name = none) ∧
        f.complexity.score
          = 1 + f.complexity.branches + ∑ place ∈ f.calls.toFinset, p.scoreAt place ∧
        f.complexity.score ≤ 2 ^ 64 - 1) ∧
    (∀ (p : Program) (decl : Decl) (e : Error),
      p.analyse file decl = .error e → e.cause = .complexityOverflow →
      ∃ before mark after, Stmt.marksAll decl.body = before ++ mark :: after ∧
        mark.offset = e.position.offset ∧ (p.setting decl).total before ≤ 2 ^ 64 - 1 ∧
        2 ^ 64 - 1 < (p.setting decl).total (before ++ [mark])) := by
  refine ⟨?_, fun p decl e h hcause => (overflows_of_analyse h hcause).total_gt⟩
  intro decls p h index decl f hdecl hf
  have hbuilt := ofDecls_ok.mp h
  have hexact := hbuilt.exact hf
  obtain ⟨decl', hdecl', hanalyse⟩ := hbuilt.exists_decl hf
  obtain rfl : decl' = decl := Option.some.inj (hdecl'.symm.trans hdecl)
  have htally := tally_of_analyse hanalyse
  refine ⟨?_, hexact.nodup, hexact.mem_calls, ?_, ?_, hexact.le_greatest⟩
  · rw [htally.branches, Stmt.countP_marksAll]
  · -- An entry is there for a callee only, and a callee is neither the function itself nor a
    -- builtin.
    intro name hname
    obtain ⟨⟨_, n⟩, hmem, rfl⟩ := List.mem_map.mp hname
    obtain ⟨place, g, hcallee, -⟩ := (htally.mem_calls _ n).mp hmem
    obtain ⟨hne, hentry⟩ := Setting.callee?_eq_some.mp hcallee
    rw [name_of_analyse hanalyse]
    exact ⟨hne, builtin_find?_of_user hentry⟩
  · rw [hexact.branches, hexact.score]

end Program

/-- A program whose second function calls the first one in a condition, as an argument, and in the
index of a compound assignment, which counts twice. -/
def Source.audit : Source :=
  ⟨"audit", "one(x: number) { if (x) { return 1; } return 2; }
    all(a: number[]) {
      a[one(0)] += abs(one(1));
      if (a[0] > 3) { if (one(2)) { return 0; } }
      return all(a);
    }"⟩

/-- A program with one function, which has the greatest score. -/
def Program.exhausted : Program :=
  Program.empty.append
    { name := "f", file := "full", span := ⟨0, 1⟩, params := [], result := .number,
      complexity := ⟨Complexity.greatestScore, 0, []⟩, slots := 0, body := [] }

/-- A declaration that calls that function. -/
def Decl.straw : Decl :=
  { name := "g", params := [], body := [.ret ⟨4, 9⟩ (.call ⟨5, 8⟩ "f" [])], span := ⟨2, 9⟩ }

/-- Three calls of the first function are written in the second one, and four are counted. A call of
the function with the greatest score cannot be counted at all. -/
theorem Program.complexity_exact_audit :
    (∃ decls p f g, Source.audit.decls = .ok decls ∧ ofDecls "audit" decls = .ok p ∧
      p.functions = [f, g] ∧ f.name = "one" ∧ g.calls = [0, 0, 0, 0] ∧
      ("one", 4) ∈ g.complexity.calls ∧
      g.complexity.score = 1 + g.complexity.branches + p.scoreAt 0) ∧
    ∃ e, exhausted.analyse "full" .straw = .error e ∧ e.cause = .complexityOverflow ∧
      ∃ before mark after, Stmt.marksAll Decl.straw.body = before ++ mark :: after ∧
        mark.offset = e.position.offset ∧ (exhausted.setting .straw).total before ≤ 2 ^ 64 - 1 ∧
        2 ^ 64 - 1 < (exhausted.setting .straw).total (before ++ [mark]) := by
  constructor
  · have hrun : (Source.audit.decls.toOption.bind fun decls =>
        (ofDecls "audit" decls).toOption.map fun p => (decls.length,
          p.functions.map fun f => (f.name, f.calls)))
        = some (2, [("one", []), ("all", [0, 0, 0, 0])]) := by
      decide +kernel
    obtain ⟨decls, hdecls, hrun⟩ := Option.bind_eq_some_iff.mp hrun
    obtain ⟨p, hprogram, hchecks⟩ := Option.map_eq_some_iff.mp hrun
    obtain ⟨hlength, hfunctions⟩ := Prod.mk.inj hchecks
    obtain ⟨f, _, hp, hf, hrest⟩ := List.map_eq_cons_iff.mp hfunctions
    obtain ⟨g, rfl, hg⟩ := List.map_eq_singleton_iff.mp hrest
    have hname : f.name = "one" := (Prod.mk.inj hf).1
    have hcalls : g.calls = [0, 0, 0, 0] := (Prod.mk.inj hg).2
    have hprogram := eq_ok_of_toOption hprogram
    have hdecl : decls[1]? = some decls[1] := List.getElem?_eq_getElem (by omega)
    obtain ⟨-, -, hmem, -, hscore, -⟩ :=
      (complexity_exact "audit").1 decls p hprogram 1 _ g hdecl (by rw [hp]; rfl)
    refine ⟨decls, p, f, g, eq_ok_of_toOption hdecls, hprogram, hp, hname, hcalls, ?_, ?_⟩
    · exact (hmem "one" 4).mpr ⟨0, f, by rw [hp]; rfl, hname, by simp [hcalls], by rw [hcalls]; rfl⟩
    · rw [hscore, hcalls]
      rfl
  · refine ⟨⟨.complexityOverflow, ⟨"full", 5⟩, some "g"⟩, rfl, rfl, ?_⟩
    exact (complexity_exact "full").2 exhausted .straw _ rfl rfl

end ArrayScript
