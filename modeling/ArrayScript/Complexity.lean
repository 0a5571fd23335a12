import ArrayScript.Error.Cause

/-!
# `ArrayScript.Complexity`: cyclomatic complexity

The score of a function starts at one. Each branch adds one, and each other function of the program
that it calls adds its own score, once, at its first call. The counter also keeps how many branches
and how many calls of each function it has seen. A score above the limit is refused.

The operations work on a counter in place (`Complexity.Counting`), and one that fails hands on the
counter as it found it at that point. So it matters in which order an operation makes its changes:
the score is raised first, and the branch or the callee is noted behind that.
-/

set_option autoImplicit false

namespace ArrayScript

/-- A running count: the score, the number of branches, and the number of calls of each function in
the order of their first calls. -/
structure Complexity where
  score : Nat
  branches : Nat
  calls : List (String × Nat)
deriving DecidableEq, Repr

namespace Complexity

/-- The greatest score that can be counted. -/
def greatestScore : Nat := 0xFFFFFFFFFFFFFFFF

/-- The count of an empty body. -/
def start : Complexity :=
  ⟨1, 0, []⟩

/-- An operation on a counter. Whether it succeeds or fails, a counter comes back. -/
abbrev Counting : Type :=
  EStateM Cause Complexity Unit

/-- Adds to the score, unless that would become too large. -/
def addScore (amount : Nat) : Counting := do
  let c ← get
  if c.score + amount ≤ greatestScore then set { c with score := c.score + amount }
  else throw .complexityOverflow

/-- Counts one more branch. -/
def addBranch : Counting := do
  addScore 1
  modify fun c => { c with branches := c.branches + 1 }

/-- How often a function was called. -/
def callCount (c : Complexity) (callee : String) : Nat :=
  (c.calls.lookup callee).getD 0

/-- The calls with one more in the first entry of a function. -/
def recount (callee : String) : List (String × Nat) → List (String × Nat)
  | [] => []
  | (name, count) :: rest =>
    if name = callee then (name, count + 1) :: rest else (name, count) :: recount callee rest

/-- Counts one more call of a function whose own score is known. Only the first call of a function
adds its score. -/
def addCall (callee : String) (calleeScore : Nat) : Counting := do
  if (← get).calls.any fun (name, _) => name = callee then
    modify fun c => { c with calls := recount callee c.calls }
  else
    addScore calleeScore
    modify fun c => { c with calls := c.calls ++ [(callee, 1)] }

/-! ### What the operations come to -/

variable {c : Complexity} {callee : String}

/-- The score is raised unless it would become too large. -/
theorem addScore_eq (c : Complexity) (amount : Nat) :
    addScore amount c
      = if c.score + amount ≤ greatestScore then .ok () { c with score := c.score + amount }
        else .error .complexityOverflow c := by
  show (if c.score + amount ≤ greatestScore then set { c with score := c.score + amount }
    else throw .complexityOverflow : Counting) c = _
  by_cases hle : c.score + amount ≤ greatestScore
  · rw [if_pos hle, if_pos hle]
    rfl
  · rw [if_neg hle, if_neg hle]
    rfl

/-- A change behind the score is made exactly when the score is raised. -/
theorem addScore_modify (c : Complexity) (amount : Nat) (change : Complexity → Complexity) :
    (do addScore amount; modify change : Counting) c
      = if c.score + amount ≤ greatestScore then
          .ok () (change { c with score := c.score + amount })
        else .error .complexityOverflow c := by
  have hscore := addScore_eq c amount
  by_cases hle : c.score + amount ≤ greatestScore
  · rw [if_pos hle] at hscore ⊢
    simp only [bind, EStateM.bind, hscore]
    rfl
  · rw [if_neg hle] at hscore ⊢
    simp only [bind, EStateM.bind, hscore]

/-- A branch is counted unless the score would become too large. -/
theorem addBranch_eq (c : Complexity) :
    addBranch c
      = if c.score + 1 ≤ greatestScore then
          .ok () { c with score := c.score + 1, branches := c.branches + 1 }
        else .error .complexityOverflow c :=
  addScore_modify c 1 fun c => { c with branches := c.branches + 1 }

/-- A function that was called before is only counted. -/
theorem addCall_of_mem (h : callee ∈ c.calls.map Prod.fst) (score : Nat) :
    addCall callee score c = .ok () { c with calls := recount callee c.calls } := by
  have hany : (c.calls.any fun (name, _) => name = callee) = true := by simpa using h
  show (if c.calls.any fun (name, _) => name = callee then _ else _ : Counting) c = _
  rw [if_pos hany]
  rfl

/-- A function that was not called before adds its score, unless that would become too large. -/
theorem addCall_of_notMem (h : callee ∉ c.calls.map Prod.fst) (score : Nat) :
    addCall callee score c
      = if c.score + score ≤ greatestScore then
          .ok () { c with score := c.score + score, calls := c.calls ++ [(callee, 1)] }
        else .error .complexityOverflow c := by
  have hany : ¬ (c.calls.any fun (name, _) => name = callee) = true := by simpa using h
  show (if c.calls.any fun (name, _) => name = callee then _ else _ : Counting) c = _
  rw [if_neg hany]
  exact addScore_modify c score fun c => { c with calls := c.calls ++ [(callee, 1)] }

variable {c' : Complexity} {cause : Cause}

/-- A branch is refused only because the score is full. The score is raised before the branch is
noted, so the counter is then as it was. -/
theorem eq_of_addBranch (h : addBranch c = .error cause c') :
    cause = .complexityOverflow ∧ c' = c := by
  rw [addBranch_eq] at h
  split at h
  · cases h
  · cases h
    exact ⟨rfl, rfl⟩

/-- A call is refused for the same reason, and then leaves the counter as it was, too. -/
theorem eq_of_addCall {score : Nat} (h : addCall callee score c = .error cause c') :
    cause = .complexityOverflow ∧ c' = c := by
  by_cases hmem : callee ∈ c.calls.map Prod.fst
  · rw [addCall_of_mem hmem] at h
    cases h
  · rw [addCall_of_notMem hmem] at h
    split at h
    · cases h
    · cases h
      exact ⟨rfl, rfl⟩

/-- Counting a call once more keeps the names. -/
theorem map_fst_recount (callee : String) (calls : List (String × Nat)) :
    (recount callee calls).map Prod.fst = calls.map Prod.fst := by
  fun_induction recount callee calls with
  | case1 => rfl
  | case2 => rfl
  | case3 name count rest hname ih => rw [List.map_cons, ih, List.map_cons]

/-- Where no function has two entries, changing the first one changes all of them. -/
theorem recount_eq_map {calls : List (String × Nat)} (h : (calls.map Prod.fst).Nodup) :
    recount callee calls
      = calls.map fun entry => (entry.1, if entry.1 = callee then entry.2 + 1 else entry.2) := by
  fun_induction recount callee calls with
  | case1 => rfl
  | case2 count rest =>
    obtain ⟨hnew, -⟩ := List.nodup_cons.mp h
    have hrest : ∀ entry ∈ rest,
        id entry = (entry.1, if entry.1 = callee then entry.2 + 1 else entry.2) := by
      intro entry hentry
      have hne : entry.1 ≠ callee := fun heq => hnew (List.mem_map.mpr ⟨entry, hentry, heq⟩)
      rw [if_neg hne]
      rfl
    rw [List.map_cons, if_pos rfl, ← List.map_congr_left hrest, List.map_id]
  | case3 name count rest hname ih =>
    rw [List.map_cons, ih (List.nodup_cons.mp h).2, if_neg hname]

/-! ### Reports -/

/-- The score, with the branches and calls that make it up. -/
def text (c : Complexity) : String :=
  let branches := if c.branches = 0 then [] else [s!"branch x {c.branches}"]
  let calls := c.calls.map fun (name, count) => s!"{name} x {count}"
  match branches ++ calls with
  | [] => toString c.score
  | parts => toString c.score ++ " (" ++ ", ".intercalate parts ++ ")"

/-- The line that reports the complexity of a function. -/
def report (c : Complexity) (name : String) : String :=
  s!"Cyclomatic complexity of {name}: {c.text}"

end Complexity

end ArrayScript
