import Mathlib.Algebra.GroupWithZero.Nat
import ArrayScript.Proofs.Tally

/-!
# `ArrayScript.Proofs.Counter`: a counter and its history

A counter can be asked to count branches and calls in any order, with any names and scores. It
refuses what would make the score too large and can be asked again afterwards. This module relates
the counter to all that has happened to it, refusals included.

`Complexity.log` plays a list of events and keeps a record of those that were not refused. The
record alone says what the counter has to hold:

* `Event.firsts` are the first calls of each callee, in their order, with the scores they came with.
* `Event.total` is the exact score: one, one for each branch, and the scores of the first calls.

`Complexity.Records` ties a counter to a record. One event keeps it or is refused, and which of the
two is decided by the exact score alone (`Records.follows`). By induction it holds after every list
of events (`records_log`), and `Complexity.log_exact` reads everything else off it.
-/

set_option autoImplicit false

namespace ArrayScript.Complexity

/-- What a counter can be asked to count. A call comes with the score of its callee. -/
inductive Event where
  | branch
  | call (callee : String) (score : Nat)
deriving DecidableEq, Repr

namespace Event

/-- The operation that an event asks for. -/
def apply : Event → Counting
  | branch => addBranch
  | call callee score => addCall callee score

/-- Whether an event is a branch. -/
def isBranch : Event → Bool
  | branch => true
  | call _ _ => false

/-- Whether an event is a call of a given function. -/
def calls (name : String) : Event → Bool
  | branch => false
  | call callee _ => callee == name

/-! ### What a record says -/

/-- The first call of each function, with the score that it came with. -/
def firsts : List Event → List (String × Nat)
  | [] => []
  | branch :: rest => firsts rest
  | call callee score :: rest =>
    (callee, score) :: (firsts rest).filter fun entry => entry.1 ≠ callee

/-- The exact score of a record. -/
def total (done : List Event) : Nat :=
  1 + done.countP isBranch + ((firsts done).map Prod.snd).sum

/-- What an event adds to the exact score. A function that was called before adds nothing. -/
def adds (done : List Event) : Event → Nat
  | branch => 1
  | call callee score => if done.any (calls callee) then 0 else score

/-- The first call that an event is, if it is one. -/
def first? (done : List Event) : Event → Option (String × Nat)
  | branch => none
  | call callee score => if done.any (calls callee) then none else some (callee, score)

/-- One more event adds its own call to the first calls, if it is the first of its callee.

The recursion of `firsts` goes from the front and the event stands at the end, so this needs an
induction: a call in front removes the event exactly when it has the same callee. -/
theorem firsts_concat (event : Event) :
    ∀ done : List Event, firsts (done ++ [event]) = firsts done ++ (event.first? done).toList := by
  intro done
  induction done with
  | nil => cases event <;> rfl
  | cons head rest ih =>
    cases head with
    | branch =>
      show firsts (rest ++ [event]) = firsts rest ++ _
      rw [ih]
      cases event <;> simp [first?, calls]
    | call callee score =>
      show (callee, score) :: (firsts (rest ++ [event])).filter _ = (callee, score) :: _ ++ _
      rw [ih, List.filter_append, List.cons_append]
      congr 2
      cases event with
      | branch => rfl
      | call name amount =>
        by_cases hname : callee = name
        · -- The call in front is one of the same callee.
          by_cases hrest : rest.any (calls name) = true <;> simp [first?, calls, hname, hrest]
        · have hne : ¬ name = callee := fun h => hname h.symm
          by_cases hrest : rest.any (calls name) = true <;>
            simp [first?, calls, hname, hne, hrest]

/-- A function has a first call exactly when it has a call. -/
theorem mem_firsts {name : String} :
    ∀ {done : List Event}, name ∈ (firsts done).map Prod.fst ↔ done.any (calls name) = true := by
  intro done
  induction done using List.reverseRecOn with
  | nil => simp [firsts]
  | append_singleton done event ih =>
    rw [firsts_concat, List.map_append, List.mem_append, ih, List.any_append, Bool.or_eq_true]
    refine or_congr_right' fun hold => ?_
    cases event with
    | branch => simp [first?, calls]
    | call callee score =>
      by_cases hany : done.any (calls callee) = true
      · -- The callee was called before, so it is not the name.
        have hne : callee ≠ name := by
          rintro rfl
          exact hold hany
        simp [first?, calls, hany, hne]
      · simp only [first?, if_neg hany, Option.toList_some, List.map_cons, List.map_nil,
          List.mem_singleton, List.any_cons, List.any_nil, Bool.or_false, calls, beq_iff_eq]
        exact eq_comm

/-- A function without a first call has no call at all. -/
theorem countP_calls_of_notMem {name : String} {done : List Event}
    (h : name ∉ (firsts done).map Prod.fst) : done.countP (calls name) = 0 := by
  rw [List.countP_eq_zero]
  intro event hevent hcalls
  exact h (mem_firsts.mpr (List.any_eq_true.mpr ⟨event, hevent, hcalls⟩))

/-- No function has two first calls. -/
theorem nodup_firsts (done : List Event) : ((firsts done).map Prod.fst).Nodup := by
  induction done using List.reverseRecOn with
  | nil => exact List.nodup_nil
  | append_singleton done event ih =>
    rw [firsts_concat, List.map_append]
    cases event with
    | branch => simpa [first?] using ih
    | call callee score =>
      by_cases hany : done.any (calls callee) = true
      · simpa [first?, hany] using ih
      · -- A new first call has a name that was not there.
        have hnew : callee ∉ (firsts done).map Prod.fst := fun hmem => hany (mem_firsts.mp hmem)
        have hdisjoint : ∀ a ∈ (firsts done).map Prod.fst, a ≠ callee := by
          rintro a ha rfl
          exact hnew ha
        simp only [first?, if_neg hany, Option.toList_some, List.map_cons, List.map_nil]
        rw [List.nodup_append]
        exact ⟨ih, List.nodup_singleton callee, by simpa using hdisjoint⟩

/-- One more event raises the exact score by what it adds. -/
theorem total_concat (done : List Event) (event : Event) :
    total (done ++ [event]) = total done + event.adds done := by
  unfold total
  rw [firsts_concat, List.countP_append]
  cases event with
  | branch =>
    simp [first?, adds, isBranch]
    omega
  | call callee score =>
    by_cases hany : done.any (calls callee) = true <;> simp [first?, adds, isBranch, hany]
    omega

end Event

/-! ### Playing events -/

/-- One event: the counter and the record behind it. The counter is the one that the operation hands
back, also when it refuses the event; only the record leaves that event out. -/
def logOne (log : Complexity × List Event) (event : Event) : Complexity × List Event :=
  match event.apply log.1 with
  | .ok _ c => (c, log.2 ++ [event])
  | .error _ c => (c, log.2)

/-- A new counter after a list of events, and the record of the events that were not refused. -/
def log (events : List Event) : Complexity × List Event :=
  events.foldl logOne (start, [])

/-- The last event meets what the others have left. -/
theorem log_concat (events : List Event) (event : Event) :
    log (events ++ [event]) = logOne (log events) event := by
  simp [log]

/-- An event that is not refused changes the counter and goes on record. -/
theorem logOne_of_ok {c c' : Complexity} {done : List Event} {event : Event}
    (h : event.apply c = .ok () c') : logOne (c, done) event = (c', done ++ [event]) := by
  simp [logOne, h]

/-- An event that is refused is not recorded. What the counter is then is for its operations to
say. -/
theorem logOne_of_error {c c' : Complexity} {done : List Event} {event : Event} {cause : Cause}
    (h : event.apply c = .error cause c') : logOne (c, done) event = (c', done) := by
  simp [logOne, h]

/-- A record is not longer than what was played. -/
theorem length_log_le (events : List Event) : (log events).2.length ≤ events.length := by
  induction events using List.reverseRecOn with
  | nil => exact Nat.le_refl 0
  | append_singleton events event ih =>
    rw [log_concat, List.length_append, List.length_singleton]
    cases h : event.apply (log events).1 with
    | ok _ c => simp [logOne, h, ih]
    | error cause c =>
      simp only [logOne, h]
      omega

/-- What is found in a list that counts something for each of its names. -/
theorem lookup_counts (count : String → Nat) (name : String) (entries : List (String × Nat)) :
    (entries.map fun entry => (entry.1, count entry.1)).lookup name
      = if name ∈ entries.map Prod.fst then some (count name) else none := by
  induction entries with
  | nil => rfl
  | cons entry entries ih =>
    rw [List.map_cons, List.map_cons, List.lookup_cons, ih]
    by_cases hname : name = entry.1
    · subst hname
      simp
    · have hbeq : (name == entry.1) = false := beq_false_of_ne hname
      simp only [hbeq, List.mem_cons, hname, false_or]

/-! ### A counter and its record -/

/-- Whether a counter holds what a record says: the branches, the calls of each function in the
order of their first calls, and the exact score, which is within the limit. -/
structure Records (done : List Event) (c : Complexity) : Prop where
  branches : c.branches = done.countP Event.isBranch
  calls : c.calls
    = (Event.firsts done).map fun entry => (entry.1, done.countP (Event.calls entry.1))
  score : c.score = Event.total done
  le_greatest : c.score ≤ greatestScore

/-- What can come of one more event on the counter `c`: the counter behind it holds what the longer
record says, or the exact score of that would be too large and the counter is still `c`. -/
def Follows (done : List Event) (event : Event) (c : Complexity) :
    EStateM.Result Cause Complexity Unit → Prop
  | .ok _ c' => Records (done ++ [event]) c'
  | .error cause c' => cause = .complexityOverflow ∧ c' = c ∧
      greatestScore < Event.total done + event.adds done

namespace Records

variable {done : List Event} {c : Complexity}

/-- The names in a counter are those of the first calls, in their order. -/
theorem names_eq (h : Records done c) :
    c.calls.map Prod.fst = (Event.firsts done).map Prod.fst := by
  rw [h.calls, List.map_map]
  rfl

/-- A counter has an entry for each function that was called. -/
theorem mem_names (h : Records done c) {name : String} :
    name ∈ c.calls.map Prod.fst ↔ done.any (Event.calls name) = true := by
  rw [h.names_eq, Event.mem_firsts]

/-- No name stands twice in a counter. -/
theorem nodup_names (h : Records done c) : (c.calls.map Prod.fst).Nodup := by
  rw [h.names_eq]
  exact Event.nodup_firsts done

/-- What is counted for a function is how often it was called. -/
theorem callCount_eq (h : Records done c) (name : String) :
    c.callCount name = done.countP (Event.calls name) := by
  rw [callCount, h.calls, lookup_counts fun callee => done.countP (Event.calls callee)]
  by_cases hmem : name ∈ (Event.firsts done).map Prod.fst
  · rw [if_pos hmem]
    rfl
  · rw [if_neg hmem, Option.getD_none, Event.countP_calls_of_notMem hmem]

/-- One more branch is counted, unless the exact score gets too large. -/
theorem branch (h : Records done c) : Follows done .branch c (addBranch c) := by
  rw [addBranch_eq]
  by_cases hle : c.score + 1 ≤ greatestScore
  · rw [if_pos hle]
    refine ⟨?_, ?_, ?_, hle⟩
    · show c.branches + 1 = _
      rw [h.branches, List.countP_append]
      rfl
    · show c.calls = _
      rw [h.calls, Event.firsts_concat]
      simp [Event.first?, Event.calls]
    · show c.score + 1 = _
      rw [h.score, Event.total_concat]
      rfl
  · rw [if_neg hle]
    refine ⟨rfl, rfl, ?_⟩
    rw [← h.score]
    show greatestScore < c.score + 1
    omega

/-- The first call of a function adds an entry and the score that it comes with, unless the exact
score gets too large. -/
theorem firstCall (h : Records done c) {callee : String}
    (hnew : ¬ done.any (Event.calls callee) = true) (score : Nat) :
    Follows done (.call callee score) c (addCall callee score c) := by
  have hadds : Event.adds done (.call callee score) = score := if_neg hnew
  have hnotFirst : callee ∉ (Event.firsts done).map Prod.fst :=
    fun hmem => hnew (Event.mem_firsts.mp hmem)
  rw [addCall_of_notMem (h.names_eq ▸ hnotFirst)]
  by_cases hle : c.score + score ≤ greatestScore
  · rw [if_pos hle]
    refine ⟨?_, ?_, ?_, hle⟩
    · show c.branches = _
      rw [h.branches, List.countP_append]
      rfl
    · show c.calls ++ [(callee, 1)] = _
      -- The entries that are there belong to other functions, and the new one has one call.
      have hold : ∀ entry ∈ Event.firsts done,
          (entry.1, done.countP (Event.calls entry.1))
            = (entry.1, (done ++ [Event.call callee score]).countP (Event.calls entry.1)) := by
        intro entry hentry
        have hne : callee ≠ entry.1 := by
          intro heq
          rw [heq] at hnotFirst
          exact hnotFirst (List.mem_map_of_mem hentry)
        simp [Event.calls, hne]
      have hnone := Event.countP_calls_of_notMem hnotFirst
      rw [h.calls, Event.firsts_concat, List.map_append, List.map_congr_left hold]
      simp [Event.first?, hnew, Event.calls, hnone]
    · show c.score + score = _
      rw [h.score, Event.total_concat, hadds]
  · rw [if_neg hle]
    refine ⟨rfl, rfl, ?_⟩
    rw [hadds, ← h.score]
    omega

/-- A function that was called before is counted once more. Its score is not looked at. -/
theorem nextCall (h : Records done c) {callee : String}
    (hold : done.any (Event.calls callee) = true) (score : Nat) :
    Records (done ++ [.call callee score]) { c with calls := recount callee c.calls } where
  branches := by
    rw [h.branches, List.countP_append]
    rfl
  calls := by
    show recount callee c.calls = _
    -- The names are distinct, so one entry is changed and it is the one of the callee.
    rw [recount_eq_map h.nodup_names, h.calls, Event.firsts_concat, List.map_map]
    simp only [Event.first?, hold, if_true, Option.toList_none, List.append_nil]
    refine List.map_congr_left fun entry _ => ?_
    by_cases hname : entry.1 = callee
    · simp [Event.calls, hname]
    · have hne : ¬ callee = entry.1 := fun heq => hname heq.symm
      simp [Event.calls, hname, hne]
  score := by
    show c.score = _
    rw [h.score, Event.total_concat, Event.adds, if_pos hold, Nat.add_zero]
  le_greatest := h.le_greatest

/-- One more event is counted, or its score would be too much. This is the step from which every
statement about a history follows. -/
theorem follows (h : Records done c) (event : Event) : Follows done event c (event.apply c) := by
  cases event with
  | branch => exact h.branch
  | call callee score =>
    by_cases hold : done.any (Event.calls callee) = true
    · show Follows done _ c (addCall callee score c)
      rw [addCall_of_mem (h.mem_names.mpr hold)]
      exact h.nextCall hold score
    · exact h.firstCall hold score

/-- A counter refuses an event exactly when the score that it adds is too much. -/
theorem refuses_iff (h : Records done c) (event : Event) :
    event.apply c = .error .complexityOverflow c ↔
      greatestScore < c.score + event.adds done := by
  have hfollows := h.follows event
  cases happly : event.apply c with
  | ok _ c' =>
    -- The longer record has a score within the limit, and that is the sum.
    rw [happly] at hfollows
    have hsum : c'.score = c.score + event.adds done := by
      rw [hfollows.score, Event.total_concat, h.score]
    have hle := hfollows.le_greatest
    constructor
    · intro herror
      cases herror
    · intro hlt
      omega
  | error cause c' =>
    rw [happly] at hfollows
    obtain ⟨rfl, rfl, hlt⟩ := hfollows
    rw [← h.score] at hlt
    exact ⟨fun _ => hlt, fun _ => rfl⟩

end Records

/-- A new counter has an empty record. -/
theorem records_start : Records [] start where
  branches := rfl
  calls := rfl
  score := rfl
  le_greatest := by decide

/-- After every list of events the counter holds what the record says. -/
theorem records_log (events : List Event) : Records (log events).2 (log events).1 := by
  induction events using List.reverseRecOn with
  | nil => exact records_start
  | append_singleton events event ih =>
    have hfollows := ih.follows event
    rw [log_concat]
    cases happly : event.apply (log events).1 with
    | ok _ c =>
      rw [happly] at hfollows
      rw [logOne_of_ok happly]
      exact hfollows
    | error cause c =>
      -- The counter that comes back is the one that was there.
      rw [happly] at hfollows
      rw [logOne_of_error happly, hfollows.2.1]
      exact ih

/-- What a counter holds after any events, with refusals among them. Let `done` be the events that
were not refused.

* The callees are distinct and stand in the order of their first calls in `done`.
* Calls and branches are counted as often as they occur in `done`, so that no count exceeds the
  number of events.
* The score is exact: one, the branches, and the scores that the first calls came with.
* One more event is refused exactly when what it adds makes the score exceed the limit. A branch
  adds one, a first call its score, and a call of a function that was called before adds nothing and
  is never refused. There is no other reason to refuse an event, and an operation that refuses one
  hands back the counter that it was given, with its score, branches and calls. -/
theorem log_exact (events done : List Event) (c : Complexity) (hlog : log events = (c, done)) :
    (c.calls.map Prod.fst).Nodup ∧
    c.calls.map Prod.fst = (Event.firsts done).map Prod.fst ∧
    (∀ name, c.callCount name = done.countP (Event.calls name) ∧
      c.callCount name ≤ events.length) ∧
    (c.branches = done.countP Event.isBranch ∧ c.branches ≤ events.length) ∧
    c.score = 1 + c.branches + ((Event.firsts done).map Prod.snd).sum ∧
    (∀ event, (event.apply c = .error .complexityOverflow c ↔
        greatestScore < c.score + event.adds done) ∧
      (∀ cause c', event.apply c = .error cause c' →
        cause = .complexityOverflow ∧ c' = c ∧ log (events ++ [event]) = (c, done)) ∧
      ∀ c', event.apply c = .ok () c' → log (events ++ [event]) = (c', done ++ [event])) ∧
    ∀ name score, name ∈ c.calls.map Prod.fst →
      ∃ c', (Event.call name score).apply c = .ok () c' := by
  -- All but the bounds and the log is what it means that the counter records the events.
  have h : Records done c := by
    have hrecords := records_log events
    rw [hlog] at hrecords
    exact hrecords
  have hlength : done.length ≤ events.length := by
    have hle := length_log_le events
    rw [hlog] at hle
    exact hle
  refine ⟨h.nodup_names, h.names_eq, ?_, ⟨h.branches, ?_⟩, ?_, ?_, ?_⟩
  · intro name
    refine ⟨h.callCount_eq name, ?_⟩
    rw [h.callCount_eq name]
    exact Nat.le_trans List.countP_le_length hlength
  · rw [h.branches]
    exact Nat.le_trans List.countP_le_length hlength
  · rw [h.branches]
    exact h.score
  · intro event
    refine ⟨h.refuses_iff event, ?_, ?_⟩
    · intro cause c' herror
      have hfollows := h.follows event
      rw [herror] at hfollows
      -- A refused event leaves the counter as it was, so the log goes on as if it had not been.
      obtain ⟨rfl, rfl, -⟩ := hfollows
      refine ⟨rfl, rfl, ?_⟩
      rw [log_concat, hlog]
      exact logOne_of_error herror
    · intro c' hok
      rw [log_concat, hlog]
      exact logOne_of_ok hok
  · intro name score hmem
    exact ⟨_, addCall_of_mem hmem score⟩

/-- A history that comes to the limit, is refused twice there, and goes on with what adds nothing:
the refused branch and the refused first call have left no trace. -/
theorem log_exact_at_limit :
    ∃ c done,
      log [.branch, .call "f" (greatestScore - 2), .branch, .call "g" 1, .call "f" 7, .call "g" 0,
          .call "f" greatestScore] = (c, done) ∧
      done = [.branch, .call "f" (greatestScore - 2), .call "f" 7, .call "g" 0,
        .call "f" greatestScore] ∧
      c = ⟨greatestScore, 1, [("f", 3), ("g", 1)]⟩ ∧
      c.score = 1 + c.branches + ((Event.firsts done).map Prod.snd).sum ∧
      Event.branch.apply c = .error .complexityOverflow c ∧
      (∃ c', (Event.call "f" 5).apply c = .ok () c') := by
  refine ⟨_, _, rfl, by decide, by decide, ?_⟩
  have hexact := log_exact _ _ _ (rfl : log [.branch, .call "f" (greatestScore - 2), .branch,
    .call "g" 1, .call "f" 7, .call "g" 0, .call "f" greatestScore] = _)
  exact ⟨hexact.2.2.2.2.1, (hexact.2.2.2.2.2.1 .branch).1.mpr (by decide),
    hexact.2.2.2.2.2.2 "f" 5 (by decide)⟩

end ArrayScript.Complexity
