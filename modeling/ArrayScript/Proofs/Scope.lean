import ArrayScript.Analysis.Function
import ArrayScript.Proofs.Analysis
import Mathlib.Data.List.Nodup
import Mathlib.Data.List.Range

/-!
# `ArrayScript.Proofs.Scope`: variables and their slots

Analysis hands out the slots of a frame one after the other, and it declares a name only when the
name has no meaning yet. So in every scope that analysis reaches, no two variables share a name and
no two share a slot: this is `Scope.WellFormed`. A draft only grows (`Draft.Grows`): a variable
keeps its slot and its type, and a result that is fixed stays fixed.

`steps_grows` carries both through a body, and `bindParams_ok` starts it: the parameters of a
function have its first slots, in their order.
-/

set_option autoImplicit false

namespace ArrayScript

open Code (Term Step)

/-! ### Scopes -/

/-- The slots of a scope count down from the newest variable, and no two variables share a
name. -/
structure Scope.WellFormed (s : Scope) : Prop where
  slots : s.entries.map Variable.slot = (List.range s.slots).reverse
  names : (s.entries.map Variable.name).Nodup

namespace Scope

variable {s s' : Scope} {v u : Variable} {name : String}

/-- A scope without variables is well-formed. -/
theorem wellFormed_empty : Scope.empty.WellFormed where
  slots := rfl
  names := List.nodup_nil

/-- A variable that is found has the name that was looked for. -/
theorem name_of_find? (h : s.find? name = some v) : v.name = name := by
  have hname := List.find?_some h
  simpa using hname

/-- A variable that is found is one of the scope. -/
theorem mem_of_find? (h : s.find? name = some v) : v ∈ s.entries :=
  List.mem_of_find?_eq_some h

/-- Nothing is found exactly when no variable has the name. -/
theorem find?_eq_none : s.find? name = none ↔ ∀ v ∈ s.entries, v.name ≠ name := by
  unfold find?
  simp

/-- A new name keeps a scope well-formed. -/
theorem WellFormed.declare (hs : s.WellFormed) (hname : s.find? name = none) (ty : Ty) :
    (s.declare (s.fresh name ty)).WellFormed where
  slots := by
    show s.slots :: s.entries.map Variable.slot = (List.range (s.entries.length + 1)).reverse
    rw [hs.slots, List.range_succ, List.reverse_append]
    rfl
  names := by
    show (name :: s.entries.map Variable.name).Nodup
    refine List.nodup_cons.mpr ⟨?_, hs.names⟩
    intro hmem
    obtain ⟨v, hv, hvn⟩ := List.mem_map.mp hmem
    exact find?_eq_none.mp hname v hv hvn

/-- In a well-formed scope every variable is found under its name. -/
theorem WellFormed.find?_name (hs : s.WellFormed) (hv : v ∈ s.entries) :
    s.find? v.name = some v := by
  cases hfound : s.find? v.name with
  | none => exact absurd rfl (find?_eq_none.mp hfound v hv)
  | some u =>
    have hname : u.name = v.name := name_of_find? hfound
    rw [List.inj_on_of_nodup_map hs.names (mem_of_find? hfound) hv hname]

/-- No two variables of a well-formed scope share a slot. -/
theorem WellFormed.slot_inj (hs : s.WellFormed) (hv : v ∈ s.entries) (hu : u ∈ s.entries)
    (h : v.slot = u.slot) : v = u := by
  have hnodup : (s.entries.map Variable.slot).Nodup := by
    rw [hs.slots]
    exact List.nodup_reverse.mpr List.nodup_range
  exact List.inj_on_of_nodup_map hnodup hv hu h

/-- The slots of a well-formed scope are those of its frame. -/
theorem WellFormed.slot_lt (hs : s.WellFormed) (hv : v ∈ s.entries) : v.slot < s.slots := by
  have hmem : v.slot ∈ s.entries.map Variable.slot := List.mem_map_of_mem hv
  rw [hs.slots, List.mem_reverse, List.mem_range] at hmem
  exact hmem

/-- Counted from the oldest variable, a variable stands at its slot. -/
theorem WellFormed.getElem?_reverse (hs : s.WellFormed) (hv : v ∈ s.entries) :
    s.entries.reverse[v.slot]? = some v := by
  obtain ⟨i, hi, rfl⟩ := List.getElem_of_mem (List.mem_reverse.mpr hv)
  have hslots : (s.entries.reverse.map Variable.slot) = List.range s.slots := by
    rw [List.map_reverse, hs.slots, List.reverse_reverse]
  -- From the oldest variable on, the slots are the numbers from zero on.
  have hslot : (s.entries.reverse[i]).slot = i := by
    have hget : (s.entries.reverse.map Variable.slot)[i]? = some (s.entries.reverse[i]).slot := by
      rw [List.getElem?_map, List.getElem?_eq_getElem hi]
      rfl
    have hi' : i < s.slots := by simpa [Scope.slots] using hi
    rw [hslots, List.getElem?_range hi'] at hget
    exact (Option.some.inj hget).symm
  rw [hslot, List.getElem?_eq_getElem hi]

end Scope

/-! ### Drafts -/

/-- What a later draft `d'` keeps of an earlier draft `d`. -/
structure Draft.Grows (d d' : Draft) : Prop where
  scope : d.scope.entries <:+ d'.scope.entries
  result : ∀ ty, d.result = some ty → d'.result = some ty

namespace Draft.Grows

variable {d d₁ d' : Draft}

/-- A draft keeps what it has. -/
theorem refl (d : Draft) : d.Grows d where
  scope := List.suffix_rfl
  result _ h := h

/-- Growth composes. -/
theorem trans (h : d.Grows d₁) (h' : d₁.Grows d') : d.Grows d' where
  scope := h.scope.trans h'.scope
  result ty hty := h'.result ty (h.result ty hty)

/-- A draft with the same variables and the same result has grown. -/
theorem of_keeps (h : d'.scope = d.scope ∧ d'.result = d.result) : d.Grows d' where
  scope := by simp only [h.1, List.suffix_rfl]
  result ty hty := by rw [h.2, hty]

end Draft.Grows

namespace Setting

variable {s : Setting}

/-- An expression keeps the scope well-formed. -/
theorem term_wellFormed {e : Expr} {d d' : Draft} {t : Term} (h : s.term e d = .ok (t, d'))
    (hd : d.scope.WellFormed) : d'.scope.WellFormed := by
  rw [(term_keeps e h).1]
  exact hd

/-- An assignment lets the draft grow, and keeps its scope well-formed. -/
theorem assign_grows {target : Target} {value : Expr} {d d' : Draft} {step : Step}
    (h : s.assign target value d = .ok (step, d')) (hd : d.scope.WellFormed) :
    d.Grows d' ∧ d'.scope.WellFormed := by
  obtain ⟨t, d₁, ht, hcases⟩ := assign_ok.mp h
  have hkeeps := term_keeps value ht
  have hd₁ := term_wellFormed ht hd
  rcases hcases with ⟨hnone, -, -, -, -, rfl⟩ | ⟨v, ts, -, -, hts, -, -, -⟩
  · have hgrows : d₁.Grows { d₁ with
        scope := d₁.scope.declare (d₁.scope.fresh target.name t.ty) } :=
      ⟨List.suffix_cons _ _, fun _ hty => hty⟩
    exact ⟨(Draft.Grows.of_keeps hkeeps).trans hgrows, hd₁.declare hnone t.ty⟩
  · have hkeeps' := terms_keeps target.indices hts
    refine ⟨(Draft.Grows.of_keeps hkeeps).trans (.of_keeps hkeeps'), ?_⟩
    rw [hkeeps'.1]
    exact hd₁

mutual

/-- A statement lets the draft grow, and keeps its scope well-formed. -/
theorem step_grows :
    ∀ (stmt : Stmt) {last : Bool} {d d' : Draft} {step : Step},
      s.step last stmt d = .ok (step, d') → d.scope.WellFormed →
      d.Grows d' ∧ d'.scope.WellFormed
  | .branch _ condition pass fail, last, d, d', step, h, hd => by
    obtain ⟨t, d₁, c, p, d₂, f, ht, -, -, hp, hf, -⟩ := step_branch_ok.mp h
    have hkeeps := term_keeps condition ht
    have hd₁ := term_wellFormed ht hd
    obtain ⟨hg₁, hd₂⟩ := steps_grows pass hp hd₁
    obtain ⟨hg₂, hd'⟩ := stepsOption_grows fail hf hd₂
    -- Counting the branch touches neither the scope nor the result.
    have hcount : d.Grows { d₁ with complexity := c } := Draft.Grows.of_keeps hkeeps
    exact ⟨(hcount.trans hg₁).trans hg₂, hd'⟩
  | .assign _ target value, last, d, d', step, h, hd => by
    rw [step_assign_ok] at h
    exact assign_grows h hd
  | .update _ op target value, last, d, d', step, h, hd => by
    rw [step_update_ok] at h
    exact assign_grows h hd
  | .ret _ value, last, d, d', step, h, hd => by
    obtain ⟨-, t, d₁, ht, -, hcases⟩ := step_ret_ok.mp h
    have hkeeps := term_keeps value ht
    have hd₁ := term_wellFormed ht hd
    rcases hcases with ⟨hnone, rfl⟩ | ⟨result, -, -, rfl⟩
    · -- A result is fixed only where there was none.
      refine ⟨⟨?_, fun ty hty => ?_⟩, hd₁⟩
      · exact (Draft.Grows.of_keeps hkeeps).scope
      · rw [← hkeeps.2, hnone] at hty
        cases hty
    · exact ⟨.of_keeps hkeeps, hd₁⟩

/-- Companion for a block. -/
theorem steps_grows :
    ∀ (block : List Stmt) {d d' : Draft} {steps : List Step},
      s.steps block d = .ok (steps, d') → d.scope.WellFormed →
      d.Grows d' ∧ d'.scope.WellFormed
  | [], d, d', steps, h, hd => by
    obtain ⟨-, rfl⟩ := steps_nil_ok.mp h
    exact ⟨.refl d', hd⟩
  | stmt :: rest, d, d', steps, h, hd => by
    obtain ⟨first, d₁, others, hfirst, hothers, -⟩ := steps_cons_ok.mp h
    obtain ⟨hg₁, hd₁⟩ := step_grows stmt hfirst hd
    obtain ⟨hg₂, hd'⟩ := steps_grows rest hothers hd₁
    exact ⟨hg₁.trans hg₂, hd'⟩

/-- Companion for a block that may be absent. -/
theorem stepsOption_grows :
    ∀ (block : Option (List Stmt)) {d d' : Draft} {steps : List Step},
      s.stepsOption block d = .ok (steps, d') → d.scope.WellFormed →
      d.Grows d' ∧ d'.scope.WellFormed
  | none, d, d', steps, h, hd => by
    obtain ⟨-, rfl⟩ := stepsOption_none_ok.mp h
    exact ⟨.refl d', hd⟩
  | some block, d, d', steps, h, hd => by
    rw [stepsOption_some] at h
    exact steps_grows block h hd

end

end Setting

/-! ### Parameters -/

namespace Analysis

/-- The variable of the parameter that stands at a slot. -/
def paramVariable (entry : Param × Nat) : Variable :=
  ⟨entry.1.name, .ofParam entry.1, entry.2⟩

/-- What reads only the parameter of such a variable can read the parameters themselves. -/
theorem map_paramVariable {α : Type} {g : Variable → α} {g' : Param → α}
    (h : ∀ entry, g (paramVariable entry) = g' entry.1) (params : List Param) (first : Nat) :
    ((params.zipIdx first).map paramVariable).map g = params.map g' := by
  conv_rhs => rw [← List.zipIdx_map_fst first params]
  rw [List.map_map, List.map_map]
  exact List.map_congr_left fun entry _ => h entry

/-- Without parameters nothing is bound. -/
theorem bindParams_nil_ok {d : Draft} {r : Unit × Draft} :
    bindParams [] d = .ok r ↔ r = ((), d) := by
  simp [bindParams]

/-- A parameter is bound when its name is free, and takes the next slot. -/
theorem bindParams_cons_ok {param : Param} {params : List Param} {d : Draft} {r : Unit × Draft} :
    bindParams (param :: params) d = .ok r ↔
      d.scope.find? param.name = none ∧
        bindParams params { d with
          scope := d.scope.declare (d.scope.fresh param.name (.ofParam param)) } = .ok r := by
  rw [bindParams, get_bind_ok]
  simp only [bind_ok, require_ok, declare_ok, Prod.mk.injEq, Option.isNone_iff_eq_none]
  constructor
  · rintro ⟨_, _, ⟨hnone, -, rfl⟩, _, _, ⟨-, rfl⟩, h⟩
    exact ⟨hnone, h⟩
  · rintro ⟨hnone, h⟩
    exact ⟨(), d, ⟨hnone, trivial, rfl⟩, _, _, ⟨rfl, rfl⟩, h⟩

/-- Parameters cannot be bound when one of them has the name of another. -/
theorem bindParams_error :
    ∀ (params : List Param) {d : Draft} {fault : Fault}, bindParams params d = .error fault →
      ∃ param ∈ params, fault = ⟨.parameterRedeclared param.name, param.span.start⟩
  | [], d, fault, h => (pure_error.mp h).elim
  | param :: params, d, fault, h => by
    rw [bindParams, get_bind_error] at h
    simp only [bind_error, require_error, declare_error, false_or] at h
    rcases h with ⟨-, rfl⟩ | ⟨_, _, -, _, d₁, -, hrest⟩
    · exact ⟨param, List.mem_cons_self, rfl⟩
    · obtain ⟨other, hother, hfault⟩ := bindParams_error params hrest
      exact ⟨other, List.mem_cons_of_mem _ hother, hfault⟩

/-- The parameters take the next slots, in their order, and nothing else changes. -/
theorem bindParams_ok :
    ∀ (params : List Param) {d d' : Draft}, bindParams params d = .ok ((), d') →
      d.scope.WellFormed →
      d'.scope.WellFormed ∧ d'.result = d.result ∧ d'.complexity = d.complexity ∧
        d'.scope.entries.reverse
          = d.scope.entries.reverse ++ (params.zipIdx d.scope.slots).map paramVariable
  | [], d, d', h, hd => by
    obtain ⟨-, rfl⟩ := Prod.mk.inj (bindParams_nil_ok.mp h)
    exact ⟨hd, rfl, rfl, by simp⟩
  | param :: params, d, d', h, hd => by
    obtain ⟨hnone, h⟩ := bindParams_cons_ok.mp h
    obtain ⟨hd', hr, hc, hentries⟩ := bindParams_ok params h (hd.declare hnone _)
    refine ⟨hd', hr, hc, ?_⟩
    rw [hentries]
    simp [Scope.declare, Scope.fresh, Scope.slots, paramVariable, List.zipIdx_cons]

end Analysis

end ArrayScript
