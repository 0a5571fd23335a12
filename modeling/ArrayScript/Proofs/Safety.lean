import ArrayScript.Proofs.Depth
import ArrayScript.Proofs.World
import ArrayScript.Run.Call

/-!
# `ArrayScript.Proofs.Safety`: sound code runs safely

A run that starts in a world ends in a world that has grown from it, whether it succeeds or fails,
and it fails only for a cause that depends on the values at hand (`Cause.dynamic`). `Run.Safe` says
this of a computation on the heap, `Code.Execution.Safe` of one that also assigns variables; both
carry a condition on what a success results in, and both compose along `>>=`. `Settles` says the
same of the operations on numbers and the heap that a run attempts.

Soundness of code (`ArrayScript.Proofs.Depth`) is what makes its runs safe:

* `safe_eval`: a term of depth `k` evaluates to values of depth `k`,
* `safe_exec`: a sound step keeps the depths of the frame,
* `safe_call`: a function called with arguments as deep as its parameters results in a value as
  deep as its result, by induction on the number of frames that may still be opened.

`Code.assigned_lt` adds what a run could not show, because an assignment outside the frame has no
effect: there is none.
-/

set_option autoImplicit false

namespace ArrayScript

/-- Whether a cause depends on the values that a run meets: an index or a size that is not a whole
number or out of bounds, a variable that the path taken has not assigned, and calls that nest too
deeply. No analysis of types can rule these out. -/
def Cause.dynamic : Cause → Bool
  | indexOutOfBounds .. | invalidIndex _ | invalidDimension _ | uninitialized _
  | callDepthExceeded .. => true
  | _ => false

/-- Whether an operation succeeds with a result that satisfies `post`, or fails for a cause that
depends on values. -/
def Settles {α : Type} (post : α → Prop) : Except Cause α → Prop
  | .ok a => post a
  | .error cause => cause.dynamic = true

/-- Operations that settle compose. -/
theorem Settles.bind {α β : Type} {post : α → Prop} {goal : β → Prop} {r : Except Cause α}
    {k : α → Except Cause β} (hr : Settles post r) (hk : ∀ a, post a → Settles goal (k a)) :
    Settles goal (r >>= k) := by
  cases r with
  | ok a => exact hk a hr
  | error cause => exact hr

/-! ### Safe computations -/

/-- Whether a computation that started in the world `w` has ended well: in a world that has grown
from `w`, with a result that satisfies `post` or an error that depends on values. States hold a
heap, among other things. -/
def World.Ends {σ α : Type} (w : World) (heap : σ → Heap) (post : World → σ → α → Prop) :
    EStateM.Result Error σ α → Prop
  | .ok a state => ∃ w', w.Grows w' ∧ w'.heap = heap state ∧ post w' state a
  | .error e state => ∃ w', w.Grows w' ∧ w'.heap = heap state ∧ e.cause.dynamic = true

namespace World.Ends

variable {σ α β : Type} {w w' : World} {heap : σ → Heap} {post : World → σ → α → Prop}
  {goal : World → σ → β → Prop}

/-- What has ended well from a later world has ended well from an earlier one. -/
theorem of_grows {r : EStateM.Result Error σ α} (hgrows : w.Grows w')
    (h : w'.Ends heap post r) : w.Ends heap post r := by
  cases r with
  | ok a state =>
    obtain ⟨w₁, hgrows₁, hheap, hpost⟩ := h
    exact ⟨w₁, hgrows.trans hgrows₁, hheap, hpost⟩
  | error e state =>
    obtain ⟨w₁, hgrows₁, hheap, hdynamic⟩ := h
    exact ⟨w₁, hgrows.trans hgrows₁, hheap, hdynamic⟩

/-- A computation in two parts ends well if the second one does from wherever the first can end. -/
theorem bind {m : EStateM Error σ α} {k : α → EStateM Error σ β} {state : σ}
    (hm : w.Ends heap post (m state))
    (hk : ∀ w' a state', w.Grows w' → w'.heap = heap state' → post w' state' a →
      w'.Ends heap goal (k a state')) : w.Ends heap goal ((m >>= k) state) := by
  show w.Ends heap goal (EStateM.bind m k state)
  unfold EStateM.bind
  cases hr : m state with
  | ok a state' =>
    rw [hr] at hm
    obtain ⟨w', hgrows, hheap, hpost⟩ := hm
    exact (hk w' a state' hgrows hheap hpost).of_grows hgrows
  | error e state' =>
    rw [hr] at hm
    exact hm

/-- A condition on the result can be weakened. -/
theorem mono {other : World → σ → α → Prop} {r : EStateM.Result Error σ α}
    (h : w.Ends heap post r) (himp : ∀ w' state a, post w' state a → other w' state a) :
    w.Ends heap other r := by
  cases r with
  | ok a state =>
    obtain ⟨w', hgrows, hheap, hpost⟩ := h
    exact ⟨w', hgrows, hheap, himp w' state a hpost⟩
  | error e state => exact h

end World.Ends

/-- Whether a computation on the heap of a world ends well, and its result satisfies `post`. -/
def Run.Safe {α : Type} (w : World) (m : Run α) (post : World → α → Prop) : Prop :=
  w.Ends id (fun w' _ a => post w' a) (m w.heap)

namespace Run.Safe

variable {α β : Type} {w : World} {post : World → α → Prop} {goal : World → β → Prop}

/-- Giving a value is safe. -/
theorem pure {a : α} (h : post w a) : Safe w (Pure.pure a) post :=
  ⟨w, .refl w, rfl, h⟩

/-- Failing is safe where the cause depends on values. -/
theorem throw {e : Error} (h : e.cause.dynamic = true) : Safe w (MonadExcept.throw e) post :=
  ⟨w, .refl w, rfl, h⟩

/-- Safe computations compose. -/
theorem bind {m : Run α} {k : α → Run β} (hm : Safe w m post)
    (hk : ∀ w' a, w.Grows w' → post w' a → Safe w' (k a) goal) : Safe w (m >>= k) goal := by
  refine World.Ends.bind hm ?_
  rintro w' a heap hgrows rfl hpost
  exact hk w' a hgrows hpost

/-- A computation that first reads the heap sees that of the world. -/
theorem get_bind {k : Heap → Run β} (hk : Safe w (k w.heap) goal) : Safe w (get >>= k) goal :=
  hk

/-- An operation that may fail is safe if it settles. -/
theorem attempt {site : Site} {offset : Nat} {r : Except Cause α} (h : Settles (post w) r) :
    Safe w (site.attempt offset r) post := by
  cases r with
  | ok a => exact pure h
  | error cause => exact throw h

/-- Taking a value of depth zero as a number is safe. -/
theorem toNumber {site : Site} {offset : Nat} {v : Value} (hv : w.HasDepth v 0) :
    Safe w (site.attempt offset v.toNumber) fun _ _ => True := by
  obtain ⟨x, rfl⟩ := hv.exists_number
  exact pure trivial

end Run.Safe

/-! ### Operations on the heap -/

/-- A number is an index, or fails as one for a cause that depends on it. -/
theorem Number.settles_toIndex (x : Float) (length : Nat) :
    Settles (fun _ => True) (toIndex x length) := by
  unfold toIndex
  split
  · exact rfl
  · split
    · exact trivial
    · exact rfl

/-- A number is a size, or fails as one for a cause that depends on it. -/
theorem Number.settles_toSize (x : Float) : Settles (fun _ => True) (toSize x) := by
  unfold toSize
  split
  · exact rfl
  · exact trivial

namespace World

variable {w : World} {v : Value} {k : Nat}

/-- An array has an element that is one less deep, unless the index does not fit. -/
theorem settles_element (hv : w.HasDepth v (k + 1)) (x : Float) :
    Settles (fun u => w.HasDepth u k) (w.heap.element v x) := by
  obtain ⟨ref, items, rfl, hitems⟩ := hv.exists_array
  simp only [Heap.element, Heap.items?, hitems]
  refine (Number.settles_toIndex x items.size).bind fun i _ => ?_
  exact hv.elements hitems items[i] (Array.getElem_mem i.isLt)

/-- A path leads to a value that is less deep by its length, unless an index does not fit. -/
theorem settles_walk :
    ∀ (path : List Float) {v : Value}, w.HasDepth v (k + path.length) →
      Settles (fun u => w.HasDepth u k) (w.heap.walk v path)
  | [], v, hv => hv
  | x :: path, v, hv => by
    simp only [Heap.walk, List.foldlM_cons]
    exact (settles_element hv x).bind fun next hnext => settles_walk path hnext

/-- An array has a cell, and then a depth of its own, unless the index does not fit. -/
theorem settles_cell (hv : w.HasDepth v (k + 1)) (x : Float) :
    Settles (fun cell => w.depth cell.ref = k + 1) (w.heap.cell v x) := by
  obtain ⟨ref, items, rfl, hitems⟩ := hv.exists_array
  simp only [Heap.cell, hitems]
  exact (Number.settles_toIndex x items.size).bind fun i _ => hv.depth_eq hitems i

end World

/-- Values as deep as a list of depths asks for. -/
def World.HaveDepths (w : World) (values : List Value) (depths : List Nat) : Prop :=
  List.Forall₂ w.HasDepth values depths

/-- Where all depths are the same, every value has that depth. -/
theorem World.HaveDepths.forall_mem {w : World} {values : List Value} {depths : List Nat} {k : Nat}
    (h : w.HaveDepths values depths) (hk : ∀ j ∈ depths, j = k) : ∀ v ∈ values, w.HasDepth v k := by
  induction h with
  | nil => simp
  | cons hv _ ih =>
    obtain ⟨rfl, hks⟩ := List.forall_mem_cons.mp hk
    exact List.forall_mem_cons.mpr ⟨hv, ih hks⟩

/-- Whether a value is of the kind that a depth asks for: a number if it is zero, and an array
otherwise. -/
def Heap.HasKind (h : Heap) (v : Value) : (depth : Nat) → Prop
  | 0 => ∃ x, v = .number x
  | _ + 1 => ∃ items, h.items? v = some items

/-- A value that has a depth is of its kind. -/
theorem World.HasDepth.hasKind {w : World} {v : Value} {k : Nat} (h : w.HasDepth v k) :
    w.heap.HasKind v k := by
  cases k with
  | zero => exact h.exists_number
  | succ k =>
    obtain ⟨ref, items, rfl, hitems⟩ := h.exists_array
    exact ⟨items, hitems⟩

namespace Builtin

variable {b : Builtin} {h : Heap}

/-- Joining numbers from left to right does not fail. -/
theorem exists_foldlM {f : Float → Float → Float} :
    ∀ {values : List Value} {depths : List Nat} (x : Float), List.Forall₂ h.HasKind values depths →
      (∀ k ∈ depths, k = 0) →
      ∃ y, values.foldlM (fun x v => do return f x (← v.toNumber)) x
        = (.ok y : Except Cause Float)
  | [], _, x, _, _ => ⟨x, rfl⟩
  | v :: values, k :: depths, x, .cons hv hvalues, hzero => by
    obtain ⟨rfl, hzeros⟩ := List.forall_mem_cons.mp hzero
    obtain ⟨y, rfl⟩ := hv
    exact exists_foldlM (f x y) hvalues hzeros

/-- A builtin does not fail on arguments of the kinds that it takes. -/
theorem exists_apply {depths : List Nat} {values : List Value} (hb : b.Takes depths)
    (hvalues : List.Forall₂ h.HasKind values depths) : ∃ x, b.apply h values = .ok x := by
  unfold Takes at hb
  unfold apply
  -- The depths that a builtin takes determine how many arguments there are, so that each argument
  -- it asks for is there.
  cases hform : b.form with
  | unary f =>
    rw [hform] at hb
    obtain rfl : depths = [0] := hb
    obtain ⟨v, _, ⟨x, rfl⟩, hnil, rfl⟩ := List.forall₂_cons_right_iff.mp hvalues
    obtain rfl := List.forall₂_nil_right_iff.mp hnil
    exact ⟨f x, rfl⟩
  | binary f =>
    rw [hform] at hb
    obtain rfl : depths = [0, 0] := hb
    obtain ⟨v, _, ⟨x, rfl⟩, htail, rfl⟩ := List.forall₂_cons_right_iff.mp hvalues
    obtain ⟨u, _, ⟨y, rfl⟩, hnil, rfl⟩ := List.forall₂_cons_right_iff.mp htail
    obtain rfl := List.forall₂_nil_right_iff.mp hnil
    exact ⟨f x y, rfl⟩
  | fold f =>
    rw [hform] at hb
    obtain ⟨hne, hzero⟩ := hb
    obtain ⟨k, ks, rfl⟩ := List.exists_cons_of_ne_nil hne
    obtain ⟨v, rest, hv, hrest, rfl⟩ := List.forall₂_cons_right_iff.mp hvalues
    obtain ⟨rfl, hzeros⟩ := List.forall_mem_cons.mp hzero
    obtain ⟨x, rfl⟩ := hv
    exact exists_foldlM x hrest hzeros
  | size =>
    rw [hform] at hb
    obtain ⟨k, rfl⟩ := hb
    obtain ⟨v, _, ⟨items, hitems⟩, hnil, rfl⟩ := List.forall₂_cons_right_iff.mp hvalues
    exact ⟨Float.ofNat items.size, by simp [Heap.length?, hitems]⟩

end Builtin

/-! ### Terms -/

namespace Code

variable {Γ : Context} {site : Site} {w w' : World} {frame : Frame}

/-- Whether the values of a frame have the depths of its slots. A slot may have no value yet. -/
def Context.Fits (Γ : Context) (w : World) (frame : Frame) : Prop :=
  ∀ (slot : Nat) (v : Value), frame[slot]? = some (some v) →
    ∃ k, Γ.slots[slot]? = some k ∧ w.HasDepth v k

/-- A frame goes on fitting. -/
theorem Context.Fits.of_grows (h : Γ.Fits w frame) (hgrows : w.Grows w') : Γ.Fits w' frame := by
  intro slot v hv
  obtain ⟨k, hk, hdepth⟩ := h slot v hv
  exact ⟨k, hk, hgrows.hasDepth hdepth⟩

/-- Whether a site is the place that a context describes, and entering a function is safe there. -/
structure Context.Holds (Γ : Context) (site : Site) : Prop where
  program : site.program = Γ.program
  current : site.current ∈ Γ.program.functions
  params : site.current.params.map Ty.depth = Γ.params
  result : site.current.result.depth = Γ.result
  enter : ∀ f ∈ Γ.program.functions, ∀ (w : World) (args : List Value),
    w.HaveDepths args (f.params.map Ty.depth) →
    Run.Safe w (site.enter f args) fun w' v => w'.HasDepth v f.result.depth

/-- Whether a term evaluates to values of depth `k`, in every world and every frame that fits. -/
def Evaluates (Γ : Context) (site : Site) (t : Term) (k : Nat) : Prop :=
  ∀ (w : World) (frame : Frame), Γ.Fits w frame →
    Run.Safe w (t.eval site frame) fun w' v => w'.HasDepth v k

/-- Several terms evaluate to as many values, each as deep as its term. -/
theorem safe_evalAll :
    ∀ (ts : List Term) (depths : List Nat), ts.length = depths.length →
      (∀ pair ∈ ts.zip depths, Evaluates Γ site pair.1 pair.2) → ∀ w, Γ.Fits w frame →
      Run.Safe w (evalAll site frame ts) fun w' values => w'.HaveDepths values depths
  | [], [], _, _, w, hfits => by
    rw [evalAll]
    exact .pure .nil
  | t :: ts, k :: depths, hlength, heval, w, hfits => by
    rw [evalAll]
    obtain ⟨ht, hts⟩ := List.forall_mem_cons.mp heval
    refine .bind (ht w frame hfits) fun w₁ v hgrows₁ hv => ?_
    refine .bind (safe_evalAll ts depths (Nat.succ.inj hlength) hts w₁ (hfits.of_grows hgrows₁))
      fun w₂ values hgrows₂ hvalues => ?_
    exact .pure (.cons (hgrows₂.hasDepth hv) hvalues)

/-- Several terms of depth zero evaluate to as many numbers. -/
theorem safe_evalNumbers {offset : Nat} :
    ∀ ts : List Term, (∀ t ∈ ts, Evaluates Γ site t 0) → ∀ w, Γ.Fits w frame →
      Run.Safe w (evalNumbers site frame offset ts) fun _ numbers => numbers.length = ts.length
  | [], _, w, hfits => by
    rw [evalNumbers]
    exact .pure rfl
  | t :: ts, heval, w, hfits => by
    rw [evalNumbers]
    obtain ⟨ht, hts⟩ := List.forall_mem_cons.mp heval
    refine .bind (ht w frame hfits) fun w₁ v hgrows₁ hv => ?_
    refine .bind (.toNumber hv) fun w₂ x hgrows₂ _ => ?_
    refine .bind (safe_evalNumbers ts hts w₂ (hfits.of_grows (hgrows₁.trans hgrows₂)))
      fun w₃ xs _ hxs => ?_
    exact .pure (by simp [hxs])

/-- Several terms of depth zero evaluate to as many sizes, or one of them is not a size. -/
theorem safe_evalSizes {offset : Nat} :
    ∀ ts : List Term, (∀ t ∈ ts, Evaluates Γ site t 0) → ∀ w, Γ.Fits w frame →
      Run.Safe w (evalSizes site frame offset ts) fun _ sizes => sizes.length = ts.length
  | [], _, w, hfits => by
    rw [evalSizes]
    exact .pure rfl
  | t :: ts, heval, w, hfits => by
    rw [evalSizes]
    obtain ⟨ht, hts⟩ := List.forall_mem_cons.mp heval
    refine .bind (ht w frame hfits) fun w₁ v hgrows₁ hv => ?_
    obtain ⟨x, rfl⟩ := hv.exists_number
    have hsize : Run.Safe w₁ (site.attempt offset ((Value.number x).toNumber >>= Number.toSize))
        fun _ _ => True :=
      .attempt (Number.settles_toSize x)
    refine .bind hsize fun w₂ size hgrows₂ _ => ?_
    refine .bind (safe_evalSizes ts hts w₂ (hfits.of_grows (hgrows₁.trans hgrows₂)))
      fun w₃ sizes _ hsizes => ?_
    exact .pure (by simp [hsizes])

/-- Reading a variable gives a value as deep as its slot, unless it has none yet. -/
theorem safe_read {offset slot k : Nat} {name : String} (hfits : Γ.Fits w frame)
    (hslot : Γ.slots[slot]? = some k) :
    Run.Safe w (site.read frame offset name slot) fun w' v => w'.HasDepth v k := by
  unfold Site.read
  split
  next v hv =>
    obtain ⟨k', hk', hdepth⟩ := hfits slot v hv
    obtain rfl : k' = k := Option.some.inj (hk'.symm.trans hslot)
    exact .pure hdepth
  · exact .throw rfl

/-- A term of depth `k` evaluates to values of depth `k`, one case for each form of term. -/
theorem safe_eval {t : Term} {k : Nat} (ht : Deep Γ t k) (hsite : Γ.Holds site) :
    Evaluates Γ site t k := by
  induction ht with
  | number =>
    intro w frame hfits
    rw [Term.eval]
    exact .pure rfl
  | @newArray offset sizes _ ih =>
    intro w frame hfits
    rw [Term.eval]
    refine .bind (safe_evalSizes sizes ih w hfits) fun w₁ values _ hlength => ?_
    obtain ⟨w', hgrows, hheap, hdepth⟩ := World.makes_allocate values w₁
    rw [hlength] at hdepth
    exact ⟨w', hgrows, hheap, hdepth⟩
  | @list ty items k _ ih =>
    intro w frame hfits
    rw [Term.eval]
    have hall : ∀ pair ∈ items.zip (List.replicate items.length k),
        Evaluates Γ site pair.1 pair.2 := by
      intro pair hpair
      have hk : pair.2 = k := List.eq_of_mem_replicate (List.of_mem_zip hpair).2
      rw [hk]
      exact ih pair.1 (List.of_mem_zip hpair).1
    refine .bind (safe_evalAll items _ (by simp) hall w hfits) fun w₁ values _ hvalues => ?_
    have hitems : ∀ v ∈ values.toArray, w₁.HasDepth v k := by
      intro v hv
      exact hvalues.forall_mem (fun _ => List.eq_of_mem_replicate) v (by simpa using hv)
    exact ⟨w₁.push values.toArray k hitems, World.grows_push, rfl, World.hasDepth_push⟩
  | @slot offset name slot ty indices k hslot _ ih =>
    intro w frame hfits
    rw [Term.eval]
    refine .bind (safe_read hfits hslot) fun w₁ base hgrows₁ hbase => ?_
    refine .bind (safe_evalNumbers indices ih w₁ (hfits.of_grows hgrows₁))
      fun w₂ path hgrows₂ hpath => ?_
    -- There are no more indices than the variable is deep, so none of them meets a number.
    have hbase₂ := hgrows₂.hasDepth hbase
    rw [← hpath] at hbase₂
    exact .get_bind (.attempt (World.settles_walk path hbase₂))
  | @call offset name callee ty args depths k hreaches hlength _ ih =>
    intro w frame hfits
    rw [Term.eval]
    refine .bind (safe_evalAll args depths hlength ih w hfits) fun w₁ values _ hvalues => ?_
    cases callee with
    | builtin b =>
      obtain ⟨htakes, rfl⟩ := hreaches
      obtain ⟨x, hx⟩ := Builtin.exists_apply htakes (hvalues.imp fun _ _ => World.HasDepth.hasKind)
      refine .get_bind ?_
      rw [hx]
      exact .pure rfl
    | self =>
      obtain ⟨rfl, rfl⟩ := hreaches
      rw [← hsite.params] at hvalues
      rw [← hsite.result]
      exact hsite.enter site.current hsite.current w₁ values hvalues
    | user index =>
      obtain ⟨f, hf, rfl, rfl⟩ := hreaches
      rw [← hsite.program] at hf
      simp only [hf]
      rw [hsite.program] at hf
      exact hsite.enter f (List.mem_of_getElem? hf) w₁ values hvalues
  | @unary offset op operand _ ih =>
    intro w frame hfits
    rw [Term.eval]
    refine .bind (ih w frame hfits) fun w₁ v _ hv => ?_
    exact .bind (.toNumber hv) fun w₂ x _ _ => .pure rfl
  | @binary offset op left right _ _ ihl ihr =>
    intro w frame hfits
    rw [Term.eval]
    refine .bind (ihl w frame hfits) fun w₁ v hgrows₁ hv => ?_
    refine .bind (.toNumber hv) fun w₂ x hgrows₂ _ => ?_
    split
    · exact .pure rfl
    · refine .bind (ihr w₂ frame (hfits.of_grows (hgrows₁.trans hgrows₂))) fun w₃ u _ hu => ?_
      exact .bind (.toNumber hu) fun w₄ y _ _ => .pure rfl

/-! ### Steps -/

/-- Whether a computation in a frame and the heap of a world ends well, and what it results in and
the frame it leaves satisfy `post`. -/
def Execution.Safe {α : Type} (w : World) (frame : Frame) (m : Execution α)
    (post : World → Frame → α → Prop) : Prop :=
  w.Ends State.heap (fun w' state a => post w' state.frame a) (m ⟨frame, w.heap⟩)

namespace Execution.Safe

variable {α β : Type} {post : World → Frame → α → Prop} {goal : World → Frame → β → Prop}

/-- Giving a value is safe. -/
theorem pure {a : α} (h : post w frame a) : Safe w frame (Pure.pure a) post :=
  ⟨w, .refl w, rfl, h⟩

/-- Safe computations compose. -/
theorem bind {m : Execution α} {k : α → Execution β} (hm : Safe w frame m post)
    (hk : ∀ w' frame' a, w.Grows w' → post w' frame' a → Safe w' frame' (k a) goal) :
    Safe w frame (m >>= k) goal := by
  refine World.Ends.bind hm ?_
  rintro w' a ⟨frame', heap⟩ hgrows rfl hpost
  exact hk w' frame' a hgrows hpost

/-- A safe computation on the heap leaves the frame alone. -/
theorem ofRun {run : Frame → Run α} {post : World → α → Prop} (h : Run.Safe w (run frame) post) :
    Safe w frame (.ofRun run) fun w' frame' a => frame' = frame ∧ post w' a := by
  unfold Safe Execution.ofRun
  unfold Run.Safe at h
  dsimp only
  cases hr : run frame w.heap with
  | ok a heap =>
    rw [hr] at h
    obtain ⟨w', hgrows, hheap, hpost⟩ := h
    exact ⟨w', hgrows, hheap, rfl, hpost⟩
  | error e heap =>
    rw [hr] at h
    exact h

/-- Assigning a variable leaves the heap alone. -/
theorem assign {slot : Nat} {v : Value} :
    Safe w frame (.assign slot v) fun w' frame' _ =>
      w' = w ∧ frame' = frame.setIfInBounds slot (some v) :=
  ⟨w, .refl w, rfl, rfl, rfl⟩

end Execution.Safe

/-- What execution may do behind code: go on, unless the code always returns, or return a value as
deep as the function's result. -/
def Context.Flows (Γ : Context) (w : World) (always : Bool) : Flow → Prop
  | .next => always = false
  | .returned v => w.HasDepth v Γ.result

/-- Less can be said of code that need not return. -/
theorem Context.Flows.mono {taken always : Bool} {flow : Flow} (h : Γ.Flows w taken flow)
    (himp : taken = false → always = false) : Γ.Flows w always flow := by
  cases flow with
  | next => exact himp h
  | returned v => exact h

/-- Whether a computation of a flow keeps a frame that fits, in every world. -/
def Executes (Γ : Context) (m : Execution Flow) (always : Bool) : Prop :=
  ∀ (w : World) (frame : Frame), Γ.Fits w frame →
    Execution.Safe w frame m fun w' frame' flow => Γ.Fits w' frame' ∧ Γ.Flows w' always flow

/-- A frame goes on fitting when a slot is given a value of its depth. -/
theorem Context.Fits.assign {slot k : Nat} {v : Value} (h : Γ.Fits w frame)
    (hslot : Γ.slots[slot]? = some k) (hv : w.HasDepth v k) :
    Γ.Fits w (frame.setIfInBounds slot (some v)) := by
  intro i u hu
  rw [Array.getElem?_setIfInBounds] at hu
  split at hu
  next heq =>
    split at hu
    · cases hu
      exact ⟨k, heq ▸ hslot, hv⟩
    · cases hu
  · exact h i u hu

/-- Writing a value to an element is safe where the value is as deep as the element. -/
theorem safe_writeElement {offset slot k : Nat} {name : String} {path : List Float} {last : Float}
    {v : Value} (hfits : Γ.Fits w frame) (hslot : Γ.slots[slot]? = some (k + 1 + path.length))
    (hv : w.HasDepth v k) :
    Run.Safe w (writeElement site frame offset name slot path last v) fun _ _ => True := by
  unfold writeElement
  refine .bind (safe_read hfits hslot) fun w₁ base hgrows₁ hbase => ?_
  have hwalk : Run.Safe w₁ (site.attempt offset (w₁.heap.walk base path))
      fun w' container => w'.HasDepth container (k + 1) :=
    .attempt (World.settles_walk path hbase)
  refine .get_bind (.bind hwalk fun w₂ container hgrows₂ hcontainer => ?_)
  have hfind : Run.Safe w₂ (site.attempt offset (w₂.heap.cell container last))
      fun w' cell => w'.depth cell.ref = k + 1 :=
    .attempt (World.settles_cell hcontainer last)
  refine .get_bind (.bind hfind fun w₃ cell hgrows₃ hcell => ?_)
  have hv₃ := (hgrows₁.trans (hgrows₂.trans hgrows₃)).hasDepth hv
  exact ⟨w₃.write cell v k hcell hv₃, World.grows_write, rfl, trivial⟩

/-- A block executes safely if each of its steps does. It goes on behind its end only if no step
always returns. -/
theorem safe_execAll :
    ∀ steps : List Step, (∀ s ∈ steps, Executes Γ (s.exec site) (returns s)) →
      Executes Γ (execAll site steps) (returnsAll steps)
  | [], _, w, frame, hfits => by
    rw [execAll]
    exact .pure ⟨hfits, rfl⟩
  | s :: rest, hsteps, w, frame, hfits => by
    rw [execAll]
    obtain ⟨hs, hrest⟩ := List.forall_mem_cons.mp hsteps
    refine .bind (hs w frame hfits) fun w₁ frame₁ flow hgrows₁ hflow => ?_
    cases flow with
    | returned v => exact .pure hflow
    | next =>
      have hnot : returns s = false := hflow.2
      rw [returnsAll, hnot, Bool.false_or]
      exact safe_execAll rest hrest w₁ frame₁ hflow.1

/-- A sound step executes safely, one case for each form of step. -/
theorem safe_exec {s : Step} (hs : Sound Γ s) (hsite : Γ.Holds site) :
    Executes Γ (s.exec site) (returns s) := by
  induction hs with
  | @branch offset condition pass fail hcondition _ _ ihpass ihfail =>
    intro w frame hfits
    rw [Step.exec]
    refine .bind (.ofRun (safe_eval hcondition hsite w frame hfits)) ?_
    rintro w₁ _ v hgrows₁ ⟨rfl, hv⟩
    refine .bind (.ofRun (.toNumber hv)) ?_
    rintro w₂ _ x hgrows₂ ⟨rfl, -⟩
    have hfits₂ := hfits.of_grows (hgrows₁.trans hgrows₂)
    split
    · refine (safe_execAll pass ihpass w₂ _ hfits₂).mono fun w₃ state flow hflow => ?_
      exact ⟨hflow.1, hflow.2.mono fun hnot => by rw [returns, hnot, Bool.false_and]⟩
    · refine (safe_execAll fail ihfail w₂ _ hfits₂).mono fun w₃ state flow hflow => ?_
      exact ⟨hflow.1, hflow.2.mono fun hnot => by rw [returns, hnot, Bool.and_false]⟩
  | @assign offset name slot indices value k hslot hindices hvalue =>
    intro w frame hfits
    rw [Step.exec]
    have hpath : Run.Safe w (evalNumbers site frame offset indices)
        fun _ numbers => numbers.length = indices.length :=
      safe_evalNumbers indices (fun t ht => safe_eval (hindices t ht) hsite) w hfits
    refine .bind (.ofRun hpath) ?_
    rintro w₁ _ path hgrows₁ ⟨rfl, hlength⟩
    have hfits₁ := hfits.of_grows hgrows₁
    refine .bind (.ofRun (safe_eval hvalue hsite w₁ _ hfits₁)) ?_
    rintro w₂ _ v hgrows₂ ⟨rfl, hv⟩
    have hfits₂ := hfits₁.of_grows hgrows₂
    rw [← hlength] at hslot
    -- Without indices the slot itself is assigned, otherwise an element of the array in it.
    cases hlast : path.getLast? with
    | none =>
      obtain rfl : path = [] := List.getLast?_eq_none_iff.mp hlast
      refine .bind .assign ?_
      rintro w₃ _ _ - ⟨rfl, rfl⟩
      exact .pure ⟨hfits₂.assign hslot hv, rfl⟩
    | some last =>
      obtain ⟨init, rfl⟩ := List.getLast?_eq_some_iff.mp hlast
      rw [List.length_append, List.length_singleton, Nat.add_comm _ 1, ← Nat.add_assoc] at hslot
      rw [List.dropLast_concat]
      refine .bind (.ofRun (safe_writeElement hfits₂ hslot hv)) ?_
      rintro w₃ _ _ hgrows₃ ⟨rfl, -⟩
      exact .pure ⟨hfits₂.of_grows hgrows₃, rfl⟩
  | ret hvalue =>
    intro w frame hfits
    rw [Step.exec]
    refine .bind (.ofRun (safe_eval hvalue hsite w frame hfits)) ?_
    rintro w₁ _ v hgrows₁ ⟨rfl, hv⟩
    exact .pure ⟨hfits.of_grows hgrows₁, hv⟩

/-! ### Slots -/

mutual

/-- The slots that a step can assign. Writing to an element assigns none. -/
def assigned : Step → List Nat
  | .branch _ _ pass fail => assignedAll pass ++ assignedAll fail
  | .assign _ _ slot indices _ => if indices.isEmpty then [slot] else []
  | .ret _ => []

/-- The slots that a block can assign. -/
def assignedAll : List Step → List Nat
  | [] => []
  | s :: rest => assigned s ++ assignedAll rest

end

/-- What holds of the slots of each step holds of those of a block. -/
theorem forall_assignedAll {P : Nat → Prop} {steps : List Step}
    (h : ∀ s ∈ steps, ∀ slot ∈ assigned s, P slot) : ∀ slot ∈ assignedAll steps, P slot := by
  induction steps with
  | nil => simp [assignedAll]
  | cons s rest ih =>
    obtain ⟨hs, hrest⟩ := List.forall_mem_cons.mp h
    rw [assignedAll, List.forall_mem_append]
    exact ⟨hs, ih hrest⟩

/-- Sound code assigns slots of its frame only. -/
theorem assigned_lt {s : Step} (hs : Sound Γ s) : ∀ slot ∈ assigned s, slot < Γ.slots.length := by
  induction hs with
  | branch _ _ _ ihpass ihfail =>
    rw [assigned, List.forall_mem_append]
    exact ⟨forall_assignedAll ihpass, forall_assignedAll ihfail⟩
  | @assign offset name slot indices value k hslot _ _ =>
    intro i hi
    rw [assigned] at hi
    split at hi
    · obtain rfl := List.mem_singleton.mp hi
      exact (List.getElem?_eq_some_iff.mp hslot).1
    · simp at hi
  | ret _ => simp [assigned]

end Code

/-! ### Calls -/

namespace Function

variable {p : Program} {f : Function} {args : List Value}

/-- Sound functions assign slots of their frames only. -/
theorem assigned_lt (hf : f.Sound p) (args : List Value) :
    ∀ slot ∈ Code.assignedAll f.body, slot < (f.frame args).size := by
  obtain ⟨-, slots, hslots, -, hbody⟩ := hf
  rw [size_frame, ← hslots]
  exact Code.forall_assignedAll fun s hs => Code.assigned_lt (hbody s hs)

end Function

/-- A call of a function of a sound program, with arguments as deep as the parameters, ends well
and results in a value as deep as the result. The induction is on the number of frames that may
still be opened: the calls inside have one less. -/
theorem Program.safe_call {p : Program} (hp : ∀ f ∈ p.functions, f.Sound p) :
    ∀ (room : Nat), ∀ f ∈ p.functions, ∀ (w : World) (args : List Value),
      w.HaveDepths args (f.params.map Ty.depth) →
      Run.Safe w (p.call room f args) fun w' v => w'.HasDepth v f.result.depth := by
  intro room
  induction room with
  | zero =>
    intro f hf w args hargs
    rw [call]
    exact .throw rfl
  | succ room ih =>
    intro f hf w args hargs
    obtain ⟨hreturns, slots, hslots, hstart, hbody⟩ := hp f hf
    let Γ : Code.Context := ⟨p, f.params.map Ty.depth, f.result.depth, slots⟩
    have hsite : Γ.Holds ⟨p, f, p.call room⟩ := ⟨rfl, hf, rfl, rfl, ih⟩
    -- At first a frame holds the arguments and nothing else.
    have hfits : Γ.Fits w (f.frame args) := by
      intro slot v hv
      have hsize : slot < f.slots := by
        rw [← Function.size_frame f args]
        exact (Array.getElem?_eq_some_iff.mp hv).1
      have harg : args[slot]? = some v := by
        rw [Function.getElem?_frame args hsize] at hv
        exact Option.some.inj hv
      obtain ⟨hlength, hdepths⟩ := List.forall₂_iff_get.mp hargs
      obtain ⟨hlt, rfl⟩ := List.getElem?_eq_some_iff.mp harg
      have hlt' : slot < (f.params.map Ty.depth).length := hlength ▸ hlt
      refine ⟨(f.params.map Ty.depth)[slot], ?_, hdepths slot hlt hlt'⟩
      obtain ⟨rest, hrest⟩ := hstart
      show slots[slot]? = _
      rw [← hrest, List.getElem?_append_left hlt', List.getElem?_eq_getElem hlt']
    have hexec := Code.safe_execAll f.body (fun s hs => Code.safe_exec (hbody s hs) hsite) w
      (f.frame args) hfits
    rw [hreturns] at hexec
    unfold Code.Execution.Safe at hexec
    unfold Run.Safe
    rw [call]
    dsimp only
    cases hr : Code.execAll ⟨p, f, p.call room⟩ f.body ⟨f.frame args, w.heap⟩ with
    | error e state =>
      rw [hr] at hexec
      exact hexec
    | ok flow state =>
      rw [hr] at hexec
      obtain ⟨w', hgrows, hheap, -, hflow⟩ := hexec
      -- The body returns on every path, so its end is not reached.
      cases flow with
      | next => cases hflow
      | returned v => exact ⟨w', hgrows, hheap, hflow⟩

end ArrayScript
