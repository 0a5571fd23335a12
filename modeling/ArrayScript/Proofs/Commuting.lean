import ArrayScript.Proofs.Relocation
import ArrayScript.Source

/-!
# `ArrayScript.Proofs.Commuting`: exchanging declarations

Two declarations that stand next to each other can be exchanged when neither mentions the other one
in its body (`Program.exchange_ofDecls`). The functions of the two programs are the same up to the
places that they call, which are exchanged like the declarations: this is a relocation
(`Relocation.exchange`).

The functions in front of the two have to be the same functions on both sides. `Built.fixed` says
so: what they call stands in front of them, so the exchange moves no place in them. The other
functions follow one by one, each analysed against programs that differ by the exchange
(`Built.exists_exchanged`).
-/

set_option autoImplicit false

namespace ArrayScript

/-! ### Relocations that keep offsets -/

section

variable {ρ : Relocation}

/-- A span stays as it is when offsets do. -/
theorem Relocation.span_eq_self (hoffset : ∀ n, ρ.offset n = n) (span : Span) :
    ρ.span span = span := by
  rw [Relocation.span, hoffset, hoffset]

mutual

/-- An expression stays as it is when offsets do. -/
theorem Expr.relocate_eq_self (hoffset : ∀ n, ρ.offset n = n) : ∀ e : Expr, e.relocate ρ = e
  | .number span value => by
    rw [Expr.relocate, ρ.span_eq_self hoffset]
  | .newArray span sizes => by
    rw [Expr.relocate, ρ.span_eq_self hoffset, Expr.relocateAll_eq_self hoffset sizes]
  | .list span items => by
    rw [Expr.relocate, ρ.span_eq_self hoffset, Expr.relocateAll_eq_self hoffset items]
  | .var span name indices => by
    rw [Expr.relocate, ρ.span_eq_self hoffset, Expr.relocateAll_eq_self hoffset indices]
  | .call span name args => by
    rw [Expr.relocate, ρ.span_eq_self hoffset, Expr.relocateAll_eq_self hoffset args]
  | .unary span op operand => by
    rw [Expr.relocate, ρ.span_eq_self hoffset, operand.relocate_eq_self hoffset]
  | .binary span op left right => by
    rw [Expr.relocate, ρ.span_eq_self hoffset, left.relocate_eq_self hoffset,
      right.relocate_eq_self hoffset]

/-- Companion for several expressions. -/
theorem Expr.relocateAll_eq_self (hoffset : ∀ n, ρ.offset n = n) :
    ∀ es : List Expr, Expr.relocateAll ρ es = es
  | [] => rfl
  | e :: es => by
    rw [Expr.relocateAll, e.relocate_eq_self hoffset, Expr.relocateAll_eq_self hoffset es]

end

/-- A target stays as it is when offsets do. -/
theorem Target.relocate_eq_self (hoffset : ∀ n, ρ.offset n = n) (target : Target) :
    target.relocate ρ = target := by
  rw [Target.relocate, ρ.span_eq_self hoffset, Expr.relocateAll_eq_self hoffset]

mutual

/-- A statement stays as it is when offsets do. -/
theorem Stmt.relocate_eq_self (hoffset : ∀ n, ρ.offset n = n) :
    ∀ stmt : Stmt, stmt.relocate ρ = stmt
  | .branch span condition pass fail => by
    rw [Stmt.relocate, ρ.span_eq_self hoffset, condition.relocate_eq_self hoffset,
      Stmt.relocateAll_eq_self hoffset pass, Stmt.relocateOption_eq_self hoffset fail]
  | .assign span target value => by
    rw [Stmt.relocate, ρ.span_eq_self hoffset, target.relocate_eq_self hoffset,
      value.relocate_eq_self hoffset]
  | .update span op target value => by
    rw [Stmt.relocate, ρ.span_eq_self hoffset, target.relocate_eq_self hoffset,
      value.relocate_eq_self hoffset]
  | .ret span value => by
    rw [Stmt.relocate, ρ.span_eq_self hoffset, value.relocate_eq_self hoffset]

/-- A block stays as it is when offsets do. -/
theorem Stmt.relocateAll_eq_self (hoffset : ∀ n, ρ.offset n = n) :
    ∀ body : List Stmt, Stmt.relocateAll ρ body = body
  | [] => rfl
  | stmt :: rest => by
    rw [Stmt.relocateAll, stmt.relocate_eq_self hoffset, Stmt.relocateAll_eq_self hoffset rest]

/-- Companion for a block that may be absent. -/
theorem Stmt.relocateOption_eq_self (hoffset : ∀ n, ρ.offset n = n) :
    ∀ block : Option (List Stmt), Stmt.relocateOption ρ block = block
  | none => rfl
  | some block => by
    rw [Stmt.relocateOption, Stmt.relocateAll_eq_self hoffset block]

end

/-- A declaration stays as it is when offsets do. -/
theorem Decl.relocate_eq_self (hoffset : ∀ n, ρ.offset n = n) (decl : Decl) :
    decl.relocate ρ = decl := by
  have hexpr : Expr.relocate ρ = id := funext fun e => e.relocate_eq_self hoffset
  have hparam : Param.relocate ρ = id := by
    funext param
    rw [Param.relocate, hexpr, ρ.span_eq_self hoffset, Option.map_id, List.map_id]
    rfl
  rw [Decl.relocate, hparam, List.map_id, Stmt.relocateAll_eq_self hoffset,
    ρ.span_eq_self hoffset]

end

/-! ### Programs that grow by one function -/

namespace Program

variable {p q : Program} {f : Function} {file name : String} {decl : Decl} {decls : List Decl}

/-- The last declaration of a list becomes the last function of its program. -/
theorem built_concat (h : Built file (decls ++ [decl]) p) :
    ∃ q f, Built file decls q ∧ q.analyse file decl = .ok f ∧ p = q.append f := by
  rw [← ofDecls_ok, ofDecls_concat] at h
  cases hq : ofDecls file decls with
  | error e =>
    rw [hq] at h
    cases h
  | ok q =>
    rw [hq] at h
    obtain ⟨f, hf, rfl⟩ := extend_ok.mp h
    exact ⟨q, f, ofDecls_ok.mp hq, hf, rfl⟩

/-- One more function takes its own name only. -/
theorem contains_append (hne : f.name ≠ name) : (p.append f).contains name = p.contains name := by
  rw [contains, contains, Table.contains, Table.contains, lookup_append_of_ne hne.symm]

/-- One more function changes the meaning of its own name only. -/
theorem entry?_append (hne : f.name ≠ name) :
    Program.entry? (p.append f) name = p.entry? name := by
  have hfind : (p.append f).find? name = p.find? name := by
    unfold find?
    rw [lookup_append_of_ne hne.symm]
    cases hplace : p.places.lookup name with
    | none => rfl
    | some place =>
      obtain ⟨g, hg, -⟩ := p.sound name place (mem_of_lookup hplace)
      have hlt : place < p.functions.length := (List.getElem?_eq_some_iff.mp hg).1
      simp [List.getElem?_append_left hlt]
  unfold entry?
  rw [hfind]

end Program

/-! ### The exchange -/

/-- The exchange of a place with the next one. -/
def Relocation.exchange (place : Nat) : Relocation where
  file := id
  offset := id
  place index := if index = place then place + 1 else if index = place + 1 then place else index

section

variable {k : Nat}

@[simp] theorem Relocation.exchange_place_self : (Relocation.exchange k).place k = k + 1 := by
  simp [Relocation.exchange]

@[simp] theorem Relocation.exchange_place_next : (Relocation.exchange k).place (k + 1) = k := by
  simp [Relocation.exchange]

/-- Places in front of the two and behind them stay. -/
theorem Relocation.exchange_place_of_ne {index : Nat} (hself : index ≠ k) (hnext : index ≠ k + 1) :
    (Relocation.exchange k).place index = index := by
  simp [Relocation.exchange, hself, hnext]

/-- To exchange twice is to do nothing. -/
theorem Relocation.exchange_place_place (index : Nat) :
    (Relocation.exchange k).place ((Relocation.exchange k).place index) = index := by
  by_cases hself : index = k
  · simp [hself]
  · by_cases hnext : index = k + 1
    · simp [hnext]
    · rw [exchange_place_of_ne hself hnext, exchange_place_of_ne hself hnext]

/-- A place stays within any bound that both places are within. -/
theorem Relocation.exchange_place_lt {index n : Nat} (hindex : index < n) (hk : k + 1 < n) :
    (Relocation.exchange k).place index < n := by
  simp only [Relocation.exchange]
  split_ifs <;> omega

/-- Every outcome stays as it is. -/
theorem Relocation.exchange_result {σ α : Type} (r : EStateM.Result Error σ α) :
    (Relocation.exchange k).result r = r := by
  cases r <;> rfl

/-- Every declaration stays as it is. -/
theorem Relocation.exchange_decl (decl : Decl) : decl.relocate (Relocation.exchange k) = decl :=
  decl.relocate_eq_self fun _ => rfl

end

namespace Program

variable {p q : Program} {f : Function} {file : String} {decl : Decl} {decls : List Decl}

/-- Whether a relocation moves nothing in a program. -/
def Fixed (ρ : Relocation) (p : Program) : Prop :=
  ∀ (place : Nat) (f : Function), p.functions[place]? = some f →
    ρ.place place = place ∧ f.relocate ρ = f

/-- Names mean the same when nothing moves. -/
theorem Fixed.entry?_eq {ρ : Relocation} (h : p.Fixed ρ) (name : String) :
    (p.entry? name).map (Entry.relocate ρ) = p.entry? name := by
  cases hentry : p.entry? name with
  | none => rfl
  | some entry =>
    cases entry with
    | builtin b => rfl
    | user place f =>
      obtain ⟨hplace, hf⟩ := h place f (entry?_user hentry).1
      rw [Option.map_some, Entry.relocate, hplace, hf]

/-- A function that is analysed against a program in which nothing moves does not move either. -/
theorem Fixed.relocate_eq_self {k : Nat} (h : p.Fixed (.exchange k))
    (hf : p.analyse file decl = .ok f) : f.relocate (.exchange k) = f := by
  have hself := analyse_relocate file (fun name _ => (h.entry?_eq name).symm)
    (rfl : p.contains decl.name = p.contains decl.name)
  rw [Relocation.exchange_decl, hf] at hself
  exact (Except.ok.inj (hf.symm.trans hself)).symm

/-- An exchange behind a program moves nothing in it: a function calls what stands in front
of it. -/
theorem Built.fixed (h : Built file decls p) {k : Nat} (hk : p.functions.length ≤ k) :
    p.Fixed (.exchange k) := by
  induction h with
  | nil =>
    intro place f hf
    simp [empty] at hf
  | @snoc decls p decl f _ hf ih =>
    rw [functions_append, List.length_append, List.length_singleton] at hk
    have hfixed := ih (by omega)
    intro place g hg
    rcases getElem?_append hg with hold | ⟨rfl, rfl⟩
    · exact hfixed place g hold
    · exact ⟨Relocation.exchange_place_of_ne (by omega) (by omega), hfixed.relocate_eq_self hf⟩

/-- A function that a declaration does not mention makes no difference to it. -/
theorem Fixed.analyse_append {k : Nat} (h : p.Fixed (.exchange k))
    (hname : f.name ∉ Stmt.namesAll decl.body) (hne : f.name ≠ decl.name) :
    (p.append f).analyse file decl = p.analyse file decl := by
  have hentry : ∀ name ∈ Stmt.namesAll decl.body,
      Program.entry? (p.append f) name
        = (p.entry? name).map (Entry.relocate (.exchange k)) := by
    intro name hmem
    rw [h.entry?_eq, entry?_append fun heq => hname (heq ▸ hmem)]
  -- Both are what analysis of the declaration gives, relocated.
  have hwith := analyse_relocate file hentry (contains_append hne)
  have hwithout := analyse_relocate file (fun name _ => (h.entry?_eq name).symm)
    (rfl : p.contains decl.name = p.contains decl.name)
  rw [Relocation.exchange_decl] at hwith hwithout
  exact hwith.trans hwithout.symm

/-- Two functions at the end of a program can be exchanged when nothing moves in them. -/
theorem Fixed.relocates (hfixed : q.Fixed (.exchange q.functions.length)) {f g : Function}
    (hf : f.relocate (.exchange q.functions.length) = f)
    (hg : g.relocate (.exchange q.functions.length) = g) :
    Relocates (.exchange q.functions.length) ((q.append f).append g)
      ((q.append g).append f) := by
  intro place
  simp only [functions_append]
  have hcases : place < q.functions.length ∨ place = q.functions.length
      ∨ place = q.functions.length + 1 ∨ q.functions.length + 1 < place := by
    omega
  rcases hcases with hlt | rfl | rfl | hgt
  · obtain ⟨hplace, hsame⟩ := hfixed place _ (List.getElem?_eq_getElem hlt)
    rw [hplace]
    simp [List.getElem?_append, hlt, hsame]
  · simp [hf]
  · simp [hg]
  · rw [Relocation.exchange_place_of_ne (by omega) (by omega),
      List.getElem?_eq_none (by simp; omega), List.getElem?_eq_none (by simp; omega)]
    rfl

/-- Exchanged programs stay exchanged when both grow by one function. -/
theorem Relocates.append {k : Nat} {p p' : Program} (h : p.Relocates (.exchange k) p')
    (hlength : p'.functions.length = p.functions.length) (hk : k + 1 < p.functions.length)
    (f : Function) :
    Relocates (.exchange k) (p.append f) (p'.append (f.relocate (.exchange k))) := by
  intro place
  simp only [functions_append]
  rcases Nat.lt_or_ge place p.functions.length with hlt | hge
  · have hplace : (Relocation.exchange k).place place < p'.functions.length := by
      rw [hlength]
      exact Relocation.exchange_place_lt hlt hk
    rw [List.getElem?_append_left hlt, List.getElem?_append_left hplace]
    exact h place
  · rw [Relocation.exchange_place_of_ne (by omega) (by omega), List.getElem?_append_right hge,
      List.getElem?_append_right (by omega), hlength]
    cases place - p.functions.length <;> rfl

/-- In exchanged programs every name has the same meaning. -/
theorem Relocates.entry?_exchange {k : Nat} {p p' : Program} {decls' : List Decl}
    (h : p.Relocates (.exchange k) p') (hp : Built file decls p) (hp' : Built file decls' p')
    (name : String) : p'.entry? name = (p.entry? name).map (Entry.relocate (.exchange k)) :=
  h.entry?_eq (fun place => ⟨_, Relocation.exchange_place_place place⟩) hp.indexed hp'.indexed name

/-- The program with two declarations exchanged is accepted, and has the functions of the program,
exchanged. The induction is on the declarations behind the two. -/
theorem Built.exists_exchanged {earlier later : List Decl} {a b : Decl}
    (ha : b.name ∉ Stmt.namesAll a.body) (hb : a.name ∉ Stmt.namesAll b.body) {p : Program}
    (h : Built file (earlier ++ [a] ++ [b] ++ later) p) :
    ∃ p', Built file (earlier ++ [b] ++ [a] ++ later) p' ∧
      p.Relocates (.exchange earlier.length) p' := by
  induction later using List.reverseRecOn generalizing p with
  | nil =>
    rw [List.append_nil] at h ⊢
    obtain ⟨_, g, hfirst, hg, rfl⟩ := built_concat h
    obtain ⟨q, f, hq, hf, rfl⟩ := built_concat hfirst
    have hfixed := hq.fixed (Nat.le_refl _)
    have hne : f.name ≠ b.name := by
      intro heq
      have htaken : (q.append f).contains b.name = true := by
        rw [← heq, contains, Table.contains, lookup_append_self]
        rfl
      rw [(analyse_ok.mp hg).2.1] at htaken
      cases htaken
    rw [name_of_analyse hf] at hne
    -- Neither function makes a difference to the other one.
    rw [hfixed.analyse_append (by rw [name_of_analyse hf]; exact hb)
      (by rw [name_of_analyse hf]; exact hne)] at hg
    have hf' : (q.append g).analyse file a = .ok f := by
      rw [hfixed.analyse_append (by rw [name_of_analyse hg]; exact ha)
        (by rw [name_of_analyse hg]; exact hne.symm)]
      exact hf
    refine ⟨_, .snoc (.snoc hq hg) hf', ?_⟩
    rw [← hq.length_eq]
    exact hfixed.relocates (hfixed.relocate_eq_self hf) (hfixed.relocate_eq_self hg)
  | append_singleton later decl ih =>
    rw [← List.append_assoc] at h ⊢
    obtain ⟨q, f, hq, hf, rfl⟩ := built_concat h
    obtain ⟨q', hq', hmoved⟩ := ih hq
    have hlength : q'.functions.length = q.functions.length := by
      rw [hq.length_eq, hq'.length_eq]
      simp
    have hcontains : q'.contains decl.name = q.contains decl.name := by
      rw [Bool.eq_iff_iff, hq.indexed.contains_iff, hq'.indexed.contains_iff, hq.names_eq,
        hq'.names_eq]
      simp [or_left_comm]
    have hf' := analyse_relocate file (fun name _ => hmoved.entry?_exchange hq hq' name) hcontains
    rw [Relocation.exchange_decl, hf] at hf'
    refine ⟨_, .snoc hq' hf', hmoved.append hlength ?_ f⟩
    rw [hq.length_eq]
    simp

/-- Declarations that do not mention each other commute. When two neighbours are exchanged and
neither has the name of the other one in its body, the list is accepted as before, every function
has the signature, the complexity, the slots and the parameters that it had, and every invocation
has the outcome that it had and leaves the same heap. -/
theorem exchange_ofDecls {earlier later : List Decl} {a b : Decl} {p : Program}
    (h : ofDecls file (earlier ++ [a, b] ++ later) = .ok p)
    (ha : b.name ∉ Stmt.namesAll a.body) (hb : a.name ∉ Stmt.namesAll b.body) :
    ∃ p', ofDecls file (earlier ++ [b, a] ++ later) = .ok p' ∧
      p'.functions.length = p.functions.length ∧
      (∀ f ∈ p.functions, ∃ f' ∈ p'.functions, f'.name = f.name ∧ f'.signature = f.signature ∧
        f'.complexity = f.complexity ∧ f'.slots = f.slots ∧ f'.params = f.params) ∧
      ∀ name args heap, p'.invoke name args heap = p.invoke name args heap := by
  have hp : Built file (earlier ++ [a] ++ [b] ++ later) p := ofDecls_ok.mp (by simpa using h)
  obtain ⟨p', hp', hmoved⟩ := hp.exists_exchanged ha hb
  refine ⟨p', ?_, ?_, ?_, ?_⟩
  · rw [← ofDecls_ok] at hp'
    simpa using hp'
  · rw [hp.length_eq, hp'.length_eq]
    simp
  · intro f hf
    obtain ⟨place, hplace⟩ := List.mem_iff_getElem?.mp hf
    have hat := hmoved place
    rw [hplace] at hat
    exact ⟨_, List.mem_of_getElem? hat, rfl, rfl, rfl, rfl, rfl⟩
  · intro name args heap
    have hentry := hmoved.entry?_exchange hp hp' name
    rw [hmoved.invoke hentry (fun _ => rfl) args heap, Relocation.exchange_result]

end Program

/-- A program whose last function calls both others. -/
def Source.relay : Source :=
  ⟨"relay", "up(x: number) { return x + 1; }
    down(x: number) { if (x) return 0; return down(x - 1); }
    both(x: number) { return up(x) * down(x); }"⟩

/-- The first two functions do not mention each other, and it does not matter which of them comes
first. -/
theorem Program.exchange_ofDecls_relay :
    ∃ up down both p p', Source.relay.decls = .ok [up, down, both] ∧
      ofDecls "relay" [up, down, both] = .ok p ∧
      down.name ∉ Stmt.namesAll up.body ∧ up.name ∉ Stmt.namesAll down.body ∧
      ofDecls "relay" [down, up, both] = .ok p' ∧
      p'.invoke "both" [.number 5] ⟨#[]⟩ = p.invoke "both" [.number 5] ⟨#[]⟩ := by
  have hrun : (Source.relay.decls.toOption.bind fun decls =>
      (ofDecls "relay" decls).toOption.map fun _ => decls.map fun decl =>
        (decl.name, Stmt.namesAll decl.body))
      = some [("up", ["x"]), ("down", ["x", "down", "x"]), ("both", ["up", "x", "down", "x"])] := by
    decide +kernel
  obtain ⟨decls, hdecls, hrun⟩ := Option.bind_eq_some_iff.mp hrun
  obtain ⟨p, hprogram, hchecks⟩ := Option.map_eq_some_iff.mp hrun
  obtain ⟨up, _, rfl, hup, hchecks⟩ := List.map_eq_cons_iff.mp hchecks
  obtain ⟨down, _, rfl, hdown, hchecks⟩ := List.map_eq_cons_iff.mp hchecks
  obtain ⟨both, rfl, -⟩ := List.map_eq_singleton_iff.mp hchecks
  obtain ⟨hup, hupNames⟩ := Prod.mk.inj hup
  obtain ⟨hdown, hdownNames⟩ := Prod.mk.inj hdown
  have ha : down.name ∉ Stmt.namesAll up.body := by
    rw [hdown, hupNames]
    decide
  have hb : up.name ∉ Stmt.namesAll down.body := by
    rw [hup, hdownNames]
    decide
  have hprogram : ofDecls "relay" ([] ++ [up, down] ++ [both]) = .ok p :=
    eq_ok_of_toOption hprogram
  obtain ⟨p', hprogram', -, -, hinvoke⟩ := exchange_ofDecls hprogram ha hb
  exact ⟨up, down, both, p, p', eq_ok_of_toOption hdecls, hprogram, ha, hb, hprogram',
    hinvoke "both" _ _⟩

end ArrayScript
