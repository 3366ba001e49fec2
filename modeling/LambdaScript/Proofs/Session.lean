import LambdaScript.Proofs.Scoping
/-!
# Sessions

A session runs programs one after the other on an interpreter, which is made with globals that are
no closures. A program is loaded once and may be run any number of times; some of the runs may fail.
Between runs the store is sound (`Ready`), so that lexical scoping holds at every moment of every
run of a session (`lexical_scoping`).
-/

namespace LambdaScript

open Store

namespace Interpreter

/-- The moment at which a run of a program begins. -/
def start (i : Interpreter) (fuel : Nat) (code : Code) : Moment :=
  ⟨[], fuel, code, i.global, i.machine⟩

/-- Programs have been loaded, which are listed, and have been run as often as one likes. -/
inductive Session : Interpreter → List Code → Prop
  | build {names console limit globals}
      (h : ∀ name c, (name, .function (.closure c)) ∉ globals) :
      Session (build names console limit globals).1 []
  | load {i codes} (tree : Tree) (h : Session i codes) :
      Session (i.load tree).2 (codes ++ [(i.load tree).1])
  | run {i i' codes names fuel code} (h : Session i codes) (hcode : code ∈ codes)
      (hrun : (evalCode names fuel i.global code).EndsOn i i') : Session i' codes

/-- What holds between programs: all closures fit, and lambda nodes have labels of their own. -/
structure Ready (i : Interpreter) (codes : List Code) : Prop where
  sound : Sound codes i.global i.machine.store
  numbered : Numbered codes i.labels

variable {i i' : Interpreter} {codes : List Code} {names : Interner} {fuel : Nat} {code : Code}

/-! ## Making an interpreter -/

theorem Ready.defineGlobal {value : Value} (h : i.Ready []) (names : Interner) (name : String)
    (hvalue : ∀ c, value ≠ .function (.closure c)) :
    (i.defineGlobal names name value).1.Ready [] where
  sound := h.sound.define (.inr rfl) fun c hc => absurd hc (hvalue c)
  numbered := h.numbered

theorem Ready.registerPrelude (h : i.Ready []) (names : Interner) :
    (i.registerPrelude names).1.Ready [] := by
  unfold Interpreter.registerPrelude
  generalize Builtin.all = builtins
  induction builtins generalizing i names with
  | nil => exact h
  | cons b builtins ih =>
    have hvalue : ∀ c, Value.function (.builtin b) ≠ .function (.closure c) := by
      intro c hc
      cases hc
    exact ih (h.defineGlobal names b.name hvalue) _

theorem Ready.defineGlobals (h : i.Ready []) (names : Interner) {globals : List (String × Value)}
    (hglobals : ∀ name c, (name, .function (.closure c)) ∉ globals) :
    (globals.foldl (fun (i, names) (name, value) => Interpreter.defineGlobal i names name value)
      (i, names)).1.Ready [] := by
  induction globals generalizing i names with
  | nil => exact h
  | cons global globals ih =>
    obtain ⟨name, value⟩ := global
    have hvalue : ∀ c, value ≠ .function (.closure c) := by
      rintro c rfl
      exact hglobals name c List.mem_cons_self
    exact ih (h.defineGlobal names name hvalue) _
      fun name c hc => hglobals name c (List.mem_cons_of_mem _ hc)

theorem ready_build (names : Interner) (console : Console) (limit : Nat)
    {globals : List (String × Value)} (h : ∀ name c, (name, .function (.closure c)) ∉ globals) :
    (build names console limit globals).1.Ready [] := by
  have hroot : Ready ⟨⟨⟨#[⟨∅, none⟩]⟩, console, #[], 0⟩, 0, limit, 0⟩ [] := by
    refine ⟨⟨rfl, Nat.lt_succ_self _, fun scope x c hc => ?_⟩, numbered_nil⟩
    rcases scope with _ | scope <;> simp [binding?] at hc
  exact (hroot.registerPrelude names).defineGlobals _ h

/-! ## Running a program -/

/-- Running a computation on an interpreter changes its machine alone. -/
theorem endsOn_onMachine {ε α : Type} {x : Run ε Machine α} (h : (onMachine x).EndsOn i i') :
    ∃ m, x.EndsOn i.machine m ∧ i' = { i with machine := m } := by
  rcases h with ⟨a, h⟩ | ⟨e, h⟩ <;> simp only [onMachine] at h <;>
    cases hx : x i.machine <;> rw [hx] at h <;> cases h
  · exact ⟨_, .inl ⟨_, hx⟩, rfl⟩
  · exact ⟨_, .inr ⟨_, hx⟩, rfl⟩

/-- So does evaluating what has been loaded. -/
theorem endsOn_evalCode {scope : ScopeId} (h : (evalCode names fuel scope code).EndsOn i i') :
    ∃ m, (eval (i.context names) fuel code scope).EndsOn i.machine m ∧
      i' = { i with machine := m } :=
  endsOn_onMachine h

/-- Running a program is evaluating it at its first moment. -/
theorem evalCode_apply (names : Interner) (fuel : Nat) (code : Code) (i : Interpreter) :
    evalCode names fuel i.global code i = match (i.start fuel code).outcome (i.context names) with
      | .done value m => .done value { i with machine := m }
      | .failed error m => .failed error { i with machine := m }
      | .unfinished => .unfinished := by
  have heval : eval (i.context names) fuel code i.global i.machine =
      (i.start fuel code).outcome (i.context names) := rfl
  simp only [evalCode, onMachine, heval]
  cases (i.start fuel code).outcome (i.context names) <;> rfl

theorem outcome_of_done {value : Value}
    (h : evalCode names fuel i.global code i = .done value i') :
    ∃ m, (i.start fuel code).outcome (i.context names) = .done value m ∧
      i' = { i with machine := m } := by
  rw [evalCode_apply] at h
  cases houtcome : (i.start fuel code).outcome (i.context names) <;> rw [houtcome] at h <;> cases h
  exact ⟨_, rfl, rfl⟩

theorem outcome_of_failed {error : RuntimeError}
    (h : evalCode names fuel i.global code i = .failed error i') :
    ∃ m, (i.start fuel code).outcome (i.context names) = .failed error m ∧
      i' = { i with machine := m } := by
  rw [evalCode_apply] at h
  cases houtcome : (i.start fuel code).outcome (i.context names) <;> rw [houtcome] at h <;> cases h
  exact ⟨_, rfl, rfl⟩

/-- A program may be loaded and run at once. -/
theorem evalProgram_apply (names : Interner) (fuel : Nat) (tree : Tree) (i : Interpreter) :
    Interpreter.evalProgram names fuel tree i =
      match (i.start fuel (i.load tree).1).outcome (i.context names) with
      | .done value m => .done value { (i.load tree).2 with machine := m }
      | .failed error m => .failed error { (i.load tree).2 with machine := m }
      | .unfinished => .unfinished :=
  evalCode_apply names fuel (i.load tree).1 (i.load tree).2

theorem Session.program {tree : Tree} (h : Session i codes)
    (hrun : (evalProgram names fuel tree).EndsOn i i') :
    Session i' (codes ++ [(i.load tree).1]) :=
  (h.load tree).run (List.mem_append_right _ List.mem_cons_self) hrun

theorem Ready.load (h : i.Ready codes) (tree : Tree) :
    (i.load tree).2.Ready (codes ++ [(i.load tree).1]) where
  sound := h.sound.subset (List.subset_append_left _ _)
  numbered := h.numbered.append tree

theorem Ready.scoped (h : i.Ready codes) (hcode : code ∈ codes) (names : Interner) (fuel : Nat) :
    Scoped (i.context names) codes i.global (i.start fuel code) (i.start fuel code) where
  reaches := .refl
  sound := h.sound
  gains := .refl _
  shaped := ⟨[], ⟨⟨_, hcode, .root⟩, rfl⟩, .global h.sound.root h.sound.lt_size⟩

/-- All closures fit between runs, also after one that failed. -/
theorem Session.ready (h : Session i codes) : i.Ready codes := by
  induction h with
  | build h => exact ready_build _ _ _ h
  | load tree _ ih => exact ih.load tree
  | @run i i' codes names fuel code _ hcode hrun ih =>
    obtain ⟨m, hend, rfl⟩ := endsOn_evalCode hrun
    have hkeeps := (lexical (i.context names) codes i.global _).keeps (ih.scoped hcode names fuel)
    exact ⟨(hkeeps.of_endsOn hend).sound ih.sound, ih.numbered⟩

/-! ## Lexical scoping -/

/-- Every expression that is evaluated in a session has one place in the programs, and is evaluated
as lexical scoping says. New global variables come from assignments outside of all lambda nodes, and
a program that misses a variable does so at one of these moments. -/
theorem lexical_scoping (h : Session i codes) (hcode : code ∈ codes) (names : Interner)
    (fuel : Nat) :
    (∀ p, Reaches (i.context names) (i.start fuel code) p →
      ∃ around, p.StandsIn codes around ∧
        (∀ around', p.StandsIn codes around' → around' = around) ∧
        LexicalAt (i.context names) codes i.global (i.start fuel code) p around) ∧
    (∀ value i', evalCode names fuel i.global code i = .done value i' →
      Gains (i.context names) codes i.global (i.start fuel code) i.machine.store
        i'.machine.store) ∧
    ∀ error i', evalCode names fuel i.global code i = .failed error i' →
      Gains (i.context names) codes i.global (i.start fuel code) i.machine.store
        i'.machine.store ∧
      ∀ name, error.fault = .undefinedVariable name →
        ∃ p m, Reaches (i.context names) (i.start fuel code) p ∧
          p.Raises (i.context names) (.undefinedVariable name) m ∧
          m.store = i'.machine.store := by
  have hready := h.ready
  have hstart := hready.scoped hcode names fuel
  -- one evaluation from a sound store: all moments in it are scoped, and so is its end
  have hkeeps := (lexical (i.context names) _ i.global _).keeps hstart
  refine ⟨fun p hreaches => ?_, fun value i' hrun => ?_, fun error i' hrun => ?_⟩
  · have hscoped := (lexical (i.context names) _ i.global _).holds hstart hreaches
    obtain ⟨around, hstands, hshaped⟩ := hscoped.shaped
    refine ⟨around, hstands, fun around' hstands' => ?_, hscoped.lexicalAt hshaped⟩
    exact hstands'.eq hready.numbered hstands
  · obtain ⟨m, houtcome, rfl⟩ := outcome_of_done hrun
    exact (hkeeps.of_done houtcome).1.gains
  · obtain ⟨m, houtcome, rfl⟩ := outcome_of_failed hrun
    rw [houtcome] at hkeeps
    refine ⟨hkeeps.gains, fun name hfault => ?_⟩
    obtain ⟨p, m₁, hreaches, hraises, -, hstore⟩ := Moment.exists_raises houtcome
    rw [hfault] at hraises
    exact ⟨p, m₁, hreaches, hraises, hstore⟩

/-- The program `(lambda (x) x)(true)`, `x` being the name with the number 7. -/
def identityCall : Tree :=
  .call .dummy (.lambda .dummy () [⟨7⟩] (.var .dummy ⟨7⟩)) [.bool .dummy true]

/-- The body of the function in `identityCall` is evaluated in a scope inside the global one. -/
theorem lexical_scoping_identityCall : ∃ i code p, Session i [code] ∧
    Reaches ⟨.fresh, 1⟩ (i.start 2 code) p ∧ p.code = .var .dummy ⟨7⟩ ∧
      (p.machine.store.chain p.scope).length = 2 := by
  have hsession : Session ((build .fresh (.buffer "") 1 []).1.load identityCall).2
      [(identityCall.numbered 0).1] :=
    .load identityCall (.build fun _ _ => List.not_mem_nil)
  have henters : Enters ⟨.fresh, 1⟩ (eval ⟨.fresh, 1⟩ 1) 0
      (build .fresh (.buffer "") 1 []).1.machine
      (.call .dummy (.lambda .dummy 0 [⟨7⟩] (.var .dummy ⟨7⟩)) [.bool .dummy true])
      ⟨0, [⟨7⟩], .var .dummy ⟨7⟩, 0⟩ _ _ :=
    .call rfl rfl (by decide) (enterScope_apply _ _ _)
  have hreaches : Reaches ⟨.fresh, 1⟩
      (((build .fresh (.buffer "") 1 []).1.load identityCall).2.start 2
        (identityCall.numbered 0).1) _ :=
    .single (.body henters)
  obtain ⟨around, -, hunique, hlexical⟩ :=
    (lexical_scoping hsession List.mem_cons_self .fresh 2).1 _ hreaches
  obtain rfl := hunique [⟨0, [⟨7⟩]⟩]
    ⟨⟨_, List.mem_cons_self, .body (.part .root List.mem_cons_self)⟩, rfl⟩
  exact ⟨_, _, _, hsession, hreaches, rfl, hlexical.length_chain⟩

end Interpreter

end LambdaScript
