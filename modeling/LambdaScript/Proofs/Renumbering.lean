import LambdaScript.Proofs.Limits
import LambdaScript.Proofs.Rereading
import LambdaScript.Proofs.Words
/-!
# The numbers of strings do not matter

Two interners number the same strings differently. Both are carried into a third one that holds the
strings of both (`Interner.carry`), and what is shown of a source there is what is shown of it under
either of the two. So nothing that is shown depends on what an interner holds already
(`same_shown_of_made`).
-/

namespace LambdaScript

namespace Interner

variable {names later : Interner}

/-- Every string that the first interner holds, the second one holds too. -/
def HeldBy (names later : Interner) : Prop :=
  ∀ n s, names.find? n = some s → ∃ m, later.find? m = some s

/-- The number that a string has under another interner. A number that is not in use becomes another
one that is not. -/
def carry (names later : Interner) (n : Name) : Name :=
  ((names.find? n).bind (later.ids[·]?)).getD ⟨later.strings.size + n.index⟩

theorem HeldBy.of_grows {first : Interner} (hgrows : first.Grows names) (h : names.HeldBy later) :
    first.HeldBy later :=
  fun n s hn => h n s (hgrows n s hn)

/-- There is an interner that holds some strings. -/
theorem exists_holding (strings : List String) :
    ∃ later : Interner, later.Consistent ∧ ∀ s ∈ strings, ∃ n, later.find? n = some s := by
  induction strings with
  | nil => exact ⟨fresh, consistent_fresh, List.forall_mem_nil _⟩
  | cons s strings ih =>
    obtain ⟨later, hlater, hholds⟩ := ih
    refine ⟨(later.intern s).2, consistent_intern hlater s, ?_⟩
    refine List.forall_mem_cons.mpr ⟨⟨_, find?_intern hlater s⟩, fun t ht => ?_⟩
    obtain ⟨n, hn⟩ := hholds t ht
    exact ⟨n, grows_intern later s n t hn⟩

/-- Two interners have a third one that holds the strings of both. -/
theorem exists_common (names names' : Interner) :
    ∃ later : Interner, later.Consistent ∧ names.HeldBy later ∧ names'.HeldBy later := by
  obtain ⟨later, hlater, hholds⟩ := exists_holding (names.strings.toList ++ names'.strings.toList)
  refine ⟨later, hlater, fun n s hn => hholds s ?_, fun n s hn => hholds s ?_⟩
  · exact List.mem_append_left _ (Array.mem_def.mp (Array.mem_of_getElem? hn))
  · exact List.mem_append_right _ (Array.mem_def.mp (Array.mem_of_getElem? hn))

theorem carry_of_find?_eq_none {n : Name} (hn : names.find? n = none) :
    names.carry later n = ⟨later.strings.size + n.index⟩ := by
  rw [carry, hn]
  rfl

theorem find?_carry_of_find?_eq_none {n : Name} (hn : names.find? n = none) :
    later.find? (names.carry later n) = none := by
  rw [carry_of_find?_eq_none hn, find?]
  exact Array.getElem?_eq_none (Nat.le_add_right _ _)

section
variable (hlater : later.Consistent) (hheld : names.HeldBy later)
include hlater hheld

theorem find?_carry {n : Name} {s : String} (hn : names.find? n = some s) :
    later.find? (names.carry later n) = some s := by
  obtain ⟨m, hm⟩ := hheld n s hn
  rw [carry, hn, Option.bind_some, (hlater s m).mpr hm]
  exact hm

theorem intern_carry {n : Name} {s : String} (hn : names.find? n = some s) :
    later.intern s = (names.carry later n, later) :=
  intern_of_find? hlater (find?_carry hlater hheld hn)

theorem spelling_carry (n : Name) : later.spelling (names.carry later n) = names.spelling n := by
  rw [spelling, spelling]
  cases hn : names.find? n with
  | none => rw [find?_carry_of_find?_eq_none hn]
  | some s => rw [find?_carry hlater hheld hn]

theorem carry_injective (h : names.Consistent) : Function.Injective (names.carry later) := by
  intro n m heq
  have hfind := congrArg later.find? heq
  cases hn : names.find? n with
  | none =>
    cases hm : names.find? m with
    | none =>
      rw [carry_of_find?_eq_none hn, carry_of_find?_eq_none hm, Name.mk.injEq] at heq
      obtain ⟨n⟩ := n
      obtain ⟨m⟩ := m
      exact congrArg Name.mk (Nat.add_left_cancel heq)
    | some t =>
      rw [find?_carry_of_find?_eq_none hn, find?_carry hlater hheld hm] at hfind
      contradiction
  | some s =>
    cases hm : names.find? m with
    | none =>
      rw [find?_carry hlater hheld hn, find?_carry_of_find?_eq_none hm] at hfind
      contradiction
    | some t =>
      rw [find?_carry hlater hheld hn, find?_carry hlater hheld hm, Option.some.injEq] at hfind
      subst hfind
      exact Option.some.inj (((h s n).mpr hn).symm.trans ((h s m).mpr hm))

end
end Interner

open Interpreter

/-! ## Tokens -/

/-- The token that is spelled like this. -/
def Word.kind (names : Interner) : Word → TokenKind
  | .number x => .number x
  | .string contents => .string (names.intern contents).1
  | .identifier name => .identifier (names.intern name).1
  | .keyword word => .keyword word
  | .punct mark => .punct mark
  | .operator spelling => .operator (names.intern spelling).1

/-- The token that is spelled like this, with this span. -/
def Token.ofSpoken (names : Interner) (w : Word × Span) : Token := ⟨w.1.kind names, w.2⟩

/-- Strings are numbered by another interner, and spans stay as they are. -/
def Renaming.renumber (names later : Interner) : Renaming := ⟨names.carry later, id⟩

namespace Renaming

variable {names later : Interner}

theorem reads_renumber (names later : Interner) : (renumber names later).Reads id :=
  ⟨⟨fun _ _ => rfl⟩, fun _ => rfl, rfl⟩

theorem error_renumber (e : RuntimeError) : (renumber names later).error e = e := by
  obtain ⟨fault, span⟩ := e
  cases span <;> rfl

/-- Errors stay as they are. -/
theorem parsed_renumber (r : Except SyntaxError Tree) :
    (renumber names later).parsed r = r.map (renumber names later).expr := by
  rcases r with ⟨⟨_⟩⟩ | tree <;> rfl

section
variable (hlater : later.Consistent) (hheld : names.HeldBy later)
include hlater hheld

theorem respells_renumber : (renumber names later).Respells names later :=
  Interner.spelling_carry hlater hheld

/-- A token that is known is the one with its spelling. -/
theorem token_renumber {t : Token} (ht : t.kind.Known names) :
    (renumber names later).token t = .ofSpoken later (t.spoken names) := by
  have hname : ∀ n, t.kind.name? = some n →
      (renumber names later).name n = (later.intern (names.spelling n)).1 := by
    intro n hn
    obtain ⟨s, hs⟩ := Option.isSome_iff_exists.mp (ht n hn)
    rw [Interner.spelling, hs, Option.getD_some, Interner.intern_carry hlater hheld hs]
    rfl
  obtain ⟨kind, span⟩ := t
  cases kind with
  | number | keyword | punct => rfl
  | string n | identifier n | operator n =>
    simp only [token, Renaming.kind, hname n rfl, Token.ofSpoken, Token.spoken, TokenKind.word,
      Word.kind]
    rfl

end
end Renaming

/-! ## Sources -/

/-- The tokens of a source as they are spelled. -/
def spokenSource (source : String) (names : Interner) : List (Word × Span) :=
  (scanSource source names).tokens.map (Token.spoken (scanSource source names).names)

/-- What the grammar makes of a source if its strings are numbered by another interner. -/
def reread (source : String) (names later : Interner) : Except SyntaxError Tree :=
  (Grammar.Config.start.run later (scanSource source names).ending
    ((spokenSource source names).map (Token.ofSpoken later))).1

section
variable {source : String} {names last later : Interner} (h : names.Consistent)
  (hgrows : (scanSource source names).names.Grows last) (hlater : later.Consistent)
  (hheld : last.HeldBy later)
include h hgrows hlater hheld

theorem tokens_renumber :
    (scanSource source names).tokens.map (Renaming.renumber last later).token =
      (spokenSource source names).map (.ofSpoken later) := by
  rw [spokenSource, List.map_map]
  refine List.map_congr_left fun t ht => ?_
  have hknown := known_of_mem_scanSource h ht
  rw [Function.comp_apply, ← Token.spoken_of_grows hknown hgrows,
    Renaming.token_renumber hlater hheld (hknown.grows hgrows)]

theorem respellsKind_of_mem_scanSource {t : Token} (ht : t ∈ (scanSource source names).tokens) :
    (Renaming.renumber last later).RespellsKind (scanSource source names).names later t.kind := by
  intro n hn
  have hspelling : last.spelling n = (scanSource source names).names.spelling n :=
    hgrows.spelling_eq (known_of_mem_scanSource h ht n hn)
  rw [Renaming.respells_renumber hlater hheld, hspelling]

/-- Reading a source, with its strings numbered by another interner. -/
theorem map_parseSource :
    (parseSource source names).1.map (Renaming.renumber last later).expr =
      reread source names later := by
  have hrun := Grammar.run_renamed (Renaming.reads_renumber last later)
    (scanSource source names).ending .start
    fun t ht => respellsKind_of_mem_scanSource h hgrows hlater hheld ht
  have hparse : (parseSource source names).1 = _ :=
    Grammar.parse_eq_run (presents_ofString source h)
  have hending : (scanSource source names).ending.map id = (scanSource source names).ending := by
    cases (scanSource source names).ending <;> rfl
  rw [hending, tokens_renumber h hgrows hlater hheld] at hrun
  rw [← Renaming.parsed_renumber, hparse, reread, ← hrun]
  rfl

end

/-! ## The built-ins -/

namespace Interpreter

/-- Bind some built-ins under their names as globals. -/
def bindBuiltins (builtins : List Builtin) (i : Interpreter) (names : Interner) :
    Interpreter × Interner :=
  builtins.foldl (fun (i, names) b => i.defineGlobal names b.name (.function (.builtin b)))
    (i, names)

theorem bindBuiltins_cons (b : Builtin) (builtins : List Builtin) (i : Interpreter)
    (names : Interner) : bindBuiltins (b :: builtins) i names =
      bindBuiltins builtins (i.defineGlobal names b.name (.function (.builtin b))).1
        (i.defineGlobal names b.name (.function (.builtin b))).2 := rfl

theorem consistent_bindBuiltins (builtins : List Builtin) (i : Interpreter) {names : Interner}
    (h : names.Consistent) : (bindBuiltins builtins i names).2.Consistent := by
  induction builtins generalizing i names with
  | nil => exact h
  | cons b builtins ih => exact ih _ (Interner.consistent_intern h b.name)

theorem grows_bindBuiltins (builtins : List Builtin) (i : Interpreter) (names : Interner) :
    names.Grows (bindBuiltins builtins i names).2 := by
  induction builtins generalizing i names with
  | nil => exact .refl names
  | cons b builtins ih => exact (Interner.grows_intern names b.name).trans (ih _ _)

/-- An interpreter without variables. -/
def bare (console : Console) : Interpreter := ⟨⟨⟨#[⟨∅, none⟩]⟩, console, #[], 0⟩, 0, 0, 0⟩

theorem startMachine_eq (names : Interner) (console : Console) :
    startMachine names console = (bindBuiltins Builtin.all (bare console) names).1.machine := rfl

theorem startNames_eq (names : Interner) (console : Console) :
    startNames names = (bindBuiltins Builtin.all (bare console) names).2 := rfl

theorem consistent_startNames {names : Interner} (h : names.Consistent) :
    (startNames names).Consistent := by
  rw [startNames_eq names (.buffer "")]
  exact consistent_bindBuiltins Builtin.all _ h

theorem grows_startNames (names : Interner) : names.Grows (startNames names) := by
  rw [startNames_eq names (.buffer "")]
  exact grows_bindBuiltins Builtin.all _ names

end Interpreter

namespace Translation

/-- Under another interner that holds the same strings. -/
def renumber {names later : Interner} (limit : Nat) (h : names.Consistent)
    (hlater : later.Consistent) (hheld : names.HeldBy later) :
    Translation ⟨names, limit⟩ ⟨later, limit⟩ where
  toRenaming := .renumber names later
  injective := Interner.carry_injective hlater hheld h
  respells := Renaming.respells_renumber hlater hheld
  limit_le := Nat.le_refl limit
  extra := 0

variable {ctx ctx' : Context} {T : Translation ctx ctx'}

/-- Built-ins are bound under names that correspond. -/
theorem machines_bindBuiltins (hlater : ctx'.names.Consistent)
    (hfind : ∀ n s, ctx.names.find? n = some s → ctx'.names.find? (T.name n) = some s)
    {builtins : List Builtin} {i i' : Interpreter} {names : Interner} (h : names.Consistent)
    (hgrows : (bindBuiltins builtins i names).2.Grows ctx.names) (hglobal : i'.global = i.global)
    (hm : T.Machines i.machine i'.machine) :
    T.Machines (bindBuiltins builtins i names).1.machine
      (bindBuiltins builtins i' ctx'.names).1.machine := by
  induction builtins generalizing i i' names with
  | nil => exact hm
  | cons b builtins ih =>
    -- the other interner holds the name already, so that nothing is added there
    have hlast : (names.intern b.name).2.Grows ctx.names :=
      (grows_bindBuiltins builtins _ _).trans hgrows
    have hintern : ctx'.names.intern b.name = (T.name (names.intern b.name).1, ctx'.names) :=
      Interner.intern_of_find? hlater (hfind _ _ (hlast _ _ (Interner.find?_intern h b.name)))
    have hdefine : i'.defineGlobal ctx'.names b.name (.function (.builtin b)) =
        (⟨i'.machine.define i.global (T.name (names.intern b.name).1) (.function (.builtin b)),
          i'.global, i'.limit, i'.labels⟩, ctx'.names) := by
      rw [defineGlobal, hintern, hglobal]
    have hstore := hm.store.define i.global (names.intern b.name).1 (.function (.builtin b))
    rw [bindBuiltins_cons, bindBuiltins_cons, hdefine]
    exact ih (Interner.consistent_intern h b.name) hgrows hglobal
      ⟨hstore, hm.console, hm.writes, hm.depth⟩

theorem machines_bare (console : Console) :
    T.Machines (bare console).machine (bare console).machine := by
  refine ⟨⟨rfl, fun _ => rfl, fun scope x => ?_⟩, rfl, rfl, rfl⟩
  rcases scope with _ | scope <;> simp [Store.binding?, bare]

theorem machines_start {names later : Interner} {limit : Nat} (h : names.Consistent)
    (hlater : later.Consistent) (hheld : (startNames names).HeldBy later) (console : Console) :
    (renumber limit (consistent_startNames h) hlater hheld).Machines (startMachine names console)
      (startMachine later console) := by
  have hgrows : (bindBuiltins Builtin.all (bare console) names).2.Grows (startNames names) := by
    rw [startNames_eq names console]
    exact .refl _
  have hfind : ∀ n s, (startNames names).find? n = some s →
      later.find? ((startNames names).carry later n) = some s :=
    fun n s hn => Interner.find?_carry hlater hheld hn
  rw [startMachine_eq, startMachine_eq]
  exact machines_bindBuiltins (T := renumber limit (consistent_startNames h) hlater hheld) hlater
    hfind h hgrows rfl (machines_bare console)

end Translation

/-! ## What is shown -/

/-- The tokens of a source, each with its span and as an error message names it. -/
def shownTokens (source : String) (names : Interner) :
    Except LexError (List (Span × String)) :=
  let (result, names) := lex source names
  result.map (List.map fun t => (t.span, t.kind.describe names))

/-- The tree of a source, with the spans of its nodes. -/
def shownTree (source : String) (names : Interner) :
    Except SyntaxError (List (NodeKind × Span) × String) :=
  let (result, names) := parseSource source names
  result.map fun tree => (tree.nodes, tree.dump names)

/-- What can be seen of a run that came to an end: the kind and the text of its value, or its error,
and what was printed and written. -/
def Outcome.shown : Outcome RunError Aftermath Value →
    Option (Except RunError (Kind × String) × Console × Array FileWrite)
  | .done value a => some (.ok (value.kind, value.display a.names), a.console, a.writes)
  | .failed e a => some (.error e, a.console, a.writes)
  | .unfinished => none

/-- A run that follows another one under a renumbering shows the same. -/
theorem Translation.shown_of_follows {names later : Interner} {limit : Nat}
    (h : names.Consistent) (hlater : later.Consistent) (hheld : names.HeldBy later)
    {o o' : Outcome RuntimeError Machine Value}
    (hfollows : (Translation.renumber limit h hlater hheld).Follows
      (Translation.renumber limit h hlater hheld).value o o') :
    (o.leaving names).shown = (o'.leaving later).shown := by
  cases hfollows with
  | @done value m m' hm =>
    have hdisplay := Renaming.display_value (Renaming.respells_renumber hlater hheld) value
    simp only [Outcome.leaving, Outcome.shown, Renaming.kind_value, hm.console, hm.writes]
    rw [← hdisplay]
    rfl
  | @failed e m m' hm =>
    simp only [Outcome.leaving, Outcome.shown, hm.console, hm.writes]
    rw [show (Translation.renumber limit h hlater hheld).error e = e from Renaming.error_renumber e]
  | overflowed hless => exact absurd hless (Nat.lt_irrefl limit)
  | unfinished => rfl
  | more hextra => exact absurd hextra (Nat.lt_irrefl 0)

section
variable {source : String} {names later : Interner} (h : names.Consistent)
  (hlater : later.Consistent)
  (hheld : (startNames (scanSource source names).names).HeldBy later)

include h hlater hheld

theorem shownTokens_eq : shownTokens source names = (scanSource source names).ending.map fun _ =>
    ((spokenSource source names).map (Token.ofSpoken later)).map fun t =>
      (t.span, t.kind.describe later) := by
  have hscan := hheld.of_grows (grows_startNames _)
  have hdescribe : ∀ t ∈ (scanSource source names).tokens,
      (t.span, t.kind.describe (scanSource source names).names) =
        (t.span, ((Renaming.renumber (scanSource source names).names later).kind t.kind).describe
          later) := by
    intro t ht
    rw [Grammar.describe_kind (respellsKind_of_mem_scanSource h (.refl _) hlater hscan ht)]
  rw [shownTokens, lex_eq_scan, ← tokens_renumber h (.refl _) hlater hscan, List.map_map]
  cases (scanSource source names).ending with
  | error e => rfl
  | ok offset => exact congrArg Except.ok (List.map_congr_left hdescribe)

theorem shownTree_eq : shownTree source names =
    (reread source names later).map fun tree => (tree.nodes, tree.dump later) := by
  -- the built-ins are not numbered yet when the tree is shown
  have hscan := hheld.of_grows (grows_startNames _)
  rw [← map_parseSource h (.refl _) hlater hscan, shownTree]
  rcases hparse : parseSource source names with ⟨e | tree, last⟩
  · rfl
  · obtain ⟨-, rfl⟩ := (parseSource_eq_ok_iff h).mp hparse
    have hnodes := Renaming.nodes_expr (.renumber (scanSource source names).names later) tree
    have hdump := Renaming.dump_expr (Renaming.respells_renumber hlater hscan) tree
    have hspans : ∀ nodes : List (NodeKind × Span), nodes.map (Prod.map id id) = nodes :=
      fun nodes => by rw [Prod.map_id, List.map_id]
    simp only [Except.map, hnodes, hdump]
    rw [show (Renaming.renumber (scanSource source names).names later).span = id from rfl, hspans]

theorem shown_runSource (limit : Nat) (console : Console) (fuel : Nat) :
    (runSource source names limit console fuel).shown =
      match reread source names later with
      | .error e => some (.error (.syntactic e), console, #[])
      | .ok tree =>
        ((eval ⟨later, limit⟩ fuel (tree.numbered 0).1 0 (startMachine later console)).leaving
          later).shown := by
  rw [← map_parseSource h (grows_startNames _) hlater hheld, runSource_eq]
  rcases hparse : parseSource source names with ⟨e | tree, last⟩
  · rfl
  · obtain ⟨-, rfl⟩ := (parseSource_eq_ok_iff h).mp hparse
    have hscan : (scanSource source names).names.Consistent := consistent_scanSource h
    have hlast := consistent_startNames hscan
    have hfollows := (Translation.renumber limit hlast hlater hheld).imitates_eval fuel
      (tree.numbered 0).1 0 _ _ (Translation.machines_start hscan hlater hheld console)
    have hshown := Translation.shown_of_follows hlast hlater hheld hfollows
    have hnumbered := Renaming.numbered_expr
      (.renumber (startNames (scanSource source names).names) later) 0 tree
    simp only [Except.map, hnumbered]
    exact hshown

end

/-- What is shown of a source, of its tree and of its run does not depend on what the interner holds
already. -/
theorem same_shown_of_made {names names' : Interner} (h : names.Made) (h' : names'.Made)
    (source : String) :
    shownTokens source names' = shownTokens source names ∧
      shownTree source names' = shownTree source names ∧
      ∀ limit console fuel, (runSource source names' limit console fuel).shown =
        (runSource source names limit console fuel).shown := by
  have hnames := h.consistent
  have hnames' := h'.consistent
  obtain ⟨hending, hwords⟩ := Lexer.words_scan (l := ⟨.ofString source, names⟩) hnames hnames'
  have hending' : (scanSource source names').ending = (scanSource source names).ending := hending
  have hwords' : spokenSource source names' = spokenSource source names := hwords
  -- what is shown under either interner is shown under one that holds the strings of both
  obtain ⟨later, hlater, hheld, hheld'⟩ := Interner.exists_common
    (startNames (scanSource source names).names) (startNames (scanSource source names').names)
  have hreread : reread source names' later = reread source names later := by
    rw [reread, reread, hending', hwords']
  refine ⟨?_, ?_, fun limit console fuel => ?_⟩
  · rw [shownTokens_eq hnames hlater hheld, shownTokens_eq hnames' hlater hheld', hending', hwords']
  · rw [shownTree_eq hnames hlater hheld, shownTree_eq hnames' hlater hheld', hreread]
  · rw [shown_runSource hnames hlater hheld, shown_runSource hnames' hlater hheld', hreread]

/-- A function is shown with the names of its parameters. -/
def shownFunction : String := "f = lambda (x, y) x; print(f); f"

/-- With `y` numbered first, the parameters have other numbers and the same names. -/
theorem same_shown_of_made_shownFunction :
    Interner.fresh.Made ∧ (Interner.fresh.intern "y").2.Made ∧
      (lex shownFunction (Interner.fresh.intern "y").2).2.ids["y"]? ≠
        (lex shownFunction .fresh).2.ids["y"]? ∧
      shownTree shownFunction (Interner.fresh.intern "y").2 = shownTree shownFunction .fresh ∧
      (runSource shownFunction (Interner.fresh.intern "y").2 1 (.buffer "") 9).shown =
        some (.ok (.function, "<lambda(x, y)>"), .buffer "<lambda(x, y)>\n", #[]) := by
  obtain ⟨-, htree, hrun⟩ := same_shown_of_made .fresh (.intern "y" .fresh) shownFunction
  refine ⟨.fresh, .intern "y" .fresh, by decide +kernel, htree, ?_⟩
  rw [hrun]
  decide +kernel

end LambdaScript
