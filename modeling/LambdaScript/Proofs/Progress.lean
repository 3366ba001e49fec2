import LambdaScript.Proofs.Lookahead
import LambdaScript.Proofs.Recursion
/-!
# Lexing and parsing come to an end

Every pass of a loop takes something off the source or is the last one: the lexer takes a character,
the loops of the grammar take a token. So do a token that is read, and an expression, an atom and a
parameter that are parsed. There are at most as many tokens as characters, and calls of parsers are
nested at most twice as deep as there are tokens; a parser comes to an end whatever the source is,
and in whatever state it is called (`reading_ends`).
-/

namespace LambdaScript

/-! ## Characters -/

namespace Lexer

/-- One pass of the loop that looks for the next token; `again` stands for those that follow. -/
def pass (again : Lexer → Except LexError (Option Token) × Lexer) (l : Lexer) :
    Except LexError (Option Token) × Lexer :=
  match (l.chars.eatWhile isBlank).2.rest with
  | [] => (.ok none, ⟨(l.chars.eatWhile isBlank).2, l.names⟩)
  | c :: _ =>
    if c = '#' then again ⟨(l.chars.eatWhile isBlank).2.skipLine, l.names⟩
    else
      match readKind ⟨(l.chars.eatWhile isBlank).2, l.names⟩ c with
      | (.ok kind, m) =>
        (.ok (some ⟨kind, ⟨(l.chars.eatWhile isBlank).2.offset, m.chars.offset⟩⟩), m)
      | (.error e, m) => (.error e, m)

theorem read_eq_pass (l : Lexer) : l.read = l.pass read := read_eq l

/-- A pass is the last one, or it takes a comment off the source, which has a character at least. -/
theorem pass_cases (l : Lexer) : (∃ result, ∀ again, l.pass again = result) ∨
    ∃ m : Lexer, m.chars.rest.length < l.chars.rest.length ∧ ∀ again, l.pass again = again m := by
  have hblank := CharStream.length_rest_eatWhile_le l.chars isBlank
  unfold pass
  cases hrest : (l.chars.eatWhile isBlank).2.rest with
  | nil => exact .inl ⟨_, fun _ => rfl⟩
  | cons c tail =>
    by_cases hhash : c = '#'
    · have hline := CharStream.length_rest_skipLine_lt hrest
      refine .inr ⟨⟨(l.chars.eatWhile isBlank).2.skipLine, l.names⟩,
        Nat.lt_of_lt_of_le hline hblank, fun again => ?_⟩
      dsimp only
      rw [if_pos hhash]
    · dsimp only
      simp only [if_neg hhash]
      exact .inl ⟨_, fun _ => rfl⟩

/-- There are at most as many tokens as characters. -/
theorem length_tokens_scan_le (l : Lexer) : l.scan.tokens.length ≤ l.chars.rest.length := by
  fun_induction scan l with
  | case1 l t rest hread more ih =>
    have hlt := length_rest_read_lt hread
    have hle : more.tokens.length ≤ rest.chars.rest.length := ih
    rw [List.length_cons]
    omega
  | case2 l rest hread => exact Nat.zero_le _
  | case3 l e rest hread => exact Nat.zero_le _

/-- What the lexer takes off its source when it is asked for a token. -/
structure TakesCharacters (l : Lexer) : Prop where
  loop : l.read = l.pass read
  /-- A pass is the last one, or goes on with a character less. -/
  pass : (∃ result, ∀ again, l.pass again = result) ∨
    ∃ m : Lexer, m.chars.rest.length < l.chars.rest.length ∧ ∀ again, l.pass again = again m
  token : ∀ t m, l.read = (.ok (some t), m) → m.chars.rest.length < l.chars.rest.length

theorem takesCharacters (l : Lexer) : l.TakesCharacters :=
  ⟨l.read_eq_pass, l.pass_cases, fun _ _ h => length_rest_read_lt h⟩

end Lexer

/-! ## Tokens -/

namespace Parser

/-- The parser takes a token at least whenever it succeeds. -/
def Progresses {α : Type} (x : Parser TokenStream α) : Prop :=
  ∀ s : TokenStream, x.Yields s fun _ t => t.left.length < s.left.length

/-- A round of a loop leaves the loop, or it goes on with fewer than `n` tokens left; `again` stands
for the rounds that follow. -/
def Rounds {κ α : Type} (n : Nat) (round : (κ → Parser TokenStream α) → Parser TokenStream α)
    (s : TokenStream) : Prop :=
  (∃ outcome, ∀ again, round again s = outcome) ∨
    ∃ k t, t.left.length < n ∧ ∀ again, round again s = again k t

section
variable {κ α β : Type} {n : Nat} {s : TokenStream}

theorem rounds_leave (p : Parser TokenStream α) :
    Rounds n (fun _ : κ → Parser TokenStream α => p) s := .inl ⟨p s, fun _ => rfl⟩

theorem rounds_again (k : κ) (h : s.left.length < n) :
    Rounds n (fun again : κ → Parser TokenStream α => again k) s := .inr ⟨k, s, h, fun _ => rfl⟩

theorem rounds_bind {x : Parser TokenStream α}
    {f : (κ → Parser TokenStream β) → α → Parser TokenStream β}
    (h : x.Yields s fun a t => Rounds n (fun again => f again a) t) :
    Rounds n (fun again => x >>= f again) s := by
  cases hx : x s with
  | done a t =>
    rcases h a t hx with ⟨outcome, hleave⟩ | ⟨k, u, hlt, hagain⟩
    · exact .inl ⟨outcome, fun again => (Run.bind_of_done hx).trans (hleave again)⟩
    · exact .inr ⟨k, u, hlt, fun again => (Run.bind_of_done hx).trans (hagain again)⟩
  | failed e t => exact .inl ⟨_, fun _ => Run.bind_of_failed hx⟩
  | unfinished => exact .inl ⟨_, fun _ => Run.bind_of_unfinished hx⟩

end

section
variable {α : Type} {b : Brackets} {item : Parser TokenStream α}

/-- The first round of the loop over the items of a list. -/
def firstRound (b : Brackets) (item : Parser TokenStream α)
    (again : List α → Parser TokenStream (List α)) : Parser TokenStream (List α) := do
  if ← nextIsPunct b.closing then return []
  let first ← item
  again [first]

/-- A later round, in which a separator is expected first. -/
def laterRound (b : Brackets) (item : Parser TokenStream α) (before : List α)
    (again : List α → Parser TokenStream (List α)) : Parser TokenStream (List α) := do
  if ← nextIsPunct b.closing then return before.reverse
  let _ ← expectPunct b.separator
  if ← nextIsPunct b.closing then return before.reverse
  let next ← item
  again (next :: before)

variable (hitem : Progresses item)
include hitem

theorem rounds_firstRound (s : TokenStream) : Rounds s.left.length (firstRound b item) s := by
  refine rounds_bind (yields_nextIsPunct fun look t _ _ ht => ?_)
  rw [← ht]
  cases look.any (·.isPunct b.closing) with
  | true => exact rounds_leave _
  | false => exact rounds_bind ((hitem t).imp fun first u hu => rounds_again _ hu)

theorem rounds_laterRound (before : List α) (s : TokenStream) :
    Rounds s.left.length (laterRound b item before) s := by
  refine rounds_bind (yields_nextIsPunct fun look t _ _ ht => ?_)
  rw [← ht]
  cases look.any (·.isPunct b.closing) with
  | true => exact rounds_leave _
  | false =>
    refine rounds_bind (yields_expectPunct fun _ u hu => ?_)
    refine rounds_bind (yields_nextIsPunct fun look v _ _ hv => ?_)
    rw [← hv] at hu
    cases look.any (·.isPunct b.closing) with
    | true => exact rounds_leave _
    | false =>
      exact rounds_bind ((hitem v).imp fun next w hw => rounds_again _ (Nat.lt_trans hw hu))

end

end Parser

namespace Grammar

open Run Routine LambdaScript.Parser

/-- One round of the loop over the expressions of a program. -/
def programRound (fuel : Nat) (before : List Tree)
    (again : List Tree → Parser TokenStream (List Tree)) : Parser TokenStream (List Tree) := do
  if ← atEnd then return before.reverse
  let item ← expression fuel
  unless ← atEnd do
    let _ ← expectPunct .semicolon
  again (item :: before)

theorem rounds_programRound (fuel : Nat) (before : List Tree) (s : TokenStream) :
    Rounds s.left.length (programRound fuel before) s := by
  refine rounds_bind (yields_atEnd fun ended t ht => ?_)
  rw [← ht]
  cases ended with
  | true => exact rounds_leave _
  | false =>
    refine rounds_bind ((spends fuel .expression t).imp fun item u (hu : _ < _) => ?_)
    refine rounds_bind (yields_atEnd fun ended v hv => ?_)
    rw [← hv] at hu
    cases ended with
    | true => exact rounds_bind (yields_pure (rounds_again _ hu))
    | false =>
      exact rounds_bind (yields_expectPunct fun _ w hw => rounds_again _ (Nat.lt_trans hw hu))

/-- One round of a routine, the calls in which are answered by the parsers with this fuel. -/
def Routine.round (fuel : Nat) (a : Routine) (again : Routine → Parser TokenStream Tree) :
    Parser TokenStream Tree := a.body (parser fuel) again fuel

/-- The loop over the operators behind an operand. -/
theorem rounds_climb (fuel : Nat) (left : Tree) (bound : Nat) (s : TokenStream) :
    Rounds s.left.length ((Routine.climb left bound).round fuel) s := by
  refine rounds_bind (yields_nextConnective fun look t _ hpeeked ht => ?_)
  rw [← ht]
  cases hconnective : look.bind (connective? t.names) with
  | none => exact rounds_leave _
  | some c =>
    dsimp only
    by_cases hle : c.precedence ≤ bound
    · simp only [if_pos hle]
      exact rounds_leave _
    simp only [if_neg hle]
    -- the round goes on behind the operator, which is a token less for all that follows
    refine rounds_bind (yields_advance hpeeked fun u hu => ?_)
    obtain ⟨token, rfl, -⟩ := Option.bind_eq_some_iff.mp hconnective
    have hult : u.left.length < t.left.length := by
      rw [hu]
      exact Nat.lt_succ_self _
    refine rounds_bind ((spends fuel .atom u).imp fun first v (hv : _ < _) => ?_)
    refine rounds_bind ((spends fuel (.climb first _) v).imp fun right w (hw : _ ≤ _) => ?_)
    exact rounds_bind (yields_combine fun whole => rounds_again _ (by omega))

/-- The loop over the arguments behind an atom. -/
theorem rounds_suffixes (fuel : Nat) (callee : Tree) (s : TokenStream) :
    Rounds s.left.length ((Routine.suffixes callee).round fuel) s := by
  refine rounds_bind (yields_nextIsPunct fun look t _ _ ht => ?_)
  rw [← ht]
  cases look.any (·.isPunct .openParen) with
  | false => exact rounds_leave _
  | true =>
    have hargs : Spends (delimited .round (parser fuel .expression) fuel)
        (delimited .round (parser fuel .expression) fuel) t :=
      spends_delimited (fun u _ => agrees_of_le fuel fuel .expression u (.inl (Nat.le_refl _)))
        (.inl (Nat.le_refl _))
    exact rounds_bind (hargs.yields.imp fun result u hu => rounds_again _ hu)

/-! ## The whole -/

/-- Nothing puts a token back, whether it succeeds or fails. -/
theorem invariant_left (n : Nat) : Parser.Invariant
    (fun s : TokenStream => s.left.length ≤ n) (fun _ s => s.left.length ≤ n) := by
  have hleaves : ∀ result : Except LexError (Option Token) × TokenStream,
      result.2.left.length ≤ n → Parser.Leaves (fun s : TokenStream => s.left.length ≤ n)
        (fun _ s => s.left.length ≤ n) result := by
    rintro ⟨e | look, t⟩ h
    · exact h
    · exact h
  -- a look leaves the tokens as they are, and what is taken stood in front of the others
  refine ⟨fun s hs => hleaves s.peek ?_, fun s hs => hleaves s.next ?_, fun _ _ h => h⟩
  · rw [s.left_peek]
    exact hs
  · rw [s.left_next, List.length_append] at hs
    exact Nat.le_trans (Nat.le_add_left _ _) hs

theorem left_parse_le (s : TokenStream) : (parse s).2.left.length ≤ s.left.length := by
  have hkeeps := keeps_parse (invariant_left s.left.length) (Nat.le_refl s.left.length)
  rcases hparse : parse s with ⟨e | tree, rest⟩
  · rw [hparse] at hkeeps
    exact hkeeps
  · rw [hparse] at hkeeps
    exact hkeeps

/-- The loops of the grammar: each begins with a round and goes on as the loop with less fuel, and
on `s` the round leaves the loop, or goes on with a token less. -/
structure Loops (fuel : Nat) (s : TokenStream) : Prop where
  program : ∀ before,
    programItems (fuel + 1) before = programRound fuel before (programItems fuel) ∧
    Rounds s.left.length (programRound fuel before) s
  climb : ∀ left bound,
    Grammar.climb (fuel + 1) left bound = (Routine.climb left bound).round fuel (parser fuel) ∧
    Rounds s.left.length ((Routine.climb left bound).round fuel) s
  suffixes : ∀ callee,
    Grammar.suffixes (fuel + 1) callee = (Routine.suffixes callee).round fuel (parser fuel) ∧
    Rounds s.left.length ((Routine.suffixes callee).round fuel) s
  /-- A list is read in a first round, and in later ones that expect a separator. -/
  first : ∀ {α : Type} (b : Brackets) (item : Parser TokenStream α), Progresses item →
    items b item fuel = firstRound b item (moreItems b item fuel) ∧
    Rounds s.left.length (firstRound b item) s
  later : ∀ {α : Type} (b : Brackets) (item : Parser TokenStream α) before, Progresses item →
    moreItems b item (fuel + 1) before = laterRound b item before (moreItems b item fuel) ∧
    Rounds s.left.length (laterRound b item before) s

/-- What the parser takes off a stream, and how deep it goes. -/
structure TakesTokens (s : TokenStream) : Prop where
  expression : ∀ fuel, Progresses (expression fuel)
  atom : ∀ fuel, Progresses (atom fuel)
  parameter : Progresses parameter
  loops : ∀ fuel, Loops fuel s
  /-- An expression or a run of operators inside another one has fewer tokens left. -/
  nested : ∀ x y : Activation, x.stream = s → Relation.TransGen Activation.Calls x y →
    x.routine.Nests → y.routine.Nests → y.stream.left.length < s.left.length
  depth : ∀ (x : Activation) chain, x.stream = s → (x :: chain).IsChain Activation.Calls →
    chain.length ≤ 2 * s.left.length + 1
  /-- Fuel, of which each call inside another takes a unit, is needed for two calls a token. -/
  ends : ∀ fuel, 2 * s.left.length + 3 ≤ fuel →
    ∃ h : (program fuel s).Finished, parse s = (program fuel s).result h
  /-- The stream that is left, also by an error, can be parsed in turn. -/
  rest : (parse s).2.left.length ≤ s.left.length

theorem takesTokens (s : TokenStream) : TakesTokens s where
  expression fuel := spends fuel .expression
  atom fuel := spends fuel .atom
  parameter _ := yields_parameter fun _ _ h => h
  loops fuel := {
    program := fun before => ⟨rfl, rounds_programRound fuel before s⟩
    climb := fun left bound =>
      ⟨parser_succ (.climb left bound) fuel, rounds_climb fuel left bound s⟩
    suffixes := fun callee => ⟨parser_succ (.suffixes callee) fuel, rounds_suffixes fuel callee s⟩
    first := fun _ _ hitem => ⟨rfl, rounds_firstRound hitem s⟩
    later := fun _ _ before hitem => ⟨rfl, rounds_laterRound hitem before s⟩ }
  nested x y hx hcalls hnests hnests' := by
    subst hx
    exact Activation.left_lt_of_transGen hcalls hnests hnests'
  depth x chain hx hchain := by
    subst hx
    refine Nat.le_trans (Activation.length_chain_le chain hchain) ?_
    obtain ⟨a, s⟩ := x
    cases a <;> simp only [Activation.rank] <;> omega
  ends fuel hfuel := by
    have hsame := program_eq hfuel
    have hfinished : (program fuel s).Finished := by
      rw [hsame]
      exact (ends_program s).finished
    refine ⟨hfinished, ?_⟩
    rw [parse]
    congr 1
    exact hsame.symm
  rest := left_parse_le s

end Grammar

/-- Every source is cut into tokens, and every stream of tokens is parsed, in steps each of which
takes something off it. -/
theorem reading_ends :
    (∀ l : Lexer, l.TakesCharacters) ∧
    (∀ source names tokens, (lex source names).1 = .ok tokens →
      tokens.length ≤ source.length) ∧
    (∀ source names, (TokenStream.ofString source names).left.length ≤ source.length) ∧
    ∀ s : TokenStream, Grammar.TakesTokens s := by
  have hcount : ∀ source names, (scanSource source names).tokens.length ≤ source.length :=
    fun source names => by
      have hle := Lexer.length_tokens_scan_le ⟨.ofString source, names⟩
      rwa [CharStream.ofString, String.length_toList] at hle
  refine ⟨Lexer.takesCharacters, fun source names tokens h => ?_, fun source names => ?_,
    Grammar.takesTokens⟩
  · obtain ⟨offset, hscan⟩ := lex_eq_ok_iff.mp (Prod.ext h rfl)
    have hle := hcount source names
    rw [hscan] at hle
    exact hle
  · rw [TokenStream.left_ofString]
    exact hcount source names

/-- Four characters are four tokens at most, and that is fuel enough: an expression and the atom
that it calls are a chain of two. -/
theorem reading_ends_call :
    (∃ tokens, (lex "f(x)" .fresh).1 = .ok tokens ∧ tokens.length = 4) ∧
    ∃ s : TokenStream, s = .ofString "f(x)" .fresh ∧ s.left.length = 4 ∧
      (∃ h : (Grammar.program 11 s).Finished,
        Grammar.parse s = (Grammar.program 11 s).result h) ∧
      [(⟨.expression, s⟩ : Grammar.Activation), ⟨.atom, s⟩].IsChain Grammar.Activation.Calls ∧
      (Grammar.parse (Grammar.parse s).2).2.left.length ≤ 4 := by
  obtain ⟨-, -, -, htakes⟩ := reading_ends
  have hcount : (TokenStream.ofString "f(x)" .fresh).left.length = 4 := by decide +kernel
  have hrest := (htakes (TokenStream.ofString "f(x)" .fresh)).rest
  refine ⟨⟨_, by with_unfolding_all rfl, by with_unfolding_all rfl⟩, _, rfl, hcount, ?_, ?_, ?_⟩
  · exact (htakes _).ends 11 (by omega)
  · exact .cons_cons (Grammar.Activation.calls_atom _) (.singleton _)
  · rw [hcount] at hrest
    exact Nat.le_trans (htakes _).rest hrest

end LambdaScript
