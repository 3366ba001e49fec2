import LambdaScript.Proofs.Renumbering
import LambdaScript.Proofs.Respacing
import LambdaScript.Proofs.Spelling
/-!
# Layout does not matter

Spans are merged and carried along, and nothing is decided by them. So what is made of a source is
made of its tokens without spans (`bareParsed_of_kinds`), and running it is, up to spans, running
its tree without spans (`shownBare_runSource`). Sources whose tokens take the same texts therefore
differ in the spans of their trees and errors only, and other layout between the tokens of a source
gives such a source (`layout_irrelevant`).
-/

namespace LambdaScript

open Interpreter

/-! ## Without spans -/

/-- A syntax error without its span. The place of a lexical error is told in its message. -/
def SyntaxError.bare : SyntaxError → SyntaxError
  | .lexical e => .lexical e
  | .grammatical e => .grammatical ⟨e.fault, .dummy⟩

/-- An error of a run without its span. -/
def RunError.bare : RunError → RunError
  | .syntactic e => .syntactic e.bare
  | .runtime e => .runtime ⟨e.fault, e.span.map fun _ => .dummy⟩

/-- What reading a source comes to, without spans. -/
def bareParsed (r : Except SyntaxError Tree) : Except SyntaxError Tree :=
  (r.map Expr.bare).mapError SyntaxError.bare

/-- What can be seen of a run, without spans. -/
def Outcome.shownBare (o : Outcome RunError Aftermath Value) :
    Option (Except RunError (Kind × String) × Console × Array FileWrite) :=
  o.shown.map (Prod.map (Except.mapError RunError.bare) id)

namespace Renaming

/-- Spans are dropped, and names stay as they are. -/
def spanless : Renaming := ⟨id, fun _ => .dummy⟩

theorem reads_spanless : spanless.Reads fun _ => 0 := ⟨⟨fun _ _ => rfl⟩, fun _ => rfl, rfl⟩

section
variable {ι : Type}

mutual

theorem expr_spanless : ∀ e : Expr ι, spanless.expr e = e.bare
  | .number .. | .string .. | .bool .. | .var .. => rfl
  | .assign _ _ value => by
    simp only [expr, Expr.bare, expr_spanless value]
    rfl
  | .binary _ _ left right => by
    simp only [expr, Expr.bare, expr_spanless left, expr_spanless right]
    rfl
  | .ifThen _ condition thenBranch => by
    simp only [expr, Expr.bare, expr_spanless condition, expr_spanless thenBranch]
    rfl
  | .ifElse _ condition thenBranch elseBranch => by
    simp only [expr, Expr.bare, expr_spanless condition, expr_spanless thenBranch,
      expr_spanless elseBranch]
    rfl
  | .loop _ condition body => by
    simp only [expr, Expr.bare, expr_spanless condition, expr_spanless body]
    rfl
  | .seq _ items => by
    simp only [expr, Expr.bare, exprs_spanless items]
    rfl
  | .lambda _ _ params body => by
    simp only [expr, Expr.bare, expr_spanless body, show spanless.name = id from rfl, List.map_id]
    rfl
  | .call _ callee args => by
    simp only [expr, Expr.bare, expr_spanless callee, exprs_spanless args]
    rfl

theorem exprs_spanless : ∀ es : List (Expr ι), spanless.exprs es = Expr.bareAll es
  | [] => rfl
  | e :: es => by simp only [exprs, Expr.bareAll, expr_spanless e, exprs_spanless es]

end

end

theorem parsed_spanless (r : Except SyntaxError Tree) : spanless.parsed r = bareParsed r := by
  rcases r with (e | e) | tree
  · rfl
  · rfl
  · exact congrArg Except.ok (expr_spanless tree)

end Renaming

/-! ## Trees -/

/-- What is made of a source without spans depends on the kinds of its tokens only. -/
theorem bareParsed_of_kinds {p q : String} {names a : Interner} {ts us : List Token}
    (hnames : names.Consistent) (hts : lex p names = (.ok ts, a)) (hus : lex q names = (.ok us, a))
    (hkinds : us.map Token.kind = ts.map Token.kind) :
    bareParsed (parseSource q names).1 = bareParsed (parseSource p names).1 := by
  have hrun : ∀ {source : String} {tokens : List Token}, lex source names = (.ok tokens, a) →
      bareParsed (parseSource source names).1 = (Grammar.Config.start.run a (.ok 0)
        ((tokens.map Token.kind).map fun kind => ⟨kind, .dummy⟩)).1 := by
    intro source tokens hlex
    obtain ⟨offset, hscan⟩ := lex_eq_ok_iff.mp hlex
    have hparse : (parseSource source names).1 = _ :=
      Grammar.parse_eq_run (presents_ofString source hnames)
    have hrespells : ∀ t ∈ tokens, Renaming.spanless.RespellsKind a a t.kind := fun _ _ _ _ => rfl
    have hbare := Grammar.run_renamed Renaming.reads_spanless (.ok offset) .start hrespells
    have htokens : tokens.map Renaming.spanless.token =
        (tokens.map Token.kind).map fun kind => ⟨kind, .dummy⟩ := by
      rw [List.map_map]
      refine List.map_congr_left fun t _ => ?_
      obtain ⟨kind, span⟩ := t
      cases kind <;> rfl
    rw [hscan] at hparse
    rw [htokens] at hbare
    rw [← Renaming.parsed_spanless, hparse]
    exact hbare.symm
  rw [hrun hts, hrun hus, hkinds]

/-! ## Runs -/

namespace Translation

/-- Without spans. -/
def spanless (names : Interner) (limit : Nat) : Translation ⟨names, limit⟩ ⟨names, limit⟩ where
  toRenaming := .spanless
  injective := Function.injective_id
  respells _ := rfl
  limit_le := Nat.le_refl limit
  extra := 0

theorem machines_spanless {names : Interner} (h : names.Consistent) (limit : Nat)
    (console : Console) : (spanless (startNames names) limit).Machines (startMachine names console)
      (startMachine (startNames names) console) := by
  have hgrows : (bindBuiltins Builtin.all (bare console) names).2.Grows (startNames names) := by
    rw [startNames_eq names console]
    exact .refl _
  have hlater := consistent_startNames h
  rw [startMachine_eq, startMachine_eq]
  generalize startNames names = later at hgrows hlater ⊢
  exact machines_bindBuiltins (T := spanless later limit) hlater (fun _ _ hn => hn) h hgrows rfl
    (machines_bare console)

/-- A run that follows another one without spans shows the same but for spans. -/
theorem shownBare_of_follows {names : Interner} {limit : Nat}
    {o o' : Outcome RuntimeError Machine Value}
    (h : (spanless names limit).Follows (spanless names limit).value o o') :
    (o.leaving names).shownBare = (o'.leaving names).shownBare := by
  cases h with
  | @done value m m' hm =>
    have hdisplay := Renaming.display_value (spanless names limit).respells value
    simp only [Outcome.leaving, Outcome.shownBare, Outcome.shown, Renaming.kind_value, hm.console,
      hm.writes, hdisplay]
  | @failed e m m' hm =>
    obtain ⟨fault, span⟩ := e
    simp only [Outcome.leaving, Outcome.shownBare, Outcome.shown, hm.console, hm.writes]
    cases span <;> rfl
  | overflowed hless => exact absurd hless (Nat.lt_irrefl limit)
  | unfinished => rfl
  | more hextra => exact absurd hextra (Nat.lt_irrefl 0)

end Translation

/-- Up to spans, running a source is running its tree without spans. -/
theorem shownBare_runSource {source : String} {names : Interner} (h : names.Consistent)
    (limit : Nat) (console : Console) (fuel : Nat) :
    (runSource source names limit console fuel).shownBare =
      match bareParsed (parseSource source names).1 with
      | .error e => some (.error (.syntactic e), console, #[])
      | .ok tree =>
        ((eval ⟨startNames (scanSource source names).names, limit⟩ fuel (tree.numbered 0).1 0
          (startMachine (startNames (scanSource source names).names) console)).leaving
            (startNames (scanSource source names).names)).shownBare := by
  rw [runSource_eq]
  rcases hparse : parseSource source names with ⟨e | tree, last⟩
  · rfl
  · obtain ⟨-, rfl⟩ := (parseSource_eq_ok_iff h).mp hparse
    have hscan : (scanSource source names).names.Consistent := consistent_scanSource h
    have hfollows := (Translation.spanless _ limit).imitates_eval fuel
      (tree.numbered 0).1 0 _ _ (Translation.machines_spanless hscan limit console)
    have hnumbered := Renaming.numbered_expr .spanless 0 tree
    rw [Renaming.expr_spanless] at hnumbered
    have hcode : (tree.bare.numbered 0).1 = Renaming.spanless.expr (tree.numbered 0).1 := by
      rw [hnumbered]
    simp only [bareParsed, Except.map, Except.mapError, hcode]
    exact Translation.shownBare_of_follows hfollows

/-! ## Layout -/

/-- Layout does not matter. Sources whose tokens take the same texts have tokens of the same kinds
and are made the same of, up to spans, in trees, errors and runs. And putting any layout between the
lexemes of a source, in front of them and behind them gives a source with these lexemes. -/
theorem layout_irrelevant {names : Interner} (hnames : names.Made) :
    (∀ (p q : String) (ts us : List Token) (a b : Interner),
      byteCount p.toList < maxOffset → byteCount q.toList < maxOffset →
      lex p names = (.ok ts, a) → lex q names = (.ok us, b) →
      tokenTexts q us = tokenTexts p ts →
        us.map Token.kind = ts.map Token.kind ∧ b = a ∧
        bareParsed (parseSource q names).1 = bareParsed (parseSource p names).1 ∧
        ∀ limit console fuel, (runSource q names limit console fuel).shownBare =
          (runSource p names limit console fuel).shownBare) ∧
    ∀ (source : String) (tokens : List Token) (last : Interner),
      lex source names = (.ok tokens, last) →
        ∃ lexemes, LaidOut last source.toList lexemes (tokens.map Token.kind) ∧
          (byteCount source.toList < maxOffset → tokenTexts source tokens = lexemes.map some) ∧
          ∀ gap, Gaps gap lexemes.length →
            ∃ tokens', lex (String.ofList (spread gap lexemes)) names = (.ok tokens', last) ∧
              (byteCount (spread gap lexemes) < maxOffset →
                tokenTexts (String.ofList (spread gap lexemes)) tokens' = lexemes.map some) := by
  have hconsistent := hnames.consistent
  constructor
  · intro p q ts us a b hp hq hts hus htexts
    obtain ⟨hkinds, rfl⟩ := kinds_eq_of_texts hconsistent (Nat.le_of_lt hp) (Nat.le_of_lt hq) hts
      hus htexts
    have hparsed := bareParsed_of_kinds hconsistent hts hus hkinds
    obtain ⟨_, hscan⟩ := lex_eq_ok_iff.mp hts
    obtain ⟨_, hscan'⟩ := lex_eq_ok_iff.mp hus
    refine ⟨hkinds, rfl, hparsed, fun limit console fuel => ?_⟩
    rw [shownBare_runSource hconsistent, shownBare_runSource hconsistent, hparsed, hscan, hscan']
  · intro source tokens last hlex
    obtain ⟨lexemes, hlaid, htexts⟩ := exists_laidOut_of_lex hconsistent hlex
    refine ⟨lexemes, hlaid, fun hsize => htexts (Nat.le_of_lt hsize), fun gap hgap => ?_⟩
    have hspread := hlaid.spread hgap
    rw [← String.toList_ofList (l := spread gap lexemes)] at hspread
    obtain ⟨tokens', hlex', -, htexts'⟩ := lex_of_laidOut hconsistent hlex hspread
    rw [String.toList_ofList] at htexts'
    exact ⟨tokens', hlex', fun hsize => htexts' (Nat.le_of_lt hsize)⟩

/-- A comment with a quote in it, and a string with the mark of comments in it. -/
theorem layout_irrelevant_comment_and_string :
    (∃ ts us a, lex "print(\x22#\x22)" .fresh = (.ok ts, a) ∧
      lex "# \x22\n print\t( \x22#\x22\r)\n" .fresh = (.ok us, a) ∧
      us.map Token.kind = ts.map Token.kind ∧
      (runSource "# \x22\n print\t( \x22#\x22\r)\n" .fresh 9 (.buffer "") 9).shownBare =
        (runSource "print(\x22#\x22)" .fresh 9 (.buffer "") 9).shownBare) ∧
    ∃ tokens last, lex "# \x22\na# \x22\n+# \x22\n1# \x22\n" .fresh = (.ok tokens, last) ∧
      tokenTexts "# \x22\na# \x22\n+# \x22\n1# \x22\n" tokens =
        [some ['a'], some ['+'], some ['1']] := by
  obtain ⟨hsame, hspread⟩ := layout_irrelevant .fresh
  constructor
  · obtain ⟨ts, a, hts⟩ := exists_eq_ok (r := lex "print(\x22#\x22)" .fresh) (by decide +kernel)
    obtain ⟨us, b, hus⟩ :=
      exists_eq_ok (r := lex "# \x22\n print\t( \x22#\x22\r)\n" .fresh) (by decide +kernel)
    have htexts : tokenTexts "# \x22\n print\t( \x22#\x22\r)\n"
          ((lex "# \x22\n print\t( \x22#\x22\r)\n" .fresh).1.toOption.getD []) =
        tokenTexts "print(\x22#\x22)" ((lex "print(\x22#\x22)" .fresh).1.toOption.getD []) := by
      decide +kernel
    rw [hts, hus] at htexts
    obtain ⟨hkinds, rfl, -, hruns⟩ := hsame _ _ ts us a b (by decide) (by decide) hts hus htexts
    exact ⟨ts, us, b, hts, hus, hkinds, hruns 9 (.buffer "") 9⟩
  · obtain ⟨tokens, last, hlex⟩ := exists_eq_ok (r := lex "a+1" .fresh) (by decide +kernel)
    have htexts : tokenTexts "a+1" ((lex "a+1" .fresh).1.toOption.getD []) =
        [['a'], ['+'], ['1']].map some := by
      decide +kernel
    rw [hlex] at htexts
    obtain ⟨lexemes, -, hfound, hgaps⟩ := hspread _ tokens last hlex
    obtain rfl : lexemes = [['a'], ['+'], ['1']] :=
      List.map_injective_iff.mpr (fun _ _ => Option.some.inj)
        ((hfound (by decide)).symm.trans htexts)
    have hline : '\n' ∉ [' ', '\x22'] := by decide
    obtain ⟨tokens', hlex', htexts'⟩ := hgaps (fun _ => "# \x22\n".toList)
      ⟨fun _ => .comment hline .nil, fun _ _ _ => by decide⟩
    exact ⟨tokens', last, hlex', htexts' (by decide)⟩

end LambdaScript
