import LambdaScript.Proofs.Descent
import LambdaScript.Proofs.Steps
/-!
# What a program is made of

Read from left to right, a tree shows its literals, names and operators: this is its `reading`. The
grammar neither drops nor invents nor moves any of them. The invariant is that the configuration
reached behind some tokens reads like these tokens (`Grammar.Step.readsLike`); an empty block is the
one place where punctuation stands for something, and it is seen only with its second bracket.
-/

namespace LambdaScript

/-- A literal, a name or an operator, as it stands in a source. -/
inductive Leaf where
  | number (value : Float)
  | string (contents : Name)
  | bool (value : Bool)
  | name (name : Name)
  | operator (spelling : String)

namespace Expr

variable {ι : Type}

mutual

/-- The leaves of a tree in the order of the text. -/
def reading : Expr ι → List Leaf
  | number _ value => [.number value]
  | string _ contents => [.string contents]
  | bool _ value => [.bool value]
  | var _ name => [.name name]
  | assign _ target value => .name target :: .operator "=" :: reading value
  | binary _ op left right => reading left ++ .operator op.symbol :: reading right
  | ifThen _ condition thenBranch => reading condition ++ reading thenBranch
  | ifElse _ condition thenBranch elseBranch =>
    reading condition ++ reading thenBranch ++ reading elseBranch
  | loop _ condition body => reading condition ++ reading body
  | seq _ items => readingAll items
  | lambda _ _ params body => params.map .name ++ reading body
  | call _ callee args => reading callee ++ readingAll args

/-- The leaves of the trees of a list. -/
def readingAll : List (Expr ι) → List Leaf
  | [] => []
  | item :: items => reading item ++ readingAll items

end

theorem readingAll_append (xs ys : List (Expr ι)) :
    readingAll (xs ++ ys) = readingAll xs ++ readingAll ys := by
  induction xs with
  | nil => rfl
  | cons x xs ih => simp only [List.cons_append, readingAll, ih, List.append_assoc]

/-- One more item at the end of a list that is held in reverse. -/
theorem readingAll_reverse_cons (x : Expr ι) (xs : List (Expr ι)) :
    readingAll (x :: xs).reverse = readingAll xs.reverse ++ reading x := by
  rw [List.reverse_cons, readingAll_append]
  simp only [readingAll, List.append_nil]

end Expr

/-- The leaf that a token stands for by itself. -/
def TokenKind.leaf? (names : Interner) : TokenKind → Option Leaf
  | number value => some (.number value)
  | string contents => some (.string contents)
  | identifier name => some (.name name)
  | keyword .trueWord => some (.bool true)
  | keyword .falseWord => some (.bool false)
  | operator name => some (.operator (names.spelling name))
  | keyword _ | punct _ => none

/-- The leaves that tokens stand for; two brackets with nothing in between stand for `false`. -/
def leavesOf (names : Interner) : List TokenKind → List Leaf
  | [] => []
  | .punct .openBrace :: .punct .closeBrace :: rest => .bool false :: leavesOf names rest
  | kind :: rest => (kind.leaf? names).toList ++ leavesOf names rest

namespace Grammar

open LambdaScript.Expr (readingAll readingAll_append readingAll_reverse_cons)

/-! ## Readings of configurations -/

/-- The leaves read in an open construct. -/
def Frame.reading : Frame → List Leaf
  | operand c left => left.reading ++ [.operator c.symbol]
  | paren => []
  | block _ before => readingAll before.reverse
  | args callee _ before => callee.reading ++ readingAll before.reverse
  | ifCondition _ => []
  | thenBranch _ condition => condition.reading
  | elseBranch _ condition branch => condition.reading ++ branch.reading
  | loopCondition _ => []
  | loopBody _ condition => condition.reading
  | lambdaBody _ params => params.map .name

/-- The leaves read in the open constructs, the outermost one first. -/
def stackReading : List Frame → List Leaf
  | [] => []
  | frame :: stack => stackReading stack ++ frame.reading

/-- The leaves read behind the open constructs. -/
def Point.reading : Point → List Leaf
  | operand | item | paramList _ => []
  | value tree => tree.reading
  | param _ before | paramEnd _ before => before.reverse.map .name

/-- All leaves read so far. -/
def Config.reading (c : Config) : List Leaf :=
  readingAll c.items.reverse ++ stackReading c.stack ++ c.point.reading

/-- The innermost open construct is a block without items. -/
def emptyBlock : List Frame → Bool
  | .block _ [] :: _ => true
  | _ => false

/-- The last token was the bracket that opens a block. -/
def Config.opened : Config → Bool
  | ⟨_, stack, .item⟩ => emptyBlock stack
  | _ => false

/-- The leaves that a token adds; none at the end of the source. -/
def added (names : Interner) (opened : Bool) : Option Token → List Leaf
  | none => []
  | some t =>
    if opened && t.isPunct .closeBrace then [.bool false] else (t.kind.leaf? names).toList

variable {names : Interner} {items : List Tree} {stack : List Frame} {look : Option Token}
  {c c' : Config} {t : Token}

/-- A configuration that reads like some leaves and the token behind them. -/
structure ReadsLike (names : Interner) (leaves : List Leaf) (opened : Bool) (look : Option Token)
    (c : Config) : Prop where
  reading : c.reading = leaves ++ added names opened look
  opened : c.opened = look.any (·.isPunct .openBrace)

/-- What the tree of a block reads like. -/
theorem reading_blockTree (span start : Span) (before : List Tree) :
    (blockTree span before.reverse).reading = readingAll before.reverse ++
      if emptyBlock [.block start before] then [.bool false] else [] := by
  rcases before with _ | ⟨last, before⟩
  · rfl
  have hnonempty : emptyBlock [.block start (last :: before)] = false := rfl
  rw [hnonempty, if_neg Bool.false_ne_true, List.append_nil]
  obtain ⟨item, items, hitems⟩ := List.exists_cons_of_ne_nil
    (List.reverse_ne_nil_iff.mpr (List.cons_ne_nil last before))
  rw [hitems]
  cases items with
  | nil => exact (List.append_nil _).symm
  | cons second items => rfl

theorem reading_join {c : Connective} {left right whole : Tree}
    (h : join c left right = .ok whole) :
    whole.reading = left.reading ++ .operator c.symbol :: right.reading := by
  cases c with
  | binary op =>
    cases h
    rfl
  | assignment =>
    cases left with
    | var span target =>
      cases h
      rfl
    | _ => contradiction

/-! ## The parts of a step -/

theorem Begins.readsLike {opened : List Frame} {place : Point} (h : Begins t opened place)
    (wasOpened : Bool) :
    ReadsLike names (readingAll items.reverse ++ stackReading stack) wasOpened (some t)
      ⟨items, opened ++ stack, place⟩ := by
  cases h <;> refine ⟨?_, rfl⟩ <;> cases wasOpened <;>
    simp [Config.reading, stackReading, Frame.reading, Point.reading, readingAll, Expr.reading,
      added, Token.isPunct, TokenKind.leaf?]

theorem ClosesList.readsLike {stack' : List Frame} {place : Point}
    (h : ClosesList stack look stack' place) :
    ReadsLike names (readingAll items.reverse ++ stackReading stack) (emptyBlock stack) look
      ⟨items, stack', place⟩ := by
  cases h with
  | program =>
    refine ⟨?_, rfl⟩
    simp [Config.reading, stackReading, Point.reading, added]
  | args callee start before stack span =>
    refine ⟨?_, rfl⟩
    simp [Config.reading, stackReading, Frame.reading, Point.reading, Expr.reading, added,
      emptyBlock, TokenKind.leaf?]
  | block start before _ span =>
    refine ⟨?_, rfl⟩
    have hframe :
        emptyBlock (.block start before :: stack') = emptyBlock [.block start before] := by
      cases before <;> rfl
    have hadded : added names (emptyBlock [.block start before]) (some ⟨.punct .closeBrace, span⟩) =
        if emptyBlock [.block start before] then [.bool false] else [] := by
      cases emptyBlock [.block start before] <;> rfl
    rw [hframe, hadded, Config.reading, Point.reading, reading_blockTree _ start]
    simp only [stackReading, Frame.reading, List.append_assoc]

/-- An item reads the same in its list as behind it. -/
theorem Adds.reading {items' : List Tree} {stack' : List Frame} {value : Tree} {separator : Punct}
    (h : Adds items stack value separator items' stack') :
    readingAll items'.reverse ++ stackReading stack' =
      Config.reading ⟨items, stack, .value value⟩ := by
  cases h <;>
    simp only [Config.reading, stackReading, Frame.reading, Point.reading, readingAll_reverse_cons,
      List.append_assoc, List.append_nil]

theorem Adds.emptyBlock_eq {items' : List Tree} {stack' : List Frame} {value : Tree}
    {separator : Punct} (h : Adds items stack value separator items' stack') :
    emptyBlock stack' = false := by
  cases h <;> rfl

theorem Wraps.reading {frame : Frame} {value whole : Tree} (h : Wraps frame value whole) :
    whole.reading = frame.reading ++ value.reading := by
  cases h with
  | operand hjoin =>
    rw [reading_join hjoin, Frame.reading, List.append_assoc, List.singleton_append]
  | thenBranch | elseBranch | loopBody | lambdaBody => rfl

/-! ## Whole steps -/

/-- One step: the configuration behind a token reads like the one before it and the token. -/
theorem Step.readsLike (h : Step names c look c') : ReadsLike names c.reading c.opened look c' := by
  induction h with
  | begin hpoint h =>
    rcases hpoint with rfl | rfl
    · rw [Config.reading, Point.reading, List.append_nil]
      exact h.readsLike false
    · rw [Config.reading, Point.reading, List.append_nil]
      exact h.readsLike _
  | close h =>
    rw [Config.reading, Point.reading, List.append_nil]
    exact h.readsLike
  | @closeBehind items items' stack inner stack' value separator look place hadds h =>
    have hreads : ReadsLike names (readingAll items'.reverse ++ stackReading inner)
        (emptyBlock inner) look ⟨items', stack', place⟩ := h.readsLike
    rwa [hadds.emptyBlock_eq, hadds.reading] at hreads
  | separator span h =>
    refine ⟨?_, ?_⟩
    · rw [← h.reading]
      rfl
    · rw [Config.opened, h.emptyBlock_eq]
      cases h <;> rfl
  | @wrap items stack frame value whole look c h hstep ih =>
    -- the leaves of the frame and of the operand are those of the whole construct
    have hsame : Config.reading ⟨items, frame :: stack, .value value⟩ =
        Config.reading ⟨items, stack, .value whole⟩ := by
      simp only [Config.reading, stackReading, Point.reading, h.reading, List.append_assoc]
    rw [hsame]
    exact ih
  | connective ht hbound =>
    obtain ⟨name, span, rfl, hsymbol⟩ := operator_of_connective? ht
    refine ⟨?_, rfl⟩
    simp [Config.reading, stackReading, Frame.reading, Point.reading, Config.opened, added,
      TokenKind.leaf?, hsymbol]
  | thenWord span h | branchBlock span h =>
    cases h <;> refine ⟨?_, rfl⟩ <;>
      simp [Config.reading, stackReading, Frame.reading, Point.reading, readingAll, Config.opened,
        added, TokenKind.leaf?]
  | openArgs | closeParen | elseWord | openParams | param | comma =>
    refine ⟨?_, rfl⟩
    simp [Config.reading, stackReading, Frame.reading, Point.reading, readingAll, Config.opened,
      added, TokenKind.leaf?]
  | closeParams span hpoint =>
    cases hpoint <;> refine ⟨?_, rfl⟩ <;>
      simp [Config.reading, stackReading, Frame.reading, Point.reading, Config.opened, added,
        TokenKind.leaf?]

/-! ## The end of the source -/

/-- A program reads like the configuration at its end. -/
theorem reading_program (h : c.feed names none = .ok c') : c'.program.reading = c.reading := by
  have hstep := step_of_feed h
  have hreading := hstep.readsLike.reading
  rw [added, List.append_nil] at hreading
  obtain ⟨hstack, hpoint⟩ := hstep.eq_of_none
  rw [← hreading, Config.reading, hstack, hpoint]
  simp [Config.program, Expr.reading, stackReading, Point.reading]

/-! ## Whole programs -/

/-- The leaves of the tokens that follow; the bracket that opens a block may stand before them. -/
def leavesBehind (names : Interner) (opened : Bool) (kinds : List TokenKind) : List Leaf :=
  leavesOf names (if opened then .punct .openBrace :: kinds else kinds)

theorem leavesOf_cons {kind : TokenKind} (kinds : List TokenKind)
    (h : kind = .punct .openBrace → kinds.head? ≠ some (.punct .closeBrace)) :
    leavesOf names (kind :: kinds) = (kind.leaf? names).toList ++ leavesOf names kinds := by
  rw [leavesOf]
  rintro rest rfl rfl
  exact h rfl rfl

theorem leavesBehind_cons (opened : Bool) (t : Token) (kinds : List TokenKind) :
    leavesBehind names opened (t.kind :: kinds) =
      added names opened (some t) ++ leavesBehind names (t.isPunct .openBrace) kinds := by
  have hopen : (TokenKind.punct .openBrace).leaf? names = none := rfl
  have hbare : leavesOf names (t.kind :: kinds) =
      (t.kind.leaf? names).toList ++ leavesBehind names (t.isPunct .openBrace) kinds := by
    rw [leavesBehind]
    by_cases ht : t.isPunct .openBrace = true
    · rw [if_pos ht, Token.isPunct_iff.mp ht, hopen]
      rfl
    · rw [if_neg ht]
      exact leavesOf_cons kinds fun heq => absurd (Token.isPunct_iff.mpr heq) ht
  -- the leaf of an empty block comes with its second bracket
  by_cases hclose : opened = true ∧ t.isPunct .closeBrace = true
  · obtain ⟨rfl, ht⟩ := hclose
    have hkind := Token.isPunct_iff.mp ht
    simp [leavesBehind, added, leavesOf, hkind, Token.isPunct]
  · have hadded : added names opened (some t) = (t.kind.leaf? names).toList := by
      simp [added, hclose]
    rw [hadded, ← hbare, leavesBehind]
    cases opened with
    | false => rfl
    | true =>
      rw [if_pos rfl, leavesOf_cons, hopen]
      · rfl
      · intro _ hhead
        rw [List.head?_cons, Option.some.injEq] at hhead
        exact hclose ⟨rfl, Token.isPunct_iff.mpr hhead⟩

/-- A whole run: the program reads like the configuration and the tokens behind it. -/
theorem reading_run {ending : Except LexError Nat} {tokens rest : List Token} {tree : Tree}
    (h : c.run names ending tokens = (.ok tree, rest)) :
    tree.reading = c.reading ++ leavesBehind names c.opened (tokens.map Token.kind) := by
  induction tokens generalizing c with
  | nil =>
    simp only [Config.run] at h
    split at h
    · cases h
    split at h
    · next c' hfeed =>
      cases h
      rw [reading_program hfeed]
      cases c.opened <;> simp [leavesBehind, leavesOf, TokenKind.leaf?]
    · cases h
  | cons t tokens ih =>
    rw [Config.run] at h
    split at h
    · next c' hfeed =>
      obtain ⟨hreading, hopened⟩ := (step_of_feed hfeed).readsLike
      rw [ih h, hreading, hopened, List.map_cons, leavesBehind_cons, List.append_assoc]
      rfl
    · cases h

end Grammar

/-! ## Operators -/

/-- The spellings of operators that the grammar knows. -/
def IsSymbol (symbol : String) : Prop := symbol = "=" ∨ ∃ op : BinaryOp, symbol = op.symbol

theorem operator_mem_leavesOf {names : Interner} {kinds : List TokenKind} {n : Name}
    (h : .operator n ∈ kinds) : .operator (names.spelling n) ∈ leavesOf names kinds := by
  fun_induction leavesOf names kinds with
  | case1 => contradiction
  | case2 rest ih =>
    have hmem : .operator n ∈ rest := by simpa using h
    exact List.mem_cons_of_mem _ (ih hmem)
  | case3 kind rest hnot ih =>
    rcases List.mem_cons.mp h with rfl | hmem
    · exact List.mem_append_left _ (List.mem_singleton.mpr rfl)
    · exact List.mem_append_right _ (ih hmem)

mutual

/-- A tree holds no other operators. -/
theorem isSymbol_of_mem_reading {symbol : String} (e : Tree) (h : .operator symbol ∈ e.reading) :
    IsSymbol symbol := by
  cases e with
  | number | string | bool | var => simp [Expr.reading] at h
  | assign span target value =>
    simp only [Expr.reading, List.mem_cons, reduceCtorEq, false_or, Leaf.operator.injEq] at h
    rcases h with rfl | h
    · exact .inl rfl
    · exact isSymbol_of_mem_reading value h
  | binary span op left right =>
    simp only [Expr.reading, List.mem_append, List.mem_cons, Leaf.operator.injEq] at h
    rcases h with h | rfl | h
    · exact isSymbol_of_mem_reading left h
    · exact .inr ⟨op, rfl⟩
    · exact isSymbol_of_mem_reading right h
  | ifThen span condition thenBranch =>
    rcases List.mem_append.mp h with h | h
    · exact isSymbol_of_mem_reading condition h
    · exact isSymbol_of_mem_reading thenBranch h
  | ifElse span condition thenBranch elseBranch =>
    simp only [Expr.reading, List.mem_append] at h
    rcases h with (h | h) | h
    · exact isSymbol_of_mem_reading condition h
    · exact isSymbol_of_mem_reading thenBranch h
    · exact isSymbol_of_mem_reading elseBranch h
  | loop span condition body =>
    rcases List.mem_append.mp h with h | h
    · exact isSymbol_of_mem_reading condition h
    · exact isSymbol_of_mem_reading body h
  | seq span items => exact isSymbol_of_mem_readingAll items h
  | lambda span label params body =>
    rcases List.mem_append.mp h with h | h
    · simp at h
    · exact isSymbol_of_mem_reading body h
  | call span callee args =>
    rcases List.mem_append.mp h with h | h
    · exact isSymbol_of_mem_reading callee h
    · exact isSymbol_of_mem_readingAll args h

theorem isSymbol_of_mem_readingAll {symbol : String} (items : List Tree)
    (h : .operator symbol ∈ Expr.readingAll items) : IsSymbol symbol := by
  cases items with
  | nil => contradiction
  | cons item items =>
    rcases List.mem_append.mp h with h | h
    · exact isSymbol_of_mem_reading item h
    · exact isSymbol_of_mem_readingAll items h

end

/-! ## Sources -/

/-- Every source that is a program can be cut into tokens, and the program reads like these tokens:
none is lost, made up, doubled or moved. In particular its operators are those of the language. -/
theorem reading_parseSource {source : String} {names names' : Interner} {tree : Tree}
    (hnames : names.Made) (h : parseSource source names = (.ok tree, names')) :
    ∃ tokens, lex source names = (.ok tokens, names') ∧
      tree.reading = leavesOf names' (tokens.map Token.kind) ∧
      ∀ t ∈ tokens, ∀ n, t.kind = .operator n → IsSymbol (names'.spelling n) := by
  obtain ⟨hrun, rfl⟩ := (parseSource_eq_ok_iff hnames.consistent).mp h
  rcases hscan : scanSource source names with ⟨tokens, ending, names'⟩
  rw [runSourceTokens, hscan] at hrun
  have hreading := Grammar.reading_run hrun
  obtain ⟨offset, rfl⟩ := Grammar.Config.ending_of_run_ok hrun
  refine ⟨tokens, lex_eq_ok_iff.mpr ⟨offset, hscan⟩, hreading, fun t ht n hn => ?_⟩
  have hmem : .operator n ∈ tokens.map Token.kind := List.mem_map.mpr ⟨t, ht, hn⟩
  refine isSymbol_of_mem_reading tree ?_
  rw [hreading]
  exact operator_mem_leavesOf hmem

/-- A program with brackets that are not needed, separators at the end and an empty block. -/
theorem reading_of_redundant_brackets :
    ∃ tree names', parseSource "f = lambda (a, b,) { (a) + {}; }; f(f, {f},)" .fresh =
        (.ok tree, names') ∧
      ∃ tokens, lex "f = lambda (a, b,) { (a) + {}; }; f(f, {f},)" .fresh = (.ok tokens, names') ∧
        tree.reading = leavesOf names' (tokens.map Token.kind) ∧
        ∀ t ∈ tokens, ∀ n, t.kind = .operator n → IsSymbol (names'.spelling n) := by
  obtain ⟨tree, names', h⟩ : ∃ tree names',
      parseSource "f = lambda (a, b,) { (a) + {}; }; f(f, {f},)" .fresh = (.ok tree, names') :=
    exists_eq_ok (by decide +kernel)
  exact ⟨tree, names', h, reading_parseSource .fresh h⟩

end LambdaScript
