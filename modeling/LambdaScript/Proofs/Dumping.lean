import LambdaScript.Expr.Dump
import LambdaScript.Proofs.Decimals
import LambdaScript.Proofs.Laziness
import LambdaScript.Proofs.Reading
import LambdaScript.Proofs.Respacing
import LambdaScript.Proofs.Sexprs
import LambdaScript.Proofs.Spelling
/-!
# The dump of a program tells the program

A tree is dumped as a word, a quoted text or a form in brackets (`Expr.toList_dump`), which can be
read off the text. Leaves that are dumped alike are the same leaf (`Leaf.sexpr_inj`): numbers begin
with digits, names do not, and no name is a reserved word. So trees that are dumped alike are the
same tree up to spans (`Expr.bare_eq_of_sexpr_eq`), and so are programs (`bare_eq_of_dump_eq`).

A number that is too large for a double is dumped as `inf`, which is a name too. Such numbers are
left out.
-/

namespace LambdaScript

/-! ## Leaves -/

namespace Leaf

/-- A number that is too large for a double. -/
def overflows : Leaf → Bool
  | number x =>
    match Binary64.shape x with
    | .infinite _ => true
    | _ => false
  | _ => false

/-- A leaf that a program can have whose numbers do not overflow. -/
def Writable (names : Interner) : Leaf → Prop
  | number x => ∃ m e, Binary64.shape x = .finite false m e
  | string contents => ∃ lexeme, (TokenKind.string contents).SpelledBy names lexeme
  | bool _ => True
  | name n => ∃ lexeme, (TokenKind.identifier n).SpelledBy names lexeme
  | operator symbol => IsSymbol symbol

/-- How a leaf is dumped; an operator is the head of a form. -/
def sexpr (names : Interner) : Leaf → SExpr
  | number x => .word (numberText x)
  | string contents => .quoted (names.spelling contents)
  | bool value => .word (if value then "true" else "false")
  | name n => .word (names.spelling n)
  | operator symbol => .form symbol []

variable {names : Interner} {x : Float} {n : Name}

theorem isPlain_of_isWordChar {c : Char} (h : isWordChar c = true) : SExpr.isPlain c = true := by
  have hne : ∀ d : Char, isWordChar d = false → c ≠ d := by
    rintro d hd rfl
    rw [hd] at h
    contradiction
  simp only [SExpr.isPlain, Bool.and_eq_true, bne_iff_ne]
  exact ⟨⟨⟨hne _ (by decide), hne _ (by decide)⟩, hne _ (by decide)⟩, hne _ (by decide)⟩

/-! ### Numbers, reserved words and names -/

/-- A number begins with a digit. -/
theorem exists_digit (h : (number x).Writable names) :
    ∃ c run, (numberText x).toList = c :: run ∧ isDigit c = true := by
  obtain ⟨m, e, hx⟩ := h
  exact (numeral_numberText hx).head

/-- A name begins with a letter or an underscore, and it is not reserved. -/
theorem exists_identifier (h : (name n).Writable names) :
    names.find? n = some (names.spelling n) ∧
      (∃ c run, (names.spelling n).toList = c :: run ∧ isWordStart c = true ∧
        ∀ d ∈ run, isWordChar d = true) ∧
      ∀ word : Keyword, word.spelling ≠ names.spelling n := by
  obtain ⟨lexeme, hword, hfree, hfind⟩ := h
  have hspelling : names.spelling n = String.ofList lexeme := by
    rw [Interner.spelling, hfind]
    rfl
  rw [hspelling, String.toList_ofList]
  exact ⟨hfind, hword, hfree⟩

/-- The reserved word for a truth value. -/
def boolWord (value : Bool) : Keyword := if value then .trueWord else .falseWord

theorem sexpr_bool (value : Bool) :
    (bool value).sexpr names = .word (boolWord value).spelling := by
  cases value <;> rfl

theorem readable_of_isWordChar {w : String} {c : Char} {run : List Char} (hw : w.toList = c :: run)
    (h : ∀ d ∈ c :: run, isWordChar d = true) : SExpr.Readable (.word w) := by
  refine .word (fun hempty => ?_) ?_
  · rw [hempty] at hw
    contradiction
  · rw [hw]
    exact fun d hd => isPlain_of_isWordChar (h d hd)

theorem readable_number (h : (number x).Writable names) :
    SExpr.Readable (.word (numberText x)) := by
  obtain ⟨c, run, hchars, hc⟩ := exists_digit h
  obtain ⟨m, e, hx⟩ := h
  refine .word (fun hempty => ?_) fun d hd => ?_
  · rw [hempty] at hchars
    contradiction
  · rcases (numeral_numberText hx).only d hd with hdigit | rfl
    · have hdigit : isDigit d = true := hdigit
      exact isPlain_of_isWordChar (by rw [isWordChar, hdigit, Bool.or_true])
    · decide

theorem readable_name (h : (name n).Writable names) :
    SExpr.Readable (.word (names.spelling n)) := by
  obtain ⟨-, ⟨c, run, hchars, hc, hrun⟩, -⟩ := exists_identifier h
  exact readable_of_isWordChar hchars
    (List.forall_mem_cons.mpr ⟨Lexer.isWordChar_of_isWordStart hc, hrun⟩)

theorem readable_bool (value : Bool) : SExpr.Readable ((bool value).sexpr names) := by
  obtain ⟨c, run, hchars, -, hrun⟩ := Lexer.exists_spelling_cons (boolWord value)
  rw [sexpr_bool]
  exact readable_of_isWordChar hchars hrun

theorem number_ne_of_isWordStart {w : String} {c : Char} {run : List Char}
    (h : (number x).Writable names) (hw : w.toList = c :: run) (hc : isWordStart c = true) :
    numberText x ≠ w := by
  obtain ⟨d, behind, hchars, hd⟩ := exists_digit h
  intro heq
  rw [heq, hw] at hchars
  rw [← (List.cons.inj hchars).1, Lexer.not_isDigit_of_isWordStart hc] at hd
  contradiction

theorem number_ne_bool (h : (number x).Writable names) (value : Bool) :
    (number x).sexpr names ≠ (bool value).sexpr names := by
  obtain ⟨c, run, hchars, hc, -⟩ := Lexer.exists_spelling_cons (boolWord value)
  rw [sexpr_bool]
  exact fun heq => number_ne_of_isWordStart h hchars hc.2.2.2.2 (SExpr.word.inj heq)

theorem number_ne_name (h : (number x).Writable names) (h' : (name n).Writable names) :
    (number x).sexpr names ≠ (name n).sexpr names := by
  obtain ⟨-, ⟨c, run, hchars, hc, -⟩, -⟩ := exists_identifier h'
  exact fun heq => number_ne_of_isWordStart h hchars hc (SExpr.word.inj heq)

theorem bool_ne_name (value : Bool) (h' : (name n).Writable names) :
    (bool value).sexpr names ≠ (name n).sexpr names := by
  rw [sexpr_bool]
  exact fun heq => (exists_identifier h').2.2 _ (SExpr.word.inj heq)

/-- A name in use is told by its spelling. -/
theorem eq_of_spelling {n n' : Name} {s s' : String} (hnames : names.Consistent)
    (h : names.find? n = some s) (h' : names.find? n' = some s')
    (heq : names.spelling n = names.spelling n') : n = n' := by
  rw [Interner.spelling, Interner.spelling, h, h', Option.getD_some, Option.getD_some] at heq
  subst heq
  have hid := (hnames s n).mpr h
  rw [(hnames s n').mpr h'] at hid
  exact (Option.some.inj hid).symm

/-- Leaves that are dumped alike are the same leaf. -/
theorem sexpr_inj {l l' : Leaf} (hnames : names.Consistent) (h : l.Writable names)
    (h' : l'.Writable names) (heq : l.sexpr names = l'.sexpr names) : l = l' := by
  -- numbers, reserved words and names are all dumped as words, and told apart by their spellings
  cases l with
  | number x =>
    cases l' with
    | number y =>
      obtain ⟨m, e, hx⟩ := h
      obtain ⟨n, f, hy⟩ := h'
      rw [numberText_inj hx hy (SExpr.word.inj heq)]
    | bool value => exact absurd heq (number_ne_bool h value)
    | name n => exact absurd heq (number_ne_name h h')
    | _ => contradiction
  | bool value =>
    cases l' with
    | number y => exact absurd heq.symm (number_ne_bool h' value)
    | bool value' =>
      rw [sexpr_bool, sexpr_bool] at heq
      cases value <;> cases value' <;> first | rfl | exact absurd (SExpr.word.inj heq) (by decide)
    | name n => exact absurd heq (bool_ne_name value h')
    | _ => contradiction
  | name n =>
    cases l' with
    | number y => exact absurd heq.symm (number_ne_name h' h)
    | bool value => exact absurd heq.symm (bool_ne_name value h)
    | name n' =>
      rw [eq_of_spelling hnames (exists_identifier h).1 (exists_identifier h').1
        (SExpr.word.inj heq)]
    | _ => contradiction
  | string contents =>
    cases l' with
    | string contents' =>
      obtain ⟨_, _, _, _, hfind⟩ := h
      obtain ⟨_, _, _, _, hfind'⟩ := h'
      rw [eq_of_spelling hnames hfind hfind' (SExpr.quoted.inj heq)]
    | _ => contradiction
  | operator symbol =>
    cases l' with
    | operator symbol' => rw [(SExpr.form.inj heq).1]
    | _ => contradiction

end Leaf

/-! ## Trees -/

/-- Words in brackets, the first of them as the head. -/
def SExpr.ofWords (words : List String) : SExpr := .form (words.headD "") (words.tail.map .word)

namespace Expr

variable {ι : Type}

mutual

/-- How a tree is dumped. -/
def sexpr (names : Interner) : Expr ι → SExpr
  | number _ value => (Leaf.number value).sexpr names
  | string _ contents => (Leaf.string contents).sexpr names
  | bool _ value => (Leaf.bool value).sexpr names
  | var _ name => (Leaf.name name).sexpr names
  | assign _ target value => .form "=" [(Leaf.name target).sexpr names, sexpr names value]
  | binary _ op left right => .form op.symbol [sexpr names left, sexpr names right]
  | ifThen _ condition thenBranch => .form "if" [sexpr names condition, sexpr names thenBranch]
  | ifElse _ condition thenBranch elseBranch =>
    .form "if" [sexpr names condition, sexpr names thenBranch, sexpr names elseBranch]
  | loop _ condition body => .form "while" [sexpr names condition, sexpr names body]
  | seq _ items => .form "seq" (sexprAll names items)
  | lambda _ _ params body =>
    .form "lambda" [.ofWords (params.map names.spelling), sexpr names body]
  | call _ callee args => .form "call" (sexpr names callee :: sexprAll names args)

/-- How the trees of a list are dumped. -/
def sexprAll (names : Interner) : List (Expr ι) → List SExpr
  | [] => []
  | item :: items => sexpr names item :: sexprAll names items

end

theorem text_ofWords (words : List String) :
    SExpr.text (.ofWords words) = '(' :: ((" ".intercalate words).toList ++ [')']) := by
  have hall : ∀ first others, (" ".intercalate (first :: others)).toList =
      first.toList ++ SExpr.textAll (others.map .word) := by
    intro first others
    induction others generalizing first with
    | nil => simp [SExpr.textAll]
    | cons second others ih =>
      rw [String.intercalate_cons_cons, String.toList_append, String.toList_append, ih,
        List.map_cons, SExpr.textAll, SExpr.text, List.append_assoc]
      rfl
  cases words with
  | nil => rfl
  | cons first others =>
    rw [SExpr.ofWords, SExpr.text, hall, List.headD_cons, List.tail_cons, List.append_assoc]

mutual

/-- The characters of a dump. -/
theorem toList_dump (names : Interner) (e : Expr ι) :
    (e.dump names).toList = (e.sexpr names).text := by
  cases e with
  | number | string | bool | var => rfl
  | assign span target value =>
    simp [dump, sexpr, Leaf.sexpr, SExpr.text, SExpr.textAll, toList_dump names value]
  | binary span op left right =>
    simp [dump, sexpr, SExpr.text, SExpr.textAll, toList_dump names left, toList_dump names right]
  | ifThen span condition thenBranch =>
    simp [dump, sexpr, SExpr.text, SExpr.textAll, toList_dump names condition,
      toList_dump names thenBranch]
  | ifElse span condition thenBranch elseBranch =>
    simp [dump, sexpr, SExpr.text, SExpr.textAll, toList_dump names condition,
      toList_dump names thenBranch, toList_dump names elseBranch]
  | loop span condition body =>
    simp [dump, sexpr, SExpr.text, SExpr.textAll, toList_dump names condition,
      toList_dump names body]
  | seq span items => simp [dump, sexpr, SExpr.text, toList_dumpAll names items]
  | lambda span label params body =>
    simp [dump, dumpNames, sexpr, SExpr.text, SExpr.textAll, text_ofWords, toList_dump names body]
  | call span callee args =>
    simp [dump, sexpr, SExpr.text, SExpr.textAll, toList_dump names callee,
      toList_dumpAll names args]

theorem toList_dumpAll (names : Interner) (items : List (Expr ι)) :
    (dumpAll names items).toList = SExpr.textAll (sexprAll names items) := by
  cases items with
  | nil => rfl
  | cons item items =>
    simp [dumpAll, sexprAll, SExpr.textAll, toList_dump names item, toList_dumpAll names items]

end

/-! ### Reading dumps -/

variable {names : Interner}

theorem isPlain_symbol {symbol : String} (h : IsSymbol symbol) :
    ∀ c ∈ symbol.toList, SExpr.isPlain c = true := by
  rcases h with rfl | ⟨op, rfl⟩
  · exact List.all_eq_true.mp rfl
  · cases op <;> exact List.all_eq_true.mp rfl

theorem readable_leaf {l : Leaf} (h : l.Writable names) : (l.sexpr names).Readable := by
  cases l with
  | number x => exact Leaf.readable_number h
  | string contents => exact .quoted _
  | bool value => exact Leaf.readable_bool value
  | name n => exact Leaf.readable_name h
  | operator symbol => exact .form (isPlain_symbol h) (by simp)

theorem readable_ofWords {words : List String} (h : ∀ w ∈ words, SExpr.Readable (.word w)) :
    (SExpr.ofWords words).Readable := by
  cases words with
  | nil => exact .form (by simp) (by simp)
  | cons first others =>
    obtain ⟨hfirst, hothers⟩ := List.forall_mem_cons.mp h
    cases hfirst with | word _ hplain =>
    exact .form hplain (List.forall_mem_map.mpr hothers)

mutual

theorem readable_sexpr (e : Expr ι) (h : ∀ l ∈ e.reading, l.Writable names) :
    (e.sexpr names).Readable := by
  cases e with
  | number | string | bool | var => exact readable_leaf (h _ List.mem_cons_self)
  | assign span target value =>
    simp only [reading, List.forall_mem_cons] at h
    refine .form (List.all_eq_true.mp rfl) ?_
    simp [readable_leaf h.1, readable_sexpr value h.2.2]
  | binary span op left right =>
    simp only [reading, List.forall_mem_append, List.forall_mem_cons] at h
    refine .form (isPlain_symbol (.inr ⟨op, rfl⟩)) ?_
    simp [readable_sexpr left h.1, readable_sexpr right h.2.2]
  | ifThen span condition thenBranch =>
    simp only [reading, List.forall_mem_append] at h
    refine .form (List.all_eq_true.mp rfl) ?_
    simp [readable_sexpr condition h.1, readable_sexpr thenBranch h.2]
  | ifElse span condition thenBranch elseBranch =>
    simp only [reading, List.forall_mem_append] at h
    refine .form (List.all_eq_true.mp rfl) ?_
    simp [readable_sexpr condition h.1.1, readable_sexpr thenBranch h.1.2,
      readable_sexpr elseBranch h.2]
  | loop span condition body =>
    simp only [reading, List.forall_mem_append] at h
    refine .form (List.all_eq_true.mp rfl) ?_
    simp [readable_sexpr condition h.1, readable_sexpr body h.2]
  | seq span items => exact .form (List.all_eq_true.mp rfl) (readable_sexprAll items h)
  | lambda span label params body =>
    simp only [reading, List.forall_mem_append, List.forall_mem_map] at h
    have hparams : ∀ w ∈ params.map names.spelling, SExpr.Readable (.word w) :=
      List.forall_mem_map.mpr fun n hn => Leaf.readable_name (h.1 n hn)
    refine .form (List.all_eq_true.mp rfl) ?_
    simp [readable_ofWords hparams, readable_sexpr body h.2]
  | call span callee args =>
    simp only [reading, List.forall_mem_append] at h
    exact .form (List.all_eq_true.mp rfl)
      (List.forall_mem_cons.mpr ⟨readable_sexpr callee h.1, readable_sexprAll args h.2⟩)

theorem readable_sexprAll (items : List (Expr ι)) (h : ∀ l ∈ readingAll items, l.Writable names) :
    ∀ part ∈ sexprAll names items, part.Readable := by
  cases items with
  | nil => simp [sexprAll]
  | cons item items =>
    simp only [readingAll, List.forall_mem_append] at h
    exact List.forall_mem_cons.mpr ⟨readable_sexpr item h.1, readable_sexprAll items h.2⟩

end

theorem ofWords_inj {words words' : List String} (h : ∀ w ∈ words, w ≠ "")
    (h' : ∀ w ∈ words', w ≠ "") (heq : SExpr.ofWords words = SExpr.ofWords words') :
    words = words' := by
  obtain ⟨hhead, htail⟩ := SExpr.form.inj heq
  cases words with
  | nil =>
    cases words' with
    | nil => rfl
    | cons first' others' => exact absurd hhead.symm (h' first' List.mem_cons_self)
  | cons first others =>
    cases words' with
    | nil => exact absurd hhead (h first List.mem_cons_self)
    | cons first' others' =>
      have hothers : others = others' :=
        List.map_injective_iff.mpr (fun _ _ hw => SExpr.word.inj hw) htail
      rw [hothers]
      exact congrArg (· :: others') hhead

theorem params_inj {params params' : List Name} (hnames : names.Consistent)
    (h : ∀ n ∈ params, (Leaf.name n).Writable names)
    (h' : ∀ n ∈ params', (Leaf.name n).Writable names)
    (heq : SExpr.ofWords (params.map names.spelling) =
      SExpr.ofWords (params'.map names.spelling)) : params = params' := by
  have hne {params : List Name} (h : ∀ n ∈ params, (Leaf.name n).Writable names) :
      ∀ w ∈ params.map names.spelling, w ≠ "" := by
    refine List.forall_mem_map.mpr fun n hn => ?_
    cases Leaf.readable_name (h n hn) with | word hword _ => exact hword
  have hwords := ofWords_inj (hne h) (hne h') heq
  clear heq
  induction params generalizing params' with
  | nil => exact (List.map_eq_nil_iff.mp hwords.symm).symm
  | cons n params ih =>
    cases params' with
    | nil => contradiction
    | cons n' params' =>
      obtain ⟨hhead, htail⟩ := List.cons.inj hwords
      obtain ⟨hn, hothers⟩ := List.forall_mem_cons.mp h
      obtain ⟨hn', hothers'⟩ := List.forall_mem_cons.mp h'
      rw [Leaf.eq_of_spelling hnames (Leaf.exists_identifier hn).1 (Leaf.exists_identifier hn').1
        hhead, ih hothers hothers' htail]

/-- No form that begins with another word is that of an operator. -/
theorem symbol_ne {op : BinaryOp} {head : String} (h : BinaryOp.ofSymbol? head = none) :
    op.symbol ≠ head := by
  rintro rfl
  rw [BinaryOp.ofSymbol?_symbol] at h
  contradiction

mutual

/-- Trees that are dumped alike are the same tree, but for the places they were read from. -/
theorem bare_eq_of_sexpr_eq (hnames : names.Consistent) (e e' : Tree)
    (h : ∀ l ∈ e.reading, l.Writable names) (h' : ∀ l ∈ e'.reading, l.Writable names)
    (heq : e.sexpr names = e'.sexpr names) : e.bare = e'.bare := by
  -- trees of different kinds have different heads, or not as many parts
  cases e with
  | number | string | bool | var =>
    cases e' with
    | number | string | bool | var =>
      cases Leaf.sexpr_inj hnames (h _ List.mem_cons_self) (h' _ List.mem_cons_self) heq <;> rfl
    | _ => simp [sexpr, Leaf.sexpr] at heq
  | assign span target value =>
    cases e' with
    | assign span' target' value' =>
      simp only [reading, List.forall_mem_cons] at h h'
      simp only [sexpr, SExpr.form.injEq, List.cons.injEq, true_and, and_true] at heq
      cases Leaf.sexpr_inj hnames h.1 h'.1 heq.1
      rw [bare, bare, bare_eq_of_sexpr_eq hnames value value' h.2.2 h'.2.2 heq.2]
    | binary => exact absurd (SExpr.form.inj heq).1.symm (symbol_ne rfl)
    | _ => simp [sexpr, Leaf.sexpr] at heq
  | binary span op left right =>
    cases e' with
    | binary span' op' left' right' =>
      simp only [reading, List.forall_mem_append, List.forall_mem_cons] at h h'
      simp only [sexpr, SExpr.form.injEq, List.cons.injEq, and_true] at heq
      have hop : op = op' := by
        have hsymbol := BinaryOp.ofSymbol?_symbol op
        rw [heq.1, BinaryOp.ofSymbol?_symbol] at hsymbol
        exact (Option.some.inj hsymbol).symm
      rw [bare, bare, hop, bare_eq_of_sexpr_eq hnames left left' h.1 h'.1 heq.2.1,
        bare_eq_of_sexpr_eq hnames right right' h.2.2 h'.2.2 heq.2.2]
    | number | string | bool | var => simp [sexpr, Leaf.sexpr] at heq
    | _ => exact absurd (SExpr.form.inj heq).1 (symbol_ne rfl)
  | ifThen span condition thenBranch =>
    cases e' with
    | ifThen span' condition' thenBranch' =>
      simp only [reading, List.forall_mem_append] at h h'
      simp only [sexpr, SExpr.form.injEq, List.cons.injEq, true_and, and_true] at heq
      rw [bare, bare, bare_eq_of_sexpr_eq hnames condition condition' h.1 h'.1 heq.1,
        bare_eq_of_sexpr_eq hnames thenBranch thenBranch' h.2 h'.2 heq.2]
    | binary => exact absurd (SExpr.form.inj heq).1.symm (symbol_ne rfl)
    | _ => simp [sexpr, Leaf.sexpr] at heq
  | ifElse span condition thenBranch elseBranch =>
    cases e' with
    | ifElse span' condition' thenBranch' elseBranch' =>
      simp only [reading, List.forall_mem_append] at h h'
      simp only [sexpr, SExpr.form.injEq, List.cons.injEq, true_and, and_true] at heq
      rw [bare, bare, bare_eq_of_sexpr_eq hnames condition condition' h.1.1 h'.1.1 heq.1,
        bare_eq_of_sexpr_eq hnames thenBranch thenBranch' h.1.2 h'.1.2 heq.2.1,
        bare_eq_of_sexpr_eq hnames elseBranch elseBranch' h.2 h'.2 heq.2.2]
    | binary => exact absurd (SExpr.form.inj heq).1.symm (symbol_ne rfl)
    | _ => simp [sexpr, Leaf.sexpr] at heq
  | loop span condition body =>
    cases e' with
    | loop span' condition' body' =>
      simp only [reading, List.forall_mem_append] at h h'
      simp only [sexpr, SExpr.form.injEq, List.cons.injEq, true_and, and_true] at heq
      rw [bare, bare, bare_eq_of_sexpr_eq hnames condition condition' h.1 h'.1 heq.1,
        bare_eq_of_sexpr_eq hnames body body' h.2 h'.2 heq.2]
    | binary => exact absurd (SExpr.form.inj heq).1.symm (symbol_ne rfl)
    | _ => simp [sexpr, Leaf.sexpr] at heq
  | seq span items =>
    cases e' with
    | seq span' items' =>
      rw [bare, bare, bareAll_eq_of_sexprAll_eq hnames items items' h h' (SExpr.form.inj heq).2]
    | binary => exact absurd (SExpr.form.inj heq).1.symm (symbol_ne rfl)
    | _ => simp [sexpr, Leaf.sexpr] at heq
  | lambda span label params body =>
    cases e' with
    | lambda span' label' params' body' =>
      simp only [reading, List.forall_mem_append, List.forall_mem_map] at h h'
      simp only [sexpr, SExpr.form.injEq, List.cons.injEq, true_and, and_true] at heq
      rw [bare, bare, params_inj hnames h.1 h'.1 heq.1,
        bare_eq_of_sexpr_eq hnames body body' h.2 h'.2 heq.2]
    | binary => exact absurd (SExpr.form.inj heq).1.symm (symbol_ne rfl)
    | _ => simp [sexpr, Leaf.sexpr] at heq
  | call span callee args =>
    cases e' with
    | call span' callee' args' =>
      simp only [reading, List.forall_mem_append] at h h'
      simp only [sexpr, SExpr.form.injEq, List.cons.injEq, true_and] at heq
      rw [bare, bare, bare_eq_of_sexpr_eq hnames callee callee' h.1 h'.1 heq.1,
        bareAll_eq_of_sexprAll_eq hnames args args' h.2 h'.2 heq.2]
    | binary => exact absurd (SExpr.form.inj heq).1.symm (symbol_ne rfl)
    | _ => simp [sexpr, Leaf.sexpr] at heq

theorem bareAll_eq_of_sexprAll_eq (hnames : names.Consistent) (items items' : List Tree)
    (h : ∀ l ∈ readingAll items, l.Writable names)
    (h' : ∀ l ∈ readingAll items', l.Writable names)
    (heq : sexprAll names items = sexprAll names items') : bareAll items = bareAll items' := by
  cases items with
  | nil =>
    cases items' with
    | nil => rfl
    | cons item' items' => contradiction
  | cons item items =>
    cases items' with
    | nil => contradiction
    | cons item' items' =>
      simp only [readingAll, List.forall_mem_append] at h h'
      obtain ⟨hitem, hitems⟩ := List.cons.inj heq
      rw [bareAll, bareAll, bare_eq_of_sexpr_eq hnames item item' h.1 h'.1 hitem,
        bareAll_eq_of_sexprAll_eq hnames items items' h.2 h'.2 hitems]

end

end Expr

/-! ## Programs -/

/-- Every leaf of the tokens is that of one of them, or an empty block. -/
theorem exists_leaf {names : Interner} {l : Leaf} {kinds : List TokenKind}
    (h : l ∈ leavesOf names kinds) :
    l = .bool false ∨ ∃ kind ∈ kinds, kind.leaf? names = some l := by
  fun_induction leavesOf names kinds with
  | case1 => contradiction
  | case2 rest ih =>
    rcases List.mem_cons.mp h with rfl | hmem
    · exact .inl rfl
    · rcases ih hmem with hfalse | ⟨kind, hkind, hleaf⟩
      · exact .inl hfalse
      · exact .inr ⟨kind, List.mem_cons_of_mem _ (List.mem_cons_of_mem _ hkind), hleaf⟩
  | case3 kind rest hnot ih =>
    rcases List.mem_append.mp h with hfirst | hmem
    · exact .inr ⟨kind, List.mem_cons_self, Option.mem_toList.mp hfirst⟩
    · rcases ih hmem with hfalse | ⟨kind, hkind, hleaf⟩
      · exact .inl hfalse
      · exact .inr ⟨kind, List.mem_cons_of_mem _ hkind, hleaf⟩

theorem LaidOut.exists_lexeme {names : Interner} {text : List Char} {lexemes : List (List Char)}
    {kinds : List TokenKind} (h : LaidOut names text lexemes kinds) {kind : TokenKind}
    (hkind : kind ∈ kinds) : ∃ lexeme, kind.SpelledBy names lexeme := by
  induction h with
  | last => contradiction
  | token _ hlexeme _ _ ih =>
    rcases List.mem_cons.mp hkind with rfl | hmem
    · exact ⟨_, hlexeme⟩
    · exact ih hmem

variable {source source' : String} {before before' after after' names : Interner}
  {tree tree' : Tree}

/-- The leaves of a program can be told from their dumps. -/
theorem writable_of_parseSource (hbefore : before.Made)
    (hparse : parseSource source before = (.ok tree, after)) (hgrows : after.Grows names)
    (hfinite : tree.reading.any Leaf.overflows = false) :
    ∀ l ∈ tree.reading, l.Writable names := by
  intro l hl
  obtain ⟨tokens, hlex, hreading, -⟩ := reading_parseSource hbefore hparse
  obtain ⟨lexemes, hlaid, -⟩ := exists_laidOut_of_lex hbefore.consistent hlex
  have hoverflows : l.overflows = false := by
    rw [List.any_eq_false] at hfinite
    exact Bool.eq_false_iff.mpr (hfinite l hl)
  have hleaf := hl
  rw [hreading] at hleaf
  -- a leaf that is not an empty block is spelled by a lexeme of the source
  rcases exists_leaf hleaf with rfl | ⟨kind, hkind, hkindLeaf⟩
  · trivial
  obtain ⟨lexeme, hspelled⟩ := hlaid.exists_lexeme hkind
  have hlater := hspelled.grows hgrows
  cases kind with
  | number value =>
    cases hkindLeaf
    obtain ⟨-, -, rfl⟩ := hlater
    rcases Decimal.shape_ofDigits lexeme with hinfinite | hshape
    · rw [Leaf.overflows, hinfinite] at hoverflows
      contradiction
    · exact hshape
  | string contents =>
    cases hkindLeaf
    exact ⟨lexeme, hlater⟩
  | identifier name =>
    cases hkindLeaf
    exact ⟨lexeme, hlater⟩
  | keyword word => cases word <;> cases hkindLeaf <;> trivial
  | punct mark => contradiction
  | operator spelling =>
    cases hkindLeaf
    exact isSymbol_of_mem_reading tree hl

/-- Two programs that were read with one interner and are dumped alike are the same program, but for
the places that its parts were read from, if no number in them is too large. -/
theorem bare_eq_of_dump_eq (hbefore : before.Made) (hbefore' : before'.Made)
    (hparse : parseSource source before = (.ok tree, after))
    (hparse' : parseSource source' before' = (.ok tree', after')) (hnames : names.Made)
    (hgrows : after.Grows names) (hgrows' : after'.Grows names)
    (hfinite : tree.reading.any Leaf.overflows = false)
    (hfinite' : tree'.reading.any Leaf.overflows = false)
    (h : tree.dump names = tree'.dump names) : tree.bare = tree'.bare := by
  have hwritable := writable_of_parseSource hbefore hparse hgrows hfinite
  have hwritable' := writable_of_parseSource hbefore' hparse' hgrows' hfinite'
  have htext : (tree.sexpr names).text ++ [] = (tree'.sexpr names).text ++ [] := by
    rw [← Expr.toList_dump, ← Expr.toList_dump, h]
  have hends : SExpr.Ends [] := fun c hc => nomatch hc
  obtain ⟨hsexpr, -⟩ := SExpr.text_inj (Expr.readable_sexpr tree hwritable)
    (Expr.readable_sexpr tree' hwritable') hends hends htext
  exact Expr.bare_eq_of_sexpr_eq hnames.consistent tree tree' hwritable hwritable' hsexpr

/-- Two sources that differ in layout, in brackets that are not needed, and in separators. -/
theorem bare_eq_of_dump_eq_brackets : ∃ tree tree' names later,
    parseSource "f(\"a b\", 20); (g)" .fresh = (.ok tree, names) ∧
    parseSource "f (\"a b\", (20),) ; g ;" names = (.ok tree', later) ∧
    tree.dump later = "(seq (call f \"a b\" 20) g)" ∧ tree.dump later = tree'.dump later ∧
    tree.bare = tree'.bare := by
  let source := "f(\"a b\", 20); (g)"
  let source' := "f (\"a b\", (20),) ; g ;"
  obtain ⟨tree, names, hparse⟩ : ∃ tree names, parseSource source .fresh = (.ok tree, names) :=
    exists_eq_ok (by decide +kernel)
  have hnames : names = (parseSource source .fresh).2 := by rw [hparse]
  obtain ⟨tree', later, hparse'⟩ : ∃ tree' later, parseSource source' names = (.ok tree', later) :=
    exists_eq_ok (by rw [hnames]; decide +kernel)
  have hlater : later = (parseSource source' (parseSource source .fresh).2).2 := by
    rw [← hnames, hparse']
  have hdump : ((parseSource source .fresh).1.toOption.map fun e =>
      (e.dump (parseSource source' (parseSource source .fresh).2).2,
        e.reading.any Leaf.overflows)) =
      some ("(seq (call f \"a b\" 20) g)", false) := by decide +kernel
  have hdump' : ((parseSource source' (parseSource source .fresh).2).1.toOption.map fun e =>
      (e.dump (parseSource source' (parseSource source .fresh).2).2,
        e.reading.any Leaf.overflows)) =
      some ("(seq (call f \"a b\" 20) g)", false) := by decide +kernel
  rw [← hlater, hparse] at hdump
  rw [← hlater, ← hnames, hparse'] at hdump'
  obtain ⟨htext, hfinite⟩ := Prod.mk.inj (Option.some.inj hdump)
  obtain ⟨htext', hfinite'⟩ := Prod.mk.inj (Option.some.inj hdump')
  obtain ⟨hmade, -⟩ := made_of_parseSource .fresh hparse
  obtain ⟨hmade', hgrows⟩ := made_of_parseSource hmade hparse'
  have halike := htext.trans htext'.symm
  exact ⟨tree, tree', names, later, hparse, hparse', htext, halike, bare_eq_of_dump_eq .fresh hmade
    hparse hparse' hmade' hgrows (Interner.Grows.refl later) hfinite hfinite' halike⟩

end LambdaScript
