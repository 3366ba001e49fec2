import LambdaScript.Proofs.Enclosure
import LambdaScript.Proofs.Viability
/-!
# What the nodes of a program are made of

The grammar makes spans from the spans of tokens by merging, and takes names from tokens. A property
of spans that merging keeps, and a property of names, therefore hold of a whole program if they hold
of its tokens (`Grammar.every_of_run_ok`), of the operand that an error is about
(`Grammar.every_of_badTarget`), and of every expression that stands in the program, also when its
lambda nodes have been numbered (`Within.every`, `Expr.every_numbered`).
-/

namespace LambdaScript

variable {P Q : Span → Prop} {K L : Name → Prop}

/-- The span of the token has the property `P`, and what it holds the property `K`. -/
def Token.Every (P : Span → Prop) (K : Name → Prop) (t : Token) : Prop :=
  P t.span ∧ ∀ x, t.kind.name? = some x → K x

namespace Expr

variable {ι : Type}

mutual

/-- All spans of the expression have the property `P`, and all its names the property `K`. -/
def Every (P : Span → Prop) (K : Name → Prop) : Expr ι → Prop
  | number s _ | bool s _ => P s
  | string s x | var s x => P s ∧ K x
  | assign s x value => P s ∧ K x ∧ Every P K value
  | binary s _ left right => P s ∧ Every P K left ∧ Every P K right
  | ifThen s condition thenBranch => P s ∧ Every P K condition ∧ Every P K thenBranch
  | ifElse s condition thenBranch elseBranch =>
    P s ∧ Every P K condition ∧ Every P K thenBranch ∧ Every P K elseBranch
  | loop s condition body => P s ∧ Every P K condition ∧ Every P K body
  | seq s items => P s ∧ EveryOf P K items
  | lambda s _ params body => P s ∧ (∀ x ∈ params, K x) ∧ Every P K body
  | call s callee args => P s ∧ Every P K callee ∧ EveryOf P K args

/-- The same of the expressions in a list. -/
def EveryOf (P : Span → Prop) (K : Name → Prop) : List (Expr ι) → Prop
  | [] => True
  | item :: items => Every P K item ∧ EveryOf P K items

end

theorem everyOf_iff {items : List (Expr ι)} : EveryOf P K items ↔ ∀ e ∈ items, e.Every P K := by
  induction items with
  | nil => simp [EveryOf]
  | cons item items ih => rw [EveryOf, ih, List.forall_mem_cons]

theorem Every.span {e : Expr ι} (h : e.Every P K) : P e.span := by
  cases e with
  | number | bool => exact h
  | _ => exact h.1

/-! ## Parts -/

theorem Every.part {e e' : Expr ι} (h : e.Every P K) (hpart : e' ∈ e.parts) : e'.Every P K := by
  cases e with
  | number | string | bool | var | lambda => contradiction
  | seq s items => exact everyOf_iff.mp h.2 e' hpart
  | call s callee args =>
    rcases List.mem_cons.mp hpart with rfl | hpart
    · exact h.2.1
    · exact everyOf_iff.mp h.2.2 e' hpart
  | assign s x value =>
    obtain rfl := List.mem_singleton.mp hpart
    exact h.2.2
  | _ =>
    simp only [parts, List.mem_cons, List.not_mem_nil, or_false] at hpart
    simp only [Every] at h
    rcases hpart with rfl | rfl | rfl <;> simp only [h]

mutual

theorem Every.mono {e : Expr ι} (h : e.Every P K) (hspan : ∀ s, P s → Q s)
    (hname : ∀ x, K x → L x) : e.Every Q L := by
  cases e with
  | number | bool => exact hspan _ h
  | string | var => exact ⟨hspan _ h.1, hname _ h.2⟩
  | assign s x value => exact ⟨hspan _ h.1, hname _ h.2.1, h.2.2.mono hspan hname⟩
  | binary s op left right =>
    exact ⟨hspan _ h.1, h.2.1.mono hspan hname, h.2.2.mono hspan hname⟩
  | ifThen s condition thenBranch =>
    exact ⟨hspan _ h.1, h.2.1.mono hspan hname, h.2.2.mono hspan hname⟩
  | ifElse s condition thenBranch elseBranch =>
    exact ⟨hspan _ h.1, h.2.1.mono hspan hname, h.2.2.1.mono hspan hname,
      h.2.2.2.mono hspan hname⟩
  | loop s condition body =>
    exact ⟨hspan _ h.1, h.2.1.mono hspan hname, h.2.2.mono hspan hname⟩
  | seq s items => exact ⟨hspan _ h.1, EveryOf.mono h.2 hspan hname⟩
  | lambda s label params body =>
    exact ⟨hspan _ h.1, fun x hx => hname x (h.2.1 x hx), h.2.2.mono hspan hname⟩
  | call s callee args =>
    exact ⟨hspan _ h.1, h.2.1.mono hspan hname, EveryOf.mono h.2.2 hspan hname⟩

theorem EveryOf.mono {items : List (Expr ι)} (h : EveryOf P K items) (hspan : ∀ s, P s → Q s)
    (hname : ∀ x, K x → L x) : EveryOf Q L items := by
  cases items with
  | nil => trivial
  | cons item items => exact ⟨h.1.mono hspan hname, EveryOf.mono h.2 hspan hname⟩

end

/-! ## Numbering -/

mutual

/-- Numbering lambda nodes changes neither spans nor names. -/
theorem every_numbered {first : Nat} {tree : Tree} (h : tree.Every P K) :
    (numbered first tree).1.Every P K := by
  cases tree with
  | number | string | bool | var => exact h
  | assign s x value => exact ⟨h.1, h.2.1, every_numbered h.2.2⟩
  | binary s op left right => exact ⟨h.1, every_numbered h.2.1, every_numbered h.2.2⟩
  | ifThen s condition thenBranch => exact ⟨h.1, every_numbered h.2.1, every_numbered h.2.2⟩
  | ifElse s condition thenBranch elseBranch =>
    exact ⟨h.1, every_numbered h.2.1, every_numbered h.2.2.1, every_numbered h.2.2.2⟩
  | loop s condition body => exact ⟨h.1, every_numbered h.2.1, every_numbered h.2.2⟩
  | seq s items => exact ⟨h.1, everyOf_numberedAll h.2⟩
  | lambda s label params body => exact ⟨h.1, h.2.1, every_numbered h.2.2⟩
  | call s callee args => exact ⟨h.1, every_numbered h.2.1, everyOf_numberedAll h.2.2⟩

theorem everyOf_numberedAll {first : Nat} {items : List Tree} (h : EveryOf P K items) :
    EveryOf P K (numberedAll first items).1 := by
  cases items with
  | nil => trivial
  | cons item items => exact ⟨every_numbered h.1, everyOf_numberedAll h.2⟩

end

end Expr

/-- What holds of a program holds of all that stands in it. -/
theorem Within.every {root e : Code} {around : List Binder} (h : Within root around e)
    (hroot : root.Every P K) : e.Every P K := by
  induction h with
  | root => exact hroot
  | part _ hpart ih => exact ih.part hpart
  | body _ ih => exact ih.2.2

/-! ## Reading a program -/

namespace Grammar

/-- The same of what has been read of an open construct. -/
def Frame.Every (P : Span → Prop) (K : Name → Prop) : Frame → Prop
  | operand _ left => left.Every P K
  | paren => True
  | block start before => P start ∧ ∀ e ∈ before, e.Every P K
  | args callee start before => callee.Every P K ∧ P start ∧ ∀ e ∈ before, e.Every P K
  | ifCondition start | loopCondition start => P start
  | thenBranch start condition | loopBody start condition => P start ∧ condition.Every P K
  | elseBranch start condition branch => P start ∧ condition.Every P K ∧ branch.Every P K
  | lambdaBody start params => P start ∧ ∀ x ∈ params, K x

/-- The same of what has been read of the innermost construct. -/
def Point.Every (P : Span → Prop) (K : Name → Prop) : Point → Prop
  | operand | item => True
  | value tree => tree.Every P K
  | paramList start => P start
  | param start before | paramEnd start before => P start ∧ ∀ x ∈ before, K x

/-- The same of all that has been read. -/
structure Config.Every (P : Span → Prop) (K : Name → Prop) (c : Config) : Prop where
  items : ∀ e ∈ c.items, e.Every P K
  stack : ∀ frame ∈ c.stack, frame.Every P K
  point : c.point.Every P K

/-- Merging spans keeps the property. -/
def MergeClosed (P : Span → Prop) : Prop := ∀ s t, P s → P t → P (s.merge t)

variable {names : Interner} {items items' : List Tree} {stack stack' : List Frame}
  {look : Option Token} {t : Token} {value whole : Tree} {place : Point} {c c' : Config}

theorem every_start : Config.start.Every P K :=
  ⟨List.forall_mem_nil _, List.forall_mem_nil _, trivial⟩

theorem Begins.every {opened : List Frame} (h : Begins t opened place) (ht : t.Every P K) :
    (∀ frame ∈ opened, frame.Every P K) ∧ place.Every P K := by
  obtain ⟨hspan, hname⟩ := ht
  cases h with
  | paren => simp [Frame.Every, Point.Every]
  | lambdaWord | trueWord | falseWord | number => exact ⟨List.forall_mem_nil _, hspan⟩
  | block | ifWord | whileWord => simpa [Frame.Every, Point.Every] using hspan
  | identifier name span =>
    exact ⟨List.forall_mem_nil _, hspan, hname name rfl⟩
  | string contents span =>
    exact ⟨List.forall_mem_nil _, hspan, hname contents rfl⟩

theorem every_blockTree {span : Span} (hspan : P span) (h : ∀ e ∈ items, e.Every P K) :
    (blockTree span items).Every P K := by
  match items with
  | [] => exact hspan
  | [item] => exact h item List.mem_cons_self
  | _ :: _ :: _ => exact ⟨hspan, Expr.everyOf_iff.mpr h⟩

theorem ClosesList.every (hmerge : MergeClosed P) (h : ClosesList stack look stack' place)
    (hstack : ∀ frame ∈ stack, frame.Every P K) (hlook : ∀ t, look = some t → t.Every P K) :
    (∀ frame ∈ stack', frame.Every P K) ∧ place.Every P K := by
  cases h with
  | block start before stack span =>
    obtain ⟨⟨hstart, hbefore⟩, hstack⟩ := List.forall_mem_cons.mp hstack
    have hspan : P span := (hlook _ rfl).1
    refine ⟨hstack, every_blockTree (hmerge _ _ hstart hspan) ?_⟩
    simpa using hbefore
  | args callee start before stack span =>
    obtain ⟨⟨hcallee, hstart, hbefore⟩, hstack⟩ := List.forall_mem_cons.mp hstack
    have hspan : P span := (hlook _ rfl).1
    have hwhole := hmerge _ _ hcallee.span (hmerge _ _ hstart hspan)
    refine ⟨hstack, hwhole, hcallee, Expr.everyOf_iff.mpr ?_⟩
    simpa using hbefore
  | program => exact ⟨List.forall_mem_nil _, trivial⟩

theorem Adds.every {separator : Punct} (h : Adds items stack value separator items' stack')
    (hitems : ∀ e ∈ items, e.Every P K) (hstack : ∀ frame ∈ stack, frame.Every P K)
    (hvalue : value.Every P K) :
    (∀ e ∈ items', e.Every P K) ∧ ∀ frame ∈ stack', frame.Every P K := by
  cases h with
  | program => exact ⟨List.forall_mem_cons.mpr ⟨hvalue, hitems⟩, hstack⟩
  | block start before stack value =>
    obtain ⟨⟨hstart, hbefore⟩, hstack⟩ := List.forall_mem_cons.mp hstack
    have hframe : (Frame.block start (value :: before)).Every P K :=
      ⟨hstart, List.forall_mem_cons.mpr ⟨hvalue, hbefore⟩⟩
    exact ⟨hitems, List.forall_mem_cons.mpr ⟨hframe, hstack⟩⟩
  | args callee start before stack value =>
    obtain ⟨⟨hcallee, hstart, hbefore⟩, hstack⟩ := List.forall_mem_cons.mp hstack
    have hframe : (Frame.args callee start (value :: before)).Every P K :=
      ⟨hcallee, hstart, List.forall_mem_cons.mpr ⟨hvalue, hbefore⟩⟩
    exact ⟨hitems, List.forall_mem_cons.mpr ⟨hframe, hstack⟩⟩

theorem Heads.every {frame frame' : Frame} (h : Heads frame value frame')
    (hframe : frame.Every P K) (hvalue : value.Every P K) : frame'.Every P K := by
  cases h with
  | ifCondition | loopCondition => exact ⟨hframe, hvalue⟩

theorem every_of_join {connective : Connective} {left right : Tree} (hmerge : MergeClosed P)
    (h : join connective left right = .ok whole) (hleft : left.Every P K)
    (hright : right.Every P K) : whole.Every P K := by
  have hspan := hmerge _ _ hleft.span hright.span
  cases connective with
  | binary op =>
    cases h
    exact ⟨hspan, hleft, hright⟩
  | assignment =>
    cases left with
    | var span target =>
      cases h
      exact ⟨hspan, hleft.2, hright⟩
    | _ => contradiction

theorem Wraps.every {frame : Frame} (hmerge : MergeClosed P) (h : Wraps frame value whole)
    (hframe : frame.Every P K) (hvalue : value.Every P K) : whole.Every P K := by
  cases h with
  | operand h => exact every_of_join hmerge h hframe hvalue
  | thenBranch start condition value | loopBody start condition value =>
    exact ⟨hmerge _ _ hframe.1 hvalue.span, hframe.2, hvalue⟩
  | elseBranch start condition branch value =>
    exact ⟨hmerge _ _ hframe.1 hvalue.span, hframe.2.1, hframe.2.2, hvalue⟩
  | lambdaBody start params value =>
    exact ⟨hmerge _ _ hframe.1 hvalue.span, hframe.2, hvalue⟩

/-- One step: what is made anew is made from a token and from what has been read. -/
theorem Step.every (hmerge : MergeClosed P) (h : Step names c look c') (hc : c.Every P K)
    (hlook : ∀ t, look = some t → t.Every P K) : c'.Every P K := by
  induction h with
  | begin _ h =>
    obtain ⟨hopened, hplace⟩ := h.every (hlook _ rfl)
    exact ⟨hc.items, List.forall_mem_append.mpr ⟨hopened, hc.stack⟩, hplace⟩
  | close h =>
    obtain ⟨hstack, hplace⟩ := h.every hmerge hc.stack hlook
    exact ⟨hc.items, hstack, hplace⟩
  | closeBehind hadds h =>
    obtain ⟨hitems, hinner⟩ := hadds.every hc.items hc.stack hc.point
    obtain ⟨hstack, hplace⟩ := h.every hmerge hinner hlook
    exact ⟨hitems, hstack, hplace⟩
  | separator span h =>
    obtain ⟨hitems, hstack⟩ := h.every hc.items hc.stack hc.point
    exact ⟨hitems, hstack, trivial⟩
  | wrap h _ ih =>
    obtain ⟨hframe, hstack⟩ := List.forall_mem_cons.mp hc.stack
    exact ih ⟨hc.items, hstack, h.every hmerge hframe hc.point⟩ hlook
  | openArgs items stack callee span =>
    have hframe : (Frame.args callee span []).Every P K :=
      ⟨hc.point, (hlook _ rfl).1, List.forall_mem_nil _⟩
    exact ⟨hc.items, List.forall_mem_cons.mpr ⟨hframe, hc.stack⟩, trivial⟩
  | connective => exact ⟨hc.items, List.forall_mem_cons.mpr ⟨hc.point, hc.stack⟩, trivial⟩
  | closeParen => exact ⟨hc.items, (List.forall_mem_cons.mp hc.stack).2, hc.point⟩
  | thenWord span h =>
    obtain ⟨hframe, hstack⟩ := List.forall_mem_cons.mp hc.stack
    exact ⟨hc.items, List.forall_mem_cons.mpr ⟨h.every hframe hc.point, hstack⟩, trivial⟩
  | branchBlock span h =>
    obtain ⟨hframe, hstack⟩ := List.forall_mem_cons.mp hc.stack
    have hblock : (Frame.block span []).Every P K := ⟨(hlook _ rfl).1, List.forall_mem_nil _⟩
    refine ⟨hc.items, List.forall_mem_cons.mpr ⟨hblock, ?_⟩, trivial⟩
    exact List.forall_mem_cons.mpr ⟨h.every hframe hc.point, hstack⟩
  | elseWord items stack start condition thenBranch span =>
    obtain ⟨hframe, hstack⟩ := List.forall_mem_cons.mp hc.stack
    have hbranch : (Frame.elseBranch start condition thenBranch).Every P K :=
      ⟨hframe.1, hframe.2, hc.point⟩
    exact ⟨hc.items, List.forall_mem_cons.mpr ⟨hbranch, hstack⟩, trivial⟩
  | openParams => exact ⟨hc.items, hc.stack, hc.point, List.forall_mem_nil _⟩
  | param items stack start before name span =>
    have hname : K name := (hlook _ rfl).2 name rfl
    exact ⟨hc.items, hc.stack, hc.point.1, List.forall_mem_cons.mpr ⟨hname, hc.point.2⟩⟩
  | comma => exact ⟨hc.items, hc.stack, hc.point⟩
  | @closeParams items stack start before point span hpoint =>
    have hparams : (Frame.lambdaBody start before.reverse).Every P K := by
      have hbefore : P start ∧ ∀ x ∈ before, K x := by cases hpoint <;> exact hc.point
      refine ⟨hbefore.1, ?_⟩
      simpa using hbefore.2
    exact ⟨hc.items, List.forall_mem_cons.mpr ⟨hparams, hc.stack⟩, trivial⟩

/-- All steps up to some token. -/
theorem every_feedAll {tokens : List Token} (hmerge : MergeClosed P)
    (h : c.feedAll names tokens = .ok c') (hc : c.Every P K)
    (htokens : ∀ t ∈ tokens, t.Every P K) : c'.Every P K := by
  induction tokens generalizing c with
  | nil =>
    cases h
    exact hc
  | cons t tokens ih =>
    obtain ⟨ht, htokens⟩ := List.forall_mem_cons.mp htokens
    rw [Config.feedAll] at h
    split at h
    · next d hfeed =>
      have hd := (step_of_feed hfeed).every hmerge hc fun u hu => Option.some.inj hu ▸ ht
      exact ih h hd htokens
    · contradiction

/-- The expressions of a program. Only the sequence that they form may be without any token. -/
theorem every_of_run_ok {tokens left : List Token} {tree : Tree} {ending : Except LexError Nat}
    (hmerge : MergeClosed P) (h : Config.start.run names ending tokens = (.ok tree, left))
    (htokens : ∀ t ∈ tokens, t.Every P K) :
    ∃ items, tree = .seq (programSpan items) items ∧ ∀ e ∈ items, e.Every P K := by
  obtain ⟨offset, rfl⟩ := Config.ending_of_run_ok h
  rw [← List.append_nil tokens] at h
  obtain ⟨c, hall, hend⟩ := Config.feedAll_of_run_ok h
  have hc := every_feedAll hmerge hall every_start htokens
  simp only [Config.run] at hend
  split at hend
  · next d hfeed =>
    cases hend
    have hnone : ∀ t, (none : Option Token) = some t → t.Every P K := by
      rintro t ⟨⟩
    have hd := (step_of_feed hfeed).every hmerge hc hnone
    exact ⟨d.items.reverse, rfl, by simpa using hd.items⟩
  · cases hend

theorem every_targets (h : ∀ frame ∈ stack, frame.Every P K) :
    ∀ e ∈ targets stack, e.Every P K := by
  induction stack with
  | nil => exact List.forall_mem_nil _
  | cons frame stack ih =>
    obtain ⟨hframe, hstack⟩ := List.forall_mem_cons.mp h
    cases frame with
    | operand connective left =>
      cases connective with
      | assignment => exact List.forall_mem_cons.mpr ⟨hframe, ih hstack⟩
      | binary op => exact ih hstack
    | _ => exact ih hstack

/-- The operand that stands left of a faulty `=`. -/
theorem every_of_badTarget {span : Span} (h : c.feed names look = .error (.badTarget span))
    (hc : c.Every P K) : P span := by
  obtain ⟨left, hmem, -, rfl⟩ := exists_target_of_feed h
  exact (every_targets hc.stack left hmem).span

/-- A program with an expression: the sequence covers what its expressions cover. -/
theorem every_program (hmerge : MergeClosed P) (hitems : items ≠ [])
    (h : ∀ e ∈ items, e.Every P K) : (Expr.seq (programSpan items) items).Every P K := by
  obtain ⟨first, rest, rfl⟩ := List.exists_cons_of_ne_nil hitems
  have hlast : (first :: rest).getLast (List.cons_ne_nil _ _) ∈ first :: rest :=
    List.getLast_mem _
  refine ⟨?_, Expr.everyOf_iff.mpr h⟩
  rw [programSpan, List.getLast?_eq_some_getLast (List.cons_ne_nil first rest)]
  exact hmerge _ _ (h first List.mem_cons_self).span (h _ hlast).span

end Grammar
end LambdaScript
