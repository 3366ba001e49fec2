import LambdaScript.Proofs.Alike
import LambdaScript.Proofs.Steps
/-!
# What can still become a program

A configuration reached by tokens that fit can be continued to a program, if every `=` that is still
open has a variable left of it: `Config.closers` are tokens that close what is open
(`Grammar.run_closers`). Otherwise it cannot (`Grammar.run_of_doomed`), because that `=` is found
faulty only when its right side is complete, and stays open until then.

The open assignments are the `targets` of a configuration. One step completes some of them, which
have variables left of them, and opens one at most (`Grammar.Step.keeps`).
-/

namespace LambdaScript.Grammar

variable {names names' : Interner} {ending : Except LexError Nat} {items : List Tree}
  {stack stack' : List Frame} {look : Option Token} {t : Token} {c c' : Config}

/-! ## Tokens that all fit -/

namespace Config

/-- The configuration behind tokens that all fit. -/
def feedAll (names : Interner) : Config → List Token → Except Complaint Config
  | c, [] => .ok c
  | c, t :: rest =>
    match c.feed names (some t) with
    | .ok c => feedAll names c rest
    | .error complaint => .error complaint

theorem feedAll_cons_of_ok {t : Token} {rest : List Token} (h : c.feed names (some t) = .ok c') :
    c.feedAll names (t :: rest) = c'.feedAll names rest := by
  simp only [feedAll, h]

theorem feedAll_singleton {t : Token} (h : c.feed names (some t) = .ok c') :
    c.feedAll names [t] = .ok c' := by
  rw [feedAll_cons_of_ok h, feedAll]

theorem feedAll_append {before rest : List Token} (h : c.feedAll names before = .ok c') :
    c.feedAll names (before ++ rest) = c'.feedAll names rest := by
  induction before generalizing c with
  | nil =>
    cases h
    rfl
  | cons t before ih =>
    rw [feedAll] at h
    split at h
    · next d hfeed => rw [List.cons_append, feedAll_cons_of_ok hfeed, ih h]
    · contradiction

/-- Tokens that fit are taken. -/
theorem run_append {before rest : List Token} (h : c.feedAll names before = .ok c') :
    c.run names ending (before ++ rest) = c'.run names ending rest := by
  induction before generalizing c with
  | nil =>
    cases h
    rfl
  | cons t before ih =>
    rw [feedAll] at h
    split at h
    · next d hfeed => rw [List.cons_append, run_cons_of_ok hfeed, ih h]
    · contradiction

/-- All tokens of a program fit. -/
theorem feedAll_of_run_ok {before rest left : List Token} {tree : Tree}
    (h : c.run names ending (before ++ rest) = (.ok tree, left)) :
    ∃ c', c.feedAll names before = .ok c' ∧ c'.run names ending rest = (.ok tree, left) := by
  induction before generalizing c with
  | nil => exact ⟨c, rfl, h⟩
  | cons t before ih =>
    rw [List.cons_append, run] at h
    split at h
    · next d hfeed =>
      obtain ⟨c', hall, hrun⟩ := ih h
      exact ⟨c', (feedAll_cons_of_ok hfeed).trans hall, hrun⟩
    · cases h

/-- Where a run fails: at a token, at the end of the source, or where no token can be cut. -/
theorem run_error_cases {tokens left : List Token} {e : SyntaxError}
    (h : c.run names ending tokens = (.error e, left)) :
    (∃ l, e = .lexical l) ∨
    (∃ before t c' complaint, tokens = before ++ left ∧ left.head? = some t ∧
      c.feedAll names before = .ok c' ∧ c'.feed names (some t) = .error complaint ∧
      e = .grammatical (complaint.report names 0 (some t))) ∨
    (∃ offset c' complaint, ending = .ok offset ∧ left = [] ∧ c.feedAll names tokens = .ok c' ∧
      c'.feed names none = .error complaint ∧
      e = .grammatical (complaint.report names offset none)) := by
  induction tokens generalizing c with
  | nil =>
    cases ending with
    | error l =>
      simp only [run] at h
      cases h
      exact .inl ⟨l, rfl⟩
    | ok offset =>
      simp only [run] at h
      split at h
      · cases h
      · next complaint hfeed =>
        cases h
        exact .inr (.inr ⟨offset, c, complaint, rfl, rfl, rfl, hfeed, rfl⟩)
  | cons t rest ih =>
    rw [run] at h
    split at h
    · next d hfeed =>
      rcases ih h with hlexical | ⟨before, u, c', complaint, rfl, hu, hall, herror, he⟩ |
        ⟨offset, c', complaint, hending, hleft, hall, herror, he⟩
      · exact .inl hlexical
      · exact .inr (.inl ⟨t :: before, u, c', complaint, rfl, hu,
          (feedAll_cons_of_ok hfeed).trans hall, herror, he⟩)
      · exact .inr (.inr ⟨offset, c', complaint, hending, hleft,
          (feedAll_cons_of_ok hfeed).trans hall, herror, he⟩)
    · next complaint hfeed =>
      cases h
      exact .inr (.inl ⟨[], t, c, complaint, rfl, rfl, rfl, hfeed, rfl⟩)

end Config

/-- What has been read of a program, when its source ends. -/
theorem exists_feedAll_of_run {tokens : List Token} {offset : Nat} {tree : Tree}
    (h : (Config.start.run names (.ok offset) tokens).1 = .ok tree) :
    ∃ c items, Config.start.feedAll names tokens = .ok c ∧
      c.feed names none = .ok ⟨items, [], .item⟩ ∧
      tree = .seq (programSpan items.reverse) items.reverse := by
  have hrun : Config.start.run names (.ok offset) (tokens ++ []) = (.ok tree, _) :=
    Prod.ext (by rwa [List.append_nil]) rfl
  obtain ⟨c, hall, hend⟩ := Config.feedAll_of_run_ok hrun
  rw [Config.run] at hend
  split at hend
  · next d hfeed =>
    obtain ⟨hstack, hpoint⟩ := (step_of_feed hfeed).eq_of_none
    obtain ⟨items, stack, point⟩ := d
    obtain rfl : stack = [] := hstack
    obtain rfl : point = .item := hpoint
    exact ⟨c, items, hall, hfeed, (Except.ok.inj (congrArg Prod.fst hend)).symm⟩
  · cases congrArg Prod.fst hend

/-- Tokens of the same words lead to configurations that are alike, or fail in both. -/
theorem alike_feedAll {tokens tokens' : List Token} (h : c.Alike c')
    (hwords : wordsOf names' tokens' = wordsOf names tokens) :
    ResultAlike (c.feedAll names tokens) (c'.feedAll names' tokens') := by
  induction tokens generalizing c c' tokens' with
  | nil =>
    cases List.map_eq_nil_iff.mp hwords
    exact h
  | cons t tokens ih =>
    obtain ⟨t', rest, rfl, ht, hrest⟩ := List.map_eq_cons_iff.mp hwords
    have hfeed := alike_feed h (.some (TokenAlike.of_word_eq ht))
    rw [Config.feedAll, Config.feedAll]
    generalize c.feed names (some t) = r at hfeed ⊢
    generalize c'.feed names' (some t') = r' at hfeed ⊢
    cases r <;> cases r'
    · trivial
    · exact hfeed.elim
    · exact hfeed.elim
    · exact ih hfeed hrest

/-! ## Open assignments -/

/-- What stands left of the assignments in some frames. -/
def targets : List Frame → List Tree
  | [] => []
  | .operand .assignment left :: stack => left :: targets stack
  | _ :: stack => targets stack

/-- What stands left of the `=` that has just been taken. -/
def Config.target? : Config → Option Tree
  | ⟨_, .operand .assignment left :: _, .operand⟩ => some left
  | _ => none

/-- How a step changes the open assignments: those that it completes have variables left of them,
and it opens one if the token is `=`. -/
def Keeps (names : Interner) (before : List Tree) (look : Option Token) (c : Config) : Prop :=
  ∃ done kept, before = done ++ kept ∧ (∀ e ∈ done, e.isVar = true) ∧
    (targets c.stack = kept ∨ ∃ left, c.target? = some left ∧ targets c.stack = left :: kept ∧
      look.bind (connective? names) = some .assignment)

theorem Keeps.of_eq {before : List Tree} (h : targets c.stack = before) :
    Keeps names before look c :=
  ⟨[], before, rfl, List.forall_mem_nil _, .inl h⟩

theorem Keeps.cons {before : List Tree} {e : Tree} (h : Keeps names before look c)
    (he : e.isVar = true) : Keeps names (e :: before) look c := by
  obtain ⟨done, kept, rfl, hdone, hc⟩ := h
  refine ⟨e :: done, kept, rfl, ?_, hc⟩
  simpa [he] using hdone

theorem Begins.targets_append {opened : List Frame} {place : Point} (h : Begins t opened place)
    (stack : List Frame) : targets (opened ++ stack) = targets stack := by
  cases h <;> rfl

theorem ClosesList.targets_eq {place : Point} (h : ClosesList stack look stack' place) :
    targets stack' = targets stack := by
  cases h <;> rfl

theorem Adds.targets_eq {items' : List Tree} {value : Tree} {separator : Punct}
    (h : Adds items stack value separator items' stack') : targets stack' = targets stack := by
  cases h <;> rfl

theorem isVar_of_join {left right whole : Tree} (h : join .assignment left right = .ok whole) :
    left.isVar = true := by
  cases left with
  | var => rfl
  | _ => contradiction

/-- One step on the open assignments. -/
theorem Step.keeps (h : Step names c look c') : Keeps names (targets c.stack) look c' := by
  induction h with
  | begin _ h => exact .of_eq (h.targets_append _)
  | close h => exact .of_eq h.targets_eq
  | closeBehind hadds h => exact .of_eq (h.targets_eq.trans hadds.targets_eq)
  | separator _ h => exact .of_eq h.targets_eq
  | wrap h _ ih =>
    cases h with
    | @operand connective left value whole hjoin =>
      cases connective with
      | binary op => exact ih
      | assignment => exact ih.cons (isVar_of_join hjoin)
    | thenBranch | elseBranch | loopBody | lambdaBody => exact ih
  | @connective items stack left t c ht _ =>
    cases c with
    | binary op => exact .of_eq rfl
    | assignment => exact ⟨[], _, rfl, List.forall_mem_nil _, .inr ⟨left, rfl, rfl, ht⟩⟩
  | thenWord _ h | branchBlock _ h => cases h <;> exact .of_eq rfl
  | openArgs | closeParen | elseWord | openParams | param | comma | closeParams => exact .of_eq rfl

/-! ## Faulty assignments -/

/-- An `=` that is still open has something else than a variable left of it. -/
def Config.Doomed (c : Config) : Prop := ∃ left ∈ targets c.stack, left.isVar = false

theorem doomed_feed (h : c.Doomed) (hfeed : c.feed names look = .ok c') : c'.Doomed := by
  obtain ⟨left, hmem, hleft⟩ := h
  obtain ⟨done, kept, hbefore, hdone, htargets⟩ := (step_of_feed hfeed).keeps
  rw [hbefore] at hmem
  have hkept : left ∈ kept := by
    rcases List.mem_append.mp hmem with hmem | hmem
    · rw [hdone left hmem] at hleft
      contradiction
    · exact hmem
  refine ⟨left, ?_, hleft⟩
  rcases htargets with heq | ⟨new, -, heq, -⟩
  · rw [heq]
    exact hkept
  · rw [heq]
    exact List.mem_cons_of_mem new hkept

/-- Such a configuration is continued to no program. -/
theorem run_of_doomed {tokens left : List Token} {tree : Tree} (h : c.Doomed) :
    c.run names ending tokens ≠ (.ok tree, left) := by
  induction tokens generalizing c with
  | nil =>
    intro hrun
    obtain ⟨offset, rfl⟩ := Config.ending_of_run_ok hrun
    simp only [Config.run] at hrun
    split at hrun
    · next c' hfeed =>
      obtain ⟨e, hmem, -⟩ := doomed_feed h hfeed
      rw [(step_of_feed hfeed).eq_of_none.1] at hmem
      contradiction
    · cases hrun
  | cons t tokens ih =>
    intro hrun
    rw [Config.run] at hrun
    split at hrun
    · next c' hfeed => exact ih (doomed_feed h hfeed) hrun
    · cases hrun

/-- Configurations that are alike have open assignments that are alike. -/
theorem targets_alike {stack' : List Frame} (h : StackAlike stack stack') :
    (targets stack').map Expr.isVar = (targets stack).map Expr.isVar := by
  induction h with
  | nil => rfl
  | cons h hs ih =>
    cases h with
    | operand connective h =>
      cases connective with
      | binary op => exact ih
      | assignment =>
        rw [targets, targets, List.map_cons, List.map_cons, h, ih]
    | _ => exact ih

theorem Config.Doomed.alike (h : c.Doomed) (halike : c.Alike c') : c'.Doomed := by
  obtain ⟨left, hmem, hleft⟩ := h
  have hfalse : false ∈ (targets c.stack).map Expr.isVar := List.mem_map.mpr ⟨left, hmem, hleft⟩
  rw [← targets_alike halike.stack] at hfalse
  obtain ⟨left', hmem', hleft'⟩ := List.mem_map.mp hfalse
  exact ⟨left', hmem', hleft'⟩

theorem begin_ne_badTarget (span : Span) : begin items stack look ≠ .error (.badTarget span) := by
  intro h
  unfold begin at h
  split at h
  · cases h
  · split at h <;> cases h

theorem behindItem_ne_badTarget (separator : Punct) (span : Span) :
    behindItem items stack separator look ≠ .error (.badTarget span) := by
  intro h
  unfold behindItem at h
  split at h
  · contradiction
  · split at h <;> cases h

theorem behindCondition_ne_badTarget (span : Span) :
    behindCondition items stack look ≠ .error (.badTarget span) := by
  intro h
  unfold behindCondition at h
  split at h
  · exact begin_ne_badTarget span h
  · split at h <;> cases h

/-- Where the fault is told, the assignment is open. -/
theorem exists_target_of_complete {value : Tree} {span : Span}
    (h : complete names items look stack value = .error (.badTarget span)) :
    ∃ left ∈ targets stack, left.isVar = false ∧ span = left.span := by
  induction stack generalizing value with
  | nil => exact absurd h (behindItem_ne_badTarget _ span)
  | cons frame stack ih =>
    -- the fault may lie further out: what is complete is the operand of what is around it
    have hwhole : ∀ whole : Tree, extendOr names items look stack whole
        (complete names items look stack whole) = .error (.badTarget span) →
        ∃ left ∈ targets stack, left.isVar = false ∧ span = left.span := by
      intro whole h
      unfold extendOr at h
      split at h
      · contradiction
      · exact ih h
    cases frame with
    | operand connective left =>
      cases connective with
      | binary op => exact hwhole _ h
      | assignment =>
        rw [complete] at h
        cases hleft : left.isVar with
        | true =>
          obtain ⟨whole, hjoin, -⟩ := join_assignment_of_isVar value hleft
          rw [hjoin] at h
          obtain ⟨e, hmem, he⟩ := hwhole whole h
          exact ⟨e, List.mem_cons_of_mem left hmem, he⟩
        | false =>
          rw [join_assignment_of_not_isVar value hleft] at h
          cases h
          exact ⟨left, List.mem_cons_self, hleft, rfl⟩
    | paren =>
      rw [complete] at h
      split at h <;> cases h
    | block | args => exact absurd h (behindItem_ne_badTarget _ span)
    | ifCondition | loopCondition => exact absurd h (behindCondition_ne_badTarget span)
    | thenBranch start condition =>
      rw [complete] at h
      split at h
      · contradiction
      · exact hwhole _ h
    | elseBranch | loopBody | lambdaBody => exact hwhole _ h

theorem exists_target_of_feed {span : Span} (h : c.feed names look = .error (.badTarget span)) :
    ∃ left ∈ targets c.stack, left.isVar = false ∧ span = left.span := by
  obtain ⟨items, stack, point⟩ := c
  cases point with
  | operand => exact absurd h (begin_ne_badTarget span)
  | item =>
    rw [Config.feed] at h
    split at h
    · contradiction
    · exact absurd h (begin_ne_badTarget span)
  | value tree =>
    rw [Config.feed, resume, extendOr] at h
    split at h
    · contradiction
    · exact exists_target_of_complete h
  | paramList =>
    rw [Config.feed] at h
    split at h <;> cases h
  | param | paramEnd =>
    rw [Config.feed] at h
    split at h
    · contradiction
    · split at h <;> cases h

/-- Every open assignment was opened by an `=`, with its target read just before. -/
theorem exists_assignment_of_mem_targets {tokens : List Token} {left : Tree}
    (h : c.feedAll names tokens = .ok c') (hmem : left ∈ targets c'.stack) :
    left ∈ targets c.stack ∨ ∃ before t after d, tokens = before ++ t :: after ∧
      connective? names t = some .assignment ∧ c.feedAll names (before ++ [t]) = .ok d ∧
      d.target? = some left := by
  induction tokens generalizing c with
  | nil =>
    cases h
    exact .inl hmem
  | cons t tokens ih =>
    rw [Config.feedAll] at h
    split at h
    · next d hfeed =>
      rcases ih h with hold | ⟨before, u, after, d', rfl, hu, hall, htarget⟩
      -- either the first token opened the assignment, or it was open before
      · obtain ⟨done, kept, hbefore, -, heq | ⟨new, htarget, heq, ht⟩⟩ := (step_of_feed hfeed).keeps
        · rw [heq] at hold
          exact .inl (hbefore ▸ List.mem_append_right done hold)
        · rw [heq] at hold
          rcases List.mem_cons.mp hold with rfl | hold
          · exact .inr ⟨[], t, tokens, d, rfl, ht, Config.feedAll_singleton hfeed, htarget⟩
          · exact .inl (hbefore ▸ List.mem_append_right done hold)
      · exact .inr ⟨t :: before, u, after, d', rfl, hu,
          (Config.feedAll_cons_of_ok hfeed).trans hall, htarget⟩
    · contradiction

/-! ## Completing a program -/

/-- Tokens that close an open construct. -/
def Frame.closers : Frame → List TokenKind
  | paren | args .. => [.punct .closeParen]
  | block .. => [.punct .closeBrace]
  | ifCondition _ | loopCondition _ => [.keyword .thenWord, .keyword .trueWord]
  | operand .. | thenBranch .. | elseBranch .. | loopBody .. | lambdaBody .. => []

/-- Tokens that complete the part being read. -/
def Point.closers : Point → List TokenKind
  | operand | item => [.keyword .trueWord]
  | value _ => []
  | paramList _ => [.punct .openParen, .punct .closeParen, .keyword .trueWord]
  | param .. | paramEnd .. => [.punct .closeParen, .keyword .trueWord]

/-- Tokens that make a program of what has been read. -/
def Config.closers (c : Config) : List TokenKind :=
  c.point.closers ++ c.stack.flatMap Frame.closers

/-- A token that belongs to no operand, and is no `else`. -/
def Closes (look : Option Token) : Prop :=
  ∀ t, look = some t → t.kind = .punct .closeParen ∨ t.kind = .punct .closeBrace ∨
    t.kind = .keyword .thenWord

theorem Closes.settled (h : Closes look) (b : Nat) : Settled names b look := by
  intro t ht
  obtain ⟨kind, span⟩ := t
  rcases h _ ht with rfl | rfl | rfl <;>
    · refine ⟨rfl, ?_⟩
      intro c hc
      cases hc

theorem Closes.not_else (h : Closes look) : look.any (·.isKeyword .elseWord) = false := by
  cases look with
  | none => rfl
  | some t =>
    obtain ⟨kind, span⟩ := t
    rcases h _ rfl with rfl | rfl | rfl <;> rfl

theorem closes_closers {tokens : List Token}
    (h : tokens.map Token.kind = stack.flatMap Frame.closers) : Closes tokens.head? := by
  induction stack with
  | nil =>
    cases List.map_eq_nil_iff.mp h
    intro t ht
    cases ht
  | cons frame stack ih =>
    cases frame with
    | operand | thenBranch | elseBranch | loopBody | lambdaBody => exact ih h
    | _ =>
      obtain ⟨t, rest, rfl, ht, -⟩ := List.map_eq_cons_iff.mp h
      intro u hu
      cases hu
      simp [ht]

/-- A condition is followed by `then true`. -/
theorem run_thenTrue (items : List Tree) (opening frame : Frame) (stack : List Frame)
    (condition : Tree) {kinds : List TokenKind} {tokens : List Token}
    (hcomplete : ∀ look, complete names items look (opening :: stack) condition =
      behindCondition items (frame :: stack) look)
    (htokens : tokens.map Token.kind = .keyword .thenWord :: .keyword .trueWord :: kinds) :
    ∃ (value : Tree) (rest : List Token), rest.map Token.kind = kinds ∧
      Config.run names ending ⟨items, opening :: stack, .value condition⟩ tokens =
        Config.run names ending ⟨items, frame :: stack, .value value⟩ rest := by
  obtain ⟨⟨_, span⟩, more, rfl, rfl, hmore⟩ := List.map_eq_cons_iff.mp htokens
  obtain ⟨⟨_, place⟩, rest, rfl, rfl, hrest⟩ := List.map_eq_cons_iff.mp hmore
  have hthen : Config.feed names ⟨items, opening :: stack, .value condition⟩
      (some ⟨.keyword .thenWord, span⟩) = .ok ⟨items, frame :: stack, .operand⟩ := by
    rw [feed_value_eq_complete (settled_of_keyword _ _ span), hcomplete]
    rfl
  refine ⟨.bool place true, rest, hrest, ?_⟩
  rw [Config.run_cons_of_ok hthen, run_begin (.inl rfl) rfl]

/-- A construct that ends with its last part is completed together with it. -/
theorem exists_run_of_resume {frame : Frame} {value whole : Tree} {tokens : List Token}
    {offset : Nat} (hcloses : Closes tokens.head?)
    (h : ∃ tree, Config.run names (.ok offset) ⟨items, stack, .value whole⟩ tokens =
      (.ok tree, []))
    (hcomplete : complete names items tokens.head? (frame :: stack) value =
      resume names items tokens.head? stack whole) :
    ∃ tree, Config.run names (.ok offset) ⟨items, frame :: stack, .value value⟩ tokens =
      (.ok tree, []) := by
  obtain ⟨tree, htree⟩ := h
  exact ⟨tree, (run_value (hcloses.settled _) hcomplete).trans htree⟩

/-- A bracket completes the construct that it closes. -/
theorem exists_run_of_bracket {frame : Frame} {value whole : Tree} {t : Token}
    {rest : List Token} {offset : Nat} (hcloses : Closes (some t))
    (h : ∃ tree, Config.run names (.ok offset) ⟨items, stack, .value whole⟩ rest =
      (.ok tree, []))
    (hcomplete : complete names items (some t) (frame :: stack) value =
      .ok ⟨items, stack, .value whole⟩) :
    ∃ tree, Config.run names (.ok offset) ⟨items, frame :: stack, .value value⟩ (t :: rest) =
      (.ok tree, []) := by
  obtain ⟨tree, htree⟩ := h
  have hfeed : Config.feed names ⟨items, frame :: stack, .value value⟩ (some t) =
      .ok ⟨items, stack, .value whole⟩ :=
    (feed_value_eq_complete (hcloses.settled _)).trans hcomplete
  exact ⟨tree, (Config.run_cons_of_ok hfeed).trans htree⟩

/-- What is open can be closed, if every open assignment has a variable left of it. -/
theorem run_closers (value : Tree) {tokens : List Token} {offset : Nat}
    (h : ∀ left ∈ targets stack, left.isVar = true)
    (htokens : tokens.map Token.kind = stack.flatMap Frame.closers) :
    ∃ tree, Config.run names (.ok offset) ⟨items, stack, .value value⟩ tokens = (.ok tree, []) := by
  -- from the innermost construct outwards: each one becomes an operand of the one around it
  induction stack generalizing value tokens with
  | nil =>
    cases List.map_eq_nil_iff.mp htokens
    have hend :
        Config.feed names ⟨items, [], .value value⟩ none = .ok ⟨value :: items, [], .item⟩ :=
      rfl
    exact ⟨_, Config.run_nil_of_ok hend⟩
  | cons frame stack ih =>
    have hcloses := closes_closers htokens
    cases frame with
    | operand connective left =>
      cases connective with
      | binary op => exact exists_run_of_resume hcloses (ih _ h htokens) rfl
      | assignment =>
        obtain ⟨hleft, h⟩ := List.forall_mem_cons.mp h
        obtain ⟨whole, hjoin, -⟩ := join_assignment_of_isVar value hleft
        apply exists_run_of_resume hcloses (ih whole h htokens)
        rw [complete, hjoin]
        rfl
    | thenBranch start condition =>
      -- no `else` follows, since closing tokens never begin with one
      apply exists_run_of_resume hcloses
        (ih (.ifThen (start.merge value.span) condition value) h htokens)
      rw [complete, hcloses.not_else]
      rfl
    | elseBranch | loopBody | lambdaBody =>
      exact exists_run_of_resume hcloses (ih _ h htokens) rfl
    | paren | block | args =>
      obtain ⟨⟨_, span⟩, rest, rfl, rfl, hrest⟩ := List.map_eq_cons_iff.mp htokens
      exact exists_run_of_bracket hcloses (ih _ h hrest) rfl
    | ifCondition start =>
      obtain ⟨branch, rest, hrest, hrun⟩ := run_thenTrue items (.ifCondition start)
        (.thenBranch start value) stack value (fun _ => rfl) htokens
      have hcloses := closes_closers hrest
      rw [hrun]
      apply exists_run_of_resume hcloses
        (ih (.ifThen (start.merge branch.span) value branch) h hrest)
      rw [complete, hcloses.not_else]
      rfl
    | loopCondition start =>
      obtain ⟨body, rest, hrest, hrun⟩ := run_thenTrue items (.loopCondition start)
        (.loopBody start value) stack value (fun _ => rfl) htokens
      rw [hrun]
      exact exists_run_of_resume (closes_closers hrest) (ih _ h hrest) rfl

/-- The word `true` is an operand. -/
theorem run_true {point : Point} {tokens : List Token} {offset : Nat} (hpoint : point.Ready)
    (h : ∀ left ∈ targets stack, left.isVar = true)
    (htokens : tokens.map Token.kind = .keyword .trueWord :: stack.flatMap Frame.closers) :
    ∃ tree, Config.run names (.ok offset) ⟨items, stack, point⟩ tokens = (.ok tree, []) := by
  obtain ⟨⟨_, span⟩, rest, rfl, rfl, hrest⟩ := List.map_eq_cons_iff.mp htokens
  obtain ⟨tree, htree⟩ := run_closers (.bool span true) h hrest
  exact ⟨tree, (run_begin hpoint rfl).trans htree⟩

/-- Behind parameters a body is due. -/
theorem run_lambdaBody {point : Point} {start : Span} {params : List Name} {tokens : List Token}
    {offset : Nat} (h : ∀ left ∈ targets stack, left.isVar = true)
    (htokens : tokens.map Token.kind =
      .punct .closeParen :: .keyword .trueWord :: stack.flatMap Frame.closers)
    (hfeed : ∀ t, t.isPunct .closeParen = true → Config.feed names ⟨items, stack, point⟩ (some t) =
      .ok ⟨items, .lambdaBody start params :: stack, .operand⟩) :
    ∃ tree, Config.run names (.ok offset) ⟨items, stack, point⟩ tokens = (.ok tree, []) := by
  obtain ⟨t, rest, rfl, ht, hrest⟩ := List.map_eq_cons_iff.mp htokens
  rw [Config.run_cons_of_ok (hfeed t (Token.isPunct_iff.mpr ht))]
  exact run_true (.inl rfl) h hrest

/-- A configuration whose open assignments all have variables left of them becomes a program. -/
theorem run_config_closers (offset : Nat) {tokens : List Token} (h : ¬c.Doomed)
    (htokens : tokens.map Token.kind = c.closers) :
    ∃ tree, c.run names (.ok offset) tokens = (.ok tree, []) := by
  obtain ⟨items, stack, point⟩ := c
  have htargets : ∀ left ∈ targets stack, left.isVar = true := by
    intro left hmem
    cases hleft : left.isVar with
    | true => rfl
    | false => exact absurd ⟨left, hmem, hleft⟩ h
  cases point with
  | operand => exact run_true (.inl rfl) htargets htokens
  | item => exact run_true (.inr rfl) htargets htokens
  | value tree => exact run_closers tree htargets htokens
  | paramList start =>
    obtain ⟨⟨_, span⟩, rest, rfl, rfl, hrest⟩ := List.map_eq_cons_iff.mp htokens
    rw [Config.run_cons_of_ok rfl]
    exact run_lambdaBody htargets hrest fun t ht => if_pos ht
  | param start before | paramEnd start before =>
    exact run_lambdaBody htargets htokens fun t ht => if_pos ht

end LambdaScript.Grammar
