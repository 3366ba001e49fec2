import LambdaScript.Proofs.Laziness
import LambdaScript.Proofs.Nodes
import LambdaScript.Proofs.Renumbering
import LambdaScript.Proofs.JoinedSources
/-!
# Reading two sources put together

If a source does not end with a semicolon, then a semicolon behind it completes what the end of the
source completes (`Grammar.feed_semicolon`). Behind it the machine begins again, over the items that
are there already (`Grammar.Config.onto`). So a joined source is the program with the items of the
first source and, moved behind them, those of the second one (`parseSource_joined`).
-/

namespace LambdaScript

namespace Grammar

variable {names names' : Interner} {items : List Tree} {stack : List Frame} {look : Option Token}
  {value : Tree} {c c' d : Config}

/-! ## Items that are there already -/

/-- The same place, behind more items; all items are held in reverse. -/
def Config.onto (base : List Tree) (c : Config) : Config := { c with items := c.items ++ base }

section
variable (base : List Tree)

theorem begin_onto (items : List Tree) (stack : List Frame) (look : Option Token) :
    begin (items ++ base) stack look = (begin items stack look).map (Config.onto base) := by
  rcases look with _ | ⟨kind, span⟩
  · rfl
  cases kind with
  | keyword word => cases word <;> rfl
  | punct mark => cases mark <;> rfl
  | _ => rfl

theorem close?_onto (items : List Tree) (stack : List Frame) (look : Option Token) :
    close? (items ++ base) stack look = (close? items stack look).map (Config.onto base) := by
  rcases stack with _ | ⟨frame, stack⟩
  · cases look <;> rfl
  cases look with
  | none => cases frame <;> rfl
  | some t =>
    cases frame with
    | block | args =>
      rw [close?, close?]
      split <;> rfl
    | _ => rfl

theorem behindItem_onto (items : List Tree) (stack : List Frame) (separator : Punct)
    (look : Option Token) : behindItem (items ++ base) stack separator look =
      (behindItem items stack separator look).map (Config.onto base) := by
  rw [behindItem, behindItem, close?_onto]
  cases close? items stack look with
  | some c => rfl
  | none =>
    dsimp only [Option.map_none]
    split <;> rfl

theorem behindCondition_onto (items : List Tree) (stack : List Frame) (look : Option Token) :
    behindCondition (items ++ base) stack look =
      (behindCondition items stack look).map (Config.onto base) := by
  rw [behindCondition, behindCondition, begin_onto]
  split
  · rfl
  split <;> rfl

theorem extend?_onto (names : Interner) (items : List Tree) (stack : List Frame) (value : Tree)
    (look : Option Token) : extend? names (items ++ base) stack value look =
      (extend? names items stack value look).map (Config.onto base) := by
  cases look with
  | none => rfl
  | some t =>
    rw [extend?, extend?]
    split
    · rfl
    · rcases connective? names t with _ | c
      · rfl
      · dsimp only
        split <;> rfl

theorem extendOr_onto (names : Interner) (items : List Tree) (look : Option Token)
    (stack : List Frame) (value : Tree) {next next' : Except Complaint Config}
    (hnext : next' = next.map (Config.onto base)) :
    extendOr names (items ++ base) look stack value next' =
      (extendOr names items look stack value next).map (Config.onto base) := by
  rw [extendOr, extendOr, extend?_onto, hnext]
  cases extend? names items stack value look <;> rfl

theorem complete_onto (names : Interner) (items : List Tree) (look : Option Token)
    (stack : List Frame) (value : Tree) : complete names (items ++ base) look stack value =
      (complete names items look stack value).map (Config.onto base) := by
  induction stack generalizing value with
  | nil => exact behindItem_onto base (value :: items) [] .semicolon look
  | cons frame stack ih =>
    have hwhole : ∀ whole : Tree,
        extendOr names (items ++ base) look stack whole
          (complete names (items ++ base) look stack whole) =
        (extendOr names items look stack whole (complete names items look stack whole)).map
          (Config.onto base) :=
      fun whole => extendOr_onto base names items look stack whole (ih whole)
    cases frame with
    | operand connective left =>
      rw [complete, complete]
      cases join connective left value with
      | ok whole => exact hwhole whole
      | error e => rfl
    | paren =>
      rw [complete, complete]
      split <;> rfl
    | block start before => exact behindItem_onto base items _ .semicolon look
    | args callee start before => exact behindItem_onto base items _ .comma look
    | ifCondition start => exact behindCondition_onto base items _ look
    | loopCondition start => exact behindCondition_onto base items _ look
    | thenBranch start condition =>
      rw [complete, complete]
      split
      · rfl
      · exact hwhole _
    | elseBranch start condition branch => exact hwhole _
    | loopBody start condition => exact hwhole _
    | lambdaBody start params => exact hwhole _

/-- A step does not depend on the items behind which it is made. -/
theorem feed_onto (names : Interner) (c : Config) (look : Option Token) :
    (c.onto base).feed names look = (c.feed names look).map (Config.onto base) := by
  obtain ⟨items, stack, point⟩ := c
  cases point with
  | operand => exact begin_onto base items stack look
  | item =>
    rw [Config.onto, Config.feed, Config.feed, close?_onto, begin_onto]
    cases close? items stack look <;> rfl
  | value tree =>
    exact extendOr_onto base names items look stack tree
      (complete_onto base names items look stack tree)
  | paramList start =>
    rw [Config.onto, Config.feed, Config.feed]
    split <;> rfl
  | param start before =>
    rw [Config.onto, Config.feed, Config.feed]
    split
    · rfl
    · cases identifier? look <;> rfl
  | paramEnd start before =>
    rw [Config.onto, Config.feed, Config.feed]
    split
    · rfl
    split <;> rfl

theorem feedAll_onto {tokens : List Token} (h : c.feedAll names tokens = .ok d) :
    (c.onto base).feedAll names tokens = .ok (d.onto base) := by
  induction tokens generalizing c with
  | nil =>
    cases h
    rfl
  | cons t tokens ih =>
    rw [Config.feedAll] at h
    split at h
    · next c' hfeed =>
      have honto : (c.onto base).feed names (some t) = .ok (c'.onto base) := by
        rw [feed_onto, hfeed]
        rfl
      rw [Config.feedAll_cons_of_ok honto]
      exact ih h
    · contradiction

end

/-! ## A semicolon in place of the end -/

theorem settled_semicolon (names : Interner) (b : Nat) (span : Span) :
    Settled names b (some ⟨.punct .semicolon, span⟩) :=
  settled_of_isPunct (p := .semicolon) rfl (by decide)

/-- What is complete at the end of a source is complete at a semicolon, with the same items. -/
theorem complete_semicolon (span : Span) (h : complete names items none stack value = .ok c) :
    complete names items (some ⟨.punct .semicolon, span⟩) stack value = .ok c := by
  induction stack generalizing value with
  | nil => exact h
  | cons frame stack ih =>
    -- the construct is complete, and what is around it has to be, too
    have hwhole : ∀ whole : Tree,
        extendOr names items none stack whole (complete names items none stack whole) = .ok c →
        extendOr names items (some ⟨.punct .semicolon, span⟩) stack whole
          (complete names items (some ⟨.punct .semicolon, span⟩) stack whole) = .ok c := by
      intro whole hwhole
      rw [extendOr, extend?_eq_none (settled_semicolon names _ span)]
      exact ih hwhole
    cases frame with
    | operand connective left =>
      rw [complete] at h ⊢
      cases hjoin : join connective left value with
      | ok whole =>
        rw [hjoin] at h
        exact hwhole whole h
      | error e =>
        rw [hjoin] at h
        contradiction
    | paren | block | args | ifCondition | loopCondition => contradiction
    | thenBranch | elseBranch | loopBody | lambdaBody => exact hwhole _ h

/-- Behind an operand a semicolon is taken where the source could end. -/
theorem feed_semicolon (span : Span) (hpoint : c.point ≠ .item) (h : c.feed names none = .ok d) :
    c.feed names (some ⟨.punct .semicolon, span⟩) = .ok d := by
  obtain ⟨items, stack, point⟩ := c
  cases point with
  | operand | paramList | param | paramEnd => contradiction
  | item => exact absurd rfl hpoint
  | value tree =>
    rw [Config.feed, resume_eq_complete (settled_semicolon names _ span)]
    exact complete_semicolon span h

/-- Only behind a semicolon another expression of a program begins. -/
theorem Step.eq_semicolon {t : Token} (h : Step names c (some t) d) (hstack : d.stack = [])
    (hpoint : d.point = .item) : t.kind = .punct .semicolon := by
  generalize hlook : some t = look at h
  induction h with
  | begin _ h => cases h <;> simp_all
  | close h | closeBehind _ h => cases h <;> simp_all
  | separator span h => cases h <;> simp_all
  | wrap _ _ ih => exact ih hstack hpoint hlook
  | closeParams _ h => contradiction
  | _ => contradiction

/-- The last of some tokens that fit. -/
theorem exists_feed_of_feedAll {before : List Token} {t : Token}
    (h : c.feedAll names (before ++ [t]) = .ok d) :
    ∃ e : Config, e.feed names (some t) = .ok d := by
  induction before generalizing c with
  | nil =>
    rw [List.nil_append, Config.feedAll] at h
    split at h
    · next e hfeed =>
      cases h
      exact ⟨c, hfeed⟩
    · contradiction
  | cons u before ih =>
    rw [List.cons_append, Config.feedAll] at h
    split at h
    · exact ih h
    · contradiction

/-- A semicolon behind a program that does not end with one. -/
theorem feedAll_semicolon {tokens : List Token} (span : Span) (hitems : d.items ≠ [])
    (hlast : ∀ t, tokens.getLast? = some t → t.kind ≠ .punct .semicolon)
    (hall : Config.start.feedAll names tokens = .ok c) (hend : c.feed names none = .ok d) :
    Config.start.feedAll names (tokens ++ [⟨.punct .semicolon, span⟩]) = .ok d := by
  rcases List.eq_nil_or_concat tokens with rfl | ⟨before, t, rfl⟩
  · cases hall
    cases hend
    exact absurd rfl hitems
  have hpoint : c.point ≠ .item := by
    intro hpoint
    -- the source could end there, so that nothing is open
    have hstack : c.stack = [] := by
      obtain ⟨items, stack, point⟩ := c
      obtain rfl : point = .item := hpoint
      rcases stack with _ | ⟨frame, stack⟩
      · rfl
      · cases frame <;> contradiction
    rw [List.concat_eq_append] at hall hlast
    obtain ⟨e, hfeed⟩ := exists_feed_of_feedAll hall
    exact hlast t List.getLast?_concat ((step_of_feed hfeed).eq_semicolon hstack hpoint)
  rw [Config.feedAll_append hall, Config.feedAll_singleton (feed_semicolon span hpoint hend)]

/-- Whole lists of tokens, with the names and spans in them replaced by others. -/
theorem feedAll_renamed {r : Renaming} (h : r.Merges) (c : Config) {tokens : List Token}
    (htokens : ∀ t ∈ tokens, r.RespellsKind names names' t.kind) :
    (r.config c).feedAll names' (tokens.map r.token) = r.step (c.feedAll names tokens) := by
  induction tokens generalizing c with
  | nil => rfl
  | cons t tokens ih =>
    obtain ⟨ht, htokens⟩ := List.forall_mem_cons.mp htokens
    have hnext : r.RespellsNext names names' (some t) := by
      rintro u ⟨⟩
      exact ht
    have hfeed : (r.config c).feed names' (some (r.token t)) = r.step (c.feed names (some t)) :=
      feed_renamed h c hnext
    rw [List.map_cons, Config.feedAll, Config.feedAll, hfeed]
    cases c.feed names (some t) with
    | ok c' => exact ih c' htokens
    | error e => rfl

/-! ## Joined programs -/

theorem merges_shift (bytes : Nat) : (Renaming.shift bytes).Merges where
  merge s t := by
    simp only [Renaming.shift, Span.merge, Nat.add_min_add_right, Nat.add_max_add_right]

/-- The program with the items of two others, those of the second one moved by some bytes. -/
def joinedProgram (bytes : Nat) (items others : List Tree) : Tree :=
  let items := items ++ (Renaming.shift bytes).exprs others
  .seq (programSpan items) items

/-- What the machine makes of the tokens of a joined source. -/
theorem run_joinedTokens (bytes z : Nat) {tokens others : List Token} {x y : Nat} {s t : Span}
    {ps qs : List Tree}
    (hp : (Config.start.run names (.ok x) tokens).1 = .ok (.seq s ps))
    (hq : (Config.start.run names (.ok y) others).1 = .ok (.seq t qs)) (hps : ps ≠ [])
    (hlast : ∀ t, tokens.getLast? = some t → t.kind ≠ .punct .semicolon) :
    Config.start.run names (.ok z) (joinedTokens bytes tokens others) =
      (.ok (joinedProgram (bytes + 3) ps qs), []) := by
  obtain ⟨c, items, hall, hend, hwhole⟩ := exists_feedAll_of_run hp
  obtain ⟨d, items', hall', hend', hwhole'⟩ := exists_feedAll_of_run hq
  cases hwhole
  cases hwhole'
  have hmark := feedAll_semicolon ⟨bytes + 1, bytes + 2⟩ (by simpa using hps) hlast hall hend
  -- the second program is moved, and then put over the items of the first one
  have hsame : ∀ kind, (Renaming.shift (bytes + 3)).RespellsKind names names kind :=
    fun kind n _ => rfl
  have hmoved : (⟨items, [], .item⟩ : Config).feedAll names
      (others.map (Renaming.shift (bytes + 3)).token) =
        .ok (((Renaming.shift (bytes + 3)).config d).onto items) :=
    feedAll_onto items <|
      (feedAll_renamed (merges_shift (bytes + 3)) Config.start fun t _ => hsame t.kind).trans
        (congrArg _ hall')
  have hmovedEnd : (((Renaming.shift (bytes + 3)).config d).onto items).feed names none =
      .ok (((Renaming.shift (bytes + 3)).config ⟨items', [], .item⟩).onto items) := by
    have hnone : (Renaming.shift (bytes + 3)).RespellsNext names names none :=
      fun t ht => nomatch ht
    have hfeed : ((Renaming.shift (bytes + 3)).config d).feed names none =
        (Renaming.shift (bytes + 3)).step (d.feed names none) :=
      feed_renamed (merges_shift (bytes + 3)) d hnone
    rw [feed_onto, hfeed, hend']
    rfl
  rw [joinedTokens, List.append_cons, Config.run_append hmark, ← List.append_nil (others.map _),
    Config.run_append hmoved, Config.run_nil_of_ok hmovedEnd]
  simp [Config.program, joinedProgram, Config.onto, Renaming.config, Renaming.exprs_eq_map]

/-- Tokens that are known are read alike later on. -/
theorem run_of_grows {later : Interner} {ending : Except LexError Nat} {tokens : List Token}
    {tree : Tree} (hgrows : names.Grows later) (htokens : ∀ t ∈ tokens, t.kind.Known names)
    (h : (Config.start.run names ending tokens).1 = .ok tree) :
    (Config.start.run later ending tokens).1 = .ok tree := by
  have hreads : Renaming.id.Reads id := ⟨⟨fun _ _ => rfl⟩, fun _ => rfl, rfl⟩
  have hrun := run_renamed hreads ending Config.start fun t ht n hn =>
    hgrows.spelling_eq (htokens t ht n hn)
  have hending : ending.map id = ending := by cases ending <;> rfl
  have htoken : tokens.map Renaming.id.token = tokens := by
    refine (List.map_congr_left fun t _ => ?_).trans (List.map_id tokens)
    obtain ⟨kind, span⟩ := t
    cases kind <;> rfl
  rw [hending, htoken, h, Renaming.parsed, Renaming.expr_id] at hrun
  exact hrun

end Grammar

/-! ## Sources -/

/-- A source that is a program is one under every interner. -/
theorem exists_parsed {source : String} {names names' : Interner} {tree : Tree}
    (h : names.Consistent) (h' : names'.Consistent)
    (hparse : (parseSource source names).1 = .ok tree) :
    ∃ tree', parseSource source names' = (.ok tree', (scanSource source names').names) := by
  obtain ⟨later, hlater, hheld, hheld'⟩ :=
    Interner.exists_common (scanSource source names).names (scanSource source names').names
  obtain ⟨hending, hwords⟩ := Lexer.words_scan (l := ⟨.ofString source, names⟩) h h'
  have hending' : (scanSource source names').ending = (scanSource source names).ending := hending
  have hwords' : spokenSource source names' = spokenSource source names := hwords
  have hmap := map_parseSource h (.refl _) hlater hheld
  have hmap' := map_parseSource h' (.refl _) hlater hheld'
  rw [reread, hending', hwords', ← reread, ← hmap, hparse] at hmap'
  rcases hparse' : parseSource source names' with ⟨e | tree', last⟩
  · rw [hparse'] at hmap'
    cases hmap'
  · obtain ⟨-, rfl⟩ := (parseSource_eq_ok_iff h').mp hparse'
    exact ⟨tree', rfl⟩

/-- The names of a program are in use when it has been read. -/
theorem known_of_parseSource {source : String} {names names' : Interner} {tree : Tree}
    (h : names.Consistent) (hparse : parseSource source names = (.ok tree, names')) :
    ∃ items, tree = .seq (Grammar.programSpan items) items ∧
      tree.Every (fun _ => True) fun x => (names'.find? x).isSome := by
  obtain ⟨hrun, rfl⟩ := (parseSource_eq_ok_iff h).mp hparse
  obtain ⟨items, rfl, hitems⟩ := Grammar.every_of_run_ok (P := fun _ => True)
    (K := fun x => ((scanSource source names).names.find? x).isSome) (fun _ _ _ _ => trivial) hrun
    fun t ht => ⟨trivial, fun x hx => known_of_mem_scanSource h ht x hx⟩
  exact ⟨items, rfl, trivial, Expr.everyOf_iff.mpr hitems⟩

theorem run_of_parseSource {source : String} {names later last : Interner} {tree : Tree}
    (h : names.Consistent) (hparse : parseSource source names = (.ok tree, last))
    (hgrows : last.Grows later) : last = (scanSource source names).names ∧
      ∃ offset, (scanSource source names).ending = .ok offset ∧
        (Grammar.Config.start.run later (.ok offset) (scanSource source names).tokens).1 =
          .ok tree := by
  obtain ⟨hrun, rfl⟩ := (parseSource_eq_ok_iff h).mp hparse
  obtain ⟨offset, hending⟩ := Grammar.Config.ending_of_run_ok hrun
  refine ⟨rfl, offset, hending, ?_⟩
  rw [← hending]
  exact Grammar.run_of_grows hgrows (fun t ht => known_of_mem_scanSource h ht)
    (congrArg Prod.fst hrun)

/-- Read again later, a source is the same program, and nothing is added to the interner. -/
theorem parseSource_of_grows {source : String} {names later last : Interner} {tree : Tree}
    (h : names.Consistent) (hlater : later.Consistent)
    (hsize : byteCount source.toList ≤ maxOffset)
    (hparse : parseSource source names = (.ok tree, last)) (hgrows : last.Grows later) :
    parseSource source later = (.ok tree, later) := by
  obtain ⟨rfl, x, hending, hrun⟩ := run_of_parseSource h hparse hgrows
  obtain ⟨y, hscan⟩ :=
    ((partition_scanSource h hsize hending).grows hgrows).scanSource_eq hlater hsize
  obtain ⟨c, items, hall, hend, rfl⟩ := Grammar.exists_feedAll_of_run hrun
  rw [parseSource_eq_ok_iff hlater, runSourceTokens, hscan, ← List.append_nil (TokenList.tokens _),
    Grammar.Config.run_append hall, Grammar.Config.run_nil_of_ok hend]
  exact ⟨rfl, rfl⟩

section
variable {p q : String} {a a' b b' c n : Interner} {s t : Span} {ps qs : List Tree}

/-- A joined source, read when all its strings are known. -/
theorem parseSource_joined_of_grows (ha : a.Consistent) (hb : b.Consistent) (hn : n.Consistent)
    (hp : parseSource p a = (.ok (.seq s ps), a'))
    (hq : parseSource q b = (.ok (.seq t qs), b'))
    (hsize : byteCount (joined p q).toList ≤ maxOffset) (hps : ps ≠ [])
    (hlast : ∀ u, (scanSource p a).tokens.getLast? = some u → u.kind ≠ .punct .semicolon)
    (hpn : a'.Grows n) (hqn : b'.Grows n) : parseSource (joined p q) n =
      (.ok (Grammar.joinedProgram (byteCount p.toList + 3) ps qs), n) := by
  obtain ⟨rfl, x, hpend, hprun⟩ := run_of_parseSource ha hp hpn
  obtain ⟨rfl, y, hqend, hqrun⟩ := run_of_parseSource hb hq hqn
  obtain ⟨z, hscan⟩ := scanSource_joined ha hb hpend hqend hsize hn hpn hqn
  rw [parseSource_eq_ok_iff hn, runSourceTokens, hscan]
  exact ⟨Grammar.run_joinedTokens (byteCount p.toList) z hprun hqrun hps hlast, rfl⟩

/-- A joined source is a program under every interner. It is the one with the items of the first
source and, behind them, the moved ones of the second source, if the three interners are states of
one that grows. -/
theorem parseSource_joined (ha : a.Consistent) (hb : b.Consistent) (hc : c.Consistent)
    (hp : parseSource p a = (.ok (.seq s ps), a'))
    (hq : parseSource q b = (.ok (.seq t qs), b'))
    (hsize : byteCount (joined p q).toList ≤ maxOffset) (hps : ps ≠ [])
    (hlast : ∀ u, (scanSource p a).tokens.getLast? = some u → u.kind ≠ .punct .semicolon) :
    ∃ whole, parseSource (joined p q) c = (.ok whole, (scanSource (joined p q) c).names) ∧
      ∀ n : Interner, n.Consistent → a'.Grows n → b'.Grows n →
        (scanSource (joined p q) c).names.Grows n →
          whole = Grammar.joinedProgram (byteCount p.toList + 3) ps qs := by
  -- the second source is a program behind the first one, too
  obtain ⟨rfl, -⟩ := run_of_parseSource ha hp (.refl _)
  have ha' : (scanSource p a).names.Consistent := consistent_scanSource ha
  obtain ⟨tree, hbehind⟩ := exists_parsed hb ha' (congrArg Prod.fst hq)
  obtain ⟨items, rfl, -⟩ := known_of_parseSource ha' hbehind
  have hgrows : (scanSource p a).names.Grows (scanSource q (scanSource p a).names).names :=
    (Lexer.numbers_scan (l := ⟨.ofString q, (scanSource p a).names⟩) ha').2.1
  have hlater : (scanSource q (scanSource p a).names).names.Consistent := consistent_scanSource ha'
  have hjoined := parseSource_joined_of_grows ha ha' hlater hp hbehind hsize hps hlast hgrows
    (.refl _)
  obtain ⟨whole, hwhole⟩ := exists_parsed hlater hc (congrArg Prod.fst hjoined)
  refine ⟨whole, hwhole, fun n hn hpn hqn hcn => ?_⟩
  have hagain := parseSource_of_grows hc hn hsize hwhole hcn
  rw [parseSource_joined_of_grows ha hb hn hp hq hsize hps hlast hpn hqn] at hagain
  exact (Except.ok.inj (congrArg Prod.fst hagain)).symm

/-- Read where the first source was read, and the second one behind it, the joined source leaves
the same interner. -/
theorem parseSource_joined_names (ha : a.Consistent)
    (hp : parseSource p a = (.ok (.seq s ps), a'))
    (hq : parseSource q a' = (.ok (.seq t qs), b'))
    (hsize : byteCount (joined p q).toList ≤ maxOffset) :
    (scanSource (joined p q) a).names = b' := by
  obtain ⟨rfl, x, hpend, -⟩ := run_of_parseSource ha hp (.refl _)
  obtain ⟨rfl, y, hqend, -⟩ := run_of_parseSource (consistent_scanSource ha) hq (.refl _)
  exact names_scanSource_joined ha hpend hqend hsize

end
end LambdaScript
