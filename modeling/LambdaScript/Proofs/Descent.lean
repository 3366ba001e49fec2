import LambdaScript.Proofs.Scanning
import LambdaScript.Proofs.Tracking
/-!
# The grammar drives the stack machine

Every function of the grammar, run where an operand is due, takes the machine on to the
configuration in which that function's tree has been read. What follows such a tree is part of the
invariant: behind an atom there is no bracket of arguments, and behind an expression there is no
connective either (`Settled`), so that the machine completes the operand where the function returns.

Hence reading a source is running the machine on its tokens (`Grammar.parse_eq_run`). The fuel of
the grammar's functions is spent here and does not appear behind this file.
-/

namespace LambdaScript

namespace Grammar

open LambdaScript.Parser

variable {σ : Type} [TokenSource σ]
variable (names : Interner) (ending : Except LexError Nat) (V : Verdict)

/-- The machine is at `c`, and the next token has been looked at. -/
def Rests (c : Config) (P : List Token → Prop) (s : σ) : Prop :=
  ∃ tokens, Facing names ending V c P s tokens

/-- The parser reads an expression from at most `n` tokens. -/
def Reads (e : Parser σ Tree) (n : Nat) : Prop :=
  ∀ items stack (s : σ), bound stack = 0 →
    At names ending V ⟨items, stack, .operand⟩ (·.length ≤ n) s →
      Tracks V e s fun tree s => Rests names ending V ⟨items, stack, .value tree⟩
        (fun tokens => tokens.length < n ∧ Settled names 0 tokens.head?) s

variable {names ending V} {c : Config} {P : List Token → Prop} {s : σ} {e : Parser σ Tree}
  {items : List Tree} {stack : List Frame} {n fuel : Nat}

theorem Rests.at (h : Rests names ending V c P s) : At names ending V c P s := by
  obtain ⟨tokens, hfacing⟩ := h
  exact hfacing.at hfacing.holds

/-- A value with which the innermost construct is complete, whatever the next token is. -/
theorem Rests.complete {frame : Frame} {value : Tree} (whole : Tree)
    (h : Rests names ending V ⟨items, frame :: stack, .value value⟩ P s)
    (hP : ∀ tokens, P tokens → Settled names (bound (frame :: stack)) tokens.head?)
    (hcomplete : ∀ tokens, P tokens →
      Grammar.complete names items tokens.head? (frame :: stack) value =
        resume names items tokens.head? stack whole) :
    Rests names ending V ⟨items, stack, .value whole⟩ P s := by
  obtain ⟨tokens, hfacing⟩ := h
  refine ⟨tokens, hfacing.congr ?_⟩
  rw [Config.feed, Config.feed, resume_eq_complete (hP tokens hfacing.holds),
    hcomplete tokens hfacing.holds]

/-! ## Forms made of expressions -/

theorem tracks_bracketed (he : ∀ m, m < n → Reads names ending V e m)
    (h : At names ending V ⟨items, stack, .operand⟩
      (fun tokens => tokens.length ≤ n ∧ Next (·.isPunct .openParen) tokens) s) :
    Tracks V (bracketed e) s fun tree s =>
      At names ending V ⟨items, stack, .value tree⟩ (·.length < n) s := by
  refine tracks_bind (tracks_expectPunct (d := fun _ => ⟨items, .paren :: stack, .operand⟩) h
    (fun tokens hP hno => absurd hP.2 hno) (fun t rest _ ht => ?_) fun _ s hs => ?_)
  · obtain ⟨kind, span⟩ := t
    cases Token.isPunct_iff.mp ht
    rfl
  obtain ⟨m, hm, hinner⟩ := hs.behind
  refine tracks_bind ((he m hm items (.paren :: stack) s rfl hinner).imp fun inner s hs => ?_)
  have hclose : ∀ tokens : List Token, tokens.length < m ∧ Settled names 0 tokens.head? →
      Config.feed names ⟨items, .paren :: stack, .value inner⟩ tokens.head? =
        if tokens.head?.any (·.isPunct .closeParen) then .ok ⟨items, stack, .value inner⟩
        else .error (.noPunct .closeParen) := by
    intro tokens hP
    rw [Config.feed, resume_eq_complete hP.2, complete]
  refine tracks_bind (tracks_expectPunct (d := fun _ => ⟨items, stack, .value inner⟩) hs.at
    (fun tokens hP hno => ?_) (fun t rest hP ht => ?_) fun _ s hs => ?_)
  · rw [hclose tokens hP, Next.any_eq_false hno]
    rfl
  · have hfeed := hclose (t :: rest) hP
    rwa [List.head?_cons, Option.any_some, if_pos ht] at hfeed
  · exact tracks_pure (hs.fewer fun t rest hP => by omega)

variable (items stack) in
/-- A list of expressions as the machine goes through it: `frame` holds the items before. -/
def treeList (b : Brackets) (frame : List Tree → Frame) (closed : List Tree → Span → Config)
    (hseparator : b.separator ≠ b.closing)
    (hbound : ∀ before, bound (frame before :: stack) = 0)
    (hclose : ∀ before look, close? items (frame before :: stack) look =
      look.bind fun t => if t.isPunct b.closing then some (closed before.reverse t.span) else none)
    (hcomplete : ∀ before look value, complete names items look (frame before :: stack) value =
      behindItem items (frame (value :: before) :: stack) b.separator look)
    (he : ∀ m, m < n → Reads names ending V e m) : ListForm names ending V b e n where
  inside before := ⟨items, frame before :: stack, .item⟩
  behind a before := ⟨items, frame before :: stack, .value a⟩
  closed := closed
  free := Settled names 0
  inside_close before t ht := by
    rw [Config.feed, hclose, Option.bind_some, if_pos ht]
  behind_close a before t ht hfree := by
    rw [Config.feed, resume_eq_complete (hbound before ▸ hfree), hcomplete, behindItem, hclose,
      Option.bind_some, if_pos ht]
  behind_separator a before t ht hfree := by
    have hopen : ¬t.isPunct b.closing = true := fun h => hseparator (by
      have hkind := Token.isPunct_iff.mp h
      rw [Token.isPunct_iff.mp ht] at hkind
      exact TokenKind.punct.inj hkind)
    rw [Config.feed, resume_eq_complete (hbound before ▸ hfree), hcomplete, behindItem, hclose,
      Option.bind_some, if_neg hopen, Option.any_some]
    exact if_pos ht
  behind_other a before look hfree hclosed hnone := by
    have hopen : close? items (frame (a :: before) :: stack) look = none := by
      rw [hclose]
      cases look with
      | none => rfl
      | some t => rw [Option.bind_some, if_neg (by simpa using hclosed)]
    rw [Config.feed, resume_eq_complete (hbound before ▸ hfree), hcomplete, behindItem, hopen,
      hnone]
    rfl
  reads_item before s m hm h := by
    have hat : At names ending V ⟨items, frame before :: stack, .operand⟩ (·.length ≤ m) s := by
      refine (h.congr fun tokens hP => ?_).imp fun tokens hP => hP.1
      have hopen : close? items (frame before :: stack) tokens.head? = none := by
        rw [hclose]
        cases tokens with
        | nil => rfl
        | cons t rest =>
          have ht : ¬t.isPunct b.closing = true := hP.2
          rw [List.head?_cons, Option.bind_some, if_neg ht]
      rw [Config.feed, Config.feed, hopen]
    exact (he m hm items _ s (hbound before) hat).imp fun a s hs => hs.at

theorem tracks_block (he : ∀ m, m < n → Reads names ending V e m) (hfuel : n ≤ fuel + 1)
    (h : At names ending V ⟨items, stack, .operand⟩
      (fun tokens => tokens.length ≤ n ∧ Next (·.isPunct .openBrace) tokens) s) :
    Tracks V (block e fuel) s fun tree s =>
      At names ending V ⟨items, stack, .value tree⟩ (·.length < n) s := by
  let list (start : Span) : ListForm names ending V .curly e n :=
    treeList items stack .curly (.block start)
      (fun found stop => ⟨items, stack, .value (blockTree (start.merge stop) found)⟩)
      (by decide) (fun _ => rfl) (fun _ look => by cases look <;> rfl) (fun _ _ _ => rfl) he
  refine tracks_bind ((tracks_delimited list hfuel h (fun tokens hP hno => absurd hP hno)
    (fun t rest _ ht => ?_)).imp fun result s hresult => ?_)
  · obtain ⟨kind, span⟩ := t
    cases Token.isPunct_iff.mp ht
    rfl
  · obtain ⟨found, span⟩ := result
    obtain ⟨start, stop, hspan, hs⟩ := hresult
    cases hspan
    -- a block of one item is that item, an empty one is `false`
    rcases found with _ | ⟨item, _ | ⟨next, found⟩⟩
    · exact tracks_pure hs
    · exact tracks_pure hs
    · exact tracks_pure hs

theorem tracks_optionalThen (frame : Frame) {value : Tree} {Q : Unit → σ → Prop}
    (hcomplete : ∀ look, complete names items look stack value =
      behindCondition items (frame :: stack.tail) look) (hbound : bound stack = 0)
    (h : At names ending V ⟨items, stack, .value value⟩
      (fun tokens => tokens.length < n ∧ Settled names 0 tokens.head?) s)
    (hQ : ∀ s, At names ending V ⟨items, frame :: stack.tail, .operand⟩ (·.length < n) s →
      Q () s) :
    Tracks V (optionalThen : Parser σ Unit) s Q := by
  have hfeed : ∀ tokens : List Token, tokens.length < n ∧ Settled names 0 tokens.head? →
      Config.feed names ⟨items, stack, .value value⟩ tokens.head? =
        behindCondition items (frame :: stack.tail) tokens.head? := by
    intro tokens hP
    rw [Config.feed, resume_eq_complete (hbound ▸ hP.2), hcomplete]
  refine tracks_bind (tracks_nextIsPunct h (fun s t rest hfacing ht => ?_)
    fun s tokens hfacing hno => ?_)
  · -- the block begins with the bracket that was looked at
    have hbegin : Config.feed names ⟨items, frame :: stack.tail, .operand⟩ (some t) =
        Config.feed names ⟨items, stack, .value value⟩ (some t) := by
      have hvalue := hfeed (t :: rest) hfacing.holds
      rw [List.head?_cons, behindCondition, Option.any_some, if_pos ht] at hvalue
      rw [hvalue, Config.feed]
    exact tracks_pure (hQ s ((hfacing.congr hbegin).at hfacing.holds.1))
  · have hat := hfacing.at (R := fun tokens => (tokens.length < n ∧ Settled names 0 tokens.head?) ∧
      ¬Next (·.isPunct .openBrace) tokens) ⟨hfacing.holds, hno⟩
    refine tracks_bind (tracks_expectKeyword
      (d := fun _ => ⟨items, frame :: stack.tail, .operand⟩) hat (fun tokens hP hmiss => ?_)
      (fun t rest hP ht => ?_) fun _ s hs => ?_)
    · rw [hfeed tokens hP.1, behindCondition, Next.any_eq_false hP.2, Next.any_eq_false hmiss]
      rfl
    · have hvalue := hfeed (t :: rest) hP.1
      have hbrace : (t :: rest).head?.any (·.isPunct .openBrace) = false :=
        Next.any_eq_false hP.2
      rw [behindCondition, hbrace, List.head?_cons, Option.any_some, ht] at hvalue
      exact hvalue
    · exact tracks_pure (hQ s (hs.fewer fun t rest hP => Nat.le_of_lt hP.1.1))

/-- A keyword that begins an expression. -/
theorem tracks_leadingKeyword {k : Keyword} {c : Span → Config} {Q : Span → σ → Prop}
    (h : At names ending V ⟨items, stack, .operand⟩
      (fun tokens => tokens.length ≤ n ∧ Next (·.isKeyword k) tokens) s)
    (hbegin : ∀ span, begin items stack (some ⟨.keyword k, span⟩) = .ok (c span))
    (hQ : ∀ span s m, m < n → At names ending V (c span) (·.length ≤ m) s → Q span s) :
    Tracks V (expectKeyword k : Parser σ Span) s Q := by
  refine tracks_expectKeyword (d := c) h (fun tokens hP hno => absurd hP.2 hno)
    (fun t rest _ ht => ?_) fun span s hs => ?_
  · obtain ⟨kind, span⟩ := t
    cases Token.isKeyword_iff.mp ht
    exact hbegin span
  · obtain ⟨m, hm, hs⟩ := hs.behind
    exact hQ span s m hm hs

theorem tracks_conditional (he : ∀ m, m < n → Reads names ending V e m)
    (h : At names ending V ⟨items, stack, .operand⟩
      (fun tokens => tokens.length ≤ n ∧ Next (·.isKeyword .ifWord) tokens) s) :
    Tracks V (conditional e) s fun tree s =>
      At names ending V ⟨items, stack, .value tree⟩ (·.length < n) s := by
  refine tracks_bind (tracks_leadingKeyword
    (c := fun start => ⟨items, .ifCondition start :: stack, .operand⟩) h (fun _ => rfl)
    fun start s m hm hs => ?_)
  refine tracks_bind ((he m hm _ _ s rfl hs).imp fun condition s hs => ?_)
  refine tracks_bind (tracks_optionalThen (.thenBranch start condition)
    (fun _ => rfl) rfl hs.at fun s hs => ?_)
  have hbranch := hs.imp (R := (·.length ≤ m - 1)) fun tokens hlength => by omega
  refine tracks_bind ((he (m - 1) (by omega) _ _ s rfl hbranch).imp fun thenBranch s hs => ?_)
  refine tracks_bind (tracks_nextIsKeyword hs.at (fun s t rest hfacing ht => ?_)
    fun s tokens hfacing hno => ?_)
  -- with `else`: the branch is kept in the frame of the next one
  · have hfeed : Config.feed names
        ⟨items, .thenBranch start condition :: stack, .value thenBranch⟩ (some t) =
          .ok ⟨items, .elseBranch start condition thenBranch :: stack, .operand⟩ := by
      have hsettled : Settled names 0 (some t) := hfacing.holds.2
      rw [Config.feed, resume_eq_complete hsettled, complete, Option.any_some, if_pos ht]
    refine tracks_bind (tracks_advance hfacing hfeed fun s hs => ?_)
    have helse := (hs.length_lt (Nat.le_of_lt hfacing.holds.1)).imp (R := (·.length ≤ m - 1))
      fun tokens => Nat.le_of_lt
    refine tracks_bind ((he (m - 1) (by omega) _ _ s rfl helse).imp fun elseBranch s hs => ?_)
    refine tracks_pure ((hs.complete _ (fun tokens hP => hP.2) fun _ _ => rfl).at.imp ?_)
    intro tokens hP
    omega
  -- without it the construct is complete
  · have hrests : Rests names ending V ⟨items, .thenBranch start condition :: stack,
        .value thenBranch⟩ (fun tokens => (tokens.length < m - 1 ∧ Settled names 0 tokens.head?) ∧
          ¬Next (·.isKeyword .elseWord) tokens) s :=
      ⟨tokens, hfacing.looking, hfacing.run, hfacing.holds, hno⟩
    refine tracks_pure ((hrests.complete
      (.ifThen (start.merge thenBranch.span) condition thenBranch)
      (fun tokens hP => hP.1.2) fun tokens hP => ?_).at.imp fun tokens hP => by omega)
    rw [complete, Next.any_eq_false hP.2]
    rfl

theorem tracks_loop (he : ∀ m, m < n → Reads names ending V e m)
    (h : At names ending V ⟨items, stack, .operand⟩
      (fun tokens => tokens.length ≤ n ∧ Next (·.isKeyword .whileWord) tokens) s) :
    Tracks V (loop e) s fun tree s =>
      At names ending V ⟨items, stack, .value tree⟩ (·.length < n) s := by
  refine tracks_bind (tracks_leadingKeyword
    (c := fun start => ⟨items, .loopCondition start :: stack, .operand⟩) h (fun _ => rfl)
    fun start s m hm hs => ?_)
  refine tracks_bind ((he m hm _ _ s rfl hs).imp fun condition s hs => ?_)
  refine tracks_bind (tracks_optionalThen (.loopBody start condition)
    (fun _ => rfl) rfl hs.at fun s hs => ?_)
  have hbody := hs.imp (R := (·.length ≤ m - 1)) fun tokens hlength => by omega
  refine tracks_bind ((he (m - 1) (by omega) _ _ s rfl hbody).imp fun body s hs => ?_)
  refine tracks_pure ((hs.complete _ (fun tokens hP => hP.2) fun _ _ => rfl).at.imp ?_)
  intro tokens hP
  omega

theorem tracks_parameter {start : Span} {before : List Name}
    (h : At names ending V ⟨items, stack, .param start before⟩
      (fun tokens => tokens.length ≤ n ∧ ¬Next (·.isPunct .closeParen) tokens) s) :
    Tracks V (parameter : Parser σ Name) s fun name s =>
      At names ending V ⟨items, stack, .paramEnd start (name :: before)⟩ (·.length < n) s := by
  refine tracks_bind (tracks_peek h fun s tokens hfacing => ?_)
  have hany := Next.any_eq_false hfacing.holds.2
  cases tokens with
  | nil => exact hfacing.stops .noParameter rfl
  | cons t rest =>
    obtain ⟨kind, span⟩ := t
    cases kind
    case identifier name =>
      exact tracks_bind (tracks_advance hfacing rfl fun s hs =>
        tracks_pure (hs.length_lt hfacing.holds.1))
    all_goals
      refine hfacing.stops .noParameter ?_
      rw [Config.feed, hany]
      rfl

/-- A list of parameters as the machine goes through it. -/
def paramList (items : List Tree) (stack : List Frame) (start : Span) :
    ListForm names ending V .round (parameter : Parser σ Name) n where
  inside before := ⟨items, stack, .param start before⟩
  behind name before := ⟨items, stack, .paramEnd start (name :: before)⟩
  closed found _ := ⟨items, .lambdaBody start found :: stack, .operand⟩
  free _ := True
  inside_close before t ht := by
    rw [Config.feed, Option.any_some]
    exact if_pos ht
  behind_close name before t ht _ := by
    rw [Config.feed, Option.any_some]
    exact if_pos ht
  behind_separator name before t ht _ := by
    obtain ⟨kind, span⟩ := t
    cases Token.isPunct_iff.mp ht
    rfl
  behind_other name before look _ hclose hseparator := by
    have hclose : look.any (·.isPunct .closeParen) = false := hclose
    have hseparator : look.any (·.isPunct .comma) = false := hseparator
    rw [Config.feed, hclose, hseparator]
    rfl
  reads_item before s m _ h :=
    (tracks_parameter h).imp fun _ _ hs => hs.imp fun _ hP => ⟨hP, trivial⟩

theorem tracks_lambda (he : ∀ m, m < n → Reads names ending V e m) (hfuel : n ≤ fuel + 1)
    (h : At names ending V ⟨items, stack, .operand⟩
      (fun tokens => tokens.length ≤ n ∧ Next (·.isKeyword .lambdaWord) tokens) s) :
    Tracks V (lambda e fuel) s fun tree s =>
      At names ending V ⟨items, stack, .value tree⟩ (·.length < n) s := by
  refine tracks_bind (tracks_leadingKeyword (c := fun start => ⟨items, stack, .paramList start⟩) h
    (fun _ => rfl) fun start s m hm hs => ?_)
  have hparams := hs.imp (R := fun tokens => tokens.length ≤ m ∧ True) fun _ hP => ⟨hP, trivial⟩
  refine tracks_bind ((tracks_delimited (fun _ => paramList items stack start) (by omega) hparams
    (fun tokens _ hno => ?_) (fun t rest _ ht => ?_)).imp fun result s hresult => ?_)
  · have hany : tokens.head?.any (·.isPunct .openParen) = false := Next.any_eq_false hno
    rw [Config.feed, hany]
    rfl
  · rw [Config.feed, Option.any_some]
    exact if_pos ht
  · obtain ⟨start, stop, -, hs⟩ := hresult
    have hbody := hs.imp (R := (·.length ≤ m - 1)) fun tokens hlength => by omega
    refine tracks_bind ((he (m - 1) (by omega) _ _ s rfl hbody).imp fun body s hs => ?_)
    refine tracks_pure ((hs.complete _ (fun tokens hP => hP.2) fun _ _ => rfl).at.imp ?_)
    intro tokens hP
    omega

theorem tracks_primary (he : ∀ m, m < n → Reads names ending V e m) (hfuel : n ≤ fuel + 1)
    (h : At names ending V ⟨items, stack, .operand⟩ (·.length ≤ n) s) :
    Tracks V (primary e fuel) s fun tree s =>
      At names ending V ⟨items, stack, .value tree⟩ (·.length < n) s := by
  refine tracks_bind (tracks_peek h fun s tokens hfacing => ?_)
  have hlength := hfacing.holds
  cases tokens with
  | nil => exact tracks_failExpected hfacing rfl fun _ _ => rfl
  | cons t rest =>
    obtain ⟨kind, span⟩ := t
    have hleaf : ∀ tree : Tree, begin items stack (some ⟨kind, span⟩) =
        .ok ⟨items, stack, .value tree⟩ → Tracks V (leaf tree : Parser σ Tree) s fun tree s =>
          At names ending V ⟨items, stack, .value tree⟩ (·.length < n) s := by
      intro tree hbegin
      exact tracks_bind (tracks_advance hfacing hbegin fun s hs =>
        tracks_pure (hs.length_lt hlength))
    rw [List.head?_cons]
    dsimp only
    split
    · exact tracks_bracketed he (hfacing.at ⟨hlength, rfl⟩)
    · exact tracks_block he hfuel (hfacing.at ⟨hlength, rfl⟩)
    · exact tracks_conditional he (hfacing.at ⟨hlength, rfl⟩)
    · exact tracks_loop he (hfacing.at ⟨hlength, rfl⟩)
    · exact tracks_lambda he hfuel (hfacing.at ⟨hlength, rfl⟩)
    iterate 5 exact hleaf _ rfl
    · refine hfacing.stops .noExpression ?_
      rw [List.head?_cons, Config.feed, begin] <;> assumption

/-! ## Operators -/

theorem Rests.imp {R : List Token → Prop} (h : Rests names ending V c P s)
    (himp : ∀ tokens, P tokens → R tokens) : Rests names ending V c R s := by
  obtain ⟨tokens, hfacing⟩ := h
  exact ⟨tokens, hfacing.looking, hfacing.run, himp tokens hfacing.holds⟩

theorem settled_of_connective {look : Option Token} {b : Nat}
    (hopen : look.any (·.isPunct .openParen) = false)
    (hconnective : ∀ c, look.bind (connective? names) = some c → c.precedence ≤ b) :
    Settled names b look := by
  intro t ht
  subst ht
  exact ⟨hopen, hconnective⟩

theorem tracks_nextConnective {Q : Option Connective → σ → Prop} (h : At names ending V c P s)
    (hQ : ∀ s tokens, Facing names ending V c P s tokens →
      Q (tokens.head?.bind (connective? names)) s) :
    Tracks V (nextConnective : Parser σ (Option Connective)) s Q := by
  refine tracks_bind (tracks_peek h fun s tokens hfacing => ?_)
  have hQ := hQ s tokens hfacing
  have hlooking := hfacing.looking
  cases tokens with
  | nil => exact hQ
  | cons t rest =>
    obtain ⟨kind, span⟩ := t
    cases kind
    case operator name =>
      have hQ : Q (Connective.ofSymbol? (names.spelling name)) s := hQ
      rw [hlooking.alike name rfl] at hQ
      exact hQ
    all_goals exact hQ

theorem tracks_combine {c : Connective} {left right : Tree}
    (h : Rests names ending V ⟨items, .operand c left :: stack, .value right⟩ P s)
    (hP : ∀ tokens, P tokens → Settled names c.rightBound tokens.head?) :
    Tracks V (combine c left right : Parser σ Tree) s fun whole s =>
      Rests names ending V ⟨items, stack, .value whole⟩ P s := by
  -- parser and machine check the target of an assignment once its value is complete
  have hjoin : ∀ whole, join c left right = .ok whole →
      Rests names ending V ⟨items, stack, .value whole⟩ P s := by
    intro whole hwhole
    refine h.complete whole hP fun tokens _ => ?_
    rw [complete, hwhole]
    rfl
  have hreject : ∀ span, join c left right = .error (.badTarget span) →
      Stops V (.grammatical ⟨.invalidAssignmentTarget, span⟩) s := by
    intro span hspan
    obtain ⟨tokens, hfacing⟩ := h
    have hfeed : Config.feed names ⟨items, .operand c left :: stack, .value right⟩ tokens.head? =
        .error (.badTarget span) := by
      rw [Config.feed, resume_eq_complete (hP tokens hfacing.holds), complete, hspan]
    exact hfacing.stops (.badTarget span) hfeed
  cases c with
  | binary op => exact tracks_pure (hjoin _ rfl)
  | assignment =>
    cases left
    case var span target => exact tracks_pure (hjoin _ rfl)
    all_goals exact hreject _ rfl

/-! ## Expressions -/

variable (names ending V) in
/-- The parser reads an atom and its arguments from at most `n` tokens. -/
def ReadsAtom (p : Parser σ Tree) (n : Nat) : Prop :=
  ∀ items stack (s : σ), At names ending V ⟨items, stack, .operand⟩ (·.length ≤ n) s →
    Tracks V p s fun tree s => Rests names ending V ⟨items, stack, .value tree⟩
      (fun tokens => tokens.length < n ∧ ¬Next (·.isPunct .openParen) tokens) s

variable (names ending V) in
/-- The parser folds operators onto what has been read. -/
def Folds (p : Tree → Nat → Parser σ Tree) (n : Nat) : Prop :=
  ∀ items stack left (s : σ), Rests names ending V ⟨items, stack, .value left⟩
    (fun tokens => tokens.length ≤ n ∧ ¬Next (·.isPunct .openParen) tokens) s →
    Tracks V (p left (bound stack)) s fun tree s =>
      Rests names ending V ⟨items, stack, .value tree⟩
        (fun tokens => tokens.length ≤ n ∧ Settled names (bound stack) tokens.head?) s

variable (names ending V) in
/-- The parser calls what has been read with all lists of arguments that follow. -/
def Calls (p : Tree → Parser σ Tree) (n : Nat) : Prop :=
  ∀ items stack callee (s : σ),
    At names ending V ⟨items, stack, .value callee⟩ (·.length ≤ n) s →
    Tracks V (p callee) s fun tree s => Rests names ending V ⟨items, stack, .value tree⟩
      (fun tokens => tokens.length ≤ n ∧ ¬Next (·.isPunct .openParen) tokens) s

/-- Where no list of arguments follows, nothing is called. -/
theorem tracks_suffixes_of_settled {tree : Tree} {b : Nat} (h : At names ending V c P s)
    (hP : ∀ tokens, P tokens → Settled names b tokens.head?) :
    Tracks V (suffixes (fuel + 1) tree) s fun result s =>
      result = tree ∧ Rests names ending V c P s := by
  rw [suffixes]
  refine tracks_bind (tracks_nextIsPunct h (fun s t rest hfacing ht => ?_)
    fun s tokens hfacing _ => ?_)
  · have hsettled := (hP _ hfacing.holds t rfl).1
    rw [ht] at hsettled
    contradiction
  · exact tracks_pure ⟨rfl, tokens, hfacing⟩

theorem reads_expression (hatom : ReadsAtom names ending V (atom (fuel + 1) : Parser σ Tree) n)
    (hclimb : Folds names ending V (climb (fuel + 1) : Tree → Nat → Parser σ Tree) (n - 1)) :
    Reads names ending V (expression (fuel + 2) : Parser σ Tree) n := by
  intro items stack s hbound h
  rw [expression]
  refine tracks_bind ((hatom items stack s h).imp fun first s hs => ?_)
  have hfirst := hs.imp (R := fun tokens => tokens.length ≤ n - 1 ∧
    ¬Next (·.isPunct .openParen) tokens) fun tokens hP => ⟨by omega, hP.2⟩
  have hwhole := hclimb items stack first s hfirst
  rw [hbound] at hwhole
  obtain ⟨_, hfacing⟩ := hs
  have hpos := hfacing.holds.1
  refine tracks_bind (hwhole.imp fun whole s hs => ?_)
  refine (tracks_suffixes_of_settled hs.at fun tokens hP => hP.2).imp ?_
  rintro _ s ⟨rfl, hs⟩
  exact hs.imp fun tokens hP => ⟨by omega, hP.2⟩

theorem reads_atom (hexpression : ∀ m, m < n →
      Reads names ending V (expression fuel : Parser σ Tree) m) (hfuel : n ≤ fuel + 1)
    (hsuffixes : Calls names ending V (suffixes fuel : Tree → Parser σ Tree) (n - 1)) :
    ReadsAtom names ending V (atom (fuel + 1) : Parser σ Tree) n := by
  intro items stack s h
  rw [atom]
  refine tracks_bind ((tracks_primary hexpression hfuel h).imp fun callee s hs => ?_)
  obtain ⟨tokens, htokens, hrun, hlength⟩ := hs
  have hcallee : At names ending V ⟨items, stack, .value callee⟩ (·.length ≤ n - 1) s :=
    ⟨tokens, htokens, hrun, by omega⟩
  refine (hsuffixes items stack callee s hcallee).imp fun tree s hs => hs.imp fun _ hP => ?_
  exact ⟨by omega, hP.2⟩

theorem calls_suffixes (hexpression : ∀ m, m < n →
      Reads names ending V (expression fuel : Parser σ Tree) m) (hfuel : n ≤ fuel + 1)
    (hsuffixes : ∀ m, m < n → Calls names ending V (suffixes fuel : Tree → Parser σ Tree) m) :
    Calls names ending V (suffixes (fuel + 1) : Tree → Parser σ Tree) n := by
  intro items stack callee s h
  rw [suffixes]
  refine tracks_bind (tracks_nextIsPunct h (fun s t rest hfacing ht => ?_)
    fun s tokens hfacing hno => ?_)
  · let list (start : Span) : ListForm names ending V .round (expression fuel : Parser σ Tree) n :=
      treeList items stack .round (.args callee start)
        (fun found stop =>
          ⟨items, stack, .value (.call (callee.span.merge (start.merge stop)) callee found)⟩)
        (by decide) (fun _ => rfl) (fun _ look => by cases look <;> rfl) (fun _ _ _ => rfl)
        hexpression
    have hopen := hfacing.at (R := fun tokens => tokens.length ≤ n ∧
      Next (·.isPunct .openParen) tokens) ⟨hfacing.holds, ht⟩
    refine tracks_bind ((tracks_delimited list hfuel hopen (fun tokens hP hno => absurd hP hno)
      (fun t rest _ ht => ?_)).imp fun result s hresult => ?_)
    · have ht : t.isPunct .openParen = true := ht
      rw [Config.feed, resume, extendOr, extend?, if_pos ht]
      rfl
    · obtain ⟨args, span⟩ := result
      obtain ⟨start, stop, hspan, hs⟩ := hresult
      cases hspan
      obtain ⟨tokens, htokens, hrun, hlength⟩ := hs
      refine (hsuffixes (n - 1) (by omega) items stack _ s
        ⟨tokens, htokens, hrun, by omega⟩).imp fun tree s hs => hs.imp fun _ hP => ?_
      exact ⟨by omega, hP.2⟩
  · exact tracks_pure ⟨tokens, hfacing.looking, hfacing.run, hfacing.holds, hno⟩

theorem folds_climb (hatom : ∀ m, m < n → ReadsAtom names ending V (atom fuel : Parser σ Tree) m)
    (hclimb : ∀ m, m < n →
      Folds names ending V (climb fuel : Tree → Nat → Parser σ Tree) m) :
    Folds names ending V (climb (fuel + 1) : Tree → Nat → Parser σ Tree) n := by
  intro items stack left s h
  rw [climb]
  refine tracks_bind (tracks_nextConnective h.at fun s tokens hfacing => ?_)
  have hopen := Next.any_eq_false hfacing.holds.2
  -- what is left is read if no connective, or one that binds too loosely, is next
  have hleft : (∀ c, tokens.head?.bind (connective? names) = some c →
      c.precedence ≤ bound stack) → Rests names ending V ⟨items, stack, .value left⟩
        (fun tokens => tokens.length ≤ n ∧ Settled names (bound stack) tokens.head?) s :=
    fun hloose => ⟨tokens, hfacing.looking, hfacing.run, hfacing.holds.1,
      settled_of_connective hopen hloose⟩
  cases hnext : tokens.head?.bind (connective? names) with
  | none => exact tracks_pure (hleft (by simp [hnext]))
  | some c =>
    dsimp only
    by_cases hloose : c.precedence ≤ bound stack
    · rw [if_pos hloose]
      exact tracks_pure (hleft (by simp [hnext, hloose]))
    rw [if_neg hloose]
    obtain ⟨t, ht, hc⟩ := Option.bind_eq_some_iff.mp hnext
    obtain ⟨rest, rfl⟩ : ∃ rest, tokens = t :: rest := by
      cases tokens with
      | nil => contradiction
      | cons _ rest => exact ⟨rest, by cases ht; rfl⟩
    have hfeed : Config.feed names ⟨items, stack, .value left⟩ (some t) =
        .ok ⟨items, .operand c left :: stack, .operand⟩ := by
      have hno : ¬t.isPunct .openParen = true := hfacing.holds.2
      rw [Config.feed, resume, extendOr, extend?, if_neg hno]
      simp only [hc, if_neg hloose]
    refine tracks_bind (tracks_advance hfacing hfeed fun s hs => ?_)
    have hlength := hfacing.holds.1
    rw [List.length_cons] at hlength
    have hatom := hatom (n - 1) (by omega) items (.operand c left :: stack) s
      ((hs.length_lt hfacing.holds.1).imp fun tokens => Nat.le_sub_one_of_lt)
    refine tracks_bind (hatom.imp fun first s hs => ?_)
    have hright := hclimb (n - 1) (by omega) items (.operand c left :: stack) first s
      (hs.imp fun tokens hP => ⟨by omega, hP.2⟩)
    refine tracks_bind (hright.imp fun right s hs => ?_)
    -- the operator is folded, and what it makes is the left operand of the next one
    refine tracks_bind ((tracks_combine hs fun tokens hP => hP.2).imp fun whole s hs => ?_)
    have hwhole := hclimb (n - 1) (by omega) items stack whole s (hs.imp fun tokens hP => ?_)
    · exact hwhole.imp fun tree s hs => hs.imp fun tokens hP => ⟨by omega, hP.2⟩
    · refine ⟨hP.1, fun hnext => ?_⟩
      obtain ⟨t, rest, rfl, ht⟩ := Next.cons hnext
      have hno := (hP.2 t rfl).1
      rw [ht] at hno
      contradiction

/-- Each function of the grammar with fuel for `n` tokens. -/
theorem tracks_expressions (fuel : Nat) :
    (∀ n, 4 * n + 4 ≤ fuel → Reads names ending V (expression fuel : Parser σ Tree) n) ∧
    (∀ n, 4 * n + 3 ≤ fuel → ReadsAtom names ending V (atom fuel : Parser σ Tree) n) ∧
    (∀ n, 4 * n + 1 ≤ fuel → Folds names ending V (climb fuel : _ → _ → Parser σ Tree) n) ∧
    (∀ n, 4 * n + 1 ≤ fuel → Calls names ending V (suffixes fuel : _ → Parser σ Tree) n) := by
  induction fuel with
  | zero =>
    refine ⟨?_, ?_, ?_, ?_⟩
    all_goals
      intro n hfuel
      omega
  | succ fuel ih =>
    obtain ⟨hexpression, hatom, hclimb, hsuffixes⟩ := ih
    refine ⟨fun n hfuel => ?_, fun n hfuel => ?_, fun n hfuel => ?_, fun n hfuel => ?_⟩
    -- the functions called have fuel of their own, as they look at a token at least
    · obtain ⟨fuel, rfl⟩ : ∃ less, fuel = less + 1 := ⟨fuel - 1, by omega⟩
      exact reads_expression (hatom n (by omega)) (hclimb (n - 1) (by omega))
    · exact reads_atom (fun m hm => hexpression m (by omega)) (by omega)
        (hsuffixes (n - 1) (by omega))
    · exact folds_climb (fun m hm => hatom m (by omega)) fun m hm => hclimb m (by omega)
    · exact calls_suffixes (fun m hm => hexpression m (by omega)) (by omega)
        fun m hm => hsuffixes m (by omega)

/-! ## Programs -/

theorem tracks_atEnd {Q : Bool → σ → Prop} (h : At names ending V c P s)
    (hend : ∀ s, Facing names ending V c P s [] → Q true s)
    (hmore : ∀ s t rest, Facing names ending V c P s (t :: rest) → Q false s) :
    Tracks V (atEnd : Parser σ Bool) s Q := by
  refine tracks_bind (tracks_peek h fun s tokens hfacing => tracks_pure ?_)
  cases tokens with
  | nil => exact hend s hfacing
  | cons t rest => exact hmore s t rest hfacing

/-- At the end of the source the expressions read so far are the program. -/
theorem Facing.end_eq {c' : Config} (h : Facing names ending V c P s [])
    (hfeed : c.feed names none = .ok c') : V = (.ok c'.program, []) := by
  obtain ⟨hlooking, hrun, -⟩ := h
  cases hlooking with
  | stop _ hending _ =>
    rw [hending, Config.run_nil_of_ok hfeed] at hrun
    exact hrun.symm

variable (names) in
theorem tracks_programItems (fuel : Nat) (before : List Tree) (n : Nat) (hfuel : 4 * n + 5 ≤ fuel)
    (h : At names ending V ⟨before, [], .item⟩ (·.length ≤ n) s) :
    Tracks V (programItems fuel before : Parser σ (List Tree)) s fun found s =>
      V = (.ok (.seq (programSpan found) found), []) ∧ Looking names ending s [] := by
  induction fuel generalizing before n s with
  | zero => omega
  | succ fuel ih =>
    refine tracks_bind (tracks_atEnd h (fun s hfacing => ?_) fun s t rest hfacing => ?_)
    · exact tracks_pure ⟨hfacing.end_eq rfl, hfacing.looking⟩
    -- the source goes on, so that an item begins
    have hitem : At names ending V ⟨before, [], .operand⟩ (·.length ≤ n) s := by
      have hfeed : Config.feed names ⟨before, [], .operand⟩ (some t) =
          Config.feed names ⟨before, [], .item⟩ (some t) := rfl
      exact (hfacing.congr hfeed).at hfacing.holds
    refine tracks_bind (((tracks_expressions fuel).1 n (by omega) before [] s rfl hitem).imp
      fun item s hs => ?_)
    have hbehind : ∀ look, Settled names 0 look → Config.feed names ⟨before, [], .value item⟩ look =
        behindItem (item :: before) [] .semicolon look := by
      intro look hlook
      rw [Config.feed, resume_eq_complete hlook, complete]
    refine tracks_bind (tracks_atEnd hs.at (fun s hfacing => ?_) fun s t rest hfacing => ?_)
    · have hlength := hfacing.holds.1
      have hfeed : Config.feed names ⟨item :: before, [], .item⟩ none =
          Config.feed names ⟨before, [], .value item⟩ none := by
        rw [hbehind none hfacing.holds.2]
        rfl
      refine tracks_bind (tracks_pure (ih (item :: before) (n - 1) (by omega) ?_))
      exact (hfacing.congr hfeed).at (Nat.zero_le _)
    · have hat := hfacing.at (R := fun tokens => tokens.length < n ∧ Settled names 0 tokens.head? ∧
        tokens ≠ []) ⟨hfacing.holds.1, hfacing.holds.2, List.cons_ne_nil t rest⟩
      refine tracks_bind (tracks_expectPunct (d := fun _ => ⟨item :: before, [], .item⟩) hat
        (fun tokens hP hno => ?_) (fun t rest hP ht => ?_) fun _ s hs => ?_)
      · have hany : tokens.head?.any (·.isPunct .semicolon) = false := Next.any_eq_false hno
        rw [hbehind _ hP.2.1, behindItem, hany]
        cases tokens with
        | nil => exact absurd rfl hP.2.2
        | cons t rest => rfl
      · have hclose : close? (item :: before) [] (some t) = none := rfl
        rw [hbehind (some t) hP.2.1, behindItem, hclose, Option.any_some]
        exact if_pos ht
      · have hlength := hfacing.holds.1
        exact ih (item :: before) (n - 1) (by omega)
          ((hs.fewer fun t rest hP => Nat.le_of_lt hP.1).imp fun tokens => Nat.le_sub_one_of_lt)

theorem tracks_program {tokens : List Token} (h : Presents names ending s tokens) :
    Tracks (Config.start.run names ending tokens) (program (budget s) : Parser σ Tree) s
      fun tree s => Config.start.run names ending tokens = (.ok tree, []) ∧
        Looking names ending s [] := by
  have hlength := h.length_le_size
  have hitems := tracks_programItems names (budget s) [] tokens.length
    (by unfold budget; omega) ⟨tokens, h, rfl, Nat.le_refl _⟩
  exact tracks_bind (hitems.imp fun found s hfound => tracks_pure hfound)

/-- What reading a source comes to, as a run of the machine on the tokens that it presents. -/
theorem parse_cases {tokens : List Token} (h : Presents names ending s tokens) :
    (∃ tree rest, parse s = (.ok tree, rest) ∧
      Config.start.run names ending tokens = (.ok tree, []) ∧ Looking names ending rest []) ∨
    (∃ e rest, parse s = (.error e, rest) ∧
      Stops (Config.start.run names ending tokens) e rest) := by
  rcases (tracks_program h).result (ends_program s).finished with
    ⟨tree, rest, hparse, hrun⟩ | ⟨e, rest, hparse, hstops⟩
  · exact .inl ⟨tree, rest, hparse, hrun⟩
  · exact .inr ⟨e, rest, hparse, hstops⟩

/-- Reading a source is running the machine on the tokens that it presents. -/
theorem parse_eq_run {tokens : List Token} (h : Presents names ending s tokens) :
    (parse s).1 = (Config.start.run names ending tokens).1 := by
  rcases parse_cases h with ⟨tree, rest, hparse, hrun, -⟩ | ⟨e, rest, hparse, hrun, -⟩
  · rw [hparse, hrun]
  · rw [hparse, hrun]

end Grammar

/-! ## Sources -/

/-- What the machine comes to on the tokens of a source. -/
def runSourceTokens (source : String) (names : Interner) : Grammar.Verdict :=
  let list := scanSource source names
  Grammar.Config.start.run list.names list.ending list.tokens

theorem presents_ofString (source : String) {names : Interner} (h : names.Consistent) :
    Presents (scanSource source names).names (scanSource source names).ending
      (TokenStream.ofString source names) (scanSource source names).tokens :=
  TokenStream.presents (l := ⟨.ofString source, names⟩) h

/-- A source is a program exactly if the machine accepts its tokens; all of them are read then. -/
theorem parseSource_eq_ok_iff {source : String} {names names' : Interner} {tree : Tree}
    (h : names.Consistent) :
    parseSource source names = (.ok tree, names') ↔
      runSourceTokens source names = (.ok tree, []) ∧
        names' = (scanSource source names).names := by
  unfold parseSource
  rcases Grammar.parse_cases (presents_ofString source h) with
    ⟨found, rest, hparse, hrun, hlooking⟩ | ⟨e, rest, hparse, hrun, -⟩
  · have hnames : rest.names = (scanSource source names).names := by
      cases hlooking with
      | stop _ _ hnames => exact hnames
    rw [hparse, runSourceTokens, hrun, ← hnames]
    simp [eq_comm]
  · rw [hparse]
    constructor
    · intro hok
      cases hok
    · rintro ⟨hok, -⟩
      rw [← runSourceTokens, hok] at hrun
      contradiction

end LambdaScript
