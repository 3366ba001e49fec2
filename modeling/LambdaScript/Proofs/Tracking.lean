import LambdaScript.Grammar.Totality
import LambdaScript.Proofs.Presents
/-!
# Parsers that track the stack machine

A parser tracks the machine if it comes to an end, and either succeeds where the machine has taken
the same tokens, or stops where the machine stops and with its error (`Tracks`). There is one lemma
for every step that the grammar is made of, and one for lists in brackets (`tracks_delimited`).
-/

namespace LambdaScript

namespace Run

variable {ε σ α β : Type}

/-- The computation comes to an end on `s`: `Q` holds of its value, or `E` of its error. -/
def Gives (x : Run ε σ α) (s : σ) (Q : α → σ → Prop) (E : ε → σ → Prop) : Prop :=
  match x s with
  | .done a s => Q a s
  | .failed e s => E e s
  | .unfinished => False

theorem gives_bind {x : Run ε σ α} {f : α → Run ε σ β} {s : σ} {Q : β → σ → Prop}
    {E : ε → σ → Prop} (h : x.Gives s (fun a s => (f a).Gives s Q E) E) :
    (x >>= f).Gives s Q E := by
  unfold Gives at h ⊢
  rw [bind_apply]
  cases hx : x s <;> simp_all

theorem Gives.imp {x : Run ε σ α} {s : σ} {P Q : α → σ → Prop} {E : ε → σ → Prop}
    (h : x.Gives s P E) (himp : ∀ a s, P a s → Q a s) : x.Gives s Q E := by
  unfold Gives at h ⊢
  cases hx : x s <;> simp_all

/-- The result of a computation that came to an end is a value such that `Q` or an error such that
`E`. -/
theorem Gives.result {x : Run ε σ α} {s : σ} {Q : α → σ → Prop} {E : ε → σ → Prop}
    (h : x.Gives s Q E) (hfinished : (x s).Finished) :
    (∃ a t, (x s).result hfinished = (.ok a, t) ∧ Q a t) ∨
      (∃ e t, (x s).result hfinished = (.error e, t) ∧ E e t) := by
  unfold Gives at h
  generalize x s = outcome at h hfinished
  cases outcome with
  | done a t => exact .inl ⟨a, t, rfl, h⟩
  | failed e t => exact .inr ⟨e, t, rfl, h⟩
  | unfinished => exact h.elim

end Run

namespace Grammar

open LambdaScript.Parser

variable {σ α β : Type} [TokenSource σ]

/-- What a run of the machine ends in: the program or the first error, and the tokens not taken. -/
abbrev Verdict : Type := Except SyntaxError Tree × List Token

variable (names : Interner) (ending : Except LexError Nat) (V : Verdict)

/-- On the tokens that `s` presents, which are such that `P`, the machine goes from `c` to the
verdict. -/
def At (c : Config) (P : List Token → Prop) (s : σ) : Prop :=
  ∃ tokens, Presents names ending s tokens ∧ c.run names ending tokens = V ∧ P tokens

/-- The same of a source whose next token has been looked at. -/
structure Facing (c : Config) (P : List Token → Prop) (s : σ) (tokens : List Token) : Prop where
  looking : Looking names ending s tokens
  run : c.run names ending tokens = V
  holds : P tokens

/-- The verdict is this error, and the source is left looking at the first token not taken. -/
def Stops (e : SyntaxError) (s : σ) : Prop :=
  V.1 = .error e ∧ ((∃ l, e = .lexical l) ∨ TokenSource.peek s = (.ok V.2.head?, s))

/-- The parser stops with the verdict, or it succeeds such that `Q`. -/
def Tracks (p : Parser σ α) (s : σ) (Q : α → σ → Prop) : Prop := p.Gives s Q (Stops V)

/-- The next token is there and passes a test. -/
def Next (test : Token → Bool) (tokens : List Token) : Prop := tokens.head?.any test = true

variable {names ending V} {c : Config} {P : List Token → Prop} {s : σ} {Q : α → σ → Prop}

theorem Next.cons {test : Token → Bool} {tokens : List Token} (h : Next test tokens) :
    ∃ t rest, tokens = t :: rest ∧ test t = true := by
  cases tokens with
  | nil => contradiction
  | cons t rest => exact ⟨t, rest, rfl, h⟩

theorem Next.any_eq_false {test : Token → Bool} {tokens : List Token} (h : ¬Next test tokens) :
    tokens.head?.any test = false :=
  Bool.eq_false_iff.mpr h

theorem tracks_pure {a : α} (h : Q a s) : Tracks V (pure a : Parser σ α) s Q := h

theorem tracks_bind {p : Parser σ α} {f : α → Parser σ β} {R : β → σ → Prop}
    (h : Tracks V p s fun a s => Tracks V (f a) s R) : Tracks V (p >>= f) s R :=
  Run.gives_bind h

theorem Tracks.imp {p : Parser σ α} {R : α → σ → Prop} (h : Tracks V p s R)
    (himp : ∀ a s, R a s → Q a s) : Tracks V p s Q :=
  Run.Gives.imp h himp

theorem At.imp {R : List Token → Prop} (h : At names ending V c P s)
    (himp : ∀ tokens, P tokens → R tokens) : At names ending V c R s := by
  obtain ⟨tokens, hs, hrun, hP⟩ := h
  exact ⟨tokens, hs, hrun, himp tokens hP⟩

/-- A token taken lowers the bound for the number of tokens. -/
theorem At.behind {R : List Token → Prop} {n : Nat}
    (h : At names ending V c (fun rest => ∃ t, (t :: rest).length ≤ n ∧ R (t :: rest)) s) :
    ∃ m, m < n ∧ At names ending V c (·.length ≤ m) s := by
  obtain ⟨tokens, hs, hrun, t, hlength, -⟩ := h
  rw [List.length_cons] at hlength
  exact ⟨n - 1, by omega, tokens, hs, hrun, by omega⟩

/-- The tokens behind one that was taken are fewer. -/
theorem At.fewer {R : Token → List Token → Prop} {n : Nat}
    (h : At names ending V c (fun rest => ∃ t, R t rest) s)
    (hlength : ∀ t rest, R t rest → (t :: rest).length ≤ n) :
    At names ending V c (·.length < n) s := by
  refine h.imp ?_
  rintro rest ⟨t, hrest⟩
  exact hlength t rest hrest

theorem At.length_lt {t : Token} {rest : List Token} {n : Nat}
    (h : At names ending V c (· = rest) s) (hlength : (t :: rest).length ≤ n) :
    At names ending V c (·.length < n) s := by
  refine h.imp fun tokens heq => ?_
  rw [heq]
  exact hlength

theorem Facing.at {tokens : List Token} (h : Facing names ending V c P s tokens)
    {R : List Token → Prop} (hP : R tokens) : At names ending V c R s :=
  ⟨tokens, h.looking.presents, h.run, hP⟩

theorem Facing.congr {c' : Config} {tokens : List Token} (h : Facing names ending V c P s tokens)
    (hfeed : c'.feed names tokens.head? = c.feed names tokens.head?) :
    Facing names ending V c' P s tokens :=
  ⟨h.looking, (Config.run_congr hfeed).trans h.run, h.holds⟩

theorem At.congr {c' : Config} (h : At names ending V c P s)
    (hfeed : ∀ tokens, P tokens → c'.feed names tokens.head? = c.feed names tokens.head?) :
    At names ending V c' P s := by
  obtain ⟨tokens, hs, hrun, hP⟩ := h
  exact ⟨tokens, hs, (Config.run_congr (hfeed tokens hP)).trans hrun, hP⟩

/-! ## Single steps -/

theorem tracks_peek {Q : Option Token → σ → Prop} (h : At names ending V c P s)
    (hQ : ∀ s tokens, Facing names ending V c P s tokens → Q tokens.head? s) :
    Tracks V (peek : Parser σ _) s Q := by
  obtain ⟨tokens, hs, hrun, hP⟩ := h
  unfold Tracks Run.Gives peek ofSource Run.mapError Run.ofStep
  rcases hs.peek with ⟨looked, hpeek, hlooking⟩ | ⟨e, looked, hpeek, rfl, hending⟩
  · rw [hpeek]
    exact hQ looked tokens ⟨hlooking, hrun, hP⟩
  · rw [hpeek]
    refine ⟨?_, .inl ⟨e, rfl⟩⟩
    rw [← hrun, hending]
    rfl

/-- Taking a token takes the machine one step on. -/
theorem tracks_advance {Q : Option Token → σ → Prop} {t : Token} {rest : List Token} {c' : Config}
    (h : Facing names ending V c P s (t :: rest)) (hfeed : c.feed names (some t) = .ok c')
    (hQ : ∀ s, At names ending V c' (· = rest) s → Q (some t) s) :
    Tracks V (advance : Parser σ _) s Q := by
  obtain ⟨hlooking, hrun, -⟩ := h
  rw [Config.run_cons_of_ok hfeed] at hrun
  cases hlooking with
  | token _ hnext _ hrest =>
    unfold Tracks Run.Gives advance ofSource Run.mapError Run.ofStep
    rw [hnext]
    exact hQ _ ⟨rest, hrest, hrun, rfl⟩

/-- Where the machine rejects the next token, its report is the verdict. -/
theorem Facing.stops {tokens : List Token} (complaint : Complaint)
    (h : Facing names ending V c P s tokens)
    (hfeed : c.feed names tokens.head? = .error complaint) :
    Stops V (.grammatical (complaint.report (TokenSource.names s) (TokenSource.offset s)
      tokens.head?)) s := by
  obtain ⟨hlooking, hrun, -⟩ := h
  cases hlooking with
  | @token _ t rest hpeek _ halike _ =>
    rw [List.head?_cons] at hfeed
    rw [Config.run_cons_of_error hfeed] at hrun
    subst hrun
    refine ⟨?_, .inr hpeek⟩
    cases complaint <;> simp only [Complaint.report, List.head?_cons, halike.describe_eq]
  | stop hpeek hending hnames =>
    rw [List.head?_nil] at hfeed
    rw [hending, Config.run_nil_of_error hfeed] at hrun
    subst hrun hnames
    exact ⟨rfl, .inr hpeek⟩

theorem tracks_failExpected {tokens : List Token} {complaint : Complaint} {expected : String}
    (h : Facing names ending V c P s tokens)
    (hfeed : c.feed names tokens.head? = .error complaint)
    (hreport : ∀ names offset, complaint.report names offset tokens.head? =
      match tokens.head? with
      | some t => ⟨.mismatch expected (t.kind.describe names), t.span⟩
      | none => ⟨.unexpectedEnd expected, .point offset⟩) :
    Tracks V (failExpected expected tokens.head? : Parser σ α) s Q := by
  have hstops := h.stops complaint hfeed
  rw [hreport] at hstops
  cases tokens with
  | nil => exact hstops
  | cons t rest => exact hstops

/-- Asking for a property of the next token. -/
theorem tracks_any {test : Token → Bool} {Q : Bool → σ → Prop} (h : At names ending V c P s)
    (hyes : ∀ s t rest, Facing names ending V c P s (t :: rest) → test t = true → Q true s)
    (hno : ∀ s tokens, Facing names ending V c P s tokens → ¬Next test tokens → Q false s) :
    Tracks V (do return (← peek).any test : Parser σ _) s Q := by
  refine tracks_bind (tracks_peek h fun s tokens hfacing => tracks_pure ?_)
  cases hnext : tokens.head?.any test with
  | false => exact hno s tokens hfacing (by simp [Next, hnext])
  | true =>
    obtain ⟨t, rest, rfl, ht⟩ := Next.cons hnext
    exact hyes s t rest hfacing ht

theorem tracks_nextIsPunct {p : Punct} {Q : Bool → σ → Prop} (h : At names ending V c P s)
    (hyes : ∀ s t rest, Facing names ending V c P s (t :: rest) → t.isPunct p = true → Q true s)
    (hno : ∀ s tokens, Facing names ending V c P s tokens → ¬Next (·.isPunct p) tokens →
      Q false s) :
    Tracks V (nextIsPunct p : Parser σ _) s Q :=
  tracks_any h hyes hno

theorem tracks_nextIsKeyword {k : Keyword} {Q : Bool → σ → Prop} (h : At names ending V c P s)
    (hyes : ∀ s t rest, Facing names ending V c P s (t :: rest) → t.isKeyword k = true →
      Q true s)
    (hno : ∀ s tokens, Facing names ending V c P s tokens → ¬Next (·.isKeyword k) tokens →
      Q false s) :
    Tracks V (nextIsKeyword k : Parser σ _) s Q :=
  tracks_any h hyes hno

/-- Taking the token that is needed, where the machine takes it or complains that it is missing. -/
theorem tracks_expect {test : Token → Bool} {expected : String} {complaint : Complaint}
    {d : Span → Config} {Q : Span → σ → Prop} (h : At names ending V c P s)
    (hmiss : ∀ tokens, P tokens → ¬Next test tokens →
      c.feed names tokens.head? = .error complaint)
    (hreport : ∀ names offset look, complaint.report names offset look =
      match look with
      | some t => ⟨.mismatch expected (t.kind.describe names), t.span⟩
      | none => ⟨.unexpectedEnd expected, .point offset⟩)
    (htake : ∀ t rest, P (t :: rest) → test t = true →
      c.feed names (some t) = .ok (d t.span))
    (hQ : ∀ span s, At names ending V (d span) (fun rest => ∃ t, P (t :: rest)) s → Q span s) :
    Tracks V (expect test expected : Parser σ _) s Q := by
  refine tracks_bind (tracks_peek h fun s tokens hfacing => ?_)
  cases tokens with
  | nil =>
    have hfeed := hmiss [] hfacing.holds (by simp [Next])
    exact tracks_failExpected hfacing hfeed fun names offset => hreport names offset _
  | cons t rest =>
    by_cases ht : test t = true
    · rw [List.head?_cons]
      dsimp only
      rw [if_pos ht]
      refine tracks_bind (tracks_advance hfacing (htake t rest hfacing.holds ht) fun s hs => ?_)
      exact tracks_pure (hQ _ s (hs.imp fun tokens heq => ⟨t, heq ▸ hfacing.holds⟩))
    · rw [List.head?_cons]
      dsimp only
      rw [if_neg ht]
      have hfeed := hmiss (t :: rest) hfacing.holds (by simp [Next, ht])
      exact tracks_failExpected hfacing hfeed fun names offset => hreport names offset _

theorem tracks_expectPunct {p : Punct} {d : Span → Config} {Q : Span → σ → Prop}
    (h : At names ending V c P s)
    (hmiss : ∀ tokens, P tokens → ¬Next (·.isPunct p) tokens →
      c.feed names tokens.head? = .error (.noPunct p))
    (htake : ∀ t rest, P (t :: rest) → t.isPunct p = true →
      c.feed names (some t) = .ok (d t.span))
    (hQ : ∀ span s, At names ending V (d span) (fun rest => ∃ t, P (t :: rest)) s → Q span s) :
    Tracks V (expectPunct p : Parser σ _) s Q :=
  tracks_expect h hmiss (fun _ _ look => by cases look <;> rfl) htake hQ

theorem tracks_expectKeyword {k : Keyword} {d : Span → Config} {Q : Span → σ → Prop}
    (h : At names ending V c P s)
    (hmiss : ∀ tokens, P tokens → ¬Next (·.isKeyword k) tokens →
      c.feed names tokens.head? = .error (.noKeyword k))
    (htake : ∀ t rest, P (t :: rest) → t.isKeyword k = true →
      c.feed names (some t) = .ok (d t.span))
    (hQ : ∀ span s, At names ending V (d span) (fun rest => ∃ t, P (t :: rest)) s → Q span s) :
    Tracks V (expectKeyword k : Parser σ _) s Q :=
  tracks_expect h hmiss (fun _ _ look => by cases look <;> rfl) htake hQ

/-! ## Lists in brackets -/

variable {b : Brackets} {item : Parser σ α} {n fuel : Nat}

variable (names ending V b item n) in
/-- How the machine goes through a list whose items `item` reads: the configurations in front of an
item and behind one, given the items before in reverse, and the one behind the list. -/
structure ListForm where
  inside : List α → Config
  behind : α → List α → Config
  closed : List α → Span → Config
  /-- What is known of the token behind an item. -/
  free : Option Token → Prop
  inside_close (before : List α) (t : Token) (ht : t.isPunct b.closing = true) :
    (inside before).feed names (some t) = .ok (closed before.reverse t.span)
  behind_close (a : α) (before : List α) (t : Token) (ht : t.isPunct b.closing = true)
    (hfree : free (some t)) :
    (behind a before).feed names (some t) = .ok (closed (a :: before).reverse t.span)
  behind_separator (a : α) (before : List α) (t : Token) (ht : t.isPunct b.separator = true)
    (hfree : free (some t)) : (behind a before).feed names (some t) = .ok (inside (a :: before))
  behind_other (a : α) (before : List α) (look : Option Token) (hfree : free look)
    (hclose : look.any (·.isPunct b.closing) = false)
    (hseparator : look.any (·.isPunct b.separator) = false) :
    (behind a before).feed names look = .error (.noPunct b.separator)
  reads_item (before : List α) (s : σ) (m : Nat) (hm : m < n)
    (h : At names ending V (inside before)
      (fun tokens => tokens.length ≤ m ∧ ¬Next (·.isPunct b.closing) tokens) s) :
    Tracks V item s fun a s =>
      At names ending V (behind a before)
        (fun tokens => tokens.length < m ∧ free tokens.head?) s

/-- All items have been read and the closing bracket is next. -/
def ListForm.Found (L : ListForm names ending V b item n) (found : List α) (s : σ) : Prop :=
  ∃ c, At names ending V c (fun tokens => tokens.length < n ∧ Next (·.isPunct b.closing) tokens ∧
    c.feed names tokens.head? = .ok (L.closed found ((tokens.head?.map Token.span).getD .dummy))) s

theorem ListForm.found_inside (L : ListForm names ending V b item n) {before : List α} {t : Token}
    {rest : List Token} (h : Facing names ending V (L.inside before) P s (t :: rest))
    (ht : t.isPunct b.closing = true) (hlength : (t :: rest).length < n) :
    L.Found before.reverse s :=
  ⟨_, h.at ⟨hlength, ht, L.inside_close before t ht⟩⟩

theorem tracks_moreItems (L : ListForm names ending V b item n) (a : α) (before : List α) (m : Nat)
    (hm : m < n) (hfuel : m < fuel)
    (h : At names ending V (L.behind a before)
      (fun tokens => tokens.length ≤ m ∧ L.free tokens.head?) s) :
    Tracks V (moreItems b item fuel (a :: before)) s fun found s => L.Found found s := by
  induction fuel generalizing a before s m with
  | zero => omega
  | succ fuel ih =>
    refine tracks_bind (tracks_nextIsPunct h (fun s t rest hfacing ht => ?_)
      fun s tokens hfacing hno => ?_)
    · obtain ⟨hlength, hfree⟩ := hfacing.holds
      have hfeed := L.behind_close a before t ht hfree
      exact tracks_pure ⟨_, hfacing.at ⟨by omega, ht, hfeed⟩⟩
    -- no closing bracket behind the item, so there must be a separator
    have hat := hfacing.at (R := fun tokens => (tokens.length ≤ m ∧ L.free tokens.head?) ∧
      ¬Next (·.isPunct b.closing) tokens) ⟨hfacing.holds, hno⟩
    refine tracks_bind (tracks_expectPunct (d := fun _ => L.inside (a :: before)) hat
      (fun tokens hP hseparator => ?_)
      (fun t rest hP ht => L.behind_separator a before t ht hP.1.2) fun span s hs => ?_)
    · have hclose := Next.any_eq_false hP.2
      exact L.behind_other a before _ hP.1.2 hclose (Next.any_eq_false hseparator)
    -- behind a separator the list may end as well
    have hinside : At names ending V (L.inside (a :: before))
        (fun tokens => tokens.length + 1 ≤ m) s := by
      refine hs.imp ?_
      rintro rest ⟨t, hP⟩
      exact hP.1.1
    refine tracks_bind (tracks_nextIsPunct hinside (fun s t rest hfacing ht => ?_)
      fun s tokens hfacing hno => ?_)
    · have hlength : (t :: rest).length + 1 ≤ m := hfacing.holds
      exact tracks_pure (L.found_inside hfacing ht (by omega))
    · have hlength : tokens.length + 1 ≤ m := hfacing.holds
      have hitem := L.reads_item (a :: before) s (m - 1) (by omega)
        (hfacing.at ⟨by omega, hno⟩)
      refine tracks_bind (hitem.imp fun next s hs => ?_)
      have hbehind := hs.imp fun tokens hP =>
        (⟨Nat.le_of_lt hP.1, hP.2⟩ : tokens.length ≤ m - 1 ∧ L.free tokens.head?)
      exact ih next (a :: before) (m - 1) (by omega) (by omega) hbehind

theorem tracks_items (L : ListForm names ending V b item n) (m : Nat) (hm : m < n)
    (hfuel : m ≤ fuel) (h : At names ending V (L.inside []) (·.length ≤ m) s) :
    Tracks V (items b item fuel) s fun found s => L.Found found s := by
  refine tracks_bind (tracks_nextIsPunct h (fun s t rest hfacing ht => ?_)
    fun s tokens hfacing hno => ?_)
  · have hlength : (t :: rest).length ≤ m := hfacing.holds
    exact tracks_pure (L.found_inside hfacing ht (by omega))
  · refine tracks_bind ((L.reads_item [] s m hm (hfacing.at ⟨hfacing.holds, hno⟩)).imp
      fun a s hs => ?_)
    obtain ⟨tokens, htokens, hrun, hlength, hfree⟩ := hs
    exact tracks_moreItems L a [] (m - 1) (by omega) (by omega)
      ⟨tokens, htokens, hrun, by omega, hfree⟩

/-- A whole list, from the bracket that opens it. -/
theorem tracks_delimited (L : Span → ListForm names ending V b item n) (hfuel : n ≤ fuel + 1)
    (h : At names ending V c (fun tokens => tokens.length ≤ n ∧ P tokens) s)
    (hmiss : ∀ tokens, P tokens → ¬Next (·.isPunct b.opening) tokens →
      c.feed names tokens.head? = .error (.noPunct b.opening))
    (htake : ∀ t rest, P (t :: rest) → t.isPunct b.opening = true →
      c.feed names (some t) = .ok ((L t.span).inside [])) :
    Tracks V (delimited b item fuel) s fun result s => ∃ start stop,
      result.2 = start.merge stop ∧
        At names ending V ((L start).closed result.1 stop) (·.length < n) s := by
  refine tracks_bind (tracks_expectPunct (d := fun start => (L start).inside []) h
    (fun tokens hP => hmiss tokens hP.2) (fun t rest hP => htake t rest hP.2) fun start s hs => ?_)
  obtain ⟨m, hm, hinside⟩ := hs.behind
  refine tracks_bind ((tracks_items (L start) m hm (by omega) hinside).imp fun found s hfound => ?_)
  obtain ⟨c, hc⟩ := hfound
  refine tracks_bind (tracks_expectPunct (d := (L start).closed found) hc
    (fun tokens hP hno => absurd hP.2.1 hno)
    (fun t rest hP _ => hP.2.2) fun stop s hs => ?_)
  exact tracks_pure ⟨start, stop, rfl, hs.fewer fun t rest hP => Nat.le_of_lt hP.1⟩

end Grammar

end LambdaScript
