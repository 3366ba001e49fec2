import LambdaScript.Proofs.Interning
import LambdaScript.Proofs.Pushdown
/-!
# Token sources as lists of tokens

`Presents names ending s tokens` says that the token source `s` hands out the list `tokens` and ends
as `ending` tells: at an offset, or with a lexical error. The tokens are spelled by `names`, the
interner behind the last of them. `Looking` is the same of a source whose next token has been looked
at, which is how the grammar leaves it when it stops.
-/

namespace LambdaScript

/-- The number of the string that a token holds, if it holds one. -/
def TokenKind.name? : TokenKind → Option Name
  | string name | identifier name | operator name => some name
  | number _ | keyword _ | punct _ => none

/-- Two interners spell what a token holds alike. -/
def SpelledAlike (names later : Interner) (kind : TokenKind) : Prop :=
  ∀ n, kind.name? = some n → later.spelling n = names.spelling n

theorem SpelledAlike.describe_eq {names later : Interner} {kind : TokenKind}
    (h : SpelledAlike names later kind) : kind.describe names = kind.describe later := by
  cases kind with
  | number value => rfl
  | string name => simp only [TokenKind.describe, h name rfl]
  | identifier name => simp only [TokenKind.describe, h name rfl]
  | keyword word => rfl
  | punct mark => rfl
  | operator name => simp only [TokenKind.describe, h name rfl]

variable {σ : Type} [TokenSource σ] {names : Interner} {ending : Except LexError Nat}

/-- The source hands out these tokens and then ends. -/
inductive Presents (names : Interner) (ending : Except LexError Nat) : σ → List Token → Prop where
  | token {s looked behind : σ} {t : Token} {rest : List Token} :
      TokenSource.peek s = (.ok (some t), looked) →
      TokenSource.peek looked = (.ok (some t), looked) →
      TokenSource.next looked = (.ok (some t), behind) →
      SpelledAlike (TokenSource.names looked) names t.kind →
      Presents names ending behind rest → Presents names ending s (t :: rest)
  | stop {s looked : σ} :
      TokenSource.peek s = (.ok none, looked) →
      TokenSource.peek looked = (.ok none, looked) →
      ending = .ok (TokenSource.offset looked) →
      TokenSource.names looked = names → Presents names ending s []
  | broken {s looked : σ} {e : LexError} :
      TokenSource.peek s = (.error e, looked) → ending = .error e → Presents names ending s []

/-- The next token has been looked at, or that there is none. -/
inductive Looking (names : Interner) (ending : Except LexError Nat) : σ → List Token → Prop where
  | token {s behind : σ} {t : Token} {rest : List Token} :
      TokenSource.peek s = (.ok (some t), s) →
      TokenSource.next s = (.ok (some t), behind) →
      SpelledAlike (TokenSource.names s) names t.kind →
      Presents names ending behind rest → Looking names ending s (t :: rest)
  | stop {s : σ} :
      TokenSource.peek s = (.ok none, s) →
      ending = .ok (TokenSource.offset s) →
      TokenSource.names s = names → Looking names ending s []

theorem Looking.presents {s : σ} {tokens : List Token} (h : Looking names ending s tokens) :
    Presents names ending s tokens := by
  cases h with
  | token hpeek hnext halike hrest => exact .token hpeek hpeek hnext halike hrest
  | stop hpeek hending hnames => exact .stop hpeek hpeek hending hnames

theorem Looking.alike {s : σ} {t : Token} {rest : List Token}
    (h : Looking names ending s (t :: rest)) :
    SpelledAlike (TokenSource.names s) names t.kind := by
  cases h with
  | token _ _ halike _ => exact halike

/-- Looking at the next token of a source either shows it or meets the lexical error. -/
theorem Presents.peek {s : σ} {tokens : List Token} (h : Presents names ending s tokens) :
    (∃ looked, TokenSource.peek s = (.ok tokens.head?, looked) ∧
      Looking names ending looked tokens) ∨
    (∃ e looked, TokenSource.peek s = (.error e, looked) ∧ tokens = [] ∧ ending = .error e) := by
  cases h with
  | token hpeek hstable hnext halike hrest =>
    exact .inl ⟨_, hpeek, .token hstable hnext halike hrest⟩
  | stop hpeek hstable hending hnames =>
    exact .inl ⟨_, hpeek, .stop hstable hending hnames⟩
  | broken hpeek hending => exact .inr ⟨_, _, hpeek, rfl, hending⟩

/-- The size of a source bounds the number of its tokens. -/
theorem Presents.length_le_size {s : σ} {tokens : List Token} (h : Presents names ending s tokens) :
    tokens.length ≤ TokenSource.size s := by
  induction h with
  | @token s looked behind t rest hpeek hstable hnext _ _ ih =>
    have hlt : TokenSource.size behind < TokenSource.size s := by
      have hnext' := (TokenSource.next_peek s t (by rw [hpeek])).2
      rwa [hpeek, hnext] at hnext'
    rw [List.length_cons]
    omega
  | stop => exact Nat.zero_le _
  | broken => exact Nat.zero_le _

/-- A list of tokens presents itself. -/
theorem TokenList.presents (tokens : List Token) :
    Presents names ending (⟨tokens, ending, names⟩ : TokenList) tokens := by
  induction tokens with
  | nil =>
    cases hending : ending with
    | ok offset => exact .stop rfl rfl rfl rfl
    | error e => exact .broken rfl rfl
  | cons t rest ih => exact .token rfl rfl rfl (fun _ _ => rfl) ih

end LambdaScript
