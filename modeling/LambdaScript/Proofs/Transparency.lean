import LambdaScript.Proofs.Lexemes
/-!
# Looking ahead changes nothing

A token stream can be asked for the next token, to be looked at or to be taken, and whether there is
one. However such requests are mixed, the tokens that are taken are those of the source in order,
and the other requests are answered about the token that is taken next (`lookahead_transparent`).

The invariant is that a stream `Holds` some tokens: the one that it keeps, if it does, and those
that its lexer has still to read. A request that fails leaves no token kept. The lexer then stands
in front of the character that begins no token, or at the end of the source if a string was not
closed.
-/

namespace LambdaScript

/-! ## Reading the first token -/

namespace Lexer

variable {l m : Lexer} {tokens : List Token} {t : Token} {e : LexError} {offset : Nat}

theorem exists_read_of_cons (h : l.scan.tokens = t :: tokens) :
    ∃ m, l.read = (.ok (some t), m) ∧ m.scan.tokens = tokens ∧
      m.scan.ending = l.scan.ending := by
  rcases hread : l.read with ⟨_ | _ | u, m⟩
  · rw [scan_of_error hread] at h
    contradiction
  · rw [scan_of_end hread] at h
    contradiction
  · rw [scan_of_token hread] at h ⊢
    cases h
    exact ⟨m, rfl, rfl, rfl⟩

theorem exists_read_of_end (h : l.scan.tokens = []) (hending : l.scan.ending = .ok offset) :
    ∃ m, l.read = (.ok none, m) ∧ m.chars.offset = offset := by
  rcases hread : l.read with ⟨_ | _ | u, m⟩
  · rw [scan_of_error hread] at hending
    contradiction
  · rw [scan_of_end hread] at hending
    cases hending
    exact ⟨m, rfl, rfl⟩
  · rw [scan_of_token hread] at h
    contradiction

theorem exists_read_of_error (h : l.scan.tokens = []) (hending : l.scan.ending = .error e) :
    ∃ m, l.read = (.error e, m) := by
  rcases hread : l.read with ⟨_ | _ | u, m⟩
  · rw [scan_of_error hread] at hending
    cases hending
    exact ⟨m, rfl⟩
  · rw [scan_of_end hread] at hending
    contradiction
  · rw [scan_of_token hread] at h
    contradiction

theorem read_of_rest_eq_nil (h : l.chars.rest = []) : l.read = (.ok none, l) := by
  obtain ⟨⟨text, p⟩, names⟩ := l
  subst h
  exact read_nil p names

/-! ## Failures -/

/-- A stray character is left where it is; an open string is read to the end of the source. -/
theorem readKind_error {c : Char} (h : l.readKind c = (.error e, m)) :
    (e = l.chars.fail (.invalidCharacter c) ∧ m = l) ∨
      (e.fault = .unterminatedString ∧ m.chars.rest = []) := by
  unfold readKind at h
  split at h
  · unfold readString at h
    split at h
    next contents chars heat =>
    split at h
    · next hnil =>
      cases h
      exact .inr ⟨rfl, hnil⟩
    · cases h
  split at h
  · cases h
  split at h
  · cases h
  split at h
  · cases h
  split at h
  · cases h
  · cases h
    exact .inl ⟨rfl, rfl⟩

/-- Where the lexer stands behind a failure: it fails again, or has come to the end. -/
theorem read_error (h : l.read = (.error e, m)) :
    (∃ c, e.fault = .invalidCharacter c ∧ m.read = (.error e, m)) ∨
      (e.fault = .unterminatedString ∧ m.chars.rest = []) := by
  fun_induction read l with
  | case1 l chars hnil => cases h
  | case2 l chars tail hcons ih => exact ih h
  | case3 l chars c tail hcons hhash kind rest hkind => cases h
  | case4 l chars c tail hcons hhash e' rest hkind =>
    cases h
    refine (readKind_error hkind).imp_left ?_
    rintro ⟨rfl, rfl⟩
    have heaten : l.chars.eatWhile isBlank = (_, chars) := rfl
    have hblank : isBlank c = false := by
      obtain ⟨-, -, hstop, -⟩ := CharStream.eatWhile_spec heaten
      exact hstop c (by rw [hcons]; rfl)
    refine ⟨c, rfl, ?_⟩
    generalize chars = s at hcons hkind
    obtain ⟨text, p⟩ := s
    obtain rfl : text = c :: tail := hcons
    rw [read_of_start hblank hhash, hkind]
    rfl

end Lexer

/-! ## Requests -/

namespace TokenStream

/-- What can be asked of a token stream. -/
inductive Request where
  | peek
  | next
  | atEnd
deriving DecidableEq

/-- A token or none, or whether there is none. -/
inductive Answer where
  | token (t : Option Token)
  | verdict (isEnd : Bool)

/-- What a request is answered if this is the next token. -/
def Request.answer : Request → Option Token → Answer
  | peek, t | next, t => .token t
  | atEnd, t => .verdict t.isNone

/-- The answer to a request, and the stream behind it. -/
def ask (s : TokenStream) : Request → Except LexError Answer × TokenStream
  | .peek => (s.peek.1.map .token, s.peek.2)
  | .next => (s.next.1.map .token, s.next.2)
  | .atEnd => (s.atEnd.1.map .verdict, s.atEnd.2)

/-- The stream behind the answers to some requests. -/
def behindAll (s : TokenStream) (requests : List Request) : TokenStream :=
  requests.foldl (fun s r => (s.ask r).2) s

/-- One of the requests fails. -/
def Fails (s : TokenStream) (requests : List Request) : Prop :=
  ∃ earlier r e, earlier ++ [r] <+: requests ∧ ((s.behindAll earlier).ask r).1 = .error e

variable {s s' : TokenStream} {requests : List Request} {r : Request} {e : LexError}
  {tokens : List Token} {t : Token} {ending : Except LexError Nat}

theorem behindAll_concat (s : TokenStream) (requests : List Request) (r : Request) :
    s.behindAll (requests ++ [r]) = ((s.behindAll requests).ask r).2 := by
  rw [behindAll, List.foldl_append]
  rfl

theorem fails_concat : s.Fails (requests ++ [r]) ↔
    s.Fails requests ∨ ∃ e, ((s.behindAll requests).ask r).1 = .error e := by
  simp only [Fails, List.prefix_concat_iff]
  constructor
  · rintro ⟨earlier, u, e, heq | hprefix, he⟩
    · obtain ⟨rfl, hu⟩ := List.append_inj' heq rfl
      cases hu
      exact .inr ⟨e, he⟩
    · exact .inl ⟨earlier, u, e, hprefix, he⟩
  · rintro (⟨earlier, u, e, hprefix, he⟩ | ⟨e, he⟩)
    · exact ⟨earlier, u, e, .inr hprefix, he⟩
    · exact ⟨requests, r, e, .inl rfl, he⟩

theorem not_fails_nil (s : TokenStream) : ¬s.Fails [] := by
  rintro ⟨earlier, r, e, hprefix, -⟩
  simpa using List.prefix_nil.mp hprefix

/-! ## The tokens that are left -/

/-- The tokens that a stream has still to hand out: the one that it keeps, and those that its lexer
has still to read. That the source is at its end may be kept too. -/
inductive Holds (ending : Except LexError Nat) : TokenStream → List Token → Prop where
  | fresh {l : Lexer} (hending : l.scan.ending = ending) : Holds ending ⟨l, none⟩ l.scan.tokens
  | kept {l : Lexer} {t : Token} (hending : l.scan.ending = ending) :
      Holds ending ⟨l, some (some t)⟩ (t :: l.scan.tokens)
  | stopped {l : Lexer} (hrest : l.chars.rest = []) (hending : ending = .ok l.chars.offset) :
      Holds ending ⟨l, some none⟩ []

theorem holds_of_rest_eq_nil {l : Lexer} (h : l.chars.rest = []) :
    Holds (.ok l.chars.offset) ⟨l, none⟩ [] := by
  have hread := Lexer.read_of_rest_eq_nil h
  have hending : l.scan.ending = .ok l.chars.offset := by rw [Lexer.scan_of_end hread]
  have hfresh := Holds.fresh hending
  rwa [Lexer.scan_of_end hread] at hfresh

theorem ask_of_kept {l : Lexer} (t : Option Token) (r : Request) :
    ask ⟨l, some t⟩ r =
      (.ok (r.answer t), if r = .next then ⟨l, none⟩ else ⟨l, some t⟩) := by
  cases r <;> rfl

theorem ask_of_read {l m : Lexer} {t : Option Token} (h : l.read = (.ok t, m)) (r : Request) :
    ask ⟨l, none⟩ r = (.ok (r.answer t), if r = .next then ⟨m, none⟩ else ⟨m, some t⟩) := by
  cases r <;> simp [ask, peek, next, atEnd, h, Except.map, Request.answer]

theorem ask_of_read_error {l m : Lexer} (h : l.read = (.error e, m)) (r : Request) :
    ask ⟨l, none⟩ r = (.error e, ⟨m, none⟩) := by
  cases r <;> simp [ask, peek, next, atEnd, h, Except.map]

/-- As long as there are tokens, every request is answered about the first one, and only `next`
takes it. -/
theorem Holds.ask_of_cons (h : s.Holds ending (t :: tokens)) (r : Request) :
    ∃ s', s.ask r = (.ok (r.answer (some t)), s') ∧
      s'.Holds ending (if r = .next then tokens else t :: tokens) := by
  generalize hleft : t :: tokens = left at h
  cases h with
  | @fresh l hending =>
    obtain ⟨m, hread, rfl, hsame⟩ := Lexer.exists_read_of_cons hleft.symm
    refine ⟨_, ask_of_read hread r, ?_⟩
    rw [hending] at hsame
    split
    · exact .fresh hsame
    · rw [← hleft]
      exact .kept hsame
  | @kept l _ hending =>
    cases hleft
    refine ⟨_, ask_of_kept (some t) r, ?_⟩
    split
    · exact .fresh hending
    · exact .kept hending
  | stopped => contradiction

/-- At the end of the source every request is told so. -/
theorem Holds.ask_of_end {offset : Nat} (h : s.Holds (.ok offset) []) (r : Request) :
    ∃ s', s.ask r = (.ok (r.answer none), s') ∧ s'.Holds (.ok offset) [] := by
  have hstays : ∀ {l : Lexer}, l.chars.rest = [] → l.chars.offset = offset →
      Holds (.ok offset) (if r = .next then ⟨l, none⟩ else ⟨l, some none⟩) [] := by
    rintro l hrest rfl
    split
    · exact holds_of_rest_eq_nil hrest
    · exact .stopped hrest rfl
  generalize hleft : [] = left at h
  cases h with
  | @fresh l hending =>
    obtain ⟨m, hread, hoffset⟩ := Lexer.exists_read_of_end hleft.symm hending
    exact ⟨_, ask_of_read hread r, hleft ▸ hstays (Lexer.rest_of_read_none hread) hoffset⟩
  | kept => contradiction
  | @stopped l hrest hending =>
    cases hending
    exact ⟨_, ask_of_kept none r, hstays hrest rfl⟩

/-- Where there are no more tokens and the source cannot be cut further, every request fails. -/
theorem Holds.ask_of_error (h : s.Holds (.error e) []) (r : Request) :
    ∃ (l m : Lexer), l.read = (.error e, m) ∧ s.ask r = (.error e, ⟨m, none⟩) := by
  generalize hleft : [] = left at h
  cases h with
  | @fresh l hending =>
    obtain ⟨m, hread⟩ := Lexer.exists_read_of_error hleft.symm hending
    exact ⟨l, m, hread, ask_of_read_error hread r⟩
  | kept => contradiction
  | stopped hrest hending => contradiction

/-- The stream has failed with `e`: it fails again and stays as it is, or it has come to the end. -/
inductive Broken (e : LexError) : TokenStream → Prop where
  | stray {l : Lexer} {c : Char} (hfault : e.fault = .invalidCharacter c)
      (hread : l.read = (.error e, l)) : Broken e ⟨l, none⟩
  | unclosed {s : TokenStream} {offset : Nat} (hfault : e.fault = .unterminatedString)
      (h : s.Holds (.ok offset) []) : Broken e s

theorem broken_of_read_error {l m : Lexer} (h : l.read = (.error e, m)) : Broken e ⟨m, none⟩ := by
  rcases Lexer.read_error h with ⟨c, hfault, hread⟩ | ⟨hfault, hrest⟩
  · exact .stray hfault hread
  · exact .unclosed hfault (holds_of_rest_eq_nil hrest)

/-- How a stream answers that has failed with `e`. -/
def AnswersBroken (e : LexError) (s : TokenStream) (r : Request) : Prop :=
  match e.fault with
  | .invalidCharacter _ => s.ask r = (.error e, s)
  | .unterminatedString => (s.ask r).1 = .ok (r.answer none)

theorem Broken.ask (h : Broken e s) (r : Request) :
    AnswersBroken e s r ∧ Broken e (s.ask r).2 := by
  unfold AnswersBroken
  cases h with
  | stray hfault hread =>
    rw [hfault, ask_of_read_error hread]
    exact ⟨rfl, .stray hfault hread⟩
  | unclosed hfault h =>
    obtain ⟨s', hask, h'⟩ := h.ask_of_end r
    rw [hfault, hask]
    exact ⟨rfl, .unclosed hfault h'⟩

/-! ## Many requests -/

/-- Only `next` takes a token. -/
theorem drop_count_concat (tokens : List Token) (requests : List Request) (r : Request) :
    tokens.drop ((requests ++ [r]).count .next) =
      if r = .next then (tokens.drop (requests.count .next)).tail
      else tokens.drop (requests.count .next) := by
  rw [List.count_append, List.tail_drop]
  cases r <;> rfl

theorem Holds.ask_of_ok {offset : Nat} (h : s.Holds (.ok offset) tokens) (r : Request) :
    (s.ask r).1 = .ok (r.answer tokens.head?) ∧
      (s.ask r).2.Holds (.ok offset) (if r = .next then tokens.tail else tokens) := by
  cases tokens with
  | nil =>
    obtain ⟨s', hask, h'⟩ := h.ask_of_end r
    rw [hask]
    exact ⟨rfl, by simpa using h'⟩
  | cons t tokens =>
    obtain ⟨s', hask, h'⟩ := h.ask_of_cons r
    rw [hask]
    exact ⟨rfl, h'⟩

theorem Holds.behindAll_of_ok {offset : Nat} (h : s.Holds (.ok offset) tokens)
    (requests : List Request) :
    (s.behindAll requests).Holds (.ok offset) (tokens.drop (requests.count .next)) := by
  induction requests using List.reverseRecOn with
  | nil => exact h
  | append_singleton requests r ih =>
    rw [behindAll_concat, drop_count_concat]
    exact (ih.ask_of_ok r).2

/-- If the source cannot be cut into tokens, then either nothing has failed yet, or the stream is
broken. -/
theorem Holds.behindAll_of_error (h : s.Holds (.error e) tokens) (requests : List Request) :
    (¬s.Fails requests ∧ requests.count .next ≤ tokens.length ∧
        (s.behindAll requests).Holds (.error e) (tokens.drop (requests.count .next))) ∨
      (s.Fails requests ∧ Broken e (s.behindAll requests)) := by
  induction requests using List.reverseRecOn with
  | nil => exact .inl ⟨not_fails_nil s, Nat.zero_le _, h⟩
  | append_singleton requests r ih =>
    rw [behindAll_concat, fails_concat, drop_count_concat]
    rcases ih with ⟨hsound, hcount, hnow⟩ | ⟨hfailed, hbroken⟩
    · cases hleft : tokens.drop (requests.count .next) with
      | nil =>
        rw [hleft] at hnow
        obtain ⟨l, m, hread, hask⟩ := hnow.ask_of_error r
        rw [hask]
        exact .inr ⟨.inr ⟨e, rfl⟩, broken_of_read_error hread⟩
      | cons t left =>
        rw [hleft] at hnow
        obtain ⟨s', hask, h'⟩ := hnow.ask_of_cons r
        rw [hask]
        refine .inl ⟨?_, ?_, h'⟩
        · rintro (hfails | ⟨e', he'⟩)
          · exact hsound hfails
          · contradiction
        · have hlength := congrArg List.length hleft
          rw [List.length_drop, List.length_cons] at hlength
          have hone : [r].count .next ≤ 1 := List.count_le_length
          rw [List.count_append]
          omega
    · exact .inr ⟨.inl hfailed, (hbroken.ask r).2⟩

end TokenStream

open TokenStream in
/-- Looking ahead changes nothing: behind any requests, of which `k` took a token, every request is
answered about the token at `k`. If the source cannot be cut into tokens, then a request fails as
soon as all tokens in front of the error are taken, and with that error. Behind a failure, a
character that begins no token makes every request fail in the same way and change nothing; a string
that is not closed has been read, and every request is answered as at the end of the source. -/
theorem lookahead_transparent (source : String) (names : Interner) (requests : List Request)
    (r : Request) :
    let s := TokenStream.ofString source names
    let now := s.behindAll requests
    let k := requests.count .next
    (∀ tokens names', lex source names = (.ok tokens, names') →
        (now.ask r).1 = .ok (r.answer tokens[k]?)) ∧
      ∀ e, (lex source names).1 = .error e →
        (¬s.Fails requests →
          (∀ t, (scanSource source names).tokens[k]? = some t →
            (now.ask r).1 = .ok (r.answer (some t))) ∧
          ((scanSource source names).tokens[k]? = none →
            (now.ask r).1 = .error e ∧ k = (scanSource source names).tokens.length)) ∧
        (s.Fails requests → AnswersBroken e now r) := by
  intro s now k
  have hfresh {ending : Except LexError Nat} (h : (scanSource source names).ending = ending) :
      s.Holds ending (scanSource source names).tokens := .fresh h
  constructor
  · intro tokens names' h
    obtain ⟨offset, hscan⟩ := lex_eq_ok_iff.mp h
    have hending : (scanSource source names).ending = .ok offset := by rw [hscan]
    have hnow := (hfresh hending).behindAll_of_ok requests
    rw [(hnow.ask_of_ok r).1, hscan, List.head?_drop]
  · intro e h
    have hending := ending_of_lex_error h
    rcases (hfresh hending).behindAll_of_error requests with
      ⟨hsound, hcount, hnow⟩ | ⟨hfailed, hbroken⟩
    · refine ⟨fun _ => ⟨fun t ht => ?_, fun hnone => ?_⟩, fun hfailed => absurd hfailed hsound⟩
      · rw [← List.head?_drop, List.head?_eq_some_iff] at ht
        obtain ⟨left, hleft⟩ := ht
        rw [hleft] at hnow
        obtain ⟨s', hask, -⟩ := hnow.ask_of_cons r
        rw [hask]
      · have hend := List.getElem?_eq_none_iff.mp hnone
        rw [List.drop_of_length_le hend] at hnow
        obtain ⟨l, m, -, hask⟩ := hnow.ask_of_error r
        rw [hask]
        exact ⟨rfl, Nat.le_antisymm hcount hend⟩
    · exact ⟨fun hsound => absurd hfailed hsound, fun _ => (hbroken.ask r).1⟩

open TokenStream in
/-- Behind a look at the first of two tokens, the taking of it and a look for the end, the second
one is taken. In front of a character that begins no token and of a string that is not closed,
already the first request fails; then the one source goes on failing, and the other one is at its
end. -/
theorem lookahead_transparent_stray :
    (∃ t, (((TokenStream.ofString "1 2" .fresh).behindAll [.peek, .next, .atEnd]).ask .next).1 =
        .ok (.token (some t)) ∧ t.span = ⟨2, 3⟩) ∧
    (let s := TokenStream.ofString "@" .fresh
      ∃ e, (lex "@" .fresh).1 = .error e ∧ (s.ask .atEnd).1 = .error e ∧
        (s.behindAll [.atEnd]).ask .peek = (.error e, s.behindAll [.atEnd])) ∧
    (let s := TokenStream.ofString "\x22a" .fresh
      ∃ e, (lex "\x22a" .fresh).1 = .error e ∧ (s.ask .atEnd).1 = .error e ∧
        ((s.behindAll [.atEnd]).ask .peek).1 = .ok (.token none)) := by
  have hfails {s : TokenStream} {r : Request} {e : LexError} (h : (s.ask r).1 = .error e) :
      s.Fails [r] := ⟨[], r, e, List.prefix_rfl, h⟩
  refine ⟨?_, ?_, ?_⟩
  · have hlex : lex "1 2" .fresh =
        (.ok (scanSource "1 2" .fresh).tokens, (scanSource "1 2" .fresh).names) := by
      with_unfolding_all rfl
    have hnext := (lookahead_transparent "1 2" .fresh [.peek, .next, .atEnd] .next).1 _ _ hlex
    obtain ⟨t, ht, hspan⟩ : ∃ t, (scanSource "1 2" .fresh).tokens[1]? = some t ∧ t.span = ⟨2, 3⟩ :=
      Option.map_eq_some_iff.mp (by decide +kernel)
    exact ⟨t, hnext.trans (congrArg (Except.ok ∘ Answer.token) ht), hspan⟩
  · have hlex : (lex "@" .fresh).1 = .error ⟨.invalidCharacter '@', 1, 0, 0⟩ := by
      with_unfolding_all rfl
    have hstray := ((lookahead_transparent "@" .fresh [] .atEnd).2 _ hlex).1 (not_fails_nil _)
    have herror := (hstray.2 (by with_unfolding_all rfl)).1
    exact ⟨_, hlex, herror,
      ((lookahead_transparent "@" .fresh [.atEnd] .peek).2 _ hlex).2 (hfails herror)⟩
  · have hlex : (lex "\x22a" .fresh).1 = .error ⟨.unterminatedString, 1, 2, 2⟩ := by
      with_unfolding_all rfl
    have hopen := ((lookahead_transparent "\x22a" .fresh [] .atEnd).2 _ hlex).1 (not_fails_nil _)
    have herror := (hopen.2 (by with_unfolding_all rfl)).1
    exact ⟨_, hlex, herror,
      ((lookahead_transparent "\x22a" .fresh [.atEnd] .peek).2 _ hlex).2 (hfails herror)⟩

end LambdaScript
