import LambdaScript.Proofs.Positions
import LambdaScript.Proofs.Transparency
/-!
# From requests for tokens to requests for characters

A parser has no other access to its source than to make requests of a token stream, and the token
stream makes requests of a character stream in turn (`CharStream.Leads`). Whatever these are, a
token is handed out together with an interner that holds its string, and it is held from then on
(`TokenStream.Sound`, `TokenStream.known_of_ask`).
-/

namespace LambdaScript

namespace CharStream

/-- Some requests lead from one stream to another. -/
def Leads (s s' : CharStream) : Prop := ∃ requests, s' = s.behindAll requests

theorem Leads.refl (s : CharStream) : s.Leads s := ⟨[], rfl⟩

theorem Leads.trans {s s' s'' : CharStream} (h : s.Leads s') (h' : s'.Leads s'') :
    s.Leads s'' := by
  obtain ⟨first, rfl⟩ := h
  obtain ⟨then', rfl⟩ := h'
  exact ⟨first ++ then', List.foldl_append.symm⟩

theorem leads_behind (s : CharStream) (r : Request) : s.Leads (s.behind r) := ⟨[r], rfl⟩

end CharStream

namespace Lexer

theorem leads_readString (l : Lexer) : l.chars.Leads l.readString.2.chars := by
  have hrun : l.chars.Leads (l.chars.next.2.eatWhile (· != quoteMark)).2 :=
    (l.chars.leads_behind .next).trans (CharStream.leads_behind _ (.eatWhile _))
  unfold readString
  dsimp only
  split
  · exact hrun
  · exact hrun.trans (CharStream.leads_behind _ .next)

theorem leads_readWord (l : Lexer) : l.chars.Leads l.readWord.2.chars := by
  unfold readWord
  dsimp only
  split
  · exact l.chars.leads_behind (.eatWhile isWordChar)
  · exact l.chars.leads_behind (.eatWhile isWordChar)

theorem leads_readKind (l : Lexer) (c : Char) : l.chars.Leads (l.readKind c).2.chars := by
  unfold readKind
  split
  · exact l.leads_readString
  split
  · exact l.chars.leads_behind (.eatWhile isDigit)
  split
  · exact l.leads_readWord
  split
  · exact l.chars.leads_behind .next
  split
  · exact l.chars.leads_behind (.eatWhile isOperatorChar)
  · exact .refl l.chars

/-- A token is read by requests for characters. -/
theorem leads_read (l : Lexer) : l.chars.Leads l.read.2.chars := by
  fun_induction read l with
  | case1 l chars hnil => exact l.chars.leads_behind (.eatWhile isBlank)
  | case2 l chars tail hcons ih =>
    have hblank : l.chars.Leads chars := l.chars.leads_behind (.eatWhile isBlank)
    exact (hblank.trans (chars.leads_behind .skipLine)).trans ih
  | case3 l chars c tail hcons hhash kind rest hkind =>
    have hblank : l.chars.Leads chars := l.chars.leads_behind (.eatWhile isBlank)
    have hread := leads_readKind ⟨chars, l.names⟩ c
    rw [hkind] at hread
    exact hblank.trans hread
  | case4 l chars c tail hcons hhash e rest hkind =>
    have hblank : l.chars.Leads chars := l.chars.leads_behind (.eatWhile isBlank)
    have hread := leads_readKind ⟨chars, l.names⟩ c
    rw [hkind] at hread
    exact hblank.trans hread

end Lexer

namespace TokenStream

/-- A stream that began at the characters `start`: it has read on by requests for characters, and
holds the string of the token that is kept, if there is one. -/
structure Sound (start : CharStream) (s : TokenStream) : Prop where
  reads : start.Leads s.lexer.chars
  consistent : s.names.Consistent
  kept : ∀ t, s.peeked = some (some t) → t.kind.Known s.names

variable {start : CharStream} {s : TokenStream} {r : Request} {t : Token}

/-- A step to another stream in which `found` came to be known: the next token, that there is none,
or why there is no telling. -/
structure Advances (s : TokenStream) (found : Except LexError (Option Token)) (s' : TokenStream) :
    Prop where
  reads : s.lexer.chars.Leads s'.lexer.chars
  consistent : s'.names.Consistent
  grows : s.names.Grows s'.names
  kept : ∀ t, s'.peeked = some (some t) → found = .ok (some t)
  known : ∀ t, found = .ok (some t) → t.kind.Known s'.names

theorem Sound.after (h : s.Sound start) {found : Except LexError (Option Token)}
    {s' : TokenStream} (hs' : s.Advances found s') : s'.Sound start where
  reads := h.reads.trans hs'.reads
  consistent := hs'.consistent
  kept t ht := hs'.known t (hs'.kept t ht)

theorem advances_of_read {l m : Lexer} {found : Option Token} {peeked : Option (Option Token)}
    (h : l.names.Consistent) (hread : l.read = (.ok found, m))
    (hpeeked : ∀ next, peeked = some next → next = found) :
    Advances ⟨l, none⟩ (.ok found) ⟨m, peeked⟩ := by
  have hnumbers := Lexer.numbers_read h
  have hreads := l.leads_read
  rw [hread] at hnumbers hreads
  refine ⟨hreads, hnumbers.consistent, hnumbers.grows, ?_, ?_⟩
  · intro t ht
    rw [hpeeked _ ht]
  · rintro t ht
    cases ht
    exact hnumbers.known _ rfl

theorem advances_of_read_error {l m : Lexer} {e : LexError} (h : l.names.Consistent)
    (hread : l.read = (.error e, m)) : Advances ⟨l, none⟩ (.error e) ⟨m, none⟩ := by
  have hnumbers := Lexer.numbers_read h
  have hreads := l.leads_read
  rw [hread] at hnumbers hreads
  exact ⟨hreads, hnumbers.consistent, hnumbers.grows, (fun t ht => nomatch ht),
    (fun t ht => nomatch ht)⟩

theorem Sound.advances_of_kept {l : Lexer} {found : Option Token}
    (h : Sound start ⟨l, some found⟩) {peeked : Option (Option Token)}
    (hpeeked : ∀ next, peeked = some next → next = found) :
    Advances ⟨l, some found⟩ (.ok found) ⟨l, peeked⟩ := by
  refine ⟨.refl _, h.consistent, .refl _, ?_, ?_⟩
  · intro t ht
    rw [hpeeked _ ht]
  · rintro t ht
    cases ht
    exact h.kept t rfl

/-- Every request is answered about the token that is found. -/
theorem Sound.exists_found (h : s.Sound start) (r : Request) :
    ∃ found, (s.ask r).1 = found.map r.answer ∧ s.Advances found (s.ask r).2 := by
  obtain ⟨l, _ | found⟩ := s
  · rcases hread : l.read with ⟨e | found, m⟩
    · rw [ask_of_read_error hread]
      exact ⟨.error e, rfl, advances_of_read_error h.consistent hread⟩
    · rw [ask_of_read hread]
      refine ⟨.ok found, rfl, ?_⟩
      show Advances _ _ (if r = .next then ⟨m, none⟩ else ⟨m, some found⟩)
      split
      · exact advances_of_read h.consistent hread fun next hnext => nomatch hnext
      · exact advances_of_read h.consistent hread fun next hnext => (Option.some.inj hnext).symm
  · rw [ask_of_kept]
    refine ⟨.ok found, rfl, ?_⟩
    show Advances _ _ (if r = .next then ⟨l, none⟩ else ⟨l, some found⟩)
    split
    · exact h.advances_of_kept fun next hnext => nomatch hnext
    · exact h.advances_of_kept fun next hnext => (Option.some.inj hnext).symm

theorem Sound.behindAll (h : s.Sound start) (requests : List Request) :
    (s.behindAll requests).Sound start ∧ s.names.Grows (s.behindAll requests).names := by
  induction requests using List.reverseRecOn with
  | nil => exact ⟨h, .refl _⟩
  | append_singleton requests r ih =>
    obtain ⟨hsound, hgrows⟩ := ih
    obtain ⟨found, -, hstep⟩ := hsound.exists_found r
    rw [behindAll_concat]
    exact ⟨hsound.after hstep, hgrows.trans hstep.grows⟩

end TokenStream

end LambdaScript
