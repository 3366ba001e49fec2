import LambdaScript.Grammar.Totality
import LambdaScript.Proofs.Taking
/-!
# Lists in brackets

Blocks, arguments and parameters are read by one parser, `delimited`. What it accepts is a `Listed`
form: an opening bracket, a `Row` of items with one separator between two neighbours, at most one
more separator behind a row, and a closing bracket. When it fails, the list was in form up to some
place, `Due` tells what had to follow there, and the error is the one that this was missing
(`Grammar.lists_read`). The closing bracket is due nowhere: where a list may be closed an item or a
separator may follow instead, and it is these that are missed.
-/

namespace LambdaScript

/-! ## Punctuation in front -/

namespace TokenStream

/-- The next token is this punctuation, at this span, and `t` is the stream behind it. -/
def Takes (p : Punct) (s : TokenStream) (span : Span) (t : TokenStream) : Prop :=
  s.next = (.ok (some ⟨.punct p, span⟩), t)

/-- The next token is this punctuation. -/
def Shows (p : Punct) (s : TokenStream) : Prop := ∃ span t, s.Takes p span t

/-- What is reported if this punctuation is expected and does not follow, and the stream then: there
is another token, or none, or the source cannot be cut into tokens here. -/
inductive Lacks (p : Punct) (s : TokenStream) : SyntaxError → TokenStream → Prop
  | other {token t} (hpeek : s.peek = (.ok (some token), t)) (hkind : token.kind ≠ .punct p) :
      Lacks p s (.grammatical
        ⟨.mismatch ("`" ++ toString p ++ "`") (token.kind.describe t.names), token.span⟩) t
  | ended {t} (hpeek : s.peek = (.ok none, t)) :
      Lacks p s (.grammatical ⟨.unexpectedEnd ("`" ++ toString p ++ "`"), .point t.offset⟩) t
  | unread {e t} (hpeek : s.peek = (.error e, t)) : Lacks p s (.lexical e) t

variable {p : Punct} {s t u : TokenStream} {look : Option Token} {span : Span}

/-- The token that is taken is the one that would be shown. -/
theorem next_eq (s : TokenStream) : s.next = (s.peek.1, ⟨s.peek.2.lexer, none⟩) := by
  unfold next peek
  split
  · rfl
  · rcases s.lexer.read with ⟨_ | _, _⟩ <;> rfl

theorem takes_of_peek (h : s.peek = (.ok look, t)) : s.Takes p span u ↔ t.Takes p span u := by
  rw [Takes, Takes, next_eq s, next_eq t, h, peek_peek h]

theorem peek_of_takes (h : s.Takes p span t) :
    ∃ u, s.peek = (.ok (some ⟨.punct p, span⟩), u) := by
  rw [Takes, next_eq] at h
  have hlook : s.peek.1 = .ok (some ⟨.punct p, span⟩) := congrArg Prod.fst h
  exact ⟨s.peek.2, Prod.ext hlook rfl⟩

theorem shows_of_peek (h : s.peek = (.ok look, t)) :
    s.Shows p ↔ look.any (·.isPunct p) = true := by
  constructor
  · rintro ⟨span, u, htakes⟩
    obtain ⟨v, hpeek⟩ := peek_of_takes htakes
    rw [h] at hpeek
    cases hpeek
    exact beq_self_eq_true p
  · intro hany
    rcases look with _ | ⟨kind, span⟩
    · contradiction
    · obtain rfl : kind = .punct p := Token.isPunct_iff.mp hany
      refine ⟨span, ⟨t.lexer, none⟩, ?_⟩
      rw [Takes, next_eq, h]

theorem not_shows_of_error {e : LexError} (h : s.peek = (.error e, t)) : ¬s.Shows p := by
  rintro ⟨span, u, htakes⟩
  obtain ⟨v, hpeek⟩ := peek_of_takes htakes
  rw [h] at hpeek
  cases hpeek

end TokenStream

namespace Parser

open TokenStream

variable {α β : Type} {p : Punct} {s t u v : TokenStream} {look : Option Token} {span : Span}
  {e : SyntaxError}

/-! ## Parsers that look at the next token first -/

/-- The parser looks at the next token before all else. -/
structure LooksFirst (x : Parser TokenStream α) : Prop where
  of_ok : ∀ s look t, s.peek = (.ok look, t) → x s = x t
  of_error : ∀ s e t, s.peek = (.error e, t) → x s = .failed (.lexical e) t

theorem looksFirst_peek : LooksFirst (peek : Parser TokenStream _) where
  of_ok s look t h := by rw [peek_of_ok h, peek_of_ok (peek_peek h)]
  of_error s e t h := peek_of_error h

theorem LooksFirst.bind {x : Parser TokenStream α} (h : LooksFirst x)
    (f : α → Parser TokenStream β) : LooksFirst (x >>= f) where
  of_ok s look t hpeek := by rw [Run.bind_apply, Run.bind_apply, h.of_ok s look t hpeek]
  of_error s e t hpeek := Run.bind_of_failed (h.of_error s e t hpeek)

theorem looksFirst_expectPunct (p : Punct) : LooksFirst (expectPunct p : Parser TokenStream _) :=
  looksFirst_peek.bind _

/-- Where a punctuation does not follow, it does no harm to look for it first. -/
theorem unless_of_not_shows {x : Parser TokenStream α} (hx : LooksFirst x) (h : ¬s.Shows p)
    (a : α) : (do if ← nextIsPunct p then return a else x) s = x s := by
  rcases hpeek : s.peek with ⟨e | look, t⟩
  · rw [hx.of_error s e t hpeek]
    exact Run.bind_of_failed (Run.bind_of_failed (peek_of_error hpeek))
  · have hany : look.any (·.isPunct p) = false :=
      Bool.eq_false_iff.mpr fun hany => h ((shows_of_peek hpeek).mpr hany)
    rw [Run.bind_of_done (nextIsPunct_of_ok hpeek p), hany, hx.of_ok s look t hpeek]
    rfl

theorem unless_of_peek {x : Parser TokenStream α}
    (h : s.peek = (.ok (some ⟨.punct p, span⟩), t)) (a : α) :
    (do if ← nextIsPunct p then return a else x) s = .done a t := by
  have hany : (some (⟨.punct p, span⟩ : Token)).any (·.isPunct p) = true := beq_self_eq_true p
  rw [Run.bind_of_done (nextIsPunct_of_ok h p), hany]
  rfl

/-! ## Punctuation that is expected -/

theorem expectPunct_of_takes (h : s.Takes p span t) :
    (expectPunct p : Parser TokenStream _) s = .done span t := by
  obtain ⟨u, hpeek⟩ := peek_of_takes h
  have hpunct : (⟨.punct p, span⟩ : Token).isPunct p = true := beq_self_eq_true p
  rw [expectPunct, expect, Run.bind_of_done (peek_of_ok hpeek)]
  dsimp only
  rw [if_pos hpunct, Run.bind_of_done (advance_of_ok ((takes_of_peek hpeek).mp h))]
  rfl

theorem expectPunct_of_lacks (h : s.Lacks p e t) :
    (expectPunct p : Parser TokenStream _) s = .failed e t := by
  rw [expectPunct, expect]
  cases h with
  | @other token t hpeek hkind =>
    rw [Run.bind_of_done (peek_of_ok hpeek)]
    dsimp only
    rw [if_neg fun hpunct => hkind (Token.isPunct_iff.mp hpunct)]
    rfl
  | ended hpeek =>
    rw [Run.bind_of_done (peek_of_ok hpeek)]
    rfl
  | unread hpeek => exact Run.bind_of_failed (peek_of_error hpeek)

/-- A punctuation follows, or it lacks. -/
theorem takes_or_lacks (p : Punct) (s : TokenStream) :
    (∃ span t, s.Takes p span t) ∨ ∃ e t, s.Lacks p e t := by
  rcases hpeek : s.peek with ⟨e | _ | token, t⟩
  · exact .inr ⟨_, t, .unread hpeek⟩
  · exact .inr ⟨_, t, .ended hpeek⟩
  · by_cases hkind : token.kind = .punct p
    · obtain ⟨kind, span⟩ := token
      obtain rfl : kind = .punct p := hkind
      exact .inl ⟨span, _, (takes_of_peek hpeek).mpr (next_of_peeked (peeked_of_peek_eq hpeek))⟩
    · exact .inr ⟨_, t, .other hpeek hkind⟩

/-! ## The form of a list -/

section
variable (b : Brackets) (item : Parser TokenStream α)

/-- Items with one separator between two neighbours. -/
inductive Row (s : TokenStream) : List α → TokenStream → Prop
  | first {a t} (hitem : item s = .done a t) : Row s [a] t
  | next {as a t span u v} (hrow : Row s as t) (hseparator : t.Takes b.separator span u)
      (hitem : item u = .done a v) : Row s (as ++ [a]) v

/-- What stands between the brackets: nothing, or a row of items, with a separator behind it or
without. -/
inductive Body (s : TokenStream) : List α → TokenStream → Prop
  | empty : Body s [] s
  | row {as t} (hrow : Row b item s as t) : Body s as t
  | trailing {as t span u} (hrow : Row b item s as t) (hseparator : t.Takes b.separator span u) :
      Body s as u

/-- A list from bracket to bracket: its items and its span, and the stream behind it. -/
inductive Listed (s : TokenStream) : List α × Span → TokenStream → Prop
  | intro {as start t u stop v} (hopen : s.Takes b.opening start t) (hbody : Body b item t as u)
      (hclose : u.Takes b.closing stop v) : Listed s (as, start.merge stop) v

/-- What a list goes on with, if it is not closed. -/
inductive Place where
  | opening
  | item
  | separator
deriving DecidableEq

/-- The list that begins at `s` is in form up to `t`, where it goes on with this. -/
inductive Due (s : TokenStream) : Place → TokenStream → Prop
  | opening : Due s .opening s
  | first {start t} (hopen : s.Takes b.opening start t) : Due s .item t
  | separator {start t as u} (hopen : s.Takes b.opening start t) (hrow : Row b item t as u) :
      Due s .separator u
  | next {start t as u span v} (hopen : s.Takes b.opening start t) (hrow : Row b item t as u)
      (hseparator : u.Takes b.separator span v) : Due s .item v

/-- The list is not closed at `s` and does not go on with what is due there; what is reported then,
and the stream. -/
inductive Violated (s : TokenStream) : Place → SyntaxError → TokenStream → Prop
  | opening {e : SyntaxError} {t : TokenStream} (hlacks : s.Lacks b.opening e t) :
      Violated s .opening e t
  | separator {e : SyntaxError} {t : TokenStream} (hclose : ¬s.Shows b.closing)
      (hlacks : s.Lacks b.separator e t) : Violated s .separator e t
  | item {e : SyntaxError} {t : TokenStream} (hclose : ¬s.Shows b.closing)
      (hitem : item s = .failed e t) : Violated s .item e t

/-- The list that begins at `s` gets out of form; what is reported, and the stream then. -/
def Rejected (s : TokenStream) (e : SyntaxError) (t : TokenStream) : Prop :=
  ∃ place u, Due b item s place u ∧ Violated b item u place e t

/-- What lists need of the parser of their items: it looks at the next token first, and neither a
separator nor the closing bracket begins an item. -/
structure ReadsItems (refusal : String → ParseFault) : Prop where
  looksFirst : LooksFirst item
  refuses : ∀ p s span t, p = b.separator ∨ p = b.closing →
    s.peek = (.ok (some ⟨.punct p, span⟩), t) →
    item s = .failed (.grammatical ⟨refusal ("`" ++ toString p ++ "`"), span⟩) t
  separator_ne_closing : b.separator ≠ b.closing

end

section
variable {b : Brackets} {item : Parser TokenStream α} {refusal : String → ParseFault}
  {start : Span} {as before : List α}

/-! ## One round of the loop -/

theorem not_shows_closing_of_takes (h : ReadsItems b item refusal)
    (ht : t.Takes b.separator span u) : ¬t.Shows b.closing := by
  rintro ⟨span', u', hclose⟩
  rw [Takes, ht] at hclose
  injection hclose with hlook
  injection hlook with hlook
  injection hlook with htoken
  injection htoken with hkind
  injection hkind with hpunct
  exact h.separator_ne_closing hpunct

theorem not_shows_closing_of_item (h : ReadsItems b item refusal) {a : α}
    (ha : item t = .done a u) : ¬t.Shows b.closing := by
  rintro ⟨span, v, hclose⟩
  obtain ⟨w, hpeek⟩ := peek_of_takes hclose
  rw [h.refuses _ t span w (.inr rfl) hpeek] at ha
  cases ha

/-- A round of the loop where the list is not closed. -/
theorem moreItems_of_takes (h : ReadsItems b item refusal) (fuel : Nat) (before : List α)
    (ht : t.Takes b.separator span u) (hu : ¬u.Shows b.closing) :
    moreItems b item (fuel + 1) before t =
      (item >>= fun next => moreItems b item fuel (next :: before)) u := by
  have hfirst := looksFirst_expectPunct b.separator
  rw [moreItems]
  refine (unless_of_not_shows (hfirst.bind _) (not_shows_closing_of_takes h ht) _).trans ?_
  rw [Run.bind_of_done (expectPunct_of_takes ht)]
  exact unless_of_not_shows (h.looksFirst.bind _) hu _

/-- A round of the loop that finds the list closed. -/
theorem moreItems_of_peek (fuel : Nat) (before : List α)
    (ht : t.peek = (.ok (some ⟨.punct b.closing, span⟩), u)) :
    moreItems b item (fuel + 1) before t = .done before.reverse u := by
  rw [moreItems]
  exact unless_of_peek ht _

/-- A round of the loop that finds the list closed behind a separator. -/
theorem moreItems_of_takes_peek (h : ReadsItems b item refusal) (fuel : Nat) (before : List α)
    (ht : t.Takes b.separator start u) (hu : u.peek = (.ok (some ⟨.punct b.closing, span⟩), v)) :
    moreItems b item (fuel + 1) before t = .done before.reverse v := by
  have hfirst := looksFirst_expectPunct b.separator
  rw [moreItems]
  refine (unless_of_not_shows (hfirst.bind _) (not_shows_closing_of_takes h ht) _).trans ?_
  rw [Run.bind_of_done (expectPunct_of_takes ht)]
  exact unless_of_peek hu _

/-- A round of the loop where neither the list is closed nor a separator follows. -/
theorem moreItems_of_lacks (fuel : Nat) (before : List α) (hclose : ¬t.Shows b.closing)
    (ht : t.Lacks b.separator e u) : moreItems b item (fuel + 1) before t = .failed e u := by
  have hfirst := looksFirst_expectPunct b.separator
  rw [moreItems]
  refine (unless_of_not_shows (hfirst.bind _) hclose _).trans ?_
  exact Run.bind_of_failed (expectPunct_of_lacks ht)

theorem items_of_not_shows (h : ReadsItems b item refusal) (fuel : Nat)
    (ht : ¬t.Shows b.closing) :
    items b item fuel t = (item >>= fun first => moreItems b item fuel [first]) t :=
  unless_of_not_shows (h.looksFirst.bind _) ht _

/-- The loop is left where the list is closed. -/
theorem yields_moreItems (fuel : Nat) (before : List α) (s : TokenStream) :
    (moreItems b item fuel before).Yields s fun _ t => t.Shows b.closing := by
  induction fuel generalizing before s with
  | zero =>
    rw [moreItems]
    exact Run.yields_outOfFuel
  | succ fuel ih =>
    rw [moreItems]
    refine Run.yields_bind (yields_nextIsPunct fun look t _ hpeeked _ => ?_)
    cases hclose : look.any (·.isPunct b.closing) with
    | true => exact Run.yields_pure ((shows_of_peek (peek_of_peeked hpeeked)).mpr hclose)
    | false =>
      refine Run.yields_bind fun _ u _ => ?_
      refine Run.yields_bind (yields_nextIsPunct fun look v _ hpeeked _ => ?_)
      cases hclose : look.any (·.isPunct b.closing) with
      | true => exact Run.yields_pure ((shows_of_peek (peek_of_peeked hpeeked)).mpr hclose)
      | false => exact Run.yields_bind fun next w _ => ih _ w

theorem yields_items (fuel : Nat) (s : TokenStream) :
    (items b item fuel).Yields s fun _ t => t.Shows b.closing := by
  refine Run.yields_bind (yields_nextIsPunct fun look t _ hpeeked _ => ?_)
  cases hclose : look.any (·.isPunct b.closing) with
  | true => exact Run.yields_pure ((shows_of_peek (peek_of_peeked hpeeked)).mpr hclose)
  | false => exact Run.yields_bind fun first u _ => yields_moreItems fuel [first] u

/-! ## Lists in form, and others -/

/-- Behind a row of items the loop begins another round. -/
theorem items_of_row (h : ReadsItems b item refusal) (hrow : Row b item s as t) {fuel : Nat}
    (hfinished : (items b item fuel s).Finished) :
    ∃ f, items b item fuel s = moreItems b item (f + 1) as.reverse t := by
  -- fuel that has run out before the next round would not have let the items come to an end
  induction hrow with
  | @first a t ha =>
    rw [items_of_not_shows h fuel (not_shows_closing_of_item h ha), Run.bind_of_done ha]
      at hfinished ⊢
    cases fuel with
    | zero => exact hfinished.elim
    | succ f => exact ⟨f, rfl⟩
  | @next as a t span u v hrow hseparator ha ih =>
    obtain ⟨f, hitems⟩ := ih
    rw [hitems, moreItems_of_takes h f _ hseparator (not_shows_closing_of_item h ha),
      Run.bind_of_done ha] at hfinished ⊢
    rw [List.reverse_concat]
    cases f with
    | zero => exact hfinished.elim
    | succ f => exact ⟨f, rfl⟩

theorem items_of_body (h : ReadsItems b item refusal) (hbody : Body b item s as t)
    (hclose : t.peek = (.ok (some ⟨.punct b.closing, span⟩), u)) {fuel : Nat}
    (hfinished : (items b item fuel s).Finished) : items b item fuel s = .done as u := by
  cases hbody with
  | empty => exact unless_of_peek hclose _
  | row hrow =>
    obtain ⟨f, hitems⟩ := items_of_row h hrow hfinished
    rw [hitems, moreItems_of_peek f _ hclose, List.reverse_reverse]
  | trailing hrow hseparator =>
    obtain ⟨f, hitems⟩ := items_of_row h hrow hfinished
    rw [hitems, moreItems_of_takes_peek h f _ hseparator hclose, List.reverse_reverse]

theorem finished_items {fuel : Nat} (hopen : s.Takes b.opening start t)
    (hfinished : (delimited b item fuel s).Finished) : (items b item fuel t).Finished := by
  rw [delimited, Run.bind_of_done (expectPunct_of_takes hopen)] at hfinished
  cases hitems : items b item fuel t with
  | unfinished =>
    rw [Run.bind_of_unfinished hitems] at hfinished
    exact hfinished
  | _ => trivial

/-- A list in form is read. -/
theorem delimited_of_listed (h : ReadsItems b item refusal) {fuel : Nat} {result : List α × Span}
    (hlisted : Listed b item s result t) (hfinished : (delimited b item fuel s).Finished) :
    delimited b item fuel s = .done result t := by
  obtain ⟨hopen, hbody, hclose⟩ := hlisted
  obtain ⟨w, hpeek⟩ := peek_of_takes hclose
  have hitems := items_of_body h hbody hpeek (finished_items hopen hfinished)
  rw [delimited, Run.bind_of_done (expectPunct_of_takes hopen), Run.bind_of_done hitems,
    Run.bind_of_done (expectPunct_of_takes ((takes_of_peek hpeek).mp hclose))]
  rfl

/-- A list that gets out of form is rejected, with what is reported then. -/
theorem delimited_of_rejected (h : ReadsItems b item refusal) {fuel : Nat}
    (hrejected : Rejected b item s e t) (hfinished : (delimited b item fuel s).Finished) :
    delimited b item fuel s = .failed e t := by
  obtain ⟨place, u, hdue, hviolated⟩ := hrejected
  -- a failure among the items is one of the list
  have hwhole : ∀ start t', s.Takes b.opening start t' → items b item fuel t' = .failed e t →
      delimited b item fuel s = .failed e t := by
    intro start t' hopen hitems
    rw [delimited, Run.bind_of_done (expectPunct_of_takes hopen), Run.bind_of_failed hitems]
  cases hdue with
  | opening =>
    cases hviolated with
    | opening hlacks => exact Run.bind_of_failed (expectPunct_of_lacks hlacks)
  | first hopen =>
    cases hviolated with
    | item hclose hitem =>
      refine hwhole _ _ hopen ?_
      rw [items_of_not_shows h fuel hclose, Run.bind_of_failed hitem]
  | separator hopen hrow =>
    cases hviolated with
    | separator hclose hlacks =>
      obtain ⟨f, hitems⟩ := items_of_row h hrow (finished_items hopen hfinished)
      exact hwhole _ _ hopen (hitems.trans (moreItems_of_lacks f _ hclose hlacks))
  | next hopen hrow hseparator =>
    cases hviolated with
    | item hclose hitem =>
      obtain ⟨f, hitems⟩ := items_of_row h hrow (finished_items hopen hfinished)
      refine hwhole _ _ hopen (hitems.trans ?_)
      rw [moreItems_of_takes h f _ hseparator hclose, Run.bind_of_failed hitem]

/-- Behind a row of items the list is closed sooner or later, or gets out of form. -/
theorem listed_or_rejected_of_row (h : ReadsItems b item refusal)
    (hopen : s.Takes b.opening start t)
    (hrow : Row b item t as u) {fuel : Nat} {before : List α}
    (hfinished : (moreItems b item fuel before u).Finished) :
    (∃ result v, Listed b item s result v) ∨ ∃ e v, Rejected b item s e v := by
  induction fuel generalizing as u before with
  | zero => exact hfinished.elim
  | succ fuel ih =>
    by_cases hclose : u.Shows b.closing
    · obtain ⟨stop, v, hclose⟩ := hclose
      exact .inl ⟨_, v, .intro hopen (.row hrow) hclose⟩
    -- the list goes on, so that a separator has to follow, and then the bracket or an item
    rcases takes_or_lacks b.separator u with ⟨span, v, hseparator⟩ | ⟨e, v, hlacks⟩
    swap
    · exact .inr ⟨e, v, .separator, u, .separator hopen hrow, .separator hclose hlacks⟩
    by_cases hclose : v.Shows b.closing
    · obtain ⟨stop, w, hclose⟩ := hclose
      exact .inl ⟨_, w, .intro hopen (.trailing hrow hseparator) hclose⟩
    rw [moreItems_of_takes h fuel before hseparator hclose] at hfinished
    cases hitem : item v with
    | done a w =>
      rw [Run.bind_of_done hitem] at hfinished
      exact ih (.next hrow hseparator hitem) hfinished
    | failed e w =>
      exact .inr ⟨e, w, .item, v, .next hopen hrow hseparator, .item hclose hitem⟩
    | unfinished =>
      rw [Run.bind_of_unfinished hitem] at hfinished
      exact hfinished.elim

/-- A list is in form or gets out of form. -/
theorem listed_or_rejected (h : ReadsItems b item refusal) {fuel : Nat}
    (hfinished : (delimited b item fuel s).Finished) :
    (∃ result t, Listed b item s result t) ∨ ∃ e t, Rejected b item s e t := by
  rcases takes_or_lacks b.opening s with ⟨start, t, hopen⟩ | ⟨e, t, hlacks⟩
  swap
  · exact .inr ⟨e, t, .opening, s, .opening, .opening hlacks⟩
  have hitems := finished_items hopen hfinished
  by_cases hclose : t.Shows b.closing
  · obtain ⟨stop, u, hclose⟩ := hclose
    exact .inl ⟨_, u, .intro hopen .empty hclose⟩
  rw [items_of_not_shows h fuel hclose] at hitems
  cases hitem : item t with
  | done a u =>
    rw [Run.bind_of_done hitem] at hitems
    exact listed_or_rejected_of_row h hopen (.first hitem) hitems
  | failed e u => exact .inr ⟨e, u, .item, t, .first hopen, .item hclose hitem⟩
  | unfinished =>
    rw [Run.bind_of_unfinished hitem] at hitems
    exact hitems.elim

/-- How a list is read: it is accepted exactly if it is in form, and rejected exactly if it gets out
of form, with what its form determines. -/
structure ListRead (b : Brackets) (item : Parser TokenStream α) (refusal : String → ParseFault)
    (fuel : Nat) (s : TokenStream) : Prop where
  finished : (delimited b item fuel s).Finished
  done_iff : ∀ result t, delimited b item fuel s = .done result t ↔ Listed b item s result t
  failed_iff : ∀ e t, delimited b item fuel s = .failed e t ↔ Rejected b item s e t
  /-- A separator in place of an item is refused as an item. -/
  stray : ∀ u span t, Due b item s .item u →
    u.peek = (.ok (some ⟨.punct b.separator, span⟩), t) → delimited b item fuel s =
      .failed (.grammatical ⟨refusal ("`" ++ toString b.separator ++ "`"), span⟩) t
  /-- So is what cannot be cut into tokens, wherever it is met. -/
  unread : ∀ place u e t, Due b item s place u → u.peek = (.error e, t) →
    delimited b item fuel s = .failed (.lexical e) t
  /-- The closing bracket is there when it is expected. -/
  closes : ∀ start t as u, s.Takes b.opening start t → items b item fuel t = .done as u →
    u.Shows b.closing

theorem listRead_of_readsItems (h : ReadsItems b item refusal) {fuel : Nat}
    (hfinished : (delimited b item fuel s).Finished) : ListRead b item refusal fuel s where
  finished := hfinished
  done_iff result t := by
    refine ⟨fun hdone => ?_, fun hlisted => delimited_of_listed h hlisted hfinished⟩
    rcases listed_or_rejected h hfinished with ⟨result', t', hlisted⟩ | ⟨e, t', hrejected⟩
    · have hsame := delimited_of_listed h hlisted hfinished
      rw [hdone] at hsame
      cases hsame
      exact hlisted
    · have hother := delimited_of_rejected h hrejected hfinished
      rw [hdone] at hother
      cases hother
  failed_iff e t := by
    refine ⟨fun hfailed => ?_, fun hrejected => delimited_of_rejected h hrejected hfinished⟩
    rcases listed_or_rejected h hfinished with ⟨result, t', hlisted⟩ | ⟨e', t', hrejected⟩
    · have hother := delimited_of_listed h hlisted hfinished
      rw [hfailed] at hother
      cases hother
    · have hsame := delimited_of_rejected h hrejected hfinished
      rw [hfailed] at hsame
      cases hsame
      exact hrejected
  stray u span t hdue hpeek := by
    have hitem := h.refuses _ u span t (.inl rfl) hpeek
    have htakes := next_of_peeked (peeked_of_peek_eq hpeek)
    refine delimited_of_rejected h ⟨.item, u, hdue, .item ?_ hitem⟩ hfinished
    exact not_shows_closing_of_takes h ((takes_of_peek hpeek).mpr htakes)
  unread place u e t hdue hpeek := by
    refine delimited_of_rejected h ⟨place, u, hdue, ?_⟩ hfinished
    cases place with
    | opening => exact .opening (.unread hpeek)
    | separator => exact .separator (not_shows_of_error hpeek) (.unread hpeek)
    | item => exact .item (not_shows_of_error hpeek) (h.looksFirst.of_error u e t hpeek)
  closes _ t as u _ hitems := yields_items fuel t as u hitems

end

end Parser

namespace Grammar

open TokenStream LambdaScript.Parser

/-! ## Blocks, arguments and parameters -/

/-- No expression begins with a punctuation other than an opening bracket. -/
theorem readsItems_expression {b : Brackets} (hb : b = .curly ∨ b = .round) (fuel : Nat) :
    ReadsItems b (expression (fuel + 2)) .unexpectedToken where
  looksFirst := by
    rw [expression, atom]
    exact ((looksFirst_peek.bind _).bind _).bind _
  refuses p s span t hp hpeek := by
    have hprimary : primary (expression fuel) fuel s =
        .failed (.grammatical ⟨.unexpectedToken ("`" ++ toString p ++ "`"), span⟩) t := by
      rw [primary, Run.bind_of_done (peek_of_ok hpeek)]
      rcases hb with rfl | rfl <;> rcases hp with rfl | rfl <;> rfl
    exact Run.bind_of_failed (Run.bind_of_failed hprimary)
  separator_ne_closing := by rcases hb with rfl | rfl <;> decide

theorem readsItems_parameter : ReadsItems .round parameter .expectedParameterName where
  looksFirst := looksFirst_peek.bind _
  refuses p s span t hp hpeek := by
    rw [parameter, Run.bind_of_done (peek_of_ok hpeek)]
    rfl
  separator_ne_closing := by decide

/-- With enough fuel, every list of the grammar that begins at `s` is read as its form demands. -/
structure ListsRead (fuel : Nat) (s : TokenStream) : Prop where
  block : ListRead .curly (expression fuel) .unexpectedToken fuel s
  arguments : ListRead .round (expression fuel) .unexpectedToken fuel s
  parameters : ListRead .round parameter .expectedParameterName fuel s

theorem lists_read (s : TokenStream) {fuel : Nat} (h : 4 * TokenSource.size s + 2 ≤ fuel) :
    ListsRead fuel s := by
  obtain ⟨f, rfl⟩ : ∃ f, fuel = f + 2 := ⟨fuel - 2, by omega⟩
  have hitem : ∀ t : TokenStream, TokenSource.size t < TokenSource.size s →
      Consumes (expression (f + 2)) t := fun t ht => (ends_expressions (f + 2)).1 t (by omega)
  have hlist : ∀ b, (delimited b (expression (f + 2)) (f + 2) s).Finished :=
    fun b => (consumes_delimited hitem (by omega)).finished
  have hparameters : (delimited .round parameter (f + 2) s).Finished :=
    (consumes_delimited (fun t _ => consumes_parameter t) (by omega)).finished
  exact ⟨listRead_of_readsItems (readsItems_expression (.inl rfl) f) (hlist _),
    listRead_of_readsItems (readsItems_expression (.inr rfl) f) (hlist _),
    listRead_of_readsItems readsItems_parameter hparameters⟩

/-- A separator may stand behind the last item, but not in front of the first one. -/
theorem lists_read_separators :
    (∃ s : TokenStream, s = .ofString "(x, y,)" .fresh ∧ 4 * TokenSource.size s + 2 ≤ 30 ∧
      ListsRead 30 s ∧ ∃ x y t, Listed .round parameter s ([x, y], ⟨0, 7⟩) t) ∧
    ∃ s : TokenStream, s = .ofString "(, x)" .fresh ∧ 4 * TokenSource.size s + 2 ≤ 22 ∧
      ListsRead 22 s ∧ ∃ t, Rejected .round parameter s
        (.grammatical ⟨.expectedParameterName "`,`", ⟨1, 2⟩⟩) t := by
  have hlong : 4 * TokenSource.size (TokenStream.ofString "(x, y,)" .fresh) + 2 ≤ 30 := by
    decide +kernel
  have hshort : 4 * TokenSource.size (TokenStream.ofString "(, x)" .fresh) + 2 ≤ 22 := by
    decide +kernel
  have hlists := lists_read _ hlong
  have hrejects := lists_read _ hshort
  refine ⟨⟨_, rfl, hlong, hlists, ?_⟩, _, rfl, hshort, hrejects, ?_⟩
  · exact ⟨_, _, _, (hlists.parameters.done_iff _ _).mp (by with_unfolding_all rfl)⟩
  · exact ⟨_, (hrejects.parameters.failed_iff _ _).mp (by with_unfolding_all rfl)⟩

end Grammar

end LambdaScript
