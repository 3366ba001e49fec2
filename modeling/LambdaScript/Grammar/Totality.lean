import LambdaScript.Grammar.Expression
/-!
# The grammar comes to an end on every source

Every function of the grammar takes at least one token before it turns to a part of the same kind,
so four units of fuel for each token left, and a few more, are enough (`Grammar.ends_program`).
Hence `Grammar.parse`, which supplies that fuel, yields a tree or a syntax error for every source.
-/

namespace LambdaScript

variable {σ α : Type} [TokenSource σ]

namespace Parser

open TokenSource Run

/-- Taking the next token succeeds and brings the size below `bound`. -/
def CanTake (s : σ) (bound : Nat) : Prop :=
  (advance : Parser σ _).Ends s fun _ s => size s < bound

/-- The parser ends on `s`, and takes a token if it succeeds. -/
def Consumes (p : Parser σ α) (s : σ) : Prop := p.Ends s fun _ t => size t < size s

/-! ## Single steps -/

theorem ends_peek {s : σ} {Q : Option Token → σ → Prop}
    (hnone : ∀ t, size t ≤ size s → Q none t)
    (hsome : ∀ token t, size t ≤ size s → CanTake t (size s) → Q (some token) t) :
    (peek : Parser σ _).Ends s Q := by
  have hle := size_peek_le s
  have hnext := next_peek s
  unfold Ends peek ofSource mapError ofStep
  cases hpeek : TokenSource.peek s with
  | mk result t =>
    rw [hpeek] at hle hnext
    cases result with
    | error e => trivial
    | ok token =>
      cases token with
      | none => exact hnone t hle
      | some token =>
        obtain ⟨htake, hlt⟩ := hnext token rfl
        refine hsome token t hle ?_
        unfold CanTake Ends advance ofSource mapError ofStep
        cases hadvance : TokenSource.next t with
        | mk result u =>
          simp_all

theorem ends_atEnd {s : σ} {Q : Bool → σ → Prop} (h : ∀ b t, size t ≤ size s → Q b t) :
    (atEnd : Parser σ _).Ends s Q :=
  ends_bind (ends_peek (fun t ht => ends_pure (h _ t ht)) fun _ t ht _ => ends_pure (h _ t ht))

theorem ends_nextIsPunct {p : Punct} {s : σ} {Q : Bool → σ → Prop}
    (h : ∀ b t, size t ≤ size s → Q b t) : (nextIsPunct p : Parser σ _).Ends s Q :=
  ends_bind (ends_peek (fun t ht => ends_pure (h _ t ht)) fun _ t ht _ => ends_pure (h _ t ht))

theorem ends_failExpected (expected : String) (found : Option Token) (s : σ) (Q : α → σ → Prop) :
    (failExpected expected found : Parser σ α).Ends s Q := by
  cases found <;> exact trivial

theorem ends_expect {test : Token → Bool} {expected : String} {s : σ} {Q : Span → σ → Prop}
    (h : ∀ span t, size t < size s → Q span t) :
    (expect test expected : Parser σ _).Ends s Q := by
  refine ends_bind (ends_peek (fun t _ => ends_failExpected ..) fun token t _ htake => ?_)
  dsimp only
  split
  · exact ends_bind (htake.imp fun _ u hu => ends_pure (h _ u hu))
  · exact ends_failExpected ..

theorem ends_expectPunct {p : Punct} {s : σ} {Q : Span → σ → Prop}
    (h : ∀ span t, size t < size s → Q span t) : (expectPunct p : Parser σ _).Ends s Q :=
  ends_expect h

theorem ends_expectKeyword {k : Keyword} {s : σ} {Q : Span → σ → Prop}
    (h : ∀ span t, size t < size s → Q span t) : (expectKeyword k : Parser σ _).Ends s Q :=
  ends_expect h

/-! ## Lists in brackets -/

theorem ends_moreItems {b : Brackets} {item : Parser σ α} (fuel : Nat) (before : List α) (s : σ)
    (hitem : ∀ t, size t ≤ size s → Consumes item t) (hfuel : size s < fuel) :
    (moreItems b item fuel before).Ends s fun _ t => size t ≤ size s := by
  induction fuel generalizing before s with
  | zero => omega
  | succ fuel ih =>
    refine ends_bind (ends_nextIsPunct fun closed t ht => ?_)
    cases closed with
    | true => exact ends_pure ht
    | false =>
      refine ends_bind (ends_expectPunct fun _ u hu => ?_)
      refine ends_bind (ends_nextIsPunct fun closed v hv => ?_)
      cases closed with
      | true => exact ends_pure (by omega)
      | false =>
        refine ends_bind ((hitem v (by omega)).imp fun next w hw => ?_)
        exact (ih _ w (fun t ht => hitem t (by omega)) (by omega)).imp fun _ _ _ => by omega

theorem ends_items {b : Brackets} {item : Parser σ α} {fuel : Nat} {s : σ}
    (hitem : ∀ t, size t ≤ size s → Consumes item t) (hfuel : size s ≤ fuel) :
    (items b item fuel).Ends s fun _ t => size t ≤ size s := by
  refine ends_bind (ends_nextIsPunct fun closed t ht => ?_)
  cases closed with
  | true => exact ends_pure ht
  | false =>
    refine ends_bind ((hitem t ht).imp fun first u hu => ?_)
    exact (ends_moreItems fuel _ u (fun v hv => hitem v (by omega)) (by omega)).imp
      fun _ _ _ => by omega

theorem consumes_delimited {b : Brackets} {item : Parser σ α} {fuel : Nat} {s : σ}
    (hitem : ∀ t, size t < size s → Consumes item t) (hfuel : size s ≤ fuel) :
    Consumes (delimited b item fuel) s := by
  refine ends_bind (ends_expectPunct fun _ t ht => ?_)
  refine ends_bind ((ends_items (fun u hu => hitem u (by omega)) (by omega)).imp fun _ u hu => ?_)
  exact ends_bind (ends_expectPunct fun _ v hv => ends_pure (by omega))

end Parser

namespace Grammar

open TokenSource Run LambdaScript.Parser

/-! ## Forms made of expressions -/

theorem consumes_parameter (s : σ) : Consumes (parameter : Parser σ _) s := by
  refine ends_bind (ends_peek (fun t _ => ?_) fun token t _ htake => ?_)
  · exact trivial
  · obtain ⟨kind, span⟩ := token
    cases kind
    case identifier name => exact ends_bind (htake.imp fun _ u hu => ends_pure hu)
    all_goals exact trivial

variable {e : Parser σ Tree} {fuel : Nat} {s : σ}

theorem consumes_block (he : ∀ t, size t < size s → Consumes e t) (hfuel : size s ≤ fuel) :
    Consumes (block e fuel) s := by
  refine ends_bind ((consumes_delimited he hfuel).imp fun result t ht => ?_)
  obtain ⟨items, span⟩ := result
  match items with
  | [] => exact ends_pure ht
  | [_] => exact ends_pure ht
  | _ :: _ :: _ => exact ends_pure ht

theorem ends_optionalThen {Q : Unit → σ → Prop} (h : ∀ t, size t ≤ size s → Q () t) :
    (optionalThen : Parser σ _).Ends s Q := by
  refine ends_bind (ends_nextIsPunct fun opened t ht => ?_)
  cases opened with
  | true => exact ends_pure (h t ht)
  | false => exact ends_bind (ends_expectKeyword fun _ u hu => ends_pure (h u (by omega)))

theorem consumes_conditional (he : ∀ t, size t < size s → Consumes e t) :
    Consumes (conditional e) s := by
  refine ends_bind (ends_expectKeyword fun _ t ht => ends_bind ((he t ht).imp fun _ u hu => ?_))
  refine ends_bind (ends_optionalThen fun v hv => ?_)
  refine ends_bind ((he v (by omega)).imp fun _ w hw => ?_)
  refine ends_bind (ends_bind (ends_peek (fun x hx => ends_pure (ends_pure (by omega)))
    fun token x hx htake => ends_pure ?_))
  split
  · refine ends_bind (htake.imp fun _ y hy => ends_bind ((he y (by omega)).imp fun _ z hz => ?_))
    exact ends_pure (by omega)
  · exact ends_pure (by omega)

theorem consumes_loop (he : ∀ t, size t < size s → Consumes e t) : Consumes (loop e) s := by
  refine ends_bind (ends_expectKeyword fun _ t ht => ends_bind ((he t ht).imp fun _ u hu => ?_))
  refine ends_bind (ends_optionalThen fun v hv => ?_)
  refine ends_bind ((he v (by omega)).imp fun _ w hw => ?_)
  exact ends_pure (by omega)

theorem consumes_lambda (he : ∀ t, size t < size s → Consumes e t) (hfuel : size s ≤ fuel) :
    Consumes (lambda e fuel) s := by
  refine ends_bind (ends_expectKeyword fun _ t ht => ?_)
  have hparams : Consumes (delimited .round parameter fuel) t :=
    consumes_delimited (fun u _ => consumes_parameter u) (by omega)
  refine ends_bind (hparams.imp fun _ u hu => ?_)
  exact ends_bind ((he u (by omega)).imp fun _ v hv => ends_pure (by omega))

theorem consumes_bracketed (he : ∀ t, size t < size s → Consumes e t) :
    Consumes (bracketed e) s := by
  refine ends_bind (ends_expectPunct fun _ t ht => ends_bind ((he t ht).imp fun _ u hu => ?_))
  exact ends_bind (ends_expectPunct fun _ v hv => ends_pure (by omega))

theorem ends_leaf {tree : Tree} {bound : Nat} (h : CanTake s bound) :
    (leaf tree : Parser σ _).Ends s fun _ t => size t < bound :=
  ends_bind (h.imp fun _ _ ht => ends_pure ht)

theorem consumes_primary (he : ∀ t, size t < size s → Consumes e t) (hfuel : size s ≤ fuel) :
    Consumes (primary e fuel) s := by
  refine ends_bind (ends_peek (fun t _ => ends_failExpected ..) fun token t ht htake => ?_)
  have he' : ∀ u, size u < size t → Consumes e u := fun u hu => he u (by omega)
  have weaken : ∀ {p : Parser σ Tree}, Consumes p t → p.Ends t fun _ u => size u < size s :=
    fun h => h.imp fun _ _ _ => by omega
  obtain ⟨kind, span⟩ := token
  dsimp only
  split
  · exact weaken (consumes_bracketed he')
  · exact weaken (consumes_block he' (by omega))
  · exact weaken (consumes_conditional he')
  · exact weaken (consumes_loop he')
  · exact weaken (consumes_lambda he' (by omega))
  iterate 5 exact ends_leaf htake
  · exact trivial

/-! ## Expressions -/

/-- The fuel that each function needs on a source of a given size. -/
theorem ends_expressions (fuel : Nat) :
    (∀ s : σ, 4 * size s + 4 ≤ fuel → Consumes (expression fuel) s) ∧
    (∀ s : σ, 4 * size s + 3 ≤ fuel → Consumes (atom fuel) s) ∧
    (∀ (s : σ) (left : Tree) (bound : Nat), 4 * size s + 1 ≤ fuel →
      (climb fuel left bound).Ends s fun _ t => size t ≤ size s) ∧
    (∀ (s : σ) (callee : Tree), 4 * size s + 1 ≤ fuel →
      (suffixes fuel callee).Ends s fun _ t => size t ≤ size s) := by
  induction fuel with
  | zero =>
    refine ⟨?_, ?_, ?_, ?_⟩
    all_goals
      intros
      omega
  | succ fuel ih =>
    obtain ⟨hexpr, hatom, hclimb, hsuffixes⟩ := ih
    refine ⟨fun s h => ?_, fun s h => ?_, fun s left bound h => ?_, fun s callee h => ?_⟩
    · simp only [expression]
      refine ends_bind ((hatom s (by omega)).imp fun _ t ht => ?_)
      refine ends_bind ((hclimb t _ _ (by omega)).imp fun _ u hu => ?_)
      exact (hsuffixes u _ (by omega)).imp fun _ v hv => by omega
    · simp only [atom]
      have hprimary : Consumes (primary (expression fuel) fuel) s :=
        consumes_primary (fun t ht => hexpr t (by omega)) (by omega)
      refine ends_bind (hprimary.imp fun _ t ht => ?_)
      exact (hsuffixes t _ (by omega)).imp fun _ v hv => by omega
    · simp only [climb]
      refine ends_bind (ends_bind ?_)
      refine ends_peek (fun t ht => ends_pure (ends_pure ht)) fun token t ht htake => ?_
      split
      · refine ends_bind (ends_get (ends_pure ?_))
        split
        · exact ends_pure ht
        · split
          · exact ends_pure ht
          · refine ends_bind (htake.imp fun _ u hu => ?_)
            refine ends_bind ((hatom u (by omega)).imp fun _ v hv => ?_)
            refine ends_bind ((hclimb v _ _ (by omega)).imp fun right w hw => ?_)
            refine ends_bind (Ends.imp (P := fun _ x => x = w) ?_ fun _ x hx => ?_)
            · unfold combine
              split
              · exact ends_pure rfl
              · exact ends_pure rfl
              · exact trivial
            · subst hx
              exact (hclimb x _ _ (by omega)).imp fun _ _ _ => by omega
      · exact ends_pure (ends_pure ht)
    · simp only [suffixes]
      refine ends_bind (ends_nextIsPunct fun opened t ht => ?_)
      cases opened with
      | false => exact ends_pure ht
      | true =>
        have hargs : Consumes (delimited .round (expression fuel) fuel) t :=
          consumes_delimited (fun u hu => hexpr u (by omega)) (by omega)
        refine ends_bind (hargs.imp fun _ u hu => ?_)
        exact (hsuffixes u _ (by omega)).imp fun _ v hv => by omega

/-! ## Programs -/

theorem ends_programItems (fuel : Nat) (before : List Tree) (s : σ) (h : 4 * size s + 5 ≤ fuel) :
    (programItems fuel before).Ends s fun _ _ => True := by
  induction fuel generalizing before s with
  | zero => omega
  | succ fuel ih =>
    refine ends_bind (ends_atEnd fun ended t ht => ?_)
    cases ended with
    | true => exact ends_pure trivial
    | false =>
      refine ends_bind (((ends_expressions fuel).1 t (by omega)).imp fun item u hu => ?_)
      refine ends_bind (ends_atEnd fun ended v hv => ?_)
      cases ended with
      | true => exact ends_bind (ends_pure (ih _ v (by omega)))
      | false =>
        exact ends_bind (ends_expectPunct fun _ w hw => ih _ w (by omega))

/-- Fuel that is enough for a source. -/
def budget (s : σ) : Nat := 4 * size s + 5

/-- A program is read to its end, or to its first error, within the budget. -/
theorem ends_program (s : σ) : (program (budget s)).Ends s fun _ _ => True :=
  ends_bind ((ends_programItems (budget s) [] s (Nat.le_refl _)).imp fun _ _ _ => ends_pure trivial)

/-- The program that a token source holds, or its first error, and the source that is left. After an
error the rest can be read as another program. -/
def parse (s : σ) : Except SyntaxError Tree × σ :=
  (program (budget s) s).result (ends_program s).finished

end Grammar

/-- The program in a source, or its first error, and the interner afterwards. -/
def parseSource (source : String) (names : Interner) : Except SyntaxError Tree × Interner :=
  let (result, rest) := Grammar.parse (TokenStream.ofString source names)
  (result, rest.names)

end LambdaScript
