import LambdaScript.Proofs.Tracing
/-!
# The brackets of a program are balanced

`level` counts brackets and braces: how many more of them some tokens open than they close. Tokens
are `Balanced` if they close all that they open and nothing else. The passage of every expression is
(`Passage.balanced`), and so are the tokens of every program (`balanced_of_run_ok`).
-/

namespace LambdaScript

/-- Whether a token opens or closes a bracket or a brace. -/
def Token.level (t : Token) : Int :=
  match t.kind with
  | .punct .openParen | .punct .openBrace => 1
  | .punct .closeParen | .punct .closeBrace => -1
  | _ => 0

namespace Grammar

/-- How many more brackets and braces are open behind the tokens than in front of them. -/
def level : List Token → Int
  | [] => 0
  | t :: ts => t.level + level ts

/-- Every bracket is closed behind the place where it is opened. -/
structure Balanced (ts : List Token) : Prop where
  /-- Nothing is closed that has not been opened. -/
  opened : ∀ us, us <+: ts → 0 ≤ level us
  /-- Nothing is left open. -/
  closed : level ts = 0

section
variable {names : Interner} {ps : List Piece} {ts us : List Token} {t u : Token}
  {before : List Tree} {params : List Name} {separator : Punct} {frame : Frame}
  {e value whole : Tree}

@[simp] theorem level_nil : level [] = 0 := rfl

@[simp] theorem level_cons (t : Token) (ts : List Token) :
    level (t :: ts) = t.level + level ts := rfl

@[simp] theorem level_append (ts us : List Token) : level (ts ++ us) = level ts + level us := by
  induction ts with
  | nil => simp
  | cons t ts ih => rw [List.cons_append, level_cons, level_cons, ih, Int.add_assoc]

/-! ## Balanced tokens -/

theorem balanced_nil : Balanced [] where
  opened us hus := by
    rw [List.prefix_nil.mp hus]
    exact Int.le_refl 0
  closed := rfl

theorem Balanced.append (h : Balanced ts) (h' : Balanced us) : Balanced (ts ++ us) where
  opened vs hvs := by
    rcases List.prefix_or_prefix_of_prefix hvs (List.prefix_append ts us) with hshort | ⟨ws, rfl⟩
    · exact h.opened vs hshort
    · rw [level_append, h.closed, Int.zero_add]
      exact h'.opened ws ((List.prefix_append_right_inj ts).mp hvs)
  closed := by rw [level_append, h.closed, h'.closed, Int.zero_add]

/-- Something balanced between an opening token and the one that closes it. -/
theorem Balanced.bracket (h : Balanced ts) (ht : t.level = 1) (hu : u.level = -1) :
    Balanced (t :: (ts ++ [u])) where
  opened vs hvs := by
    rcases List.prefix_cons_iff.mp hvs with rfl | ⟨ws, rfl, hws⟩
    · exact Int.le_refl 0
    rw [level_cons, ht]
    rcases List.prefix_concat_iff.mp hws with rfl | hws
    · rw [level_append, h.closed, level_cons, hu, level_nil]
      decide
    · have hws := h.opened ws hws
      omega
  closed := by
    rw [level_cons, level_append, h.closed, level_cons, ht, hu, level_nil]
    decide

theorem balanced_of_level (h : t.level = 0) : Balanced [t] where
  opened vs hvs := by
    rcases List.prefix_cons_iff.mp hvs with rfl | ⟨ws, rfl, hws⟩
    · exact Int.le_refl 0
    · rw [List.prefix_nil.mp hws, level_cons, h]
      exact Int.le_refl 0
  closed := by rw [level_cons, h, level_nil, Int.add_zero]

theorem Balanced.cons (h : Balanced ts) (ht : t.level = 0) : Balanced (t :: ts) :=
  (balanced_of_level ht).append h

theorem Balanced.concat (h : Balanced ts) (ht : t.level = 0) : Balanced (ts ++ [t]) :=
  h.append (balanced_of_level ht)

/-! ## Passages -/

theorem Begins.level_eq (h : Begins t [] (.value e)) : t.level = 0 := by
  cases h <;> rfl

theorem level_of_connective? {c : Connective} (h : connective? names t = some c) :
    t.level = 0 := by
  obtain ⟨name, span, rfl, -⟩ := operator_of_connective? h
  rfl

/-- The tokens of the parts among some pieces are balanced. -/
def BalancedParts (ps : List Piece) : Prop := ∀ ts e, .part ts e ∈ ps → Balanced ts

theorem BalancedParts.of_cons {p : Piece} (h : BalancedParts (p :: ps)) : BalancedParts ps :=
  fun ts e hmem => h ts e (.tail _ hmem)

theorem BalancedParts.of_append {qs : List Piece} (h : BalancedParts (ps ++ qs)) :
    BalancedParts ps ∧ BalancedParts qs :=
  ⟨fun ts e hmem => h ts e (List.mem_append_left _ hmem),
    fun ts e hmem => h ts e (List.mem_append_right _ hmem)⟩

theorem BalancedParts.head (h : BalancedParts (.part ts e :: ps)) : Balanced ts :=
  h ts e (.head _)

theorem Row.balanced (h : Row separator before ps)
    (hsep : separator = .semicolon ∨ separator = .comma) (hparts : BalancedParts ps) :
    Balanced (flat ps) := by
  induction h with
  | nil => exact balanced_nil
  | item _ ih =>
    obtain ⟨hbefore, hitem⟩ := hparts.of_append
    rw [flat_append, flat_part, flat_nil, List.append_nil]
    exact (ih hbefore).append hitem.head
  | separated span _ ih =>
    obtain ⟨hbefore, hitem⟩ := hparts.of_append
    rw [flat_append, flat_part, flat_token, flat_nil]
    refine (ih hbefore).append (hitem.head.concat ?_)
    rcases hsep with rfl | rfl <;> rfl

/-- Parameters are an opening bracket and tokens that are balanced. -/
theorem Params.exists_balanced (h : Params params ts) :
    ∃ span us, ts = ⟨.punct .openParen, span⟩ :: us ∧ Balanced us := by
  induction h with
  | opened span => exact ⟨span, [], rfl, balanced_nil⟩
  | param name span' _ ih =>
    obtain ⟨span, us, rfl, hus⟩ := ih
    exact ⟨span, us ++ [⟨.identifier name, span'⟩], rfl, hus.concat rfl⟩
  | comma span' _ ih =>
    obtain ⟨span, us, rfl, hus⟩ := ih
    exact ⟨span, us ++ [⟨.punct .comma, span'⟩], rfl, hus.concat rfl⟩

theorem ThenWord.balanced (h : ThenWord ps) : Balanced (flat ps) := by
  cases h with
  | absent => exact balanced_nil
  | present span => exact balanced_of_level rfl

/-- The pieces of a construct whose last part is not in brackets of its own. -/
theorem Framed.balanced (h : Framed names frame ps) (hwraps : Wraps frame value whole)
    (hparts : BalancedParts ps) : Balanced (flat ps) := by
  cases h with
  | operand hconnective =>
    exact hparts.head.append (balanced_of_level (level_of_connective? hconnective))
  | thenBranch start hthen =>
    exact (hparts.of_cons.head.append hthen.balanced).cons rfl
  | loopBody start hthen =>
    exact (hparts.of_cons.head.append hthen.balanced).cons rfl
  | @elseBranch condition branch ts us ps start span hthen =>
    obtain ⟨-, hbranch⟩ := hparts.of_cons.of_cons.of_append
    have hbehind :
        Balanced (flat (ps ++ [.part us branch, .token ⟨.keyword .elseWord, span⟩])) := by
      rw [flat_append]
      exact hthen.balanced.append (hbranch.head.concat rfl)
    exact (hparts.of_cons.head.append hbehind).cons rfl
  | lambdaBody start span hparams =>
    obtain ⟨opening, us, rfl, hus⟩ := hparams.exists_balanced
    rw [flat_tokens]
    exact (hus.bracket rfl rfl).cons rfl
  | _ => cases hwraps

theorem Made.balanced (h : Made names e ps) (hparts : BalancedParts ps) : Balanced (flat ps) := by
  cases h with
  | leaf h => exact balanced_of_level h.level_eq
  | wrap hframed hwraps =>
    obtain ⟨hframe, hlast⟩ := hparts.of_append
    rw [flat_append, flat_part, flat_nil, List.append_nil]
    exact (hframed.balanced hwraps hframe).append hlast.head
  | emptyBlock start stop => exact balanced_nil.bracket rfl rfl
  | seq stop h =>
    cases h with
    | block start hrow =>
      rw [flat_append]
      exact (hrow.balanced (.inl rfl) hparts.of_append.1.of_cons).bracket rfl rfl
  | call stop h =>
    cases h with
    | args start hrow =>
      have hargs := hrow.balanced (.inr rfl) hparts.of_append.1.of_cons.of_cons
      rw [flat_append, flat_part, List.append_assoc]
      exact hparts.of_append.1.head.append (hargs.bracket rfl rfl)

theorem Passage.balanced (h : Passage names ts e) : Balanced ts := by
  induction h with
  | node hmade _ _ ih => exact hmade.balanced ih
  | dropped h hdropped ih =>
    cases hdropped with
    | paren | block => exact ih.bracket rfl rfl
    | blockSeparated start span stop =>
      have hbracket := (ih.concat (t := ⟨.punct .semicolon, span⟩) rfl).bracket
        (t := ⟨.punct .openBrace, start⟩) (u := ⟨.punct .closeBrace, stop⟩) rfl rfl
      rwa [List.append_assoc] at hbracket

/-- Whatever is a program has balanced tokens. -/
theorem balanced_of_run_ok {offset : Nat} {tree : Tree}
    (h : (Config.start.run names (.ok offset) ts).1 = .ok tree) : Balanced ts := by
  obtain ⟨items, ps, -, hrow, hparts, rfl⟩ := row_of_run_ok h
  exact hrow.balanced (.inl rfl) fun us e hmem => (hparts us e hmem).balanced

end

end Grammar

end LambdaScript
