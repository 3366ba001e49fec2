import LambdaScript.Proofs.Joining
import LambdaScript.Proofs.Relocation
/-!
# Two programs run one after the other, and as one

The items of a joined program are numbered as those of its two programs are, one after the other,
and are evaluated on the same machines (`Interpreter.evalProgram_joined`). So it ends as the two
programs do that are run one after the other by one interpreter (`Interpreter.joined_programs`).
-/

namespace LambdaScript

/-! ## Sequences -/

theorem Expr.numberedAll_append (first : Nat) (xs ys : List Tree) :
    numberedAll first (xs ++ ys) =
      ((numberedAll first xs).1 ++ (numberedAll (numberedAll first xs).2 ys).1,
        (numberedAll (numberedAll first xs).2 ys).2) := by
  induction xs generalizing first with
  | nil => rfl
  | cons x xs ih => simp only [List.cons_append, numberedAll, ih]

section
variable {sub : Evaluator} {scope : ScopeId}

/-- The items behind some others are evaluated behind them. -/
theorem evalSeq_append (last : Value) (xs ys : List Code) :
    evalSeq sub scope last (xs ++ ys) =
      (evalSeq sub scope last xs >>= fun value => evalSeq sub scope value ys) := by
  induction xs generalizing last with
  | nil => rfl
  | cons x xs ih =>
    rw [List.cons_append, evalSeq, evalSeq, bind_assoc]
    exact congrArg (sub x scope >>= ·) (funext fun value => ih value)

/-- The value before counts only where there are no items. -/
theorem evalSeq_of_ne_nil {xs : List Code} (h : xs ≠ []) (last last' : Value) :
    evalSeq sub scope last xs = evalSeq sub scope last' xs := by
  cases xs with
  | nil => contradiction
  | cons x xs => rfl

/-- Errors of items are located when they leave the sequence. -/
theorem eval_seq (ctx : Context) (fuel : Nat) (s : Span) (items : List Code) (scope : ScopeId)
    (m : Machine) : eval ctx (fuel + 1) (.seq s items) scope m =
      evalSeq (eval ctx fuel) scope (.bool false) items m := by
  show Run.mapError (·.located s) (evalSeq (eval ctx fuel) scope (.bool false) items) m = _
  rw [Run.mapError]
  cases hresult : evalSeq (eval ctx fuel) scope (.bool false) items m with
  | done | unfinished => rfl
  | failed e m' =>
    obtain ⟨item, m₁, -, hitem⟩ := evalSeq_failed hresult
    obtain ⟨_, _, -, -, hspan, -⟩ := Moment.exists_raises (p := ⟨[], fuel, item, scope, m₁⟩) hitem
    simp only [RuntimeError.located_of_span hspan]

end

namespace Interpreter

variable {i : Interpreter} {names : Interner} {bytes : Nat} {s : Span} {ps qs : List Tree}

theorem outcome_seq (i : Interpreter) (ctx : Context) (fuel : Nat) (s : Span) (items : List Tree) :
    (i.start (fuel + 1) (i.load (.seq s items)).1).outcome ctx =
      evalSeq (eval ctx fuel) i.global (.bool false) (Expr.numberedAll i.labels items).1
        i.machine :=
  eval_seq ctx fuel s _ _ _

theorem load_seq (i : Interpreter) (s : Span) (items : List Tree) :
    (i.load (.seq s items)).2 = { i with labels := (Expr.numberedAll i.labels items).2 } := rfl

/-- The joined program does what the first program does and then, if that did not fail, what the
second one does, moved. -/
theorem evalProgram_joined (hqs : qs ≠ []) (s t : Span) (fuel : Nat) :
    evalProgram names fuel (Grammar.joinedProgram bytes ps qs) i =
      match evalProgram names fuel (.seq s ps) i with
      | .done _ i' => evalProgram names fuel ((Renaming.shift bytes).expr (.seq t qs)) i'
      | .failed e i' =>
        .failed e { i' with labels := (i.load (Grammar.joinedProgram bytes ps qs)).2.labels }
      | .unfinished => .unfinished := by
  cases fuel with
  | zero => rfl
  | succ fuel =>
    have hmoved : (Expr.numberedAll (Expr.numberedAll i.labels ps).2
        ((Renaming.shift bytes).exprs qs)).1 ≠ [] := by
      cases qs with
      | nil => contradiction
      | cons q qs => exact List.cons_ne_nil _ _
    rw [evalProgram_apply, evalProgram_apply, Grammar.joinedProgram, outcome_seq, outcome_seq,
      Expr.numberedAll_append, evalSeq_append, Run.bind_apply, load_seq, load_seq,
      Expr.numberedAll_append]
    cases evalSeq (eval (i.context names) fuel) i.global (.bool false)
        (Expr.numberedAll i.labels ps).1 i.machine with
    | done value m =>
      dsimp only
      rw [evalProgram_apply, Renaming.expr, outcome_seq, load_seq,
        evalSeq_of_ne_nil hmoved _ (.bool false)]
      rfl
    | failed e m => rfl
    | unfinished => rfl

end Interpreter

/-! ## Interners that grow -/

/-- Both interners spell alike the names in these programs and trees. -/
structure Interner.SpellsLike (names names' : Interner) (codes : List Code) (trees : List Tree) :
    Prop where
  codes : ∀ code ∈ codes,
    code.Every (fun _ => True) fun x => names'.spelling x = names.spelling x
  trees : ∀ tree ∈ trees,
    tree.Every (fun _ => True) fun x => names'.spelling x = names.spelling x

/-- An interner that has grown spells the names alike that were in use. -/
theorem Interner.Grows.spellsLike {names later : Interner} (h : names.Grows later)
    {codes : List Code} {trees : List Tree}
    (hcodes : ∀ code ∈ codes, code.Every (fun _ => True) fun x => (names.find? x).isSome)
    (htrees : ∀ tree ∈ trees, tree.Every (fun _ => True) fun x => (names.find? x).isSome) :
    names.SpellsLike later codes trees where
  codes code hcode := (hcodes code hcode).mono (fun _ h => h) fun _ hx => h.spelling_eq hx
  trees tree htree := (htrees tree htree).mono (fun _ h => h) fun _ hx => h.spelling_eq hx

namespace Interpreter

/-- How a joined program ends on an interpreter that has run `codes`, compared with its two programs
run one after the other: as the first one if that fails, and else as the second one, moved. Each of
the three has its interner. -/
def EndsJoined (i : Interpreter) (codes : List Code) (np nq nj : Interner) (fuel bytes : Nat)
    (first second whole : Tree) : Prop :=
  match evalProgram np fuel first i with
  | .done _ i' => Relocated (i'.context nq) (codes ++ [(i.load first).1])
      (i'.start fuel (i'.load second).1) bytes nj (evalProgram nq fuel second i')
      (evalProgram nj fuel whole i)
  | .failed e i' => ∃ last, evalProgram nj fuel whole i = .failed e last ∧ i'.SameOutput last
  | .unfinished => evalProgram nj fuel whole i = .unfinished

theorem Session.endsJoined {i : Interpreter} {codes : List Code} (h : Session i codes)
    {np nq nj : Interner} {s t : Span} {ps qs : List Tree} (hqs : qs ≠ [])
    (hfirst : np.SpellsLike nj codes [.seq s ps])
    (hsecond : nq.SpellsLike nj codes [.seq s ps, .seq t qs]) (fuel bytes : Nat) :
    i.EndsJoined codes np nq nj fuel bytes (.seq s ps) (.seq t qs)
      (Grammar.joinedProgram bytes ps qs) := by
  have hall : ∀ {K : Name → Prop}, (∀ code ∈ codes, code.Every (fun _ => True) K) →
      (Expr.seq s ps : Tree).Every (fun _ => True) K →
      ∀ code ∈ codes ++ [(i.load (.seq s ps)).1], code.Every (fun _ => True) K :=
    fun hcodes htree => List.forall_mem_append.mpr
      ⟨hcodes, List.forall_mem_singleton.mpr (Expr.every_numbered htree)⟩
  have hrespelled : evalProgram nj fuel (.seq s ps) i = evalProgram np fuel (.seq s ps) i :=
    (h.ready.load _).evalCode_respelled (fun x hx => hx)
      (hall hfirst.codes (hfirst.trees _ List.mem_cons_self))
      (List.mem_append_right _ List.mem_cons_self) fuel
  rw [EndsJoined, evalProgram_joined hqs s t, hrespelled]
  cases hrun : evalProgram np fuel (.seq s ps) i with
  | done v i' =>
    have hnext : Session i' (codes ++ [(i.load (.seq s ps)).1]) :=
      h.program (.inl ⟨v, hrun⟩)
    exact hnext.ready.relocated (hall hsecond.codes (hsecond.trees _ List.mem_cons_self))
      (hsecond.trees _ (List.mem_cons_of_mem _ List.mem_cons_self)) (fun x hx => hx) fuel bytes
  | failed e i' => exact ⟨_, rfl, rfl, rfl⟩
  | unfinished => rfl

/-- Running two programs in one session is running the joined one. If neither source has an error
and the first one does not end with a semicolon, then the joined source is the program with their
items, those of the second one moved. Run on the same interpreter it ends as the two programs run
one after the other: if the first one fails, with that error, and else as the second one does, where
an error located in the second program has moved and an error located elsewhere has not.

The interners may be any states of one that grows; the joined source leaves it as the two sources
do, and as it was if it was read after them. -/
theorem joined_programs {p q : String} {a a' b b' c : Interner} {s t : Span} {ps qs : List Tree}
    (ha : a.Made) (hb : b.Made) (hc : c.Made)
    (hp : parseSource p a = (.ok (.seq s ps), a'))
    (hq : parseSource q b = (.ok (.seq t qs), b'))
    (hsize : byteCount p.toList + byteCount q.toList + 3 < maxOffset)
    (hps : ps ≠ []) (hqs : qs ≠ [])
    (hlast : ∀ tokens names u, lex p a = (.ok tokens, names) → tokens.getLast? = some u →
      u.kind ≠ .punct .semicolon) :
    ∃ whole c', parseSource (joined p q) c = (.ok whole, c') ∧
      (c = a → b = a' → c' = b') ∧ (a'.Grows c → b'.Grows c → c' = c) ∧
      ∀ n : Interner, n.Made → a'.Grows n → b'.Grows n → c'.Grows n →
        whole = Grammar.joinedProgram (byteCount p.toList + 3) ps qs ∧
        ∀ i codes, Session i codes → ∀ np nq nj : Interner,
          np.SpellsLike nj codes [.seq s ps] → nq.SpellsLike nj codes [.seq s ps, .seq t qs] →
          ∀ fuel, i.EndsJoined codes np nq nj fuel (byteCount p.toList + 3) (.seq s ps)
            (.seq t qs) whole := by
  have hfits : byteCount (joined p q).toList ≤ maxOffset := by
    rw [byteCount_joined]
    exact Nat.le_of_lt hsize
  have hmark : ∀ u, (scanSource p a).tokens.getLast? = some u → u.kind ≠ .punct .semicolon := by
    obtain ⟨-, x, hending, -⟩ := run_of_parseSource ha.consistent hp (.refl _)
    have hlex : lex p a = (.ok (scanSource p a).tokens, (scanSource p a).names) := by
      rw [lex_eq_ok_iff]
      exact ⟨x, by rw [← hending]⟩
    exact fun u => hlast _ _ u hlex
  obtain ⟨whole, hwhole, hsame⟩ := parseSource_joined ha.consistent hb.consistent hc.consistent hp
    hq hfits hps hmark
  refine ⟨whole, _, hwhole, ?_, fun hpc hqc => ?_, fun n hn hpn hqn hcn => ?_⟩
  · rintro rfl rfl
    exact parseSource_joined_names hc.consistent hp hq hfits
  · have hagain := parseSource_joined_of_grows ha.consistent hb.consistent hc.consistent hp hq hfits
      hps hmark hpc hqc
    exact congrArg Prod.snd (hwhole.symm.trans hagain)
  obtain rfl := hsame n hn.consistent hpn hqn hcn
  exact ⟨rfl, fun i codes hsession np nq nj hfirst hsecond fuel =>
    hsession.endsJoined hqs hfirst hsecond fuel _⟩

/-- The second program shows and calls a function of the first one, which fails there. -/
theorem joined_programs_closure : ∃ i a a' b' ps qs,
    build .fresh (.buffer "") 5 [] = (i, a) ∧ Session i [] ∧
      parseSource "f = lambda (x) x + true" a = (.ok (.seq (Grammar.programSpan ps) ps), a') ∧
      parseSource "print(f); f(2)" a' = (.ok (.seq (Grammar.programSpan qs) qs), b') ∧
      parseSource "f = lambda (x) x + true\n;\nprint(f); f(2)" a =
        (.ok (Grammar.joinedProgram 26 ps qs), b') ∧
      ∀ fuel, i.EndsJoined [] a' b' b' fuel 26 (.seq (Grammar.programSpan ps) ps)
        (.seq (Grammar.programSpan qs) qs) (Grammar.joinedProgram 26 ps qs) := by
  have hstart : (startNames .fresh).Made :=
    Interner.Made.fresh.internAll (Builtin.all.map Builtin.name)
  obtain ⟨_, a', hp⟩ : ∃ tree a', parseSource "f = lambda (x) x + true" (startNames .fresh) =
      (.ok tree, a') := exists_eq_ok (by decide +kernel)
  obtain ⟨_, b', hq⟩ : ∃ tree b', parseSource "print(f); f(2)"
      (parseSource "f = lambda (x) x + true" (startNames .fresh)).2 = (.ok tree, b') :=
    exists_eq_ok (by decide +kernel)
  have hparts : (parseSource "f = lambda (x) x + true" (startNames .fresh)).1.toOption.map
      (·.parts.length) = some 1 := by decide +kernel
  have hparts' : (parseSource "print(f); f(2)" (parseSource "f = lambda (x) x + true"
      (startNames .fresh)).2).1.toOption.map (·.parts.length) = some 2 := by decide +kernel
  have hlast : ((lex "f = lambda (x) x + true" (startNames .fresh)).1.toOption.getD []).getLast?.any
      (·.isPunct .semicolon) = false := by decide +kernel
  rw [hq] at hparts'
  rw [hp] at hparts hq
  -- both programs are read by one interner that grows
  obtain ⟨hmade, -⟩ := made_of_parseSource hstart hp
  obtain ⟨hmade', hgrows⟩ := made_of_parseSource hmade hq
  obtain ⟨ps, rfl, hknown⟩ := known_of_parseSource hstart.consistent hp
  obtain ⟨qs, rfl, hknown'⟩ := known_of_parseSource hmade.consistent hq
  have hps : ps ≠ [] := by
    rintro rfl
    cases hparts
  have hqs : qs ≠ [] := by
    rintro rfl
    cases hparts'
  have hmark : ∀ tokens names u,
      lex "f = lambda (x) x + true" (startNames .fresh) = (.ok tokens, names) →
        tokens.getLast? = some u → u.kind ≠ .punct .semicolon := by
    intro tokens names u hlex hu hkind
    rw [hlex] at hlast
    have hno : tokens.getLast?.any (·.isPunct .semicolon) = false := hlast
    rw [hu, Option.any_some, Token.isPunct_iff.mpr hkind] at hno
    contradiction
  have hsession : Session (build .fresh (.buffer "") 5 []).1 [] :=
    .build fun _ _ => List.not_mem_nil
  have hbytes : byteCount "f = lambda (x) x + true".toList + 3 = 26 := by decide
  obtain ⟨whole, c', hwhole, hnames, -, hruns⟩ :=
    joined_programs hstart hmade hstart hp hq (by decide +kernel) hps hqs hmark
  obtain rfl := hnames rfl rfl
  obtain ⟨rfl, hends⟩ := hruns _ hmade' hgrows (.refl _) (.refl _)
  rw [hbytes] at hwhole hends
  refine ⟨_, _, a', c', ps, qs, rfl, hsession, hp, hq, hwhole,
    hends _ _ hsession a' c' c' ?_ ?_⟩
  · exact hgrows.spellsLike (List.forall_mem_nil _) (List.forall_mem_singleton.mpr hknown)
  · refine (Interner.Grows.refl c').spellsLike (List.forall_mem_nil _) ?_
    refine List.forall_mem_cons.mpr ⟨?_, List.forall_mem_singleton.mpr hknown'⟩
    exact hknown.mono (fun _ h => h) fun _ hx => hgrows.isSome hx

end Interpreter

end LambdaScript
