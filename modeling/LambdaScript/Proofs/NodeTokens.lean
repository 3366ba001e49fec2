import LambdaScript.Proofs.Steps
/-!
# The tokens that an expression stands for

Every node of a program was made of a passage of its tokens. `Made` tells how: in pieces, which are
tokens of the node itself and the passages of its parts, in the order of the text. Brackets around
an expression, and braces around a single one, leave no node; they belong to the passage of the
expression all the same (`Passage.dropped`). Every passage that a node was made of is a program when
it is read alone.

`Leads` says where some tokens lead the machine, whatever is already open when they are read.
-/

namespace LambdaScript

namespace Grammar

/-! ## Pieces -/

/-- A stretch of the tokens of an expression: one of its own, or all those of a part. -/
inductive Piece where
  | token (t : Token)
  | part (tokens : List Token) (tree : Tree)

namespace Piece

def tokens : Piece → List Token
  | token t => [t]
  | part tokens _ => tokens

def span : Piece → Span
  | token t => t.span
  | part _ tree => tree.span

def tree? : Piece → Option Tree
  | token _ => none
  | part _ tree => some tree

end Piece

/-- The tokens of some pieces. -/
def flat (ps : List Piece) : List Token := ps.flatMap Piece.tokens

/-- The parts among some pieces. -/
def trees (ps : List Piece) : List Tree := ps.filterMap Piece.tree?

section
variable (ps qs : List Piece) (t : Token) (ts : List Token) (e : Tree)

@[simp] theorem flat_nil : flat [] = [] := rfl

@[simp] theorem flat_token : flat (.token t :: ps) = t :: flat ps := rfl

@[simp] theorem flat_part : flat (.part ts e :: ps) = ts ++ flat ps := rfl

@[simp] theorem flat_append : flat (ps ++ qs) = flat ps ++ flat qs := List.flatMap_append

@[simp] theorem flat_tokens : flat (ts.map .token) = ts := by
  induction ts with
  | nil => rfl
  | cons t ts ih => rw [List.map_cons, flat_token, ih]

@[simp] theorem trees_nil : trees [] = [] := rfl

@[simp] theorem trees_token : trees (.token t :: ps) = trees ps := rfl

@[simp] theorem trees_part : trees (.part ts e :: ps) = e :: trees ps := rfl

@[simp] theorem trees_append : trees (ps ++ qs) = trees ps ++ trees qs := List.filterMap_append

@[simp] theorem trees_tokens : trees (ts.map .token) = [] := by
  induction ts with
  | nil => rfl
  | cons t ts ih => rw [List.map_cons, trees_token, ih]

end

/-- Items of a list, held in reverse, and their pieces: a separator may stand behind each. -/
inductive Row (separator : Punct) : List Tree → List Piece → Prop
  | nil : Row separator [] []
  | item {before ps ts e} (h : Row separator before ps) :
      Row separator (e :: before) (ps ++ [.part ts e])
  | separated {before ps ts e} (span : Span) (h : Row separator before ps) :
      Row separator (e :: before) (ps ++ [.part ts e, .token ⟨.punct separator, span⟩])

/-- Parameters, held in reverse, and their tokens from the bracket on. -/
inductive Params : List Name → List Token → Prop
  | opened (span : Span) : Params [] [⟨.punct .openParen, span⟩]
  | param {before ts} (name : Name) (span : Span) (h : Params before ts) :
      Params (name :: before) (ts ++ [⟨.identifier name, span⟩])
  | comma {before ts} (span : Span) (h : Params before ts) :
      Params before (ts ++ [⟨.punct .comma, span⟩])

/-- The word `then`, which may be missing. -/
inductive ThenWord : List Piece → Prop
  | absent : ThenWord []
  | present (span : Span) : ThenWord [.token ⟨.keyword .thenWord, span⟩]

/-- The pieces that have been read of an open construct. -/
inductive Framed (names : Interner) : Frame → List Piece → Prop
  | operand {c left ts t} (h : connective? names t = some c) :
      Framed names (.operand c left) [.part ts left, .token t]
  | paren (span : Span) : Framed names .paren [.token ⟨.punct .openParen, span⟩]
  | block {before ps} (start : Span) (h : Row .semicolon before ps) :
      Framed names (.block start before) (.token ⟨.punct .openBrace, start⟩ :: ps)
  | args {callee ts before ps} (start : Span) (h : Row .comma before ps) :
      Framed names (.args callee start before)
        (.part ts callee :: .token ⟨.punct .openParen, start⟩ :: ps)
  | ifCondition (start : Span) :
      Framed names (.ifCondition start) [.token ⟨.keyword .ifWord, start⟩]
  | thenBranch {condition ts ps} (start : Span) (h : ThenWord ps) :
      Framed names (.thenBranch start condition)
        (.token ⟨.keyword .ifWord, start⟩ :: .part ts condition :: ps)
  | elseBranch {condition branch ts us ps} (start span : Span) (h : ThenWord ps) :
      Framed names (.elseBranch start condition branch)
        (.token ⟨.keyword .ifWord, start⟩ :: .part ts condition ::
          (ps ++ [.part us branch, .token ⟨.keyword .elseWord, span⟩]))
  | loopCondition (start : Span) :
      Framed names (.loopCondition start) [.token ⟨.keyword .whileWord, start⟩]
  | loopBody {condition ts ps} (start : Span) (h : ThenWord ps) :
      Framed names (.loopBody start condition)
        (.token ⟨.keyword .whileWord, start⟩ :: .part ts condition :: ps)
  | lambdaBody {before ts} (start span : Span) (h : Params before ts) :
      Framed names (.lambdaBody start before.reverse)
        ((⟨.keyword .lambdaWord, start⟩ :: (ts ++ [⟨.punct .closeParen, span⟩]) :
          List Token).map .token)

/-- The pieces that a node is made of. -/
inductive Made (names : Interner) : Tree → List Piece → Prop
  | leaf {t e} (h : Begins t [] (.value e)) : Made names e [.token t]
  | wrap {frame ps value whole ts} (h : Framed names frame ps) (hwraps : Wraps frame value whole) :
      Made names whole (ps ++ [.part ts value])
  | emptyBlock (start stop : Span) :
      Made names (.bool (start.merge stop) false)
        [.token ⟨.punct .openBrace, start⟩, .token ⟨.punct .closeBrace, stop⟩]
  | seq {start before ps} (stop : Span) (h : Framed names (.block start before) ps)
      (hmany : 2 ≤ before.length) :
      Made names (.seq (start.merge stop) before.reverse)
        (ps ++ [.token ⟨.punct .closeBrace, stop⟩])
  | call {callee start before ps} (stop : Span) (h : Framed names (.args callee start before) ps) :
      Made names (.call (callee.span.merge (start.merge stop)) callee before.reverse)
        (ps ++ [.token ⟨.punct .closeParen, stop⟩])

/-! ## Passages -/

/-- Read on their own, the tokens are a program with this single expression. -/
def Alone (names : Interner) (ts : List Token) (e : Tree) : Prop :=
  ∀ offset, Config.start.run names (.ok offset) ts = (.ok (Config.program ⟨[e], [], .item⟩), [])

/-- An opening bracket around a single expression that leaves no node, and what closes it. -/
inductive Dropped : Token → List Token → Prop
  | paren (start stop : Span) :
      Dropped ⟨.punct .openParen, start⟩ [⟨.punct .closeParen, stop⟩]
  | block (start stop : Span) :
      Dropped ⟨.punct .openBrace, start⟩ [⟨.punct .closeBrace, stop⟩]
  | blockSeparated (start span stop : Span) :
      Dropped ⟨.punct .openBrace, start⟩ [⟨.punct .semicolon, span⟩, ⟨.punct .closeBrace, stop⟩]

/-- The expression was read from these tokens. -/
inductive Passage (names : Interner) : List Token → Tree → Prop
  | node {e ps} (hmade : Made names e ps) (hparts : ∀ ts e', .part ts e' ∈ ps → Passage names ts e')
      (halone : Alone names (flat ps) e) : Passage names (flat ps) e
  | dropped {t ts closing e} (h : Passage names ts e) (hdropped : Dropped t closing) :
      Passage names (t :: (ts ++ closing)) e

/-- All parts among the pieces were read from their tokens. -/
def Parts (names : Interner) (ps : List Piece) : Prop :=
  ∀ ts e, .part ts e ∈ ps → Passage names ts e

section
variable {names : Interner} {ps qs : List Piece} {ts : List Token} {e : Tree} {t : Token}

theorem Parts.append (h : Parts names ps) (h' : Parts names qs) : Parts names (ps ++ qs) := by
  intro ts e hmem
  exact (List.mem_append.mp hmem).elim (h ts e) (h' ts e)

theorem parts_tokens (ts : List Token) : Parts names (ts.map .token) := by
  intro us e hmem
  obtain ⟨t, -, ht⟩ := List.mem_map.mp hmem
  cases ht

theorem parts_nil : Parts names [] := parts_tokens []

theorem parts_token (t : Token) : Parts names [.token t] := parts_tokens [t]

theorem Parts.part (h : Passage names ts e) : Parts names [.part ts e] := by
  intro us e' hmem
  obtain heq := List.mem_singleton.mp hmem
  cases heq
  exact h

theorem Parts.part_token (h : Passage names ts e) (t : Token) :
    Parts names [.part ts e, .token t] :=
  (Parts.part h).append (parts_token t)

end

/-! ## Where tokens lead -/

/-- The place where a part of an open construct begins. -/
def Frame.place : Frame → Point
  | block _ _ | args _ _ _ => .item
  | _ => .operand

/-- Where an operand may begin, and nothing that is open binds tighter than `b`, the tokens lead to
`place`, inside of what they have opened; this is so if `rest` is what follows. -/
def Leads (names : Interner) (b : Nat) (ts : List Token) (opened : List Frame) (place : Point)
    (rest : List Token) : Prop :=
  ∀ ending items base point, point.Ready → bound base ≤ b →
    Config.run names ending ⟨items, base, point⟩ (ts ++ rest) =
      Config.run names ending ⟨items, opened ++ base, place⟩ rest

section
variable {names : Interner} {b : Nat} {ts us rest : List Token} {opened opened' : List Frame}
  {place place' : Point} {frame : Frame} {t : Token} {value whole : Tree} {look : Option Token}

theorem ready_place (frame : Frame) : frame.place.Ready := by
  cases frame with
  | block | args => exact .inr rfl
  | _ => exact .inl rfl

theorem bound_cons (frame : Frame) (base : List Frame) :
    bound (frame :: base) = bound [frame] := by
  cases frame <;> rfl

theorem begin_of_begins (h : Begins t opened place) (items : List Tree) (stack : List Frame) :
    begin items stack (some t) = .ok ⟨items, opened ++ stack, place⟩ := by
  cases h <;> rfl

theorem leads_begins (h : Begins t opened place) (b : Nat) (rest : List Token) :
    Leads names b [t] opened place rest :=
  fun _ items base _ hpoint _ => run_begin hpoint (begin_of_begins h items base)

/-- One more token. -/
theorem Leads.step (h : Leads names b ts opened place (t :: rest))
    (hfeed : ∀ items base, bound base ≤ b →
      Config.feed names ⟨items, opened ++ base, place⟩ (some t) =
        .ok ⟨items, opened' ++ base, place'⟩) :
    Leads names b (ts ++ [t]) opened' place' rest := by
  intro ending items base point hpoint hbound
  rw [List.append_assoc, List.singleton_append, h ending items base point hpoint hbound]
  exact Config.run_cons_of_ok (hfeed items base hbound)

/-- A part is read inside of an open construct. -/
theorem Leads.inside (h : Leads names b ts [frame] frame.place (us ++ rest))
    (hpart : Leads names (bound [frame]) us opened place rest) :
    Leads names b (ts ++ us) (opened ++ [frame]) place rest := by
  intro ending items base point hpoint hbound
  rw [List.append_assoc, h ending items base point hpoint hbound, List.singleton_append,
    hpart ending items _ _ (ready_place frame) (Nat.le_of_eq (bound_cons frame base)),
    List.append_cons]

/-- A construct is complete with its last part. -/
theorem Leads.wrap (h : Leads names b ts [frame] (.value value) rest)
    (hsettled : Settled names (bound [frame]) rest.head?)
    (hlast : ∀ items base, complete names items rest.head? (frame :: base) value =
      resume names items rest.head? base whole) :
    Leads names b ts [] (.value whole) rest := by
  intro ending items base point hpoint hbound
  rw [h ending items base point hpoint hbound]
  refine run_value ?_ (hlast items base)
  rwa [bound_cons]

/-- What leads to a complete expression, also at the end of a source, is one alone. -/
theorem Leads.alone (h : Leads names b ts [] (.value value) []) : Alone names ts value := by
  intro offset
  have hrun := h (.ok offset) [] [] .item (.inr rfl) (Nat.zero_le b)
  rw [List.append_nil] at hrun
  rw [Config.start, hrun]
  exact Config.run_nil_of_ok rfl

end

end Grammar

end LambdaScript
