import LambdaScript.Proofs.Partition
import LambdaScript.Proofs.Renaming
import LambdaScript.Proofs.Texts
/-!
# Two sources put together

Two sources are joined by a line with a semicolon on it (`joined`). The tokens of the whole are
those of the first source, the semicolon, and those of the second source, moved behind it
(`partition_joined`): a comment at the end of the first source ends with its line, and a token there
is not made longer by a line feed. Read where the first source was read, and the second one behind
it, the whole leaves the same interner (`names_scanSource_joined`).
-/

namespace LambdaScript

/-- Two sources with a semicolon between them, which has a line of its own. -/
def joined (p q : String) : String := p ++ "\n;\n" ++ q

theorem toList_joined (p q : String) :
    (joined p q).toList = p.toList ++ '\n' :: ([';'] ++ '\n' :: q.toList) := by
  simp [joined]

theorem byteCount_joined (p q : String) :
    byteCount (joined p q).toList = byteCount p.toList + byteCount q.toList + 3 := by
  have hfeed : Char.utf8Size '\n' = 1 := by decide
  have hmark : Char.utf8Size ';' = 1 := by decide
  simp only [toList_joined, byteCount_append, byteCount, hfeed, hmark]
  omega

/-- Everything is moved by some bytes. -/
def Renaming.shift (bytes : Nat) : Renaming := ⟨id, fun s => ⟨s.start + bytes, s.stop + bytes⟩⟩

theorem Renaming.token_shift (bytes : Nat) (t : Token) :
    (shift bytes).token t = ⟨t.kind, ⟨t.span.start + bytes, t.span.stop + bytes⟩⟩ := by
  obtain ⟨kind, span⟩ := t
  cases kind <;> rfl

/-- The tokens of the joined source, where the first one has this many bytes. -/
def joinedTokens (bytes : Nat) (tokens others : List Token) : List Token :=
  tokens ++ ⟨.punct .semicolon, ⟨bytes + 1, bytes + 2⟩⟩ ::
    others.map (Renaming.shift (bytes + 3)).token

/-! ## Partitions -/

/-- With a line feed behind it layout can stand anywhere. -/
theorem Layout.closed {gap : List Char} (h : Layout True gap) : Layout False (gap ++ ['\n']) := by
  induction h with
  | nil => exact .blank (by decide) .nil
  | blank hc _ ih => exact .blank hc ih
  | @comment line gap hline _ ih =>
    have hsplit : '#' :: (line ++ '\n' :: gap) ++ ['\n'] =
        '#' :: (line ++ '\n' :: (gap ++ ['\n'])) := by simp
    rw [hsplit]
    exact .comment hline ih
  | lastComment _ hline => exact .comment hline .nil

namespace Partition

variable {names later : Interner} {offset : Nat} {text rest : List Char}
  {tokens others : List Token}

theorem grows (h : Partition names offset text tokens) (hgrows : names.Grows later) :
    Partition later offset text tokens := by
  induction h with
  | last h => exact .last h
  | token hgap hlexeme hnext _ ih => exact .token hgap (hlexeme.grows hgrows) hnext ih

/-- The text begins some bytes further behind. -/
theorem shift (h : Partition names offset text tokens) (bytes : Nat) :
    Partition names (offset + bytes) text (tokens.map (Renaming.shift bytes).token) := by
  induction h with
  | last h => exact .last h
  | @token offset gap lexeme rest kind tokens hgap hlexeme hnext _ ih =>
    have hstart : offset + byteCount gap + bytes = offset + bytes + byteCount gap :=
      Nat.add_right_comm _ _ _
    have hstop : offset + byteCount gap + byteCount lexeme + bytes =
        offset + bytes + byteCount gap + byteCount lexeme := by omega
    rw [hstop] at ih
    rw [List.map_cons, Renaming.token_shift, hstart, hstop]
    exact .token hgap hlexeme hnext ih

/-- Layout in front of a text belongs to its first gap. -/
theorem behind {gap : List Char} (hgap : Layout False gap)
    (h : Partition names (offset + byteCount gap) text tokens) :
    Partition names offset (gap ++ text) tokens := by
  cases h with
  | last h => exact .last (hgap.append h)
  | @token _ inner lexeme rest kind tokens hinner hlexeme hnext h =>
    have hbytes : offset + byteCount gap + byteCount inner =
        offset + byteCount (gap ++ inner) := by
      rw [byteCount_append, Nat.add_assoc]
    rw [hbytes] at h ⊢
    rw [← List.append_assoc]
    exact .token (hgap.append hinner) hlexeme hnext h

/-- Two texts with a line feed between them. -/
theorem join (h : Partition names offset text tokens)
    (hrest : Partition names (offset + byteCount text + 1) rest others) :
    Partition names offset (text ++ '\n' :: rest) (tokens ++ others) := by
  have hfeed : byteCount ['\n'] = 1 := by decide
  induction h with
  | @last offset gap hgap =>
    rw [List.append_cons, List.nil_append]
    refine behind hgap.closed ?_
    rw [byteCount_append, hfeed, ← Nat.add_assoc]
    exact hrest
  | @token offset gap lexeme tail kind tokens hgap hlexeme hnext _ ih =>
    have hbytes : offset + byteCount (gap ++ (lexeme ++ tail)) =
        offset + byteCount gap + byteCount lexeme + byteCount tail := by
      simp only [byteCount_append, Nat.add_assoc]
    rw [hbytes] at hrest
    have hsplit : gap ++ (lexeme ++ tail) ++ '\n' :: rest =
        gap ++ (lexeme ++ (tail ++ '\n' :: rest)) := by simp
    rw [hsplit]
    refine .token hgap hlexeme (fun c hc => ?_) (ih hrest)
    -- behind the last lexeme there is the line feed now
    cases tail with
    | nil =>
      cases hc
      cases kind <;> rfl
    | cons d tail => exact hnext c hc

/-- A semicolon by itself. -/
theorem semicolon (names : Interner) (offset : Nat) :
    Partition names offset [';'] [⟨.punct .semicolon, ⟨offset, offset + 1⟩⟩] :=
  @Partition.token names offset [] [';'] [] _ _ .nil rfl (fun _ _ => rfl) (.last .nil)

/-- The partition of a joined source. -/
theorem joined {p q : String} (hp : Partition names 0 p.toList tokens)
    (hq : Partition names 0 q.toList others) :
    Partition names 0 (joined p q).toList (joinedTokens (byteCount p.toList) tokens others) := by
  have hmark : byteCount [';'] = 1 := by decide
  have hq := hq.shift (byteCount p.toList + 3)
  rw [Nat.zero_add] at hq
  rw [toList_joined]
  refine hp.join ?_
  rw [Nat.zero_add]
  exact (semicolon names (byteCount p.toList + 1)).join (by rwa [hmark])

end Partition

/-! ## What is read -/

/-- The tokens of a source are a partition of it. -/
theorem partition_scanSource {source : String} {names : Interner} {offset : Nat}
    (hnames : names.Consistent) (hsize : byteCount source.toList ≤ maxOffset)
    (hending : (scanSource source names).ending = .ok offset) :
    Partition (scanSource source names).names 0 source.toList (scanSource source names).tokens := by
  have htotal : (CharStream.ofString source).total = byteCount source.toList := by
    simp [CharStream.total, CharStream.ofString, Position.start]
  exact Lexer.partition_scan (l := ⟨.ofString source, names⟩) hnames (htotal ▸ hsize) hending

/-- A partition is what is read of a source whose texts are known, and nothing is added to them. -/
theorem Partition.scanSource_eq {source : String} {names : Interner} {tokens : List Token}
    (h : Partition names 0 source.toList tokens) (hnames : names.Consistent)
    (hsize : byteCount source.toList ≤ maxOffset) :
    ∃ offset, scanSource source names = ⟨tokens, .ok offset, names⟩ :=
  h.scan_eq (p := .start) hnames rfl (by rwa [Nat.zero_add])

section
variable {p q : String} {a b n : Interner} {x y : Nat} (ha : a.Consistent) (hb : b.Consistent)
  (hp : (scanSource p a).ending = .ok x) (hq : (scanSource q b).ending = .ok y)
  (hsize : byteCount (joined p q).toList ≤ maxOffset) (hn : n.Consistent)
  (hpn : (scanSource p a).names.Grows n) (hqn : (scanSource q b).names.Grows n)
include ha hb hp hq hsize hn hpn hqn

/-- Under an interner that has grown from those of both sources, the joined one has the tokens of
the first one, the semicolon, and the moved tokens of the second one. -/
theorem scanSource_joined : ∃ offset, scanSource (joined p q) n =
    ⟨joinedTokens (byteCount p.toList) (scanSource p a).tokens (scanSource q b).tokens,
      .ok offset, n⟩ := by
  have hbytes := byteCount_joined p q
  have hfirst := (partition_scanSource ha (by omega) hp).grows hpn
  have hsecond := (partition_scanSource hb (by omega) hq).grows hqn
  exact (hfirst.joined hsecond).scanSource_eq hn hsize

end

/-! ## What is numbered -/

/-- The string in a word. -/
def Word.text? : Word → Option String
  | string text | identifier text | operator text => some text
  | number _ | keyword _ | punct _ => none

theorem textsOf_eq_spoken (names : Interner) (tokens : List Token) :
    textsOf names tokens = (tokens.map (Token.spoken names)).filterMap fun w => w.1.text? := by
  rw [List.filterMap_map]
  refine List.filterMap_congr fun t _ => ?_
  obtain ⟨kind, span⟩ := t
  cases kind <;> rfl

/-- The semicolon numbers nothing. -/
theorem textsOf_joinedTokens (names : Interner) (bytes : Nat) (tokens others : List Token) :
    textsOf names (joinedTokens bytes tokens others) =
      textsOf names tokens ++ textsOf names others := by
  have hmoved : textsOf names (others.map (Renaming.shift (bytes + 3)).token) =
      textsOf names others := by
    rw [textsOf, List.filterMap_map]
    refine List.filterMap_congr fun t _ => ?_
    rw [Function.comp_apply, Renaming.token_shift]
  rw [joinedTokens, textsOf_append, textsOf_cons, hmoved]
  rfl

/-- Read where the first source was read, and the second one behind it, the joined source leaves
the same interner. -/
theorem names_scanSource_joined {p q : String} {a : Interner} {x y : Nat} (ha : a.Consistent)
    (hp : (scanSource p a).ending = .ok x)
    (hq : (scanSource q (scanSource p a).names).ending = .ok y)
    (hsize : byteCount (joined p q).toList ≤ maxOffset) :
    (scanSource (joined p q) a).names = (scanSource q (scanSource p a).names).names := by
  have hb : (scanSource p a).names.Consistent := consistent_scanSource ha
  have hn : (scanSource q (scanSource p a).names).names.Consistent := consistent_scanSource hb
  have hgrows : (scanSource p a).names.Grows (scanSource q (scanSource p a).names).names :=
    (Lexer.numbers_scan (l := ⟨.ofString q, (scanSource p a).names⟩) hb).2.1
  obtain ⟨_, hscan⟩ := scanSource_joined ha hb hp hq hsize hn hgrows (.refl _)
  -- the texts are those of the words, which are the same under every interner
  have hwords := (Lexer.words_scan (l := ⟨.ofString (joined p q), a⟩) ha hn).2
  have htexts : textsOf (scanSource (joined p q) a).names (scanSource (joined p q) a).tokens =
      textsOf (scanSource p a).names (scanSource p a).tokens ++
        textsOf (scanSource q (scanSource p a).names).names
          (scanSource q (scanSource p a).names).tokens := by
    have hfirst := textsOf_of_grows (fun t ht => known_of_mem_scanSource ha ht) hgrows
    have hspoken : textsOf (scanSource (joined p q) a).names (scanSource (joined p q) a).tokens =
        textsOf (scanSource (joined p q) (scanSource q (scanSource p a).names).names).names
          (scanSource (joined p q) (scanSource q (scanSource p a).names).names).tokens := by
      rw [textsOf_eq_spoken, textsOf_eq_spoken]
      exact congrArg (List.filterMap fun w => w.1.text?) hwords.symm
    rw [hspoken, hscan, textsOf_joinedTokens, hfirst]
  have hnames : ∀ (source : String) {names : Interner}, names.Consistent →
      (scanSource source names).names = names.internAll
        (textsOf (scanSource source names).names (scanSource source names).tokens) :=
    fun source names h => Lexer.names_scan (l := ⟨.ofString source, names⟩) h
  rw [hnames (joined p q) ha, htexts, Interner.internAll_append, ← hnames p ha, ← hnames q hb]

end LambdaScript
