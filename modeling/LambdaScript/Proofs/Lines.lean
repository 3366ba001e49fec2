import Mathlib.Data.List.DropRight
import Mathlib.Data.Prod.Lex
import LambdaScript.Proofs.Cursor
import LambdaScript.Proofs.Labels
/-!
# The lines of a text

A line table knows where the lines of a text start, and finds everything else from there. What it
finds is said here without it: the line of an offset by the line feeds among the bytes in front of
it (`lineAt`), the text of a line by splitting the text at its line feeds (`LineTable.Tells`). The
table tells this of every text whose offsets are not clamped (`LineTable.tells`).

Clamped offsets are all the largest one. They do no harm to what lies below it, so the lemmas ask
only that the place they are about lies there.
-/

namespace LambdaScript

/-- The line of an offset: one more than there are line feeds among the bytes in front of it. -/
def lineAt (text : List Char) (offset : Nat) : Nat :=
  1 + ((utf8Bytes text).take offset).count lineFeed

/-! ## Counting line feeds -/

theorem utf8Bytes_append (xs ys : List Char) :
    utf8Bytes (xs ++ ys) = utf8Bytes xs ++ utf8Bytes ys :=
  List.flatMap_append

theorem length_utf8Bytes (text : List Char) : (utf8Bytes text).length = byteCount text := by
  induction text with
  | nil => rfl
  | cons c text ih =>
    rw [utf8Bytes_cons, List.length_append, String.length_utf8EncodeChar, ih, byteCount]

theorem count_utf8Bytes (text : List Char) : (utf8Bytes text).count lineFeed = text.count '\n' := by
  induction text with
  | nil => rfl
  | cons c text ih =>
    rw [utf8Bytes_cons, List.count_append, ih]
    by_cases hc : c = '\n'
    · subst hc
      rw [List.count_cons_self, Nat.add_comm]
      rfl
    · rw [List.count_cons_of_ne hc, List.count_eq_zero.mpr (lineFeed_notMem_utf8EncodeChar hc),
        Nat.zero_add]

theorem lineAt_byteCount (before after : List Char) :
    lineAt (before ++ after) (byteCount before) = 1 + before.count '\n' := by
  rw [lineAt, utf8Bytes_append, List.take_left' (length_utf8Bytes before), count_utf8Bytes]

/-! ## Starts in order -/

/-- In an increasing list, the entries up to a bound are the first ones. -/
theorem getElem_le_iff_lt_countP {l : List Nat} (h : l.Pairwise (· ≤ ·)) (bound i : Nat)
    (hi : i < l.length) : l[i] ≤ bound ↔ i < l.countP (· ≤ bound) := by
  induction l generalizing i with
  | nil => contradiction
  | cons start l ih =>
    obtain ⟨hfirst, hrest⟩ := List.pairwise_cons.mp h
    by_cases hstart : start ≤ bound
    · rw [List.countP_cons_of_pos (by simpa using hstart)]
      cases i with
      | zero => exact iff_of_true hstart (Nat.succ_pos _)
      | succ i =>
        rw [List.getElem_cons_succ, ih hrest i (Nat.lt_of_succ_lt_succ hi)]
        omega
    · -- none of the others is less than the first
      have hnone : l.countP (· ≤ bound) = 0 := by
        refine List.countP_eq_zero.mpr fun later hlater => ?_
        have hle := hfirst later hlater
        rw [decide_eq_true_iff]
        omega
      rw [List.countP_cons_of_neg (by simpa using hstart), hnone]
      refine iff_of_false ?_ (Nat.not_lt_zero _)
      cases i with
      | zero => exact hstart
      | succ i =>
        have hle := hfirst _ (List.getElem_mem (Nat.lt_of_succ_lt_succ hi))
        rw [List.getElem_cons_succ]
        omega

/-- Every start lies behind a character, and none behind the end. -/
theorem le_of_mem_lineStarts {offset start : Nat} {text : List Char}
    (h : start ∈ lineStarts offset text) :
    clampOffset (offset + 1) ≤ start ∧ start ≤ clampOffset (offset + byteCount text) := by
  induction text generalizing offset with
  | nil => contradiction
  | cons c text ih =>
    have hpos := c.utf8Size_pos
    have htail : start ∈ lineStarts (offset + c.utf8Size) text →
        clampOffset (offset + 1) ≤ start ∧
          start ≤ clampOffset (offset + byteCount (c :: text)) := by
      intro hmem
      have hle := ih hmem
      rw [byteCount]
      unfold clampOffset at hle ⊢
      omega
    rw [lineStarts] at h
    split at h
    · rcases List.mem_cons.mp h with rfl | hmem
      · rw [byteCount]
        unfold clampOffset
        omega
      · exact htail hmem
    · exact htail h

theorem pairwise_lineStarts (offset : Nat) (text : List Char) :
    (lineStarts offset text).Pairwise (· ≤ ·) := by
  induction text generalizing offset with
  | nil => exact .nil
  | cons c text ih =>
    rw [lineStarts]
    split
    · refine .cons (fun start hmem => ?_) (ih _)
      have hle := (le_of_mem_lineStarts hmem).1
      unfold clampOffset at hle ⊢
      omega
    · exact ih _

theorem countP_lineStarts_eq_zero {offset bound : Nat} (text : List Char)
    (h : bound < clampOffset (offset + 1)) : (lineStarts offset text).countP (· ≤ bound) = 0 := by
  refine List.countP_eq_zero.mpr fun start hstart => ?_
  have hle := (le_of_mem_lineStarts hstart).1
  rw [decide_eq_true_iff]
  omega

/-- There are as many starts up to an offset as line feeds in front of it. -/
theorem countP_lineStarts {text : List Char} {offset n : Nat}
    (hreach : min (offset + n) (offset + byteCount text) < maxOffset) :
    (lineStarts offset text).countP (· ≤ offset + n) =
      ((utf8Bytes text).take n).count lineFeed := by
  induction text generalizing offset n with
  | nil =>
    show 0 = ([].take n).count lineFeed
    rw [List.take_nil, List.count_nil]
  | cons c text ih =>
    have hpos := c.utf8Size_pos
    rw [byteCount] at hreach
    by_cases hfar : c.utf8Size ≤ n
    · -- the character lies in front of the offset
      have hn : offset + n = offset + c.utf8Size + (n - c.utf8Size) := by omega
      have hlater := @ih (offset + c.utf8Size) (n - c.utf8Size) (by omega)
      rw [← hn] at hlater
      rw [utf8Bytes_cons, List.take_append, String.length_utf8EncodeChar, List.count_append,
        ← hlater, List.take_of_length_le (by rwa [String.length_utf8EncodeChar]), lineStarts]
      by_cases hc : c = '\n'
      · subst hc
        have hsize : Char.utf8Size '\n' = 1 := by decide
        have hle : clampOffset (offset + Char.utf8Size '\n') ≤ offset + n := by
          unfold clampOffset
          omega
        rw [if_pos rfl, List.countP_cons_of_pos (by simpa using hle), Nat.add_comm]
        rfl
      · rw [if_neg hc, List.count_eq_zero.mpr (lineFeed_notMem_utf8EncodeChar hc), Nat.zero_add]
    · -- the offset lies in front of the character or inside it
      have hnone : (lineStarts offset (c :: text)).countP (· ≤ offset + n) = 0 := by
        rw [lineStarts]
        have hbound : offset + n < clampOffset (offset + c.utf8Size) := by
          unfold clampOffset
          omega
        have htail : (lineStarts (offset + c.utf8Size) text).countP (· ≤ offset + n) = 0 :=
          countP_lineStarts_eq_zero text (by unfold clampOffset at *; omega)
        split
        · rw [List.countP_cons_of_neg (by simpa using hbound), htail]
        · exact htail
      have hbytes : (utf8Bytes (c :: text)).take n = (String.utf8EncodeChar c).take n := by
        rw [utf8Bytes_cons, List.take_append_of_le_length]
        rw [String.length_utf8EncodeChar]
        omega
      rw [hnone, hbytes]
      refine (List.count_eq_zero.mpr fun hmem => ?_).symm
      by_cases hc : c = '\n'
      · subst hc
        have hsize : Char.utf8Size '\n' = 1 := by decide
        have hzero : n = 0 := by omega
        rw [hzero, List.take_zero] at hmem
        contradiction
      · exact lineFeed_notMem_utf8EncodeChar hc (List.mem_of_mem_take hmem)

namespace LineTable

variable {text : List Char} {offset : Nat}

/-- The line of an offset is found by counting, however long the text is. -/
theorem lineOf_eq_countP (text : List Char) (offset : Nat) :
    (ofText text).lineOf offset = (0 :: lineStarts 0 text).countP (· ≤ offset) := by
  have hpairwise : (0 :: lineStarts 0 text).Pairwise (· ≤ ·) :=
    .cons (fun _ _ => Nat.zero_le _) (pairwise_lineStarts 0 text)
  have hfound : countUpTo (ofText text).starts offset 0 (ofText text).starts.size (Nat.le_refl _) =
      (0 :: lineStarts 0 text).countP (· ≤ offset) :=
    countUpTo_eq (fun i hi => getElem_le_iff_lt_countP hpairwise offset i hi)
      (Nat.zero_le _) List.countP_le_length (Nat.le_refl _)
  rw [lineOf, hfound, List.countP_cons_of_pos (by simp)]
  exact Nat.max_eq_right (Nat.le_add_left 1 _)

/-- The line table finds the line of every offset, if not the line of the largest one in a text that
goes on behind it. -/
theorem lineOf_eq_lineAt (hreach : min offset (byteCount text) < maxOffset) :
    (ofText text).lineOf offset = lineAt text offset := by
  have hstarts := @countP_lineStarts text 0 offset (by rwa [Nat.zero_add, Nat.zero_add])
  rw [Nat.zero_add] at hstarts
  rw [lineOf_eq_countP, List.countP_cons_of_pos (by simp), hstarts, lineAt, Nat.add_comm]

/-- The line of an offset is the same whether it is found with a column or without. -/
theorem position_fst (text : List Char) (offset : Nat) :
    ((ofText text).position text offset).1 = (ofText text).lineOf offset := by
  show (ofText text).lineOf (min offset (clampOffset (byteCount text))) = _
  rw [lineOf_eq_countP, lineOf_eq_countP]
  refine List.countP_congr fun start hstart => ?_
  have hend : start ≤ clampOffset (byteCount text) := by
    rcases List.mem_cons.mp hstart with rfl | hmem
    · exact Nat.zero_le _
    · have hle := (le_of_mem_lineStarts hmem).2
      rwa [Nat.zero_add] at hle
  rw [decide_eq_true_iff, decide_eq_true_iff]
  omega

/-- An offset behind the end counts as the end. -/
theorem position_of_le (hsize : byteCount text < maxOffset) (h : byteCount text ≤ offset) :
    (ofText text).position text offset = (ofText text).position text (byteCount text) := by
  rw [position, position, clampOffset_of_le (by omega), Nat.min_eq_right h, Nat.min_self]

/-- The place behind a text is found, however long the text goes on. -/
theorem position_append {before : List Char} (after : List Char)
    (hreach : byteCount before < maxOffset) :
    (ofText (before ++ after)).position (before ++ after) (byteCount before) =
      (1 + before.count '\n', (lastLine before).length + 1) := by
  refine position_of_lineOf (by omega) ?_
  rw [lineOf_eq_lineAt (by omega), lineAt_byteCount]

end LineTable

/-! ## Lines -/

theorem notMem_takeWhile (text : List Char) : '\n' ∉ text.takeWhile (· != '\n') := by
  intro hmem
  have hne := List.all_eq_true.mp List.all_takeWhile _ hmem
  exact absurd rfl (bne_iff_ne.mp hne)

theorem notMem_lastLine (text : List Char) : '\n' ∉ lastLine text := by
  rw [lastLine, List.mem_reverse]
  exact notMem_takeWhile _

theorem lastLine_append_of_notMem {line : List Char} (before : List Char) (h : '\n' ∉ line) :
    lastLine (before ++ line) = lastLine before ++ line := by
  induction line using List.reverseRecOn with
  | nil => rw [List.append_nil, List.append_nil]
  | append_singleton line c ih =>
    rw [List.mem_append, List.mem_singleton, not_or] at h
    rw [← List.append_assoc, lastLine_concat, if_neg (Ne.symm h.2), ih h.1, List.append_assoc]

theorem lastLine_append_cons (before after : List Char) :
    lastLine (before ++ '\n' :: after) = lastLine after := by
  induction after using List.reverseRecOn with
  | nil => rw [lastLine_concat, if_pos rfl]; rfl
  | append_singleton after c ih =>
    rw [← List.cons_append, ← List.append_assoc, lastLine_concat, lastLine_concat, ih]

/-- A line stands behind a line feed or at the beginning, and goes on to the next one or to the
end. -/
structure IsLine (text before line after : List Char) : Prop where
  eq : text = before ++ (line ++ after)
  begins : lastLine before = []
  whole : '\n' ∉ line
  ends : after = [] ∨ after.head? = some '\n'

/-- Every place of a text is on a line. -/
theorem exists_isLine (before after : List Char) : ∃ lines, before = lines ++ lastLine before ∧
    IsLine (before ++ after) lines (lastLine before ++ after.takeWhile (· != '\n'))
      (after.dropWhile (· != '\n')) := by
  -- the line begins behind the last line feed in front of the place
  have hsplit : before = (before.reverse.dropWhile (· != '\n')).reverse ++ lastLine before := by
    rw [lastLine, ← List.reverse_append, List.takeWhile_append_dropWhile, List.reverse_reverse]
  refine ⟨_, hsplit, ?_, ?_, ?_, ?_⟩
  · rw [List.append_assoc, List.takeWhile_append_dropWhile, ← List.append_assoc, ← hsplit]
  · have hhead := List.head?_dropWhile_not (· != '\n') before.reverse
    rw [lastLine, List.reverse_reverse]
    cases hdrop : before.reverse.dropWhile (· != '\n') with
    | nil => rfl
    | cons c rest =>
      rw [hdrop] at hhead
      rw [List.takeWhile_cons_of_neg (by simpa using hhead)]
      rfl
  · rw [List.mem_append, not_or]
    exact ⟨notMem_lastLine before, notMem_takeWhile after⟩
  · have hhead := List.head?_dropWhile_not (· != '\n') after
    cases hdrop : after.dropWhile (· != '\n') with
    | nil => exact .inl rfl
    | cons c rest =>
      rw [hdrop] at hhead
      have hc : c = '\n' := by simpa using hhead
      exact .inr (congrArg some hc)

/-- The pieces between the line feeds of a text are its lines, in order. -/
theorem exists_isLine_of_splitOn {text line : List Char} {k : Nat}
    (h : (text.splitOn '\n')[k]? = some line) :
    ∃ before after, IsLine text before line after ∧ before.count '\n' = k := by
  induction k generalizing text with
  | zero =>
    by_cases hmem : '\n' ∈ text
    · obtain ⟨first, rest, rfl, hfirst⟩ := List.eq_append_cons_of_mem hmem
      rw [List.splitOn_append_cons_self_of_not_mem hfirst] at h
      cases h
      exact ⟨[], _, ⟨rfl, rfl, hfirst, .inr rfl⟩, rfl⟩
    · rw [List.splitOn_eq_singleton hmem] at h
      cases h
      exact ⟨[], [], ⟨(List.append_nil _).symm, rfl, hmem, .inl rfl⟩, rfl⟩
  | succ k ih =>
    by_cases hmem : '\n' ∈ text
    · obtain ⟨first, rest, rfl, hfirst⟩ := List.eq_append_cons_of_mem hmem
      rw [List.splitOn_append_cons_self_of_not_mem hfirst, List.getElem?_cons_succ] at h
      obtain ⟨before, after, hline, hcount⟩ := ih h
      refine ⟨first ++ '\n' :: before, after, ⟨?_, ?_, hline.whole, hline.ends⟩, ?_⟩
      · rw [hline.eq, List.append_assoc, List.cons_append]
      · rw [lastLine_append_cons, hline.begins]
      · rw [List.count_append, List.count_cons_self, List.count_eq_zero.mpr hfirst, hcount,
          Nat.zero_add]
    · rw [List.splitOn_eq_singleton hmem] at h
      contradiction

theorem length_splitOn (text : List Char) :
    (text.splitOn '\n').length = 1 + text.count '\n' := by
  induction text with
  | nil => rfl
  | cons c text ih =>
    rw [List.splitOn_cons_eq_if_modifyHead]
    by_cases hc : c = '\n'
    · rw [if_pos (beq_iff_eq.mpr hc), List.length_cons, ih, hc, List.count_cons_self]
      omega
    · rw [if_neg (mt beq_iff_eq.mp hc), List.length_modifyHead, ih, List.count_cons_of_ne hc]

/-! ## The text of a line -/

/-- Of what ends a line, only carriage returns stand on it. -/
theorem trimLineEnd_eq {line : List Char} (h : '\n' ∉ line) :
    LineTable.trimLineEnd line = line.rdropWhile (· == '\r') := by
  induction line using List.reverseRecOn with
  | nil => rfl
  | append_singleton line c ih =>
    rw [List.mem_append, List.mem_singleton, not_or] at h
    have hend : LineTable.isLineEnd c = (c == '\r') := by
      rw [LineTable.isLineEnd, beq_eq_false_iff_ne.mpr (Ne.symm h.2), Bool.false_or]
    show List.rdropWhile LineTable.isLineEnd (line ++ [c]) = _
    rw [List.rdropWhile_concat, List.rdropWhile_concat, hend]
    split
    · exact ih h.1
    · rfl

theorem trimLineEnd_concat (line : List Char) :
    LineTable.trimLineEnd (line ++ ['\n']) = LineTable.trimLineEnd line :=
  List.rdropWhile_concat_pos LineTable.isLineEnd line '\n' rfl

theorem lineStarts_eq_nil {line : List Char} (offset : Nat) (h : '\n' ∉ line) :
    lineStarts offset line = [] := by
  rw [← List.length_eq_zero_iff, length_lineStarts, List.count_eq_zero.mpr h]

namespace LineTable

variable {text before line after : List Char}

/-- The table holds where a line begins. -/
theorem starts_of_isLine (h : IsLine text before line after)
    (hreach : byteCount before ≤ maxOffset) :
    (ofText text).starts[before.count '\n']? = some (byteCount before) := by
  obtain ⟨lines, hlines, hlast⟩ := exists_lines hreach
  rw [h.begins, List.append_nil] at hlines
  have hindex : before.count '\n' = (0 :: lineStarts 0 before).length - 1 := by
    rw [List.length_cons, length_lineStarts, Nat.add_sub_cancel]
  rw [h.eq, ofText_append, List.getElem?_toArray, hindex,
    List.getElem?_append_left (by simp), ← List.getLast?_eq_getElem?, hlast, hlines]

/-- The table holds where the next line begins; behind the last one there is none. -/
theorem starts_behind_isLine (h : IsLine text before line after)
    (hreach : byteCount (before ++ line) < maxOffset) :
    (ofText text).starts.getD (1 + before.count '\n') (byteCount text) =
      byteCount before + byteCount (line ++ after.take 1) := by
  have hindex : 1 + before.count '\n' = (0 :: lineStarts 0 before).length := by
    rw [List.length_cons, length_lineStarts, Nat.add_comm]
  have hbehind : (ofText text).starts[1 + before.count '\n']? =
      (lineStarts (byteCount before + byteCount line) after)[0]? := by
    rw [h.eq, ofText_append, List.getElem?_toArray, hindex,
      List.getElem?_append_right (Nat.le_refl _), Nat.sub_self, lineStarts_append,
      lineStarts_eq_nil _ h.whole, List.nil_append]
  rw [Array.getD_eq_getD_getElem?, hbehind]
  rw [byteCount_append] at hreach
  rcases h.ends with rfl | hhead
  · rw [h.eq, byteCount_append]
    rfl
  · obtain ⟨rest, rfl⟩ : ∃ rest, after = '\n' :: rest := List.head?_eq_some_iff.mp hhead
    have hsize : Char.utf8Size '\n' = 1 := by decide
    have hfeed : byteCount ['\n'] = 1 := by decide
    rw [lineStarts, if_pos rfl, hsize, clampOffset_of_le (by omega)]
    rw [List.getElem?_cons_zero, Option.getD_some, List.take_succ_cons, List.take_zero,
      byteCount_append, hfeed, Nat.add_assoc]

/-- The text of a line is the line without carriage returns at its end. -/
theorem lineText_of_isLine (h : IsLine text before line after)
    (hreach : byteCount (before ++ line) < maxOffset) :
    (ofText text).lineText text (1 + before.count '\n') = line.rdropWhile (· == '\r') := by
  have hbefore : byteCount before ≤ maxOffset := by
    rw [byteCount_append] at hreach
    omega
  have hstart : (ofText text).starts[1 + before.count '\n' - 1]? = some (byteCount before) := by
    rw [Nat.add_sub_cancel_left]
    exact starts_of_isLine h hbefore
  -- what is cut out is the line and the line feed behind it
  have hslice : slice text (byteCount before)
      (byteCount before + byteCount (line ++ after.take 1)) = line ++ after.take 1 := by
    have hcut := slice?_append before (line ++ after.take 1) (after.drop 1)
    rw [List.append_assoc, List.take_append_drop, ← h.eq] at hcut
    rw [slice, hcut, Option.getD_some]
  rw [lineText, if_neg (by omega), hstart]
  simp only [starts_behind_isLine h hreach, hslice]
  rw [← trimLineEnd_eq h.whole]
  rcases h.ends with rfl | hhead
  · rw [List.take_nil, List.append_nil]
  · obtain ⟨rest, rfl⟩ : ∃ rest, after = '\n' :: rest := List.head?_eq_some_iff.mp hhead
    exact trimLineEnd_concat line

/-- The text of the line on which a place is. -/
theorem lineText_around (before after : List Char)
    (hreach : byteCount (before ++ after.takeWhile (· != '\n')) < maxOffset) :
    (ofText (before ++ after)).lineText (before ++ after) (1 + before.count '\n') =
      (lastLine before ++ after.takeWhile (· != '\n')).rdropWhile (· == '\r') := by
  obtain ⟨lines, hlines, hline⟩ := exists_isLine before after
  have hcount : before.count '\n' = lines.count '\n' := by
    rw [hlines, List.count_append, List.count_eq_zero.mpr (notMem_lastLine _), Nat.add_zero]
  rw [hcount]
  refine lineText_of_isLine hline ?_
  rwa [← List.append_assoc, ← hlines]

/-- There is no line behind the last one. -/
theorem lineText_of_lt {k : Nat} (h : text.count '\n' < k) :
    (ofText text).lineText text (k + 1) = [] := by
  have hnone : (ofText text).starts[k + 1 - 1]? = none := by
    refine Array.getElem?_eq_none ?_
    show (0 :: lineStarts 0 text).length ≤ _
    rw [List.length_cons, length_lineStarts]
    omega
  rw [lineText, if_neg (Nat.succ_ne_zero k), hnone]

/-- A line of the table is a piece between line feeds. -/
theorem lineText_succ (hsize : byteCount text < maxOffset) (k : Nat) :
    (ofText text).lineText text (k + 1) =
      ((text.splitOn '\n').getD k []).rdropWhile (· == '\r') := by
  rw [List.getD_eq_getElem?_getD]
  cases hline : (text.splitOn '\n')[k]? with
  | none =>
    have hlength := List.getElem?_eq_none_iff.mp hline
    rw [length_splitOn] at hlength
    rw [lineText_of_lt (by omega)]
    rfl
  | some line =>
    obtain ⟨before, after, hisLine, rfl⟩ := exists_isLine_of_splitOn hline
    have hreach : byteCount (before ++ line) < maxOffset := by
      rw [hisLine.eq, ← List.append_assoc, byteCount_append] at hsize
      omega
    rw [Nat.add_comm, lineText_of_isLine hisLine hreach, Option.getD_some]

/-- No text of a line has a line feed in it. -/
theorem lineFeed_notMem_lineText (hsize : byteCount text < maxOffset) (k : Nat) :
    '\n' ∉ (ofText text).lineText text k := by
  cases k with
  | zero => exact List.not_mem_nil
  | succ k =>
    rw [lineText_succ hsize]
    intro hmem
    have hline := (List.rdropWhile_prefix _ _).subset hmem
    rw [List.getD_eq_getElem?_getD] at hline
    cases hpiece : (text.splitOn '\n')[k]? with
    | none =>
      rw [hpiece] at hline
      contradiction
    | some line =>
      obtain ⟨_, _, hisLine, -⟩ := exists_isLine_of_splitOn hpiece
      rw [hpiece] at hline
      exact hisLine.whole hline

end LineTable

/-! ## Trailing characters -/

theorem rdropWhile_append {α : Type} {p : α → Bool} (xs : List α) {ys : List α}
    (h : ∃ y ∈ ys, p y = false) : (xs ++ ys).rdropWhile p = xs ++ ys.rdropWhile p := by
  induction ys using List.reverseRecOn with
  | nil =>
    obtain ⟨y, hy, -⟩ := h
    contradiction
  | append_singleton ys y ih =>
    rw [← List.append_assoc, List.rdropWhile_concat, List.rdropWhile_concat]
    by_cases hp : p y = true
    · rw [if_pos hp, if_pos hp]
      obtain ⟨z, hz, hzp⟩ := h
      rcases List.mem_append.mp hz with hz | hz
      · exact ih ⟨z, hz, hzp⟩
      · rw [List.mem_singleton.mp hz, hp] at hzp
        contradiction
    · rw [if_neg hp, if_neg hp, List.append_assoc]

/-- The first character stays if any does. -/
theorem exists_rdropWhile_cons {α : Type} {p : α → Bool} {x : α} {xs : List α}
    (h : ∃ y ∈ x :: xs, p y = false) : ∃ ys, (x :: xs).rdropWhile p = x :: ys := by
  have hne : (x :: xs).rdropWhile p ≠ [] := by
    intro hnil
    obtain ⟨y, hy, hyp⟩ := h
    rw [List.rdropWhile_eq_nil_iff.mp hnil y hy] at hyp
    contradiction
  obtain ⟨y, ys, hys⟩ := List.exists_cons_of_ne_nil hne
  have hprefix := List.rdropWhile_prefix p (x :: xs)
  rw [hys, List.cons_prefix_cons] at hprefix
  exact ⟨ys, by rw [hys, hprefix.1]⟩

/-! ## What is found -/

namespace LineTable

/-- What a line table tells about a text. -/
structure Tells (text : List Char) : Prop where
  line (offset : Nat) : (ofText text).lineOf offset = lineAt text offset
  sameLine (offset : Nat) : ((ofText text).position text offset).1 = (ofText text).lineOf offset
  /-- Later places have later lines and columns, in the order of dictionaries. -/
  increasing (i j : Nat) : Boundary text i → Boundary text j → i < j →
    toLex ((ofText text).position text i) < toLex ((ofText text).position text j)
  lineText (k : Nat) : (ofText text).lineText text (k + 1) =
    ((text.splitOn '\n').getD k []).rdropWhile (· == '\r')
  noLineFeed (k : Nat) : '\n' ∉ (ofText text).lineText text k
  noLine (k : Nat) : k = 0 ∨ 1 + text.count '\n' < k → (ofText text).lineText text k = []
  /-- A character is found in the text of its line, unless nothing but carriage returns follows. -/
  character (before : List Char) (c : Char) (after : List Char) : text = before ++ c :: after →
    c ≠ '\n' → ¬(∀ d ∈ c :: after.takeWhile (· != '\n'), d = '\r') →
    ∃ line column, (ofText text).position text (byteCount before) = (line, column + 1) ∧
      ((ofText text).lineText text line)[column]? = some c

variable {text : List Char}

theorem position_lt {before between : List Char} (after : List Char) (hbetween : between ≠ [])
    (hreach : byteCount (before ++ between) < maxOffset) :
    toLex ((ofText (before ++ (between ++ after))).position (before ++ (between ++ after))
        (byteCount before)) <
      toLex ((ofText (before ++ (between ++ after))).position (before ++ (between ++ after))
        (byteCount (before ++ between))) := by
  have hfirst : byteCount before < maxOffset := by
    rw [byteCount_append] at hreach
    omega
  have hsecond := position_append after hreach
  rw [List.append_assoc] at hsecond
  rw [position_append _ hfirst, hsecond, Prod.Lex.toLex_lt_toLex, List.count_append]
  by_cases hmem : '\n' ∈ between
  · -- a line feed in between makes the line a later one
    have hcount := List.count_pos_iff.mpr hmem
    exact .inl (by show _ < _; omega)
  · have hlength := List.length_pos_iff.mpr hbetween
    refine .inr ⟨?_, ?_⟩
    · show 1 + before.count '\n' = 1 + (before.count '\n' + between.count '\n')
      rw [List.count_eq_zero.mpr hmem, Nat.add_zero]
    · show (lastLine before).length + 1 < (lastLine (before ++ between)).length + 1
      rw [lastLine_append_of_notMem before hmem, List.length_append]
      omega

theorem position_lt_of_boundary {i j : Nat} (hsize : byteCount text < maxOffset)
    (hi : Boundary text i) (hj : Boundary text j) (hlt : i < j) :
    toLex ((ofText text).position text i) < toLex ((ofText text).position text j) := by
  obtain ⟨before, after, htext, rfl⟩ := hi
  obtain ⟨before', after', htext', rfl⟩ := hj
  rw [htext] at htext'
  rcases List.append_eq_append_iff.mp htext' with ⟨between, rfl, rfl⟩ | ⟨between, rfl, rfl⟩
  · have hbetween : between ≠ [] := by
      rintro rfl
      rw [List.append_nil] at hlt
      exact Nat.lt_irrefl _ hlt
    have hreach : byteCount (before ++ between) < maxOffset := by
      rw [htext, ← List.append_assoc, byteCount_append] at hsize
      omega
    rw [htext]
    exact position_lt after' hbetween hreach
  · -- the second place is not behind the first
    rw [byteCount_append] at hlt
    omega

theorem exists_character {before after : List Char} {c : Char} (htext : text = before ++ c :: after)
    (hsize : byteCount text < maxOffset) (hc : c ≠ '\n')
    (hshown : ¬(∀ d ∈ c :: after.takeWhile (· != '\n'), d = '\r')) :
    ∃ line column, (ofText text).position text (byteCount before) = (line, column + 1) ∧
      ((ofText text).lineText text line)[column]? = some c := by
  have hwhole : (c :: after).takeWhile (· != '\n') = c :: after.takeWhile (· != '\n') :=
    List.takeWhile_cons_of_pos (bne_iff_ne.mpr hc)
  have hreach : byteCount (before ++ (c :: after).takeWhile (· != '\n')) < maxOffset := by
    rw [htext, ← List.takeWhile_append_dropWhile (p := (· != '\n')) (l := c :: after),
      ← List.append_assoc, byteCount_append] at hsize
    omega
  have htold := lineText_around before (c :: after) hreach
  rw [← htext, hwhole] at htold
  have hkept : ∃ d ∈ c :: after.takeWhile (· != '\n'), (d == '\r') = false := by
    rw [not_forall] at hshown
    obtain ⟨d, hd⟩ := hshown
    rw [Classical.not_imp] at hd
    exact ⟨d, hd.1, beq_eq_false_iff_ne.mpr hd.2⟩
  obtain ⟨rest, hrest⟩ := exists_rdropWhile_cons hkept
  rw [rdropWhile_append _ hkept, hrest] at htold
  have hplace : byteCount before < maxOffset := by
    rw [htext, byteCount_append] at hsize
    omega
  refine ⟨1 + before.count '\n', (lastLine before).length, ?_, ?_⟩
  · rw [htext]
    exact position_append _ hplace
  · rw [htold, List.getElem?_append_right (Nat.le_refl _), Nat.sub_self]
    rfl

/-- The line table finds the line, the column and the text of every place, as long as no offset is
clamped. -/
theorem tells (hsize : byteCount text < maxOffset) : Tells text where
  line offset := lineOf_eq_lineAt (by omega)
  sameLine offset := position_fst text offset
  increasing i j := position_lt_of_boundary hsize
  lineText k := lineText_succ hsize k
  noLineFeed := lineFeed_notMem_lineText hsize
  noLine k hk := by
    rcases hk with rfl | hlt
    · rfl
    · obtain ⟨k, rfl⟩ : ∃ n, k = n + 1 := ⟨k - 1, by omega⟩
      exact lineText_of_lt (by omega)
  character before c after htext hc hshown := exists_character htext hsize hc hshown

/-- Two lines, of which the first one holds a carriage return and ends in two. -/
theorem tells_carriageReturn : byteCount "é\rb\r\r\nc".toList < maxOffset ∧
    Tells "é\rb\r\r\nc".toList ∧
    (ofText "é\rb\r\r\nc".toList).lineOf 3 = 1 ∧ (ofText "é\rb\r\r\nc".toList).lineOf 99 = 2 ∧
    (ofText "é\rb\r\r\nc".toList).lineText "é\rb\r\r\nc".toList 1 = "é\rb".toList := by
  have hsize : byteCount "é\rb\r\r\nc".toList < maxOffset := by decide
  have htells := tells hsize
  refine ⟨hsize, htells, ?_, ?_, ?_⟩
  · rw [htells.line]
    decide +kernel
  · rw [htells.line]
    decide +kernel
  · rw [htells.lineText]
    decide +kernel

end LineTable

end LambdaScript
