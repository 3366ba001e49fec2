import Mathlib.Data.Finset.Card
import Mathlib.Data.List.Nodup
import LambdaScript.Proofs.Texts
/-!
# Which number a string gets

An interner to which strings have been given by any calls (`Interner.behindCalls`) holds the empty
string and behind it the others in the order in which they first came (`Interner.seen`). The number
of a string is its place there; that is what every call answers, and the table of numbers and the
list of strings say the same (`Interner.Numbers`, `Interner.numbers_behindCalls`).

All of this needs that numbers do not run out, or else `Interner.tryIntern` fails.
-/

namespace LambdaScript.Interner

/-- A call that gives a string to an interner. -/
inductive Call where
  | intern (s : String)
  | tryIntern (s : String)

/-- The string that is given. -/
def Call.text : Call → String
  | .intern s => s
  | .tryIntern s => s

/-- What a call answers, and the interner behind it. -/
def answer (names : Interner) : Call → Except InternError Name × Interner
  | .intern s => (.ok (names.intern s).1, (names.intern s).2)
  | .tryIntern s => names.tryIntern s

/-- The interner behind some calls. -/
def behindCalls (names : Interner) : List Call → Interner
  | [] => names
  | call :: calls => (names.answer call).2.behindCalls calls

/-- What some calls answer. -/
def answers (names : Interner) : List Call → List (Except InternError Name)
  | [] => []
  | call :: calls => (names.answer call).1 :: (names.answer call).2.answers calls

/-- The empty string and then the strings that were given, each where it first came. -/
def seen (texts : List String) : List String := ("" :: texts).eraseDups

/-- The interner holds exactly the empty string and the strings that were given. -/
structure Numbers (texts : List String) (names : Interner) : Prop where
  strings : names.strings.toList = seen texts
  empty : names.find? .empty = some ""
  inverse : ∀ (s : String) (n : Name), names.ids[s]? = some n ↔ names.strings[n.index]? = some s
  issued : ∀ n : Name, (∃ s : String, names.ids[s]? = some n) ↔ n.index < names.size
  held : ∀ s : String, (∃ n : Name, names.ids[s]? = some n) ↔ s = "" ∨ s ∈ texts
  size : names.size = ("" :: texts).toFinset.card

/-- What further calls do to an interner: each string has one number and each number one string, for
good. -/
structure Steady (names : Interner) : Prop where
  lookup : ∀ s, (names.intern s).2.find? (names.intern s).1 = some s
  tryIntern : ∀ s, names.tryIntern s = (.ok (names.intern s).1, (names.intern s).2)
  injective : ∀ s t calls,
    (names.intern s).1 = (((names.intern s).2.behindCalls calls).intern t).1 ↔ s = t
  kept : ∀ n s calls, names.find? n = some s → (names.behindCalls calls).find? n = some s
  known : ∀ n s, names.find? n = some s → names.intern s = (n, names)
  added : ∀ s, (∀ n, names.find? n ≠ some s) → (names.intern s).1 = ⟨names.size⟩ ∧
    (names.intern s).2.strings = names.strings.push s ∧
    ∀ t : String, (names.intern s).2.ids[t]? = if s = t then some ⟨names.size⟩ else names.ids[t]?

variable {names : Interner} {s : String} {n : Name}

/-! ## Places -/

/-- A string that is held is held once. -/
theorem Consistent.nodup (h : names.Consistent) : names.strings.toList.Nodup := by
  rw [List.nodup_iff_getElem?_ne_getElem?]
  intro i j hlt hj heq
  have hsize : j < names.strings.size := hj
  have hsecond : names.find? ⟨j⟩ = some names.strings[j] := Array.getElem?_eq_getElem hsize
  have hfirst : names.find? ⟨i⟩ = some names.strings[j] := by
    rw [← hsecond]
    simpa [find?] using heq
  have hsame := (h _ _).mpr hfirst
  rw [(h _ _).mpr hsecond] at hsame
  cases hsame
  exact Nat.lt_irrefl _ hlt

/-- The number of a string is its place among the strings. -/
theorem Consistent.eq_idxOf (h : names.Consistent) (hn : names.find? n = some s) :
    n = ⟨names.strings.toList.idxOf s⟩ := by
  obtain ⟨hlt, rfl⟩ := Array.getElem?_eq_some_iff.mp hn
  have hplace := h.nodup.idxOf_getElem n.index hlt
  rw [Array.getElem_toList] at hplace
  rw [hplace]

theorem isSome_find?_iff : (names.find? n).isSome = true ↔ n.index < names.size := by
  rw [find?, size, Option.isSome_iff_ne_none, ne_eq, Array.getElem?_eq_none_iff, Nat.not_le]

/-! ## Calls -/

/-- As long as there is a number left, trying to number a string succeeds. -/
theorem tryIntern_eq (hroom : names.size ≤ maxIndex) (s : String) :
    names.tryIntern s = (.ok (names.intern s).1, (names.intern s).2) := by
  unfold tryIntern intern
  cases names.ids[s]? with
  | some n => rfl
  | none => exact if_pos hroom

theorem answer_eq (hroom : names.size ≤ maxIndex) (call : Call) :
    names.answer call = (.ok (names.intern call.text).1, (names.intern call.text).2) := by
  cases call with
  | intern s => rfl
  | tryIntern s => exact tryIntern_eq hroom s

theorem size_le_internAll (h : names.Consistent) (texts : List String) :
    names.size ≤ (names.internAll texts).size := by
  have hstrings := congrArg List.length (strings_internAll h texts)
  rw [List.length_append, Array.length_toList, Array.length_toList] at hstrings
  rw [size, size, hstrings]
  exact Nat.le_add_right _ _

/-- With numbers enough, calls number their strings one after the other, and each answers the place
that its string has in the end. -/
theorem behindCalls_eq (h : names.Consistent) (calls : List Call)
    (hroom : (names.internAll (calls.map Call.text)).size ≤ maxIndex) :
    names.behindCalls calls = names.internAll (calls.map Call.text) ∧
      names.answers calls = (calls.map Call.text).map fun s =>
        .ok ⟨(names.internAll (calls.map Call.text)).strings.toList.idxOf s⟩ := by
  induction calls generalizing names with
  | nil => exact ⟨rfl, rfl⟩
  | cons call calls ih =>
    have hanswer := answer_eq (Nat.le_trans (size_le_internAll h _) hroom) call
    have hconsistent := consistent_intern h call.text
    have hstep : names.internAll ((call :: calls).map Call.text) =
        (names.intern call.text).2.internAll (calls.map Call.text) := rfl
    rw [hstep] at hroom ⊢
    obtain ⟨hbehind, hanswers⟩ := ih hconsistent hroom
    have hheld := grows_internAll _ (calls.map Call.text) _ _ (find?_intern h call.text)
    have hplace := (consistent_internAll hconsistent _).eq_idxOf hheld
    constructor
    · rw [behindCalls, hanswer, hbehind]
    · rw [answers, hanswer, hanswers, List.map_cons, List.map_cons, ← hplace]

theorem grows_tryIntern (names : Interner) (s : String) : names.Grows (names.tryIntern s).2 := by
  unfold tryIntern
  split
  · exact .refl names
  · split
    · exact grows_push names s
    · exact .refl names

theorem grows_behindCalls (names : Interner) (calls : List Call) :
    names.Grows (names.behindCalls calls) := by
  induction calls generalizing names with
  | nil => exact .refl names
  | cons call calls ih =>
    have hfirst : names.Grows (names.answer call).2 := by
      cases call with
      | intern s => exact grows_intern names s
      | tryIntern s => exact grows_tryIntern names s
    exact hfirst.trans (ih _)

theorem consistent_behindCalls (h : names.Consistent) (calls : List Call) :
    (names.behindCalls calls).Consistent := by
  induction calls generalizing names with
  | nil => exact h
  | cons call calls ih =>
    refine ih ?_
    cases call with
    | intern s => exact consistent_intern h s
    | tryIntern s => exact consistent_tryIntern h s

/-- A string that is not held is put behind the others. -/
theorem intern_eq_push (h : names.Consistent) (hs : ∀ n, names.find? n ≠ some s) :
    names.intern s = names.push s := by
  have hnone : names.ids[s]? = none := by
    rw [Option.eq_none_iff_forall_ne_some]
    intro n hn
    exact hs n ((h s n).mp hn)
  rw [intern, hnone]

theorem Consistent.steady (h : names.Consistent) (hroom : names.size ≤ maxIndex) :
    Steady names := by
  constructor
  · exact find?_intern h
  · exact tryIntern_eq hroom
  · intro s t calls
    have hlater := consistent_behindCalls (consistent_intern h s) calls
    have hs := grows_behindCalls _ calls _ _ (find?_intern h s)
    constructor
    · intro hsame
      have ht := find?_intern hlater t
      rw [← hsame, grows_intern _ t _ _ hs] at ht
      exact Option.some.inj ht
    · rintro rfl
      rw [intern_of_find? hlater hs]
  · intro n s calls
    exact grows_behindCalls names calls n s
  · intro n s
    exact intern_of_find? h
  · intro s hs
    rw [intern_eq_push h hs]
    exact ⟨rfl, rfl, ids_push names s⟩

/-! ## Fresh interners -/

theorem strings_internAll_fresh (texts : List String) :
    (fresh.internAll texts).strings.toList = seen texts := by
  have hstart : fresh.strings.toList = [""] := rfl
  have hnew : ∀ s : String, decide (s ∉ [""]) = !s == "" := by
    intro s
    simp [beq_eq_decide]
  rw [strings_internAll consistent_fresh, newTo, hstart, seen, List.eraseDups_cons]
  simp only [hnew, List.singleton_append]

theorem size_internAll_fresh (texts : List String) :
    (fresh.internAll texts).size = ("" :: texts).toFinset.card := by
  have hnodup := (consistent_internAll consistent_fresh texts).nodup
  rw [strings_internAll_fresh] at hnodup
  have hsame : ("" :: texts).toFinset = (seen texts).toFinset := by
    ext s
    rw [List.mem_toFinset, List.mem_toFinset, seen, List.mem_eraseDups]
  rw [hsame, List.toFinset_card_of_nodup hnodup, ← strings_internAll_fresh, Array.length_toList]
  rfl

theorem numbers_internAll_fresh (texts : List String) : Numbers texts (fresh.internAll texts) := by
  have hconsistent := consistent_internAll consistent_fresh texts
  have hstrings := strings_internAll_fresh texts
  constructor
  · exact hstrings
  · exact grows_internAll fresh texts _ _ rfl
  · exact hconsistent
  · intro n
    rw [← isSome_find?_iff, Option.isSome_iff_exists]
    exact exists_congr fun s => hconsistent s n
  · intro s
    have hmem : s ∈ (fresh.internAll texts).strings.toList ↔ s = "" ∨ s ∈ texts := by
      rw [hstrings, seen, List.mem_eraseDups, List.mem_cons]
    rw [← hmem, mem_strings_iff]
    exact exists_congr fun n => hconsistent s n
  · exact size_internAll_fresh texts

/-- Whatever calls have given strings to an interner, as long as numbers last: it holds these
strings and the empty one, once each, in the order in which they first came, and their numbers are
their places. That is what the calls have answered, and it stays so behind any further ones. -/
theorem numbers_behindCalls (calls : List Call)
    (hfew : (calls.map Call.text).toFinset.card < maxIndex) :
    Numbers (calls.map Call.text) (fresh.behindCalls calls) ∧
    fresh.answers calls =
      (calls.map Call.text).map (fun s => .ok ⟨(seen (calls.map Call.text)).idxOf s⟩) ∧
    Steady (fresh.behindCalls calls) := by
  have hroom : (fresh.internAll (calls.map Call.text)).size ≤ maxIndex := by
    rw [size_internAll_fresh, List.toFinset_cons]
    exact Nat.le_trans (Finset.card_insert_le _ _) hfew
  obtain ⟨hbehind, hanswers⟩ := behindCalls_eq consistent_fresh calls hroom
  rw [strings_internAll_fresh] at hanswers
  rw [hbehind]
  exact ⟨numbers_internAll_fresh _, hanswers,
    (consistent_internAll consistent_fresh _).steady hroom⟩

/-- Five calls, two of them with strings that are there already. -/
theorem numbers_behindCalls_twice :
    fresh.answers [.intern "b", .tryIntern "a", .intern "", .tryIntern "b", .intern "c"] =
      [.ok ⟨1⟩, .ok ⟨2⟩, .ok ⟨0⟩, .ok ⟨1⟩, .ok ⟨3⟩] ∧
    Numbers ["b", "a", "", "b", "c"] (fresh.behindCalls
      [.intern "b", .tryIntern "a", .intern "", .tryIntern "b", .intern "c"]) := by
  have hfew : ["b", "a", "", "b", "c"].toFinset.card < maxIndex := by decide
  obtain ⟨hnumbers, hanswers, -⟩ := numbers_behindCalls
    [.intern "b", .tryIntern "a", .intern "", .tryIntern "b", .intern "c"] hfew
  refine ⟨hanswers.trans ?_, hnumbers⟩
  decide

end LambdaScript.Interner
