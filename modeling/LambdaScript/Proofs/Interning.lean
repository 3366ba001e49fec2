import LambdaScript.Interner
/-!
# What an interner holds

An interner that was made by numbering strings holds every string under one number
(`Interner.Made.consistent`), and numbering more strings leaves the old numbers as they are
(`Interner.grows_intern`). A number in use is therefore spelled alike by every later interner.
-/

namespace LambdaScript.Interner

/-- Made from an interner without strings by numbering one string after the other. -/
inductive Made : Interner → Prop where
  | fresh : Made fresh
  | intern {names : Interner} (s : String) : Made names → Made (names.intern s).2
  | tryIntern {names : Interner} (s : String) : Made names → Made (names.tryIntern s).2

/-- The two directions of an interner agree. -/
def Consistent (names : Interner) : Prop :=
  ∀ s n, names.ids[s]? = some n ↔ names.find? n = some s

/-- Every number in use still has its string. -/
def Grows (names later : Interner) : Prop :=
  ∀ n s, names.find? n = some s → later.find? n = some s

theorem Grows.refl (names : Interner) : Grows names names := fun _ _ h => h

theorem Grows.trans {names later last : Interner} (h : Grows names later) (h' : Grows later last) :
    Grows names last :=
  fun n s hs => h' n s (h n s hs)

/-- A number in use has the same spelling later on. -/
theorem Grows.spelling_eq {names later : Interner} (h : Grows names later) {n : Name}
    (hn : (names.find? n).isSome) : later.spelling n = names.spelling n := by
  obtain ⟨s, hs⟩ := Option.isSome_iff_exists.mp hn
  rw [spelling, spelling, hs, h n s hs]

theorem Grows.isSome {names later : Interner} (h : Grows names later) {n : Name}
    (hn : (names.find? n).isSome) : (later.find? n).isSome := by
  obtain ⟨s, hs⟩ := Option.isSome_iff_exists.mp hn
  rw [h n s hs]
  rfl

/-! ## Holding one more string -/

theorem find?_push (names : Interner) (s : String) (n : Name) :
    (names.push s).2.find? n = if n.index = names.strings.size then some s else names.find? n := by
  simp only [push, find?, Array.getElem?_push]

theorem ids_push (names : Interner) (s t : String) :
    (names.push s).2.ids[t]? = if s = t then some ⟨names.strings.size⟩ else names.ids[t]? := by
  simp only [push, Std.TreeMap.getElem?_insert, Std.LawfulEqOrd.compare_eq_iff_eq]

/-- A number in use is below the number of strings. -/
theorem index_lt_of_find? {names : Interner} {n : Name} {s : String} (h : names.find? n = some s) :
    n.index < names.strings.size := by
  obtain ⟨hlt, -⟩ := Array.getElem?_eq_some_iff.mp h
  exact hlt

theorem grows_push (names : Interner) (s : String) : Grows names (names.push s).2 := by
  intro n t h
  have hlt := index_lt_of_find? h
  rw [find?_push, if_neg (by omega), h]

theorem consistent_push {names : Interner} (h : names.Consistent) {s : String}
    (hs : names.ids[s]? = none) : (names.push s).2.Consistent := by
  intro t n
  rw [ids_push, find?_push]
  by_cases hst : s = t
  · subst hst
    rw [if_pos rfl]
    by_cases hn : n.index = names.strings.size
    · rw [if_pos hn]
      simp [← hn]
    · rw [if_neg hn]
      have hnone : names.find? n ≠ some s := fun hfind => by
        rw [(h s n).mpr hfind] at hs
        contradiction
      simp only [Option.some.injEq, hnone, iff_false]
      intro heq
      exact hn (by rw [← heq])
  · rw [if_neg hst, h t n]
    by_cases hn : n.index = names.strings.size
    · rw [if_pos hn]
      have hfree : names.find? n ≠ some t := fun hfind => by
        have := index_lt_of_find? hfind
        omega
      simp [hfree, hst]
    · rw [if_neg hn]

/-! ## Numbering a string -/

theorem grows_intern (names : Interner) (s : String) : Grows names (names.intern s).2 := by
  unfold intern
  split
  · exact Grows.refl names
  · exact grows_push names s

theorem consistent_intern {names : Interner} (h : names.Consistent) (s : String) :
    (names.intern s).2.Consistent := by
  unfold intern
  split
  · exact h
  · next hs => exact consistent_push h hs

theorem consistent_tryIntern {names : Interner} (h : names.Consistent) (s : String) :
    (names.tryIntern s).2.Consistent := by
  unfold tryIntern
  split
  · exact h
  · next hs =>
    split
    · exact consistent_push h hs
    · exact h

/-- The number that a string is given is spelled by it. -/
theorem find?_intern {names : Interner} (h : names.Consistent) (s : String) :
    (names.intern s).2.find? (names.intern s).1 = some s := by
  unfold intern
  split
  · next n hn => exact (h s n).mp hn
  · rw [find?_push]
    exact if_pos rfl

/-- A string that has a number keeps it, and nothing is added. -/
theorem intern_of_find? {names : Interner} (h : names.Consistent) {s : String} {n : Name}
    (hn : names.find? n = some s) : names.intern s = (n, names) := by
  rw [intern, (h s n).mpr hn]

theorem consistent_fresh : fresh.Consistent := by
  intro s n
  simp only [fresh, find?, Std.TreeMap.getElem?_insert, Std.LawfulEqOrd.compare_eq_iff_eq,
    Std.TreeMap.getElem?_emptyc]
  rcases n with ⟨_ | index⟩ <;> simp [Name.empty]

/-- An interner made by numbering strings holds each of them under one number. -/
theorem Made.consistent {names : Interner} (h : Made names) : names.Consistent := by
  induction h with
  | fresh => exact consistent_fresh
  | intern s _ ih => exact consistent_intern ih s
  | tryIntern s _ ih => exact consistent_tryIntern ih s

end LambdaScript.Interner
