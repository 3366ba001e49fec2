import LambdaScript.Value.Operation
import LambdaScript.Proofs.Doubles
import LambdaScript.Proofs.Collation
/-!
# Comparisons

Six operators compare values. `==` and `!=` go by `Value.same`, the four orderings by
`Value.compare?`, and the two functions have to agree. They do: two numbers or two strings have one
answer that both are read off (`Value.Compares`), unless a NaN is among them. The answer is turned
round when the operands change places, and it can be read off the bits of numbers and the codes or
the bytes of strings. All laws of the operators come from that answer
(`Value.comparisons_coherent`).
-/

namespace LambdaScript.Value

/-- The value is a number that stands for none. -/
def IsNaN : Value → Prop
  | number x => Binary64.IsNaN x.toBits
  | _ => False

/-- Two numbers or two strings. -/
def Comparable (a b : Value) : Prop := a.kind = b.kind ∧ (a.kind = .number ∨ a.kind = .string)

/-- The operators that ask which of two values is the greater. -/
def orderings : List BinaryOp := [.lt, .le, .gt, .ge]

/-- The operator is true of two values. -/
def Holds (op : BinaryOp) (a b : Value) : Prop := binary op a b = .ok (bool true)

/-! ## One answer -/

/-- How the first value compares with the second, the one answer that all operators go by. There is
none with a NaN. -/
structure Compares (a b : Value) (answer : Option Ordering) : Prop where
  compare : compare? a b = some answer
  same : a.same b = (answer == some .eq)
  isNaN : answer = none ↔ a.IsNaN ∨ b.IsNaN

theorem compareNumbers_eq (x y : Float) : compareNumbers x y =
    if Binary64.IsNaN x.toBits ∨ Binary64.IsNaN y.toBits then none
    else some (compare (Binary64.rank x.toBits) (Binary64.rank y.toBits)) := by
  by_cases h : Binary64.IsNaN x.toBits ∨ Binary64.IsNaN y.toBits
  · have h' := h.symm
    simp only [compareNumbers, Binary64.lt_iff, Binary64.beq_iff, h, h', not_true, false_and,
      if_true, if_false]
  · have h' := mt Or.symm h
    simp only [compareNumbers, Binary64.lt_iff, Binary64.beq_iff, h, h', not_false_iff, true_and,
      if_false]
    grind [Int.compare_eq_ite_lt]

theorem compares_number (x y : Float) :
    Compares (number x) (number y) (compareNumbers x y) where
  compare := rfl
  same := by
    rw [Bool.eq_iff_iff, same, Binary64.beq_iff, beq_iff_eq, compareNumbers_eq]
    split <;> simp [*]
  isNaN := by
    rw [compareNumbers_eq]
    split
    · exact iff_of_true rfl ‹_›
    · exact iff_of_false (Option.some_ne_none _) ‹_›

theorem compares_string (s t : String) : Compares (string s) (string t) (some (compare s t)) where
  compare := rfl
  same := by
    rw [Bool.eq_iff_iff, same, beq_iff_eq, beq_iff_eq, Option.some.injEq, compare_eq_iff_eq]
  isNaN := iff_of_false (Option.some_ne_none _) (not_or.2 ⟨id, id⟩)

/-- Two numbers or two strings have one answer. -/
theorem Comparable.exists_compares {a b : Value} (h : Comparable a b) :
    ∃ answer, Compares a b answer := by
  cases a <;> cases b <;> simp [Comparable, kind] at h
  · exact ⟨_, compares_number _ _⟩
  · exact ⟨_, compares_string _ _⟩

/-- Nothing else can be ordered. -/
theorem compare?_eq_none {a b : Value} : compare? a b = none ↔ ¬ Comparable a b := by
  cases a <;> cases b <;> simp [compare?, Comparable, kind]

/-- The answer is turned round with the operands. -/
theorem compare?_swap (a b : Value) :
    compare? b a = (compare? a b).map (Option.map Ordering.swap) := by
  cases a <;> cases b <;> try rfl
  · rename_i x y
    simp only [compare?, compareNumbers_eq, Option.map_some, or_comm]
    split
    · rfl
    · rw [Option.map_some, Int.compare_swap]
  · rename_i s t
    simp only [compare?, Option.map_some]
    rw [Std.OrientedOrd.eq_swap]

theorem compareNumbers_eq_lt {x y : Float} : compareNumbers x y = some .lt ↔
    ¬ (Binary64.IsNaN x.toBits ∨ Binary64.IsNaN y.toBits) ∧
      Binary64.rank x.toBits < Binary64.rank y.toBits := by
  rw [compareNumbers_eq]
  split
  · simp [*]
  · simp [*, Int.compare_eq_lt]

theorem compare?_lt_trans {a b c : Value} (hab : compare? a b = some (some .lt))
    (hbc : compare? b c = some (some .lt)) : compare? a c = some (some .lt) := by
  cases a <;> cases b <;> try contradiction
  · cases c <;> try contradiction
    simp only [compare?, Option.some.injEq, compareNumbers_eq_lt, not_or] at *
    exact ⟨⟨hab.1.1, hbc.1.2⟩, hab.2.trans hbc.2⟩
  · cases c <;> try contradiction
    simp only [compare?, Option.some.injEq, compare_lt_iff_lt] at *
    exact hab.trans hbc

end Value

/-! ## Equality -/

theorem Callable.same_comm (f g : Callable) : f.same g = g.same f := by
  cases f <;> cases g <;> simp only [same, Closure.same, Bool.beq_comm]

theorem Callable.same_trans {f g h : Callable} (hfg : f.same g = true) (hgh : g.same h = true) :
    f.same h = true := by
  cases f <;> cases g <;> cases h <;> simp_all [same, Closure.same]

theorem Callable.same_self (f : Callable) : f.same f = true := by
  cases f <;> simp [same, Closure.same]

namespace Value

theorem same_comm (a b : Value) : a.same b = b.same a := by
  cases a <;> cases b <;> try rfl
  · rw [Bool.eq_iff_iff, same, same, Binary64.beq_iff, Binary64.beq_iff, or_comm, eq_comm]
  · exact Bool.beq_comm
  · exact Bool.beq_comm
  · exact Callable.same_comm _ _

theorem same_trans {a b c : Value} (hab : a.same b = true) (hbc : b.same c = true) :
    a.same c = true := by
  cases a <;> cases b <;> try contradiction
  all_goals cases c <;> try contradiction
  · rw [same, Binary64.beq_iff, not_or] at *
    exact ⟨⟨hab.1.1, hbc.1.2⟩, hab.2.trans hbc.2⟩
  · simp_all [same]
  · simp_all [same]
  · exact Callable.same_trans hab hbc

theorem same_self (a : Value) : a.same a = true ↔ ¬ a.IsNaN := by
  cases a with
  | number x =>
    rw [same, Binary64.beq_iff, or_self, and_iff_left rfl]
    rfl
  | string s => simp [same, IsNaN]
  | bool b => simp [same, IsNaN]
  | function f => simp [same, IsNaN, Callable.same_self]

theorem kind_eq_of_same {a b : Value} (h : a.same b = true) : a.kind = b.kind := by
  cases a <;> cases b <;> first | rfl | contradiction

/-! ## The operators -/

/-- `<`, `<=`, `>` and `>=` are one function. -/
theorem binary_of_mem_orderings {op : BinaryOp} (h : op ∈ orderings) (a b : Value) :
    binary op a b = order op a b := by
  simp only [orderings, List.mem_cons, List.not_mem_nil, or_false] at h
  rcases h with rfl | rfl | rfl | rfl <;> rfl

section
variable {a b c : Value} {op : BinaryOp} {answer : Option Ordering}

theorem Compares.binary_ordering (h : Compares a b answer) (hop : op ∈ orderings) :
    binary op a b = .ok (bool (answer.any (orderHolds op))) := by
  rw [binary_of_mem_orderings hop, order, h.compare]

theorem Compares.binary_eq (h : Compares a b answer) :
    binary .eq a b = .ok (bool (answer == some .eq)) := by
  rw [binary, h.same]

theorem binary_of_not_comparable (h : ¬ Comparable a b) (hop : op ∈ orderings) :
    binary op a b = .error (.typeMismatch op a.kind b.kind) := by
  rw [binary_of_mem_orderings hop, order, compare?_eq_none.2 h]

theorem holds_eq : Holds .eq a b ↔ a.same b = true := by
  simp only [Holds, binary, Except.ok.injEq, bool.injEq]

theorem holds_lt : Holds .lt a b ↔ compare? a b = some (some .lt) := by
  simp only [Holds, binary, order]
  rcases compare? a b with _ | _ | o
  · simp
  · simp
  · cases o <;> simp [orderHolds]

theorem exists_exactly_one (h : Comparable a b) (hnan : ¬ (a.IsNaN ∨ b.IsNaN)) :
    ∃ o ∈ [.lt, .eq, .gt], ∀ op ∈ [.lt, .eq, .gt], binary op a b = .ok (bool (op == o)) := by
  obtain ⟨answer, ha⟩ := h.exists_compares
  have hlt := ha.binary_ordering (show .lt ∈ orderings by decide)
  have hgt := ha.binary_ordering (show .gt ∈ orderings by decide)
  rcases answer with _ | _ | _ | _
  · exact absurd (ha.isNaN.1 rfl) hnan
  · exact ⟨.lt, by simp, by simp [hlt, ha.binary_eq, hgt, orderHolds]⟩
  · exact ⟨.eq, by simp, by simp [hlt, ha.binary_eq, hgt, orderHolds]⟩
  · exact ⟨.gt, by simp, by simp [hlt, ha.binary_eq, hgt, orderHolds]⟩

theorem binary_of_isNaN (h : Comparable a b) (hnan : a.IsNaN ∨ b.IsNaN)
    (hop : op ∈ .eq :: orderings) : binary op a b = .ok (bool false) := by
  obtain ⟨answer, ha⟩ := h.exists_compares
  obtain rfl := ha.isNaN.2 hnan
  rcases List.mem_cons.1 hop with rfl | hop
  · exact ha.binary_eq
  · exact ha.binary_ordering hop

theorem le_iff (h : Comparable a b) : Holds .le a b ↔ Holds .lt a b ∨ Holds .eq a b := by
  obtain ⟨answer, ha⟩ := h.exists_compares
  simp only [Holds, ha.binary_eq, ha.binary_ordering (show .lt ∈ orderings by decide),
    ha.binary_ordering (show .le ∈ orderings by decide)]
  rcases answer with _ | _ | _ | _ <;> simp [orderHolds]

theorem ge_iff (h : Comparable a b) : Holds .ge a b ↔ Holds .gt a b ∨ Holds .eq a b := by
  obtain ⟨answer, ha⟩ := h.exists_compares
  simp only [Holds, ha.binary_eq, ha.binary_ordering (show .gt ∈ orderings by decide),
    ha.binary_ordering (show .ge ∈ orderings by decide)]
  rcases answer with _ | _ | _ | _ <;> simp [orderHolds]

/-- An ordering is the other way round with the operands exchanged. -/
theorem gt_eq_lt (h : Comparable a b) : binary .gt a b = binary .lt b a := by
  obtain ⟨answer, ha⟩ := h.exists_compares
  rw [ha.binary_ordering (by decide)]
  rw [binary, order, compare?_swap, ha.compare]
  rcases answer with _ | _ | _ | _ <;> rfl

end

/-! ## Bits and characters -/

/-- Numbers made from bits are in the order of the ranks of the bits. -/
theorem lt_ofBits (m n : UInt64) :
    binary .lt (number (Float.ofBits m)) (number (Float.ofBits n)) =
      .ok (bool (¬ (Binary64.IsNaN m ∨ Binary64.IsNaN n) ∧
        Binary64.rank m < Binary64.rank n)) := by
  rw [(compares_number _ _).binary_ordering (by decide)]
  refine congrArg (fun b => Except.ok (bool b)) ?_
  rw [Bool.eq_iff_iff, decide_eq_true_iff, ← Binary64.ofBits_lt_iff]
  unfold compareNumbers
  split
  · exact iff_of_true rfl ‹_›
  · refine iff_of_false ?_ ‹_›
    split_ifs <;> simp [orderHolds]

/-- Numbers made from bits are equal if the bits have the same rank. -/
theorem eq_ofBits (m n : UInt64) :
    binary .eq (number (Float.ofBits m)) (number (Float.ofBits n)) =
      .ok (bool (¬ (Binary64.IsNaN m ∨ Binary64.IsNaN n) ∧
        Binary64.rank m = Binary64.rank n)) := by
  refine congrArg (fun b => Except.ok (bool b)) ?_
  rw [Bool.eq_iff_iff, decide_eq_true_iff]
  exact Binary64.ofBits_beq_iff

/-- Strings are ordered by the codes of their characters. -/
theorem lt_string (s t : String) :
    binary .lt (string s) (string t) = .ok (bool (codes s.toList < codes t.toList)) := by
  have hanswer : (compare s t == .lt) = decide (codes s.toList < codes t.toList) := by
    rw [Bool.eq_iff_iff, beq_iff_eq, decide_eq_true_iff, compare_lt_iff_lt, codes_lt_iff]
    rfl
  rw [(compares_string s t).binary_ordering (by decide), ← hanswer]
  rfl

/-- Codes are in the same order as bytes. -/
theorem codes_lt_iff_toUTF8_lt (s t : String) :
    codes s.toList < codes t.toList ↔ s.toUTF8.data.toList < t.toUTF8.data.toList := by
  rw [toUTF8_data_toList, toUTF8_data_toList, utf8Bytes_lt_iff, codes_lt_iff]

/-! ## The laws -/

/-- The laws of the comparison operators. -/
structure CoherentComparisons : Prop where
  /-- `==` and `!=` always have an answer, and never the same. -/
  eq_ne (a b : Value) : ∃ r, binary .eq a b = .ok (bool r) ∧ binary .ne a b = .ok (bool (!r))
  eq_refl (a : Value) : Holds .eq a a ↔ ¬ a.IsNaN
  eq_symm (a b : Value) : Holds .eq a b → Holds .eq b a
  eq_trans (a b c : Value) : Holds .eq a b → Holds .eq b c → Holds .eq a c
  eq_kind (a b : Value) : Holds .eq a b → a.kind = b.kind
  /-- Of `<`, `==` and `>`, one is true and the others are false. -/
  exactly_one (a b : Value) : Comparable a b → ¬ (a.IsNaN ∨ b.IsNaN) →
    ∃ o ∈ [.lt, .eq, .gt], ∀ op ∈ [.lt, .eq, .gt], binary op a b = .ok (bool (op == o))
  isNaN (a b : Value) : Comparable a b → a.IsNaN ∨ b.IsNaN →
    ∀ op ∈ .eq :: orderings, binary op a b = .ok (bool false)
  ordering (a b : Value) : Comparable a b →
    ∀ op ∈ orderings, ∃ r, binary op a b = .ok (bool r)
  le (a b : Value) : Comparable a b → (Holds .le a b ↔ Holds .lt a b ∨ Holds .eq a b)
  ge (a b : Value) : Comparable a b → (Holds .ge a b ↔ Holds .gt a b ∨ Holds .eq a b)
  gt (a b : Value) : Comparable a b → binary .gt a b = binary .lt b a
  lt_trans (a b c : Value) : Holds .lt a b → Holds .lt b c → Holds .lt a c
  /-- All other operands are named in the error, in their order. -/
  mismatch (a b : Value) : ¬ Comparable a b →
    ∀ op ∈ orderings, binary op a b = .error (.typeMismatch op a.kind b.kind)
  /-- Every number has bits that it is made from. -/
  bits (x : Float) : number (Float.ofBits x.toBits) = number x
  bits_isNaN (n : UInt64) : (number (Float.ofBits n)).IsNaN ↔ Binary64.IsNaN n
  bits_lt (m n : UInt64) :
    binary .lt (number (Float.ofBits m)) (number (Float.ofBits n)) =
      .ok (bool (¬ (Binary64.IsNaN m ∨ Binary64.IsNaN n) ∧ Binary64.rank m < Binary64.rank n))
  bits_eq (m n : UInt64) :
    binary .eq (number (Float.ofBits m)) (number (Float.ofBits n)) =
      .ok (bool (¬ (Binary64.IsNaN m ∨ Binary64.IsNaN n) ∧ Binary64.rank m = Binary64.rank n))
  codes_lt (s t : String) :
    binary .lt (string s) (string t) = .ok (bool (codes s.toList < codes t.toList))
  /-- The order of the codes is that of the bytes. -/
  bytes_lt (s t : String) :
    codes s.toList < codes t.toList ↔ s.toUTF8.data.toList < t.toUTF8.data.toList

/-- The comparison operators are coherent, over all values. -/
theorem comparisons_coherent : CoherentComparisons where
  eq_ne a b := ⟨a.same b, rfl, rfl⟩
  eq_refl a := holds_eq.trans (same_self a)
  eq_symm a b h := by
    rw [holds_eq] at *
    rwa [same_comm]
  eq_trans a b c hab hbc := holds_eq.2 (same_trans (holds_eq.1 hab) (holds_eq.1 hbc))
  eq_kind a b h := kind_eq_of_same (holds_eq.1 h)
  exactly_one a b := exists_exactly_one
  isNaN a b h hnan op := binary_of_isNaN h hnan
  ordering a b h op hop :=
    have ⟨_, ha⟩ := h.exists_compares
    ⟨_, ha.binary_ordering hop⟩
  le a b := le_iff
  ge a b := ge_iff
  gt a b := gt_eq_lt
  lt_trans a b c hab hbc := holds_lt.2 (compare?_lt_trans (holds_lt.1 hab) (holds_lt.1 hbc))
  mismatch a b h op := binary_of_not_comparable h
  bits x := congrArg number (Float.ofBits_toBits x)
  bits_isNaN n := Binary64.isNaN_toBits_ofBits n
  bits_lt := lt_ofBits
  bits_eq := eq_ofBits
  codes_lt := lt_string
  bytes_lt := codes_lt_iff_toUTF8_lt

end LambdaScript.Value
