import Mathlib.Data.List.Nodup
import LambdaScript.Proofs.Moments
/-!
# The lambda nodes around an expression

`Within root around e` says that the expression `e` stands in `root`, inside the lambda nodes
`around`. Numbering a tree gives every lambda node a label of its own, so that the label tells which
lambda nodes are around it (`eq_of_within`), also in a list of programs that were numbered one after
the other (`Numbered`).
-/

namespace LambdaScript

/-- A lambda node: its label and its parameters. -/
structure Binder where
  label : Nat
  params : List Name
deriving DecidableEq

namespace Expr

variable {ι : Type}

/-- The parts of an expression that are evaluated in the scope of the expression. -/
def parts : Expr ι → List (Expr ι)
  | number _ _ | string _ _ | bool _ _ | var _ _ | lambda _ _ _ _ => []
  | assign _ _ value => [value]
  | binary _ _ left right => [left, right]
  | ifThen _ condition thenBranch => [condition, thenBranch]
  | ifElse _ condition thenBranch elseBranch => [condition, thenBranch, elseBranch]
  | loop _ condition body => [condition, body]
  | seq _ items => items
  | call _ callee args => callee :: args

mutual

/-- The lambda nodes of an expression that stands inside `around`, each with those around it. -/
def lambdas (around : List Binder) : Code → List (Binder × List Binder)
  | number _ _ | string _ _ | bool _ _ | var _ _ => []
  | assign _ _ value => lambdas around value
  | binary _ _ left right => lambdas around left ++ lambdas around right
  | ifThen _ condition thenBranch => lambdas around condition ++ lambdas around thenBranch
  | ifElse _ condition thenBranch elseBranch =>
    lambdas around condition ++ lambdas around thenBranch ++ lambdas around elseBranch
  | loop _ condition body => lambdas around condition ++ lambdas around body
  | seq _ items => lambdasAll around items
  | lambda _ label params body =>
    (⟨label, params⟩, around) :: lambdas (⟨label, params⟩ :: around) body
  | call _ callee args => lambdas around callee ++ lambdasAll around args

/-- The lambda nodes of a list of expressions. -/
def lambdasAll (around : List Binder) : List Code → List (Binder × List Binder)
  | [] => []
  | item :: items => lambdas around item ++ lambdasAll around items

end

end Expr

/-- The expression stands in `root`, inside the lambda nodes `around`, the innermost one first. -/
inductive Within (root : Code) : List Binder → Code → Prop
  | root : Within root [] root
  | part {around e e'} (h : Within root around e) (hpart : e' ∈ e.parts) : Within root around e'
  | body {around s label params body} (h : Within root around (.lambda s label params body)) :
      Within root (⟨label, params⟩ :: around) body

/-! ## Parts -/

section
variable {sub : Evaluator} {scope : ScopeId}

theorem mem_of_asksItem {items : List Code} {m m' : Machine} {e : Code}
    (h : AsksItem sub scope items m e m') : e ∈ items := by
  induction h with
  | head => exact List.mem_cons_self
  | tail _ _ ih => exact List.mem_cons_of_mem _ ih

theorem mem_of_asksRound {condition body : Code} {fuel : Nat} {m m' : Machine} {e : Code}
    (h : AsksRound sub scope condition body fuel m e m') : e ∈ [condition, body] := by
  induction h with
  | condition => exact List.mem_cons_self
  | body => exact List.mem_cons_of_mem _ List.mem_cons_self
  | again _ _ _ _ ih => exact ih

/-- What is evaluated in the same scope is a part of the expression. -/
theorem mem_parts_of_asks {fuel : Nat} {m m' : Machine} {e e' : Code}
    (h : Asks sub scope fuel m e e' m') : e' ∈ e.parts := by
  cases h with
  | round h => exact mem_of_asksRound h
  | item h => exact mem_of_asksItem h
  | arg _ h => exact List.mem_cons_of_mem _ (mem_of_asksItem h)
  | _ => simp [Expr.parts]

end

/-! ## Labels -/

namespace Expr

theorem lambdasAll_sublist {around : List Binder} {items : List Code} {e : Code} (h : e ∈ items) :
    (lambdas around e).Sublist (lambdasAll around items) := by
  induction items with
  | nil => contradiction
  | cons item items ih =>
    rw [lambdasAll]
    rcases List.mem_cons.mp h with rfl | h
    · exact List.sublist_append_left _ _
    · exact (ih h).trans (List.sublist_append_right _ _)

theorem lambdas_sublist_of_mem_parts {around : List Binder} {e e' : Code} (h : e' ∈ e.parts) :
    (lambdas around e').Sublist (lambdas around e) := by
  cases e with
  | number | string | bool | var | lambda => contradiction
  | seq s items => exact lambdasAll_sublist h
  | call s callee args =>
    rw [lambdas]
    rcases List.mem_cons.mp h with rfl | h
    · exact List.sublist_append_left _ _
    · exact (lambdasAll_sublist h).trans (List.sublist_append_right _ _)
  | assign s x value =>
    obtain rfl := List.mem_singleton.mp h
    exact List.Sublist.refl _
  | _ =>
    simp only [parts, List.mem_cons, List.not_mem_nil, or_false] at h
    simp only [lambdas]
    rcases h with rfl | rfl | rfl <;> simp

end Expr

/-- The lambda nodes of an expression are lambda nodes of the whole, in the same order; so is the
innermost one around it, with those around it in turn. -/
theorem Within.lambdas {root e : Code} {around : List Binder} (h : Within root around e) :
    (e.lambdas around).Sublist (root.lambdas []) ∧
      ∀ b outer, around = b :: outer → (b, outer) ∈ root.lambdas [] := by
  induction h with
  | root =>
    refine ⟨List.Sublist.refl _, ?_⟩
    intro b outer hnil
    contradiction
  | part _ hpart ih => exact ⟨(Expr.lambdas_sublist_of_mem_parts hpart).trans ih.1, ih.2⟩
  | body _ ih =>
    rw [Expr.lambdas] at ih
    refine ⟨(List.sublist_cons_self _ _).trans ih.1, fun b outer heq => ?_⟩
    cases heq
    exact ih.1.subset List.mem_cons_self

/-- The lambda nodes bear the labels from `first` to below `next`, each once. -/
def Labelled (nodes : List (Binder × List Binder)) (first next : Nat) : Prop :=
  ∃ n, nodes.map (·.1.label) = List.range' first n ∧ next = first + n

section
variable {nodes nodes' : List (Binder × List Binder)} {first next last : Nat}

theorem labelled_nil (first : Nat) : Labelled [] first first := ⟨0, rfl, rfl⟩

theorem Labelled.append (h : Labelled nodes first next) (h' : Labelled nodes' next last) :
    Labelled (nodes ++ nodes') first last := by
  obtain ⟨n, hlabels, rfl⟩ := h
  obtain ⟨k, hlabels', rfl⟩ := h'
  refine ⟨n + k, ?_, Nat.add_assoc ..⟩
  rw [List.map_append, hlabels, hlabels', List.range'_append_1]

theorem Labelled.cons {params : List Name} {around : List Binder}
    (h : Labelled nodes (first + 1) next) :
    Labelled ((⟨first, params⟩, around) :: nodes) first next := by
  obtain ⟨n, hlabels, rfl⟩ := h
  refine ⟨n + 1, ?_, by omega⟩
  rw [List.map_cons, hlabels, List.range'_succ]

/-- Lambda nodes with the same label are the same. -/
theorem Labelled.eq (h : Labelled nodes first next) {node node' : Binder × List Binder}
    (hnode : node ∈ nodes) (hnode' : node' ∈ nodes) (hlabel : node.1.label = node'.1.label) :
    node = node' := by
  obtain ⟨n, hlabels, -⟩ := h
  have hnodup : (nodes.map (·.1.label)).Nodup := by
    rw [hlabels]
    exact List.nodup_range'
  exact List.inj_on_of_nodup_map hnodup hnode hnode' hlabel

end

namespace Expr

mutual

theorem labelled_numbered (around : List Binder) (first : Nat) (tree : Tree) :
    Labelled ((numbered first tree).1.lambdas around) first (numbered first tree).2 := by
  cases tree with
  | number | string | bool | var => exact labelled_nil first
  | assign s x value => exact labelled_numbered around first value
  | binary s op left right =>
    exact (labelled_numbered around first left).append (labelled_numbered around _ right)
  | ifThen s condition thenBranch =>
    exact (labelled_numbered around first condition).append
      (labelled_numbered around _ thenBranch)
  | ifElse s condition thenBranch elseBranch =>
    exact ((labelled_numbered around first condition).append
      (labelled_numbered around _ thenBranch)).append (labelled_numbered around _ elseBranch)
  | loop s condition body =>
    exact (labelled_numbered around first condition).append (labelled_numbered around _ body)
  | seq s items => exact labelled_numberedAll around first items
  | lambda s label params body =>
    exact (labelled_numbered (⟨first, params⟩ :: around) (first + 1) body).cons
  | call s callee args =>
    exact (labelled_numbered around first callee).append (labelled_numberedAll around _ args)

theorem labelled_numberedAll (around : List Binder) (first : Nat) (items : List Tree) :
    Labelled (lambdasAll around (numberedAll first items).1) first
      (numberedAll first items).2 := by
  cases items with
  | nil => exact labelled_nil first
  | cons item items =>
    exact (labelled_numbered around first item).append (labelled_numberedAll around _ items)

end

end Expr

/-- The lambda nodes of all programs are numbered from zero to below `next`, no two alike. -/
def Numbered (codes : List Code) (next : Nat) : Prop :=
  Labelled (codes.flatMap (·.lambdas [])) 0 next

theorem numbered_nil : Numbered [] 0 := labelled_nil 0

theorem Numbered.append {codes : List Code} {next : Nat} (h : Numbered codes next) (tree : Tree) :
    Numbered (codes ++ [(tree.numbered next).1]) (tree.numbered next).2 := by
  unfold Numbered at h ⊢
  rw [List.flatMap_append, List.flatMap_singleton]
  exact Labelled.append h (Expr.labelled_numbered [] next tree)

/-- The label of the innermost lambda node around tells all that are around. -/
theorem eq_of_within {codes : List Code} {next : Nat} (h : Numbered codes next)
    {root root' e e' : Code} {around around' : List Binder} (hroot : root ∈ codes)
    (hroot' : root' ∈ codes) (he : Within root around e) (he' : Within root' around' e')
    (hlabel : around.head?.map (·.label) = around'.head?.map (·.label)) : around = around' := by
  rcases around with _ | ⟨b, outer⟩ <;> rcases around' with _ | ⟨b', outer'⟩
  · rfl
  · contradiction
  · contradiction
  -- both are lambda nodes of the programs, which are numbered together
  · have hmem : (b, outer) ∈ codes.flatMap (·.lambdas []) :=
      List.mem_flatMap.mpr ⟨root, hroot, he.lambdas.2 b outer rfl⟩
    have hmem' : (b', outer') ∈ codes.flatMap (·.lambdas []) :=
      List.mem_flatMap.mpr ⟨root', hroot', he'.lambdas.2 b' outer' rfl⟩
    cases Labelled.eq h hmem hmem' (Option.some.inj hlabel)
    rfl

end LambdaScript
