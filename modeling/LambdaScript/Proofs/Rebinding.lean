import Mathlib.Logic.Equiv.Basic
import LambdaScript.Expr
/-!
# Other names for parameters

Two trees are the same but for the names of parameters if each lambda node has a permutation that
takes its parameters to those of the other one, and every name under lambda nodes is bound by the
same one in both trees, or by none (`Means`, `Expr.Rebound`).

Renaming one parameter of one lambda node of a tree, with the references to it (`Expr.RenamesIn`),
gives such a tree, as long as the new name does not occur in the tree (`Expr.RenamesIn.rebound`).
-/

namespace LambdaScript

/-! ## Names under lambda nodes -/

/-- The parameters of a lambda node, and what they are called instead. -/
structure Rebinding where
  params : List Name
  perm : Equiv.Perm Name

/-- What a name is called instead, under lambda nodes of which the innermost comes first. The node
that binds it binds the other name too, and the nodes inside of that one bind neither. -/
inductive Means : List Rebinding → Name → Name → Prop where
  | free {z : Name} : Means [] z z
  | bound {b : Rebinding} {around : List Rebinding} {z : Name} (h : z ∈ b.params) :
      Means (b :: around) z (b.perm z)
  | outer {b : Rebinding} {around : List Rebinding} {z z' : Name} (h : z ∉ b.params)
      (h' : z' ∉ b.params.map b.perm) (hz : Means around z z') : Means (b :: around) z z'

/-- A name with `y` in place of `x`. -/
def Name.renamed (z x y : Name) : Name := if z = x then y else z

namespace Means

variable {around : List Rebinding} {params : List Name} {x y z : Name}

/-- A lambda node whose parameters keep their names. -/
theorem keep {z' : Name} (hz : z ∈ params → z' = z) (hz' : z ∉ params → z' ∉ params)
    (h : Means around z z') : Means (⟨params, .refl Name⟩ :: around) z z' := by
  by_cases hmem : z ∈ params
  · rw [hz hmem]
    exact .bound (b := ⟨params, .refl Name⟩) hmem
  · exact .outer hmem (by simpa using hz' hmem) h

/-- Inside of a lambda node that does not bind `x`, it goes on to be renamed. -/
theorem renamed_keep (hx : x ∉ params) (hy : y ∉ params) (h : Means around z (z.renamed x y)) :
    Means (⟨params, .refl Name⟩ :: around) z (z.renamed x y) := by
  refine h.keep (fun hz => ?_) fun hz => ?_
  · have hne : z ≠ x := fun heq => hx (heq ▸ hz)
    exact if_neg hne
  · unfold Name.renamed
    split
    · exact hy
    · exact hz

/-- Inside of a lambda node that binds `x`, nothing is renamed any more. -/
theorem keep_of_renamed (hx : x ∈ params) (h : Means around z (z.renamed x y)) :
    Means (⟨params, .refl Name⟩ :: around) z z := by
  by_cases hz : z ∈ params
  · exact .bound (b := ⟨params, .refl Name⟩) hz
  · have hne : z ≠ x := fun heq => hz (heq ▸ hx)
    rw [Name.renamed, if_neg hne] at h
    exact h.keep (fun _ => rfl) id

/-- Inside of the lambda node whose parameter `x` becomes `y`, it is renamed. -/
theorem renamed_swap (hx : x ∈ params) (hz : z ≠ y) (h : Means around z z) :
    Means (⟨params, .swap x y⟩ :: around) z (z.renamed x y) := by
  by_cases hmem : z ∈ params
  · have hswap : z.renamed x y = Equiv.swap x y z := by
      rw [Equiv.swap_apply_def, if_neg hz]
      rfl
    rw [hswap]
    exact .bound (b := ⟨params, .swap x y⟩) hmem
  · have hne : z ≠ x := fun heq => hmem (heq ▸ hx)
    rw [Name.renamed, if_neg hne]
    refine .outer hmem (fun hmap => ?_) h
    obtain ⟨u, hu, heq⟩ := List.mem_map.mp hmap
    have hback : u = z :=
      (Equiv.swap x y).injective (heq.trans (Equiv.swap_apply_of_ne_of_ne hne hz).symm)
    exact hmem (hback ▸ hu)

end Means

/-- Swapping `x` and `y` renames `x` where `y` does not occur. -/
theorem map_swap {x y : Name} {params : List Name} (hy : y ∉ params) :
    params.map (Equiv.swap x y) = params.map (·.renamed x y) := by
  refine List.map_congr_left fun z hz => ?_
  have hne : z ≠ y := fun heq => hy (heq ▸ hz)
  rw [Equiv.swap_apply_def, if_neg hne]
  rfl

namespace Expr

variable {ι : Type}

/-! ## Trees with other names for parameters -/

mutual

/-- The second tree is the first one with other names for parameters, under some lambda nodes.
`Shown` tells which lists of parameters may become which. -/
inductive Rebound (Shown : List Name → List Name → Prop) :
    List Rebinding → Expr ι → Expr ι → Prop where
  | number {around} (s : Span) (x : Float) : Rebound Shown around (.number s x) (.number s x)
  | string {around} (s : Span) (contents : Name) :
      Rebound Shown around (.string s contents) (.string s contents)
  | bool {around} (s : Span) (b : Bool) : Rebound Shown around (.bool s b) (.bool s b)
  | var {around z z'} (s : Span) (hz : Means around z z') :
      Rebound Shown around (.var s z) (.var s z')
  | assign {around z z' value value'} (s : Span) (hz : Means around z z')
      (hvalue : Rebound Shown around value value') :
      Rebound Shown around (.assign s z value) (.assign s z' value')
  | binary {around left left' right right'} (s : Span) (op : BinaryOp)
      (hleft : Rebound Shown around left left') (hright : Rebound Shown around right right') :
      Rebound Shown around (.binary s op left right) (.binary s op left' right')
  | ifThen {around c c' t t'} (s : Span) (hc : Rebound Shown around c c')
      (ht : Rebound Shown around t t') : Rebound Shown around (.ifThen s c t) (.ifThen s c' t')
  | ifElse {around c c' t t' e e'} (s : Span) (hc : Rebound Shown around c c')
      (ht : Rebound Shown around t t') (he : Rebound Shown around e e') :
      Rebound Shown around (.ifElse s c t e) (.ifElse s c' t' e')
  | loop {around c c' body body'} (s : Span) (hc : Rebound Shown around c c')
      (hbody : Rebound Shown around body body') :
      Rebound Shown around (.loop s c body) (.loop s c' body')
  | seq {around items items'} (s : Span) (hitems : ReboundAll Shown around items items') :
      Rebound Shown around (.seq s items) (.seq s items')
  | lambda {around body body'} (s : Span) (label : ι) (b : Rebinding)
      (hshown : Shown b.params (b.params.map b.perm))
      (hbody : Rebound Shown (b :: around) body body') :
      Rebound Shown around (.lambda s label b.params body)
        (.lambda s label (b.params.map b.perm) body')
  | call {around f f' args args'} (s : Span) (hf : Rebound Shown around f f')
      (hargs : ReboundAll Shown around args args') :
      Rebound Shown around (.call s f args) (.call s f' args')

/-- Lists of such trees. -/
inductive ReboundAll (Shown : List Name → List Name → Prop) :
    List Rebinding → List (Expr ι) → List (Expr ι) → Prop where
  | nil {around} : ReboundAll Shown around [] []
  | cons {around e e' es es'} (h : Rebound Shown around e e')
      (hs : ReboundAll Shown around es es') : ReboundAll Shown around (e :: es) (e' :: es')

end

variable {Shown : List Name → List Name → Prop} {around : List Rebinding}

theorem Rebound.span_eq {e e' : Expr ι} (h : Rebound Shown around e e') : e'.span = e.span := by
  cases h <;> rfl

mutual

/-- Lambda nodes are numbered alike. -/
theorem Rebound.numbered (first : Nat) : ∀ {around : List Rebinding} {e e' : Tree},
    Rebound Shown around e e' →
      Rebound Shown around (Expr.numbered first e).1 (Expr.numbered first e').1 ∧
        (Expr.numbered first e').2 = (Expr.numbered first e).2
  | _, _, _, .number s x => ⟨.number s x, rfl⟩
  | _, _, _, .string s contents => ⟨.string s contents, rfl⟩
  | _, _, _, .bool s b => ⟨.bool s b, rfl⟩
  | _, _, _, .var s hz => ⟨.var s hz, rfl⟩
  | _, _, _, .assign s hz hvalue =>
    have ⟨hvalue, hnext⟩ := hvalue.numbered first
    ⟨.assign s hz hvalue, hnext⟩
  | _, _, _, .binary s op hleft hright => by
    obtain ⟨hleft, hnext⟩ := hleft.numbered first
    simp only [Expr.numbered, hnext]
    exact ⟨.binary s op hleft (hright.numbered _).1, (hright.numbered _).2⟩
  | _, _, _, .ifThen s hc ht => by
    obtain ⟨hc, hnext⟩ := hc.numbered first
    simp only [Expr.numbered, hnext]
    exact ⟨.ifThen s hc (ht.numbered _).1, (ht.numbered _).2⟩
  | _, .ifElse _ c _ _, _, .ifElse s hc ht he => by
    obtain ⟨hc, hnext⟩ := hc.numbered first
    obtain ⟨ht, hlater⟩ := ht.numbered (Expr.numbered first c).2
    simp only [Expr.numbered, hnext, hlater]
    exact ⟨.ifElse s hc ht (he.numbered _).1, (he.numbered _).2⟩
  | _, _, _, .loop s hc hbody => by
    obtain ⟨hc, hnext⟩ := hc.numbered first
    simp only [Expr.numbered, hnext]
    exact ⟨.loop s hc (hbody.numbered _).1, (hbody.numbered _).2⟩
  | _, _, _, .seq s hitems =>
    have ⟨hitems, hnext⟩ := hitems.numbered first
    ⟨.seq s hitems, hnext⟩
  | _, _, _, .lambda s _ b hshown hbody =>
    have ⟨hbody, hnext⟩ := hbody.numbered (first + 1)
    ⟨.lambda s first b hshown hbody, hnext⟩
  | _, _, _, .call s hf hargs => by
    obtain ⟨hf, hnext⟩ := hf.numbered first
    simp only [Expr.numbered, hnext]
    exact ⟨.call s hf (hargs.numbered _).1, (hargs.numbered _).2⟩

theorem ReboundAll.numbered (first : Nat) : ∀ {around : List Rebinding} {es es' : List Tree},
    ReboundAll Shown around es es' →
      ReboundAll Shown around (Expr.numberedAll first es).1 (Expr.numberedAll first es').1 ∧
        (Expr.numberedAll first es').2 = (Expr.numberedAll first es).2
  | _, _, _, .nil => ⟨.nil, rfl⟩
  | _, _, _, .cons h hs => by
    obtain ⟨h, hnext⟩ := h.numbered first
    simp only [Expr.numberedAll, hnext]
    exact ⟨.cons h (hs.numbered _).1, (hs.numbered _).2⟩

end

/-! ## Renaming one parameter -/

mutual

/-- No variable and no parameter in the tree has this name. The contents of strings are no such
names. -/
def Lacks (y : Name) : Expr ι → Prop
  | number .. | string .. | bool .. => True
  | var _ z => z ≠ y
  | assign _ z value => z ≠ y ∧ Lacks y value
  | binary _ _ left right => Lacks y left ∧ Lacks y right
  | ifThen _ condition thenBranch => Lacks y condition ∧ Lacks y thenBranch
  | ifElse _ condition thenBranch elseBranch =>
    Lacks y condition ∧ Lacks y thenBranch ∧ Lacks y elseBranch
  | loop _ condition body => Lacks y condition ∧ Lacks y body
  | seq _ items => LacksAll y items
  | lambda _ _ params body => y ∉ params ∧ Lacks y body
  | call _ callee args => Lacks y callee ∧ LacksAll y args

/-- The same of every tree of a list. -/
def LacksAll (y : Name) : List (Expr ι) → Prop
  | [] => True
  | item :: items => Lacks y item ∧ LacksAll y items

end

mutual

/-- A tree with `y` in place of the variable `x`, except inside of lambda nodes that have a
parameter `x` themselves. -/
def replaceFree (x y : Name) : Expr ι → Expr ι
  | number s v => .number s v
  | string s contents => .string s contents
  | bool s b => .bool s b
  | var s z => .var s (z.renamed x y)
  | assign s z value => .assign s (z.renamed x y) (replaceFree x y value)
  | binary s op left right => .binary s op (replaceFree x y left) (replaceFree x y right)
  | ifThen s condition thenBranch =>
    .ifThen s (replaceFree x y condition) (replaceFree x y thenBranch)
  | ifElse s condition thenBranch elseBranch =>
    .ifElse s (replaceFree x y condition) (replaceFree x y thenBranch) (replaceFree x y elseBranch)
  | loop s condition body => .loop s (replaceFree x y condition) (replaceFree x y body)
  | seq s items => .seq s (replaceFreeAll x y items)
  | lambda s label params body =>
    if x ∈ params then .lambda s label params body
    else .lambda s label params (replaceFree x y body)
  | call s callee args => .call s (replaceFree x y callee) (replaceFreeAll x y args)

/-- The same of the trees of a list. -/
def replaceFreeAll (x y : Name) : List (Expr ι) → List (Expr ι)
  | [] => []
  | item :: items => replaceFree x y item :: replaceFreeAll x y items

end

/-- The second tree is the first one with `y` in place of the parameter `x` of one lambda node
somewhere in it: in its list of parameters, and where its body refers to that parameter. -/
inductive RenamesIn (x y : Name) : Expr ι → Expr ι → Prop where
  | here (s : Span) (label : ι) {params : List Name} (hx : x ∈ params) (body : Expr ι) :
      RenamesIn x y (.lambda s label params body)
        (.lambda s label (params.map (·.renamed x y)) (body.replaceFree x y))
  | assign {value value'} (s : Span) (z : Name) (h : RenamesIn x y value value') :
      RenamesIn x y (.assign s z value) (.assign s z value')
  | left {e e'} (s : Span) (op : BinaryOp) (right : Expr ι) (h : RenamesIn x y e e') :
      RenamesIn x y (.binary s op e right) (.binary s op e' right)
  | right {e e'} (s : Span) (op : BinaryOp) (left : Expr ι) (h : RenamesIn x y e e') :
      RenamesIn x y (.binary s op left e) (.binary s op left e')
  | ifThenCondition {e e'} (s : Span) (t : Expr ι) (h : RenamesIn x y e e') :
      RenamesIn x y (.ifThen s e t) (.ifThen s e' t)
  | ifThenBranch {e e'} (s : Span) (c : Expr ι) (h : RenamesIn x y e e') :
      RenamesIn x y (.ifThen s c e) (.ifThen s c e')
  | ifElseCondition {e e'} (s : Span) (t f : Expr ι) (h : RenamesIn x y e e') :
      RenamesIn x y (.ifElse s e t f) (.ifElse s e' t f)
  | thenBranch {e e'} (s : Span) (c f : Expr ι) (h : RenamesIn x y e e') :
      RenamesIn x y (.ifElse s c e f) (.ifElse s c e' f)
  | elseBranch {e e'} (s : Span) (c t : Expr ι) (h : RenamesIn x y e e') :
      RenamesIn x y (.ifElse s c t e) (.ifElse s c t e')
  | loopCondition {e e'} (s : Span) (body : Expr ι) (h : RenamesIn x y e e') :
      RenamesIn x y (.loop s e body) (.loop s e' body)
  | loopBody {e e'} (s : Span) (c : Expr ι) (h : RenamesIn x y e e') :
      RenamesIn x y (.loop s c e) (.loop s c e')
  | item {e e'} (s : Span) (before after : List (Expr ι)) (h : RenamesIn x y e e') :
      RenamesIn x y (.seq s (before ++ e :: after)) (.seq s (before ++ e' :: after))
  | body {e e'} (s : Span) (label : ι) (params : List Name) (h : RenamesIn x y e e') :
      RenamesIn x y (.lambda s label params e) (.lambda s label params e')
  | callee {e e'} (s : Span) (args : List (Expr ι)) (h : RenamesIn x y e e') :
      RenamesIn x y (.call s e args) (.call s e' args)
  | argument {e e'} (s : Span) (f : Expr ι) (before after : List (Expr ι))
      (h : RenamesIn x y e e') :
      RenamesIn x y (.call s f (before ++ e :: after)) (.call s f (before ++ e' :: after))

/-- A list of parameters, or the same one with `y` in place of `x`. -/
def ShownAs (x y : Name) (params params' : List Name) : Prop :=
  params' = params ∨ params' = params.map (·.renamed x y)

/-- A lambda node whose parameters keep their names. -/
theorem Rebound.keep {body body' : Expr ι} (s : Span) (label : ι) {params : List Name}
    (hshown : Shown params params)
    (hbody : Rebound Shown (⟨params, .refl Name⟩ :: around) body body') :
    Rebound Shown around (.lambda s label params body) (.lambda s label params body') := by
  have hmap : params.map (Equiv.refl Name) = params := List.map_id params
  have hlambda := Rebound.lambda s label ⟨params, .refl Name⟩ (by rwa [hmap]) hbody
  rwa [hmap] at hlambda

section
variable {x y : Name}

/-- Names other than `y` keep their meaning under lambda nodes that keep theirs. -/
theorem means_keep (h : ∀ z, z ≠ y → Means around z z) (params : List Name) :
    ∀ z, z ≠ y → Means (⟨params, .refl Name⟩ :: around) z z :=
  fun z hz => (h z hz).keep (fun _ => rfl) id

mutual

/-- A tree without `y` stays as it is where all names but `y` do. -/
theorem rebound_self (hshown : ∀ params, Shown params params) :
    ∀ {around : List Rebinding} (e : Expr ι), e.Lacks y →
      (∀ z, z ≠ y → Means around z z) → Rebound Shown around e e
  | _, .number s v, _, _ => .number s v
  | _, .string s contents, _, _ => .string s contents
  | _, .bool s b, _, _ => .bool s b
  | _, .var s z, hz, h => .var s (h z hz)
  | _, .assign s z value, ⟨hz, hvalue⟩, h => .assign s (h z hz) (rebound_self hshown value hvalue h)
  | _, .binary s op left right, ⟨hleft, hright⟩, h =>
    .binary s op (rebound_self hshown left hleft h) (rebound_self hshown right hright h)
  | _, .ifThen s c t, ⟨hc, ht⟩, h =>
    .ifThen s (rebound_self hshown c hc h) (rebound_self hshown t ht h)
  | _, .ifElse s c t e, ⟨hc, ht, he⟩, h =>
    .ifElse s (rebound_self hshown c hc h) (rebound_self hshown t ht h)
      (rebound_self hshown e he h)
  | _, .loop s c body, ⟨hc, hbody⟩, h =>
    .loop s (rebound_self hshown c hc h) (rebound_self hshown body hbody h)
  | _, .seq s items, hitems, h => .seq s (reboundAll_self hshown items hitems h)
  | _, .lambda s label params body, ⟨_, hbody⟩, h =>
    .keep s label (hshown params) (rebound_self hshown body hbody (means_keep h params))
  | _, .call s f args, ⟨hf, hargs⟩, h =>
    .call s (rebound_self hshown f hf h) (reboundAll_self hshown args hargs h)

theorem reboundAll_self (hshown : ∀ params, Shown params params) :
    ∀ {around : List Rebinding} (es : List (Expr ι)), LacksAll y es →
      (∀ z, z ≠ y → Means around z z) → ReboundAll Shown around es es
  | _, [], _, _ => .nil
  | _, e :: es, ⟨he, hes⟩, h => .cons (rebound_self hshown e he h) (reboundAll_self hshown es hes h)

end

/-- Under a lambda node that leaves `x` and `y` alone, `x` goes on to become `y`. -/
theorem means_renamed_keep {params : List Name} (hx : x ∉ params) (hy : y ∉ params)
    (h : ∀ z, z ≠ y → Means around z (z.renamed x y)) :
    ∀ z, z ≠ y → Means (⟨params, .refl Name⟩ :: around) z (z.renamed x y) :=
  fun z hz => (h z hz).renamed_keep hx hy

mutual

/-- Replacing `x` by `y` is right where `x` has become `y` and all other names have stayed. -/
theorem rebound_replaceFree (hshown : ∀ params, Shown params params) :
    ∀ {around : List Rebinding} (e : Expr ι), e.Lacks y →
      (∀ z, z ≠ y → Means around z (z.renamed x y)) →
      Rebound Shown around e (e.replaceFree x y)
  | _, .number s v, _, _ => .number s v
  | _, .string s contents, _, _ => .string s contents
  | _, .bool s b, _, _ => .bool s b
  | _, .var s z, hz, h => .var s (h z hz)
  | _, .assign s z value, ⟨hz, hvalue⟩, h =>
    .assign s (h z hz) (rebound_replaceFree hshown value hvalue h)
  | _, .binary s op left right, ⟨hleft, hright⟩, h =>
    .binary s op (rebound_replaceFree hshown left hleft h)
      (rebound_replaceFree hshown right hright h)
  | _, .ifThen s c t, ⟨hc, ht⟩, h =>
    .ifThen s (rebound_replaceFree hshown c hc h) (rebound_replaceFree hshown t ht h)
  | _, .ifElse s c t e, ⟨hc, ht, he⟩, h =>
    .ifElse s (rebound_replaceFree hshown c hc h) (rebound_replaceFree hshown t ht h)
      (rebound_replaceFree hshown e he h)
  | _, .loop s c body, ⟨hc, hbody⟩, h =>
    .loop s (rebound_replaceFree hshown c hc h) (rebound_replaceFree hshown body hbody h)
  | _, .seq s items, hitems, h => .seq s (reboundAll_replaceFree hshown items hitems h)
  | _, .lambda s label params body, ⟨hy, hbody⟩, h => by
    rw [replaceFree]
    split
    · next hx =>
      exact .keep s label (hshown params) (rebound_self hshown body hbody
        fun z hz => (h z hz).keep_of_renamed hx)
    · next hx =>
      exact .keep s label (hshown params) (rebound_replaceFree hshown body hbody
        (means_renamed_keep hx hy h))
  | _, .call s f args, ⟨hf, hargs⟩, h =>
    .call s (rebound_replaceFree hshown f hf h) (reboundAll_replaceFree hshown args hargs h)

theorem reboundAll_replaceFree (hshown : ∀ params, Shown params params) :
    ∀ {around : List Rebinding} (es : List (Expr ι)), LacksAll y es →
      (∀ z, z ≠ y → Means around z (z.renamed x y)) →
      ReboundAll Shown around es (replaceFreeAll x y es)
  | _, [], _, _ => .nil
  | _, e :: es, ⟨he, hes⟩, h =>
    .cons (rebound_replaceFree hshown e he h) (reboundAll_replaceFree hshown es hes h)

end

/-- One tree of a list. -/
theorem reboundAll_item (hshown : ∀ params, Shown params params) {e e' : Expr ι}
    (before after : List (Expr ι)) (hy : LacksAll y (before ++ e :: after))
    (haround : ∀ z, z ≠ y → Means around z z) (h : e.Lacks y → Rebound Shown around e e') :
    ReboundAll Shown around (before ++ e :: after) (before ++ e' :: after) := by
  induction before with
  | nil => exact .cons (h hy.1) (reboundAll_self hshown after hy.2 haround)
  | cons first before ih => exact .cons (rebound_self hshown first hy.1 haround) (ih hy.2)

/-- Renaming a parameter gives the same tree but for its name. -/
theorem RenamesIn.rebound {e e' : Expr ι} (h : RenamesIn x y e e') (hy : e.Lacks y)
    (haround : ∀ z, z ≠ y → Means around z z) : Rebound (ShownAs x y) around e e' := by
  have hshown : ∀ params, ShownAs x y params params := fun params => .inl rfl
  induction h generalizing around with
  | @here s label params hx body =>
    have hbody := rebound_replaceFree hshown body hy.2
      fun z hz => (haround z hz).renamed_swap hx hz
    have hmap := map_swap (x := x) hy.1
    have hlambda := Rebound.lambda s label ⟨params, .swap x y⟩ (.inr hmap) hbody
    rwa [hmap] at hlambda
  | assign s z _ ih => exact .assign s (haround z hy.1) (ih hy.2 haround)
  | left s op right _ ih =>
    exact .binary s op (ih hy.1 haround) (rebound_self hshown right hy.2 haround)
  | right s op left _ ih =>
    exact .binary s op (rebound_self hshown left hy.1 haround) (ih hy.2 haround)
  | ifThenCondition s t _ ih =>
    exact .ifThen s (ih hy.1 haround) (rebound_self hshown t hy.2 haround)
  | ifThenBranch s c _ ih =>
    exact .ifThen s (rebound_self hshown c hy.1 haround) (ih hy.2 haround)
  | ifElseCondition s t f _ ih =>
    exact .ifElse s (ih hy.1 haround) (rebound_self hshown t hy.2.1 haround)
      (rebound_self hshown f hy.2.2 haround)
  | thenBranch s c f _ ih =>
    exact .ifElse s (rebound_self hshown c hy.1 haround) (ih hy.2.1 haround)
      (rebound_self hshown f hy.2.2 haround)
  | elseBranch s c t _ ih =>
    exact .ifElse s (rebound_self hshown c hy.1 haround) (rebound_self hshown t hy.2.1 haround)
      (ih hy.2.2 haround)
  | loopCondition s body _ ih =>
    exact .loop s (ih hy.1 haround) (rebound_self hshown body hy.2 haround)
  | loopBody s c _ ih =>
    exact .loop s (rebound_self hshown c hy.1 haround) (ih hy.2 haround)
  | item s before after _ ih =>
    exact .seq s (reboundAll_item hshown before after hy haround fun hy => ih hy haround)
  | body s label params _ ih =>
    exact .keep s label (hshown params) (ih hy.2 (means_keep haround params))
  | callee s args _ ih =>
    exact .call s (ih hy.1 haround) (reboundAll_self hshown args hy.2 haround)
  | argument s f before after _ ih =>
    exact .call s (rebound_self hshown f hy.1 haround)
      (reboundAll_item hshown before after hy.2 haround fun hy => ih hy haround)

end

end Expr
end LambdaScript
