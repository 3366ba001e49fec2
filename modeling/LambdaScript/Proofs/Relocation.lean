import LambdaScript.Proofs.Respelling
import LambdaScript.Proofs.Retracing
import LambdaScript.Proofs.JoinedSources
/-!
# Programs that are moved

A program whose spans are moved by some bytes runs as before, behind the same programs. Of its
errors those move that are located in the program itself; those located in functions of earlier
programs stay where they are (`Interpreter.Ready.relocated`).

Spans alone do not tell whether an expression is part of the moved program. So both runs are
compared with a third one, in which the program is moved behind everything else (`Expr.reach`), and
where the spans do tell (`Renaming.back`).
-/

namespace LambdaScript

/-! ## Spans that are replaced -/

namespace Renaming

variable {ι : Type}

/-- One replacement after the other. -/
def comp (r r' : Renaming) : Renaming := ⟨r.name ∘ r'.name, r.span ∘ r'.span⟩

mutual

theorem expr_comp (r r' : Renaming) : ∀ e : Expr ι, r.expr (r'.expr e) = (r.comp r').expr e
  | .number .. | .string .. | .bool .. | .var .. => rfl
  | .assign _ _ value => by simp only [expr, expr_comp r r' value]; rfl
  | .binary _ _ left right => by simp only [expr, expr_comp r r' left, expr_comp r r' right]; rfl
  | .ifThen _ condition thenBranch => by
    simp only [expr, expr_comp r r' condition, expr_comp r r' thenBranch]; rfl
  | .ifElse _ condition thenBranch elseBranch => by
    simp only [expr, expr_comp r r' condition, expr_comp r r' thenBranch,
      expr_comp r r' elseBranch]; rfl
  | .loop _ condition body => by
    simp only [expr, expr_comp r r' condition, expr_comp r r' body]; rfl
  | .seq _ items => by simp only [expr, exprs_comp r r' items]; rfl
  | .lambda _ _ params body => by
    simp only [expr, expr_comp r r' body, List.map_map]; rfl
  | .call _ callee args => by simp only [expr, expr_comp r r' callee, exprs_comp r r' args]; rfl

theorem exprs_comp (r r' : Renaming) : ∀ es : List (Expr ι),
    r.exprs (r'.exprs es) = (r.comp r').exprs es
  | [] => rfl
  | e :: es => by simp only [exprs, expr_comp r r' e, exprs_comp r r' es]

end

mutual

/-- Nothing changes where all spans and names stay as they are. -/
theorem expr_eq_self {r : Renaming} : ∀ {e : Expr ι},
    e.Every (fun s => r.span s = s) (fun x => r.name x = x) → r.expr e = e
  | .number .., h | .bool .., h => by rw [expr, show r.span _ = _ from h]
  | .string .., h | .var .., h => by rw [expr, h.1, h.2]
  | .assign .., h => by rw [expr, h.1, h.2.1, expr_eq_self h.2.2]
  | .binary .., h => by rw [expr, h.1, expr_eq_self h.2.1, expr_eq_self h.2.2]
  | .ifThen .., h => by rw [expr, h.1, expr_eq_self h.2.1, expr_eq_self h.2.2]
  | .ifElse .., h => by
    rw [expr, h.1, expr_eq_self h.2.1, expr_eq_self h.2.2.1, expr_eq_self h.2.2.2]
  | .loop .., h => by rw [expr, h.1, expr_eq_self h.2.1, expr_eq_self h.2.2]
  | .seq .., h => by rw [expr, h.1, exprs_eq_self h.2]
  | .lambda _ _ params _, h => by
    have hparams : params.map r.name = params :=
      (List.map_congr_left h.2.1).trans (List.map_id params)
    rw [expr, h.1, hparams, expr_eq_self h.2.2]
  | .call .., h => by rw [expr, h.1, expr_eq_self h.2.1, exprs_eq_self h.2.2]

theorem exprs_eq_self {r : Renaming} : ∀ {es : List (Expr ι)},
    Expr.EveryOf (fun s => r.span s = s) (fun x => r.name x = x) es → r.exprs es = es
  | [], _ => rfl
  | _ :: _, h => by rw [exprs, expr_eq_self h.1, exprs_eq_self h.2]

end

mutual

/-- What holds of the new spans and names holds of the whole tree. -/
theorem every_expr {r : Renaming} {P : Span → Prop} {K : Name → Prop} : ∀ {e : Expr ι},
    e.Every (fun s => P (r.span s)) (fun x => K (r.name x)) → (r.expr e).Every P K
  | .number .., h | .bool .., h | .string .., h | .var .., h => h
  | .assign .., h => ⟨h.1, h.2.1, every_expr h.2.2⟩
  | .binary .., h => ⟨h.1, every_expr h.2.1, every_expr h.2.2⟩
  | .ifThen .., h => ⟨h.1, every_expr h.2.1, every_expr h.2.2⟩
  | .ifElse .., h => ⟨h.1, every_expr h.2.1, every_expr h.2.2.1, every_expr h.2.2.2⟩
  | .loop .., h => ⟨h.1, every_expr h.2.1, every_expr h.2.2⟩
  | .seq .., h => ⟨h.1, everyOf_exprs h.2⟩
  | .lambda .., h => ⟨h.1, List.forall_mem_map.mpr h.2.1, every_expr h.2.2⟩
  | .call .., h => ⟨h.1, every_expr h.2.1, everyOf_exprs h.2.2⟩

theorem everyOf_exprs {r : Renaming} {P : Span → Prop} {K : Name → Prop} : ∀ {es : List (Expr ι)},
    Expr.EveryOf (fun s => P (r.span s)) (fun x => K (r.name x)) es →
      Expr.EveryOf P K (r.exprs es)
  | [], _ => trivial
  | _ :: _, h => ⟨every_expr h.1, everyOf_exprs h.2⟩

end

end Renaming

namespace Expr

variable {ι : Type}

mutual

/-- An offset behind all those at which a node of the expression begins. -/
def reach : Expr ι → Nat
  | number s _ | string s _ | bool s _ | var s _ => s.start + 1
  | assign s _ value => max (s.start + 1) (reach value)
  | binary s _ left right => max (s.start + 1) (max (reach left) (reach right))
  | ifThen s condition thenBranch =>
    max (s.start + 1) (max (reach condition) (reach thenBranch))
  | ifElse s condition thenBranch elseBranch =>
    max (s.start + 1) (max (reach condition) (max (reach thenBranch) (reach elseBranch)))
  | loop s condition body => max (s.start + 1) (max (reach condition) (reach body))
  | seq s items => max (s.start + 1) (reachAll items)
  | lambda s _ _ body => max (s.start + 1) (reach body)
  | call s callee args => max (s.start + 1) (max (reach callee) (reachAll args))

/-- The same for a list. -/
def reachAll : List (Expr ι) → Nat
  | [] => 0
  | item :: items => max (reach item) (reachAll items)

end

mutual

theorem every_of_reach_le {bound : Nat} : ∀ {e : Expr ι}, e.reach ≤ bound →
    e.Every (fun s => s.start < bound) fun _ => True
  | .number .., h | .bool .., h => h
  | .string .., h | .var .., h => ⟨h, trivial⟩
  | .assign .., h => by
    rw [reach, Nat.max_le] at h
    exact ⟨h.1, trivial, every_of_reach_le h.2⟩
  | .binary .., h => by
    simp only [reach, Nat.max_le] at h
    exact ⟨h.1, every_of_reach_le h.2.1, every_of_reach_le h.2.2⟩
  | .ifThen .., h => by
    simp only [reach, Nat.max_le] at h
    exact ⟨h.1, every_of_reach_le h.2.1, every_of_reach_le h.2.2⟩
  | .ifElse .., h => by
    simp only [reach, Nat.max_le] at h
    exact ⟨h.1, every_of_reach_le h.2.1, every_of_reach_le h.2.2.1, every_of_reach_le h.2.2.2⟩
  | .loop .., h => by
    simp only [reach, Nat.max_le] at h
    exact ⟨h.1, every_of_reach_le h.2.1, every_of_reach_le h.2.2⟩
  | .seq .., h => by
    rw [reach, Nat.max_le] at h
    exact ⟨h.1, everyOf_of_reachAll_le h.2⟩
  | .lambda .., h => by
    rw [reach, Nat.max_le] at h
    exact ⟨h.1, fun _ _ => trivial, every_of_reach_le h.2⟩
  | .call .., h => by
    simp only [reach, Nat.max_le] at h
    exact ⟨h.1, every_of_reach_le h.2.1, everyOf_of_reachAll_le h.2.2⟩

theorem everyOf_of_reachAll_le {bound : Nat} : ∀ {es : List (Expr ι)}, reachAll es ≤ bound →
    EveryOf (fun s => s.start < bound) (fun _ => True) es
  | [], _ => trivial
  | _ :: _, h => by
    rw [reachAll, Nat.max_le] at h
    exact ⟨every_of_reach_le h.1, everyOf_of_reachAll_le h.2⟩

end

/-- All of some expressions begins before their reach. -/
theorem every_of_mem {es : List (Expr ι)} : ∀ e ∈ es,
    e.Every (fun s => s.start < reachAll es) fun _ => True :=
  everyOf_iff.mp (everyOf_of_reachAll_le (Nat.le_refl _))

end Expr

/-! ## Back to where it was -/

/-- What begins at `first` or behind it is moved so far that what begins there begins at `bytes`. -/
def Renaming.back (first bytes : Nat) : Renaming :=
  ⟨id, fun s => if first ≤ s.start then ⟨s.start - first + bytes, s.stop - first + bytes⟩ else s⟩

section
variable {first bytes : Nat} {s : Span}

theorem Renaming.span_back_of_lt (h : s.start < first) : (back first bytes).span s = s :=
  if_neg (Nat.not_le_of_lt h)

/-- What begins before `first` stays as it is. -/
theorem Renaming.expr_back_of_lt {ι : Type} {e : Expr ι} {K : Name → Prop}
    (h : e.Every (fun s => s.start < first) K) : (back first bytes).expr e = e :=
  expr_eq_self (h.mono (fun _ hs => span_back_of_lt hs) fun _ _ => rfl)

theorem Renaming.span_back_of_le (bytes : Nat) (h : first ≤ s.start) :
    (back first bytes).span s = (shift bytes).span ((back first 0).span s) := by
  simp only [back, shift, if_pos h, Nat.add_zero]

theorem Renaming.expr_shift_zero {ι : Type} (e : Expr ι) : (shift 0).expr e = e :=
  expr_id e

/-- What was moved behind all that begins before `first` is moved from there. -/
theorem Renaming.back_comp_shift (first bytes : Nat) :
    (back first bytes).comp (shift first) = shift bytes := by
  have hspan : (back first bytes).span ∘ (shift first).span = (shift bytes).span := by
    funext s
    simp [back, shift]
  rw [comp, hspan]
  rfl

end

/-- The same run, with what was moved behind `first` moved again. -/
def Translation.relocate (ctx : Context) (first bytes : Nat) : Translation ctx ctx where
  toRenaming := .back first bytes
  injective := Function.injective_id
  respells _ := rfl
  limit_le := Nat.le_refl _
  extra := 0

namespace Translation

variable {ctx : Context} {first bytes : Nat} {m : Machine}

/-- Closures that begin before `first` stay as they are. -/
theorem machines_relocate (h : m.store.Every (fun s => s.start < first) fun _ => True) :
    (relocate ctx first bytes).Machines m m := by
  refine ⟨⟨rfl, fun _ => rfl, fun scope x => ?_⟩, rfl, rfl, rfl⟩
  show m.store.binding? scope x = _
  rcases hbinding : m.store.binding? scope x with _ | v
  · rfl
  rcases v with y | s | b | c | b
  case some.function.closure =>
    have hbody : (Renaming.back first bytes).expr c.body = c.body :=
      Renaming.expr_back_of_lt (h scope x c hbinding).2
    have hclosure : (Renaming.back first bytes).closure c = c := by
      rw [Renaming.closure, hbody, show c.params.map (Renaming.back first bytes).name = c.params
        from List.map_id c.params]
    show _ = some (Value.function (.closure ((Renaming.back first bytes).closure c)))
    rw [hclosure]
  all_goals rfl

end Translation

/-! ## Programs of a session -/

/-- The same was printed and written. -/
def Interpreter.SameOutput (i i' : Interpreter) : Prop :=
  i'.machine.console = i.machine.console ∧ i'.machine.writes = i.machine.writes

/-- Where the error `e` of a program is located, and the error `e'` of the program moved: an
expression of the program is at fault, and its span has moved, or one of an earlier program is, and
its span has not. -/
def MovesError (ctx : Context) (codes : List Code) (start : Moment) (bytes : Nat)
    (e e' : RuntimeError) : Prop :=
  ∃ p m around, Reaches ctx start p ∧ p.Raises ctx e.fault m ∧ e.span = some p.code.span ∧
    (p.StandsIn [start.code] around ∧ e'.span = some ((Renaming.shift bytes).span p.code.span) ∨
      p.StandsIn codes around ∧ e'.span = some p.code.span)

/-- How a program ends that begins at the moment `start`, and how it ends if it is moved and its
names are spelled by `names`. -/
inductive Relocated (ctx : Context) (codes : List Code) (start : Moment) (bytes : Nat)
    (names : Interner) : Outcome RuntimeError Interpreter Value →
      Outcome RuntimeError Interpreter Value → Prop where
  | done {v v' : Value} {i i' : Interpreter} (hkind : v'.kind = v.kind)
      (hdisplay : v'.display names = v.display ctx.names) (houtput : i.SameOutput i') :
      Relocated ctx codes start bytes names (.done v i) (.done v' i')
  | failed {e e' : RuntimeError} {i i' : Interpreter} (hfault : e'.fault = e.fault)
      (hspan : MovesError ctx codes start bytes e e') (houtput : i.SameOutput i') :
      Relocated ctx codes start bytes names (.failed e i) (.failed e' i')
  | unfinished : Relocated ctx codes start bytes names .unfinished .unfinished

namespace Interpreter

variable {i : Interpreter} {codes : List Code} {names names' : Interner} {tree : Tree}

theorem load_renamed (i : Interpreter) (r : Renaming) (tree : Tree) :
    (i.load (r.expr tree)).1 = r.expr (i.load tree).1 := by
  rw [load, load, r.numbered_expr]

/-- Moved by some bytes and put somewhere else, a program has moved there. -/
theorem back_load_shift (i : Interpreter) (first bytes : Nat) (tree : Tree) :
    (Renaming.back first bytes).expr (i.load ((Renaming.shift first).expr tree)).1 =
      (i.load ((Renaming.shift bytes).expr tree)).1 := by
  rw [load_renamed, load_renamed, Renaming.expr_comp, Renaming.back_comp_shift]

section
variable {first : Nat} {around : List Binder} {e : Code}

/-- The parts of a program that has moved behind `first` begin there. -/
theorem le_start_of_within (h : Within (i.load ((Renaming.shift first).expr tree)).1 around e) :
    first ≤ e.span.start := by
  have hall : (i.load ((Renaming.shift first).expr tree)).1.Every (fun s => first ≤ s.start)
      fun _ => True := by
    rw [load_renamed]
    refine Renaming.every_expr ((Expr.every_of_reach_le (Nat.le_refl _)).mono ?_ fun _ h => h)
    exact fun s _ => Nat.le_add_left _ _
  exact (h.every hall).span

/-- Put back, they stand where they stood. -/
theorem within_back (h : Within (i.load ((Renaming.shift first).expr tree)).1 around e) :
    Within (i.load tree).1 (around.map (Renaming.back first 0).binder)
      ((Renaming.back first 0).expr e) := by
  have hrenamed := h.renamed (Renaming.back first 0)
  rw [back_load_shift, Renaming.expr_shift_zero] at hrenamed
  exact hrenamed

end

section
variable (h : i.Ready codes) (names : Interner) (fuel bytes : Nat) (tree : Tree)
include h

theorem Ready.machines_relocate :
    (Translation.relocate (i.context names) (Expr.reachAll codes) bytes).Machines i.machine
      i.machine :=
  Translation.machines_relocate (h.every Expr.every_of_mem)

theorem Ready.moments_relocate :
    (Translation.relocate (i.context names) (Expr.reachAll codes) bytes).Moments
      (i.start fuel (i.load ((Renaming.shift (Expr.reachAll codes)).expr tree)).1)
      (i.start fuel (i.load ((Renaming.shift bytes).expr tree)).1) := by
  rw [start, start, ← back_load_shift i (Expr.reachAll codes) bytes tree]
  exact .moment (h.machines_relocate names bytes)

/-- Behind everything else the spans tell which program an error is located in. -/
theorem Ready.movesError {e : RuntimeError} {m : Machine}
    (hfailed : (i.start fuel (i.load ((Renaming.shift (Expr.reachAll codes)).expr tree)).1).outcome
      (i.context names) = .failed e m) :
    MovesError (i.context names) codes (i.start fuel (i.load tree).1) bytes
      ((Renaming.back (Expr.reachAll codes) 0).error e)
      ((Renaming.back (Expr.reachAll codes) bytes).error e) := by
  obtain ⟨p, m₁, hreaches, hraises, hspan, -⟩ := Moment.exists_raises hfailed
  -- the same moment, with the program where it was
  have hstart := h.moments_relocate names fuel 0 tree
  rw [Renaming.expr_shift_zero] at hstart
  obtain ⟨p', hreaches', hp⟩ := Translation.reaches rfl hreaches hstart
  obtain ⟨m', hraises'⟩ := Translation.raises rfl rfl hraises hp
  have hspans : ∀ bytes', ((Renaming.back (Expr.reachAll codes) bytes').error e).span =
      some ((Renaming.back (Expr.reachAll codes) bytes').span p.code.span) := by
    intro bytes'
    rw [Renaming.error, hspan, Option.map_some]
  have hscoped := (lexical (i.context names) _ i.global _).holds
    ((h.load ((Renaming.shift (Expr.reachAll codes)).expr tree)).scoped
      (List.mem_append_right _ List.mem_cons_self) names fuel) hreaches
  obtain ⟨around, ⟨⟨root, hroot, hwithin⟩, hhead⟩, -⟩ := hscoped.shaped
  rw [MovesError, hspans, hspans]
  rcases List.mem_append.mp hroot with hroot | hroot
  -- in an earlier program nothing moves
  · have hcode := hwithin.every (Expr.every_of_mem root hroot)
    have hself : p'.code = p.code := hp.code_eq.trans (Renaming.expr_back_of_lt hcode)
    rw [Renaming.span_back_of_lt hcode.span, Renaming.span_back_of_lt hcode.span, ← hself]
    rw [← hself] at hwithin
    rw [← hp.active_eq] at hhead
    exact ⟨p', m', around, hreaches', hraises', rfl, .inr ⟨⟨⟨root, hroot, hwithin⟩, hhead⟩, rfl⟩⟩
  -- in the program itself everything begins behind the earlier ones
  · obtain rfl := List.mem_singleton.mp hroot
    have hwithin' : Within (i.load tree).1
        (around.map (Renaming.back (Expr.reachAll codes) 0).binder) p'.code := by
      rw [hp.code_eq]
      exact within_back hwithin
    have hspan' : p'.code.span = (Renaming.back (Expr.reachAll codes) 0).span p.code.span := by
      rw [hp.code_eq]
      exact Renaming.span_expr _ _
    rw [← hp.active_eq, ← Renaming.label_head?_binder] at hhead
    rw [Renaming.span_back_of_le bytes (le_start_of_within hwithin), ← hspan']
    exact ⟨p', m', _, hreaches', hraises', rfl,
      .inl ⟨⟨⟨_, List.mem_cons_self, hwithin'⟩, hhead⟩, rfl⟩⟩

end

/-- A program runs as before if it is moved, and its names are spelled alike. -/
theorem Ready.relocated (h : i.Ready codes) {K : Name → Prop}
    (hcodes : ∀ code ∈ codes, code.Every (fun _ => True) K)
    (htree : tree.Every (fun _ => True) K)
    (hspelling : ∀ x, K x → names'.spelling x = names.spelling x) (fuel bytes : Nat) :
    Relocated (i.context names) codes (i.start fuel (i.load tree).1) bytes names'
      (evalProgram names fuel tree i)
      (evalProgram names' fuel ((Renaming.shift bytes).expr tree) i) := by
  have hmoved : (i.load ((Renaming.shift bytes).expr tree)).1.Every (fun _ => True) K := by
    rw [load_renamed]
    exact Renaming.every_expr (Expr.every_numbered htree)
  have hall : ∀ code ∈ codes ++ [(i.load ((Renaming.shift bytes).expr tree)).1],
      code.Every (fun _ => True) K :=
    List.forall_mem_append.mpr ⟨hcodes, List.forall_mem_singleton.mpr hmoved⟩
  have hshown : ∀ v i', evalProgram names fuel ((Renaming.shift bytes).expr tree) i = .done v i' →
      v.display names' = v.display names :=
    fun v i' hrun => Value.display_congr hspelling
      ((h.load _).value_every hall (List.mem_append_right _ List.mem_cons_self) hrun)
  have hsame := Translation.follows_outcome rfl (h.moments_relocate names fuel 0 tree)
  have hother := Translation.follows_outcome rfl (h.moments_relocate names fuel bytes tree)
  have herror := fun e m => h.movesError (e := e) (m := m) names fuel bytes tree
  rw [Renaming.expr_shift_zero] at hsame
  have hrespelled : evalProgram names' fuel ((Renaming.shift bytes).expr tree) i =
      evalProgram names fuel ((Renaming.shift bytes).expr tree) i :=
    (h.load _).evalCode_respelled hspelling hall (List.mem_append_right _ List.mem_cons_self) fuel
  rw [hrespelled]
  rw [evalProgram_apply] at hshown ⊢
  rw [evalProgram_apply]
  -- the limits are the same and no fuel is added, so that the runs end together
  generalize (i.start fuel (i.load
    ((Renaming.shift (Expr.reachAll codes)).expr tree)).1).outcome _ = o at hsame hother herror
  generalize (i.start fuel (i.load tree).1).outcome _ = o₁ at hsame ⊢
  generalize (i.start fuel (i.load ((Renaming.shift bytes).expr tree)).1).outcome _ = o₂
    at hother hshown ⊢
  cases hsame with
  | @done v _ _ hm =>
    cases hother with
    | done hm' =>
      refine .done ?_ ?_ ⟨hm'.console.trans hm.console.symm, hm'.writes.trans hm.writes.symm⟩
      · rw [Renaming.kind_value, Renaming.kind_value]
      · have hdisplay : ∀ bytes', ((Translation.relocate (i.context names) (Expr.reachAll codes)
            bytes').value v).display names = v.display names :=
          fun bytes' => Renaming.display_value (Translation.relocate _ _ bytes').respells v
        rw [hshown _ _ rfl, hdisplay]
        exact (hdisplay 0).symm
  | failed hm =>
    cases hother with
    | failed hm' =>
      exact .failed rfl (herror _ _ rfl)
        ⟨hm'.console.trans hm.console.symm, hm'.writes.trans hm.writes.symm⟩
    | overflowed hless => exact absurd hless (Nat.lt_irrefl _)
  | overflowed hless => exact absurd hless (Nat.lt_irrefl _)
  | unfinished =>
    cases hother with
    | unfinished => exact .unfinished
    | more hextra => exact absurd hextra (Nat.lt_irrefl 0)
  | more hextra => exact absurd hextra (Nat.lt_irrefl 0)

end Interpreter

end LambdaScript
