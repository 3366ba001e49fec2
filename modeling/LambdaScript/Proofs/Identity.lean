import LambdaScript.Proofs.Independence
import LambdaScript.Proofs.Instances
import LambdaScript.Proofs.Limits
/-!
# Which functions are equal

Functions are equal if the same lambda node made them in the same scope. A lambda node that does not
stand in a loop is evaluated once in each scope, so that the function it makes then differs from all
that existed before (`differs_from_existed`). The rounds of a loop make their functions in one
scope, and these are equal (`equal_twoRounds`).
-/

namespace LambdaScript

open Store

/-- The closure exists when the moment comes: it is one of the `old` ones from before the run, or is
bound to a name, or was the value of an expression whose evaluation has ended since. -/
inductive Existed (ctx : Context) (old : Closure → Prop) (start : Moment) : Moment → Closure → Prop
  | old {c} (h : old c) : Existed ctx old start start c
  | bound {p scope x c} (hreaches : Reaches ctx start p)
      (h : p.machine.store.binding? scope x = some (.function (.closure c))) :
      Existed ctx old start p c
  | ended {r x y q c m} (hreaches : Reaches ctx start r) (hturn : InTurn ctx r x y)
      (hvalue : Reaches ctx x q) (h : q.outcome ctx = .done (.function (.closure c)) m) :
      Existed ctx old start y c
  | later {p q c} (h : Existed ctx old start p c) (hcalls : Calls ctx p q) :
      Existed ctx old start q c

section
variable {ctx : Context} {codes : List Code} {old : Closure → Prop} {start p q r x y : Moment}
  {c : Closure} {m : Machine}

/-- The value of an evaluation that has ended was made in a scope that was there. -/
theorem lt_of_endsBy (hopening : Opening codes old start) (hreaches : Reaches ctx start q)
    {size : Nat} (hend : q.EndsBy ctx size)
    (h : q.outcome ctx = .done (.function (.closure c)) m) : c.scope < size := by
  obtain ⟨v, m', hdone, hle⟩ := hend
  rw [h] at hdone
  cases hdone
  have hpresent := (Region.present.discipline ctx).holds hopening.present hreaches
  have hfits := (((Region.present.discipline ctx).keeps hpresent).of_done h).2
  exact Nat.lt_of_lt_of_le (hfits c rfl) hle

/-- Of two calls in turn, the first one makes none of the functions that are the second one's own,
except in a loop or where the run repeats an evaluation. -/
theorem looped_of_inTurn (hopening : Opening codes old start) (hreaches : Reaches ctx start r)
    (hturn : InTurn ctx r x y) (hvalue : Reaches ctx x q)
    (h : q.outcome ctx = .done (.function (.closure c)) m) (hscope : c.scope = y.scope)
    (hown : c.label ∈ y.code.own) : Looped codes c.label ∨ Repeats old start c.label c.scope := by
  have hq := (hreaches.tail hturn.calls.1).trans hvalue
  cases hturn with
  | @parts active fuel e scope _ _ _ _ _ hparts =>
    by_contra hnone
    obtain ⟨hloop, hrepeats⟩ := not_or.mp hnone
    rw [hscope] at hrepeats
    obtain ⟨next, hnumbered⟩ := hopening.numbered
    have hstands := ((sourced codes ctx).holds hopening.sourced hreaches).standsIn
    have hpart : c.label ∈ e.own :=
      Expr.own_subset_of_mem_parts (mem_parts_of_asks hparts.asks.2) hown
    have hnot : ∀ s condition body, e ≠ .loop s condition body := by
      rintro s condition body rfl
      exact hloop ⟨s, condition, body, hstands, hpart⟩
    -- no such function has been made before, and the first part does not make one
    obtain ⟨hlacks, hfree⟩ := lacks_of_partsInTurn hparts hnot (hstands.spread hnumbered) hown
      (lacks_of_reaches hopening hreaches hpart hloop hrepeats)
    have hspared := (sparing c.label scope ctx).holds ⟨hlacks, fun _ => hfree⟩ hvalue
    exact (((sparing c.label scope ctx).keeps hspared).of_done h).2 c rfl ⟨rfl, hscope⟩
  | body hask henter =>
    -- all parts of a call have ended before the scope of the body is made
    have hlt := lt_of_endsBy hopening hq ((endsBy_of_enters _ hask henter).reaches hvalue) h
    exact absurd hscope (Nat.ne_of_lt hlt)

/-- A function that exists was made in a scope that is there. If it was made in the scope of the
moment by a lambda node of the moment's expression, then the lambda node stands in a loop or the run
repeats an evaluation. -/
theorem Existed.looped (h : Existed ctx old start p c) (hopening : Opening codes old start) :
    Reaches ctx start p ∧ c.scope < p.machine.store.scopes.size ∧
      (c.scope = p.scope → c.label ∈ p.code.own →
        Looped codes c.label ∨ Repeats old start c.label c.scope) := by
  -- by where the function comes from: none of these places holds one of the moment's own
  induction h with
  | old h =>
    exact ⟨.refl, hopening.lt_size _ h, fun hscope hown => .inr ⟨hscope, hown, _, h, rfl, rfl⟩⟩
  | @bound p scope x c hreaches h =>
    have hpresent := (Region.present.discipline ctx).holds hopening.present hreaches
    have hwhole := Region.encloses_present_iff.mp hpresent.encloses
    refine ⟨hreaches, hwhole.bindsOnly _ _ _ h, fun hscope hown => ?_⟩
    by_contra hnone
    obtain ⟨hloop, hrepeats⟩ := not_or.mp hnone
    rw [hscope] at hrepeats
    exact (lacks_of_reaches hopening hreaches hown hloop hrepeats).binds _ _ _ h ⟨rfl, hscope⟩
  | @ended r x y q c m hreaches hturn hvalue h =>
    have hq := (hreaches.tail hturn.calls.1).trans hvalue
    exact ⟨hreaches.tail hturn.calls.2, lt_of_endsBy hopening hq (hturn.endsBy.reaches hvalue) h,
      looped_of_inTurn hopening hreaches hturn hvalue h⟩
  | later _ hcalls ih =>
    obtain ⟨hreaches, hlt, hloop⟩ := ih
    refine ⟨hreaches.tail hcalls, ?_⟩
    cases hcalls with
    | part hask =>
      refine ⟨Nat.lt_of_lt_of_le hlt (le_of_asks hask), fun hscope hown => ?_⟩
      exact hloop hscope (Expr.own_subset_of_mem_parts (mem_parts_of_asks hask) hown)
    | body henter =>
      obtain ⟨hle, hsize⟩ := le_of_enters henter
      have hnew := Nat.lt_of_lt_of_le hlt hle
      exact ⟨Nat.lt_trans hnew hsize, fun hscope => absurd hscope (Nat.ne_of_lt hnew)⟩

end

/-! ## What a host begins -/

namespace Interpreter

/-- A closure that a host may hold: it comes from a program that was loaded, and was made in a scope
that is there. -/
def MayHold (i : Interpreter) (codes : List Code) (c : Closure) : Prop :=
  c.From codes ∧ c.scope < i.machine.store.scopes.size

/-- A host evaluates what it has loaded, in any scope, or calls one of the functions that it holds
from outside. -/
inductive Begins (i : Interpreter) (codes : List Code) (held : Closure → Prop) : Moment → Prop
  | evaluate {fuel scope e} (he : e.StandsIn codes)
      (hscope : scope < i.machine.store.scopes.size) :
      Begins i codes held ⟨[], fuel, e, scope, i.machine⟩
  | call {fuel c args inner m} (hc : held c) (hargs : ∀ d, .function (.closure d) ∈ args → held d)
      (henter : enterScope c args i.machine = .done inner m) :
      Begins i codes held ⟨[c.label], fuel, c.body, inner, m.enter⟩

/-- The functions that there are: those that are bound to names, and what else the host holds. -/
structure Holding (i : Interpreter) (codes : List Code) (held : Closure → Prop) : Prop where
  mayHold : ∀ c, held c → i.MayHold codes c
  bound : i.machine.store.BindsOnly held

variable {i i' : Interpreter} {codes : List Code} {names : Interner} {held : Closure → Prop}
  {start p : Moment} {fuel : Nat} {scope : ScopeId} {s : Span} {label : Nat} {params : List Name}
  {body : Code}

/-- A host may hold all that is bound. -/
theorem Used.holding_mayHold (hused : Used i codes) (hwhole : i.machine.store.Whole) :
    i.Holding codes (i.MayHold codes) :=
  ⟨fun _ h => h, fun scope x c hc => ⟨hused.store_from scope x c hc, hwhole.bindsOnly scope x c hc⟩⟩

/-- Loading a program makes no functions. -/
theorem Holding.load (h : i.Holding codes held) (tree : Tree) :
    (i.load tree).2.Holding (codes ++ [(i.load tree).1]) held where
  mayHold c hc := by
    obtain ⟨⟨s, hstands⟩, hlt⟩ := h.mayHold c hc
    exact ⟨⟨s, hstands.subset (List.subset_append_left _ _)⟩, hlt⟩
  bound := h.bound

/-- A host may hold the function that an evaluation has come to. -/
theorem Used.mayHold_value {e : Code} {c : Closure} (hused : Used i codes)
    (hwhole : i.machine.store.Whole) (he : e.StandsIn codes)
    (hscope : scope < i.machine.store.scopes.size)
    (hrun : evalCode names fuel scope e i = .done (.function (.closure c)) i') :
    i'.MayHold codes c := by
  obtain ⟨m, heval, rfl⟩ : ∃ m, (Moment.mk [] fuel e scope i.machine).outcome (i.context names) =
      .done (.function (.closure c)) m ∧ i' = { i with machine := m } := by
    simp only [evalCode, onMachine] at hrun
    cases hresult : eval (i.context names) fuel e scope i.machine <;> rw [hresult] at hrun <;>
      cases hrun
    exact ⟨_, hresult, rfl⟩
  have hpresent : Region.present.Holds ⟨[], fuel, e, scope, i.machine⟩ :=
    ⟨Region.encloses_present_iff.mpr hwhole, hscope⟩
  have hsourced : Moment.Sourced codes ⟨[], fuel, e, scope, i.machine⟩ := ⟨he, hused.store_from⟩
  exact ⟨(((sourced codes _).keeps hsourced).of_done heval).2 c rfl,
    (((Region.present.discipline _).keeps hpresent).of_done heval).2 c rfl⟩

/-- The functions that there are when a host begins something. -/
theorem Begins.opening (h : i.Begins codes held start) (hused : Used i codes)
    (hwhole : i.machine.store.Whole) (hheld : i.Holding codes held) : Opening codes held start := by
  cases h with
  | evaluate he hscope =>
    constructor
    case numbered => exact ⟨_, hused.numbered⟩
    case sourced => exact ⟨he, hused.store_from⟩
    case present => exact ⟨Region.encloses_present_iff.mpr hwhole, hscope⟩
    case binds => exact hheld.bound
    case lt_size => exact fun c hc => (hheld.mayHold c hc).2
  | @call _ c args _ _ hc hargs henter =>
    obtain ⟨hfrom, hlt⟩ := hheld.mayHold c hc
    have hbounds : Region.present.Bounds i.machine.store (entered i.machine.store c args) :=
      .entered (Nat.zero_le _) hlt fun d hd => (hheld.mayHold d (hargs d hd)).2
    have hsize : i.machine.store.scopes.size < (entered i.machine.store c args).scopes.size := by
      rw [size_entered]
      exact Nat.lt_succ_self _
    rw [enterScope_apply] at henter
    cases henter
    constructor
    case numbered => exact ⟨_, hused.numbered⟩
    case sourced =>
      refine ⟨hfrom.standsIn_body, hused.store_from.entered ?_⟩
      exact fun v hv d hd => (hheld.mayHold d (hargs d (hd ▸ hv))).1
    case present => exact ⟨hbounds.encloses (Region.encloses_present_iff.mpr hwhole), hsize⟩
    case binds => exact hheld.bound.entered hargs
    case lt_size => exact fun d hd => Nat.lt_trans (hheld.mayHold d hd).2 hsize

/-! ## Evaluating a lambda node again -/

/-- A program that has just been loaded repeats nothing: its lambda nodes are new. -/
theorem not_repeats_load (hused : Used i codes) (hheld : i.Holding codes held) (tree : Tree)
    (fuel : Nat) (scope : ScopeId) (m : Machine) (label : Nat) (scope' : ScopeId) :
    ¬Repeats held ⟨[], fuel, (i.load tree).1, scope, m⟩ label scope' := by
  rintro ⟨-, hown, c, hc, rfl, -⟩
  obtain ⟨⟨s, hstands⟩, -⟩ := hheld.mayHold c hc
  have hlt := hstands.own_lt hused.numbered List.mem_cons_self
  exact absurd (Expr.le_of_mem_own hown) (Nat.not_le_of_lt hlt)

/-- The call of a function repeats nothing: the scope of its body is new. -/
theorem not_repeats_call (hheld : i.Holding codes held) {c : Closure} {args : List Value}
    {inner : ScopeId} {m : Machine} (henter : enterScope c args i.machine = .done inner m)
    (fuel : Nat) (label : Nat) (scope : ScopeId) :
    ¬Repeats held ⟨[c.label], fuel, c.body, inner, m.enter⟩ label scope := by
  rintro ⟨hinner, -, d, hd, -, hscope⟩
  rw [enterScope_apply] at henter
  cases henter
  exact absurd (hscope.trans hinner) (Nat.ne_of_lt (hheld.mayHold d hd).2)

theorem eq_of_evalCode {v : Value}
    (h : evalCode names fuel scope (.lambda s label params body) i = .done v i') :
    v = .function (.closure ⟨label, params, body, scope⟩) := by
  cases fuel with
  | zero => cases h
  | succ fuel =>
    cases h
    rfl

/-- What a lambda node makes is equal to itself, and to exactly those closures that the lambda node
has made in the same scope; a host that has it evaluated there again gets an equal function. Unless
the lambda node stands in a loop, or the host repeats an evaluation like this, the function differs
from all that existed before. -/
theorem differs_from_existed (hused : Used i codes) (hwhole : i.machine.store.Whole)
    (hheld : i.Holding codes held) (hbegins : i.Begins codes held start) {active : List Nat}
    {m : Machine} (hreaches : Reaches (i.context names) start
      ⟨active, fuel + 1, .lambda s label params body, scope, m⟩) :
    ∃ made, eval (i.context names) (fuel + 1) (.lambda s label params body) scope m =
        .done (.function made) m ∧
      Value.same (.function made) (.function made) = true ∧
      (∀ f, Value.same (.function made) (.function f) = true ↔
        ∃ d, f = .closure d ∧ d.MadeBy label scope) ∧
      (∀ names' fuel' j v j', evalCode names' fuel' scope (.lambda s label params body) j =
          .done v j' → Value.same (.function made) v = true) ∧
      (¬Looped codes label → ¬Repeats held start label scope → ∀ f,
        (∀ d, f = .closure d → Existed (i.context names) held start
          ⟨active, fuel + 1, .lambda s label params body, scope, m⟩ d) →
        Value.same (.function made) (.function f) = false) := by
  have hsame : ∀ f, Value.same (.function (.closure ⟨label, params, body, scope⟩))
      (.function f) = true ↔ ∃ d, f = .closure d ∧ d.MadeBy label scope := by
    rintro (d | b)
    · exact Closure.same_iff.trans ⟨fun h => ⟨d, rfl, h⟩, fun ⟨_, hd, h⟩ => by cases hd; exact h⟩
    · exact ⟨fun h => (nomatch h), fun ⟨_, hd, _⟩ => nomatch hd⟩
  refine ⟨_, rfl, (hsame _).mpr ⟨_, rfl, rfl, rfl⟩, hsame, fun names' fuel' j v j' hrun => ?_,
    fun hloop hrepeats f hexisted => ?_⟩
  · rw [eq_of_evalCode hrun]
    exact (hsame _).mpr ⟨_, rfl, rfl, rfl⟩
  · rw [← Bool.not_eq_true, hsame]
    rintro ⟨d, rfl, rfl, rfl⟩
    obtain ⟨-, -, hlooped⟩ := (hexisted d rfl).looped (hbegins.opening hused hwhole hheld)
    exact (hlooped rfl List.mem_cons_self).elim hloop hrepeats

/-- The program `lambda () lambda () true`. -/
def functionMaker : Tree := .lambda .dummy () [] (.lambda .dummy () [] (.bool .dummy true))

/-- The value of `functionMaker`. -/
def maker : Closure := ⟨0, [], .lambda .dummy 1 [] (.bool .dummy true), 0⟩

/-- An interpreter on which `functionMaker` has been run. -/
def afterMaking : Interpreter := ⟨(build .fresh (.buffer "") 1 []).1.machine, 0, 1, 2⟩

/-- The interpreter when its function has been called once. -/
def afterCalling : Interpreter :=
  { afterMaking with
    machine := { afterMaking.machine with store := entered afterMaking.machine.store maker [] } }

theorem session_afterMaking : Session afterMaking [(functionMaker.numbered 0).1] := by
  have hbuilt : Session (build .fresh (.buffer "") 1 []).1 [] := .build fun _ _ => List.not_mem_nil
  have hrun : evalProgram .fresh 1 functionMaker (build .fresh (.buffer "") 1 []).1 =
      .done (.function (.closure maker)) afterMaking := rfl
  exact hbuilt.program (.inl ⟨_, hrun⟩)

theorem mayHold_maker : afterMaking.MayHold [(functionMaker.numbered 0).1] maker := by
  have hbuilt : Session (build .fresh (.buffer "") 1 []).1 [] := .build fun _ _ => List.not_mem_nil
  have hloaded := hbuilt.load functionMaker
  have hrun : evalCode .fresh 1 0 (functionMaker.numbered 0).1
      ((build .fresh (.buffer "") 1 []).1.load functionMaker).2 =
        .done (.function (.closure maker)) afterMaking := rfl
  exact hloaded.used.mayHold_value hloaded.whole (Expr.standsIn_of_mem List.mem_cons_self)
    Nat.zero_lt_one hrun

theorem callValue_maker : callValue .fresh 1 (.function (.closure maker)) [] afterMaking =
    .done (.function (.closure ⟨1, [], .bool .dummy true, 1⟩)) afterCalling := rfl

theorem used_afterCalling : Used afterCalling [(functionMaker.numbered 0).1] := by
  refine session_afterMaking.used.call ?_ (List.forall_mem_nil _) (.inl ⟨_, callValue_maker⟩)
  rintro c ⟨⟩
  exact mayHold_maker.1

theorem whole_afterCalling : afterCalling.machine.store.Whole := by
  have hbounds : Region.present.Bounds afterMaking.machine.store afterCalling.machine.store :=
    .entered (Nat.zero_le _) (Nat.zero_lt_one : 0 < afterMaking.machine.store.scopes.size)
      fun _ => List.not_mem_nil.elim
  exact Region.encloses_present_iff.mp
    (hbounds.encloses (Region.encloses_present_iff.mpr session_afterMaking.whole))

theorem not_looped_functionMaker (firsts : List Nat) (label : Nat) :
    ¬Looped (firsts.map fun first => (functionMaker.numbered first).1) label := by
  rintro ⟨s, condition, body, ⟨root, hroot, around, hwithin⟩, -⟩
  obtain ⟨first, -, rfl⟩ := List.mem_map.mp hroot
  have hnodes : ∀ around e, Within (functionMaker.numbered first).1 around e →
      e ∈ [(functionMaker.numbered first).1,
        .lambda .dummy (first + 1) [] (.bool .dummy true), .bool .dummy true] := by
    intro around e h
    induction h with
    | root => exact List.mem_cons_self
    | part _ hpart ih =>
      simp only [List.mem_cons, List.not_mem_nil, or_false] at ih
      rcases ih with rfl | rfl | rfl <;> contradiction
    | body _ ih =>
      simp only [List.mem_cons, List.not_mem_nil, or_false] at ih
      rcases ih with h | h | h <;> cases h <;> simp
  simpa [functionMaker, Expr.numbered] using hnodes _ _ hwithin

/-- The program is read and run a second time, and its function is called a second time: either time
the lambda node makes another function than the first time. -/
theorem differs_from_existed_functionMaker :
    (∃ again, eval ((afterMaking.load functionMaker).2.context .fresh) 1
        (afterMaking.load functionMaker).1 0 afterMaking.machine =
          .done (.function (.closure again)) afterMaking.machine ∧
      again.scope = maker.scope ∧
      Value.same (.function (.closure again)) (.function (.closure maker)) = false) ∧
    ∃ first second inner m,
      Interpreter.callValue .fresh 1 (.function (.closure maker)) [] afterMaking =
        .done (.function (.closure first)) afterCalling ∧
      Used afterCalling [(functionMaker.numbered 0).1] ∧ afterCalling.machine.store.Whole ∧
      enterScope maker [] afterCalling.machine = .done inner m ∧
      eval (afterCalling.context .fresh) 1 maker.body inner m.enter =
        .done (.function (.closure second)) m.enter ∧
      first.label = second.label ∧
      Value.same (.function (.closure second)) (.function (.closure first)) = false := by
  constructor
  case left =>
    have hglobal : 0 < afterMaking.machine.store.scopes.size := Nat.zero_lt_one
    have hused := session_afterMaking.used
    have hheld := hused.holding_mayHold session_afterMaking.whole
    have hloaded := Expr.standsIn_of_mem (List.mem_append_right [(functionMaker.numbered 0).1]
      (List.mem_singleton_self (afterMaking.load functionMaker).1))
    obtain ⟨again, heval, -, -, -, hdiffers⟩ := differs_from_existed (hused.load functionMaker)
      session_afterMaking.whole (hheld.load functionMaker) (.evaluate hloaded hglobal)
      (.refl : Reaches ((afterMaking.load functionMaker).2.context .fresh) _
        ⟨[], 1, (afterMaking.load functionMaker).1, 0, afterMaking.machine⟩)
    have hagain := heval
    cases heval
    refine ⟨_, hagain, rfl, ?_⟩
    refine hdiffers (not_looped_functionMaker [0, 2] 2)
      (not_repeats_load hused hheld functionMaker 1 0 afterMaking.machine 2 0) _ ?_
    rintro d ⟨⟩
    exact .old mayHold_maker
  case right =>
    have hused := used_afterCalling
    have hwhole := whole_afterCalling
    have hmaker : afterCalling.MayHold [(functionMaker.numbered 0).1] maker :=
      ⟨mayHold_maker.1, by decide⟩
    have hfirst : afterCalling.MayHold [(functionMaker.numbered 0).1]
        ⟨1, [], .bool .dummy true, 1⟩ :=
      ⟨⟨.dummy, _, List.mem_singleton_self _, _, .body .root⟩, by decide⟩
    have hheld := hused.holding_mayHold hwhole
    have henter : enterScope maker [] afterCalling.machine = .done 2 _ := rfl
    have hbegins : afterCalling.Begins [(functionMaker.numbered 0).1] _
        ⟨[0], 1, maker.body, 2, _⟩ :=
      .call hmaker (fun _ => List.not_mem_nil.elim) henter
    obtain ⟨second, heval, -, -, -, hdiffers⟩ := differs_from_existed hused hwhole hheld hbegins
      (.refl : Reaches (afterCalling.context .fresh) _ _)
    have hsecond := heval
    cases heval
    refine ⟨_, _, _, _, callValue_maker, hused, hwhole, henter, hsecond, rfl, ?_⟩
    refine hdiffers (not_looped_functionMaker [0] 1) (not_repeats_call hheld henter 1 1 2) _ ?_
    rintro d ⟨⟩
    exact .old hfirst

end Interpreter

/-- A loop of two rounds. Each of them makes a function; `g` is the first one and `f` the second
one. -/
def twoRounds : String :=
  "f = false; g = false; i = true; " ++
    "while i \x7b g = f; f = lambda () true; i = g == false \x7d; f == g"

/-- The value of a program, if it is a boolean. -/
def Outcome.bool? {ε σ : Type} : Outcome ε σ Value → Option Bool
  | .done (.bool b) _ => some b
  | _ => none

theorem Outcome.exists_done {ε σ : Type} {o : Outcome ε σ Value} {b : Bool}
    (h : o.bool? = some b) : ∃ s, o = .done (.bool b) s := by
  rcases o with ⟨_ | _ | _ | _, s⟩ | _ | _ <;> cases h
  exact ⟨s, rfl⟩

/-- The functions that the rounds of a loop make are equal. -/
theorem equal_twoRounds :
    ∃ a, RunsTo twoRounds .fresh defaultLimit (.buffer "") (.done (.bool true) a) := by
  obtain ⟨a, hrun⟩ : ∃ a, runSource twoRounds .fresh defaultLimit (.buffer "") 20 =
      .done (.bool true) a := Outcome.exists_done (by decide +kernel)
  exact ⟨a, trivial, 20, hrun⟩

end LambdaScript
