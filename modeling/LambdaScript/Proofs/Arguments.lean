import LambdaScript.CommandLine
/-!
# The arguments of a run

`RunArgs.parse` goes through the arguments from the left and refuses the first one that `Offends`.
Where none does, it needs one path, and the last value given for each option counts. Whether an
argument offends depends on those before it only in that a second path does, so arguments can change
places unless an option is given twice (`RunArgs.parse_arguments`).
-/

namespace LambdaScript.RunArgs

/-- An argument begins with a text. -/
def begins (start arg : String) : Bool := start.toList.isPrefixOf arg.toList

/-- Arguments that begin with a minus are options, all others are paths. -/
def isOption (arg : String) : Bool := begins "-" arg

/-- A text of digits, with a plus in front or not, and the number that they spell in 64 bits. -/
def SpellsLimit (text : String) (n : Nat) : Prop :=
  ∃ digits, digits ≠ [] ∧ (∀ c ∈ digits, '0' ≤ c ∧ c ≤ '9') ∧
    (text = String.ofList digits ∨ text = String.ofList ('+' :: digits)) ∧
    n = Nat.ofDigitChars 10 digits 0 ∧ n ≤ 0xffffffffffffffff

/-- A word for a way to use colours. -/
inductive SpellsColor : String → ColorMode → Prop where
  | auto : SpellsColor "auto" .auto
  | always : SpellsColor "always" .always
  | never : SpellsColor "never" .never

/-- An argument offends behind these others, and this is the message. -/
inductive Offends (before : List String) (arg : String) : String → Prop where
  | limit {value : String} (harg : arg = "--max-depth=" ++ value)
      (hvalue : ∀ n, ¬SpellsLimit value n) :
      Offends before arg ("invalid --max-depth value '" ++ value ++ "'")
  | color {value : String} (harg : arg = "--color=" ++ value)
      (hvalue : ∀ mode, ¬SpellsColor value mode) :
      Offends before arg ("invalid --color value '" ++ value ++ "'")
  | unknown (hoption : isOption arg = true) (hlimit : begins "--max-depth=" arg = false)
      (hcolor : begins "--color=" arg = false) :
      Offends before arg ("unknown option '" ++ arg ++ "'")
  | extra {path : String} (harg : isOption arg = false) (hbefore : path ∈ before)
      (hpath : isOption path = false) : Offends before arg ("unexpected argument '" ++ arg ++ "'")

/-- No argument offends behind those before it. -/
def Clean (args : List String) : Prop :=
  ∀ before arg, before ++ [arg] <+: args → ∀ text, ¬Offends before arg text

/-- The first argument that offends does so with this message. -/
def FirstOffence (args : List String) (text : String) : Prop :=
  ∃ before arg, before ++ [arg] <+: args ∧ Clean before ∧ Offends before arg text

/-- What the last argument that begins with `start` says behind it, or the default if there is
none. -/
def LastSays {α : Type} (start : String) (Says : String → α → Prop) (default : α)
    (args : List String) (a : α) : Prop :=
  match (args.filter (begins start)).getLast? with
  | none => a = default
  | some arg => ∃ value, arg = start ++ value ∧ Says value a

/-- What can be said of arguments of which none offends. -/
structure Found (args : List String) (path : Option String) (options : RunOptions) : Prop where
  clean : Clean args
  path : args.filter (!isOption ·) = path.toList
  limit : LastSays "--max-depth=" SpellsLimit 10000 args options.limit
  color : LastSays "--color=" SpellsColor .auto args options.color

/-! ## Texts -/

theorem begins_iff {start arg : String} :
    begins start arg = true ↔ ∃ value, arg = start ++ value := by
  rw [begins, List.isPrefixOf_iff_prefix]
  constructor
  · rintro ⟨rest, hrest⟩
    refine ⟨String.ofList rest, String.toList_injective ?_⟩
    rw [String.toList_append, String.toList_ofList, hrest]
  · rintro ⟨value, rfl⟩
    exact ⟨value.toList, String.toList_append.symm⟩

theorem begins_append (start value : String) : begins start (start ++ value) = true :=
  begins_iff.mpr ⟨value, rfl⟩

theorem after?_append (start value : String) : after? start (start ++ value) = some value := by
  have hbegins : start.toList.isPrefixOf (start ++ value).toList = true :=
    begins_append start value
  rw [after?, if_pos hbegins, String.toList_append, ← String.length_toList, List.drop_left,
    String.ofList_toList]

theorem after?_of_begins_eq_false {start arg : String} (h : begins start arg = false) :
    after? start arg = none := by
  rw [after?, if_neg]
  exact Bool.eq_false_iff.mp h

/-- An argument begins with `start`, or nothing of it is found behind `start`. -/
theorem after?_cases (start arg : String) :
    (∃ value, arg = start ++ value ∧ after? start arg = some value) ∨
      (begins start arg = false ∧ after? start arg = none) := by
  cases hbegins : begins start arg with
  | true =>
    obtain ⟨value, rfl⟩ := begins_iff.mp hbegins
    exact .inl ⟨value, rfl, after?_append start value⟩
  | false => exact .inr ⟨rfl, after?_of_begins_eq_false hbegins⟩

theorem isOption_eq (arg : String) : isOption arg = (arg.toList.head? == some '-') := by
  rw [isOption, begins]
  cases arg.toList with
  | nil => rfl
  | cons c rest =>
    show ('-' == c && true) = (c == '-')
    rw [Bool.and_true, BEq.comm]

/-! ## Values of options -/

/-- A digit is no plus. -/
theorem ne_plus_cons_of_digits {digits rest : List Char}
    (hdigits : ∀ c ∈ digits, '0' ≤ c ∧ c ≤ '9') : digits ≠ '+' :: rest := by
  rintro rfl
  have hplus := hdigits '+' List.mem_cons_self
  revert hplus
  decide

theorem parseLimit?_eq_some_iff {text : String} {n : Nat} :
    parseLimit? text = some n ↔ SpellsLimit text n := by
  -- what is left when the plus is dropped has to be digits
  have hdigits (digits : List Char) : (if digits.isEmpty || !digits.all isDigit then none
      else if Decimal.valueOfDigits digits ≤ maxLimit then some (Decimal.valueOfDigits digits)
      else none) = some n ↔ digits ≠ [] ∧ (∀ c ∈ digits, '0' ≤ c ∧ c ≤ '9') ∧
        n = Nat.ofDigitChars 10 digits 0 ∧ n ≤ 0xffffffffffffffff := by
    have hvalue : Decimal.valueOfDigits digits = Nat.ofDigitChars 10 digits 0 := rfl
    have hall : digits.all isDigit = true ↔ ∀ c ∈ digits, '0' ≤ c ∧ c ≤ '9' := by simp [isDigit]
    rw [hvalue, ← hall, ← List.isEmpty_eq_false_iff, maxLimit]
    cases digits.isEmpty <;> cases digits.all isDigit <;> simp
    omega
  rw [parseLimit?, SpellsLimit]
  dsimp only
  split
  · next rest htext =>
    rw [hdigits]
    constructor
    · rintro ⟨hne, hall, hn⟩
      exact ⟨rest, hne, hall, .inr (by rw [← htext, String.ofList_toList]), hn⟩
    · rintro ⟨digits, hne, hall, rfl | rfl, hn⟩
      · exact absurd (String.toList_ofList.symm.trans htext) (ne_plus_cons_of_digits hall)
      · cases String.toList_ofList.symm.trans htext
        exact ⟨hne, hall, hn⟩
  · next hplus =>
    rw [hdigits]
    constructor
    · rintro ⟨hne, hall, hn⟩
      exact ⟨text.toList, hne, hall, .inl String.ofList_toList.symm, hn⟩
    · rintro ⟨digits, hne, hall, rfl | rfl, hn⟩
      · rw [String.toList_ofList]
        exact ⟨hne, hall, hn⟩
      · exact absurd String.toList_ofList (hplus digits)

theorem ofWord?_eq_some_iff {text : String} {mode : ColorMode} :
    ColorMode.ofWord? text = some mode ↔ SpellsColor text mode := by
  constructor
  · intro h
    unfold ColorMode.ofWord? at h
    split at h <;> cases h
    · exact .auto
    · exact .always
    · exact .never
  · intro h
    cases h <;> rfl

/-! ## One argument -/

section
variable {before args : List String} {path : Option String} {options : RunOptions}

theorem clean_concat {arg : String} :
    Clean (before ++ [arg]) ↔ Clean before ∧ ∀ text, ¬Offends before arg text := by
  simp only [Clean, List.prefix_concat_iff]
  constructor
  · intro h
    exact ⟨fun earlier a ha => h earlier a (.inr ha), h before arg (.inl rfl)⟩
  · rintro ⟨hclean, harg⟩ earlier a (heq | ha)
    · obtain ⟨rfl, ha⟩ := List.append_inj' heq rfl
      cases ha
      exact harg
    · exact hclean earlier a ha

theorem LastSays.concat {α : Type} {start : String} {Says : String → α → Prop} {default a : α}
    {value : String} (h : Says value a) :
    LastSays start Says default (before ++ [start ++ value]) a := by
  rw [LastSays, List.filter_append, List.filter_cons_of_pos (begins_append start value),
    List.filter_nil, List.getLast?_concat]
  exact ⟨value, rfl, h⟩

theorem LastSays.concat_other {α : Type} {start : String} {Says : String → α → Prop}
    {default a : α} {arg : String} (h : LastSays start Says default before a)
    (harg : begins start arg = false) : LastSays start Says default (before ++ [arg]) a := by
  have hneg : ¬begins start arg = true := Bool.eq_false_iff.mp harg
  rw [LastSays, List.filter_append, List.filter_cons_of_neg hneg, List.filter_nil,
    List.append_nil]
  exact h

theorem begins_of_limit {arg : String} (h : begins "--max-depth=" arg = true) :
    isOption arg = true ∧ begins "--color=" arg = false := by
  obtain ⟨value, rfl⟩ := begins_iff.mp h
  rw [isOption, begins, begins, String.toList_append]
  exact ⟨rfl, rfl⟩

theorem begins_of_color {arg : String} (h : begins "--color=" arg = true) :
    isOption arg = true ∧ begins "--max-depth=" arg = false := by
  obtain ⟨value, rfl⟩ := begins_iff.mp h
  rw [isOption, begins, begins, String.toList_append]
  exact ⟨rfl, rfl⟩

/-- A path begins with no option. -/
theorem begins_of_path {arg : String} (h : isOption arg = false) :
    begins "--max-depth=" arg = false ∧ begins "--color=" arg = false := by
  constructor
  · exact Bool.eq_false_iff.mpr fun hlimit => by simp [(begins_of_limit hlimit).1] at h
  · exact Bool.eq_false_iff.mpr fun hcolor => by simp [(begins_of_color hcolor).1] at h

/-! ## One step -/

theorem step_limit {value : String} : step path options ("--max-depth=" ++ value) =
    match parseLimit? value with
    | some limit => .ok (path, { options with limit })
    | none => .error (.invalidLimit value) := by
  cases hvalue : parseLimit? value with
  | some limit => simp only [step, after?_append, hvalue]
  | none => simp only [step, after?_append, hvalue]

theorem step_color {value : String} : step path options ("--color=" ++ value) =
    match ColorMode.ofWord? value with
    | some color => .ok (path, { options with color })
    | none => .error (.invalidColor value) := by
  have hnone := after?_of_begins_eq_false (begins_of_color (begins_append "--color=" value)).2
  cases hvalue : ColorMode.ofWord? value with
  | some color => simp only [step, hnone, after?_append, hvalue]
  | none => simp only [step, hnone, after?_append, hvalue]

theorem step_other {arg : String} (hlimit : begins "--max-depth=" arg = false)
    (hcolor : begins "--color=" arg = false) : step path options arg =
      if isOption arg then .error (.unknownOption arg)
      else if path.isSome then .error (.unexpectedArgument arg)
      else .ok (some arg, options) := by
  rw [step, after?_of_begins_eq_false hlimit, after?_of_begins_eq_false hcolor, isOption_eq]

/-- An argument that offends is refused, with its message. -/
theorem step_of_offends {arg text : String} (options : RunOptions)
    (h : Offends before arg text)
    (hpath : ∀ p ∈ before, isOption p = false → path.isSome = true) :
    ∃ e, step path options arg = .error e ∧ e.message = text := by
  cases h with
  | @limit value harg hvalue =>
    have hnone : parseLimit? value = none :=
      Option.eq_none_iff_forall_ne_some.mpr fun n hn => hvalue n (parseLimit?_eq_some_iff.mp hn)
    refine ⟨.invalidLimit value, ?_, rfl⟩
    rw [harg, step_limit, hnone]
  | @color value harg hvalue =>
    have hnone : ColorMode.ofWord? value = none :=
      Option.eq_none_iff_forall_ne_some.mpr fun mode hmode =>
        hvalue mode (ofWord?_eq_some_iff.mp hmode)
    refine ⟨.invalidColor value, ?_, rfl⟩
    rw [harg, step_color, hnone]
  | unknown hoption hlimit hcolor =>
    refine ⟨.unknownOption arg, ?_, rfl⟩
    rw [step_other hlimit hcolor, if_pos hoption]
  | @extra p harg hbefore hp =>
    obtain ⟨hlimit, hcolor⟩ := begins_of_path harg
    refine ⟨.unexpectedArgument arg, ?_, rfl⟩
    rw [step_other hlimit hcolor, if_neg (Bool.eq_false_iff.mp harg), if_pos (hpath p hbefore hp)]

/-- What an argument that is refused offends against. -/
theorem offends_of_step {arg : String} {e : RunArgsError}
    (h : step path options arg = .error e)
    (hpath : path.isSome = true → ∃ p ∈ before, isOption p = false) :
    Offends before arg e.message := by
  rcases after?_cases "--max-depth=" arg with ⟨value, rfl, -⟩ | ⟨hlimit, -⟩
  · rw [step_limit] at h
    cases hparse : parseLimit? value with
    | some limit => simp [hparse] at h
    | none =>
      rw [hparse] at h
      cases h
      refine .limit rfl fun n hn => ?_
      rw [parseLimit?_eq_some_iff.mpr hn] at hparse
      contradiction
  rcases after?_cases "--color=" arg with ⟨value, rfl, -⟩ | ⟨hcolor, -⟩
  · rw [step_color] at h
    cases hword : ColorMode.ofWord? value with
    | some mode => simp [hword] at h
    | none =>
      rw [hword] at h
      cases h
      refine .color rfl fun mode hmode => ?_
      rw [ofWord?_eq_some_iff.mpr hmode] at hword
      contradiction
  rw [step_other hlimit hcolor] at h
  split at h
  · next hoption =>
    cases h
    exact .unknown hoption hlimit hcolor
  · next hoption =>
    split at h
    · next hsome =>
      cases h
      obtain ⟨p, hmem, hp⟩ := hpath hsome
      exact .extra (Bool.eq_false_iff.mpr hoption) hmem hp
    · cases h

theorem Found.isSome (h : Found before path options) :
    ∀ p ∈ before, isOption p = false → path.isSome = true := by
  intro p hmem hp
  have hfilter : p ∈ before.filter (!isOption ·) := by simp [hmem, hp]
  rw [h.path, Option.mem_toList] at hfilter
  rw [hfilter]
  rfl

/-- An argument that is taken in. -/
theorem Found.step {arg : String} {path' : Option String} {options' : RunOptions}
    (h : Found before path options) (hstep : step path options arg = .ok (path', options')) :
    Found (before ++ [arg]) path' options' := by
  have hclean : Clean (before ++ [arg]) := by
    refine clean_concat.mpr ⟨h.clean, fun text hoffends => ?_⟩
    obtain ⟨e, he, -⟩ := step_of_offends options hoffends h.isSome
    rw [hstep] at he
    contradiction
  have hoption : isOption arg = true →
      (before ++ [arg]).filter (!isOption ·) = before.filter (!isOption ·) := by
    intro harg
    simp [harg]
  rcases after?_cases "--max-depth=" arg with ⟨value, rfl, -⟩ | ⟨hlimit, -⟩
  · have hbegins := begins_append "--max-depth=" value
    rw [step_limit] at hstep
    cases hparse : parseLimit? value with
    | none => simp [hparse] at hstep
    | some limit =>
      rw [hparse] at hstep
      cases hstep
      exact ⟨hclean, (hoption (begins_of_limit hbegins).1).trans h.path,
        .concat (parseLimit?_eq_some_iff.mp hparse),
        h.color.concat_other (begins_of_limit hbegins).2⟩
  rcases after?_cases "--color=" arg with ⟨value, rfl, -⟩ | ⟨hcolor, -⟩
  · have hbegins := begins_append "--color=" value
    rw [step_color] at hstep
    cases hword : ColorMode.ofWord? value with
    | none => simp [hword] at hstep
    | some color =>
      rw [hword] at hstep
      cases hstep
      exact ⟨hclean, (hoption (begins_of_color hbegins).1).trans h.path,
        h.limit.concat_other (begins_of_color hbegins).2,
        .concat (ofWord?_eq_some_iff.mp hword)⟩
  rw [step_other hlimit hcolor] at hstep
  split at hstep
  · cases hstep
  · next harg =>
    split at hstep
    · cases hstep
    · next hnone =>
      cases hstep
      rw [Option.not_isSome_iff_eq_none] at hnone
      refine ⟨hclean, ?_, h.limit.concat_other hlimit, h.color.concat_other hcolor⟩
      rw [List.filter_append, h.path, hnone]
      simp [harg]

/-! ## All arguments -/

/-- The arguments taken in one after the other. -/
def takeAll (path : Option String) (options : RunOptions) (args : List String) :
    Except RunArgsError (Option String × RunOptions) :=
  args.foldlM (fun (path, options) arg => RunArgs.step path options arg) (path, options)

theorem takeAll_cons_of_ok {arg : String} {path' : Option String} {options' : RunOptions}
    (h : step path options arg = .ok (path', options')) :
    takeAll path options (arg :: args) = takeAll path' options' args := by
  rw [takeAll, List.foldlM_cons]
  show RunArgs.step path options arg >>= _ = _
  rw [h]
  rfl

theorem takeAll_cons_of_error {arg : String} {e : RunArgsError}
    (h : step path options arg = .error e) : takeAll path options (arg :: args) = .error e := by
  rw [takeAll, List.foldlM_cons]
  show RunArgs.step path options arg >>= _ = _
  rw [h]
  rfl

theorem takeAll_append_of_ok {path' : Option String} {options' : RunOptions}
    (h : takeAll path options before = .ok (path', options')) :
    takeAll path options (before ++ args) = takeAll path' options' args := by
  rw [takeAll] at h
  rw [takeAll, List.foldlM_append, h]
  rfl

theorem Found.takeAll (h : Found before path options) :
    (∃ path' options', takeAll path options args = .ok (path', options') ∧
      Found (before ++ args) path' options') ∨
    (∃ e, RunArgs.takeAll path options args = .error e ∧
      ∃ earlier arg, earlier ++ [arg] <+: before ++ args ∧ Clean earlier ∧
        Offends earlier arg e.message) := by
  induction args generalizing before path options with
  | nil => exact .inl ⟨path, options, rfl, by rwa [List.append_nil]⟩
  | cons arg args ih =>
    cases hstep : RunArgs.step path options arg with
    | error e =>
      have hpath : path.isSome = true → ∃ p ∈ before, isOption p = false := by
        intro hsome
        obtain ⟨p, rfl⟩ := Option.isSome_iff_exists.mp hsome
        have hmem : p ∈ before.filter (!isOption ·) := by
          rw [h.path]
          exact List.mem_singleton_self p
        exact ⟨p, by simpa using hmem⟩
      have hfront : before ++ [arg] <+: before ++ arg :: args := ⟨args, by simp⟩
      exact .inr ⟨e, takeAll_cons_of_error hstep, before, arg, hfront, h.clean,
        offends_of_step hstep hpath⟩
    | ok found =>
      obtain ⟨path', options'⟩ := found
      rw [List.append_cons, takeAll_cons_of_ok hstep]
      exact ih (h.step hstep)

theorem found_nil : Found [] none RunOptions.default where
  clean before arg hfront := by simp at hfront
  path := rfl
  limit := rfl
  color := rfl

/-- Going through all arguments: what is found if none offends, or else the first offence. -/
theorem takeAll_cases (args : List String) :
    (∃ path options, takeAll none .default args = .ok (path, options) ∧ Found args path options) ∨
    (∃ e, takeAll none .default args = .error e ∧ FirstOffence args e.message) :=
  found_nil.takeAll

theorem Clean.takeAll (h : Clean args) :
    ∃ path options, takeAll none .default args = .ok (path, options) ∧ Found args path options := by
  rcases takeAll_cases args with hfound | ⟨e, -, before, arg, hfront, -, hoffends⟩
  · exact hfound
  · exact absurd hoffends (h before arg hfront _)

theorem FirstOffence.takeAll {text : String} (h : FirstOffence args text) :
    ∃ e, takeAll none .default args = .error e ∧ e.message = text := by
  obtain ⟨before, arg, ⟨after, rfl⟩, hclean, hoffends⟩ := h
  obtain ⟨path, options, hbefore, hfound⟩ := hclean.takeAll
  obtain ⟨e, he, hmessage⟩ := step_of_offends options hoffends hfound.isSome
  refine ⟨e, ?_, hmessage⟩
  rw [List.append_assoc, takeAll_append_of_ok hbefore]
  exact takeAll_cons_of_error he

end

theorem parse_of_ok {args : List String} {path : Option String} {options : RunOptions}
    (h : takeAll none .default args = .ok (path, options)) :
    parse args = path.elim (.error .missingPath) fun path => .ok (path, options) := by
  show takeAll none .default args >>= _ = _
  rw [h]
  cases path <;> rfl

theorem parse_of_error {args : List String} {e : RunArgsError}
    (h : takeAll none .default args = .error e) : parse args = .error e := by
  show takeAll none .default args >>= _ = _
  rw [h]
  rfl

/-! ## What is found is determined -/

theorem LastSays.unique {α : Type} {start : String} {Says : String → α → Prop} {default a b : α}
    {args : List String} (ha : LastSays start Says default args a)
    (hb : LastSays start Says default args b)
    (hsame : ∀ value a b, Says value a → Says value b → a = b) : a = b := by
  rw [LastSays] at ha hb
  cases hlast : (args.filter (begins start)).getLast? with
  | none =>
    rw [hlast] at ha hb
    exact ha.trans hb.symm
  | some arg =>
    rw [hlast] at ha hb
    obtain ⟨value, rfl, ha⟩ := ha
    obtain ⟨value', heq, hb⟩ := hb
    have hafter := congrArg (after? start) heq
    rw [after?_append, after?_append] at hafter
    cases hafter
    exact hsame value a b ha hb

theorem SpellsLimit.unique {text : String} {m n : Nat} (hm : SpellsLimit text m)
    (hn : SpellsLimit text n) : m = n := by
  rw [← parseLimit?_eq_some_iff] at hm hn
  exact Option.some.inj (hm.symm.trans hn)

theorem SpellsColor.unique {text : String} {c d : ColorMode} (hc : SpellsColor text c)
    (hd : SpellsColor text d) : c = d := by
  rw [← ofWord?_eq_some_iff] at hc hd
  exact Option.some.inj (hc.symm.trans hd)

/-- The answer where no argument offends. -/
theorem parse_of_clean {args : List String} (h : Clean args) :
    (parse args = .error .missingPath ∧ args.filter (!isOption ·) = []) ∨
      ∃ path options, parse args = .ok (path, options) ∧ Found args (some path) options := by
  obtain ⟨path, options, htake, hfound⟩ := h.takeAll
  have hparse := parse_of_ok htake
  cases path with
  | none => exact .inl ⟨hparse, hfound.path⟩
  | some path => exact .inr ⟨path, options, hparse, hfound⟩

theorem parse_eq_ok_iff {args : List String} {path : String} {options : RunOptions} :
    parse args = .ok (path, options) ↔ Found args (some path) options := by
  constructor
  · intro h
    rcases takeAll_cases args with ⟨path', options', htake, hfound⟩ | ⟨e, htake, -⟩
    · rw [parse_of_ok htake] at h
      cases path' with
      | none => contradiction
      | some path' =>
        cases h
        exact hfound
    · rw [parse_of_error htake] at h
      contradiction
  · intro h
    rcases parse_of_clean h.clean with ⟨-, hnone⟩ | ⟨path', options', hparse, hfound⟩
    · rw [h.path] at hnone
      contradiction
    · have hpath := h.path.symm.trans hfound.path
      have hlimit := h.limit.unique hfound.limit fun _ _ _ => SpellsLimit.unique
      have hcolor := h.color.unique hfound.color fun _ _ _ => SpellsColor.unique
      obtain ⟨limit, color⟩ := options
      obtain ⟨limit', color'⟩ := options'
      cases hpath
      cases hlimit
      cases hcolor
      exact hparse

theorem message_eq_iff {args : List String} {text : String} :
    (parse args).mapError RunArgsError.message = .error text ↔
      FirstOffence args text ∨
        (Clean args ∧ (∀ arg ∈ args, isOption arg = true) ∧ text = "missing file path") := by
  have hoptions : args.filter (!isOption ·) = [] ↔ ∀ arg ∈ args, isOption arg = true := by
    simp [List.filter_eq_nil_iff]
  constructor
  · intro h
    rcases takeAll_cases args with ⟨path, options, htake, hfound⟩ | ⟨e, htake, hfirst⟩
    · rw [parse_of_ok htake] at h
      cases path with
      | none =>
        cases h
        exact .inr ⟨hfound.clean, hoptions.mp hfound.path, rfl⟩
      | some path => contradiction
    · rw [parse_of_error htake] at h
      cases h
      exact .inl hfirst
  · rintro (hfirst | ⟨hclean, hall, rfl⟩)
    · obtain ⟨e, htake, rfl⟩ := hfirst.takeAll
      rw [parse_of_error htake]
      rfl
    · rcases parse_of_clean hclean with ⟨hparse, -⟩ | ⟨path, options, -, hfound⟩
      · rw [hparse]
        rfl
      · have hpath := hfound.path
        rw [hoptions.mpr hall] at hpath
        contradiction

/-! ## Arguments that change places -/

section
variable {args args' : List String} (hperm : args.Perm args')
include hperm

theorem Clean.perm (h : Clean args) : Clean args' := by
  intro before arg hfront text hoffends
  have hmem : arg ∈ args :=
    hperm.mem_iff.mpr (hfront.subset (List.mem_append_right _ (List.mem_singleton_self arg)))
  obtain ⟨earlier, later, rfl⟩ := List.append_of_mem hmem
  have hearlier : earlier ++ [arg] <+: earlier ++ arg :: later := ⟨later, by simp⟩
  cases hoffends with
  | limit harg hvalue => exact h earlier arg hearlier _ (.limit harg hvalue)
  | color harg hvalue => exact h earlier arg hearlier _ (.color harg hvalue)
  | unknown hoption hlimit hcolor => exact h earlier arg hearlier _ (.unknown hoption hlimit hcolor)
  | @extra path harg hbefore hpath =>
    -- there are two paths then, whichever comes first
    obtain ⟨found, options, -, hfound⟩ := h.takeAll
    have hpaths := (hperm.filter (!isOption ·)).length_eq
    have hsub := (hfront.sublist.filter (!isOption ·)).length_le
    have hfirst : path ∈ before.filter (!isOption ·) := by simp [hbefore, hpath]
    have hpos := List.length_pos_of_mem hfirst
    have hone : found.toList.length ≤ 1 := by cases found <;> simp
    rw [hfound.path] at hpaths
    rw [List.filter_append, List.length_append] at hsub
    simp only [harg, Bool.not_false, List.filter_cons_of_pos, List.length_cons] at hsub
    omega

theorem LastSays.perm {α : Type} {start : String} {Says : String → α → Prop} {default a : α}
    (h : LastSays start Says default args a) (honce : (args.filter (begins start)).length ≤ 1) :
    LastSays start Says default args' a := by
  have hfilter := hperm.filter (begins start)
  rw [LastSays] at h ⊢
  have hsame : args'.filter (begins start) = args.filter (begins start) := by
    match hone : args.filter (begins start), honce with
    | [], _ =>
      rw [hone] at hfilter
      exact hfilter.symm.eq_nil
    | [arg], _ =>
      rw [hone] at hfilter
      exact List.perm_singleton.mp hfilter.symm
  rwa [hsame]

theorem parse_perm (hclean : Clean args)
    (hlimit : (args.filter (begins "--max-depth=")).length ≤ 1)
    (hcolor : (args.filter (begins "--color=")).length ≤ 1) : parse args' = parse args := by
  have hpaths := hperm.filter (!isOption ·)
  rcases parse_of_clean hclean with ⟨hparse, hnone⟩ | ⟨path, options, hparse, hfound⟩
  · rw [hnone] at hpaths
    rcases parse_of_clean (hclean.perm hperm) with ⟨hparse', -⟩ | ⟨path', options', -, hfound'⟩
    · rw [hparse, hparse']
    · rw [hfound'.path] at hpaths
      exact absurd hpaths.nil_eq (by simp)
  · rw [hparse, parse_eq_ok_iff]
    rw [hfound.path] at hpaths
    exact ⟨hclean.perm hperm, List.perm_singleton.mp hpaths.symm,
      hfound.limit.perm hperm hlimit, hfound.color.perm hperm hcolor⟩

end

/-- What becomes of the arguments of a run. The message is that of the first argument that offends
behind those before it, or says that there is no path if none offends and all of them are options.
Otherwise the only path is returned, with the last value of each option or its default. So arguments
of which none offends can change places if each option is among them once at most. -/
theorem parse_arguments (args : List String) :
    (∀ text, (parse args).mapError RunArgsError.message = .error text ↔
      FirstOffence args text ∨
        (Clean args ∧ (∀ arg ∈ args, isOption arg = true) ∧ text = "missing file path")) ∧
    (∀ path options, parse args = .ok (path, options) ↔
      Clean args ∧ args.filter (!isOption ·) = [path] ∧
        LastSays "--max-depth=" SpellsLimit 10000 args options.limit ∧
        LastSays "--color=" SpellsColor .auto args options.color) ∧
    ∀ args', args.Perm args' → Clean args →
      (args.filter (begins "--max-depth=")).length ≤ 1 →
      (args.filter (begins "--color=")).length ≤ 1 → parse args' = parse args := by
  refine ⟨fun text => message_eq_iff, fun path options => parse_eq_ok_iff.trans ?_,
    fun args' hperm => parse_perm hperm⟩
  constructor
  · rintro ⟨hclean, hpath, hlimit, hcolor⟩
    exact ⟨hclean, hpath, hlimit, hcolor⟩
  · rintro ⟨hclean, hpath, hlimit, hcolor⟩
    exact ⟨hclean, hpath, hlimit, hcolor⟩

/-- Options before and behind a path, in two orders. A word that is no colour is refused before an
unknown option. -/
theorem parse_arguments_swapped :
    Clean ["--max-depth=+50", "main.lm", "--color=never"] ∧
    parse ["main.lm", "--color=never", "--max-depth=+50"] = .ok ("main.lm", ⟨50, .never⟩) ∧
    FirstOffence ["a.lm", "--color=pink", "--fast"] "invalid --color value 'pink'" := by
  obtain ⟨-, hfound, hswap⟩ := parse_arguments ["--max-depth=+50", "main.lm", "--color=never"]
  have hparse : parse ["--max-depth=+50", "main.lm", "--color=never"] =
      .ok ("main.lm", ⟨50, .never⟩) := by
    with_unfolding_all rfl
  have hclean := ((hfound _ _).mp hparse).1
  refine ⟨hclean, ?_, ?_⟩
  · refine (hswap _ ?_ hclean (by decide +kernel) (by decide +kernel)).trans hparse
    decide +kernel
  · obtain ⟨hmessage, -, -⟩ := parse_arguments ["a.lm", "--color=pink", "--fast"]
    have hrefused : (parse ["a.lm", "--color=pink", "--fast"]).mapError RunArgsError.message =
        .error "invalid --color value 'pink'" := by
      with_unfolding_all rfl
    rcases (hmessage _).mp hrefused with hfirst | ⟨-, -, htext⟩
    · exact hfirst
    · exact absurd htext (by decide +kernel)

end LambdaScript.RunArgs
