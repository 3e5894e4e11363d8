import Mailbox.CommandLine.Arguments
import Mailbox.Proofs.Results
set_option autoImplicit false

/-!
# Options wherever they stand

A reader of arguments looks at the options that were given before for one reason only, which is to
refuse them a second time.  Main statements: values, or the wish for a trace, that are put between
the arguments for running a program go to the command, and do nothing else to it.
-/

namespace Mailbox.Arguments

/-! ## One more option -/

namespace Given

/-- The arguments are others with one more option.  The place of the option does not matter. -/
structure Adds (given : Given) (name value : String) (more : Given) : Prop where
  others_eq : more.others = given.others
  value?_self : more.value? name = some value
  value?_of_ne : ∀ {other}, other ≠ name → more.value? other = given.value? other

theorem value?_cons (given : Given) (name value other : String) :
    ({ given with options := (name, value) :: given.options } : Given).value? other =
      if other = name then some value else given.value? other := by
  rw [value?, List.lookup_cons]
  by_cases h : other = name
  · rw [if_pos h, h, beq_self_eq_true]
  · rw [if_neg h, beq_false_of_ne h]
    rfl

theorem adds_cons (given : Given) (name value : String) :
    given.Adds name value { given with options := (name, value) :: given.options } where
  others_eq := rfl
  value?_self := by rw [value?_cons, if_pos rfl]
  value?_of_ne h := by rw [value?_cons, if_neg h]

variable {given after : Given} {o : OptionName} {value : String}

/-- An option is added if it is the first of its name and its value is of its kind. -/
theorem addOption_eq_ok_iff :
    given.addOption o value = .ok after ↔
      given.value? o.long = none ∧
        (o.kind = .count → (Text.readCount? value.toList).isSome) ∧
          { given with options := (o.long, value) :: given.options } = after := by
  unfold addOption value?
  cases given.options.lookup o.long with
  | some earlier => simp
  | none =>
    by_cases hkind : o.kind = .count
    · cases Text.readCount? value.toList <;> simp [hkind]
    · simp [hkind]

theorem addOption_error {stop : ArgumentStop} (h : given.addOption o value = .error stop) :
    stop = .usage := by
  unfold addOption at h
  split at h
  · cases h; rfl
  · split at h
    · cases h; rfl
    · cases h

theorem addOther_error {kind : OtherKind} {arg : String} {stop : ArgumentStop}
    (h : given.addOther kind arg = .error stop) : stop = .usage := by
  unfold addOther at h
  cases kind with
  | texts => cases h
  | paths most =>
    simp only at h
    split at h
    · cases h; rfl
    · cases h

variable {name : String}

/-- An option is added whatever other options there are. -/
theorem addOption_adds (h : given.addOption o value = .ok after) (hname : after.value? name = none) :
    given.value? name = none ∧ ∀ {earlier more}, given.Adds name earlier more →
      ∃ final, more.addOption o value = .ok final ∧ after.Adds name earlier final := by
  obtain ⟨hnew, hkind, rfl⟩ := addOption_eq_ok_iff.1 h
  rw [value?_cons] at hname
  split at hname
  · cases hname
  · rename_i hne
    refine ⟨hname, fun {earlier more} hmore => ?_⟩
    have hother := hmore.value?_of_ne (Ne.symm hne : o.long ≠ name)
    refine ⟨_, addOption_eq_ok_iff.2 ⟨hother.trans hnew, hkind, rfl⟩, hmore.others_eq, ?_, ?_⟩
    · rw [value?_cons, if_neg hne, hmore.value?_self]
    · intro other hn
      rw [value?_cons, value?_cons, hmore.value?_of_ne hn]

/-- Adding an argument that is no option does not touch the options. -/
theorem addOther_eq_ok {kind : OtherKind} {arg : String} (h : given.addOther kind arg = .ok after) :
    after = { given with others := given.others.push arg } := by
  unfold addOther at h
  cases kind with
  | texts => cases h; rfl
  | paths most =>
    simp only at h
    split at h
    · cases h
    · cases h; rfl

theorem addOther_adds {kind : OtherKind} {arg : String} (h : given.addOther kind arg = .ok after)
    (hname : after.value? name = none) :
    given.value? name = none ∧ ∀ {earlier more}, given.Adds name earlier more →
      ∃ final, more.addOther kind arg = .ok final ∧ after.Adds name earlier final := by
  obtain rfl := addOther_eq_ok h
  refine ⟨hname, fun {earlier more} hmore => ⟨{ more with others := more.others.push arg }, ?_, ?_⟩⟩
  · unfold addOther at h ⊢
    rw [hmore.others_eq]
    cases kind with
    | texts => rfl
    | paths most =>
      simp only at h ⊢
      split at h
      · cases h
      · rename_i hroom
        exact if_neg hroom
  · exact ⟨by rw [hmore.others_eq], hmore.value?_self, hmore.value?_of_ne⟩

end Given

/-! ## Orderly readers -/

/-- A reader of arguments is orderly if it stops for wrong usage or for help only, and one more
option makes no difference unless it is given again. -/
structure Orderly {α : Type} (r : Given → Except ArgumentStop (Given × α)) : Prop where
  stops : ∀ {given stop}, r given = .error stop → stop = .usage ∨ stop = .command .help
  reads : ∀ {given after x name}, r given = .ok (after, x) → after.value? name = none →
    given.value? name = none ∧ ∀ {value more}, given.Adds name value more →
      ∃ final, r more = .ok (final, x) ∧ after.Adds name value final

namespace Orderly

variable {α β : Type}

theorem ok (x : α) : Orderly fun given => .ok (given, x) where
  stops h := by cases h
  reads h hname := by
    cases h
    exact ⟨hname, fun hmore => ⟨_, rfl, hmore⟩⟩

theorem error {stop : ArgumentStop} (h : stop = .usage ∨ stop = .command .help) :
    Orderly (α := α) fun _ => .error stop where
  stops hstop := by
    cases hstop
    exact h
  reads h := by cases h

theorem congr {r r' : Given → Except ArgumentStop (Given × α)} (hr : Orderly r)
    (h : ∀ given, r' given = r given) : Orderly r' := by
  rwa [funext h]

theorem bind {r : Given → Except ArgumentStop (Given × α)}
    {k : α → Given → Except ArgumentStop (Given × β)} (hr : Orderly r) (hk : ∀ x, Orderly (k x)) :
    Orderly fun given => r given >>= fun p => k p.2 p.1 where
  stops {given stop} h := by
    cases hp : r given with
    | error fault =>
      rw [hp] at h
      cases h
      exact hr.stops hp
    | ok p =>
      rw [hp] at h
      exact (hk p.2).stops h
  reads {given after x name} h hname := by
    cases hp : r given with
    | error fault => rw [hp] at h; cases h
    | ok p =>
      rw [hp] at h
      -- What is missing in the end was missing all the time, so both readers can be asked.
      obtain ⟨hmiddle, hrest⟩ := (hk p.2).reads h hname
      obtain ⟨hgiven, hfirst⟩ := hr.reads hp hmiddle
      refine ⟨hgiven, fun hmore => ?_⟩
      obtain ⟨next, hnext, hadds⟩ := hfirst hmore
      obtain ⟨final, hfinal, hadds⟩ := hrest hadds
      exact ⟨final, by rw [hnext]; exact hfinal, hadds⟩

/-- A reader that hands nothing back, together with something. -/
theorem map {f : Given → Except ArgumentStop Given}
    (stops : ∀ {given stop}, f given = .error stop → stop = .usage)
    (reads : ∀ {given after name}, f given = .ok after → after.value? name = none →
      given.value? name = none ∧ ∀ {value more}, given.Adds name value more →
        ∃ final, f more = .ok final ∧ after.Adds name value final) (x : α) :
    Orderly fun given => (f given).map (·, x) where
  stops {given stop} h := by
    cases hf : f given with
    | error fault =>
      rw [hf] at h
      cases h
      exact Or.inl (stops hf)
    | ok next => rw [hf] at h; cases h
  reads {given after y name} h hname := by
    cases hf : f given with
    | error fault => rw [hf] at h; cases h
    | ok next =>
      rw [hf] at h
      cases h
      obtain ⟨hgiven, hmore⟩ := reads hf hname
      refine ⟨hgiven, fun hadds => ?_⟩
      obtain ⟨final, hfinal, hadds⟩ := hmore hadds
      exact ⟨final, by rw [hfinal]; rfl, hadds⟩

theorem addOption (o : OptionName) (value : String) (x : α) :
    Orderly fun given => (given.addOption o value).map (·, x) :=
  map Given.addOption_error Given.addOption_adds x

theorem addOther (kind : OtherKind) (arg : String) (x : α) :
    Orderly fun given => (given.addOther kind arg).map (·, x) :=
  map Given.addOther_error Given.addOther_adds x

end Orderly

/-! ## The readers -/

variable (form : Form)

theorem readLetters_orderly (cs : List Char) : Orderly fun given => readLetters form given cs := by
  induction cs with
  | nil => exact .ok none
  | cons c cs ih =>
    unfold readLetters
    split
    · exact .error (.inr rfl)
    · split
      · exact .error (.inl rfl)
      · rename_i o _
        split
        · split
          · exact .ok (some o)
          · exact .addOption o _ none
          · exact .addOption o _ none
        · refine (Orderly.bind (.addOption o "" ()) fun _ => ih).congr fun given => ?_
          cases given.addOption o "" <;> rfl

theorem readLong_orderly (text : List Char) : Orderly fun given => readLong form given text := by
  unfold readLong
  cases text.dropWhile (· != '=') with
  | nil =>
    dsimp only
    split
    · exact .error (.inr rfl)
    · cases form.options.find? (·.long == String.ofList (text.takeWhile (· != '='))) with
      | none => exact .error (.inl rfl)
      | some o =>
        dsimp only
        split
        · exact .ok (some o)
        · exact .addOption o "" none
  | cons _ value =>
    dsimp only
    split
    · exact .error (.inr rfl)
    · cases form.options.find? (·.long == String.ofList (text.takeWhile (· != '='))) with
      | none => exact .error (.inl rfl)
      | some o =>
        dsimp only
        split
        · exact .addOption o _ none
        · exact .error (.inl rfl)

theorem readOne_orderly (arg : String) : Orderly fun given => readOne form given arg := by
  unfold readOne
  split
  · exact readLong_orderly form _
  · exact readLetters_orderly form _
  · exact .addOther form.others arg none

theorem addOthers_orderly (kind : OtherKind) (args : List String) :
    Orderly fun given => (args.foldlM (Given.addOther · kind ·) given).map (·, ()) := by
  induction args with
  | nil => exact .ok ()
  | cons arg args ih =>
    refine (Orderly.bind (.addOther kind arg ()) fun _ => ih).congr fun given => ?_
    rw [List.foldlM_cons]
    cases given.addOther kind arg <;> rfl

/-- Reads what stands behind an argument, which may still lack its value. -/
def readBehind (given : Given) :
    (waiting : Option OptionName) → List String → Except ArgumentStop (Given × Unit)
  | none, args => (read form given args).map (·, ())
  | some _, [] => .error .usage
  | some o, value :: args =>
    if isOption value then .error .usage
    else (given.addOption o value).map (·, ()) >>= fun p => (read form p.1 args).map (·, ())

theorem read_cons {arg : String} (h : arg ≠ "--") (args : List String) (given : Given) :
    (read form given (arg :: args)).map (·, ()) =
      readOne form given arg >>= fun p => readBehind form p.1 p.2 args := by
  rw [read, if_neg (by simpa using h)]
  cases readOne form given arg with
  | error stop => rfl
  | ok p =>
    obtain ⟨next, waiting⟩ := p
    cases waiting with
    | none => rfl
    | some o =>
      cases args with
      | nil => rfl
      | cons value args =>
        show _ = readBehind form next (some o) (value :: args)
        simp only [readBehind]
        cases isOption value with
        | true => rfl
        | false => cases next.addOption o value <;> rfl

theorem read_orderly : ∀ args : List String, Orderly fun given => (read form given args).map (·, ())
  | [] => .ok ()
  | arg :: args => by
    -- The recursion goes on behind the argument, or behind the value that it waits for.
    by_cases hdashes : arg = "--"
    · simp only [read, hdashes, beq_self_eq_true, if_true]
      exact addOthers_orderly form.others args
    · have hbehind : ∀ waiting, Orderly fun given => readBehind form given waiting args := by
        intro waiting
        cases waiting with
        | none => exact read_orderly args
        | some o =>
          cases args with
          | nil => exact .error (.inl rfl)
          | cons value args =>
            simp only [readBehind]
            by_cases hvalue : isOption value
            · simp only [if_pos hvalue]
              exact .error (.inl rfl)
            · simp only [if_neg hvalue]
              exact .bind (.addOption o value ()) fun _ => read_orderly args
      exact (Orderly.bind (readOne_orderly form arg) hbehind).congr (read_cons form hdashes args)

variable {form : Form} {given after : Given} {args : List String}

theorem map_pair_eq_ok_iff {α : Type} {x y : α} {e : Except ArgumentStop Given} :
    e.map (·, x) = .ok (after, y) ↔ e = .ok after ∧ x = y := by
  cases e <;> simp [Except.map]

theorem read_stops {stop : ArgumentStop} (h : read form given args = .error stop) :
    stop = .usage ∨ stop = .command .help := by
  have hmap : (read form given args).map (·, ()) = .error stop := by
    rw [h]
    rfl
  exact (read_orderly form args).stops hmap

/-- One more option changes nothing about the arguments that are read, unless they have it too. -/
theorem read_adds {name : String} (h : read form given args = .ok after)
    (hname : after.value? name = none) :
    given.value? name = none ∧ ∀ {value more}, given.Adds name value more →
      ∃ final, read form more args = .ok final ∧ after.Adds name value final := by
  obtain ⟨hgiven, hmore⟩ := (read_orderly form args).reads (map_pair_eq_ok_iff.2 ⟨h, rfl⟩) hname
  refine ⟨hgiven, fun hadds => ?_⟩
  obtain ⟨final, hfinal, hadds⟩ := hmore hadds
  exact ⟨final, (map_pair_eq_ok_iff.1 hfinal).1, hadds⟩

/-! ## What goes on to hold -/

/-- Something about the arguments that goes on to hold when one more is read, be it an option of the
command or not. -/
structure Kept (form : Form) (P : Given → Prop) : Prop where
  addOption : ∀ {given after o value}, o ∈ form.options → given.addOption o value = .ok after →
    P given → P after
  addOther : ∀ {given after arg}, given.addOther form.others arg = .ok after → P given → P after

namespace Kept

variable {P : Given → Prop} {o : OptionName} {waiting : Option OptionName}

/-- What an option that is added to the arguments keeps. -/
theorem of_addOption (h : Kept form P) (ho : o ∈ form.options) {value : String}
    (hread : (given.addOption o value).map (·, none) = .ok (after, waiting)) (hgiven : P given) :
    P after ∧ ∀ o ∈ waiting, o ∈ form.options := by
  obtain ⟨hadd, rfl⟩ := map_pair_eq_ok_iff.1 hread
  exact ⟨h.addOption ho hadd hgiven, nofun⟩

/-- What an option that is handed back keeps. -/
theorem of_waiting (ho : o ∈ form.options)
    (hread : (Except.ok (given, some o) : Except ArgumentStop _) = .ok (after, waiting))
    (hgiven : P given) : P after ∧ ∀ o ∈ waiting, o ∈ form.options := by
  cases hread
  exact ⟨hgiven, fun _ heq => Option.some.inj heq ▸ ho⟩

theorem readLetters (h : Kept form P) {cs : List Char}
    (hread : readLetters form given cs = .ok (after, waiting)) (hgiven : P given) :
    P after ∧ ∀ o ∈ waiting, o ∈ form.options := by
  induction cs generalizing given with
  | nil =>
    cases hread
    exact ⟨hgiven, nofun⟩
  | cons c cs ih =>
    unfold Arguments.readLetters at hread
    split at hread
    · cases hread
    · split at hread
      · cases hread
      · rename_i o hfind
        have ho := List.mem_of_find?_eq_some hfind
        split at hread
        · split at hread
          · exact of_waiting ho hread hgiven
          · exact h.of_addOption ho hread hgiven
          · exact h.of_addOption ho hread hgiven
        · split at hread
          · rename_i next hadd
            exact ih hread (h.addOption ho hadd hgiven)
          · cases hread

theorem readLong (h : Kept form P) {text : List Char}
    (hread : readLong form given text = .ok (after, waiting)) (hgiven : P given) :
    P after ∧ ∀ o ∈ waiting, o ∈ form.options := by
  unfold Arguments.readLong at hread
  cases hvalue : text.dropWhile (· != '=') with
  | nil =>
    simp only [hvalue] at hread
    split at hread
    · cases hread
    · split at hread
      · cases hread
      · rename_i o _ hfind _
        have ho := List.mem_of_find?_eq_some hfind
        split at hread
        · exact of_waiting ho hread hgiven
        · exact h.of_addOption ho hread hgiven
      · rename_i heq
        cases heq
  | cons _ value =>
    simp only [hvalue] at hread
    split at hread
    · cases hread
    · split at hread
      · cases hread
      · rename_i heq
        cases heq
      · rename_i o _ hfind heq
        have ho := List.mem_of_find?_eq_some hfind
        split at hread
        · exact h.of_addOption ho hread hgiven
        · cases hread

theorem readOne (h : Kept form P) {arg : String}
    (hread : readOne form given arg = .ok (after, waiting)) (hgiven : P given) :
    P after ∧ ∀ o ∈ waiting, o ∈ form.options := by
  unfold Arguments.readOne at hread
  split at hread
  · exact h.readLong hread hgiven
  · exact h.readLetters hread hgiven
  · obtain ⟨hadd, rfl⟩ := map_pair_eq_ok_iff.1 hread
    exact ⟨h.addOther hadd hgiven, nofun⟩

theorem addOthers (h : Kept form P)
    (hread : args.foldlM (·.addOther form.others ·) given = .ok after) (hgiven : P given) :
    P after := by
  induction args generalizing given with
  | nil =>
    cases hread
    exact hgiven
  | cons arg args ih =>
    rw [List.foldlM_cons] at hread
    obtain ⟨next, hadd, hrest⟩ := except_bind_eq_ok.1 hread
    exact ih hrest (h.addOther hadd hgiven)

/-- What goes on to hold with each argument holds when all are read. -/
theorem read (h : Kept form P) (hread : read form given args = .ok after) (hgiven : P given) :
    P after := by
  fun_induction Arguments.read form given args with
  | case1 given =>
    cases hread
    exact hgiven
  | case2 given arg args hend => exact h.addOthers hread hgiven
  | case3 given arg args hend stop hone => cases hread
  | case4 given arg args hend next hone ih => exact ih hread (h.readOne hone hgiven).1
  | case5 given arg hend next o hone => cases hread
  | case6 given arg hend next o hone value args hvalue => cases hread
  | case7 given arg hend next o hone value args hvalue stop hadd => cases hread
  | case8 given arg hend next o hone value args hvalue last hadd ih =>
    obtain ⟨hnext, ho⟩ := h.readOne hone hgiven
    exact ih hread (h.addOption (ho o rfl) hadd hnext)

end Kept

/-! ## An option between other arguments -/

variable {front rest : List String}

/-- A long name with a value behind an equals sign gives the value to the option of that name. -/
theorem readOne_long {o : OptionName} (hname : '=' ∉ o.long.toList)
    (hfind : form.options.find? (·.long == o.long) = some o) (hvalue : o.hasValue)
    (given : Given) (value : String) :
    readOne form given ("--" ++ o.long ++ "=" ++ value) =
      (given.addOption o value).map (·, none) := by
  have harg : ("--" ++ o.long ++ "=" ++ value).toList =
      '-' :: '-' :: (o.long.toList ++ '=' :: value.toList) := by
    simp
  have hkeep : ∀ c ∈ o.long.toList, (c != '=') = true := fun c hc =>
    bne_iff_ne.2 fun heq => hname (heq ▸ hc)
  have htake : (o.long.toList ++ '=' :: value.toList).takeWhile (· != '=') = o.long.toList := by
    rw [List.takeWhile_append_of_pos hkeep]
    simp
  have hdrop : (o.long.toList ++ '=' :: value.toList).dropWhile (· != '=') =
      '=' :: value.toList := by
    rw [List.dropWhile_append_of_pos hkeep]
    simp
  simp only [readOne, harg, readLong, htake, hdrop, String.ofList_toList, hfind, hvalue, if_true,
    Option.isNone_some, Bool.and_false, Bool.false_eq_true, if_false]

/-- A long name alone gives an option without a value. -/
theorem readOne_flag {o : OptionName} (hname : '=' ∉ o.long.toList) (hhelp : o.long ≠ "help")
    (hfind : form.options.find? (·.long == o.long) = some o) (hvalue : o.hasValue = false)
    (given : Given) :
    readOne form given ("--" ++ o.long) = (given.addOption o "").map (·, none) := by
  have harg : ("--" ++ o.long).toList = '-' :: '-' :: o.long.toList := by simp
  have hkeep : ∀ c ∈ o.long.toList, (c != '=') = true := fun c hc =>
    bne_iff_ne.2 fun heq => hname (heq ▸ hc)
  have htake : (o.long.toList ++ []).takeWhile (· != '=') = o.long.toList ++ [] :=
    List.takeWhile_append_of_pos hkeep
  have hdrop : (o.long.toList ++ []).dropWhile (· != '=') = [] :=
    List.dropWhile_append_of_pos hkeep
  rw [List.append_nil] at htake hdrop
  simp only [readOne, harg, readLong, htake, hdrop, String.ofList_toList, hfind, hvalue,
    beq_false_of_ne hhelp, Bool.false_and, Bool.false_eq_true, if_false]

/-- An argument that is no option is one of the others. -/
theorem readOne_of_not_isOption {arg : String} (h : isOption arg = false) (given : Given) :
    readOne form given arg = (given.addOther form.others arg).map (·, none) := by
  unfold isOption at h
  unfold readOne
  split
  · rename_i heq
    rw [heq] at h
    cases h
  · rename_i heq
    rw [heq] at h
    cases h
  · rfl

theorem readOne_letters {arg : String} {c : Char} {cs : List Char}
    (harg : arg.toList = '-' :: c :: cs) (hc : c ≠ '-') (given : Given) :
    readOne form given arg = readLetters form given (c :: cs) := by
  rw [readOne, harg]
  split
  · rename_i heq
    exact absurd (List.cons.inj (List.cons.inj heq).2).1 hc
  · rename_i heq
    rw [← (List.cons.inj heq).2]
  · rename_i hother
    exact absurd rfl (hother c cs)

/-- A letter whose option has no value gives the option, and the letters behind it are read next. -/
theorem readLetters_flag {o : OptionName} (hhelp : o.short ≠ 'h')
    (hfind : form.options.find? (·.short == o.short) = some o) (hvalue : o.hasValue = false)
    (cs : List Char) (given : Given) :
    readLetters form given (o.short :: cs) =
      given.addOption o "" >>= fun next => readLetters form next cs := by
  rw [readLetters, if_neg hhelp, hfind]
  simp only [hvalue, Bool.false_eq_true, if_false]
  cases given.addOption o "" <;> rfl

/-- A letter with a value behind it, after an equals sign or not, gives the value to the option of
that letter. -/
theorem readLetters_value {o : OptionName} (hhelp : o.short ≠ 'h')
    (hfind : form.options.find? (·.short == o.short) = some o) (hvalue : o.hasValue)
    {cs value : List Char}
    (hcs : cs = '=' :: value ∨ cs = value ∧ value ≠ [] ∧ value.head? ≠ some '=')
    (given : Given) :
    readLetters form given (o.short :: cs) =
      (given.addOption o (String.ofList value)).map (·, none) := by
  rw [readLetters, if_neg hhelp, hfind]
  simp only [hvalue, if_true]
  rcases hcs with rfl | ⟨rfl, hne, hhead⟩
  · rfl
  · split
    · exact absurd rfl hne
    · exact absurd rfl hhead
    · rfl

/-- Arguments that are read by themselves are read in front of others, unless they end the
options. -/
theorem read_append (hdashes : "--" ∉ front) (h : read form given front = .ok after)
    (rest : List String) : read form given (front ++ rest) = read form after rest := by
  fun_induction read form given front with
  | case1 given => cases h; rfl
  | case2 given arg args hend =>
    obtain rfl : arg = "--" := by simpa using hend
    exact absurd List.mem_cons_self hdashes
  | case3 given arg args hend stop hone => cases h
  | case4 given arg args hend next hone ih =>
    rw [List.cons_append, read, if_neg hend, hone]
    exact ih (fun hmem => hdashes (List.mem_cons_of_mem _ hmem)) h
  | case5 given arg hend next o hone => cases h
  | case6 given arg hend next o hone value args hvalue => cases h
  | case7 given arg hend next o hone value args hvalue stop hadd => cases h
  | case8 given arg hend next o hone value args hvalue last hadd ih =>
    rw [List.cons_append, read, if_neg hend, hone]
    simp only [List.cons_append, hvalue, hadd]
    exact ih (fun hmem => hdashes (List.mem_cons_of_mem _ (List.mem_cons_of_mem _ hmem))) h

/-- Arguments that give an option a value, wherever they stand before the options end. -/
def Gives (form : Form) (flag : List String) (o : OptionName) (value : String) : Prop :=
  ∀ given rest,
    read form given (flag ++ rest) = given.addOption o value >>= fun next => read form next rest

/-- A single argument gives an option its value if that is what it is read as. -/
theorem gives_of_readOne {arg : String} {o : OptionName} {value : String} (harg : arg ≠ "--")
    (hone : ∀ given, readOne form given arg = (given.addOption o value).map (·, none)) :
    Gives form [arg] o value := by
  intro given rest
  rw [List.singleton_append, read, if_neg (by simpa using harg), hone]
  cases given.addOption o value <;> rfl

/-- An argument that waits for the value of an option gives it the next argument, unless that is an
option itself. -/
theorem gives_of_waiting {arg : String} {o : OptionName} {value : String} (harg : arg ≠ "--")
    (hone : ∀ given, readOne form given arg = .ok (given, some o))
    (hvalue : isOption value = false) : Gives form [arg, value] o value := by
  intro given rest
  rw [List.cons_append, List.singleton_append, read, if_neg (by simpa using harg), hone]
  simp only [hvalue]
  cases given.addOption o value <;> rfl

/-- An option that is given once may stand anywhere between the other arguments. -/
theorem read_option {flag : List String} {o : OptionName} {value : String} {final : Given}
    (hgives : Gives form flag o value)
    (hkind : o.kind = .count → (Text.readCount? value.toList).isSome) (hdashes : "--" ∉ front)
    (hfront : read form .empty front = .ok given)
    (h : read form .empty (front ++ rest) = .ok final) (hname : final.value? o.long = none) :
    ∃ more, read form .empty (front ++ (flag ++ rest)) = .ok more ∧
      final.Adds o.long value more := by
  rw [read_append hdashes hfront] at h ⊢
  obtain ⟨hnew, hmore⟩ := read_adds h hname
  obtain ⟨more, hread, hadds⟩ := hmore (given.adds_cons o.long value)
  refine ⟨more, ?_, hadds⟩
  rw [hgives, Given.addOption_eq_ok_iff.2 ⟨hnew, hkind, rfl⟩]
  exact hread

/-! ## Running with an option -/

/-- How a program is to be run, by the options that are given. -/
def Given.runOptions (given : Given) : RunOptions where
  input := given.value? "input"
  minimal := (given.value? "minimal").isSome
  tracing := (given.value? "trace").isSome
  limit := (given.value? "limit").bind (Text.readCount? ·.toList)

theorem ofArguments?_run {args : List String} {path : String} {options : RunOptions} :
    Command.ofArguments? ("run" :: args) = some (.run path options) ↔
      ∃ given, read runForm .empty args = .ok given ∧ given.others.toList = [path] ∧
        given.runOptions = options := by
  have hrun : readAll none ("run" :: args) = readRun args := rfl
  rw [Command.ofArguments?, hrun, readRun]
  cases hread : read runForm .empty args with
  | error stop => rcases read_stops hread with rfl | rfl <;> simp [bind, Except.bind]
  | ok given =>
    cases hothers : given.others.toList with
    | nil => simp [bind, Except.bind, hothers]
    | cons other others =>
      cases others with
      | nil => simp [bind, Except.bind, hothers, Given.runOptions, pure, Except.pure]
      | cons another others => simp [bind, Except.bind, hothers]

/-- An option that is put between the arguments for running a program is added to them, and nothing
else changes. -/
theorem ofArguments?_run_option {flag : List String} {o : OptionName} {value path : String}
    {options : RunOptions} (hgives : Gives runForm flag o value)
    (hkind : o.kind = .count → (Text.readCount? value.toList).isSome) (hdashes : "--" ∉ front)
    (hfront : read runForm .empty front = .ok given)
    (h : Command.ofArguments? ("run" :: (front ++ rest)) = some (.run path options))
    (hnone : ∀ final, read runForm .empty (front ++ rest) = .ok final →
      final.runOptions = options → final.value? o.long = none) :
    ∃ final more : Given, final.runOptions = options ∧ final.Adds o.long value more ∧
      Command.ofArguments? ("run" :: (front ++ (flag ++ rest))) =
        some (.run path more.runOptions) := by
  obtain ⟨final, hread, hothers, hfinal⟩ := ofArguments?_run.1 h
  obtain ⟨more, hmore, hadds⟩ :=
    read_option hgives hkind hdashes hfront hread (hnone final hread hfinal)
  exact ⟨final, more, hfinal, hadds,
    ofArguments?_run.2 ⟨more, hmore, by rw [hadds.others_eq, hothers], rfl⟩⟩

/-- Values for a program, among the options for running it. -/
def inputOption : OptionName := ⟨"input", 'i', .text⟩

theorem runOptions_of_adds_input {more : Given} {value : String}
    (h : given.Adds "input" value more) :
    more.runOptions = { given.runOptions with input := some value } := by
  simp only [Given.runOptions, h.value?_self]
  rw [h.value?_of_ne (by decide), h.value?_of_ne (by decide), h.value?_of_ne (by decide)]

/-- Values that are put between the arguments for running a program are its values, and nothing
else changes. -/
theorem ofArguments?_run_input {path : String} {options : RunOptions} (hdashes : "--" ∉ front)
    (hfront : read runForm .empty front = .ok given)
    (h : Command.ofArguments? ("run" :: (front ++ rest)) = some (.run path options))
    (hnone : options.input = none) (value : String) :
    Command.ofArguments? ("run" :: (front ++ ("--input=" ++ value) :: rest)) =
      some (.run path { options with input := some value }) := by
  have harg : "--input=" ++ value ≠ "--" := by
    intro heq
    have hlist := congrArg String.toList heq
    simp at hlist
  have hone : ∀ given, readOne runForm given ("--input=" ++ value) =
      (given.addOption inputOption value).map (·, none) := fun given =>
    readOne_long (o := inputOption) (by decide) rfl rfl given value
  obtain ⟨final, more, rfl, hadds, hread⟩ := ofArguments?_run_option (gives_of_readOne harg hone)
    (fun hkind => by cases hkind) hdashes hfront h fun final _ hfinal => by rwa [← hfinal] at hnone
  rw [List.singleton_append] at hread
  rw [hread, runOptions_of_adds_input hadds]

/-- The option to keep a trace, among those for running a program. -/
def traceOption : OptionName := ⟨"trace", 't', .none⟩

theorem runOptions_of_adds_trace {more : Given} {value : String}
    (h : given.Adds "trace" value more) :
    more.runOptions = { given.runOptions with tracing := true } := by
  simp only [Given.runOptions, h.value?_self]
  rw [h.value?_of_ne (by decide), h.value?_of_ne (by decide), h.value?_of_ne (by decide)]
  rfl

/-- The ways to ask for a trace on the command line. -/
def traceFlags : List (List String) := [["--trace"], ["-t"]]

theorem gives_of_mem_traceFlags {flag : List String} (h : flag ∈ traceFlags) :
    Gives runForm flag traceOption "" := by
  simp only [traceFlags, List.mem_cons, List.not_mem_nil, or_false] at h
  rcases h with rfl | rfl
  · exact gives_of_readOne (by decide) fun given =>
      readOne_flag (o := traceOption) (by decide) (by decide) rfl rfl given
  · refine gives_of_readOne (by decide) fun given => ?_
    have hletters : readLetters runForm given ['t'] =
        given.addOption traceOption "" >>= fun next => readLetters runForm next [] :=
      readLetters_flag (o := traceOption) (by decide) rfl rfl [] given
    have harg : "-t".toList = ['-', 't'] := by decide
    rw [readOne_letters harg (by decide), hletters]
    cases given.addOption traceOption "" <;> rfl

/-- The option to keep a trace asks for one wherever it stands between the arguments for running a
program, and nothing else changes. -/
theorem ofArguments?_run_traceFlag {flag : List String} {path : String} {options : RunOptions}
    (hflag : flag ∈ traceFlags) (hdashes : "--" ∉ front)
    (hfront : read runForm .empty front = .ok given)
    (h : Command.ofArguments? ("run" :: (front ++ rest)) = some (.run path options))
    (hnone : options.tracing = false) :
    Command.ofArguments? ("run" :: (front ++ (flag ++ rest))) =
      some (.run path { options with tracing := true }) := by
  obtain ⟨final, more, rfl, hadds, hread⟩ :=
    ofArguments?_run_option (gives_of_mem_traceFlags hflag) (fun hkind => by cases hkind) hdashes
      hfront h fun final _ hfinal => by
        rw [← hfinal] at hnone
        exact Option.isNone_iff_eq_none.1 (Option.isSome_eq_false_iff.1 hnone)
  rw [hread, runOptions_of_adds_trace hadds]

/-- The long name of the option is one of the ways. -/
theorem ofArguments?_run_trace {path : String} {options : RunOptions} (hdashes : "--" ∉ front)
    (hfront : read runForm .empty front = .ok given)
    (h : Command.ofArguments? ("run" :: (front ++ rest)) = some (.run path options))
    (hnone : options.tracing = false) :
    Command.ofArguments? ("run" :: (front ++ "--trace" :: rest)) =
      some (.run path { options with tracing := true }) :=
  have hflag : ["--trace"] ∈ traceFlags := List.mem_cons_self
  ofArguments?_run_traceFlag hflag hdashes hfront h hnone

end Mailbox.Arguments
