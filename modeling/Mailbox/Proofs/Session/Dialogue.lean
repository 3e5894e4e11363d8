import Mathlib.Data.List.Basic
import Mailbox.Proofs.Session.Accounting
import Mailbox.Session.Terminal
set_option autoImplicit false

/-!
# Runs at a terminal

What is typed at a terminal is given to the program or complained about.  Main statement: a run at
a terminal is the run of a session that has had the values given there from the start, all that was
typed is accounted for, and no run fails for a line that is no number.

Normative source: SPEC_FULL.md, section A6.8.
-/

namespace Mailbox

/-! ## What a terminal gives -/

namespace Terminal

variable {t u v : Terminal}

/-- There is a complaint about each text that does not answer for a number. -/
theorem complaint?_eq_none_iff {line : Supply} :
    complaint? line = none ↔
      line = .undecodable ∨ ∃ value, line.Answers .awaitingNumber value := by
  cases line with
  | undecodable => simp [complaint?, Input.number]
  | text s =>
    simp only [complaint?, ← Supply.number_eq_ok_iff, Input.number]
    cases Text.readWord (Text.trimList s.toList) <;> simp

/-- A value that a terminal gives for a status: a line that is not complained about, or the
character of a key. -/
inductive Gives : Status → Supply → Prop
  | number {line : Supply} : complaint? line = none → Gives .awaitingNumber line
  | char (c : Char) : Gives .awaitingChar (.text (String.singleton c))

/-- What a terminal did between two moments: the lines typed and the keys pressed in between were
to come before, the values given are the lines without a complaint and the characters of keys, each
in order, and the other lines were complained about. -/
structure Accounts (t u : Terminal) (typed : List Supply) (pressed : List Key)
    (values : List Supply) : Prop where
  lines : t.lines = typed ++ u.lines
  keys : t.keys = pressed ++ u.keys
  keyFault : u.keyFault = t.keyFault
  given : u.given = t.given ++ values
  complaints : u.complaints = t.complaints ++ typed.filterMap complaint?
  givesLines : (typed.filter fun line => (complaint? line).isNone).Sublist values
  givesKeys : (pressed.filterMap Key.supply?).Sublist values
  givesNoMore : values.length = (typed.filter fun line => (complaint? line).isNone).length +
    (pressed.filterMap Key.supply?).length

namespace Accounts

variable {typed typed' : List Supply} {pressed pressed' : List Key} {values values' : List Supply}

theorem refl (t : Terminal) : t.Accounts t [] [] [] where
  lines := rfl
  keys := rfl
  keyFault := rfl
  given := (List.append_nil _).symm
  complaints := (List.append_nil _).symm
  givesLines := List.Sublist.refl _
  givesKeys := List.Sublist.refl _
  givesNoMore := rfl

theorem trans (h : t.Accounts u typed pressed values)
    (h' : u.Accounts v typed' pressed' values') :
    t.Accounts v (typed ++ typed') (pressed ++ pressed') (values ++ values') where
  lines := by rw [h.lines, h'.lines, List.append_assoc]
  keys := by rw [h.keys, h'.keys, List.append_assoc]
  keyFault := h'.keyFault.trans h.keyFault
  given := by rw [h'.given, h.given, List.append_assoc]
  complaints := by rw [h'.complaints, h.complaints, List.filterMap_append, List.append_assoc]
  givesLines := by
    rw [List.filter_append]
    exact h.givesLines.append h'.givesLines
  givesKeys := by
    rw [List.filterMap_append]
    exact h.givesKeys.append h'.givesKeys
  givesNoMore := by
    have hfirst := h.givesNoMore
    have hsecond := h'.givesNoMore
    simp only [List.filter_append, List.filterMap_append, List.length_append]
    omega

end Accounts

/-- A list has a first entry without a property, or all of its entries have it. -/
theorem takeWhile_cases {α : Type} (p : α → Bool) (xs : List α) :
    ((∀ x ∈ xs, p x = true) ∧ xs.takeWhile p = xs ∧ xs.dropWhile p = []) ∨
      ∃ before x after, xs = before ++ x :: after ∧ (∀ y ∈ before, p y = true) ∧ p x = false ∧
        xs.takeWhile p = before ∧ xs.dropWhile p = x :: after := by
  have happend : xs.takeWhile p ++ xs.dropWhile p = xs := List.takeWhile_append_dropWhile
  have hbefore : ∀ y ∈ xs.takeWhile p, p y = true := List.all_eq_true.1 List.all_takeWhile
  have hfirst := List.head?_dropWhile_not p xs
  cases hrest : xs.dropWhile p with
  | nil =>
    rw [hrest, List.append_nil] at happend
    rw [happend] at hbefore
    exact .inl ⟨hbefore, happend, rfl⟩
  | cons x after =>
    rw [hrest] at happend hfirst
    exact .inr ⟨_, x, after, happend.symm, hbefore, hfirst, rfl, rfl⟩

/-- Lines are typed and complained about, until there is one that is not or they are at their
end. -/
theorem readNumber_cases (t : Terminal) :
    ((∀ line ∈ t.lines, (complaint? line).isSome) ∧
      t.readNumber = (none, { t with
        lines := [], complaints := t.complaints ++ t.lines.filterMap complaint? })) ∨
    ∃ before line after, t.lines = before ++ line :: after ∧
      (∀ l ∈ before, (complaint? l).isSome) ∧ complaint? line = none ∧
      t.readNumber = (some line, { t with
        lines := after, given := t.given ++ [line],
        complaints := t.complaints ++ before.filterMap complaint? }) := by
  rcases takeWhile_cases (fun line => (complaint? line).isSome) t.lines with
    ⟨hall, htake, hdrop⟩ | ⟨before, line, after, hlines, hbefore, hline, htake, hdrop⟩
  · exact .inl ⟨hall, by simp [readNumber, htake, hdrop]⟩
  · refine .inr ⟨before, line, after, hlines, hbefore, by simpa using hline, ?_⟩
    simp [readNumber, htake, hdrop]

/-- Keys are pressed until there is one that stands for a character or they are at their end. -/
theorem readKey_cases (t : Terminal) :
    ((∀ key ∈ t.keys, key.supply? = none) ∧ t.readKey = (none, { t with keys := [] })) ∨
    ∃ before key after supply, t.keys = before ++ key :: after ∧
      (∀ k ∈ before, k.supply? = none) ∧ key.supply? = some supply ∧
      t.readKey = (some supply, { t with keys := after, given := t.given ++ [supply] }) := by
  rcases takeWhile_cases (fun key : Key => key.supply?.isNone) t.keys with
    ⟨hall, htake, hdrop⟩ | ⟨before, key, after, hkeys, hbefore, hkey, htake, hdrop⟩
  · exact .inl ⟨by simpa using hall, by simp [readKey, hdrop]⟩
  · obtain ⟨supply, hsupply⟩ := Option.isSome_iff_exists.1 (Option.isNone_eq_false_iff.1 hkey)
    refine .inr ⟨before, key, after, supply, hkeys, by simpa using hbefore, hsupply, ?_⟩
    simp [readKey, hdrop, hsupply]

/-- Lines that are complained about account for no value. -/
theorem accounts_rejected {typed rest : List Supply} (hlines : t.lines = typed ++ rest)
    (h : ∀ line ∈ typed, (complaint? line).isSome) :
    t.Accounts { t with
      lines := rest, complaints := t.complaints ++ typed.filterMap complaint? } typed [] [] := by
  have hkept : typed.filter (fun line => (complaint? line).isNone) = [] := by
    refine List.filter_eq_nil_iff.2 fun line hmem => ?_
    rw [Bool.not_eq_true, Option.isNone_eq_false_iff]
    exact h line hmem
  exact {
    lines := hlines
    keys := rfl
    keyFault := rfl
    given := (List.append_nil _).symm
    complaints := rfl
    givesLines := by rw [hkept]
    givesKeys := List.Sublist.refl _
    givesNoMore := by rw [hkept]; rfl }

/-- A line without a complaint accounts for its value. -/
theorem accounts_line {line : Supply} {rest : List Supply} (hlines : t.lines = line :: rest)
    (h : complaint? line = none) :
    t.Accounts { t with lines := rest, given := t.given ++ [line] } [line] [] [line] := by
  have hkept : [line].filter (fun line => (complaint? line).isNone) = [line] :=
    List.filter_cons_of_pos (by rw [h]; rfl)
  exact {
    lines := hlines
    keys := rfl
    keyFault := rfl
    given := rfl
    complaints := by simp [h]
    givesLines := by rw [hkept]
    givesKeys := List.nil_sublist _
    givesNoMore := by rw [hkept]; rfl }

/-- Keys account for the values that they stand for. -/
theorem accounts_keys {pressed rest : List Key} (hkeys : t.keys = pressed ++ rest) :
    t.Accounts { t with
      keys := rest, given := t.given ++ pressed.filterMap Key.supply? } [] pressed
        (pressed.filterMap Key.supply?) where
  lines := rfl
  keys := hkeys
  keyFault := rfl
  given := rfl
  complaints := (List.append_nil _).symm
  givesLines := List.nil_sublist _
  givesKeys := List.Sublist.refl _
  givesNoMore := (Nat.zero_add _).symm

theorem accounts_readNumber (t : Terminal) :
    ∃ typed, t.Accounts t.readNumber.2 typed [] t.readNumber.1.toList := by
  rcases readNumber_cases t with
    ⟨hall, hread⟩ | ⟨before, line, after, hlines, hbefore, hline, hread⟩
  · rw [hread]
    exact ⟨t.lines, accounts_rejected (List.append_nil _).symm hall⟩
  · rw [hread]
    exact ⟨before ++ [line], (accounts_rejected hlines hbefore).trans (accounts_line rfl hline)⟩

theorem accounts_readKey (t : Terminal) :
    ∃ pressed, t.Accounts t.readKey.2 [] pressed t.readKey.1.toList := by
  rcases readKey_cases t with
    ⟨hall, hread⟩ | ⟨before, key, after, supply, hkeys, hbefore, hsupply, hread⟩
  · have hvalues : t.keys.filterMap Key.supply? = [] := List.filterMap_eq_nil_iff.2 hall
    have haccounts := accounts_keys (t := t) (List.append_nil t.keys).symm
    rw [hvalues, List.append_nil] at haccounts
    rw [hread]
    exact ⟨t.keys, haccounts⟩
  · have hvalues : (before ++ [key]).filterMap Key.supply? = [supply] := by
      rw [List.filterMap_append, List.filterMap_eq_nil_iff.2 hbefore]
      simp [hsupply]
    have hpressed : t.keys = (before ++ [key]) ++ after := by
      rw [hkeys, List.append_assoc]
      rfl
    have haccounts := accounts_keys hpressed
    rw [hvalues] at haccounts
    rw [hread]
    exact ⟨before ++ [key], haccounts⟩

/-- What is given is accounted for, whatever it is asked for. -/
theorem accounts_give (t : Terminal) (status : Status) :
    ∃ typed pressed, t.Accounts (t.give status).2 typed pressed (t.give status).1.toList := by
  cases status with
  | awaitingNumber =>
    obtain ⟨typed, h⟩ := t.accounts_readNumber
    exact ⟨typed, [], h⟩
  | awaitingChar =>
    obtain ⟨pressed, h⟩ := t.accounts_readKey
    exact ⟨[], pressed, h⟩
  | _ => exact ⟨[], [], .refl t⟩

/-- What is given is of use to a machine that asks for it. -/
theorem gives_of_mem_give {status : Status} {supply : Supply} (h : supply ∈ (t.give status).1) :
    Gives status supply := by
  cases status with
  | awaitingNumber =>
    rcases readNumber_cases t with ⟨-, hread⟩ | ⟨_, line, _, -, -, hline, hread⟩
    · rw [give, hread] at h
      cases h
    · rw [give, hread] at h
      cases h
      exact .number hline
  | awaitingChar =>
    rcases readKey_cases t with ⟨-, hread⟩ | ⟨_, key, _, value, -, -, hvalue, hread⟩
    · rw [give, hread] at h
      cases h
    · rw [give, hread] at h
      cases h
      obtain ⟨c, -, rfl⟩ := Option.map_eq_some_iff.1 hvalue
      exact .char c
  | _ => cases h

/-- Nothing is given to a machine that asks for a value only where there are no lines or no keys
left. -/
theorem lines_of_give_eq_none (h : (t.give .awaitingNumber).1 = none) :
    (t.give .awaitingNumber).2.lines = [] := by
  rcases readNumber_cases t with ⟨-, hread⟩ | ⟨_, line, _, -, -, -, hread⟩
  · rw [give, hread]
  · rw [give, hread] at h
    cases h

theorem keys_of_give_eq_none (h : (t.give .awaitingChar).1 = none) :
    (t.give .awaitingChar).2.keys = [] := by
  rcases readKey_cases t with ⟨-, hread⟩ | ⟨_, key, _, supply, -, -, -, hread⟩
  · rw [give, hread]
  · rw [give, hread] at h
    cases h

/-- Why the last value that was asked for could not be given: there was no line or no key left, or
the line was not UTF-8. -/
inductive Stuck (t : Terminal) : InputFault → Prop
  | noNumber : t.lines = [] → Stuck t .noNumber
  | noCharacter : t.keys = [] → Stuck t .noCharacter
  | undecodable : Stuck t .undecodable

/-- A value that was given does not answer only if it is a line that is not UTF-8. -/
theorem Gives.eq_undecodable {status : Status} {supply : Supply} {cause : InputFault}
    (h : Gives status supply) (hfails : supply.Fails status cause) : cause = .undecodable := by
  cases h with
  | number hline =>
    rcases complaint?_eq_none_iff.1 hline with rfl | ⟨value, hanswers⟩
    · cases hfails
      rfl
    · exact absurd hanswers (hfails.not_answers value)
  | char c => exact absurd (.char (by simp)) (hfails.not_answers (.ofCode c.val))

theorem Gives.isAwaiting {status : Status} {supply : Supply} (h : Gives status supply) :
    status.isAwaiting := by
  cases h <;> rfl

end Terminal

/-! ## Sessions at a terminal -/

theorem Session.mayStep_iff (s : Session) : s.MayStep ↔ s.exhaustedLimit? = none := by
  simp [MayStep, exhaustedLimit?, Option.filter_eq_none_iff]

theorem Session.withMore_nil (s : Session) : s.withMore [] = s := by
  simp [withMore]

/-- A pass that goes on had the value that it asked for. -/
theorem Session.Passing.not_starves {s : Session} {machine : Machine} {waiting : List Supply}
    (h : s.Passing machine waiting none) : ¬ s.Starves := by
  rintro ⟨hawaiting, hwaiting⟩
  cases h with
  | quiet _ hready => exact absurd hawaiting (by simp [(Machine.isReady_iff.1 hready).2])
  | answered _ hcons _ => rw [hwaiting] at hcons; cases hcons

/-- A pass that fails over a value had none, or one that does not answer. -/
theorem Session.Passing.of_input {s : Session} {machine : Machine} {waiting : List Supply}
    {cause : InputFault} (h : s.Passing machine waiting (some (.failed (.input cause)))) :
    s.MayStep ∧ (s.input.waiting = [] ∧ s.machine.step.status.shortage? = some cause ∨
      ∃ supply rest, s.input.waiting = supply :: rest ∧
        supply.Fails s.machine.step.status cause) := by
  cases h with
  | starved hmay hwaiting hshortage => exact ⟨hmay, .inl ⟨hwaiting, hshortage⟩⟩
  | failed hmay hwaiting hfails => exact ⟨hmay, .inr ⟨_, _, hwaiting, hfails⟩⟩

namespace Dialogue

open Terminal

variable {d : Dialogue}

/-- A pass at a terminal is a pass of the session that was supplied. -/
theorem supplied_pass {next : Dialogue} {outcome : Option Outcome} (h : d.pass = (next, outcome)) :
    d.supplied.pass = (next.session, outcome) ∧ d.supply.2 = next.terminal := by
  have hpass : d.pass = (⟨d.supplied.pass.1, d.supply.2⟩, d.supplied.pass.2) := rfl
  rw [hpass] at h
  cases h
  exact ⟨rfl, rfl⟩

theorem supply_of_mayStep (h : d.session.MayStep) :
    d.supply = d.terminal.give d.session.machine.step.status := by
  rw [supply, d.session.mayStep_iff.1 h]

theorem accounts_supply (d : Dialogue) :
    ∃ typed pressed, d.terminal.Accounts d.supply.2 typed pressed d.supply.1.toList := by
  unfold supply
  cases d.session.exhaustedLimit? with
  | some limit => exact ⟨[], [], .refl d.terminal⟩
  | none => exact d.terminal.accounts_give _

/-- What the terminal gives is asked for. -/
theorem gives_of_mem_supply {supply : Supply} (h : supply ∈ d.supply.1) :
    d.session.MayStep ∧ Gives d.session.machine.step.status supply := by
  rw [Session.mayStep_iff]
  unfold Dialogue.supply at h
  cases hlimit : d.session.exhaustedLimit? with
  | some limit => rw [hlimit] at h; cases h
  | none =>
    rw [hlimit] at h
    exact ⟨rfl, gives_of_mem_give h⟩

theorem waiting_pass (d : Dialogue) : d.pass.1.session.input.waiting = [] := by
  have hwaiting : d.pass.1.session.input.waiting =
      d.supply.1.toList.drop (if d.supplied.Asks then 1 else 0) := d.supplied.waiting_pass
  cases hsupply : d.supply.1 with
  | none => rw [hwaiting, hsupply, Option.toList_none, List.drop_nil]
  | some supply =>
    obtain ⟨hmay, hgives⟩ := gives_of_mem_supply hsupply
    have hasks : d.supplied.Asks := ⟨hmay, hgives.isAwaiting⟩
    rw [hwaiting, hsupply, if_pos hasks]
    rfl

/-- A pass goes on in the same way whatever comes behind the value that was given for it. -/
theorem pass_withMore {next : Dialogue} (h : d.pass = (next, none)) (more : List Supply) :
    (d.supplied.withMore more).pass = (next.session.withMore more, none) := by
  have hsession := (supplied_pass h).1
  have hpassing := d.supplied.passing
  rw [hsession] at hpassing
  rw [Session.pass_withMore hpassing.not_starves, hsession]

theorem stuck_pass {cause : InputFault} (h : d.pass.2 = some (.failed (.input cause))) :
    d.pass.1.terminal.Stuck cause := by
  have hsession : d.supplied.pass.2 = some (.failed (.input cause)) := h
  have hpassing := d.supplied.passing
  rw [hsession] at hpassing
  show d.supply.2.Stuck cause
  obtain ⟨hmay, ⟨hwaiting, hshortage⟩ | ⟨supply, rest, hwaiting, hfails⟩⟩ := hpassing.of_input
  · have hsupply : d.supply.1 = none := Option.toList_eq_nil_iff.1 hwaiting
    have hgive := supply_of_mayStep (d := d) hmay
    have hstatus : d.supplied.machine.step.status = d.session.machine.step.status := rfl
    rw [hgive] at hsupply ⊢
    rw [hstatus] at hshortage
    cases hs : d.session.machine.step.status with
    | awaitingNumber =>
      rw [hs] at hsupply hshortage
      cases hshortage
      exact .noNumber (lines_of_give_eq_none hsupply)
    | awaitingChar =>
      rw [hs] at hsupply hshortage
      cases hshortage
      exact .noCharacter (keys_of_give_eq_none hsupply)
    | _ => rw [hs] at hshortage; cases hshortage
  · have hsupply : supply ∈ d.supply.1 := by
      have hlist : d.supply.1.toList = supply :: rest := hwaiting
      exact Option.mem_toList.1 (by rw [hlist]; exact List.mem_cons_self)
    obtain ⟨-, hgives⟩ := gives_of_mem_supply hsupply
    rw [hgives.eq_undecodable hfails]
    exact .undecodable

/-! ## Runs -/

theorem runFor_succ_of_none {next : Dialogue} (h : d.pass = (next, none)) (count : Nat) :
    d.runFor (count + 1) = next.runFor count := by
  simp [runFor, h]

theorem runFor_succ_of_some {next : Dialogue} {outcome : Outcome}
    (h : d.pass = (next, some outcome)) (count : Nat) :
    d.runFor (count + 1) = (next, some outcome) := by
  simp [runFor, h]

/-- A run at a terminal is a run of the session with the values that are given there, and they are
accounted for. -/
theorem runFor_given (hd : d.session.input.waiting = []) (count : Nat) :
    ∃ typed pressed values,
      d.terminal.Accounts (d.runFor count).1.terminal typed pressed values ∧
      (d.session.withMore values).runFor count =
        ((d.runFor count).1.session, (d.runFor count).2) := by
  induction count generalizing d with
  | zero => exact ⟨[], [], [], .refl d.terminal, by rw [Session.withMore_nil]; rfl⟩
  | succ count ih =>
    have hsupplied (more : List Supply) :
        d.session.withMore (d.supply.1.toList ++ more) = d.supplied.withMore more := by
      simp [Session.withMore, supplied, hd]
    obtain ⟨typed, pressed, haccounts⟩ := d.accounts_supply
    have hwaiting := d.waiting_pass
    rcases hpass : d.pass with ⟨next, outcome⟩
    obtain ⟨hsession, hterminal⟩ := supplied_pass hpass
    rw [hpass] at hwaiting
    rw [hterminal] at haccounts
    cases outcome with
    | none =>
      obtain ⟨typed', pressed', values, hrest, hrun⟩ := ih hwaiting
      rw [runFor_succ_of_none hpass]
      refine ⟨_, _, _, haccounts.trans hrest, ?_⟩
      rw [hsupplied, Session.runFor_succ_of_none (pass_withMore hpass values), hrun]
    | some outcome =>
      rw [runFor_succ_of_some hpass]
      refine ⟨_, _, _, haccounts, ?_⟩
      rw [← List.append_nil d.supply.1.toList, hsupplied, Session.withMore_nil,
        Session.runFor_succ_of_some hsession]

theorem stuck_runFor (d : Dialogue) (count : Nat) {cause : InputFault}
    (h : (d.runFor count).2 = some (.failed (.input cause))) :
    (d.runFor count).1.terminal.Stuck cause := by
  induction count generalizing d with
  | zero => cases h
  | succ count ih =>
    rcases hpass : d.pass with ⟨next, _ | outcome⟩
    · rw [runFor_succ_of_none hpass] at h ⊢
      exact ih next h
    · rw [runFor_succ_of_some hpass] at h ⊢
      rw [← hpass] at h ⊢
      exact stuck_pass h

/-- A run at a terminal comes to the same as the run of a session for which the values given there
were waiting from the start.  All that was typed is accounted for.  The run does not fail for a
line that is no number: it fails over a value only where there is none left, or none that can be
read. -/
theorem run_like_session (image : Image) (options : SessionOptions) (lines : List Supply)
    (keys : List Key) (keyFault : String) :
    let t := Terminal.fresh lines keys keyFault
    let r := (start image options t).run
    (Session.start image ⟨r.1.terminal.given⟩ options).run = (r.1.session, r.2) ∧
      (∃ typed pressed, t.Accounts r.1.terminal typed pressed r.1.terminal.given) ∧
      ∀ cause, r.2 = some (.failed (.input cause)) → r.1.terminal.Stuck cause := by
  intro t r
  obtain ⟨typed, pressed, values, haccounts, hrun⟩ :=
    runFor_given (d := start image options t) rfl (Session.capacity - 0)
  have hgiven : r.1.terminal.given = values := haccounts.given
  rw [hgiven]
  exact ⟨hrun, ⟨typed, pressed, haccounts⟩, fun cause h => stuck_runFor _ _ h⟩

end Dialogue

end Mailbox
