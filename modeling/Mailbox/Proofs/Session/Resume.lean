import Mailbox.Proofs.Session.Refinement
import Mailbox.Proofs.Session.Values
set_option autoImplicit false

/-!
# Resuming after bad values

A run that fails because a value is of no use has made no other progress than the step that asks for
a value, and the next run makes that step again.  Main statement: a session whose first runs fail on
bad values goes on, from there, like a fresh session to which they were never given.
-/

namespace Mailbox.Session

/-! ## Sessions that go on alike -/

/-- A session that is another one but for its books, has made more steps, and may make any number
of them. -/
structure AheadOf (s t : Session) (more : Nat) : Prop where
  scene : s.SameScene t
  limit_eq : s.limit = none
  limit_eq_other : t.limit = none
  steps_eq : s.steps = t.steps + more

/-- Two sessions come to the same ends, one of them with more steps. -/
structure EndsLike (s t : Session) (more : Nat) : Prop where
  forth : ∀ u outcome, s.Returns u outcome → ∃ v, t.Returns v outcome ∧ u.AheadOf v more
  back : ∀ v outcome, t.Returns v outcome → ∃ u, s.Returns u outcome ∧ u.AheadOf v more

variable {s t u : Session} {more : Nat}

theorem AheadOf.trans {others : Nat} (h : s.AheadOf t more) (h' : t.AheadOf u others) :
    s.AheadOf u (others + more) where
  scene := ⟨h.scene.machine_eq.trans h'.scene.machine_eq, h.scene.input_eq.trans h'.scene.input_eq,
    h.scene.transcript_eq.trans h'.scene.transcript_eq⟩
  limit_eq := h.limit_eq
  limit_eq_other := h'.limit_eq_other
  steps_eq := by rw [h.steps_eq, h'.steps_eq, Nat.add_assoc]

theorem EndsLike.trans {others : Nat} (h : s.EndsLike t more) (h' : t.EndsLike u others) :
    s.EndsLike u (others + more) where
  forth a outcome ha := by
    obtain ⟨b, hb, hab⟩ := h.forth a outcome ha
    obtain ⟨c, hc, hbc⟩ := h'.forth b outcome hb
    exact ⟨c, hc, hab.trans hbc⟩
  back c outcome hc := by
    obtain ⟨b, hb, hbc⟩ := h'.back c outcome hc
    obtain ⟨a, ha, hab⟩ := h.back b outcome hb
    exact ⟨a, ha, hab.trans hbc⟩

/-- Once they have made a step with the same scene, two sessions respond alike. -/
theorem pass_aheadOf (hscene : s.step.SameScene t.step) (hs : s.limit = none) (ht : t.limit = none)
    (hsteps : s.steps = t.steps + more) :
    s.pass.1.AheadOf t.pass.1 more ∧ s.pass.2 = t.pass.2 := by
  obtain ⟨hrespond, houtcome⟩ := hscene.respond
  have hcount := steps_pass_of_no_limit hs
  have hcountOther := steps_pass_of_no_limit ht
  refine ⟨⟨?_, (limit_pass s).trans hs, (limit_pass t).trans ht, by omega⟩, ?_⟩
  · rw [pass_of_no_limit hs, pass_of_no_limit ht]
    exact hrespond
  · rw [pass_of_no_limit hs, pass_of_no_limit ht]
    exact houtcome

theorem AheadOf.pass (h : s.AheadOf t more) :
    s.pass.1.AheadOf t.pass.1 more ∧ s.pass.2 = t.pass.2 := by
  obtain ⟨hmachine, hinput, htranscript⟩ := h.scene
  have hscene : s.step.SameScene t.step := ⟨congrArg Machine.step hmachine, hinput, htranscript⟩
  exact pass_aheadOf hscene h.limit_eq h.limit_eq_other h.steps_eq

theorem AheadOf.runFor (h : s.AheadOf t more) (count : Nat) :
    (s.runFor count).1.AheadOf (t.runFor count).1 more ∧
      (s.runFor count).2 = (t.runFor count).2 :=
  runFor_alike (R := fun a b => a.AheadOf b more) (fun _ _ hab => hab.pass) h count

/-- Sessions that are alike after a pass come to the same ends. -/
theorem endsLike_of_pass (h : s.pass.1.AheadOf t.pass.1 more) (houtcome : s.pass.2 = t.pass.2) :
    s.EndsLike t more := by
  have hruns : ∀ count, (s.runFor (count + 1)).1.AheadOf (t.runFor (count + 1)).1 more ∧
      (s.runFor (count + 1)).2 = (t.runFor (count + 1)).2 := fun count =>
    runFor_succ_alike (R := fun a b => a.AheadOf b more) h houtcome fun _ _ hab => hab.runFor count
  refine ⟨?_, ?_⟩
  · rintro a outcome ⟨count, ha⟩
    obtain ⟨hahead, hsame⟩ := hruns count
    rw [runFor_add_of_some ha 1] at hahead hsame
    exact ⟨_, ⟨count + 1, Prod.ext rfl hsame.symm⟩, hahead⟩
  · rintro b outcome ⟨count, hb⟩
    obtain ⟨hahead, hsame⟩ := hruns count
    rw [runFor_add_of_some hb 1] at hahead hsame
    exact ⟨_, ⟨count + 1, Prod.ext rfl hsame⟩, hahead⟩

theorem AheadOf.endsLike (h : s.AheadOf t more) : s.EndsLike t more :=
  endsLike_of_pass h.pass.1 h.pass.2

theorem AheadOf.refl (h : s.limit = none) : s.AheadOf s 0 :=
  ⟨⟨rfl, rfl, rfl⟩, h, h, rfl⟩

/-- An end that `run` comes to is an end of the session that makes fewer steps. -/
theorem EndsLike.run_forth (h : s.EndsLike t more) (hs : s.limit = none) (ht : t.limit = none)
    {outcome : Outcome} (hrun : s.run = (u, some outcome)) :
    ∃ v, t.run = (v, some outcome) ∧ u.AheadOf v more := by
  obtain ⟨hreturns, hle⟩ := (run_eq_some_iff hs).1 hrun
  obtain ⟨v, hv, hahead⟩ := h.forth u outcome hreturns
  have hsteps := hahead.steps_eq
  exact ⟨v, (run_eq_some_iff ht).2 ⟨hv, by omega⟩, hahead⟩

/-- The other way round, the step counter has to have room for the steps that are made in
addition. -/
theorem EndsLike.run_back (h : s.EndsLike t more) (hs : s.limit = none) (ht : t.limit = none)
    {outcome : Outcome} (hrun : t.run = (u, some outcome)) (hroom : u.steps + more ≤ capacity) :
    ∃ v, s.run = (v, some outcome) ∧ v.AheadOf u more := by
  obtain ⟨v, hv, hahead⟩ := h.back u outcome ((run_eq_some_iff ht).1 hrun).1
  have hsteps := hahead.steps_eq
  exact ⟨v, (run_eq_some_iff hs).2 ⟨hv, by omega⟩, hahead⟩

/-! ## A bad value -/

/-- A session that has made the step that asks for a value, and is otherwise where another one is
that has not made it yet. -/
structure Retries (s t : Session) : Prop where
  isAwaiting : t.machine.step.status.isAwaiting
  machine_eq : s.machine = t.machine.step
  input_eq : s.input = t.input
  transcript_eq : s.transcript = t.transcript
  limit_eq : s.limit = none
  limit_eq_other : t.limit = none
  steps_eq : s.steps = t.steps + 1

/-- The step that asks for a value can be made twice. -/
theorem Retries.endsLike (h : s.Retries t) : s.EndsLike t 1 := by
  have hscene : s.step.SameScene t.step := by
    refine ⟨?_, h.input_eq, h.transcript_eq⟩
    have hstays := Machine.step_of_isAwaiting h.isAwaiting
    rw [← h.machine_eq] at hstays
    exact hstays.trans h.machine_eq
  obtain ⟨hahead, houtcome⟩ := pass_aheadOf hscene h.limit_eq h.limit_eq_other h.steps_eq
  exact endsLike_of_pass hahead houtcome

/-- A session that has run out of values and then reads one more: it fails on a bad value, where it
can be resumed, or takes a good one. -/
theorem Starves.pass_withMore_cons (h : s.Starves) (hlimit : s.limit = none)
    (hminimal : s.transcript.minimal) (supply : Supply) (rest : List Supply) :
    (s.withMore (supply :: rest)).pass.1.input.waiting = rest ∧
      ∀ outcome, (s.withMore (supply :: rest)).pass.2 = some outcome →
        (s.withMore (supply :: rest)).pass.1.Retries (s.withMore rest) := by
  obtain ⟨ha, hempty⟩ := h
  have hannounce : (s.withMore (supply :: rest)).step.announce =
      (s.withMore (supply :: rest)).step := announce_of_minimal hminimal
  have hpass : (s.withMore (supply :: rest)).pass = (s.withMore (supply :: rest)).step.respond :=
    pass_of_no_limit hlimit
  have hwaiting : (s.withMore (supply :: rest)).step.input.waiting = supply :: rest := by
    simp [step, withMore, hempty]
  have hretries : ∀ next, next = { (s.withMore (supply :: rest)).step with input := ⟨rest⟩ } →
      next.Retries (s.withMore rest) := by
    rintro next rfl
    refine ⟨ha, rfl, ?_, rfl, hlimit, hlimit, rfl⟩
    simp [withMore, hempty]
  rw [hpass]
  unfold respond
  rw [hannounce]
  cases hs : s.machine.step.status with
  | awaitingNumber =>
    have hstatus : (s.withMore (supply :: rest)).step.machine.status = .awaitingNumber := hs
    have hread := Input.readNumber_of_cons hwaiting
    rw [hstatus]
    refine ⟨waiting_supplyNumber hstatus hwaiting, fun outcome houtcome => hretries _ ?_⟩
    cases hnumber : Input.number supply with
    | error cause => rw [supplyNumber_of_error (hnumber ▸ hread)]
    | ok value =>
      rw [supplyNumber_of_ok hstatus (hnumber ▸ hread)] at houtcome
      exact absurd houtcome (by simp)
  | awaitingChar =>
    have hstatus : (s.withMore (supply :: rest)).step.machine.status = .awaitingChar := hs
    have hread := Input.readChar_of_cons hwaiting
    rw [hstatus]
    refine ⟨waiting_supplyChar hstatus hwaiting, fun outcome houtcome => hretries _ ?_⟩
    cases hcharacter : Input.character supply with
    | error cause => rw [supplyChar_of_error (hcharacter ▸ hread)]
    | ok c =>
      rw [supplyChar_of_ok hstatus (hcharacter ▸ hread)] at houtcome
      exact absurd houtcome (by simp)
  | _ => rw [hs] at ha; exact absurd ha (by decide)

theorem minimal_pass (s : Session) : s.pass.1.transcript.minimal = s.transcript.minimal := by
  obtain ⟨items, hitems⟩ := exists_items_pass s
  rw [hitems, Transcript.minimal_writeAll]

/-- Passes that fail on a value, with `rest` left, are those of the session that was never given
the value, up to the step that asks for it. -/
theorem exists_retries {supply : Supply} {rest : List Supply} {cause : InputFault} {count : Nat}
    (hlimit : s.limit = none) (hminimal : s.transcript.minimal)
    (h : (s.withMore (supply :: rest)).runFor count = (t, some (.failed (.input cause))))
    (hvalue : cause.isExhaustion = false) (hrest : t.input.waiting = rest) :
    ∃ passes u, (s.withMore rest).runFor passes = (u, none) ∧ t.Retries u := by
  induction count generalizing s with
  | zero => exact absurd (congrArg Prod.snd h) (by simp)
  | succ count ih =>
    by_cases hstarves : s.Starves
    · obtain ⟨hwaiting, hretries⟩ := hstarves.pass_withMore_cons hlimit hminimal supply rest
      rcases hpass : (s.withMore (supply :: rest)).pass with ⟨next, result⟩
      rw [hpass] at hwaiting hretries
      cases result with
      | some outcome =>
        rw [runFor_succ_of_some hpass] at h
        obtain rfl : next = t := congrArg Prod.fst h
        exact ⟨0, s.withMore rest, rfl, hretries outcome rfl⟩
      | none =>
        -- The value was good, so a later failure on a value would leave less than `rest`.
        rw [runFor_succ_of_none hpass] at h
        have hless := (consumes_runFor next count).2 cause (congrArg Prod.snd h) hvalue
        rw [h, hwaiting, hrest] at hless
        exact absurd hless (Nat.lt_irrefl _)
    · have hpass := pass_withMore hstarves (supply :: rest)
      have hpassRest := pass_withMore hstarves rest
      have hnext := (limit_pass s).trans hlimit
      have hminimalNext := (minimal_pass s).trans hminimal
      rcases hs : s.pass with ⟨next, result⟩
      rw [hs] at hpass hpassRest hnext hminimalNext
      cases result with
      | none =>
        rw [runFor_succ_of_none hpass] at h
        obtain ⟨passes, u, hu, hretries⟩ := ih hnext hminimalNext h
        exact ⟨passes + 1, u, (runFor_succ_of_none hpassRest passes).trans hu, hretries⟩
      | some outcome =>
        rw [runFor_succ_of_some hpass] at h
        obtain rfl : next.withMore (supply :: rest) = t := congrArg Prod.fst h
        have hlength := congrArg List.length hrest
        simp only [withMore, List.length_append, List.length_cons] at hlength
        omega

/-! ## Any number of bad values -/

/-- A run of the session fails because the given value is no number, or no single character, where
the machine asks for one, and leaves `rest` to be read. -/
def FailsReading (s : Session) (value : String) (rest : List String) : Prop :=
  ∃ cause, s.run.2 = some (.failed (.input cause)) ∧ s.run.1.input = .ofValues rest ∧
    (s.run.1.machine.status = .awaitingNumber ∧ Input.number (.text value) = .error cause ∨
      s.run.1.machine.status = .awaitingChar ∧ Input.character (.text value) = .error cause)

/-- Good values, a bad value behind each list of them, and the values behind the last bad one. -/
def spoiled (blocks : List (List String × String)) (rest : List String) : List String :=
  blocks.flatMap (fun block => block.1 ++ [block.2]) ++ rest

/-- The same values without the bad ones. -/
def unspoiled (blocks : List (List String × String)) (rest : List String) : List String :=
  blocks.flatMap Prod.fst ++ rest

variable {image : Image} {options : SessionOptions}

theorem start_withMore (image : Image) (options : SessionOptions) (values more : List String) :
    (start image (.ofValues values) options).withMore (more.map .text) =
      start image (.ofValues (values ++ more)) options := by
  simp [start, withMore, Input.ofValues]

/-- After a failure on a bad value, a session comes to the ends of the one that was never given
it. -/
theorem FailsReading.endsLike (hminimal : options.minimal) (hlimit : options.limit = none)
    {values rest : List String} {value : String}
    (h : (start image (.ofValues (values ++ value :: rest)) options).FailsReading value rest) :
    (start image (.ofValues (values ++ value :: rest)) options).run.1.EndsLike
      (start image (.ofValues (values ++ rest)) options) 1 := by
  obtain ⟨cause, houtcome, hinput, hread⟩ := h
  have hvalue : cause.isExhaustion = false := by
    rcases hread with ⟨_, hnumber⟩ | ⟨_, hcharacter⟩
    · exact Input.isExhaustion_of_number hnumber
    · exact Input.isExhaustion_of_character hcharacter
  have hspoiled := start_withMore image options values (value :: rest)
  have hclean := start_withMore image options values rest
  rw [List.map_cons] at hspoiled
  rw [← hspoiled] at houtcome hinput ⊢
  rw [← hclean]
  obtain ⟨passes, u, hu, hretries⟩ := exists_retries
    (s := start image (.ofValues values) options) hlimit hminimal
    (Prod.ext rfl houtcome) hvalue (congrArg Input.waiting hinput)
  have hends := hretries.endsLike
  exact ⟨fun a outcome ha => by
      obtain ⟨b, hb, hahead⟩ := hends.forth a outcome ha
      exact ⟨b, (returns_iff_of_none hu).2 hb, hahead⟩,
    fun b outcome hb => hends.back b outcome ((returns_iff_of_none hu).1 hb)⟩

theorem limit_afterRuns (h : s.limit = none) (runs : Nat) : (s.afterRuns runs).limit = none :=
  afterRuns_induction (P := fun t => t.limit = none) (fun t ht => (limit_pass t).trans ht) h runs

/-- A failure on a bad value is one of every session that comes to the same ends and makes fewer
steps, and afterwards the two still go on alike. -/
theorem FailsReading.of_endsLike (h : s.EndsLike t more) (hs : s.limit = none) (ht : t.limit = none)
    {value : String} {rest : List String} (hfails : s.FailsReading value rest) :
    t.FailsReading value rest ∧ s.run.1.EndsLike t.run.1 more := by
  obtain ⟨cause, houtcome, hinput, hread⟩ := hfails
  obtain ⟨v, hv, hahead⟩ := h.run_forth hs ht (Prod.ext rfl houtcome)
  rw [FailsReading, hv]
  refine ⟨⟨cause, rfl, hahead.scene.input_eq ▸ hinput, ?_⟩, hahead.endsLike⟩
  rwa [← hahead.scene.machine_eq]

theorem afterRuns_succ (s : Session) (runs : Nat) :
    s.afterRuns (runs + 1) = s.run.1.afterRuns runs := by
  induction runs with
  | zero => rfl
  | succ runs ih =>
    rw [afterRuns, ih]
    rfl

/-- The next runs of a session fail on the bad value of one block after the other. -/
def FailsOnAll (s : Session) : List (List String × String) → List String → Prop
  | [], _ => True
  | block :: blocks, rest =>
    s.FailsReading block.2 (spoiled blocks rest) ∧ s.run.1.FailsOnAll blocks rest

/-- Sessions that go on alike fail alike, and go on alike after that. -/
theorem FailsOnAll.of_endsLike (h : s.EndsLike t more) (hs : s.limit = none) (ht : t.limit = none)
    {blocks : List (List String × String)} {rest : List String}
    (hfails : s.FailsOnAll blocks rest) :
    t.FailsOnAll blocks rest ∧
      (s.afterRuns blocks.length).EndsLike (t.afterRuns blocks.length) more := by
  induction blocks generalizing s t with
  | nil => exact ⟨trivial, h⟩
  | cons block blocks ih =>
    obtain ⟨hfirst, hnext⟩ := hfails.1.of_endsLike h hs ht
    obtain ⟨hothers, hends⟩ :=
      ih hnext (limit_afterRuns hs 1) (limit_afterRuns ht 1) hfails.2
    rw [List.length_cons, afterRuns_succ, afterRuns_succ]
    exact ⟨⟨hfirst, hothers⟩, hends⟩

/-- After failures on all the bad values, a session comes to the ends of the one that was never
given them. -/
theorem FailsOnAll.endsLike (hminimal : options.minimal) (hlimit : options.limit = none)
    (front : List String) {rest : List String} {blocks : List (List String × String)}
    (h : (start image (.ofValues (front ++ spoiled blocks rest)) options).FailsOnAll blocks rest) :
    ((start image (.ofValues (front ++ spoiled blocks rest)) options).afterRuns
      blocks.length).EndsLike
        (start image (.ofValues (front ++ unspoiled blocks rest)) options) blocks.length := by
  induction blocks generalizing front with
  | nil => exact (AheadOf.refl hlimit).endsLike
  | cons block blocks ih =>
    have hvalues : front ++ spoiled (block :: blocks) rest =
        (front ++ block.1) ++ block.2 :: spoiled blocks rest := by
      simp [spoiled]
    have hclean : front ++ unspoiled (block :: blocks) rest =
        (front ++ block.1) ++ unspoiled blocks rest := by
      simp [unspoiled]
    rw [hvalues] at h ⊢
    rw [hclean, List.length_cons, afterRuns_succ]
    -- The session without the first bad value fails on the others just the same.
    have hfirst := h.1.endsLike hminimal hlimit
    obtain ⟨hothers, hends⟩ := h.2.of_endsLike hfirst (limit_afterRuns hlimit 1) hlimit
    exact hends.trans (ih (front ++ block.1) hothers)

/-- A minimal session without a limit whose first runs fail on bad values goes on like the fresh
session that was never given them: one comes to an end if and only if the other does, with the same
outcome, and then machine, values left and text are the same, and the resumed session has made one
step more for each bad value. -/
theorem resumed_goes_on_like_fresh (image : Image) (options : SessionOptions)
    (hminimal : options.minimal = true) (hlimit : options.limit = none)
    (blocks : List (List String × String)) (rest : List String)
    (h : (start image (.ofValues (spoiled blocks rest)) options).FailsOnAll blocks rest) :
    let resumed :=
      (start image (.ofValues (spoiled blocks rest)) options).afterRuns blocks.length
    let fresh := start image (.ofValues (unspoiled blocks rest)) options
    resumed.EndsLike fresh blocks.length ∧
      (∀ u outcome, resumed.run = (u, some outcome) →
        ∃ v, fresh.run = (v, some outcome) ∧ u.AheadOf v blocks.length) ∧
      ∀ v outcome, fresh.run = (v, some outcome) → v.steps + blocks.length ≤ capacity →
        ∃ u, resumed.run = (u, some outcome) ∧ u.AheadOf v blocks.length := by
  intro resumed fresh
  have hends : resumed.EndsLike fresh blocks.length :=
    FailsOnAll.endsLike hminimal hlimit [] h
  have hresumed : resumed.limit = none := limit_afterRuns hlimit blocks.length
  exact ⟨hends, fun _ _ => hends.run_forth hresumed hlimit,
    fun _ _ => hends.run_back hresumed hlimit⟩

/-- An echo of numbers that is given a word and an empty value among its numbers. -/
theorem resumed_goes_on_like_fresh_echo :
    let image := Image.ofList [901, 902, 600]
    let options : SessionOptions := ⟨true, false, false, none⟩
    let blocks := [(["5"], "five"), ([], "")]
    let spoiledSession := start image (.ofValues (spoiled blocks ["7"])) options
    let fresh := start image (.ofValues (unspoiled blocks ["7"])) options
    (options.minimal = true ∧ options.limit = none ∧ spoiledSession.FailsOnAll blocks ["7"]) ∧
      (spoiledSession.afterRuns 2).EndsLike fresh 2 ∧
      fresh.run.2 = some (.failed (.input .noNumber)) ∧
      ∃ u, (spoiledSession.afterRuns 2).run = (u, some (.failed (.input .noNumber))) ∧
        u.AheadOf fresh.run.1 2 := by
  intro image options blocks spoiledSession fresh
  have hfails : spoiledSession.FailsOnAll blocks ["7"] := by
    refine ⟨⟨.badNumber "five" .invalidDigit, ?_, ?_, Or.inl ⟨?_, rfl⟩⟩,
      ⟨.badNumber "" .empty, ?_, ?_, Or.inl ⟨?_, rfl⟩⟩, trivial⟩
    all_goals decide +kernel
  obtain ⟨hends, _, hback⟩ :=
    resumed_goes_on_like_fresh image options rfl rfl blocks ["7"] hfails
  have houtcome : fresh.run.2 = some (.failed (.input .noNumber)) := by decide +kernel
  have hroom : fresh.run.1.steps + 2 ≤ capacity := by decide +kernel
  exact ⟨⟨rfl, rfl, hfails⟩, hends, houtcome, hback fresh.run.1 _ (Prod.ext rfl houtcome) hroom⟩

end Mailbox.Session
