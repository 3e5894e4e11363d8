import Mailbox.Proofs.Session.Runs
set_option autoImplicit false

/-!
# Step limits

A limit on the number of steps only cuts a run short.  Below it the passes are those of a session
with any other limit; at it, nothing happens any more.  Main statement: what two fresh sessions that
differ in their limits have in common after one run each, and what a session under a limit does in
any number of runs.

Normative source: SPEC_FULL.md, section A4 (the limit).
-/

namespace Mailbox.Session

/-- A session with another limit. -/
def withLimit (s : Session) (limit : Option Nat) : Session := { s with limit }

/-! ## Passes below the limit -/

variable {s t : Session} {limit : Nat} {count : Nat}

theorem pass_of_lt (h : ∀ limit ∈ s.limit, s.steps < limit) : s.pass = s.step.respond := by
  rcases pass_cases s with ⟨limit, hlimit, hle, _⟩ | ⟨_, hpass⟩
  · exact absurd (h limit hlimit) (Nat.not_lt.2 hle)
  · exact hpass

theorem pass_of_limit_le (h : s.limit = some limit) (hle : limit ≤ s.steps) :
    s.pass = (s, some (.failed (.limitReached limit s.machine.pc))) := by
  rcases pass_cases s with ⟨found, hfound, _, hpass⟩ | ⟨hlt, _⟩
  · obtain rfl := Option.some.inj (h.symm.trans hfound)
    exact hpass
  · exact absurd (hlt limit h) (Nat.not_lt.2 hle)

/-- Below both limits, a pass is the same under either. -/
theorem pass_withLimit {other : Option Nat} (h : ∀ limit ∈ s.limit, s.steps < limit)
    (hother : ∀ limit ∈ other, s.steps < limit) :
    (s.withLimit other).pass = (s.pass.1.withLimit other, s.pass.2) := by
  have hbooks : (s.withLimit other).step = s.step.withBooks (s.withLimit other).step := rfl
  have hkeeps := respond_keeps_books s.step
  rw [pass_of_lt h, pass_of_lt (s := s.withLimit other) hother, hbooks, respond_withBooks, ← hkeeps]
  rfl

/-- As long as both limits are far enough away, passes are the same under either. -/
theorem runFor_withLimit (other : Option Nat) (h : ∀ limit ∈ s.limit, s.steps + count ≤ limit)
    (hother : ∀ limit ∈ other, s.steps + count ≤ limit) :
    (s.withLimit other).runFor count =
      ((s.runFor count).1.withLimit other, (s.runFor count).2) := by
  induction count generalizing s with
  | zero => rfl
  | succ count ih =>
    have hlt : ∀ limit ∈ s.limit, s.steps < limit := fun limit hl =>
      Nat.lt_of_lt_of_le (by omega) (h limit hl)
    have hpassOther := pass_withLimit hlt fun limit hl =>
      Nat.lt_of_lt_of_le (by omega) (hother limit hl)
    have hsteps : s.pass.1.steps = s.steps + 1 := by
      rw [pass_of_lt hlt, steps_respond]
      rfl
    have hlimit := limit_pass s
    rcases hpass : s.pass with ⟨next, result⟩
    rw [hpass] at hpassOther hsteps hlimit
    cases result with
    | none =>
      rw [runFor_succ_of_none hpass, runFor_succ_of_none hpassOther]
      refine ih (fun limit hl => ?_) fun limit hl => ?_
      · have := h limit (hlimit ▸ hl)
        omega
      · have := hother limit hl
        omega
    | some outcome => rw [runFor_succ_of_some hpass, runFor_succ_of_some hpassOther]

/-- Before the limit is reached, no pass fails because of it. -/
theorem runFor_ne_limitReached (h : ∀ limit ∈ s.limit, s.steps + count ≤ limit) (limit pc : Nat) :
    (s.runFor count).2 ≠ some (.failed (.limitReached limit pc)) := by
  intro hreached
  have hfree := runFor_withLimit none h (by simp)
  have hstopped := (runFor_stops (s.withLimit none) count).1 (.failed (.limitReached limit pc))
  rw [hfree] at hstopped
  -- The same passes without any limit cannot stop at one.
  exact absurd (hstopped hreached).1 (by simp [withLimit])

/-! ## Runs under a limit -/

/-- A run under a limit makes the passes that are left, and fails if none of them ends it. -/
theorem run_of_limit (h : s.limit = some limit) (hle : s.steps ≤ limit) (hcap : limit < capacity) :
    s.run =
      match s.runFor (limit - s.steps) with
      | (t, some outcome) => (t, some outcome)
      | (t, none) => (t, some (.failed (.limitReached limit t.machine.pc))) := by
  obtain ⟨rest, hrest⟩ : ∃ rest, capacity - s.steps = limit - s.steps + (rest + 1) :=
    ⟨capacity - limit - 1, by omega⟩
  have hlimit := limit_runFor s (limit - s.steps)
  rw [run, hrest]
  rcases hrun : s.runFor (limit - s.steps) with ⟨t, outcome⟩
  cases outcome with
  | some outcome => exact runFor_add_of_some hrun _
  | none =>
    have hsteps := steps_of_runFor_eq_none hrun
    rw [hrun] at hlimit
    have hpass := pass_of_limit_le (hlimit.trans h) (by omega : limit ≤ t.steps)
    rw [runFor_add_of_none hrun]
    exact runFor_succ_of_some hpass rest

theorem isSome_run_of_limit (h : s.limit = some limit) (hle : s.steps ≤ limit)
    (hcap : limit < capacity) : s.run.2.isSome := by
  rw [run_of_limit h hle hcap]
  rcases s.runFor (limit - s.steps) with ⟨t, outcome⟩
  cases outcome <;> rfl

theorem steps_pass_le (h : s.limit = some limit) (hle : s.steps ≤ limit) :
    s.pass.1.steps ≤ limit := by
  rcases pass_cases s with ⟨found, _, _, hpass⟩ | ⟨hlt, hpass⟩
  · rwa [hpass]
  · rw [hpass, steps_respond]
    exact hlt limit h

/-- The step count of a session under a limit never exceeds it. -/
theorem steps_afterRuns_le (h : s.limit = some limit) (hle : s.steps ≤ limit) (runs : Nat) :
    (s.afterRuns runs).limit = some limit ∧ (s.afterRuns runs).steps ≤ limit :=
  afterRuns_induction (P := fun t => t.limit = some limit ∧ t.steps ≤ limit)
    (fun t ht => ⟨(limit_pass t).trans ht.1, steps_pass_le ht.1 ht.2⟩) ⟨h, hle⟩ runs

theorem steps_run_le (h : s.limit = some limit) (hle : s.steps ≤ limit) : s.run.1.steps ≤ limit :=
  (steps_afterRuns_le h hle 1).2

theorem run_at_limit (h : s.limit = some limit) (hsteps : s.steps = limit)
    (hcap : limit < capacity) :
    s.run = (s, some (.failed (.limitReached limit s.machine.pc))) := by
  have hzero : limit - s.steps = 0 := by omega
  rw [run_of_limit h (Nat.le_of_eq hsteps) hcap, hzero]
  rfl

/-! ## Two limits -/

/-- What is left of a limit fits below it. -/
theorem rest_fits (h : s.limit = some limit) (hle : s.steps ≤ limit) :
    ∀ l ∈ s.limit, s.steps + (limit - s.steps) ≤ l := by
  rintro l hl
  obtain rfl := Option.some.inj (h.symm.trans hl)
  omega

/-- A run that ends below its limit is the run under any higher limit. -/
theorem run_withLimit_of_ended {higher : Nat} (h : s.limit = some limit) (hle : s.steps ≤ limit)
    (hhigher : limit ≤ higher) (hcap : higher < capacity) {outcome : Outcome}
    (hrun : s.runFor (limit - s.steps) = (t, some outcome)) :
    s.run = (t, some outcome) ∧
      (s.withLimit (some higher)).run = (t.withLimit (some higher), some outcome) := by
  have hother := runFor_withLimit (some higher) (rest_fits h hle) fun l hl => by
    obtain rfl := Option.some.inj hl
    omega
  rw [hrun] at hother
  have hmore : (s.withLimit (some higher)).runFor (higher - s.steps) =
      (t.withLimit (some higher), some outcome) := by
    have hadd := runFor_add_of_some hother (higher - limit)
    have hcount : limit - s.steps + (higher - limit) = higher - s.steps := by omega
    rwa [hcount] at hadd
  refine ⟨?_, ?_⟩
  · rw [run_of_limit h hle (Nat.lt_of_le_of_lt hhigher hcap), hrun]
  · rw [run_of_limit (s := s.withLimit (some higher)) rfl (Nat.le_trans hle hhigher) hcap]
    have hsteps : (s.withLimit (some higher)).steps = s.steps := rfl
    rw [hsteps, hmore]

/-- A run that is cut off at its limit has made the first passes of the run under any higher
limit. -/
theorem run_withLimit_of_cut {higher : Nat} (h : s.limit = some limit) (hle : s.steps ≤ limit)
    (hhigher : limit ≤ higher) (hcap : higher < capacity)
    (hrun : s.runFor (limit - s.steps) = (t, none)) :
    s.run = (t, some (.failed (.limitReached limit t.machine.pc))) ∧ t.steps = limit ∧
      (s.withLimit (some higher)).runFor (limit - s.steps) = (t.withLimit (some higher), none) ∧
      t.transcript.text.toList <+: (s.withLimit (some higher)).run.1.transcript.text.toList := by
  have hsteps := steps_of_runFor_eq_none hrun
  have hother := runFor_withLimit (some higher) (rest_fits h hle) fun l hl => by
    obtain rfl := Option.some.inj hl
    omega
  rw [hrun] at hother
  refine ⟨?_, by omega, hother, ?_⟩
  · rw [run_of_limit h hle (Nat.lt_of_le_of_lt hhigher hcap), hrun]
  · have hcount : capacity - (s.withLimit (some higher)).steps =
        limit - s.steps + (capacity - limit) := by
      have hsame : (s.withLimit (some higher)).steps = s.steps := rfl
      omega
    obtain ⟨items, hitems⟩ :=
      exists_items_runFor (t.withLimit (some higher)) (capacity - limit)
    rw [run, hcount, runFor_add_of_none hother, hitems]
    exact Transcript.text_isPrefix_writeAll t.transcript items

/-- Of two fresh sessions that run once, the one with the higher limit does the same if the other
does not fail at its limit; if it does, it has made exactly as many steps as its limit allows, is
where the one with the higher limit is after as many passes, and has the beginning of its text.
Under a limit every run returns without going beyond it, and at the limit a run fails and changes
nothing. -/
theorem limit_only_cuts_short (image : Image) (input : Input) (options : SessionOptions)
    {lower upper : Nat} (h : lower ≤ upper) (hcap : upper < capacity) :
    let first := start image input { options with limit := some lower }
    let second := start image input { options with limit := some upper }
    ((∀ limit pc, first.run.2 ≠ some (.failed (.limitReached limit pc))) →
        second.run = (first.run.1.withLimit (some upper), first.run.2)) ∧
      (∀ limit pc, first.run.2 = some (.failed (.limitReached limit pc)) →
        first.run.1.steps = lower ∧
          second.runFor lower = (first.run.1.withLimit (some upper), none) ∧
          first.run.1.transcript.text.toList <+: second.run.1.transcript.text.toList) ∧
      ∀ runs,
        let s := second.afterRuns runs
        s.run.2.isSome ∧ s.run.1.steps ≤ s.steps + (upper - s.steps) ∧ s.steps ≤ upper ∧
          (s.steps = upper → s.run = (s, some (.failed (.limitReached upper s.machine.pc)))) := by
  intro first second
  have hsecond : first.withLimit (some upper) = second := rfl
  have hlimit : first.limit = some lower := rfl
  have hle : first.steps ≤ lower := Nat.zero_le lower
  refine ⟨fun hnot => ?_, fun limit pc hreached => ?_, fun runs => ?_⟩
  · rcases hrun : first.runFor (lower - first.steps) with ⟨t, outcome⟩
    cases outcome with
    | some outcome =>
      obtain ⟨hfirst, hother⟩ := run_withLimit_of_ended hlimit hle h hcap hrun
      rw [← hsecond, hother, hfirst]
    | none =>
      have hfirst := (run_withLimit_of_cut hlimit hle h hcap hrun).1
      exact absurd (congrArg Prod.snd hfirst) (hnot _ _)
  · rcases hrun : first.runFor (lower - first.steps) with ⟨t, outcome⟩
    cases outcome with
    | some outcome =>
      have hfirst := (run_withLimit_of_ended hlimit hle h hcap hrun).1
      have hne := runFor_ne_limitReached (rest_fits hlimit hle) limit pc
      rw [hfirst] at hreached
      rw [hrun] at hne
      exact absurd hreached hne
    | none =>
      obtain ⟨hfirst, hsteps, hother, htext⟩ := run_withLimit_of_cut hlimit hle h hcap hrun
      rw [hfirst]
      exact ⟨hsteps, hother, htext⟩
  · obtain ⟨hkept, hbelow⟩ := steps_afterRuns_le (s := second) rfl (Nat.zero_le upper) runs
    refine ⟨isSome_run_of_limit hkept hbelow hcap, ?_, hbelow,
      fun hat => run_at_limit hkept hat hcap⟩
    have hrun := steps_run_le hkept hbelow
    omega

/-- A program that puts out zeros for ever, with the limits three and five. -/
theorem limit_only_cuts_short_zeros :
    let image := Image.ofList [902, 600]
    let first := start image (.ofValues []) ⟨true, false, false, some 3⟩
    let second := start image (.ofValues []) ⟨true, false, false, some 5⟩
    (3 ≤ 5 ∧ 5 < capacity) ∧
      first.run.2 = some (.failed (.limitReached 3 1)) ∧ first.run.1.steps = 3 ∧
      second.runFor 3 = (first.run.1.withLimit (some 5), none) ∧
      first.run.1.transcript.text.toList <+: second.run.1.transcript.text.toList ∧
      second.run.2.isSome := by
  intro image first second
  have hle : 3 ≤ 5 := by decide
  have hcap : 5 < capacity := by decide
  obtain ⟨_, hcut, hruns⟩ :=
    limit_only_cuts_short image (.ofValues []) ⟨true, false, false, none⟩ hle hcap
  have hreached : first.run.2 = some (.failed (.limitReached 3 1)) := by
    rw [run_of_limit (s := first) rfl (Nat.zero_le 3) (by decide)]
    decide +kernel
  obtain ⟨hsteps, hpasses, htext⟩ := hcut 3 1 hreached
  exact ⟨⟨hle, hcap⟩, hreached, hsteps, hpasses, htext, (hruns 0).1⟩

end Mailbox.Session
