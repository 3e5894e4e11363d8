import Mailbox.Text.Numeral
import Mailbox.Text.Space
set_option autoImplicit false

/-!
# Settings

What the environment says about runs: whether to keep a trace, and a limit on the number of steps.
The settings are filled in once and can be read afterwards only.

Normative source: SPEC_FULL.md, section A4.

Scope: the settings of one thread.
-/

namespace Mailbox

/-- The settings for all runs. -/
structure Settings where
  tracing : Bool
  limit : Option Nat
  deriving DecidableEq, Repr, Inhabited

namespace Settings

/-- The limit that a text stands for: a numeral of a positive count, with white space around it.
Any other text stands for no limit. -/
def limitOfText? (s : String) : Option Nat :=
  (Text.readCount? (Text.trimList s.toList)).filter (0 < ·)

/-- The settings of the two texts in the environment, where they are set. -/
def ofTexts (tracing limit : Option String) : Settings where
  tracing := tracing == some "1"
  limit := limit.bind limitOfText?

/-- Why settings cannot be filled in or read. -/
inductive Fault where
  | unset
  | alreadySet
  deriving DecidableEq, Repr

/-- The fault in words. -/
def Fault.message : Fault → String
  | .unset => "tried to access environment state before initialization"
  | .alreadySet => "tried to initialize environment state multiple times"

/-- Fills in settings where there are none. -/
def fillIn (slot : Option Settings) (settings : Settings) : Except Fault (Option Settings) :=
  match slot with
  | none => .ok (some settings)
  | some _ => .error .alreadySet

/-- Fills in the same settings a number of times. -/
def fillInTimes (settings : Settings) (slot : Option Settings) :
    (times : Nat) → Except Fault (Option Settings)
  | 0 => .ok slot
  | times + 1 => do fillInTimes settings (← fillIn slot settings) times

/-- Reads settings that were filled in. -/
def get (slot : Option Settings) : Except Fault Settings :=
  match slot with
  | some settings => .ok settings
  | none => .error .unset

theorem fillIn_eq_ok_iff {slot after : Option Settings} {settings : Settings} :
    fillIn slot settings = .ok after ↔ slot = none ∧ after = some settings := by
  cases slot <;> simp [fillIn, eq_comm]

/-- Settings are read back as they were filled in.  They cannot be read before, nor be filled in a
second time. -/
theorem get_fillInTimes (settings : Settings) (times : Nat) :
    (fillInTimes settings none times).bind get =
      match times with
      | 0 => .error .unset
      | 1 => .ok settings
      | _ + 2 => .error .alreadySet := by
  match times with
  | 0 => rfl
  | 1 =>
    have hfill : fillIn none settings = .ok (some settings) := fillIn_eq_ok_iff.2 ⟨rfl, rfl⟩
    rw [fillInTimes, hfill]
    rfl
  | times + 2 => rfl

end Settings

end Mailbox
