import Mailbox.Machine.Status
import Mailbox.Text.Column
import Mailbox.Word
set_option autoImplicit false

/-!
# Transcripts

The text that a run writes.  A number has a line of its own, and so have the host's own lines:
banners, and echoes of the values it was given.  Characters follow each other on one line.  An
item that needs its own line first ends the line that characters have left open.

Normative source: SPEC_FULL.md, sections A3 and A6.8.

Scope: whether text is coloured is given from the start, and so are the codes of the colours.
-/

namespace Mailbox

/-- A colour of banners, as the terminal sequence that switches to it. -/
structure Tint where
  code : String
  deriving DecidableEq, Repr

namespace Tint

def cyan : Tint := ⟨"\x1b[36m"⟩

def red : Tint := ⟨"\x1b[31m"⟩

/-- The terminal sequence that switches colours off. -/
def reset : String := "\x1b[0m"

/-- A text with something more behind each sequence in it that switches colours off. -/
def renew (code : List Char) : List Char → List Char
  | '\x1b' :: '[' :: '0' :: 'm' :: cs => '\x1b' :: '[' :: '0' :: 'm' :: (code ++ renew code cs)
  | c :: cs => c :: renew code cs
  | [] => []

/-- A text that stays in the colour to its end, also where it switches colours off. -/
def kept (tint : Tint) (s : String) : String :=
  String.ofList (renew tint.code.toList s.toList)

theorem renew_eq_self {code cs : List Char} (h : '\x1b' ∉ cs) : renew code cs = cs := by
  induction cs with
  | nil => rfl
  | cons c cs ih =>
    rw [renew, ih (List.not_mem_of_not_mem_cons h)]
    rintro - rfl
    exact absurd rfl (List.ne_of_not_mem_cons h)

/-- A text without terminal sequences stays as it is. -/
theorem kept_eq_self (tint : Tint) {s : String} (h : '\x1b' ∉ s.toList) : tint.kept s = s := by
  rw [kept, renew_eq_self h, String.ofList_toList]

example : red.kept "a\x1b[0mb" = "a\x1b[0m\x1b[31mb" := by decide +kernel

end Tint

/-- Something that is written during a run. -/
inductive Item where
  | number (value : Word)
  | char (c : Char)
  | echo (value : String)
  | banner (text : String) (tint : Tint)
  deriving DecidableEq, Repr

/-- The banner of a status that hands control back to the host. -/
def Status.banner? : Status → Option Item
  | .halted => some (.banner "Halted" Tint.cyan)
  | .awaitingNumber => some (.banner "Awaiting input" Tint.cyan)
  | .awaitingChar => some (.banner "Awaiting char input" Tint.cyan)
  | s@(.endOfMemory) | s@(.invalidInstruction) => s.faultText?.map (.banner · Tint.red)
  | .running | .producedNumber | .producedChar => none

/-- The text of a run so far.  A minimal transcript leaves out echoes and banners. -/
structure Transcript where
  minimal : Bool
  colored : Bool
  text : String
  lineOpen : Bool
  deriving DecidableEq, Repr

namespace Transcript

/-- The transcript with nothing written. -/
def blank (minimal colored : Bool) : Transcript := ⟨minimal, colored, "", false⟩

instance : Inhabited Transcript := ⟨blank true false⟩

/-- Writes a line of its own. -/
def line (t : Transcript) (s : String) : Transcript :=
  { t with
    text := (if t.lineOpen then t.text.push '\n' else t.text) ++ s ++ "\n"
    lineOpen := false }

/-- The text of a banner, set to the right of a column.  Colours enclose the column. -/
def bannerText (t : Transcript) (s : String) (tint : Tint) : String :=
  if t.colored then tint.code ++ Text.alignRight 12 (tint.kept s) ++ Tint.reset
  else Text.alignRight 12 s

/-- Writes an item. -/
def write (t : Transcript) : Item → Transcript
  | .number value => t.line value.decimal
  | .char c => { t with text := t.text.push c, lineOpen := c != '\n' }
  | .echo value => if t.minimal then t else t.line ("> " ++ value)
  | .banner s tint => if t.minimal then t else t.line (t.bannerText s tint)

/-- Writes the banner of a status, if it has one. -/
def writeStatus (t : Transcript) (s : Status) : Transcript :=
  match s.banner? with
  | some item => t.write item
  | none => t

/-- Writes items in order. -/
def writeAll (t : Transcript) (items : List Item) : Transcript :=
  items.foldl write t

/-- The transcript after its text was handed on. -/
def handOn (t : Transcript) : Transcript := { t with text := "" }

@[simp] theorem writeAll_nil (t : Transcript) : t.writeAll [] = t := rfl

@[simp] theorem writeAll_cons (t : Transcript) (item : Item) (items : List Item) :
    t.writeAll (item :: items) = (t.write item).writeAll items := rfl

theorem writeAll_append (t : Transcript) (items more : List Item) :
    t.writeAll (items ++ more) = (t.writeAll items).writeAll more := by
  simp [writeAll]

@[simp] theorem minimal_line (t : Transcript) (s : String) : (t.line s).minimal = t.minimal := rfl

@[simp] theorem minimal_write (t : Transcript) (item : Item) :
    (t.write item).minimal = t.minimal := by
  cases item <;> simp only [write] <;> try split
  all_goals rfl

end Transcript

end Mailbox
