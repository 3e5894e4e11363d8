set_option autoImplicit false

/-!
# Name patterns

Patterns for names.  A question mark stands for any character, a star for any run of characters,
and brackets for one character of a class, or outside the class if it starts with an exclamation
mark.  Two stars stand for any number of folders; they have to be a whole piece of a path.

Normative source: SPEC_FULL.md, section A4 (`check` accepts patterns).  What the wildcards mean is
the common convention for names of files.
-/

namespace Mailbox

/-- What is wrong with the text of a pattern. -/
inductive PatternFault where
  | tooManyStars (position : Nat)
  | starsInsidePiece (position : Nat)
  | unclosedClass (position : Nat)
  deriving DecidableEq, Repr

/-- The fault in words. -/
def PatternFault.message : PatternFault → String
  | .tooManyStars position =>
    s!"Pattern syntax error near position {position}: wildcards are either regular `*` or recursive `**`"
  | .starsInsidePiece position =>
    s!"Pattern syntax error near position {position}: recursive wildcards must form a single path component"
  | .unclosedClass position =>
    s!"Pattern syntax error near position {position}: invalid range pattern"

/-- The characters from one to another, both included. -/
structure CharInterval where
  first : Char
  last : Char
  deriving DecidableEq, Repr

/-- Whether a character lies in an interval. -/
def CharInterval.contains (r : CharInterval) (c : Char) : Bool :=
  r.first ≤ c && c ≤ r.last

/-- A part of a pattern. -/
inductive PatternPart where
  | char (c : Char)
  | anyChar
  | oneOf (ranges : List CharInterval)
  | noneOf (ranges : List CharInterval)
  | anyRun
  | anyFolders
  deriving DecidableEq, Repr

namespace PatternPart

/-- The intervals that the text between brackets stands for. -/
def intervals : List Char → List CharInterval
  | a :: '-' :: b :: cs => ⟨a, b⟩ :: intervals cs
  | a :: cs => ⟨a, a⟩ :: intervals cs
  | [] => []

/-- Cuts text behind an opening bracket at the closing one.  The class has at least one
character, so a closing bracket in its first place belongs to it. -/
def closeClass? : List Char → Option (List Char × List Char)
  | [] => none
  | first :: cs =>
    match cs.dropWhile (· != ']') with
    | [] => none
    | _ :: rest => some (first :: cs.takeWhile (· != ']'), rest)

theorem length_lt_of_closeClass? {cs inner rest : List Char}
    (h : closeClass? cs = some (inner, rest)) : rest.length < cs.length := by
  cases cs with
  | nil => simp [closeClass?] at h
  | cons first cs =>
    have hs := (List.dropWhile_suffix (l := cs) (· != ']')).length_le
    simp only [closeClass?] at h
    split at h
    · cases h
    · next heq =>
      simp only [Option.some.injEq, Prod.mk.injEq] at h
      obtain ⟨-, rfl⟩ := h
      rw [heq] at hs
      simp only [List.length_cons] at hs ⊢
      omega

/-- Reads the parts of a pattern, from a position with a character before it. -/
def readFrom (position : Nat) (before : Option Char) :
    List Char → Except PatternFault (List PatternPart)
  | [] => .ok []
  | '?' :: cs => do return .anyChar :: (← readFrom (position + 1) (some '?') cs)
  | '*' :: '*' :: '*' :: _ => .error (.tooManyStars (position + 2))
  | '*' :: '*' :: cs =>
    if before == none || before == some '/' then
      match cs with
      | [] => .ok [.anyFolders]
      | c :: cs =>
        if c = '/' then do return .anyFolders :: (← readFrom (position + 3) (some '/') cs)
        else .error (.starsInsidePiece (position + 2))
    else .error (.starsInsidePiece (position - 1))
  | '*' :: cs => do return .anyRun :: (← readFrom (position + 1) (some '*') cs)
  | '[' :: '!' :: cs =>
    match h : closeClass? cs with
    | some (inner, rest) => do
      let next := position + 3 + inner.length
      return .noneOf (intervals inner) :: (← readFrom next (some ']') rest)
    | none => .error (.unclosedClass position)
  | '[' :: cs =>
    match h : closeClass? cs with
    | some (inner, rest) => do
      let next := position + 2 + inner.length
      return .oneOf (intervals inner) :: (← readFrom next (some ']') rest)
    | none => .error (.unclosedClass position)
  | c :: cs => do return .char c :: (← readFrom (position + 1) (some c) cs)
termination_by cs => cs.length
decreasing_by
  all_goals simp only [List.length_cons]
  case _ => omega
  case _ => omega
  case _ => omega
  case _ => have := length_lt_of_closeClass? h; omega
  case _ => have := length_lt_of_closeClass? h; omega
  case _ => omega

/-- Reads the parts of a pattern. -/
def read (cs : List Char) : Except PatternFault (List PatternPart) :=
  readFrom 0 none cs

end PatternPart

end Mailbox
