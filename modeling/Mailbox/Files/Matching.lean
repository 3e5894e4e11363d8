import Mailbox.Files.Pattern
set_option autoImplicit false

/-!
# Matching names

When a name matches the parts of a pattern.  Main statement: the comparison, which never goes back
behind a run of characters once the parts after it have reached the next run, finds a match
whenever there is one.
-/

namespace Mailbox

namespace PatternPart

/-- A part that stands for any run of characters. -/
def isRun : PatternPart → Bool
  | .anyRun | .anyFolders => true
  | .char _ | .anyChar | .oneOf _ | .noneOf _ => false

/-- Whether a part stands for a single character. -/
def accepts : PatternPart → Char → Bool
  | .char d, c => c == d
  | .anyChar, _ => true
  | .oneOf ranges, c => ranges.any (·.contains c)
  | .noneOf ranges, c => !ranges.any (·.contains c)
  | .anyRun, _ | .anyFolders, _ => false

/-- A name matches parts: each part stands for one character of it or, if it is a run, for any
number of them. -/
inductive Matches : List PatternPart → List Char → Prop
  | nil : Matches [] []
  | one {p : PatternPart} {c : Char} {ps : List PatternPart} {cs : List Char} :
      p.accepts c → Matches ps cs → Matches (p :: ps) (c :: cs)
  | stop {p : PatternPart} {ps : List PatternPart} {cs : List Char} :
      p.isRun → Matches ps cs → Matches (p :: ps) cs
  | more {p : PatternPart} {c : Char} {ps : List PatternPart} {cs : List Char} :
      p.isRun → Matches (p :: ps) cs → Matches (p :: ps) (c :: cs)

/-- What comes of comparing parts with a text.  A text is exhausted when it ends before the parts
do; then no shorter end of it matches them either. -/
inductive Verdict where
  | matched
  | differs
  | exhausted
  deriving DecidableEq, Repr

/-- Compares parts with a text. -/
def compare : List PatternPart → List Char → Verdict
  | [], [] => .matched
  | [], _ :: _ => .differs
  | p :: ps, cs =>
    if p.isRun then
      match compare ps cs with
      | .matched => .matched
      | .exhausted => .exhausted
      | .differs =>
        match cs with
        | [] => .exhausted
        | _ :: cs => compare (p :: ps) cs
    else
      match cs with
      | [] => .exhausted
      | c :: cs => if p.accepts c then compare ps cs else .differs
termination_by ps cs => (ps.length, cs.length)

/-- Whether a name matches the parts of a pattern. -/
def matchName (ps : List PatternPart) (cs : List Char) : Bool :=
  compare ps cs = .matched

/-! ## Every match is found -/

theorem not_isRun_of_accepts {p : PatternPart} {c : Char} (h : p.accepts c) :
    p.isRun = false := by
  cases p <;> simp_all [accepts, isRun]

/-- What matches a run and the parts behind it ends with a match of these parts. -/
theorem Matches.exists_suffix {p : PatternPart} {ps : List PatternPart} {cs : List Char}
    (h : Matches (p :: ps) cs) (run : p.isRun) : ∃ ds, ds <:+ cs ∧ Matches ps ds := by
  generalize he : p :: ps = parts at h
  induction h with
  | nil => cases he
  | one accepted _ _ =>
    cases he
    rw [not_isRun_of_accepts accepted] at run
    cases run
  | stop _ rest _ =>
    cases he
    exact ⟨_, List.suffix_refl _, rest⟩
  | more _ _ ih =>
    obtain ⟨ds, hs, hm⟩ := ih he
    exact ⟨ds, hs.trans (List.suffix_cons _ _), hm⟩

/-- A part for one character takes the first character. -/
theorem Matches.cons_of_not_isRun {p : PatternPart} {ps : List PatternPart} {cs : List Char}
    (h : Matches (p :: ps) cs) (single : p.isRun = false) :
    ∃ c ds, cs = c :: ds ∧ p.accepts c ∧ Matches ps ds := by
  cases h with
  | one accepted rest => exact ⟨_, _, rfl, accepted, rest⟩
  | stop run _ => rw [single] at run; cases run
  | more run _ => rw [single] at run; cases run

/-- What each verdict says. -/
def Verdict.Holds (ps : List PatternPart) (cs : List Char) : Verdict → Prop
  | .matched => Matches ps cs
  | .differs => ¬ Matches ps cs
  | .exhausted => ∀ ds, ds <:+ cs → ¬ Matches ps ds

theorem holds_compare (ps : List PatternPart) (cs : List Char) :
    (compare ps cs).Holds ps cs := by
  fun_induction compare ps cs with
  | case1 => exact .nil
  | case2 => intro h; cases h
  | case3 p ps cs run found ih =>
    rw [found] at ih
    exact .stop run ih
  | case4 p ps cs run found ih =>
    rw [found] at ih
    intro ds hs hm
    obtain ⟨es, hes, hm⟩ := hm.exists_suffix run
    exact ih es (hes.trans hs) hm
  | case5 p ps run found ih =>
    rw [found] at ih
    intro ds hs hm
    obtain ⟨es, hes, hm⟩ := hm.exists_suffix run
    rw [List.suffix_nil.1 (hes.trans hs)] at hm
    exact ih hm
  | case6 p ps run c cs found ih ih' =>
    rw [found] at ih
    have differs (h : ¬ Matches (p :: ps) cs) : ¬ Matches (p :: ps) (c :: cs) := by
      intro hm
      cases hm with
      | one accepted _ => rw [not_isRun_of_accepts accepted] at run; cases run
      | stop _ rest => exact ih rest
      | more _ rest => exact h rest
    revert ih'
    cases compare (p :: ps) cs with
    | matched => exact .more run
    | differs => exact differs
    | exhausted =>
      intro absent ds hs
      rcases List.suffix_cons_iff.1 hs with rfl | hs
      · exact differs (absent cs (List.suffix_refl _))
      · exact absent ds hs
  | case7 p ps single =>
    intro ds hs hm
    obtain ⟨c, es, rfl, -, -⟩ := hm.cons_of_not_isRun (Bool.eq_false_iff.2 single)
    exact absurd (List.suffix_nil.1 hs) (by simp)
  | case8 p ps single c cs accepted ih =>
    have single := Bool.eq_false_iff.2 single
    revert ih
    cases compare ps cs with
    | matched => exact .one accepted
    | differs =>
      intro absent hm
      obtain ⟨d, es, he, -, hm⟩ := hm.cons_of_not_isRun single
      cases he
      exact absent hm
    | exhausted =>
      intro absent ds hs hm
      obtain ⟨d, es, rfl, -, rest⟩ := hm.cons_of_not_isRun single
      rcases List.suffix_cons_iff.1 hs with he | hs
      · cases he
        exact absent _ (List.suffix_refl _) rest
      · exact absent es ((List.suffix_cons _ _).trans hs) rest
  | case9 p ps single c cs refused =>
    intro hm
    obtain ⟨d, es, he, accepted, -⟩ := hm.cons_of_not_isRun (Bool.eq_false_iff.2 single)
    cases he
    exact refused accepted

theorem matchName_iff (ps : List PatternPart) (cs : List Char) :
    matchName ps cs = true ↔ Matches ps cs := by
  have h := holds_compare ps cs
  unfold matchName
  revert h
  cases compare ps cs with
  | matched => simp [Verdict.Holds]
  | differs => simp [Verdict.Holds]
  | exhausted =>
    intro absent
    simpa using absent cs (List.suffix_refl _)

end PatternPart

/-- A piece of a path pattern. -/
inductive PatternPiece where
  | literal (name : String)
  | wildcard (parts : List PatternPart)
  | anyFolders
  deriving DecidableEq, Repr

namespace PatternPiece

/-- The name that parts stand for, if there is just one. -/
def literal? : List PatternPart → Option (List Char)
  | [] => some []
  | .char c :: ps => (literal? ps).map (c :: ·)
  | _ :: _ => none

/-- The piece with given parts. -/
def ofParts (parts : List PatternPart) : PatternPiece :=
  if parts = [.anyFolders] then .anyFolders
  else
    match literal? parts with
    | some name => .literal (String.ofList name)
    | none => .wildcard parts

/-- Whether a piece matches a name in a folder. -/
def matchName : PatternPiece → String → Bool
  | .literal name, s => name == s
  | .wildcard parts, s => PatternPart.matchName parts s.toList
  | .anyFolders, _ => true

end PatternPiece

end Mailbox
