import Mailbox.Assembly.SymbolTable
set_option autoImplicit false

/-!
# What can be wrong with statements

Statements that can be read may still be at fault, in three ways that are looked for one after the
other: in their places, in the labels they refer to, and in their operands.  This module says what
each kind of fault is, without regard to how it is found.  `First` picks out the fault that counts.

Normative source: SPEC_FULL.md, sections 4.1, 4.2, 4.3 and 7.
-/

namespace Mailbox

/-- Statement `n` carries a label. -/
def Statement.Defines (ss : List Statement) (n : Nat) (name : String) : Prop :=
  ∃ s label, ss[n]? = some s ∧ s.label = some label ∧ label.name = name

/-! ## Labels of statements -/

section Labels

open Statement

variable {before rest : List Statement} {n : Nat} {name : String}

theorem Statement.Defines.lt {ss : List Statement} (h : Defines ss n name) : n < ss.length := by
  obtain ⟨s, _, hs, _⟩ := h
  exact (List.getElem?_eq_some_iff.1 hs).1

theorem Statement.defines_append_of_lt (h : n < before.length) :
    Defines (before ++ rest) n name ↔ Defines before n name := by
  unfold Defines
  rw [List.getElem?_append_left h]

theorem Statement.not_defines_nil : ¬ Defines [] n name := by
  intro h
  obtain ⟨s, _, hs, _⟩ := h
  exact absurd hs (by simp)

/-- The labels of statements with one more at the end are those of before and the one it carries. -/
theorem Statement.defines_concat_iff {s : Statement} :
    Defines (before ++ [s]) n name ↔
      Defines before n name ∨
        n = before.length ∧ ∃ label, s.label = some label ∧ label.name = name := by
  constructor
  · intro h
    have hn := h.lt
    rw [List.length_append, List.length_singleton] at hn
    rcases Nat.lt_succ_iff_lt_or_eq.1 hn with hlt | rfl
    · exact Or.inl ((defines_append_of_lt hlt).1 h)
    · obtain ⟨t, label, ht, hl, hname⟩ := h
      rw [List.getElem?_concat_length] at ht
      obtain rfl := Option.some.inj ht
      exact Or.inr ⟨rfl, label, hl, hname⟩
  · intro h
    rcases h with h | ⟨rfl, label, hl, hname⟩
    · exact (defines_append_of_lt h.lt).2 h
    · exact ⟨s, label, List.getElem?_concat_length, hl, hname⟩

theorem Statement.defines_concat_of_none {s : Statement} (hs : s.label = none) :
    Defines (before ++ [s]) n name ↔ Defines before n name := by
  simp [defines_concat_iff, hs]

theorem Statement.defines_concat_of_some {s : Statement} {label : Label}
    (hs : s.label = some label) :
    Defines (before ++ [s]) n name ↔
      Defines before n name ∨ n = before.length ∧ name = label.name := by
  simp [defines_concat_iff, hs, eq_comm]

end Labels

namespace Faults

/-! ## The first fault -/

/-- An error of the least number that has one. -/
def First (P : Nat → AssemblyError → Prop) (e : AssemblyError) : Prop :=
  ∃ n, P n e ∧ ∀ m < n, ∀ f, ¬ P m f

/-- No number has an error. -/
def Faultless (P : Nat → AssemblyError → Prop) : Prop :=
  ∀ n e, ¬ P n e

/-- A number has one error at most. -/
def Unambiguous (P : Nat → AssemblyError → Prop) : Prop :=
  ∀ n e f, P n e → P n f → e = f

/-- A result tells of the first fault, or succeeds if there is none. -/
structure ReportsFirst {α : Type} (r : Except AssemblyError α)
    (P : Nat → AssemblyError → Prop) : Prop where
  faultless : ∀ a, r = .ok a → Faultless P
  first : ∀ e, r = .error e → First P e

variable {P : Nat → AssemblyError → Prop}

theorem First.not_faultless {e : AssemblyError} (h : First P e) : ¬ Faultless P := by
  obtain ⟨n, hn, _⟩ := h
  exact fun hall => hall n e hn

theorem First.unique {e f : AssemblyError} (hP : Unambiguous P) (he : First P e)
    (hf : First P f) : e = f := by
  obtain ⟨m, hm, hbefore⟩ := he
  obtain ⟨n, hn, hbefore'⟩ := hf
  rcases Nat.lt_trichotomy m n with hlt | rfl | hlt
  · exact absurd hm (hbefore' m hlt e)
  · exact hP m e f hm hn
  · exact absurd hn (hbefore n hlt f)

/-! ## Faults of single statements -/

/-- Statement `n` has an error. -/
def At (ss : List Statement) (Q : Statement → AssemblyError → Prop) (n : Nat)
    (e : AssemblyError) : Prop :=
  ∃ s, ss[n]? = some s ∧ Q s e

section Single

variable {ss : List Statement} {Q : Statement → AssemblyError → Prop}

theorem unambiguous_at (hQ : ∀ s e f, Q s e → Q s f → e = f) : Unambiguous (At ss Q) := by
  intro n e f he hf
  obtain ⟨s, hs, he⟩ := he
  obtain ⟨t, ht, hf⟩ := hf
  obtain rfl := Option.some.inj (hs.symm.trans ht)
  exact hQ s e f he hf

theorem faultless_at_iff : Faultless (At ss Q) ↔ ∀ s ∈ ss, ∀ e, ¬ Q s e := by
  constructor
  · intro h s hs e he
    obtain ⟨n, hn⟩ := List.getElem?_of_mem hs
    exact h n e ⟨s, hn, he⟩
  · intro h n e he
    obtain ⟨s, hs, he⟩ := he
    exact h s (List.mem_of_getElem? hs) e he

/-- A search that finds the faults of single statements tells of the first one. -/
theorem first_of_findSome? {find : Statement → Option AssemblyError}
    (hQ : ∀ s ∈ ss, ∀ e, find s = some e ↔ Q s e) {e : AssemblyError}
    (h : ss.findSome? find = some e) : First (At ss Q) e := by
  obtain ⟨before, s, after, rfl, hs, hbefore⟩ := List.findSome?_eq_some_iff.1 h
  refine ⟨before.length, ⟨s, by simp, (hQ s (by simp) e).1 hs⟩, ?_⟩
  intro m hm f hf
  obtain ⟨t, ht, hf⟩ := hf
  rw [List.getElem?_append_left hm] at ht
  have hmem := List.mem_of_getElem? ht
  have hfind := (hQ t (List.mem_append_left _ hmem) f).2 hf
  rw [hbefore t hmem] at hfind
  exact absurd hfind (by simp)

theorem faultless_of_findSome? {find : Statement → Option AssemblyError}
    (hQ : ∀ s ∈ ss, ∀ e, find s = some e ↔ Q s e) (h : ss.findSome? find = none) :
    Faultless (At ss Q) := by
  refine faultless_at_iff.2 fun s hs e he => ?_
  have hfind := (hQ s hs e).2 he
  rw [List.findSome?_eq_none_iff.1 h s hs] at hfind
  exact absurd hfind (by simp)

end Single

/-! ## Kinds of faults -/

/-- What is wrong with the place of statement `n`: there is no mailbox left for it, or an earlier
statement carries its label. -/
inductive Misplaced (ss : List Statement) (n : Nat) : AssemblyError → Prop where
  | overflow {s : Statement} (hs : ss[n]? = some s) (hn : 100 ≤ n) :
      Misplaced ss n ⟨s.line, s.span, .addressOverflow⟩
  | duplicate {s : Statement} {label : Label} {m : Nat} (hs : ss[n]? = some s) (hn : n < 100)
      (hl : s.label = some label) (hm : m < n) (hd : Statement.Defines ss m label.name) :
      Misplaced ss n ⟨s.line, label.span, .duplicateLabel label.name⟩

/-- A statement refers to a label that no statement carries. -/
inductive Dangling (ss : List Statement) (s : Statement) : AssemblyError → Prop where
  | undefined {label : Label} (ho : s.operand = some (.label label))
      (hd : ∀ m, ¬ Statement.Defines ss m label.name) :
      Dangling ss s ⟨s.line, label.span, .undefinedLabel label.name⟩

/-- A statement lacks its operand, or has one that it cannot have.  Only data, whose operand is
optional, takes any literal. -/
inductive Unencodable (s : Statement) : AssemblyError → Prop where
  | required (ha : s.mnemonic.arity = .required) (ho : s.operand = none) :
      Unencodable s ⟨s.line, s.mnemonicSpan, .operandRequired s.mnemonic⟩
  | forbidden {o : Operand} (ha : s.mnemonic.arity = .forbidden) (ho : s.operand = some o) :
      Unencodable s ⟨s.line, o.span, .operandForbidden s.mnemonic⟩
  | outOfRange {value : Word} {span : Span} (ha : s.mnemonic.arity = .required)
      (ho : s.operand = some (.literal value span)) (hv : ¬ (0 ≤ value.val ∧ value.val ≤ 99)) :
      Unencodable s ⟨s.line, span, .operandOutOfRange value⟩

theorem Misplaced.lt {ss : List Statement} {n : Nat} {e : AssemblyError} (h : Misplaced ss n e) :
    n < ss.length := by
  cases h with
  | overflow hs _ => exact (List.getElem?_eq_some_iff.1 hs).1
  | duplicate hs _ _ _ _ => exact (List.getElem?_eq_some_iff.1 hs).1

theorem misplaced_unambiguous (ss : List Statement) : Unambiguous (Misplaced ss) := by
  intro n e f he hf
  cases he with
  | overflow hs hn =>
    cases hf with
    | overflow hs' _ =>
      obtain rfl := Option.some.inj (hs.symm.trans hs')
      rfl
    | duplicate _ hn' _ _ _ => omega
  | duplicate hs hn hl _ _ =>
    cases hf with
    | overflow _ hn' => omega
    | duplicate hs' _ hl' _ _ =>
      obtain rfl := Option.some.inj (hs.symm.trans hs')
      obtain rfl := Option.some.inj (hl.symm.trans hl')
      rfl

theorem Dangling.unique {ss : List Statement} {s : Statement} {e f : AssemblyError}
    (he : Dangling ss s e) (hf : Dangling ss s f) : e = f := by
  obtain ⟨ho, _⟩ := he
  obtain ⟨ho', _⟩ := hf
  obtain rfl := Operand.label.inj (Option.some.inj (ho.symm.trans ho'))
  rfl

theorem dangling_unambiguous (ss : List Statement) : Unambiguous (At ss (Dangling ss)) :=
  unambiguous_at fun _ _ _ he hf => he.unique hf

theorem Unencodable.unique {s : Statement} {e f : AssemblyError} (he : Unencodable s e)
    (hf : Unencodable s f) : e = f := by
  cases he with
  | required ha ho =>
    cases hf with
    | required _ _ => rfl
    | forbidden ha' _ => exact absurd (ha.symm.trans ha') (by simp)
    | outOfRange _ ho' _ => exact absurd (ho.symm.trans ho') (by simp)
  | forbidden ha ho =>
    cases hf with
    | required ha' _ => exact absurd (ha.symm.trans ha') (by simp)
    | forbidden _ ho' =>
      obtain rfl := Option.some.inj (ho.symm.trans ho')
      rfl
    | outOfRange ha' _ _ => exact absurd (ha.symm.trans ha') (by simp)
  | outOfRange ha ho _ =>
    cases hf with
    | required _ ho' => exact absurd (ho.symm.trans ho') (by simp)
    | forbidden ha' _ => exact absurd (ha.symm.trans ha') (by simp)
    | outOfRange _ ho' _ =>
      obtain ⟨rfl, rfl⟩ := Operand.literal.inj (Option.some.inj (ho.symm.trans ho'))
      rfl

theorem unencodable_unambiguous (ss : List Statement) : Unambiguous (At ss Unencodable) :=
  unambiguous_at fun _ _ _ he hf => he.unique hf

end Faults

end Mailbox
