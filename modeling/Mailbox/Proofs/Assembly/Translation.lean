import Mailbox.Assembly.Program
import Mailbox.Proofs.Results
import Mathlib.Data.List.Nodup
import Mathlib.Logic.Embedding.Basic
set_option autoImplicit false

/-!
# Translations of statements

The names of labels, the places of statements and the names of operations can be replaced by others
throughout a program.  Main statement: labels that differ keep different names, and operations keep
their words, so the program of translated statements is the same but for the names of its labels, or
it has the translated error.
-/

namespace Mailbox

/-- Other names for labels, other places, and other names for operations. -/
structure Translation where
  name : String ↪ String
  line : Nat → Nat
  span : Span → Span
  mnemonic : Mnemonic → Mnemonic
  arity_mnemonic : ∀ m, (mnemonic m).arity = m.arity
  base?_mnemonic : ∀ m, (mnemonic m).base? = m.base?

/-! ## What is translated -/

def Label.translate (τ : Translation) (label : Label) : Label where
  name := τ.name label.name
  span := τ.span label.span

def Operand.translate (τ : Translation) : Operand → Operand
  | .literal value span => .literal value (τ.span span)
  | .label l => .label (l.translate τ)

def Statement.translate (τ : Translation) (s : Statement) : Statement where
  label := s.label.map (Label.translate τ)
  mnemonic := τ.mnemonic s.mnemonic
  mnemonicSpan := τ.span s.mnemonicSpan
  operand := s.operand.map (Operand.translate τ)
  line := τ.line s.line
  span := τ.span s.span

/-- Faults in the form of a line are quotations from the source, which are not translated. -/
def AssemblyFault.translate (τ : Translation) : AssemblyFault → AssemblyFault
  | .duplicateLabel name => .duplicateLabel (τ.name name)
  | .undefinedLabel name => .undefinedLabel (τ.name name)
  | .operandRequired mnemonic => .operandRequired (τ.mnemonic mnemonic)
  | .operandForbidden mnemonic => .operandForbidden (τ.mnemonic mnemonic)
  | fault => fault

def AssemblyError.translate (τ : Translation) (e : AssemblyError) : AssemblyError where
  line := τ.line e.line
  span := τ.span e.span
  fault := e.fault.translate τ

/-- The table with the same addresses in the same order under other names. -/
def SymbolTable.rename (r : String ↪ String) (table : SymbolTable) : SymbolTable where
  entries := table.entries.map (Prod.map r id)
  nodup := by
    have hnames : (table.entries.map (Prod.map r id)).map Prod.fst =
        (table.entries.map Prod.fst).map r := by
      rw [List.map_map, List.map_map]
      rfl
    rw [hnames]
    exact List.Nodup.map r.injective table.nodup

/-- The same program under other names for its labels. -/
def Program.rename (r : String ↪ String) (p : Program) : Program :=
  { p with symbols := p.symbols.rename r }

/-! ## Tables under other names -/

namespace SymbolTable

variable (r : String ↪ String) (table : SymbolTable)

theorem rename_empty : empty.rename r = empty := rfl

theorem names_rename : (table.rename r).names = table.names.map r := by
  rw [names, names, rename, List.map_map, List.map_map]
  rfl

theorem mem_names_rename (name : String) : r name ∈ (table.rename r).names ↔ name ∈ table.names := by
  rw [names_rename]
  exact List.mem_map_of_injective r.injective

theorem lookup_map_rename (entries : List (String × Nat)) (name : String) :
    (entries.map (Prod.map r id)).lookup (r name) = entries.lookup name := by
  induction entries with
  | nil => rfl
  | cons entry entries ih =>
    rw [List.map_cons, List.lookup_cons, List.lookup_cons, ih]
    simp only [Prod.map_fst, Prod.map_snd, id_eq, r.injective.beq_eq]

/-- A label has the address under its new name that it had under the old one. -/
theorem address?_rename (name : String) :
    (table.rename r).address? (r name) = table.address? name :=
  lookup_map_rename r table.entries name

/-- The first label of an address stays the first one. -/
theorem labelAt?_rename (n : Nat) : (table.rename r).labelAt? n = (table.labelAt? n).map r := by
  unfold labelAt? rename
  rw [List.find?_map, Option.map_map, Option.map_map]
  rfl

theorem insert?_rename (name : String) (n : Nat) :
    (table.rename r).insert? (r name) n = (table.insert? name n).map (rename r) := by
  unfold insert?
  simp only [mem_names_rename]
  split
  · rfl
  · simp [rename]

/-! ## Resolving labels -/

variable (τ : Translation)

/-- Which labels are the same is all that matters for entering them. -/
theorem define_translate (n : Nat) (ss : List Statement) :
    define (table.rename τ.name) n (ss.map (Statement.translate τ)) =
      ((define table n ss).map (rename τ.name)).mapError (AssemblyError.translate τ) := by
  induction ss generalizing table n with
  | nil => rfl
  | cons s ss ih =>
    simp only [List.map_cons, define]
    by_cases hn : n < 100
    · rw [if_pos hn, if_pos hn]
      cases hl : s.label with
      | none =>
        simp only [Statement.translate, hl, Option.map_none]
        exact ih table (n + 1)
      | some label =>
        simp only [Statement.translate, hl, Option.map_some, Label.translate, insert?_rename]
        cases table.insert? label.name n with
        | none => rfl
        | some larger => exact ih larger (n + 1)
    · rw [if_neg hn, if_neg hn]
      rfl

theorem undefined?_translate (s : Statement) :
    (table.rename τ.name).undefined? (s.translate τ) =
      (table.undefined? s).map (AssemblyError.translate τ) := by
  unfold undefined? Statement.translate
  rcases s.operand with _ | ⟨value, span⟩ | label
  · rfl
  · rfl
  · simp only [Option.map_some, Operand.translate, Label.translate, address?_rename]
    split <;> rfl

/-- The labels of translated statements are the labels under their new names. -/
theorem ofStatements_translate (ss : List Statement) :
    ofStatements (ss.map (Statement.translate τ)) =
      ((ofStatements ss).map (rename τ.name)).mapError (AssemblyError.translate τ) := by
  have hdefine := define_translate empty τ 0 ss
  rw [rename_empty] at hdefine
  unfold ofStatements
  rw [hdefine]
  cases define empty 0 ss with
  | error e => rfl
  | ok table =>
    have hundefined :
        (ss.map (Statement.translate τ)).findSome? (table.rename τ.name).undefined? =
          (ss.findSome? table.undefined?).map (AssemblyError.translate τ) := by
      rw [List.findSome?_map, List.map_findSome?]
      exact congrArg (List.findSome? · ss) (funext (undefined?_translate table τ))
    simp only [Except.map, Except.mapError, bind, Except.bind, hundefined]
    cases ss.findSome? table.undefined? <;> rfl

end SymbolTable

/-! ## Encoding -/

/-- What is left of a statement without its label and without the value of its operand. -/
structure Frame where
  mnemonic : Mnemonic
  mnemonicSpan : Span
  operandSpan? : Option Span
  line : Nat
  span : Span

namespace Frame

/-- The error of a frame that lacks a required operand or has a forbidden one. -/
def arityError? (f : Frame) : Option AssemblyError :=
  match f.mnemonic.arity, f.operandSpan? with
  | .required, none => some ⟨f.line, f.mnemonicSpan, .operandRequired f.mnemonic⟩
  | .forbidden, some span => some ⟨f.line, span, .operandForbidden f.mnemonic⟩
  | _, _ => none

/-- The word of a frame with the value of the operand in it. -/
def wordOf (f : Frame) (value : Option Word) : Except AssemblyError Word :=
  match f.arityError? with
  | some e => .error e
  | none =>
    match f.mnemonic.base?, value with
    | none, value => .ok (value.getD 0)
    | some base, none => .ok base
    | some base, some value =>
      if 0 ≤ value.val ∧ value.val < 100 then .ok (base + value)
      else .error ⟨f.line, f.operandSpan?.getD f.span, .operandOutOfRange value⟩

def translate (τ : Translation) (f : Frame) : Frame where
  mnemonic := τ.mnemonic f.mnemonic
  mnemonicSpan := τ.span f.mnemonicSpan
  operandSpan? := f.operandSpan?.map τ.span
  line := τ.line f.line
  span := τ.span f.span

variable (τ : Translation) (f : Frame)

theorem arityError?_translate :
    (f.translate τ).arityError? = f.arityError?.map (AssemblyError.translate τ) := by
  unfold arityError? translate
  simp only [τ.arity_mnemonic]
  cases f.mnemonic.arity <;> cases f.operandSpan? <;> rfl

theorem wordOf_translate (value : Option Word) :
    (f.translate τ).wordOf value = (f.wordOf value).mapError (AssemblyError.translate τ) := by
  unfold wordOf
  rw [arityError?_translate]
  cases f.arityError? with
  | some e => rfl
  | none =>
    have hbase : (f.translate τ).mnemonic.base? = f.mnemonic.base? := τ.base?_mnemonic f.mnemonic
    have hspan : (f.translate τ).operandSpan?.getD (f.translate τ).span =
        τ.span (f.operandSpan?.getD f.span) := Option.getD_map τ.span f.span f.operandSpan?
    simp only [Option.map_none, hbase, hspan]
    rcases f.mnemonic.base? with _ | base <;> rcases value with _ | value
    · rfl
    · rfl
    · rfl
    · simp only
      split <;> rfl

end Frame

namespace Statement

/-- The frame of a statement. -/
def frame (s : Statement) : Frame where
  mnemonic := s.mnemonic
  mnemonicSpan := s.mnemonicSpan
  operandSpan? := s.operand.map Operand.span
  line := s.line
  span := s.span

theorem arityError?_eq (s : Statement) : s.arityError? = s.frame.arityError? := by
  unfold arityError? Frame.arityError? frame
  cases s.mnemonic.arity <;> cases s.operand <;> rfl

/-- The value of the operand and the frame are all that matters for the word of a statement. -/
theorem encode_eq (s : Statement) (table : SymbolTable) :
    s.encode table = s.operandValue table >>= s.frame.wordOf := by
  unfold encode
  rw [arityError?_eq]
  rfl

variable (τ : Translation) (s : Statement) (table : SymbolTable)

theorem frame_translate : (s.translate τ).frame = s.frame.translate τ := by
  unfold frame translate Frame.translate
  rcases s.operand with _ | ⟨value, span⟩ | label <;> rfl

theorem operandValue_translate :
    (s.translate τ).operandValue (table.rename τ.name) =
      (s.operandValue table).mapError (AssemblyError.translate τ) := by
  unfold operandValue translate
  rcases s.operand with _ | ⟨value, span⟩ | label
  · rfl
  · rfl
  · simp only [Option.map_some, Operand.translate, Label.translate, SymbolTable.address?_rename]
    cases table.address? label.name <;> rfl

/-- A translated statement has the same word. -/
theorem encode_translate :
    (s.translate τ).encode (table.rename τ.name) =
      (s.encode table).mapError (AssemblyError.translate τ) := by
  rw [encode_eq, encode_eq, mapError_bind, operandValue_translate, frame_translate]
  exact bind_congr fun value => Frame.wordOf_translate τ s.frame value

end Statement

namespace Image

variable (τ : Translation) (table : SymbolTable)

theorem encodeFrom_translate (image : Image) (n : Nat) (ss : List Statement) :
    encodeFrom (table.rename τ.name) image n (ss.map (Statement.translate τ)) =
      (encodeFrom table image n ss).mapError (AssemblyError.translate τ) := by
  induction ss generalizing image n with
  | nil => rfl
  | cons s ss ih =>
    simp only [List.map_cons, encodeFrom]
    by_cases hn : n < 100
    · rw [dif_pos hn, dif_pos hn, mapError_bind, Statement.encode_translate]
      simp only [ih]
    · rw [dif_neg hn, dif_neg hn]
      rfl

/-- Translated statements have the same image. -/
theorem ofStatements_translate (ss : List Statement) :
    ofStatements (table.rename τ.name) (ss.map (Statement.translate τ)) =
      (ofStatements table ss).mapError (AssemblyError.translate τ) :=
  encodeFrom_translate τ table zero 0 ss

end Image

/-- Translated statements make the same program under other names, or they have the translated
error. -/
theorem Program.ofStatements_translate (τ : Translation) (ss : List Statement) :
    ofStatements (ss.map (Statement.translate τ)) =
      ((ofStatements ss).map (rename τ.name)).mapError (AssemblyError.translate τ) := by
  unfold ofStatements
  rw [SymbolTable.ofStatements_translate, List.length_map]
  cases SymbolTable.ofStatements ss with
  | error e => rfl
  | ok table =>
    simp only [Except.map, Except.mapError, bind, Except.bind, Image.ofStatements_translate]
    cases Image.ofStatements table ss <;> rfl

end Mailbox
