import Mailbox.Proofs.Assembly.Emission
import Mailbox.Proofs.Assembly.Translation
set_option autoImplicit false

/-!
# Names of labels

A label is nothing but a name for an address.  Main statement: resolving and encoding statements
commute with giving every label a new name, as long as different labels get different names, and
statements whose labels resolve have the same image as without labels, when every use of a label is
replaced by its address.

Normative source: SPEC_FULL.md, sections 4.2 and A6.1.
-/

namespace Mailbox

/-- New names for labels, and everything else as it is. -/
def Translation.renaming (r : String ↪ String) : Translation where
  name := r
  line := id
  span := id
  mnemonic := id
  arity_mnemonic _ := rfl
  base?_mnemonic _ := rfl

/-! ## Addresses in place of labels -/

/-- The operand with the address of the label that it refers to in its place. -/
def Operand.inline (table : SymbolTable) : Operand → Operand
  | .literal value span => .literal value span
  | .label l =>
    match table.address? l.name with
    | some n => .literal (.clamp n) l.span
    | none => .label l

/-- The statement without the label it carries, and with the address of the one it refers to in its
place. -/
def Statement.inline (table : SymbolTable) (s : Statement) : Statement :=
  { s with
    label := none
    operand := s.operand.map (Operand.inline table) }

/-- Statements all of whose labels are in a table, with addresses of mailboxes. -/
structure SymbolTable.Resolves (table : SymbolTable) (ss : List Statement) : Prop where
  length_le : ss.length ≤ 100
  address_lt : ∀ name n, table.address? name = some n → n < 100
  defined : ∀ s ∈ ss, table.undefined? s = none

theorem SymbolTable.resolves_of_ofStatements {table : SymbolTable} {ss : List Statement}
    (h : ofStatements ss = .ok table) : table.Resolves ss := by
  rcases ofStatements_cases ss with ⟨symbols, hsymbols, hfits, hlayout, hlabels⟩ | ⟨e, he, _⟩ |
    ⟨e, he, _⟩
  · obtain rfl := Except.ok.inj (hsymbols.symm.trans h)
    have hlen := Image.length_le_of_faultless hlayout
    refine ⟨hlen, fun name n hn => ?_, fun s hs => ?_⟩
    · have hlt := ((hfits.address?_iff name n).1 hn).lt
      omega
    · refine Option.eq_none_iff_forall_ne_some.2 fun e he => ?_
      exact Faults.faultless_at_iff.1 hlabels s hs e ((hfits.undefined?_eq_some_iff s e).1 he)
  · exact absurd (he.symm.trans h) (by simp)
  · exact absurd (he.symm.trans h) (by simp)

theorem SymbolTable.exists_address_of_undefined? {table : SymbolTable} {s : Statement}
    {label : Label} (h : table.undefined? s = none) (ho : s.operand = some (.label label)) :
    ∃ n, table.address? label.name = some n := by
  simp only [undefined?, ho] at h
  split at h
  · exact Option.isSome_iff_exists.1 ‹_›
  · exact absurd h (by simp)

namespace Statement

variable {table : SymbolTable} {s : Statement}

theorem span_inline (o : Operand) : (o.inline table).span = o.span := by
  cases o with
  | literal value span => rfl
  | label l =>
    unfold Operand.inline
    simp only
    split <;> rfl

/-- A literal address is worth the same as a label of this address. -/
theorem operandValue_inline (hlt : ∀ name n, table.address? name = some n → n < 100)
    (h : table.undefined? s = none) :
    (s.inline table).operandValue .empty = s.operandValue table := by
  unfold operandValue inline
  rcases hoperand : s.operand with _ | ⟨value, span⟩ | label
  · rfl
  · rfl
  · obtain ⟨n, haddress⟩ := SymbolTable.exists_address_of_undefined? h hoperand
    have hn := hlt label.name n haddress
    have hword : Word.clamp n = Word.ofBits n := by
      apply Word.ext
      simp only [Word.clamp, Word.ofBits]
      omega
    simp only [Option.map_some, Operand.inline, haddress, hword]

theorem frame_inline : (s.inline table).frame = s.frame := by
  unfold frame inline
  cases s.operand with
  | none => rfl
  | some o => simp only [Option.map_some, span_inline]

theorem encode_inline (hlt : ∀ name n, table.address? name = some n → n < 100)
    (h : table.undefined? s = none) : (s.inline table).encode .empty = s.encode table := by
  rw [encode_eq, encode_eq, operandValue_inline hlt h, frame_inline]

/-- No label is left to be undefined. -/
theorem undefined?_inline (h : table.undefined? s = none) :
    SymbolTable.empty.undefined? (s.inline table) = none := by
  unfold SymbolTable.undefined? inline
  rcases hoperand : s.operand with _ | ⟨value, span⟩ | label
  · rfl
  · rfl
  · obtain ⟨n, haddress⟩ := SymbolTable.exists_address_of_undefined? h hoperand
    simp only [Option.map_some, Operand.inline, haddress]

end Statement

namespace SymbolTable.Resolves

variable {table : SymbolTable} {ss : List Statement}

/-- There is nothing to resolve once all labels are replaced by their addresses. -/
theorem ofStatements_inline (h : table.Resolves ss) :
    ofStatements (ss.map (Statement.inline table)) = .ok .empty := by
  refine ofStatements_of_no_labels (fun s hs => ?_) (fun s hs => ?_) ?_
  · obtain ⟨t, _, rfl⟩ := List.mem_map.1 hs
    rfl
  · obtain ⟨t, ht, rfl⟩ := List.mem_map.1 hs
    exact Statement.undefined?_inline (h.defined t ht)
  · rw [List.length_map]
    exact h.length_le

theorem encodeFrom_inline (h : table.Resolves ss) (image : Image) (n : Nat) :
    Image.encodeFrom .empty image n (ss.map (Statement.inline table)) =
      Image.encodeFrom table image n ss := by
  have hdefined := h.defined
  -- The statements to come are fewer at each step, the table is the same.
  replace h := h.address_lt
  induction ss generalizing image n with
  | nil => rfl
  | cons s ss ih =>
    have hencode := Statement.encode_inline h (hdefined s List.mem_cons_self)
    have hrest (image : Image) (n : Nat) :=
      ih image n fun t ht => hdefined t (List.mem_cons_of_mem s ht)
    simp only [List.map_cons, Image.encodeFrom, hencode, hrest]
    rfl

end SymbolTable.Resolves

/-- Labels are nothing but names for addresses.  Under new names, statements have the same addresses
and the same first label for each, and the same image, or the same error in the same place, which
tells the new name.  Statements whose labels resolve have the same image with addresses in place of
labels, and then they need no table. -/
theorem Statement.labels_are_names (ss : List Statement) (r : String ↪ String) :
    SymbolTable.ofStatements (ss.map (translate (.renaming r))) =
        ((SymbolTable.ofStatements ss).map (SymbolTable.rename r)).mapError
          (AssemblyError.translate (.renaming r)) ∧
      (∀ table : SymbolTable,
        (table.rename r).names = table.names.map r ∧
          (∀ name, (table.rename r).address? (r name) = table.address? name) ∧
          (∀ n, (table.rename r).labelAt? n = (table.labelAt? n).map r) ∧
          Image.ofStatements (table.rename r) (ss.map (translate (.renaming r))) =
            (Image.ofStatements table ss).mapError (AssemblyError.translate (.renaming r))) ∧
      ∀ table, SymbolTable.ofStatements ss = .ok table →
        SymbolTable.ofStatements (ss.map (inline table)) = .ok .empty ∧
          Image.ofStatements .empty (ss.map (inline table)) = Image.ofStatements table ss := by
  refine ⟨SymbolTable.ofStatements_translate (.renaming r) ss, fun table =>
    ⟨table.names_rename r, table.address?_rename r, table.labelAt?_rename r,
      Image.ofStatements_translate (.renaming r) table ss⟩, fun table h => ?_⟩
  have hresolves := SymbolTable.resolves_of_ofStatements h
  exact ⟨hresolves.ofStatements_inline, hresolves.encodeFrom_inline .zero 0⟩

end Mailbox
