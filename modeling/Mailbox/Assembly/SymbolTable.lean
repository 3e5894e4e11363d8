import Mailbox.Assembly.Statement
set_option autoImplicit false

/-!
# Symbol tables

The addresses of labels, in order of definition.  A label is defined once; an address may have
several labels, of which the first is the one shown for it.

Normative source: SPEC_FULL.md, section 4.2.
-/

namespace Mailbox

/-- Labels with their addresses. -/
structure SymbolTable where
  entries : List (String × Nat)
  nodup : (entries.map Prod.fst).Nodup
  deriving DecidableEq, Repr

namespace SymbolTable

/-- The table without labels. -/
def empty : SymbolTable := ⟨[], List.nodup_nil⟩

instance : Inhabited SymbolTable := ⟨empty⟩

/-- The labels in order of definition. -/
def names (table : SymbolTable) : List String :=
  table.entries.map Prod.fst

/-- The table with one more label at its end, unless the label is there already. -/
def insert? (table : SymbolTable) (name : String) (n : Nat) : Option SymbolTable :=
  if h : name ∈ table.names then none
  else some
    { entries := table.entries ++ [(name, n)]
      nodup := by
        rw [List.map_append, List.nodup_append]
        refine ⟨table.nodup, by simp, ?_⟩
        intro a ha b hb hab
        simp only [List.map_cons, List.map_nil, List.mem_singleton] at hb
        subst hb hab
        exact h ha }

/-- The table with one more label; a label that is there already keeps its address. -/
def insert (table : SymbolTable) (name : String) (n : Nat) : SymbolTable :=
  (table.insert? name n).getD table

/-- The table of pairs, entered in order. -/
def ofList (pairs : List (String × Nat)) : SymbolTable :=
  pairs.foldl (fun table p => table.insert p.1 p.2) empty

/-- The address of a label. -/
def address? (table : SymbolTable) (name : String) : Option Nat :=
  table.entries.lookup name

/-- The first label defined for an address. -/
def labelAt? (table : SymbolTable) (n : Nat) : Option String :=
  (table.entries.find? fun p => p.2 == n).map Prod.fst

@[simp] theorem address?_empty (name : String) : empty.address? name = none := rfl

@[simp] theorem labelAt?_empty (n : Nat) : empty.labelAt? n = none := rfl

theorem address?_eq_none_iff (table : SymbolTable) (name : String) :
    table.address? name = none ↔ name ∉ table.names := by
  simp [address?, names, List.lookup_eq_none_iff]
  grind

theorem address?_insert? {table larger : SymbolTable} {name : String} {n : Nat}
    (h : table.insert? name n = some larger) (other : String) :
    larger.address? other = if other = name then some n else table.address? other := by
  unfold insert? at h
  split at h
  · simp at h
  · rename_i absent
    rw [← address?_eq_none_iff] at absent
    obtain rfl := Option.some.inj h
    simp only [address?, List.lookup_append] at absent ⊢
    grind

theorem labelAt?_insert? {table larger : SymbolTable} {name : String} {n : Nat}
    (h : table.insert? name n = some larger) (m : Nat) :
    larger.labelAt? m = (table.labelAt? m).or (if m = n then some name else none) := by
  unfold insert? at h
  split at h
  · simp at h
  · obtain rfl := Option.some.inj h
    simp only [labelAt?, List.find?_append]
    grind

/-! ## Resolving the labels of statements -/

/-- Gives statements the addresses from `n` on and enters their labels. -/
def define (table : SymbolTable) (n : Nat) :
    List Statement → Except AssemblyError SymbolTable
  | [] => .ok table
  | s :: ss =>
    if n < 100 then
      match s.label with
      | none => define table (n + 1) ss
      | some label =>
        match table.insert? label.name n with
        | some table => define table (n + 1) ss
        | none => .error ⟨s.line, label.span, .duplicateLabel label.name⟩
    else .error ⟨s.line, s.span, .addressOverflow⟩

/-- The error of a statement whose operand is a label that is not in the table. -/
def undefined? (table : SymbolTable) (s : Statement) : Option AssemblyError :=
  match s.operand with
  | some (.label label) =>
    if (table.address? label.name).isSome then none
    else some ⟨s.line, label.span, .undefinedLabel label.name⟩
  | some (.literal _ _) => none
  | none => none

/-- The labels of a program.  Every statement takes the next address, and every label used as an
operand has to be defined somewhere. -/
def ofStatements (ss : List Statement) : Except AssemblyError SymbolTable := do
  let table ← define empty 0 ss
  match ss.findSome? table.undefined? with
  | some e => .error e
  | none => .ok table

end SymbolTable

end Mailbox
