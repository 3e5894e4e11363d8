import Mailbox.Proofs.Assembly.Faults
set_option autoImplicit false

/-!
# Places and labels

Entering labels keeps a symbol table in step with the statements passed so far.  Main statements:
a table that is returned holds the labels of all statements, each with the number of the statement
that carries it, and the error returned otherwise is that of the first misplaced statement, or of
the first one that refers to a label nowhere carried.
-/

namespace Mailbox.SymbolTable

open Statement Faults

/-! ## Tables that fit statements -/

/-- A table holds exactly the labels that statements carry. -/
structure Fits (table : SymbolTable) (ss : List Statement) : Prop where
  address?_iff : ∀ name n, table.address? name = some n ↔ Defines ss n name
  labelAt?_iff : ∀ n name, table.labelAt? n = some name ↔ Defines ss n name

theorem fits_empty : empty.Fits [] where
  address?_iff _ _ := ⟨fun h => absurd h (by simp), fun h => absurd h not_defines_nil⟩
  labelAt?_iff _ _ := ⟨fun h => absurd h (by simp), fun h => absurd h not_defines_nil⟩

variable {table : SymbolTable} {before : List Statement} {s : Statement}

theorem Fits.concat_of_none (h : table.Fits before) (hs : s.label = none) :
    table.Fits (before ++ [s]) := by
  refine ⟨fun name n => ?_, fun n name => ?_⟩
  · rw [defines_concat_of_none hs]
    exact h.address?_iff name n
  · rw [defines_concat_of_none hs]
    exact h.labelAt?_iff n name

theorem insert?_eq_none_iff (table : SymbolTable) (name : String) (n : Nat) :
    table.insert? name n = none ↔ table.address? name ≠ none := by
  rw [ne_eq, address?_eq_none_iff, Decidable.not_not]
  unfold insert?
  split
  · rename_i hin
    exact ⟨fun _ => hin, fun _ => rfl⟩
  · rename_i hout
    exact ⟨fun hn => absurd hn (by simp), fun hin => absurd hin hout⟩

/-- A label is refused exactly if some statement carries it already. -/
theorem Fits.insert?_eq_none_iff (h : table.Fits before) (name : String) (n : Nat) :
    table.insert? name n = none ↔ ∃ m, Defines before m name := by
  rw [SymbolTable.insert?_eq_none_iff, Option.ne_none_iff_exists']
  exact exists_congr fun m => h.address?_iff name m

theorem Fits.concat_of_insert? {label : Label} {larger : SymbolTable} (h : table.Fits before)
    (hs : s.label = some label) (hi : table.insert? label.name before.length = some larger) :
    larger.Fits (before ++ [s]) := by
  have habsent : ∀ m, ¬ Defines before m label.name := by
    intro m hm
    rw [(h.insert?_eq_none_iff label.name before.length).2 ⟨m, hm⟩] at hi
    exact absurd hi (by simp)
  refine ⟨fun name n => ?_, fun n name => ?_⟩
  · rw [address?_insert? hi, defines_concat_of_some hs]
    by_cases hname : name = label.name
    · subst hname
      rw [if_pos rfl, Option.some.injEq]
      constructor
      · intro hn
        exact Or.inr ⟨hn.symm, rfl⟩
      · intro hd
        rcases hd with hd | ⟨hn, _⟩
        · exact absurd hd (habsent n)
        · exact hn.symm
    · rw [if_neg hname, h.address?_iff]
      simp [hname]
  · rw [labelAt?_insert? hi, defines_concat_of_some hs, Option.or_eq_some_iff, h.labelAt?_iff]
    by_cases hn : n = before.length
    · -- No statement passed has the number of the last one.
      have hnone : table.labelAt? n = none := by
        refine Option.eq_none_iff_forall_ne_some.2 fun other hother => ?_
        have hlt := ((h.labelAt?_iff n other).1 hother).lt
        omega
      rw [if_pos hn, Option.some.injEq, hnone]
      simp [hn, eq_comm]
    · rw [if_neg hn]
      simp [hn]

/-! ## Entering labels -/

/-- The fault of the statement after those of a table that fits. -/
theorem Fits.misplaced_iff (h : table.Fits before) (rest : List Statement) (e : AssemblyError) :
    Misplaced (before ++ s :: rest) before.length e ↔
      100 ≤ before.length ∧ e = ⟨s.line, s.span, .addressOverflow⟩ ∨
        before.length < 100 ∧ ∃ label, s.label = some label ∧
          table.insert? label.name before.length = none ∧
          e = ⟨s.line, label.span, .duplicateLabel label.name⟩ := by
  have hlast : (before ++ s :: rest)[before.length]? = some s := by simp
  constructor
  · intro he
    cases he with
    | overflow hs hn =>
      obtain rfl := Option.some.inj (hlast.symm.trans hs)
      exact Or.inl ⟨hn, rfl⟩
    | duplicate hs hn hl hm hd =>
      obtain rfl := Option.some.inj (hlast.symm.trans hs)
      have hin := (defines_append_of_lt hm).1 hd
      exact Or.inr ⟨hn, _, hl, (h.insert?_eq_none_iff _ _).2 ⟨_, hin⟩, rfl⟩
  · intro h'
    rcases h' with ⟨hn, rfl⟩ | ⟨hn, label, hl, hi, rfl⟩
    · exact .overflow hlast hn
    · obtain ⟨m, hm⟩ := (h.insert?_eq_none_iff _ _).1 hi
      exact .duplicate hlast hn hl hm.lt ((defines_append_of_lt hm.lt).2 hm)

theorem define_fits {symbols : SymbolTable} {rest : List Statement} (hfits : table.Fits before)
    (h : define table before.length rest = .ok symbols) : symbols.Fits (before ++ rest) := by
  induction rest generalizing table before with
  | nil =>
    obtain rfl := Except.ok.inj h
    rwa [List.append_nil]
  | cons s rest ih =>
    rw [List.append_cons]
    simp only [define] at h
    split at h
    · split at h
      · rename_i hl
        exact ih (hfits.concat_of_none hl) (by rwa [List.length_append])
      · rename_i label hl
        split at h
        · rename_i larger hi
          exact ih (hfits.concat_of_insert? hl hi) (by rwa [List.length_append])
        · exact absurd h (by simp)
    · exact absurd h (by simp)

/-- Entering labels tells of the first misplaced statement, if no statement passed is one. -/
theorem define_reportsFirst {rest : List Statement} (hfits : table.Fits before)
    (hbefore : ∀ m < before.length, ∀ e, ¬ Misplaced (before ++ rest) m e) :
    ReportsFirst (define table before.length rest) (Misplaced (before ++ rest)) := by
  induction rest generalizing table before with
  | nil =>
    refine ⟨fun _ _ n e he => hbefore n ?_ e he, fun e he => absurd he (by simp [define])⟩
    have hlt := he.lt
    rwa [List.append_nil] at hlt
  | cons s rest ih =>
    -- Once statement `before.length` is known to be in place, all of `before ++ [s]` is.
    have hconcat : (∀ e, ¬ Misplaced (before ++ s :: rest) before.length e) →
        ∀ m < (before ++ [s]).length, ∀ e, ¬ Misplaced (before ++ [s] ++ rest) m e := by
      intro hlast m hm e
      rw [← List.append_cons]
      rw [List.length_append, List.length_singleton] at hm
      rcases Nat.lt_succ_iff_lt_or_eq.1 hm with hlt | rfl
      · exact hbefore m hlt e
      · exact hlast e
    have herror : ∀ e, Misplaced (before ++ s :: rest) before.length e →
        ReportsFirst (.error e : Except AssemblyError SymbolTable)
          (Misplaced (before ++ s :: rest)) := by
      intro e he
      refine ⟨fun _ h => absurd h (by simp), fun f hf => ?_⟩
      obtain rfl := Except.error.inj hf
      exact ⟨before.length, he, hbefore⟩
    simp only [define]
    split
    · rename_i hlt
      split
      · rename_i hl
        have hlast : ∀ e, ¬ Misplaced (before ++ s :: rest) before.length e := by
          intro e he
          rcases (hfits.misplaced_iff rest e).1 he with ⟨hge, _⟩ | ⟨_, label, hl', _⟩
          · omega
          · exact absurd (hl.symm.trans hl') (by simp)
        have hrest := ih (hfits.concat_of_none hl) (hconcat hlast)
        rwa [← List.append_cons, List.length_append] at hrest
      · rename_i label hl
        split
        · rename_i larger hi
          have hlast : ∀ e, ¬ Misplaced (before ++ s :: rest) before.length e := by
            intro e he
            rcases (hfits.misplaced_iff rest e).1 he with ⟨hge, _⟩ | ⟨_, other, hl', hi', _⟩
            · omega
            · obtain rfl := Option.some.inj (hl.symm.trans hl')
              exact absurd (hi.symm.trans hi') (by simp)
          have hrest := ih (hfits.concat_of_insert? hl hi) (hconcat hlast)
          rwa [← List.append_cons, List.length_append] at hrest
        · rename_i hi
          exact herror _ ((hfits.misplaced_iff rest _).2 (Or.inr ⟨hlt, label, hl, hi, rfl⟩))
    · rename_i hge
      exact herror _ ((hfits.misplaced_iff rest _).2 (Or.inl ⟨Nat.le_of_not_lt hge, rfl⟩))

/-- Statements without labels take addresses only. -/
theorem define_of_no_labels {table : SymbolTable} {ss : List Statement} {n : Nat}
    (h : ∀ s ∈ ss, s.label = none) (hn : n + ss.length ≤ 100) : define table n ss = .ok table := by
  induction ss generalizing n with
  | nil => rfl
  | cons s ss ih =>
    rw [List.length_cons] at hn
    have hs := h s List.mem_cons_self
    simp only [define, hs, if_pos (show n < 100 by omega)]
    exact ih (fun t ht => h t (List.mem_cons_of_mem s ht)) (by omega)

/-- There is nothing to resolve in statements that neither carry labels nor refer to any. -/
theorem ofStatements_of_no_labels {ss : List Statement} (hlabels : ∀ s ∈ ss, s.label = none)
    (hundefined : ∀ s ∈ ss, empty.undefined? s = none) (hlen : ss.length ≤ 100) :
    ofStatements ss = .ok empty := by
  have hdefine : define empty 0 ss = .ok empty := define_of_no_labels hlabels (by omega)
  simp only [ofStatements, bind, Except.bind, hdefine, List.findSome?_eq_none_iff.2 hundefined]

/-! ## Resolving labels -/

/-- With a table that fits, the error of a statement is that of its dangling label. -/
theorem Fits.undefined?_eq_some_iff {ss : List Statement} (h : table.Fits ss) (s : Statement)
    (e : AssemblyError) : table.undefined? s = some e ↔ Dangling ss s e := by
  unfold undefined?
  split
  · rename_i label ho
    split
    · rename_i hdefined
      obtain ⟨n, hn⟩ := Option.isSome_iff_exists.1 hdefined
      constructor
      · intro he
        exact absurd he (by simp)
      · intro hdangling
        obtain ⟨ho', hd⟩ := hdangling
        obtain rfl := Operand.label.inj (Option.some.inj (ho.symm.trans ho'))
        exact absurd ((h.address?_iff _ n).1 hn) (hd n)
    · rename_i hundefined
      constructor
      · intro he
        obtain rfl := Option.some.inj he
        apply Dangling.undefined ho
        intro m hm
        apply hundefined
        rw [(h.address?_iff _ m).2 hm]
        rfl
      · intro hdangling
        obtain ⟨ho', _⟩ := hdangling
        obtain rfl := Operand.label.inj (Option.some.inj (ho.symm.trans ho'))
        rfl
  · rename_i value span ho
    constructor
    · intro he
      exact absurd he (by simp)
    · intro hdangling
      obtain ⟨ho', _⟩ := hdangling
      exact absurd (ho.symm.trans ho') (by simp)
  · rename_i ho
    constructor
    · intro he
      exact absurd he (by simp)
    · intro hdangling
      obtain ⟨ho', _⟩ := hdangling
      exact absurd (ho.symm.trans ho') (by simp)

/-- What resolving labels comes to. -/
theorem ofStatements_cases (ss : List Statement) :
    (∃ symbols, ofStatements ss = .ok symbols ∧ symbols.Fits ss ∧ Faultless (Misplaced ss) ∧
        Faultless (At ss (Dangling ss))) ∨
      (∃ e, ofStatements ss = .error e ∧ First (Misplaced ss) e) ∨
      ∃ e, ofStatements ss = .error e ∧ Faultless (Misplaced ss) ∧
        First (At ss (Dangling ss)) e := by
  have hreports : ReportsFirst (define empty 0 ss) (Misplaced ss) :=
    define_reportsFirst fits_empty fun m hm => absurd hm (Nat.not_lt_zero m)
  unfold ofStatements
  cases hdefine : define empty 0 ss with
  | error e => exact Or.inr (Or.inl ⟨e, rfl, hreports.first e hdefine⟩)
  | ok symbols =>
    have hfits : symbols.Fits ss := define_fits fits_empty hdefine
    have hlayout := hreports.faultless symbols hdefine
    have hfind : ∀ s ∈ ss, ∀ e, symbols.undefined? s = some e ↔ Dangling ss s e :=
      fun s _ e => hfits.undefined?_eq_some_iff s e
    cases hundefined : ss.findSome? symbols.undefined? with
    | none =>
      refine Or.inl ⟨symbols, ?_, hfits, hlayout, faultless_of_findSome? hfind hundefined⟩
      simp only [bind, Except.bind, hundefined]
    | some e =>
      refine Or.inr (Or.inr ⟨e, ?_, hlayout, first_of_findSome? hfind hundefined⟩)
      simp only [bind, Except.bind, hundefined]

end Mailbox.SymbolTable
