import Mailbox.Proofs.Assembly.Meaning
set_option autoImplicit false

/-!
# Writing words

Words are written to rising addresses, so no word is written over.  Main statement: the statements
of a program whose labels are all carried have an image, in which every one of them has a word that
means what it says and all other words are zero, or the first one whose operand is at fault gives
the error.
-/

namespace Mailbox

/-- The error of a statement that has no word. -/
def Statement.encodeError? (table : SymbolTable) (s : Statement) : Option AssemblyError :=
  match s.encode table with
  | .ok _ => none
  | .error e => some e

namespace Image

open Statement Faults

variable {table : SymbolTable} {image final : Image} {n : Nat} {ss : List Statement}

/-! ## One word -/

theorem encodeFrom_cons_of_ok {s : Statement} {w : Word} (hn : n < 100)
    (hw : s.encode table = .ok w) :
    encodeFrom table image n (s :: ss) = encodeFrom table (image.write ⟨n, hn⟩ w) (n + 1) ss := by
  simp only [encodeFrom, hn, hw, dif_pos, bind, Except.bind]

theorem encodeFrom_cons_of_error {s : Statement} {e : AssemblyError} (hn : n < 100)
    (he : s.encode table = .error e) : encodeFrom table image n (s :: ss) = .error e := by
  simp only [encodeFrom, hn, he, dif_pos, bind, Except.bind]

theorem encodeFrom_cons_eq_ok {s : Statement}
    (h : encodeFrom table image n (s :: ss) = .ok final) :
    ∃ (hn : n < 100) (w : Word), s.encode table = .ok w ∧
      encodeFrom table (image.write ⟨n, hn⟩ w) (n + 1) ss = .ok final := by
  by_cases hn : n < 100
  · cases hw : s.encode table with
    | ok w =>
      rw [encodeFrom_cons_of_ok hn hw] at h
      exact ⟨hn, w, rfl, h⟩
    | error e =>
      rw [encodeFrom_cons_of_error hn hw] at h
      exact absurd h (by simp)
  · rw [encodeFrom, dif_neg hn] at h
    exact absurd h (by simp)

/-! ## All words -/

/-- Addresses before the first statement and after the last one keep their words. -/
theorem encodeFrom_keeps (h : encodeFrom table image n ss = .ok final) {a : Address}
    (ha : a.val < n ∨ n + ss.length ≤ a.val) : final.read a = image.read a := by
  induction ss generalizing image n with
  | nil =>
    obtain rfl := Except.ok.inj h
    rfl
  | cons s ss ih =>
    obtain ⟨hn, w, _, hrest⟩ := encodeFrom_cons_eq_ok h
    rw [List.length_cons] at ha
    have hne : a ≠ ⟨n, hn⟩ := by
      rintro rfl
      simp only at ha
      omega
    rw [ih hrest (by omega), read_write_of_ne image w hne]

/-- Every statement has its word at its address. -/
theorem encodeFrom_writes (h : encodeFrom table image n ss = .ok final) {i : Nat} {s : Statement}
    (hs : ss[i]? = some s) : ∃ a : Address, a.val = n + i ∧ s.encode table = .ok (final.read a) := by
  induction ss generalizing image n i with
  | nil => exact absurd hs (by simp)
  | cons t ss ih =>
    obtain ⟨hn, w, hw, hrest⟩ := encodeFrom_cons_eq_ok h
    cases i with
    | zero =>
      obtain rfl := Option.some.inj hs
      refine ⟨⟨n, hn⟩, rfl, ?_⟩
      rw [encodeFrom_keeps hrest (Or.inl (Nat.lt_succ_self n)), read_write_self]
      exact hw
    | succ i =>
      obtain ⟨a, ha, hread⟩ := ih hrest hs
      exact ⟨a, by omega, hread⟩

/-- Statements that have mailboxes fail with the error of the first one without a word. -/
theorem encodeFrom_eq_error (hn : n + ss.length ≤ 100) {e : AssemblyError}
    (h : encodeFrom table image n ss = .error e) :
    ss.findSome? (encodeError? table) = some e := by
  induction ss generalizing image n with
  | nil => exact absurd h (by simp [encodeFrom])
  | cons s ss ih =>
    rw [List.length_cons] at hn
    rw [List.findSome?_cons]
    cases hw : s.encode table with
    | ok w =>
      rw [encodeFrom_cons_of_ok (by omega) hw] at h
      have hnone : encodeError? table s = none := by rw [encodeError?, hw]
      rw [hnone]
      exact ih (by omega) h
    | error f =>
      rw [encodeFrom_cons_of_error (by omega) hw] at h
      obtain rfl := Except.error.inj h
      have hsome : encodeError? table s = some f := by rw [encodeError?, hw]
      rw [hsome]

/-! ## Images -/

/-- An image holds the words of statements and zeros. -/
structure Holds (image : Image) (ss : List Statement) : Prop where
  length_le : ss.length ≤ 100
  means : ∀ n s, ss[n]? = some s → ∃ a : Address, a.val = n ∧ Means ss s (image.read a)
  zero : ∀ a : Address, ss.length ≤ a.val → image.read a = 0

theorem length_le_of_faultless (h : Faultless (Misplaced ss)) : ss.length ≤ 100 := by
  refine Nat.le_of_not_lt fun hlt => ?_
  exact h 100 _ (.overflow (List.getElem?_eq_getElem hlt) (Nat.le_refl 100))

theorem encodeError?_eq_some_iff (hfits : table.Fits ss) (hlen : ss.length ≤ 100) {s : Statement}
    (hd : ∀ e, ¬ Dangling ss s e) (e : AssemblyError) :
    encodeError? table s = some e ↔ Unencodable s e := by
  have hencodes := encodes_encode hfits hlen hd
  unfold encodeError?
  cases hw : s.encode table with
  | ok w =>
    rw [hw] at hencodes
    cases hencodes with
    | ok _ hsound =>
      exact ⟨fun he => absurd he (by simp), fun he => absurd he (hsound e)⟩
  | error f =>
    rw [hw] at hencodes
    cases hencodes with
    | error hfault =>
      constructor
      · intro he
        obtain rfl := Option.some.inj he
        exact hfault
      · intro he
        rw [hfault.unique he]

/-- What encoding the statements of a program with all its labels comes to. -/
theorem ofStatements_cases (hfits : table.Fits ss) (hlayout : Faultless (Misplaced ss))
    (hlabels : Faultless (At ss (Dangling ss))) :
    (∃ image, ofStatements table ss = .ok image ∧ image.Holds ss ∧
        Faultless (At ss Unencodable)) ∨
      ∃ e, ofStatements table ss = .error e ∧ First (At ss Unencodable) e := by
  have hlen := length_le_of_faultless hlayout
  have hd := faultless_at_iff.1 hlabels
  have hfind : ∀ s ∈ ss, ∀ e, encodeError? table s = some e ↔ Unencodable s e :=
    fun s hs e => encodeError?_eq_some_iff hfits hlen (hd s hs) e
  cases himage : ofStatements table ss with
  | error e =>
    have hfirst := encodeFrom_eq_error (by omega) himage
    exact Or.inr ⟨e, rfl, first_of_findSome? hfind hfirst⟩
  | ok image =>
    have hmeans : ∀ n s, ss[n]? = some s → ∃ a : Address, a.val = n ∧
        Means ss s (image.read a) ∧ ∀ e, ¬ Unencodable s e := by
      intro n s hs
      obtain ⟨a, ha, hread⟩ := encodeFrom_writes himage hs
      have hencodes := encodes_encode hfits hlen (hd s (List.mem_of_getElem? hs))
      rw [hread] at hencodes
      cases hencodes with
      | ok hm hsound => exact ⟨a, by omega, hm, hsound⟩
    refine Or.inl ⟨image, rfl, ⟨hlen, ?_, ?_⟩, ?_⟩
    · intro n s hs
      obtain ⟨a, ha, hm, _⟩ := hmeans n s hs
      exact ⟨a, ha, hm⟩
    · intro a ha
      rw [encodeFrom_keeps himage (Or.inr (by omega)), read_zero]
    · intro n e he
      obtain ⟨s, hs, hfault⟩ := he
      obtain ⟨_, _, _, hsound⟩ := hmeans n s hs
      exact hsound e hfault

end Image

end Mailbox
