set_option autoImplicit false

/-!
# Pieces

Cutting a list at the elements that separate or end its pieces.
-/

namespace Mailbox.Text

variable {α : Type}

/-- Puts an element in front of the first piece. -/
def consFirst (x : α) : List (List α) → List (List α)
  | [] => [[x]]
  | piece :: pieces => (x :: piece) :: pieces

/-- The pieces between separators, in order; at least one. -/
def separated (isSeparator : α → Bool) (xs : List α) : List (List α) :=
  xs.foldr (fun x pieces => if isSeparator x then [] :: pieces else consFirst x pieces) [[]]

/-- The pieces that end with an end mark, in order.  The last one needs no end mark, and there is
no piece after the last end mark. -/
def ended (isEnd : α → Bool) (xs : List α) : List (List α) :=
  xs.foldr (fun x pieces => if isEnd x then [] :: pieces else consFirst x pieces) []

@[simp] theorem consFirst_ne_nil (x : α) (pieces : List (List α)) : consFirst x pieces ≠ [] := by
  cases pieces <;> simp [consFirst]

@[simp] theorem separated_nil (isSeparator : α → Bool) : separated isSeparator [] = [[]] := rfl

theorem separated_cons (isSeparator : α → Bool) (x : α) (xs : List α) :
    separated isSeparator (x :: xs) =
      if isSeparator x then [] :: separated isSeparator xs
      else consFirst x (separated isSeparator xs) := rfl

@[simp] theorem ended_nil (isEnd : α → Bool) : ended isEnd [] = [] := rfl

theorem ended_cons (isEnd : α → Bool) (x : α) (xs : List α) :
    ended isEnd (x :: xs) =
      if isEnd x then [] :: ended isEnd xs else consFirst x (ended isEnd xs) := rfl

theorem map_consFirst {β : Type} (f : α → β) (x : α) (pieces : List (List α)) :
    (consFirst x pieces).map (List.map f) = consFirst (f x) (pieces.map (List.map f)) := by
  cases pieces <;> rfl

/-- Elements can be changed before cutting or in the pieces. -/
theorem separated_map {β : Type} (f : α → β) (isSeparator : β → Bool) (xs : List α) :
    separated isSeparator (xs.map f) =
      (separated (fun x => isSeparator (f x)) xs).map (List.map f) := by
  induction xs with
  | nil => rfl
  | cons x xs ih =>
    rw [List.map_cons, separated_cons, separated_cons, ih]
    split
    · rfl
    · exact (map_consFirst f x _).symm

theorem separated_ne_nil (isSeparator : α → Bool) (xs : List α) :
    separated isSeparator xs ≠ [] := by
  cases xs with
  | nil => simp
  | cons x xs => rw [separated_cons]; split <;> simp

/-- Elements that are no separators stay in front of the first piece. -/
theorem separated_append {isSeparator : α → Bool} {xs ys : List α} {first : List α}
    {rest : List (List α)} (hx : ∀ x ∈ xs, isSeparator x = false)
    (hy : separated isSeparator ys = first :: rest) :
    separated isSeparator (xs ++ ys) = (xs ++ first) :: rest := by
  induction xs with
  | nil => exact hy
  | cons x xs ih =>
    have hhead : isSeparator x = false := hx x List.mem_cons_self
    rw [List.cons_append, separated_cons, hhead,
      ih (fun z hz => hx z (List.mem_cons_of_mem x hz))]
    rfl

/-- A first piece with elements starts where the list starts. -/
theorem head?_of_separated {isSeparator : α → Bool} {xs : List α} {x : α} {first : List α}
    {rest : List (List α)} (h : separated isSeparator xs = (x :: first) :: rest) :
    xs.head? = some x ∧ isSeparator x = false := by
  cases xs with
  | nil => simp at h
  | cons y ys =>
    rw [separated_cons] at h
    split at h
    · simp at h
    · rename_i hy
      have hcons : consFirst y (separated isSeparator ys) = (x :: first) :: rest := h
      cases hs : separated isSeparator ys with
      | nil => exact absurd hs (separated_ne_nil _ _)
      | cons piece pieces =>
        rw [hs] at hcons
        obtain ⟨rfl, _⟩ := List.cons.inj (List.cons.inj hcons).1
        exact ⟨rfl, by simpa using hy⟩

/-- A separator parts the pieces in front of it from those behind it. -/
theorem separated_append_cons {isSeparator : α → Bool} {x : α} (hx : isSeparator x)
    (xs ys : List α) :
    separated isSeparator (xs ++ x :: ys) =
      separated isSeparator xs ++ separated isSeparator ys := by
  induction xs with
  | nil => simp [separated_cons, hx]
  | cons y xs ih =>
    rw [List.cons_append, separated_cons, separated_cons, ih]
    split
    · rfl
    · cases hs : separated isSeparator xs with
      | nil => exact absurd hs (separated_ne_nil _ _)
      | cons piece pieces => rfl

/-- There is one piece more than there are separators. -/
theorem length_separated (isSeparator : α → Bool) (xs : List α) :
    (separated isSeparator xs).length = xs.countP isSeparator + 1 := by
  induction xs with
  | nil => rfl
  | cons x xs ih =>
    rw [separated_cons]
    cases hx : isSeparator x with
    | true => rw [if_pos rfl, List.length_cons, ih, List.countP_cons_of_pos hx]
    | false =>
      rw [if_neg (by simp), List.countP_cons_of_neg (by simp [hx]), ← ih]
      cases hs : separated isSeparator xs with
      | nil => exact absurd hs (separated_ne_nil _ _)
      | cons piece pieces => rfl

variable {isSeparator : α → Bool}

/-- A list without separators is one piece. -/
theorem separated_eq_singleton {xs : List α} (hx : ∀ x ∈ xs, isSeparator x = false) :
    separated isSeparator xs = [xs] := by
  have h := separated_append hx (separated_nil isSeparator)
  rwa [List.append_nil] at h

/-- The elements of a piece are those of the list that are no separators. -/
theorem mem_of_mem_separated {xs piece : List α} {x : α} (hpiece : piece ∈ separated isSeparator xs)
    (hx : x ∈ piece) : x ∈ xs ∧ isSeparator x = false := by
  induction xs generalizing piece with
  | nil =>
    obtain rfl := List.mem_singleton.1 hpiece
    cases hx
  | cons y xs ih =>
    rw [separated_cons] at hpiece
    cases hy : isSeparator y with
    | true =>
      rw [if_pos hy] at hpiece
      rcases List.mem_cons.1 hpiece with rfl | hpiece
      · cases hx
      · exact (ih hpiece hx).imp_left (List.mem_cons_of_mem y)
    | false =>
      rw [if_neg (by simp [hy])] at hpiece
      obtain ⟨first, rest, hs⟩ := List.exists_cons_of_ne_nil (separated_ne_nil isSeparator xs)
      rw [hs] at hpiece ih
      rcases List.mem_cons.1 hpiece with rfl | hpiece
      · rcases List.mem_cons.1 hx with rfl | hx
        · exact ⟨List.mem_cons_self, hy⟩
        · exact (ih List.mem_cons_self hx).imp_left (List.mem_cons_of_mem y)
      · exact (ih (List.mem_cons_of_mem _ hpiece) hx).imp_left (List.mem_cons_of_mem y)

/-- There is an empty piece behind a separator at the end. -/
theorem nil_mem_separated {xs : List α} {x : α} (hlast : xs.getLast? = some x)
    (hx : isSeparator x) : [] ∈ separated isSeparator xs := by
  obtain ⟨front, rfl⟩ := List.getLast?_eq_some_iff.1 hlast
  rw [separated_append_cons hx]
  exact List.mem_append_right _ (by simp)

theorem consFirst_append (x : α) {pieces : List (List α)} (hne : pieces ≠ [])
    (more : List (List α)) : consFirst x (pieces ++ more) = consFirst x pieces ++ more := by
  cases pieces with
  | nil => exact absurd rfl hne
  | cons piece pieces => rfl

/-- Elements that are no separators stay behind the last piece. -/
theorem separated_append_last {xs ys last : List α} {front : List (List α)}
    (hx : separated isSeparator xs = front ++ [last])
    (hy : ∀ y ∈ ys, isSeparator y = false) :
    separated isSeparator (xs ++ ys) = front ++ [last ++ ys] := by
  induction xs generalizing front last with
  | nil =>
    have hempty : [] ++ [[]] = front ++ [last] := hx
    obtain ⟨rfl, hlast⟩ := List.append_inj' hempty rfl
    cases hlast
    exact separated_eq_singleton hy
  | cons x xs ih =>
    obtain ⟨front', last', hs⟩ : ∃ front' last', separated isSeparator xs = front' ++ [last'] :=
      ⟨_, _, (List.dropLast_concat_getLast (separated_ne_nil isSeparator xs)).symm⟩
    rw [separated_cons, hs] at hx
    rw [List.cons_append, separated_cons, ih hs]
    cases hsep : isSeparator x with
    | true =>
      rw [if_pos hsep, ← List.cons_append] at hx
      obtain ⟨rfl, hlast⟩ := List.append_inj' hx rfl
      cases hlast
      rfl
    | false =>
      rw [if_neg (by simp [hsep])] at hx
      rw [if_neg (by simp)]
      cases front' with
      | nil =>
        have hone : [] ++ [x :: last'] = front ++ [last] := hx
        obtain ⟨rfl, hlast⟩ := List.append_inj' hone rfl
        cases hlast
        rfl
      | cons piece front' =>
        rw [consFirst_append x (List.cons_ne_nil _ _)] at hx ⊢
        obtain ⟨rfl, hlast⟩ := List.append_inj' hx rfl
        cases hlast
        rfl

/-- The pieces with the separator between them are the list again. -/
theorem intercalate_separated [DecidableEq α] (separator : α) (xs : List α) :
    [separator].intercalate (separated (· == separator) xs) = xs := by
  induction xs with
  | nil => rfl
  | cons x xs ih =>
    rw [separated_cons]
    cases hs : separated (· == separator) xs with
    | nil => exact absurd hs (separated_ne_nil _ _)
    | cons piece pieces =>
      rw [hs] at ih
      cases hsep : x == separator with
      | true =>
        rw [if_pos rfl, List.intercalate_cons_cons, ih, eq_of_beq hsep]
        rfl
      | false =>
        rw [if_neg (by simp), consFirst]
        cases pieces with
        | nil => rw [← ih]; rfl
        | cons next pieces =>
          rw [List.intercalate_cons_cons] at ih ⊢
          rw [List.cons_append, List.cons_append, ih]

/-- Pieces without separators are the pieces of the list that they make with the separator between
them. -/
theorem separated_intercalate {separator : α} (hs : isSeparator separator)
    {pieces : List (List α)} (hne : pieces ≠ [])
    (h : ∀ piece ∈ pieces, ∀ x ∈ piece, isSeparator x = false) :
    separated isSeparator ([separator].intercalate pieces) = pieces := by
  induction pieces with
  | nil => exact absurd rfl hne
  | cons piece pieces ih =>
    have hfirst := separated_eq_singleton (h piece List.mem_cons_self)
    cases pieces with
    | nil => simpa using hfirst
    | cons next pieces =>
      have hrest := ih (List.cons_ne_nil _ _) fun p hp => h p (List.mem_cons_of_mem _ hp)
      rw [List.intercalate_cons_cons, List.append_assoc, List.singleton_append,
        separated_append_cons hs, hfirst, hrest]
      rfl

/-! ## Pieces with end marks -/

variable {isEnd : α → Bool} {xs : List α}

/-- Elements that are no end marks, and an end mark behind them, are one piece. -/
theorem ended_append_cons {e : α} (hx : ∀ x ∈ xs, isEnd x = false) (he : isEnd e) (ys : List α) :
    ended isEnd (xs ++ e :: ys) = xs :: ended isEnd ys := by
  induction xs with
  | nil => rw [List.nil_append, ended_cons, if_pos he]
  | cons x xs ih =>
    have hhead : isEnd x = false := hx x List.mem_cons_self
    rw [List.cons_append, ended_cons, hhead, ih fun z hz => hx z (List.mem_cons_of_mem x hz)]
    rfl

/-- Pieces without end marks are the pieces of the list that they make with an end mark behind each
of them. -/
theorem ended_flatMap {e : α} (he : isEnd e) {pieces : List (List α)}
    (h : ∀ piece ∈ pieces, ∀ x ∈ piece, isEnd x = false) :
    ended isEnd (pieces.flatMap (· ++ [e])) = pieces := by
  induction pieces with
  | nil => rfl
  | cons piece pieces ih =>
    have hrest := ih fun p hp => h p (List.mem_cons_of_mem _ hp)
    rw [List.flatMap_cons, List.append_assoc, List.singleton_append,
      ended_append_cons (h piece List.mem_cons_self) he, hrest]

/-- Elements that are no end marks are one piece, if there are any. -/
theorem ended_eq_singleton (hx : ∀ x ∈ xs, isEnd x = false) (hne : xs ≠ []) :
    ended isEnd xs = [xs] := by
  induction xs with
  | nil => exact absurd rfl hne
  | cons x xs ih =>
    have hhead : isEnd x = false := hx x List.mem_cons_self
    rw [ended_cons, hhead]
    cases xs with
    | nil => rfl
    | cons y ys =>
      rw [ih (fun z hz => hx z (List.mem_cons_of_mem x hz)) (List.cons_ne_nil _ _)]
      rfl

/-- Separators end the pieces in front of them, but there is no piece behind the last one. -/
theorem separated_eq_ended_or (isEnd : α → Bool) (xs : List α) :
    separated isEnd xs = ended isEnd xs ∨ separated isEnd xs = ended isEnd xs ++ [[]] := by
  induction xs with
  | nil => exact .inr rfl
  | cons x xs ih =>
    rw [separated_cons, ended_cons]
    split
    · rcases ih with ih | ih
      · exact .inl (by rw [ih])
      · exact .inr (by rw [ih, List.cons_append])
    · rcases ih with ih | ih
      · exact .inl (by rw [ih])
      · cases hs : ended isEnd xs with
        | nil => exact .inl (by rw [ih, hs]; rfl)
        | cons piece pieces => exact .inr (by rw [ih, hs]; rfl)

/-- Pieces that are not empty are the same with separators and with end marks. -/
theorem ended_eq_separated (h : [] ∉ separated isEnd xs) : ended isEnd xs = separated isEnd xs := by
  rcases separated_eq_ended_or isEnd xs with heq | heq
  · exact heq.symm
  · rw [heq] at h
    exact absurd (List.mem_append_right _ List.mem_cons_self) h

end Mailbox.Text
