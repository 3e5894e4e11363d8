set_option autoImplicit false

/-!
# Results

Assembly, files and the command line go on only with the result of the step before, and end with
the first error otherwise.  The laws of such sequences are here.
-/

namespace Mailbox

variable {ε ε' α β : Type}

/-- A sequence succeeds if all of its steps do. -/
theorem except_bind_eq_ok {x : Except ε α} {f : α → Except ε β} {b : β} :
    x >>= f = .ok b ↔ ∃ a, x = .ok a ∧ f a = .ok b := by
  cases x with
  | error e => simp [bind, Except.bind]
  | ok a => simp [bind, Except.bind]

/-- Errors can be changed behind a sequence or along with it. -/
theorem mapError_bind (f : ε → ε') (x : Except ε α) (g : α → Except ε β) :
    (x >>= g).mapError f = x.mapError f >>= fun a => (g a).mapError f := by
  cases x <;> rfl

/-- A sequence along a list succeeds if it does for each of the elements. -/
theorem mapM_eq_ok {f : α → Except ε β} {g : α → β} {xs : List α}
    (h : ∀ x ∈ xs, f x = .ok (g x)) : xs.mapM f = .ok (xs.map g) := by
  induction xs with
  | nil => rfl
  | cons x xs ih =>
    obtain ⟨hx, hxs⟩ := List.forall_mem_cons.1 h
    rw [List.mapM_cons, hx, ih hxs]
    rfl

/-- What a sequence along a list collects comes from its elements. -/
theorem mem_flatten_of_mapM {f : α → Except ε (List β)} {P : α → Prop} {b : β} {xs : List α}
    {yss : List (List β)} (h : xs.mapM f = .ok yss)
    (hf : ∀ x ∈ xs, ∀ ys, f x = .ok ys → (b ∈ ys ↔ P x)) :
    b ∈ yss.flatten ↔ ∃ x ∈ xs, P x := by
  induction xs generalizing yss with
  | nil =>
    cases h
    simp
  | cons x xs ih =>
    obtain ⟨hx, hxs⟩ := List.forall_mem_cons.1 hf
    rw [List.mapM_cons] at h
    obtain ⟨ys, hys, h⟩ := except_bind_eq_ok.1 h
    obtain ⟨rest, hrest, h⟩ := except_bind_eq_ok.1 h
    cases h
    rw [List.flatten_cons, List.mem_append, hx ys hys, ih hrest hxs]
    simp only [List.mem_cons, or_and_right, exists_or, exists_eq_left]

end Mailbox
