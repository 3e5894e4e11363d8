set_option autoImplicit false

/-!
# Spans

Parts of a source text.  Offsets and lengths count the bytes of its UTF-8 form.

Normative source: SPEC_FULL.md, section A2 (an error has a span).
-/

namespace Mailbox

/-- The number of bytes that characters take in UTF-8. -/
def byteLength : List Char → Nat
  | [] => 0
  | c :: cs => c.utf8Size + byteLength cs

@[simp] theorem byteLength_nil : byteLength [] = 0 := rfl

@[simp] theorem byteLength_cons (c : Char) (cs : List Char) :
    byteLength (c :: cs) = c.utf8Size + byteLength cs := rfl

@[simp] theorem byteLength_append (cs ds : List Char) :
    byteLength (cs ++ ds) = byteLength cs + byteLength ds := by
  induction cs with
  | nil => rw [List.nil_append, byteLength_nil, Nat.zero_add]
  | cons c cs ih => rw [List.cons_append, byteLength_cons, byteLength_cons, ih, Nat.add_assoc]

theorem utf8ByteSize_ofList (cs : List Char) : (String.ofList cs).utf8ByteSize = byteLength cs := by
  induction cs with
  | nil => rfl
  | cons c cs ih =>
    rw [String.ofList_cons, String.utf8ByteSize_append, String.utf8ByteSize_singleton, ih,
      byteLength_cons]

theorem byteLength_toList (s : String) : byteLength s.toList = s.utf8ByteSize := by
  rw [← utf8ByteSize_ofList, String.ofList_toList]

/-- The first characters of a text, up to a number of bytes. -/
def takeBytes : Nat → List Char → List Char
  | 0, _ => []
  | _ + 1, [] => []
  | n + 1, c :: cs => c :: takeBytes (n + 1 - c.utf8Size) cs

@[simp] theorem takeBytes_zero (cs : List Char) : takeBytes 0 cs = [] := by
  simp [takeBytes]

theorem takeBytes_append (cs ds : List Char) : takeBytes (byteLength cs) (cs ++ ds) = cs := by
  induction cs with
  | nil => rw [byteLength_nil, takeBytes_zero]
  | cons c cs ih =>
    obtain ⟨n, hn⟩ := Nat.exists_eq_succ_of_ne_zero
      (Nat.ne_of_gt (Nat.add_pos_left c.utf8Size_pos (byteLength cs)))
    have hrest : n + 1 - c.utf8Size = byteLength cs := by omega
    rw [byteLength_cons, hn, List.cons_append, takeBytes, hrest, ih]

/-- A part of a source text. -/
structure Span where
  offset : Nat
  length : Nat
  deriving DecidableEq, Repr, Inhabited

namespace Span

/-- The offset of the first byte after a span. -/
def stop (s : Span) : Nat := s.offset + s.length

/-- The smallest span that covers two. -/
def join (s t : Span) : Span :=
  let start := min s.offset t.offset
  ⟨start, max s.stop t.stop - start⟩

/-- A span in a text with more bytes in front of it. -/
def shift (s : Span) (n : Nat) : Span := ⟨s.offset + n, s.length⟩

theorem join_self (s : Span) : s.join s = s := by
  cases s; simp [join, stop]

theorem join_shift (s t : Span) (n : Nat) : (s.shift n).join (t.shift n) = (s.join t).shift n := by
  simp only [join, shift, stop, Span.mk.injEq]
  omega

end Span

end Mailbox
