import Mailbox.Session.Input
set_option autoImplicit false

/-!
# Sources of values

Plain values reach a program alike in two ways: in an argument with commas between them, and on the
lines of a stream.  Main statements: an argument of plain values holds these values, and so does a
stream that has each of them on a line of its own, however its lines end.

Normative source: SPEC_FULL.md, section A6.8.
-/

namespace Mailbox

namespace Text

/-! ## Text without white space at its ends -/

theorem dropWhile_isSpace {cs : List Char} (h : cs.head?.any isSpace = false) :
    cs.dropWhile isSpace = cs := by
  cases cs with
  | nil => rfl
  | cons c cs =>
    have hc : isSpace c = false := h
    rw [List.dropWhile_cons, hc]
    rfl

theorem trimList_eq_self {cs : List Char} (hfirst : cs.head?.any isSpace = false)
    (hlast : cs.getLast?.any isSpace = false) : trimList cs = cs := by
  rw [trimList, dropWhile_isSpace hfirst, dropWhile_isSpace, List.reverse_reverse]
  rwa [List.head?_reverse]

/-! ## Bytes of characters -/

theorem toList_toUTF8 (s : String) :
    s.toUTF8.data.toList = s.toList.flatMap String.utf8EncodeChar := by
  rw [String.toUTF8_eq_toByteArray, ← String.utf8Encode_toList, List.utf8Encode,
    List.data_toByteArray]

theorem fromUTF8?_toUTF8 (s : String) : String.fromUTF8? s.toUTF8 = some s := by
  rw [String.fromUTF8?, String.toUTF8_eq_toByteArray, dif_pos s.isValidUTF8]
  rfl

/-- A byte below 128 is the code of its character. -/
theorem toNat_of_mem_utf8EncodeChar {c : Char} {b : UInt8} (hb : b ∈ String.utf8EncodeChar c)
    (h : b.toNat < 128) : b.toNat = c.toNat := by
  have hc : c.toNat = c.val.toNat := rfl
  simp only [String.utf8EncodeChar] at hb
  split at hb
  · obtain rfl := List.mem_singleton.1 hb
    rw [UInt8.toNat_ofNat']
    omega
  -- The bytes of any other character are at least 128.
  · have hhigh : 128 ≤ b.toNat := by
      split at hb
      · simp only [List.mem_cons, List.not_mem_nil, or_false] at hb
        rcases hb with rfl | rfl <;> rw [UInt8.toNat_ofNat'] <;> omega
      · split at hb
        · simp only [List.mem_cons, List.not_mem_nil, or_false] at hb
          rcases hb with rfl | rfl | rfl <;> rw [UInt8.toNat_ofNat'] <;> omega
        · simp only [List.mem_cons, List.not_mem_nil, or_false] at hb
          rcases hb with rfl | rfl | rfl | rfl <;> rw [UInt8.toNat_ofNat'] <;> omega
    omega

/-- Only a newline has the byte of a newline. -/
theorem newline_not_mem_utf8 {cs : List Char} (h : '\n' ∉ cs) :
    ∀ b ∈ cs.flatMap String.utf8EncodeChar, (b == 10) = false := by
  intro b hb
  obtain ⟨c, hc, hbytes⟩ := List.mem_flatMap.1 hb
  refine beq_false_of_ne ?_
  rintro rfl
  have hcode : '\n'.toNat = c.toNat := toNat_of_mem_utf8EncodeChar hbytes (by decide)
  exact h (Char.toNat_inj.1 hcode ▸ hc)

end Text

namespace Input

/-- A value that can stand between commas as well as on a line: it is not empty, no character of it
ends a value, and there is no white space at its ends. -/
structure IsPlain (v : String) : Prop where
  ne_empty : v ≠ ""
  no_comma : ',' ∉ v.toList
  no_return : '\r' ∉ v.toList
  no_newline : '\n' ∉ v.toList
  first : v.toList.head?.any Text.isSpace = false
  last : v.toList.getLast?.any Text.isSpace = false

/-- What may end a line. -/
inductive IsLineEnd : String → Prop
  | newline : IsLineEnd "\n"
  | returned : IsLineEnd "\r\n"

/-- A text of values, each on a line of its own.  The last line may lack its end. -/
inductive OnLines : List String → String → Prop
  | nil : OnLines [] ""
  | unended (v : String) : OnLines [v] v
  | cons {v lineEnd : String} {values : List String} {text : String} :
      IsLineEnd lineEnd → OnLines values text → OnLines (v :: values) (v ++ lineEnd ++ text)

variable {v : String} {values : List String} {text : String}

/-! ## Values in an argument -/

theorem IsPlain.trimList_eq (h : IsPlain v) : Text.trimList v.toList = v.toList :=
  Text.trimList_eq_self h.first h.last

theorem ofArgument_intercalate (hne : values ≠ []) (h : ∀ v ∈ values, IsPlain v) :
    ofArgument (",".intercalate values) = ofValues values := by
  have hpieces : Text.separated (· == ',') (",".intercalate values).toList =
      values.map String.toList := by
    rw [String.toList_intercalate]
    show Text.separated (· == ',') ([','].intercalate (values.map String.toList)) = _
    refine Text.separated_intercalate rfl (mt List.map_eq_nil_iff.1 hne) ?_
    intro piece hpiece c hc
    obtain ⟨v, hv, rfl⟩ := List.mem_map.1 hpiece
    exact beq_false_of_ne fun heq => (h v hv).no_comma (heq ▸ hc)
  rw [ofArgument, hpieces, List.map_map]
  refine congrArg ofValues ((List.map_congr_left fun v hv => ?_).trans (List.map_id values))
  show String.ofList (Text.trimList v.toList) = v
  rw [(h v hv).trimList_eq, String.ofList_toList]

/-! ## Values on lines -/

theorem trimReturns_append (h : '\r' ∉ v.toList) {returns : List Char}
    (hreturns : ∀ c ∈ returns, c = '\r') : trimReturns (v.toList ++ returns) = v.toList := by
  have hdrop : (returns.reverse ++ v.toList.reverse).dropWhile (· = '\r') = v.toList.reverse := by
    rw [List.dropWhile_append_of_pos (by simpa using hreturns)]
    cases hv : v.toList.reverse with
    | nil => rfl
    | cons c cs =>
      have hc : c ∈ v.toList := List.mem_reverse.1 (hv ▸ List.mem_cons_self)
      have hne : c ≠ '\r' := fun heq => h (heq ▸ hc)
      rw [List.dropWhile_cons, if_neg (by simpa using hne)]
  rw [trimReturns, List.reverse_append, hdrop, List.reverse_reverse]

theorem supplyOfLine_utf8 (h : '\r' ∉ v.toList) {returns : List Char}
    (hreturns : ∀ c ∈ returns, c = '\r') :
    supplyOfLine ((v.toList ++ returns).flatMap String.utf8EncodeChar) = .text v := by
  have hbytes : (String.ofList (v.toList ++ returns)).toUTF8 =
      ⟨((v.toList ++ returns).flatMap String.utf8EncodeChar).toArray⟩ :=
    ByteArray.ext (Array.ext' (by rw [Text.toList_toUTF8, String.toList_ofList]))
  rw [supplyOfLine, ← hbytes, Text.fromUTF8?_toUTF8]
  simp only [String.toList_ofList]
  rw [trimReturns_append h hreturns, String.ofList_toList]

/-- A plain value, with any carriage returns behind it, is the value of its line. -/
theorem ofBytes_cons (h : IsPlain v) {lineEnd : String} (hend : IsLineEnd lineEnd) (text : String) :
    (ofBytes (v ++ lineEnd ++ text).toUTF8).waiting = .text v :: (ofBytes text.toUTF8).waiting := by
  obtain ⟨returns, hlineEnd, hreturns⟩ : ∃ returns, lineEnd.toList = returns ++ ['\n'] ∧
      ∀ c ∈ returns, c = '\r' := by
    cases hend with
    | newline => exact ⟨[], rfl, by simp⟩
    | returned => exact ⟨['\r'], rfl, by simp⟩
  have hline : '\n' ∉ v.toList ++ returns := by
    intro hmem
    rcases List.mem_append.1 hmem with hv | hr
    · exact h.no_newline hv
    · exact absurd (hreturns _ hr) (by decide)
  have hbytes : (v ++ lineEnd ++ text).toUTF8.data.toList =
      (v.toList ++ returns).flatMap String.utf8EncodeChar ++ 10 :: text.toUTF8.data.toList := by
    rw [Text.toList_toUTF8, Text.toList_toUTF8, String.toList_append, String.toList_append, hlineEnd]
    simp only [List.flatMap_append, List.append_assoc]
    rfl
  rw [ofBytes, hbytes, Text.ended_append_cons (Text.newline_not_mem_utf8 hline) rfl, List.map_cons,
    supplyOfLine_utf8 h.no_return hreturns]
  rfl

theorem ofBytes_unended (h : IsPlain v) : ofBytes v.toUTF8 = ofValues [v] := by
  have hne : v.toList.flatMap String.utf8EncodeChar ≠ [] := by
    intro hnil
    refine h.ne_empty (String.toList_eq_nil_iff.1 (List.eq_nil_iff_forall_not_mem.2 fun c hc => ?_))
    exact String.utf8EncodeChar_ne_nil (List.flatMap_eq_nil_iff.1 hnil c hc)
  have hsupply := supplyOfLine_utf8 h.no_return (List.forall_mem_nil _)
  rw [List.append_nil] at hsupply
  rw [ofBytes, Text.toList_toUTF8,
    Text.ended_eq_singleton (Text.newline_not_mem_utf8 h.no_newline) hne, List.map_singleton,
    hsupply]
  rfl

theorem ofBytes_onLines (hlines : OnLines values text) (h : ∀ v ∈ values, IsPlain v) :
    ofBytes text.toUTF8 = ofValues values := by
  induction hlines with
  | nil => rfl
  | unended v => exact ofBytes_unended (h v List.mem_cons_self)
  | @cons v lineEnd values text hend _ ih =>
    have hrest := ih fun w hw => h w (List.mem_cons_of_mem v hw)
    have hwaiting := ofBytes_cons (h v List.mem_cons_self) hend text
    rw [hrest] at hwaiting
    exact congrArg Input.mk hwaiting

/-- Plain values are the same from an argument and from a stream. -/
theorem ofArgument_eq_ofBytes (hne : values ≠ []) (h : ∀ v ∈ values, IsPlain v)
    (hlines : OnLines values text) :
    ofArgument (",".intercalate values) = ofBytes text.toUTF8 := by
  rw [ofArgument_intercalate hne h, ofBytes_onLines hlines h]

end Input

end Mailbox
