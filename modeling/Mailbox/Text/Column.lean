set_option autoImplicit false

/-!
# Columns

Setting text to a least width, counted in characters.  Text that is wider stays whole.
-/

namespace Mailbox.Text

/-- A run of one character. -/
def fill (n : Nat) (c : Char) : String :=
  String.ofList (List.replicate n c)

/-- Text at the right of a column. -/
def alignRight (width : Nat) (s : String) : String :=
  fill (width - s.length) ' ' ++ s

/-- Text at the left of a column. -/
def alignLeft (width : Nat) (s : String) : String :=
  s ++ fill (width - s.length) ' '

/-- A number with zeros in front of its digits, after its sign. -/
def zeroPad (width : Nat) (n : Int) : String :=
  if n < 0 then
    let digits := toString n.natAbs
    "-" ++ fill (width - 1 - digits.length) '0' ++ digits
  else
    let digits := toString n.natAbs
    fill (width - digits.length) '0' ++ digits

end Mailbox.Text
