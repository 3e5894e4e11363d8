set_option autoImplicit false

/-!
# White space

The characters with the Unicode property White_Space, and text without them at its ends.
-/

namespace Mailbox.Text

/-- The ranges of the property White_Space, both ends included. -/
def spaceRanges : List (Nat × Nat) :=
  [(0x09, 0x0D), (0x20, 0x20), (0x85, 0x85), (0xA0, 0xA0), (0x1680, 0x1680), (0x2000, 0x200A),
    (0x2028, 0x2029), (0x202F, 0x202F), (0x205F, 0x205F), (0x3000, 0x3000)]

/-- A white space character. -/
def isSpace (c : Char) : Bool :=
  spaceRanges.any fun r => r.1 ≤ c.toNat && c.toNat ≤ r.2

/-- Text without the white space at both its ends. -/
def trimList (cs : List Char) : List Char :=
  ((cs.dropWhile isSpace).reverse.dropWhile isSpace).reverse

/-- Text without the white space at both its ends. -/
def trim (s : String) : String :=
  String.ofList (trimList s.toList)

end Mailbox.Text
