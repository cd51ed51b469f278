/-
ApiEmit.Text.Blank — texts that hold nothing but white space.

White space is the Unicode property White_Space, which is more than the blank
characters of ASCII.
-/

namespace ApiEmit.Text

/-- The characters of the Unicode property White_Space. -/
def isBlankChar (c : Char) : Bool :=
  let n := c.toNat
  (0x09 ≤ n && n ≤ 0x0D) || n == 0x20 || n == 0x85 || n == 0xA0 || n == 0x1680 ||
    (0x2000 ≤ n && n ≤ 0x200A) || n == 0x2028 || n == 0x2029 || n == 0x202F || n == 0x205F ||
    n == 0x3000

/-- A text is blank when it has no character besides white space. -/
def isBlank (text : String) : Bool :=
  text.toList.all isBlankChar

end ApiEmit.Text
