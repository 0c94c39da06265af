/-! White space of all scripts, and texts without the white space around them. -/

namespace StackCode.Text

/-- The twenty-five characters with the white-space property. -/
def isBlank (c : Char) : Bool :=
  let code := c.toNat
  (9 ≤ code && code ≤ 13) || code == 0x20 || code == 0x85 || code == 0xA0 || code == 0x1680 ||
    (0x2000 ≤ code && code ≤ 0x200A) || code == 0x2028 || code == 0x2029 || code == 0x202F ||
    code == 0x205F || code == 0x3000

/-- A text without its last characters as long as they satisfy `p`. -/
def dropLastWhile (p : Char → Bool) (text : List Char) : List Char :=
  (text.reverse.dropWhile p).reverse

def trim (text : List Char) : List Char := dropLastWhile isBlank (text.dropWhile isBlank)

end StackCode.Text
