/-!
# White space

The white space that readers of keys, numbers and expressions skip: the space characters of Unicode
together with the control characters that separate lines and columns. A zero-width space and a byte
order mark are not among them.

`Interleaving.Text.trim` takes white space off both ends of a text.
-/

namespace Interleaving.Text

/-- White space of Unicode: the property that separates words and lines. -/
def isBlank (c : Char) : Bool :=
  let n := c.toNat
  (0x09 ≤ n && n ≤ 0x0d) || n == 0x20 || n == 0x85 || n == 0xa0 || n == 0x1680 ||
    (0x2000 ≤ n && n ≤ 0x200a) || n == 0x2028 || n == 0x2029 || n == 0x202f || n == 0x205f ||
    n == 0x3000

/-- The characters without the white space they start with. -/
def trimLeft (cs : List Char) : List Char := cs.dropWhile isBlank

/-- The characters without the white space they end with. -/
def trimRight (cs : List Char) : List Char := (cs.reverse.dropWhile isBlank).reverse

/-- The characters without the white space at either end. -/
def trim (cs : List Char) : List Char := trimRight (trimLeft cs)

end Interleaving.Text
