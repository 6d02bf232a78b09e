import Stylesheet.Text.Ranges

/-!
# Blank characters

White space is the Unicode property of that name: twenty-five code points, among them the
no-break space and the ideographic space, but neither the zero width space nor the byte order
mark. Trimming removes blanks at the ends of a text.
-/

namespace Stylesheet.Text

/-- The ranges of the code points with the property `White_Space`. -/
def blankTable : List (Nat × Nat) :=
  [(0x0009, 0x000D), (0x0020, 0x0020), (0x0085, 0x0085), (0x00A0, 0x00A0), (0x1680, 0x1680),
   (0x2000, 0x200A), (0x2028, 0x2029), (0x202F, 0x202F), (0x205F, 0x205F), (0x3000, 0x3000)]

theorem ascends_blankTable : ascendsFrom 0 blankTable = true := by decide +kernel

/-- The code points with the property `White_Space`. -/
def blankRanges : Ranges := ⟨blankTable, ascends_blankTable⟩

/-- Whether a character is white space. -/
def isBlank (c : Char) : Bool := blankRanges.contains c.toNat

/-- The characters of a text after its leading blanks. -/
def dropBlanks (cs : List Char) : List Char := cs.dropWhile isBlank

/-- The characters of a text between its leading and its trailing blanks. -/
def trimBlanks (cs : List Char) : List Char :=
  (dropBlanks (dropBlanks cs).reverse).reverse

@[simp] theorem dropBlanks_nil : dropBlanks [] = [] := rfl

@[simp] theorem trimBlanks_nil : trimBlanks [] = [] := rfl

end Stylesheet.Text
