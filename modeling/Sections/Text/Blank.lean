import Sections.Text

namespace Sections.Text

-- Closed ranges of the blank units: the tabs and line ends, the spaces of
-- every width, the no-break spaces and the zero-width no-break space.
def blankRanges : List (Nat × Nat) :=
  [(0x09, 0x0D), (0x20, 0x20), (0xA0, 0xA0), (0x1680, 0x1680), (0x2000, 0x200A),
   (0x2028, 0x2029), (0x202F, 0x202F), (0x205F, 0x205F), (0x3000, 0x3000), (0xFEFF, 0xFEFF)]

def isBlank (c : CodeUnit) : Bool :=
  blankRanges.any fun range => range.1 ≤ c.toNat && c.toNat ≤ range.2

-- Removes the longest run of blanks at the end.
def trimEnd (text : Text) : Text := (text.reverse.dropWhile isBlank).reverse

-- Removes the longest runs of blanks at both ends.
def trim (text : Text) : Text := trimEnd (text.dropWhile isBlank)

end Sections.Text
