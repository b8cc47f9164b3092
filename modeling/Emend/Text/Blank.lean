import Emend.Text.Basic

namespace Emend

/-- The first and last code point of each run of blank characters. -/
def blankRanges : List (Nat × Nat) :=
  [(0x09, 0x0D), (0x1C, 0x20), (0x85, 0x85), (0xA0, 0xA0), (0x1680, 0x1680), (0x2000, 0x200A),
   (0x2028, 0x2029), (0x202F, 0x202F), (0x205F, 0x205F), (0x3000, 0x3000)]

/-- Blank characters separate and show no ink. A zero-width space and a byte order mark are not blank. -/
def isBlank (c : Char) : Bool :=
  blankRanges.any fun (low, high) => low ≤ c.toNat && c.toNat ≤ high

namespace Text

def trimRight (t : Text) : Text := (t.reverse.dropWhile isBlank).reverse

def trimLeft (t : Text) : Text := t.dropWhile isBlank

def trim (t : Text) : Text := t.trimLeft.trimRight

@[simp] theorem trimRight_nil : trimRight [] = [] := rfl

@[simp] theorem trim_nil : trim [] = [] := rfl

end Text

end Emend
