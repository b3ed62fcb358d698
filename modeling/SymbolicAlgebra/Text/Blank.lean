/-! Blank characters: the members of the Unicode property White_Space, and text
without the blank ends. -/

namespace SymbolicAlgebra.Text

/-- The ranges of the property, first and last code point of each. -/
def blankRanges : List (Nat × Nat) :=
  [(0x0009, 0x000D), (0x0020, 0x0020), (0x0085, 0x0085), (0x00A0, 0x00A0), (0x1680, 0x1680),
    (0x2000, 0x200A), (0x2028, 0x2029), (0x202F, 0x202F), (0x205F, 0x205F), (0x3000, 0x3000)]

def isBlank (c : Char) : Bool :=
  blankRanges.any fun (first, last) => first ≤ c.toNat && c.toNat ≤ last

def trimStart (cs : List Char) : List Char := cs.dropWhile isBlank

def trim (cs : List Char) : List Char := (trimStart (trimStart cs).reverse).reverse

/-- The bytes of a text. -/
def width : List Char → Nat
  | [] => 0
  | c :: cs => c.utf8Size + width cs

/-- The parts before and after the first comma that a space follows. -/
def splitAtComma? : List Char → Option (List Char × List Char)
  | [] => none
  | ',' :: ' ' :: rest => some ([], rest)
  | c :: rest => (splitAtComma? rest).map fun (before, after) => (c :: before, after)

end SymbolicAlgebra.Text
