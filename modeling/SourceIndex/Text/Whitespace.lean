import SourceIndex.Text.Basic

/-!
# White space

The characters with the Unicode property White_Space.  It holds the no-break space and the ideographic space, but
neither the zero-width space nor the four information separators U+001C to U+001F.
-/

namespace SourceIndex.Text

/-- The ranges of code points with the property White_Space. -/
def whitespaceRanges : List (Nat × Nat) :=
  [(0x9, 0xD), (0x20, 0x20), (0x85, 0x85), (0xA0, 0xA0), (0x1680, 0x1680), (0x2000, 0x200A), (0x2028, 0x2029),
   (0x202F, 0x202F), (0x205F, 0x205F), (0x3000, 0x3000)]

/-- Whether the character is white space. -/
def isWhitespace (c : Char) : Bool :=
  whitespaceRanges.any fun (first, last) => first ≤ c.toNat && c.toNat ≤ last

/-- The text without the white space at its two ends. -/
def trimWhitespace (t : Text) : Text := trimBy isWhitespace t

example : isWhitespace '\u00a0' = true ∧ isWhitespace '\u200b' = false ∧ isWhitespace '\x1c' = false := by decide

end SourceIndex.Text
