import SourceIndex.Text.Basic

/-!
# UTF-16 code units

How many code units a character takes in UTF-16, and how many of them are small.
-/

namespace SourceIndex.Text

/-- The number of UTF-16 code units of a character: two beyond U+FFFF. -/
def unitCount (c : Char) : Nat := if c.toNat ≤ 0xFFFF then 1 else 2

/-- The number of UTF-16 code units of a list of characters which satisfy `p`. -/
def countUnits (p : Char → Bool) (t : Text) : Nat :=
  t.foldl (fun n c => if p c then n + unitCount c else n) 0

end SourceIndex.Text
