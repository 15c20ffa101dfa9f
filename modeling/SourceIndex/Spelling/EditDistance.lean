import SourceIndex.Text.Basic

/-!
# Edit distance

The least number of insertions, deletions and substitutions of single characters that turns one text into another,
as long as it does not exceed a limit.  Equal characters at the front need no edit, so the search branches only where
the texts differ, at most once for each edit that the limit allows.
-/

namespace SourceIndex.EditDistance

/-- The least of the numbers that are there. -/
def least? (numbers : List (Option Nat)) : Option Nat := (numbers.filterMap id).min?

/-- The number of edits between two texts within `limit`, where `fewer` finds those within one edit less. -/
def search (limit : Nat) (fewer : Text → Text → Option Nat) : Text → Text → Option Nat
  | [], b => if b.length ≤ limit then some b.length else none
  | x :: a, [] => if (x :: a).length ≤ limit then some (x :: a).length else none
  | x :: a, y :: b =>
    if x = y then search limit fewer a b
    else (least? [fewer a b, fewer a (y :: b), fewer (x :: a) b]).map (· + 1)

/-- The least number of edits between two texts, if it is at most the limit. -/
def within? : Nat → Text → Text → Option Nat
  | 0 => search 0 fun _ _ => none
  | limit + 1 => search (limit + 1) (within? limit)

example :
    within? 2 "recieve".toList "receive".toList = some 2 ∧ within? 1 "recieve".toList "receive".toList = none := by
  decide +kernel

end SourceIndex.EditDistance
