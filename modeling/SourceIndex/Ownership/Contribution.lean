import SourceIndex.Numeric.Power
import SourceIndex.Text.Basic

/-!
# The owner of a file

A file belongs to the contributor whose lines, divided by the age of the last commit to the power of 1.8, are most.
The age is counted in whole hours, so a contribution of the current hour outweighs every older one.  A score that is
undefined or zero never wins, and of equal scores the first one does.
-/

namespace SourceIndex

/-- What one contributor has in a file. -/
structure Contribution where
  name : Text
  /-- The lines attributed to the contributor. -/
  lineCount : UInt64
  /-- The time of the contributor's last commit to the file, in seconds since 1970. -/
  lastCommit : Int64
deriving DecidableEq

namespace Contribution

/-- The owner of a file to which nobody has contributed. -/
def unknownOwner : Text := "Unknown".toList

/-- The nearest integer that a signed word of 64 bits can hold. -/
def saturate (n : Int) : Int := max Int64.minValue.toInt (min n Int64.maxValue.toInt)

/-- The age of a contribution in hours, which is negative only for a commit at least an hour ahead. -/
def age (now : Int64) (c : Contribution) : Int := (saturate (now.toInt - c.lastCommit.toInt)).tdiv 3600

/-- What the lines of a contribution are divided by. -/
def decay (age : Int) : Binary64 := if age < 0 then .undefined else Numeric.powOnePointEight age.toNat

/-- The weight of a contribution. -/
def score (now : Int64) (c : Contribution) : Binary64 := .ofNat c.lineCount.toNat / decay (c.age now)

/-- The best score so far and the contribution it belongs to, after one more contribution. -/
def lead (now : Int64) (best : Binary64 × Option Contribution) (c : Contribution) : Binary64 × Option Contribution :=
  if best.1.less (c.score now) then (c.score now, some c) else best

/-- The contribution with the highest score above zero, the first of several. -/
def leader? (now : Int64) (cs : List Contribution) : Option Contribution :=
  (cs.foldl (lead now) (.finite 0, none)).2

/-- The owner of a file. -/
def owner (now : Int64) (cs : List Contribution) : Text := ((leader? now cs).map name).getD unknownOwner

end Contribution

end SourceIndex
