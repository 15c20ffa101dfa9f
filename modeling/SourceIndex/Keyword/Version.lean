import SourceIndex.Text.Clip

/-!
# Version words

Words such as `kernel5.10.3`, `c99` and `v*`: a run of small letters followed by a version number, which is at most
two groups of digits with a point after each, and then digits or a star.  A run of small letters is always taken
whole, and the number after it is taken as long as possible: a group is given up only if nothing after it would end
the number.
-/

namespace SourceIndex.Version

/-- The groups of digits with a point which a version number may have. -/
def maxGroups : Nat := 2

/-- Whether the character is one of the small letters a to z. -/
def isLetter (c : Char) : Bool := 'a' ≤ c && c ≤ 'z'

/-- The end of a version number at the front of a text: a star or a run of digits. -/
def lastPart? (t : Text) : Option Text :=
  if t.head? = some '*' then some ['*']
  else
    let digits := t.takeWhile Char.isDigit
    if digits.isEmpty then none else some digits

/-- The version number with at most so many groups of digits at the front of a text. -/
def number? : Nat → Text → Option Text
  | 0, t => lastPart? t
  | groups + 1, t =>
    let digits := t.takeWhile Char.isDigit
    match t.dropWhile Char.isDigit with
    | '.' :: rest =>
      if digits.isEmpty then lastPart? t
      else ((number? groups rest).map fun number => digits ++ '.' :: number).or (lastPart? t)
    | _ => lastPart? t

/-- The version word made of two neighbouring runs, the first of small letters. -/
def word? (run next : Text) : Option Text :=
  if run.all isLetter then (number? maxGroups next).map (run ++ ·) else none

/-- A text cut into its longest runs of small letters and of other characters. -/
def runs (t : Text) : List Text := t.splitBy fun a b => isLetter a == isLetter b

/-- The version words of a text, from left to right. -/
def wordsOf (t : Text) : List Text :=
  ((runs t).zip (runs t).tail).filterMap fun (run, next) => word? run next

/-- The version words among the first `limit` characters of a content. -/
def words (limit : Nat) (content : Text) : List Text := wordsOf (Text.clip limit content)

/-- The version words of a content, each after a space. -/
def extract (limit : Nat) (content : Text) : Text := Text.spaced (words limit content)

example : words 100 "kernel5.10.3 c99, v* d1. Kernel2".toList
    = ["kernel5.10.3".toList, "c99".toList, "v*".toList, "d1".toList, "ernel2".toList] := by decide +kernel

/-- A group without a number after it is given up, and a third group is never taken. -/
example : words 100 "a1.2.x b1.2.3.4".toList = ["a1.2".toList, "b1.2.3".toList] := by decide +kernel

end SourceIndex.Version
