import SourceIndex.Text.Basic

/-!
# Findings

Why a file is indexed or kept out, and the finding that is reported for it.
-/

namespace SourceIndex

/-- The outcome of a check whether a file is binary; the reason is empty if there is none in particular. -/
structure Finding where
  isBinary : Bool
  reason : Text
deriving DecidableEq

/-- The ground on which a file is taken for binary or not. -/
inductive Ground where
  | emptyFile
  | whitelisted
  | blacklisted
  | knownLanguage
  /-- The content is not looked at. -/
  | unexamined
  | noAscii
  | littleAscii
  | enoughAscii
deriving DecidableEq

/-- The finding that is reported for a ground. -/
def Ground.finding : Ground → Finding
  | .emptyFile => ⟨true, "file is empty".toList⟩
  | .whitelisted => ⟨false, "appears in extension whitelist".toList⟩
  | .blacklisted => ⟨true, "appears in extension blacklist".toList⟩
  | .knownLanguage => ⟨false, "appears in internal extension whitelist".toList⟩
  | .unexamined => ⟨false, []⟩
  | .noAscii => ⟨true, "all characters found non-ascii".toList⟩
  | .littleAscii => ⟨true, "only 30% of characters are non-ascii".toList⟩
  | .enoughAscii => ⟨false, []⟩

end SourceIndex
