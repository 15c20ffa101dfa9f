import SourceIndex.Text.Lowercase
import SourceIndex.Text.Whitespace

/-!
# File name extensions

Extensions are compared in one spelling: without white space at the ends, without one leading dot, in lowercase.  A
name has every extension that follows one of its dots, so `lib.min.js` has `min.js` and `js`.  Key fact: a name has an
extension exactly if it ends with a dot and the extension (`mem_dottedSuffixes_iff`).
-/

namespace SourceIndex.Extension

/-- The text without one leading dot. -/
def dropDot : Text → Text
  | '.' :: rest => rest
  | t => t

/-- The spelling in which extensions are compared. -/
def normalize (entry : Text) : Text := Text.lowercase (dropDot (Text.trimWhitespace entry))

/-- The entries of a list in the spelling in which they are compared, without the empty ones. -/
def normalizeAll (entries : List Text) : List Text := (entries.map normalize).filter fun entry => !entry.isEmpty

/-- What follows each dot of a name, the longest first. -/
def dottedSuffixes : Text → List Text
  | [] => []
  | c :: rest => if c = '.' then rest :: dottedSuffixes rest else dottedSuffixes rest

/-- Whether a name has one of the extensions. -/
def hasAny (extensions : List Text) (name : Text) : Bool := (dottedSuffixes name).any extensions.contains

theorem mem_dottedSuffixes_iff {name extension : Text} :
    extension ∈ dottedSuffixes name ↔ '.' :: extension <:+ name := by
  induction name with
  | nil => simp [dottedSuffixes]
  | cons c rest ih =>
    rw [dottedSuffixes, List.suffix_cons_iff]
    split
    · simp [*]
    · next hc => simp [ih, Ne.symm hc]

end SourceIndex.Extension
