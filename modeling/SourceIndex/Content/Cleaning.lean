import SourceIndex.Text.Basic

/-!
# Cleaning levels

The indexable form of code keeps one copy of the content for each of six levels of cleaning.  Every level replaces a
further set of punctuation by spaces, so that a fragment such as `i++` survives as a word at some level whatever
stands around it.  A level never moves a character (`length_of_mem_levels`).
-/

namespace SourceIndex.Cleaning

/-- The punctuation that each level replaces, besides that of the levels before it. -/
def passes : List (List Char) :=
  [['<', '>', ')', '(', '[', ']', '|', '=', ',', ':'],
   ['.'],
   [';', '{', '}', '/'],
   ['"', '\''],
   ['\'', '"', '.', ';', '=', '(', ')', '[', ']', '_', ';', '@', '#'],
   ['-']]

/-- The text with the characters of a set replaced by spaces. -/
def blank (replaced : List Char) (t : Text) : Text := t.map fun c => if replaced.contains c then ' ' else c

/-- The copies of a text after each of the passes, every pass starting from the copy before it. -/
def levels : List (List Char) → Text → List Text
  | [], _ => []
  | replaced :: rest, t => blank replaced t :: levels rest (blank replaced t)

/-- The copies of a content at all levels, each after a space. -/
def clean (content : Text) : Text := Text.spaced (levels passes content)

theorem length_of_mem_levels {sets : List (List Char)} {t copy : Text} (h : copy ∈ levels sets t) :
    copy.length = t.length := by
  induction sets generalizing t with
  | nil => simp [levels] at h
  | cons s sets ih =>
    rcases List.mem_cons.mp h with rfl | h
    · simp [blank]
    · rw [ih h]; simp [blank]

example : clean "x-y_z;".toList = " x-y_z; x-y_z; x-y_z  x-y_z  x-y z  x y z ".toList := by decide +kernel

end SourceIndex.Cleaning
