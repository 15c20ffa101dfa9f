import SourceIndex.Settings.Basic

/-!
# Settings files

The settings of a file, given its path and its bytes.  A file may be missing or hold no UTF-8, or its text may be no
good document of settings; the path stands in the message either way.
-/

namespace SourceIndex.Settings

/-- Why no settings come from a file. -/
inductive FileError where
  | unreadable (path : Text)
  | rejected (path : Text) (cause : SettingsError)
deriving DecidableEq

/-- The explanation of an error. -/
def FileError.message : FileError → Text
  | .unreadable path => "Failed to read config file ".toList ++ path
  | .rejected path cause =>
    "Failed to load config from ".toList ++ path
      ++ (match cause.message? with
          | some detail => ": ".toList ++ detail
          | none => [])

/-- The settings of the file at a path, given how its text is decoded and its bytes if it exists. -/
def ofFile (decode? : Text → Option Document) (path : Text) (bytes : Option ByteArray) : Except FileError Settings :=
  match bytes.bind String.fromUTF8? with
  | none => .error (.unreadable path)
  | some content => (ofText decode? content.toList).mapError (.rejected path)

end SourceIndex.Settings
