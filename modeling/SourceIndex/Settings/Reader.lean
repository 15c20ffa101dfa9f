import SourceIndex.Settings.Basic
import SourceIndex.Settings.Value

/-!
# Reading a settings document

A document is a TOML document without tables: a sequence of lines, each with a key and a value or with neither, and
each may end with a comment.  Six keys are known, each may stand once and takes a value of one type; everything else
makes the document malformed.
-/

namespace SourceIndex.Settings

/-- Reads the end of a line: blanks, a comment, and a line end or the end of the document. -/
def readLineEnd (t : Text) : Option Text :=
  let t := t.dropWhile isLineBlank
  let t := if t.head? = some '#' then t.dropWhile isPlain else t
  if t.isEmpty then some [] else dropLineEnd? t

/-- Whether a character may belong to a key without quotes. -/
def isKeyChar (c : Char) : Bool := c.isAlphanum || c == '_' || c == '-'

/-- Reads a key, bare or in quotes. -/
def readKey : Text → Option (Text × Text)
  | '"' :: rest => readBasic rest
  | '\'' :: rest => readLiteral rest
  | t =>
    let key := t.takeWhile isKeyChar
    if key.isEmpty then none else some (key, t.drop key.length)

/-- Reads a line with a key and a value. -/
def readEntry (t : Text) : Option ((Text × Value) × Text) := do
  let (key, rest) ← readKey t
  let rest ← match rest.dropWhile isLineBlank with
    | '=' :: rest => some rest
    | _ => none
  let (value, rest) ← readValue (rest.dropWhile isLineBlank)
  let rest ← readLineEnd rest
  return ((key, value), rest)

/-- Reads the lines of a document.  Every line takes at least one of `fuel` characters. -/
def readEntriesFrom : (fuel : Nat) → Text → Option (List (Text × Value))
  | 0, _ => none
  | fuel + 1, t =>
    let t := t.dropWhile isLineBlank
    if t.isEmpty then some []
    else
      match readLineEnd t with
      | some rest => readEntriesFrom fuel rest
      | none => (readEntry t).bind fun (entry, rest) => (readEntriesFrom fuel rest).map (entry :: ·)

/-- Reads the keys and values of a document, which may begin with a byte order mark. -/
def readEntries (t : Text) : Option (List (Text × Value)) :=
  let t := if t.head? = some '\ufeff' then t.tail else t
  readEntriesFrom (t.length + 1) t

/-! ### From entries to a document -/

/-- The document that gives no value. -/
def Document.empty : Document := ⟨none, none, none, none, none, none⟩

/-- The document with one more value, unless the key is unknown or given already or the value does not fit it. -/
def Document.insert? (doc : Document) (key : Text) (value : Value) : Option Document :=
  match String.ofList key, value with
  | "max_split_length", .integer n =>
    if doc.splitLimit.isNone && 0 ≤ n && n < UInt64.size then some { doc with splitLimit := some n.toNat } else none
  | "minified_length", .integer n =>
    if doc.minifiedLength.isNone && Int64.minValue.toInt ≤ n && n ≤ Int64.maxValue.toInt then
      some { doc with minifiedLength := some n }
    else none
  | "binary_whitelist", .text t => if doc.whitelist.isNone then some { doc with whitelist := some t } else none
  | "binary_blacklist", .text t => if doc.blacklist.isNone then some { doc with blacklist := some t } else none
  | "guess_binary", .truth b => if doc.guessBinary.isNone then some { doc with guessBinary := some b } else none
  | "and_match_default", .truth b => if doc.matchAll.isNone then some { doc with matchAll := some b } else none
  | _, _ => none

/-- The document of a text. -/
def Document.ofText? (t : Text) : Option Document :=
  (readEntries t).bind fun entries => entries.foldlM (fun doc (key, value) => doc.insert? key value) .empty

end SourceIndex.Settings
