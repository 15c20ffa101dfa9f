import SourceIndex.Text.Basic

/-!
# Values in a settings document

The values of a TOML document that a setting can take: `true` and `false`, integers and texts.  Integers are decimal
with an optional sign, or hexadecimal, octal or binary; single underscores may stand between digits.  Texts are basic
(double quotes, with escapes) or literal (single quotes, without), each in a form for one line and one for several.  A
reading function takes what it reads from the front of a text and returns the rest.
-/

namespace SourceIndex.Settings

/-- A value in a document. -/
inductive Value where
  | truth (b : Bool)
  | integer (n : Int)
  | text (t : Text)
deriving DecidableEq

/-! ### Characters -/

/-- The blanks inside a line. -/
def isLineBlank (c : Char) : Bool := c == ' ' || c == '\t'

/-- The characters that a text or a comment may hold as they are: all but the control characters, and the tab. -/
def isPlain (c : Char) : Bool := c == '\t' || (' ' ≤ c && c != '\x7f')

/-- The text after one line end at its front, if there is one. -/
def dropLineEnd? : Text → Option Text
  | '\n' :: rest => some rest
  | '\r' :: '\n' :: rest => some rest
  | _ => none

/-! ### Integers -/

/-- The value of a digit of the given base. -/
def digit? (base : Nat) (c : Char) : Option Nat :=
  let value? :=
    if c.isDigit then some (c.toNat - '0'.toNat)
    else if 'a' ≤ c && c ≤ 'f' then some (c.toNat - 'a'.toNat + 10)
    else if 'A' ≤ c && c ≤ 'F' then some (c.toNat - 'A'.toNat + 10)
    else none
  value?.filter (· < base)

/-- The value of a sequence of digits. -/
def ofDigits? (base : Nat) (digits : Text) : Option Nat :=
  digits.foldl (fun n? c => n?.bind fun n => (digit? base c).map (n * base + ·)) (some 0)

/-- The value of a sequence of digits in which single underscores may stand between two digits. -/
def natural? (base : Nat) (t : Text) : Option Nat :=
  let groups := t.splitOn '_'
  if groups.any List.isEmpty then none else ofDigits? base groups.flatten

/-- The value of a decimal number, which begins with a zero only if it is zero. -/
def decimal? (t : Text) : Option Nat :=
  if t.head? = some '0' && t.length ≠ 1 then none else natural? 10 t

/-- The integer which a whole text writes. -/
def integer? : Text → Option Int
  | '+' :: digits => (decimal? digits).map Int.ofNat
  | '-' :: digits => (decimal? digits).map fun n => -(n : Int)
  | '0' :: 'x' :: digits => (natural? 16 digits).map Int.ofNat
  | '0' :: 'o' :: digits => (natural? 8 digits).map Int.ofNat
  | '0' :: 'b' :: digits => (natural? 2 digits).map Int.ofNat
  | digits => (decimal? digits).map Int.ofNat

/-! ### Texts -/

/-- Reads a character given by so many hexadecimal digits. -/
def readCode (count : Nat) (t : Text) : Option (Char × Text) :=
  let digits := t.take count
  if digits.length = count then
    ((ofDigits? 16 digits).filter fun n => n.isValidChar).map fun n => (Char.ofNat n, t.drop count)
  else none

/-- Reads the character which an escape stands for, after its backslash. -/
def readEscape : Text → Option (Char × Text)
  | 'b' :: rest => some ('\x08', rest)
  | 't' :: rest => some ('\t', rest)
  | 'n' :: rest => some ('\n', rest)
  | 'f' :: rest => some ('\x0c', rest)
  | 'r' :: rest => some ('\r', rest)
  | 'e' :: rest => some ('\x1b', rest)
  | '"' :: rest => some ('"', rest)
  | '\\' :: rest => some ('\\', rest)
  | 'x' :: rest => readCode 2 rest
  | 'u' :: rest => readCode 4 rest
  | 'U' :: rest => readCode 8 rest
  | _ => none

/-- Reads a basic text on one line, after its opening quote.  Every step takes at least one of `fuel` characters. -/
def readBasicFrom : (fuel : Nat) → (done : Text) → Text → Option (Text × Text)
  | 0, _, _ => none
  | _ + 1, done, '"' :: rest => some (done.reverse, rest)
  | fuel + 1, done, '\\' :: rest => (readEscape rest).bind fun (c, rest) => readBasicFrom fuel (c :: done) rest
  | fuel + 1, done, c :: rest => if isPlain c then readBasicFrom fuel (c :: done) rest else none
  | _ + 1, _, [] => none

/-- Reads a basic text on one line, after its opening quote. -/
def readBasic (t : Text) : Option (Text × Text) := readBasicFrom (t.length + 1) [] t

/-- Reads a literal text on one line, after its opening quote. -/
def readLiteral (t : Text) : Option (Text × Text) :=
  let body := t.takeWhile fun c => isPlain c && c != '\''
  match t.drop body.length with
  | '\'' :: rest => some (body, rest)
  | _ => none

/-- The text after a backslash that ends a line: the blanks and line ends up to the next other character. -/
def continueLine (fuel : Nat) (t : Text) : Text :=
  match fuel with
  | 0 => t
  | fuel + 1 =>
    let t := t.dropWhile isLineBlank
    match dropLineEnd? t with
    | some rest => continueLine fuel rest
    | none => t

/-- The text between a backslash and the next character, if the backslash ends a line. -/
def continuation? (t : Text) : Option Text :=
  (dropLineEnd? (t.dropWhile isLineBlank)).map fun rest => continueLine (rest.length + 1) rest

/-- Reads what follows three closing quotes: up to two more quotes, which belong to the text. -/
def closeQuotes (quote : Char) (done rest : Text) : Text × Text :=
  let extra := (rest.take 2).takeWhile (· == quote)
  (done.reverse ++ extra, rest.drop extra.length)

/-- Reads a text on several lines, after its opening quotes.  In a basic text a backslash begins an escape or joins a
line to the next.  Every step takes at least one of `fuel` characters. -/
def readLinesFrom (quote : Char) (basic : Bool) : (fuel : Nat) → (done : Text) → Text → Option (Text × Text)
  | 0, _, _ => none
  | fuel + 1, done, t =>
    match t with
    | [] => none
    | '\n' :: rest => readLinesFrom quote basic fuel ('\n' :: done) rest
    | '\r' :: '\n' :: rest => readLinesFrom quote basic fuel ('\n' :: '\r' :: done) rest
    | c :: rest =>
      if (t.take 3).length = 3 && (t.take 3).all (· == quote) then some (closeQuotes quote done (t.drop 3))
      else if basic && c == '\\' then
        match continuation? rest with
        | some rest => readLinesFrom quote basic fuel done rest
        | none => (readEscape rest).bind fun (c, rest) => readLinesFrom quote basic fuel (c :: done) rest
      else if isPlain c then readLinesFrom quote basic fuel (c :: done) rest
      else none

/-- Reads a text on several lines, after its opening quotes; a line end right after them does not belong to it. -/
def readLines (quote : Char) (basic : Bool) (t : Text) : Option (Text × Text) :=
  readLinesFrom quote basic (t.length + 1) [] ((dropLineEnd? t).getD t)

/-! ### Values -/

/-- Whether a character may belong to a value without quotes. -/
def isBare (c : Char) : Bool := c.isAlphanum || ['_', '+', '-', '.', ':'].contains c

/-- The value which a whole text without quotes writes. -/
def bareValue? (t : Text) : Option Value :=
  if t = "true".toList then some (.truth true)
  else if t = "false".toList then some (.truth false)
  else (integer? t).map .integer

/-- Reads a value. -/
def readValue : Text → Option (Value × Text)
  | '"' :: '"' :: '"' :: rest => (readLines '"' true rest).map fun (t, rest) => (.text t, rest)
  | '\'' :: '\'' :: '\'' :: rest => (readLines '\'' false rest).map fun (t, rest) => (.text t, rest)
  | '"' :: rest => (readBasic rest).map fun (t, rest) => (.text t, rest)
  | '\'' :: rest => (readLiteral rest).map fun (t, rest) => (.text t, rest)
  | t => (bareValue? (t.takeWhile isBare)).map fun value => (value, t.dropWhile isBare)

example : integer? "1_000".toList = some 1000 ∧ integer? "0xfF".toList = some 255 ∧ integer? "-0".toList = some 0
    ∧ integer? "007".toList = none ∧ integer? "1__0".toList = none ∧ integer? "+".toList = none := by
  decide +kernel

end SourceIndex.Settings
