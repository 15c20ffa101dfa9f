import SourceIndex.Json.Value

/-!
# Reading JSON

Reads one value from the front of a text and returns the rest.  The grammar is the strict one: no comments, no comma
after the last item, no zero before another digit, no control character inside quotes.
-/

namespace SourceIndex.Json

/-- The white space between the tokens of a document. -/
def isSpace (c : Char) : Bool := c == ' ' || c == '\t' || c == '\n' || c == '\r'

/-- The text without the white space at its front. -/
def skipSpace (t : Text) : Text := t.dropWhile isSpace

/-! ### Quoted texts -/

/-- The value of a hexadecimal digit. -/
def hexValue? (c : Char) : Option Nat :=
  if c.isDigit then some (c.toNat - '0'.toNat)
  else if 'a' ≤ c && c ≤ 'f' then some (c.toNat - 'a'.toNat + 10)
  else if 'A' ≤ c && c ≤ 'F' then some (c.toNat - 'A'.toNat + 10)
  else none

/-- The value of four hexadecimal digits. -/
def unit? (a b c d : Char) : Option Nat := do
  return (((← hexValue? a) * 16 + (← hexValue? b)) * 16 + (← hexValue? c)) * 16 + (← hexValue? d)

/-- The character which a backslash and a letter stand for. -/
def escaped? (c : Char) : Option Char :=
  match c with
  | '"' => some '"'
  | '\\' => some '\\'
  | '/' => some '/'
  | 'b' => some '\x08'
  | 'f' => some '\x0c'
  | 'n' => some '\n'
  | 'r' => some '\r'
  | 't' => some '\t'
  | _ => none

/-- Reads a quoted text after its opening quote, as the code points of its characters and the code units of its
numeric escapes. -/
def readCodes : Text → Option (List Nat × Text)
  | [] => none
  | '"' :: rest => some ([], rest)
  | '\\' :: 'u' :: a :: b :: c :: d :: rest =>
    (unit? a b c d).bind fun code => (readCodes rest).map fun (codes, rest) => (code :: codes, rest)
  | '\\' :: c :: rest =>
    (escaped? c).bind fun c => (readCodes rest).map fun (codes, rest) => (c.toNat :: codes, rest)
  | c :: rest =>
    if c < ' ' || c == '\\' then none else (readCodes rest).map fun (codes, rest) => (c.toNat :: codes, rest)

/-- Whether a code is the first half of a character beyond U+FFFF. -/
def isHighHalf (code : Nat) : Bool := 0xD800 ≤ code && code < 0xDC00

/-- Whether a code is the second half of a character beyond U+FFFF. -/
def isLowHalf (code : Nat) : Bool := 0xDC00 ≤ code && code < 0xE000

/-- The character of two halves. -/
def joinHalves (high low : Nat) : Char := Char.ofNat (0x10000 + (high - 0xD800) * 0x400 + (low - 0xDC00))

/-- The text of codes, if every half of a character stands with its other half. -/
def ofCodes? : List Nat → Option Text
  | [] => some []
  | [code] => if isHighHalf code || isLowHalf code then none else some [Char.ofNat code]
  | code :: next :: rest =>
    if isHighHalf code then
      if isLowHalf next then (ofCodes? rest).map (joinHalves code next :: ·) else none
    else if isLowHalf code then none
    else (ofCodes? (next :: rest)).map (Char.ofNat code :: ·)

/-- Reads a quoted text after its opening quote. -/
def readText (t : Text) : Option (Option Text × Text) :=
  (readCodes t).map fun (codes, rest) => (ofCodes? codes, rest)

/-! ### Numbers -/

/-- The value of decimal digits. -/
def ofDigits (digits : Text) : Nat := digits.foldl (fun n c => n * 10 + (c.toNat - '0'.toNat)) 0

/-- Reads digits, at least one. -/
def readDigits (t : Text) : Option (Text × Text) :=
  let digits := t.takeWhile Char.isDigit
  if digits.isEmpty then none else some (digits, t.dropWhile Char.isDigit)

/-- The text after the decimal places at its front, and whether there are any; none if a point has no digit. -/
def readPlaces (t : Text) : Option (Bool × Text) :=
  match t with
  | '.' :: rest => (readDigits rest).map fun (_, rest) => (true, rest)
  | _ => some (false, t)

/-- The text after the exponent at its front, and whether there is one; none if it has no digit. -/
def readExponent (t : Text) : Option (Bool × Text) :=
  match t with
  | c :: rest =>
    if c == 'e' || c == 'E' then
      let rest := if rest.head? = some '+' || rest.head? = some '-' then rest.tail else rest
      (readDigits rest).map fun (_, rest) => (true, rest)
    else some (false, t)
  | [] => some (false, t)

/-- Reads a number after its sign.  A negative zero is no integer. -/
def readUnsigned (negative : Bool) (t : Text) : Option (Json × Text) := do
  let (digits, rest) ← readDigits t
  if digits.head? = some '0' && digits.length ≠ 1 then none
  else
    let (hasPlaces, rest) ← readPlaces rest
    let (hasExponent, rest) ← readExponent rest
    let n := ofDigits digits
    if hasPlaces || hasExponent || (negative && n = 0) then some (fraction, rest)
    else some (integer (if negative then -(n : Int) else n), rest)

/-- Reads a number. -/
def readNumber (t : Text) : Option (Json × Text) :=
  match t with
  | '-' :: rest => readUnsigned true rest
  | _ => readUnsigned false t

/-! ### Arrays, objects and values -/

/-- Reads items with commas up to the closing character.  Every item takes at least one of `fuel` characters. -/
def readItems {α : Type} (item : Text → Option (α × Text)) (close : Char) :
    (fuel : Nat) → Text → Option (List α × Text)
  | 0, _ => none
  | fuel + 1, t =>
    (item t).bind fun (x, rest) =>
      match skipSpace rest with
      | [] => none
      | c :: rest =>
        if c = close then some ([x], rest)
        else if c = ',' then (readItems item close fuel rest).map fun (xs, rest) => (x :: xs, rest)
        else none

/-- Reads what stands between brackets, after the opening one, in a text of less than `fuel` characters. -/
def readBracketed {α : Type} (item : Text → Option (α × Text)) (close : Char) (fuel : Nat) (t : Text) :
    Option (List α × Text) :=
  match skipSpace t with
  | [] => none
  | c :: rest => if c = close then some ([], rest) else readItems item close fuel t

/-- Reads a key, a colon and a value. -/
def readMember (value : Text → Option (Json × Text)) (t : Text) : Option ((Option Text × Json) × Text) :=
  match skipSpace t with
  | '"' :: rest =>
    (readText rest).bind fun (key, rest) =>
      match skipSpace rest with
      | ':' :: rest => (value rest).map fun (v, rest) => ((key, v), rest)
      | _ => none
  | _ => none

/-- Reads a value in a text of less than `fuel` characters; every level of nesting takes at least one of them. -/
def readValue : (fuel : Nat) → Text → Option (Json × Text)
  | 0, _ => none
  | fuel + 1, t =>
    match skipSpace t with
    | 'n' :: 'u' :: 'l' :: 'l' :: rest => some (null, rest)
    | 't' :: 'r' :: 'u' :: 'e' :: rest => some (truth true, rest)
    | 'f' :: 'a' :: 'l' :: 's' :: 'e' :: rest => some (truth false, rest)
    | '"' :: rest => (readText rest).map fun (content, rest) => (text content, rest)
    | '[' :: rest => (readBracketed (readValue fuel) ']' fuel rest).map fun (items, rest) => (array items, rest)
    | '{' :: rest =>
      (readBracketed (readMember (readValue fuel)) '}' fuel rest).map fun (members, rest) => (object members, rest)
    | t => readNumber t

/-- The value of a whole document. -/
def parse? (t : Text) : Option Json :=
  (readValue (t.length + 1) t).bind fun (value, rest) => if (skipSpace rest).isEmpty then some value else none

end SourceIndex.Json
