import SourceIndex.Json.Value

/-!
# Writing JSON

Writes a value without white space.  Of the characters of a text only the quote, the backslash and the control
characters are escaped, the latter by a letter where there is one.
-/

namespace SourceIndex.Json

/-- The hexadecimal digit of a number below 16. -/
def hexDigit (n : Nat) : Char := Nat.digitChar n

/-- A character as it stands in a quoted text. -/
def quoteChar (c : Char) : Text :=
  match c with
  | '"' => ['\\', '"']
  | '\\' => ['\\', '\\']
  | '\x08' => ['\\', 'b']
  | '\t' => ['\\', 't']
  | '\n' => ['\\', 'n']
  | '\x0c' => ['\\', 'f']
  | '\r' => ['\\', 'r']
  | c => if c < ' ' then ['\\', 'u', '0', '0', hexDigit (c.toNat / 16), hexDigit (c.toNat % 16)] else [c]

/-- A text in quotes; a text with half a character is written as such a half. -/
def quote : Option Text → Text
  | some t => '"' :: t.flatMap quoteChar ++ ['"']
  | none => ['"', '\\', 'u', 'd', '8', '0', '0', '"']

/-- The decimal digits of an integer, after a minus sign if it is negative. -/
def decimal : Int → Text
  | .ofNat n => Nat.toDigits 10 n
  | .negSucc n => '-' :: Nat.toDigits 10 (n + 1)

mutual

/-- The text of a value. -/
def render : Json → Text
  | null => ['n', 'u', 'l', 'l']
  | truth true => ['t', 'r', 'u', 'e']
  | truth false => ['f', 'a', 'l', 's', 'e']
  | integer n => decimal n
  | fraction => ['0', '.', '5']
  | text content => quote content
  | array items => '[' :: renderItems items ++ [']']
  | object members => '{' :: renderMembers members ++ ['}']

/-- The texts of the items of an array, with commas. -/
def renderItems : List Json → Text
  | [] => []
  | [item] => render item
  | item :: rest => render item ++ ',' :: renderItems rest

/-- The texts of the members of an object, with commas. -/
def renderMembers : List (Option Text × Json) → Text
  | [] => []
  | [member] => renderMember member
  | member :: rest => renderMember member ++ ',' :: renderMembers rest

/-- The text of a member: its key, a colon and its value. -/
def renderMember : Option Text × Json → Text
  | (key, value) => quote key ++ ':' :: render value

end

end SourceIndex.Json
