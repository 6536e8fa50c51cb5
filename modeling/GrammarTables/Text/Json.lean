/-!
# Text/Json — JSON values and their compact text

An object is a list of fields, written in that order.  The compact text has no blank outside
strings.  A string escapes the quote, the backslash and the characters below U+0020, the latter by
a letter where JSON has one and otherwise by four lower-case hexadecimal digits.
-/

namespace GrammarTables.Text

/-- A JSON value; the numbers are natural. -/
inductive Json
  | null
  | bool (value : Bool)
  | nat (value : Nat)
  | str (value : String)
  | arr (items : List Json)
  | obj (fields : List (String × Json))

namespace Json

/-- The lower-case hexadecimal digit of a number below 16. -/
def hexDigit (n : Nat) : Char :=
  if n < 10 then Char.ofNat (48 + n) else Char.ofNat (87 + n)

/-- How a character of a string is written. -/
def escapeChar (c : Char) : List Char :=
  match c with
  | '"' => ['\\', '"']
  | '\\' => ['\\', '\\']
  | '\n' => ['\\', 'n']
  | '\t' => ['\\', 't']
  | '\r' => ['\\', 'r']
  | '\x08' => ['\\', 'b']
  | '\x0c' => ['\\', 'f']
  | c =>
    if c.toNat < 32 then ['\\', 'u', '0', '0', hexDigit (c.toNat / 16), hexDigit (c.toNat % 16)]
    else [c]

/-- A string in quotes. -/
def quote (s : String) : List Char :=
  '"' :: (s.toList.flatMap escapeChar ++ ['"'])

mutual

/-- The characters of the compact text. -/
def chars : Json → List Char
  | null => "null".toList
  | bool value => (if value then "true" else "false").toList
  | nat value => (Nat.repr value).toList
  | str value => quote value
  | arr items => '[' :: (itemChars items ++ [']'])
  | obj fields => '\x7b' :: (fieldChars fields ++ ['\x7d'])

/-- The items of an array, with a comma between any two. -/
def itemChars : List Json → List Char
  | [] => []
  | [item] => chars item
  | item :: items => chars item ++ ',' :: itemChars items

/-- The fields of an object, with a comma between any two. -/
def fieldChars : List (String × Json) → List Char
  | [] => []
  | [(key, value)] => quote key ++ ':' :: chars value
  | (key, value) :: fields => quote key ++ ':' :: (chars value ++ ',' :: fieldChars fields)

end

/-- The compact text of a value. -/
def compact (value : Json) : String :=
  String.ofList value.chars

/-- An array of strings. -/
def strings (items : List String) : Json :=
  arr (items.map str)

end Json

end GrammarTables.Text
