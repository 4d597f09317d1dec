/-!
# JSON values

Values and their two written forms, one without blanks and one indented by
two for each level. A number that is no plain natural number is kept as it was
spelled, and so is what cannot be a text: a string with half of a surrogate
pair in it, and an object with such a string for a key.
-/

set_option autoImplicit false

namespace TokenLedger

inductive Json where
  | null
  | bool (b : Bool)
  | nat (n : Nat)
  | decimal (spelling : String)
  | text (s : String)
  /-- A string with an unpaired surrogate in it, or an object with one in a key, as spelled. -/
  | unpaired (spelling : String)
  | array (items : List Json)
  | object (members : List (String × Json))

namespace Json

def escape (c : Char) : List Char :=
  if c = '"' then ['\\', '"']
  else if c = '\\' then ['\\', '\\']
  else if c = '\n' then ['\\', 'n']
  else if c = '\r' then ['\\', 'r']
  else if c = '\t' then ['\\', 't']
  else if c = '\x08' then ['\\', 'b']
  else if c = '\x0c' then ['\\', 'f']
  else if c.toNat < 0x20 then
    ['\\', 'u', '0', '0', Nat.digitChar (c.toNat / 16), Nat.digitChar (c.toNat % 16)]
  else [c]

def quoted (s : String) : List Char := '"' :: s.toList.flatMap escape ++ ['"']

/-! ## Without blanks -/

mutual

def chars : Json → List Char
  | null => "null".toList
  | bool true => "true".toList
  | bool false => "false".toList
  | nat n => Nat.toDigits 10 n
  | decimal spelling => spelling.toList
  | text s => quoted s
  | unpaired spelling => spelling.toList
  | array items => '[' :: itemChars items
  | object members => '{' :: memberChars members

def itemChars : List Json → List Char
  | [] => [']']
  | [j] => chars j ++ [']']
  | j :: js => chars j ++ ',' :: itemChars js

def memberChars : List (String × Json) → List Char
  | [] => ['}']
  | [(k, j)] => quoted k ++ ':' :: chars j ++ ['}']
  | (k, j) :: ms => quoted k ++ ':' :: chars j ++ ',' :: memberChars ms

end

def render (j : Json) : String := String.ofList (chars j)

/-! ## Indented -/

def newline (level : Nat) : List Char := '\n' :: List.replicate (2 * level) ' '

mutual

def indentedChars (level : Nat) : Json → List Char
  | array (j :: js) => '[' :: indentedItems level (j :: js)
  | object (m :: ms) => '{' :: indentedMembers level (m :: ms)
  | array [] => ['[', ']']
  | object [] => ['{', '}']
  | null => "null".toList
  | bool true => "true".toList
  | bool false => "false".toList
  | nat n => Nat.toDigits 10 n
  | decimal spelling => spelling.toList
  | text s => quoted s
  | unpaired spelling => spelling.toList

def indentedItems (level : Nat) : List Json → List Char
  | [] => newline level ++ [']']
  | [j] => newline (level + 1) ++ indentedChars (level + 1) j ++ newline level ++ [']']
  | j :: js =>
    newline (level + 1) ++ indentedChars (level + 1) j ++ ',' :: indentedItems level js

def indentedMembers (level : Nat) : List (String × Json) → List Char
  | [] => newline level ++ ['}']
  | [(k, j)] =>
    newline (level + 1) ++ quoted k ++ ':' :: ' ' :: indentedChars (level + 1) j ++
      newline level ++ ['}']
  | (k, j) :: ms =>
    newline (level + 1) ++ quoted k ++ ':' :: ' ' :: indentedChars (level + 1) j ++
      ',' :: indentedMembers level ms

end

def renderIndented (j : Json) : String := String.ofList (indentedChars 0 j)

end Json

end TokenLedger
