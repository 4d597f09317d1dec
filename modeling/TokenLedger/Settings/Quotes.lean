import TokenLedger.Text.Hex

/-!
# Strings in quotes

The four forms of a string in a settings document: on one line or on many,
in double quotes, where a backslash starts an escape, or in single quotes,
where every character stands for itself. A string is written in the first
form that shows it without escapes.
-/

set_option autoImplicit false

namespace TokenLedger.Settings

def isSpace (c : Char) : Bool := c == ' ' || c == '\t'

def skipSpaces (cs : List Char) : List Char := cs.dropWhile isSpace

def isPlain (c : Char) : Bool := c == '\t' || (0x20 ≤ c.toNat && c.toNat != 0x7f)

/-! ## Reading -/

def hexChar? (ds : List Char) : Option Char := do
  let n ← Text.Hex.number? ds
  if n < 0xd800 ∨ (0xe000 ≤ n ∧ n < 0x110000) then some (Char.ofNat n) else none

def escaped? (c : Char) : Option Char :=
  if c = '"' ∨ c = '\\' then some c
  else if c = 'n' then some '\n'
  else if c = 'r' then some '\r'
  else if c = 't' then some '\t'
  else if c = 'b' then some '\x08'
  else if c = 'f' then some '\x0c'
  else none

def basicString : List Char → Option (List Char × List Char)
  | [] => none
  | '"' :: rest => some ([], rest)
  | '\\' :: 'u' :: a :: b :: c :: d :: rest => do
    let x ← hexChar? [a, b, c, d]
    let (s, rest) ← basicString rest
    return (x :: s, rest)
  | '\\' :: 'U' :: a :: b :: c :: d :: e :: f :: g :: h :: rest => do
    let x ← hexChar? [a, b, c, d, e, f, g, h]
    let (s, rest) ← basicString rest
    return (x :: s, rest)
  | '\\' :: e :: rest => do
    let x ← escaped? e
    let (s, rest) ← basicString rest
    return (x :: s, rest)
  | c :: rest =>
    if isPlain c then do
      let (s, rest) ← basicString rest
      return (c :: s, rest)
    else none

def literalString : List Char → Option (List Char × List Char)
  | [] => none
  | '\'' :: rest => some ([], rest)
  | c :: rest =>
    if isPlain c then do
      let (s, rest) ← literalString rest
      return (c :: s, rest)
    else none

def endsLine (cs : List Char) : Bool :=
  match skipSpaces cs with
  | '\n' :: _ | '\r' :: '\n' :: _ => true
  | _ => false

/-- A string in three double quotes, behind the opening ones. Two quotes may
stand before the closing ones. A backslash at the end of a line takes away
the blanks up to the next other character; `skip` says that it does so now. -/
def longBasicString (skip : Bool) : List Char → Option (List Char × List Char)
  | [] => none
  | '"' :: '"' :: '"' :: '"' :: '"' :: rest => some (['"', '"'], rest)
  | '"' :: '"' :: '"' :: '"' :: rest => some (['"'], rest)
  | '"' :: '"' :: '"' :: rest => some ([], rest)
  | '\\' :: 'u' :: a :: b :: c :: d :: rest => do
    let x ← hexChar? [a, b, c, d]
    let (s, rest) ← longBasicString false rest
    return (x :: s, rest)
  | '\\' :: 'U' :: a :: b :: c :: d :: e :: f :: g :: h :: rest => do
    let x ← hexChar? [a, b, c, d, e, f, g, h]
    let (s, rest) ← longBasicString false rest
    return (x :: s, rest)
  | '\\' :: e :: rest =>
    if endsLine (e :: rest) then longBasicString true (e :: rest)
    else do
      let x ← escaped? e
      let (s, rest) ← longBasicString false rest
      return (x :: s, rest)
  | '\r' :: '\n' :: rest =>
    if skip then longBasicString true rest
    else do
      let (s, rest) ← longBasicString false rest
      return ('\n' :: s, rest)
  | c :: rest =>
    if skip && (isSpace c || c == '\n') then longBasicString true rest
    else if c == '\n' || isPlain c then do
      let (s, rest) ← longBasicString false rest
      return (c :: s, rest)
    else none

def longLiteralString : List Char → Option (List Char × List Char)
  | [] => none
  | '\'' :: '\'' :: '\'' :: '\'' :: '\'' :: rest => some (['\'', '\''], rest)
  | '\'' :: '\'' :: '\'' :: '\'' :: rest => some (['\''], rest)
  | '\'' :: '\'' :: '\'' :: rest => some ([], rest)
  | '\r' :: '\n' :: rest => do
    let (s, rest) ← longLiteralString rest
    return ('\n' :: s, rest)
  | c :: rest =>
    if c == '\n' || isPlain c then do
      let (s, rest) ← longLiteralString rest
      return (c :: s, rest)
    else none

def skipOpeningLine : List Char → List Char
  | '\n' :: cs => cs
  | '\r' :: '\n' :: cs => cs
  | cs => cs

def quotedString? : List Char → Option (Option (String × List Char))
  | '"' :: '"' :: '"' :: rest => some (done (longBasicString false (skipOpeningLine rest)))
  | '\'' :: '\'' :: '\'' :: rest => some (done (longLiteralString (skipOpeningLine rest)))
  | '"' :: rest => some (done (basicString rest))
  | '\'' :: rest => some (done (literalString rest))
  | _ => none
where
  done (r : Option (List Char × List Char)) : Option (String × List Char) :=
    r.map fun (s, rest) => (String.ofList s, rest)

/-! ## Writing -/

def longestRun (c : Char) (cs : List Char) : Nat :=
  (cs.foldl (fun (best, run) x => if x = c then (max best (run + 1), run + 1) else (best, 0))
    (0, 0)).1

def needsEscape (c : Char) : Bool :=
  c != '\t' && c != '\n' && (c.toNat < 0x20 || c.toNat == 0x7f)

def upperHex (n : Nat) : Char := (Nat.digitChar n).toUpper

/-- A character that stands for itself or by an escape. `quotes` is how many
double quotes may stand next to each other, `seen` how many do. -/
def writeChars (multiline : Bool) (quotes : Nat) : Nat → List Char → List Char
  | _, [] => []
  | seen, c :: cs =>
    if c = '"' then
      if quotes < seen + 1 then '\\' :: '"' :: writeChars multiline quotes 0 cs
      else '"' :: writeChars multiline quotes (seen + 1) cs
    else
      let written :=
        if c = '\x08' then ['\\', 'b']
        else if c = '\t' then ['\\', 't']
        else if c = '\n' then if multiline then ['\n'] else ['\\', 'n']
        else if c = '\x0c' then ['\\', 'f']
        else if c = '\r' then ['\\', 'r']
        else if c = '\\' then ['\\', '\\']
        else if c.toNat < 0x20 ∨ c.toNat = 0x7f then
          ['\\', 'u', '0', '0', upperHex (c.toNat / 16), upperHex (c.toNat % 16)]
        else [c]
      written ++ writeChars multiline quotes 0 cs

/-- The first of these forms that shows the text without escapes: double
quotes, single quotes, three double quotes, three single quotes; else double
quotes with escapes. -/
def writeString (s : String) : String :=
  let cs := s.toList
  let singles := longestRun '\'' cs
  let doubles := longestRun '"' cs
  let control := cs.any needsEscape
  let backslash := cs.contains '\\'
  let newline := cs.contains '\n'
  let opening := if newline then ['\n'] else []
  let written :=
    if !control && !backslash && doubles == 0 && !newline then
      '"' :: writeChars false 0 0 cs ++ ['"']
    else if !control && singles == 0 && !newline then '\'' :: cs ++ ['\'']
    else if !control && !backslash && doubles ≤ 2 then
      ['"', '"', '"'] ++ opening ++ writeChars true 2 0 cs ++ ['"', '"', '"']
    else if !control && singles ≤ 2 then
      ['\'', '\'', '\''] ++ opening ++ cs ++ ['\'', '\'', '\'']
    else if newline then
      ['"', '"', '"'] ++ opening ++ writeChars true 2 0 cs ++ ['"', '"', '"']
    else '"' :: writeChars false 0 0 cs ++ ['"']
  String.ofList written

end TokenLedger.Settings
