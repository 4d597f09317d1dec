import TokenLedger.Settings.Quotes
import TokenLedger.Settings.Table

/-!
# Settings documents

Reading TOML: `key = value` lines, keys bare, quoted or dotted, tables under
`[headers]` and `[[headers]]`, and comments. Whatever a document spells is one
table. Its text is refused as a whole if any line of it is not well-formed or
adds to a table that may not be added to.
-/

set_option autoImplicit false

namespace TokenLedger.Settings.Document

/-- How many names a key may join, and how many brackets a value may open. -/
def depth : Nat := 79

/-! ## Lines -/

def skipComment : List Char → List Char
  | '#' :: cs => cs.dropWhile isPlain
  | cs => cs

def lineEnd? : List Char → Option (List Char)
  | [] => some []
  | '\n' :: cs => some cs
  | '\r' :: '\n' :: cs => some cs
  | _ => none

/-- A text without the blanks, comments and line ends before its next sign. The
bound is on their number. -/
def skipLines : Nat → List Char → List Char
  | 0, cs => cs
  | fuel + 1, cs =>
    match skipComment (skipSpaces cs) with
    | '\n' :: cs => skipLines fuel cs
    | '\r' :: '\n' :: cs => skipLines fuel cs
    | cs => cs

/-! ## Keys -/

def isBare (c : Char) : Bool := c.isAlphanum || c == '_' || c == '-'

def key : List Char → Option (String × List Char)
  | '"' :: rest => shortString <$> basicString rest
  | '\'' :: rest => shortString <$> literalString rest
  | cs =>
    match cs.takeWhile isBare with
    | [] => none
    | name => some (String.ofList name, cs.dropWhile isBare)
where
  shortString : List Char × List Char → String × List Char
    | (s, rest) => (String.ofList s, rest)

def path : Nat → List Char → Option (Path × List Char)
  | 0, _ => none
  | most + 1, cs => do
    let (k, rest) ← key (skipSpaces cs)
    match skipSpaces rest with
    | '.' :: rest =>
      let (ks, rest) ← path most rest
      return (k :: ks, rest)
    | rest => return ([k], rest)

/-! ## Values -/

abbrev Reader := List Char → Option (Node × List Char)

def scalar : Reader := fun cs =>
  match quotedString? cs with
  | some r => (fun (s, rest) => (.text s, rest)) <$> r
  | none =>
    match cs with
    | 't' :: 'r' :: 'u' :: 'e' :: rest => some (.truth true, rest)
    | 'f' :: 'a' :: 'l' :: 's' :: 'e' :: rest => some (.truth false, rest)
    | cs =>
      match Moment.read? cs with
      | some (m, rest) => some (.moment m, rest)
      | none => (fun (n, rest) => (.number n, rest)) <$> Number.read? cs

def items (item : Reader) : Nat → List Char → Option (List Node × List Char)
  | 0, _ => none
  | fuel + 1, cs =>
    match skipLines fuel cs with
    | ']' :: rest => some ([], rest)
    | cs => do
      let (v, rest) ← item cs
      match skipLines fuel rest with
      | ']' :: rest => return ([v], rest)
      | ',' :: rest =>
        let (vs, rest) ← items item fuel rest
        return (v :: vs, rest)
      | _ => none

def member (item : Reader) (t : Table) (cs : List Char) : Option (Table × List Char) := do
  let (p, rest) ← path depth cs
  match rest with
  | '=' :: rest =>
    let (v, rest) ← item (skipSpaces rest)
    return (← t.assign? p v, skipSpaces rest)
  | _ => none

def members (item : Reader) : Nat → Table → List Char → Option (Table × List Char)
  | 0, _, _ => none
  | fuel + 1, t, cs => do
    let (t, rest) ← member item t cs
    match rest with
    | '\x7d' :: rest => return (t, rest)
    | ',' :: rest => members item fuel t rest
    | _ => none

def value : Nat → Reader
  | 0, cs => scalar cs
  | most + 1, cs =>
    match cs with
    | '[' :: rest => do
      let (vs, rest) ← items (value most) (rest.length + 1) rest
      return (.array vs, rest)
    | '\x7b' :: rest =>
      match skipSpaces rest with
      | '\x7d' :: rest => some (.table .braces [], rest)
      | rest => do
        let (t, rest) ← members (value most) rest.length [] rest
        return (.table .braces t, rest)
    | cs => scalar cs

/-! ## Documents -/

/-- A header behind its first bracket: the path of its table, and the document
in which that table is open. -/
def header (doc : Table) : List Char → Option (Path × Table × List Char)
  | '[' :: cs => do
    let (p, rest) ← path depth cs
    match rest with
    | ']' :: ']' :: rest => return (p, ← doc.openNext? p, rest)
    | _ => none
  | cs => do
    let (p, rest) ← path depth cs
    match rest with
    | ']' :: rest => return (p, ← doc.openOne? p, rest)
    | _ => none

def line (table : Path) (doc : Table) (cs : List Char) : Option (Path × Table × List Char) :=
  match skipSpaces cs with
  | [] => some (table, doc, [])
  | c :: cs =>
    if c = '[' then header doc cs
    else if c = '#' ∨ c = '\n' ∨ c = '\r' then some (table, doc, c :: cs)
    else do
      let (p, rest) ← path depth (c :: cs)
      match rest with
      | '=' :: rest =>
        let (v, rest) ← value depth (skipSpaces rest)
        return (table, ← doc.within? table (Table.assign? p v), rest)
      | _ => none

def lines : Nat → Path → Table → List Char → Option Table
  | 0, _, _, _ => none
  | fuel + 1, table, doc, cs => do
    let (table, doc, rest) ← line table doc cs
    match ← lineEnd? (skipComment (skipSpaces rest)) with
    | [] => return doc
    | rest => lines fuel table doc rest

def parse? (s : String) : Option Table :=
  let cs := match s.toList with
    | '\ufeff' :: cs => cs
    | cs => cs
  lines (cs.length + 1) [] [] cs

end TokenLedger.Settings.Document
