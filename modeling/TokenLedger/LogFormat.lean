import TokenLedger.Wire.JsonForm

/-!
# Log formats

The two forms of log lines. On the command line a format may be named in
either case of its letters; in settings and messages its name is exact.
-/

set_option autoImplicit false

namespace TokenLedger

inductive LogFormat where
  | human
  | json
  deriving DecidableEq, Repr, Inhabited

namespace LogFormat

def name : LogFormat → String
  | human => "human"
  | json => "json"

def ofName? (s : String) : Option LogFormat :=
  if s = "human" then some human else if s = "json" then some json else none

structure Unknown where
  text : String
  deriving DecidableEq, Repr

def Unknown.message (u : Unknown) : String :=
  "unknown log format `" ++ u.text ++ "` (expected `human` or `json`)"

/-- A format by its name, with ASCII capitals taken for small letters. -/
def parse (s : String) : Except Unknown LogFormat :=
  match ofName? (String.ofList (s.toList.map Char.toLower)) with
  | some f => .ok f
  | none => .error ⟨s⟩

theorem ofName?_name (f : LogFormat) : ofName? f.name = some f := by cases f <;> rfl

end LogFormat

namespace Wire

instance : Binary LogFormat where
  put
    | .human => putChoice 0
    | .json => putChoice 1
  get bs := do
    let (i, bs) ← Reader.choice 2 bs
    return (if i = 0 then .human else .json, bs)

instance : JsonForm LogFormat where
  toJson f := .text f.name
  ofJson? j := j.bareChoice?.bind LogFormat.ofName?

end Wire

end TokenLedger
