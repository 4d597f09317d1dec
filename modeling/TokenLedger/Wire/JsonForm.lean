import TokenLedger.Json.Basic
import TokenLedger.Wire.Identifiers

/-!
# JSON form

Values as JSON. A record is an object of its fields in order, and may be read
from an array of exactly its fields; fields it does not know are skipped, a
field it knows may stand only once. A choice is an object with one member.
-/

set_option autoImplicit false

namespace TokenLedger

namespace Json

/-- What stands under each of some names, if the value can be a record of
these fields. -/
def fields? (names : List String) : Json → Option (List (Option Json))
  | array items => if items.length = names.length then some (items.map some) else none
  | object members =>
    if names.all fun name => (members.countP fun m => m.1 == name) ≤ 1 then
      some (names.map fun name => members.lookup name)
    else none
  | _ => none

def choice? : Json → Option (String × Json)
  | object [(name, body)] => some (name, body)
  | _ => none

def bareChoice? : Json → Option String
  | text name => some name
  | object [(name, null)] => some name
  | _ => none

end Json

namespace Wire

class JsonForm (α : Type) where
  toJson : α → Json
  ofJson? : Json → Option α

export JsonForm (toJson ofJson?)

def required {α : Type} [JsonForm α] (j : Option Json) : Option α := j.bind ofJson?

/-- A field that may be absent or null. -/
def optional {α : Type} [JsonForm α] : Option Json → Option (Option α)
  | none | some .null => some none
  | some j => some <$> ofJson? j

def jsonWord? (bound : Nat) : Json → Option Nat
  | .nat n => if n < bound then some n else none
  | _ => none

instance : JsonForm UInt8 where
  toJson n := .nat n.toNat
  ofJson? j := UInt8.ofNat <$> jsonWord? UInt8.size j

instance : JsonForm UInt32 where
  toJson n := .nat n.toNat
  ofJson? j := UInt32.ofNat <$> jsonWord? UInt32.size j

instance : JsonForm UInt64 where
  toJson n := .nat n.toNat
  ofJson? j := UInt64.ofNat <$> jsonWord? UInt64.size j

instance {α : Type} [JsonForm α] : JsonForm (List α) where
  toJson xs := .array (xs.map toJson)
  ofJson?
    | .array js => js.mapM ofJson?
    | _ => none

instance {α : Type} [JsonForm α] : JsonForm (Option α) where
  toJson
    | none => .null
    | some x => toJson x
  ofJson?
    | .null => some none
    | j => some <$> ofJson? j

instance : JsonForm Bytes32 where
  toJson a := toJson a.toList
  ofJson? j := (ofJson? j : Option (List UInt8)).bind Bytes32.ofList?

instance : JsonForm Address where
  toJson a := .text a.text
  ofJson?
    | .text s => (Address.parse s).toOption
    | _ => none

instance : JsonForm Scalar where
  toJson a := .text a.text
  ofJson?
    | .text s => (Scalar.parse s).toOption
    | _ => none

instance : JsonForm Commitment where
  toJson c := toJson c.digest
  ofJson? j := Commitment.mk <$> ofJson? j

instance : JsonForm SerialNumber where
  toJson s := toJson s.digest
  ofJson? j := SerialNumber.mk <$> ofJson? j

instance : JsonForm TransitionId where
  toJson t := toJson t.digest
  ofJson? j := TransitionId.mk <$> ofJson? j

instance : JsonForm Function where
  toJson f := .text f.tag
  ofJson? j := j.bareChoice?.bind fun name => Function.all.find? fun f => f.tag == name

end Wire

end TokenLedger
