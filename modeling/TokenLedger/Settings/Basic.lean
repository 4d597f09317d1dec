import TokenLedger.LogFormat
import TokenLedger.Settings.Document

/-!
# Settings

What every run of the command line starts from. Each setting has a default;
keys that are not settings are skipped.
-/

set_option autoImplicit false

namespace TokenLedger

structure Settings where
  statePath : String := "./veil_state.bin"
  caller : Option Address := none
  logFormat : LogFormat := .human
  logLevel : String := "warn"
  deriving DecidableEq

namespace Settings

/-- The text under a key: none if the key is absent, a refusal if it holds something else. -/
def text? (t : Table) (k : String) : Option (Option String) :=
  match t.lookup k with
  | none => some none
  | some (.text s) => some (some s)
  | some _ => none

def isVoid : Node → Bool
  | .array items => items.isEmpty
  | .table _ entries => entries.isEmpty
  | _ => false

def format? : Node → Option LogFormat
  | .text s => LogFormat.ofName? s
  | .table _ [(k, v)] => if isVoid v then LogFormat.ofName? k else none
  | _ => none

def ofTable? (t : Table) : Option Settings := do
  let standard : Settings := {}
  let statePath ← text? t "state_path"
  let caller ← match ← text? t "caller" with
    | none => some none
    | some s => (fun a => some (some a)) =<< (Address.parse s).toOption
  let logFormat ← match t.lookup "log_format" with
    | none => some standard.logFormat
    | some v => format? v
  let logLevel ← text? t "log_level"
  return {
    statePath := statePath.getD standard.statePath
    caller := caller
    logFormat := logFormat
    logLevel := logLevel.getD standard.logLevel }

def parse? (s : String) : Option Settings := (Document.parse? s).bind ofTable?

def line (k v : String) : String := k ++ " = " ++ writeString v ++ "\n"

def render (s : Settings) : String :=
  line "state_path" s.statePath ++
    (match s.caller with
      | some a => line "caller" a.text
      | none => "") ++
    line "log_format" s.logFormat.name ++ line "log_level" s.logLevel

end Settings

end TokenLedger
