import TokenLedger.Command.Basic
import TokenLedger.Settings.Basic

/-!
# Invocations

The words of a whole command line: flags with a value each, then a command.
A flag that is not given takes its value from its environment variable, and
what is given neither way is left to the settings.
-/

set_option autoImplicit false

namespace TokenLedger

inductive Flag where
  | config
  | state
  | caller
  | logLevel
  | logFormat
  deriving DecidableEq, Repr

namespace Flag

def all : List Flag := [config, state, caller, logLevel, logFormat]

def word : Flag → String
  | config => "--config"
  | state => "--state"
  | caller => "--caller"
  | logLevel => "--log-level"
  | logFormat => "--log-format"

def environmentName : Flag → String
  | config => "VEIL_CONFIG"
  | state => "VEIL_STATE"
  | caller => "VEIL_CALLER"
  | logLevel => "VEIL_LOG_LEVEL"
  | logFormat => "VEIL_LOG_FORMAT"

def ofWord? (w : String) : Option Flag := all.find? fun f => f.word == w

theorem ofWord?_word (f : Flag) : ofWord? f.word = some f := by cases f <;> decide

def joined? (w : String) : Option (Flag × String) :=
  match w.toList.dropWhile (· != '=') with
  | [] => none
  | _ :: v =>
    (ofWord? (String.ofList (w.toList.takeWhile (· != '=')))).map (·, String.ofList v)

def isValue (w : String) : Bool := w == "-" || w.toList.head? != some '-'

def split? : List String → Option (List (Flag × String) × List String)
  | [] => some ([], [])
  | w :: ws =>
    if w.toList.head? != some '-' then some ([], w :: ws)
    else
      match joined? w, ofWord? w, ws with
      | some given, _, ws => do
        let (rest, words) ← split? ws
        return (given :: rest, words)
      | none, some f, v :: ws =>
        if isValue v then do
          let (rest, words) ← split? ws
          return ((f, v) :: rest, words)
        else none
      | none, some _, [] | none, none, _ => none

/-- The only value given to a flag, or else the value of its variable. -/
def valueOf? (f : Flag) (given : List (Flag × String)) (environment : Flag → Option String) :
    Option (Option String) :=
  match given.filter fun g => g.1 == f with
  | [] => some (environment f)
  | [g] => some (some g.2)
  | _ :: _ :: _ => none

end Flag

structure Overrides where
  statePath : Option String
  caller : Option Address
  logFormat : Option LogFormat
  logLevel : Option String

def Settings.override (s : Settings) (o : Overrides) : Settings where
  statePath := o.statePath.getD s.statePath
  caller := o.caller.or s.caller
  logFormat := o.logFormat.getD s.logFormat
  logLevel := o.logLevel.getD s.logLevel

structure Invocation where
  config : Option String
  overrides : Overrides
  command : Command

namespace Invocation

def readable? {α : Type} (read : String → Option α) : Option String → Option (Option α)
  | none => some none
  | some s => (read s).map some

def path? (s : String) : Option String := if s.isEmpty then none else some s

def parse? (environment : Flag → Option String) (words : List String) : Option Invocation := do
  let (given, words) ← Flag.split? words
  let value (f : Flag) := f.valueOf? given environment
  let config ← readable? path? (← value .config)
  let state ← readable? path? (← value .state)
  let caller ← readable? Command.account? (← value .caller)
  let logLevel ← value .logLevel
  let logFormat ← readable? (fun s => (LogFormat.parse s).toOption) (← value .logFormat)
  let command ← Command.parse? words
  return ⟨config, ⟨state, caller, logFormat, logLevel⟩, command⟩

end Invocation

end TokenLedger
