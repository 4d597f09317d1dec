import TokenLedger.Command.Invocation
import TokenLedger.StateFile

/-!
# The command line program

Reads the settings and the state file, runs one command, writes the state
file again unless the command only read it, and prints the answer.
-/

set_option autoImplicit false

namespace TokenLedger.CommandLine

def usage : String :=
  "Private/public balance token ledger\n\n" ++
  "Usage: veil [OPTIONS] <COMMAND>\n\n" ++
  "Commands:\n" ++
  "  mint <AMOUNT>\n" ++
  "  transfer-private <RECEIVER> <AMOUNT> <RECORD>\n" ++
  "  transfer-private-to-public <RECEIVER> <AMOUNT> <RECORD>\n" ++
  "  transfer-public-to-private <RECEIVER> <AMOUNT>\n" ++
  "  join <RECORD> <RECORD2>\n" ++
  "  mint-public <RECEIVER> <AMOUNT>\n" ++
  "  transfer-public <RECEIVER> <AMOUNT>\n" ++
  "  main <A> <B>\n" ++
  "  balance [ADDRESS]\n" ++
  "  records [OWNER]\n" ++
  "  snapshot\n\n" ++
  "Options:\n" ++
  "  --config <CONFIG>\n" ++
  "  --state <STATE>\n" ++
  "  --caller <CALLER>\n" ++
  "  --log-level <LOG_LEVEL>\n" ++
  "  --log-format <LOG_FORMAT>"

abbrev Run (α : Type) := ExceptT CommandError IO α

def attempt {α : Type} (action : IO α) (wrap : String → CommandError) : Run α := do
  match ← action.toBaseIO with
  | .ok x => return x
  | .error e => throw (wrap (toString e))

def readSettings : Option String → Run Settings
  | none => return {}
  | some path => do
    let content ← attempt (IO.FS.readFile path) fun e => .settings (path ++ ": " ++ e)
    match Settings.parse? content with
    | some s => return s
    | none => throw (.settings ("cannot read " ++ path))

/-- What is found under a path; only a missing file counts as nothing. -/
def find (path : String) : IO StateFile.Found := do
  match ← (IO.FS.readBinFile path).toBaseIO with
  | .ok content => return .content content.toList
  | .error (.noFileOrDirectory ..) => return .nothing
  | .error e => return .unreadable s!"read: {e}"

/-- Writes a draft beside the file and puts it in the place of the file. -/
def save (path : String) (content : Bytes) : Run Unit := do
  let draft := StateFile.draftName path
  attempt (IO.FS.writeBinFile draft ⟨content.toArray⟩) fun e =>
    .stateFile ("write " ++ draft ++ ": " ++ e)
  attempt (IO.FS.rename draft path) fun e => .stateFile ("rename to " ++ path ++ ": " ++ e)

def seeds : IO SeedSource := do
  let drawn := (← IO.getRandomBytes 32).toList
  return (SeedCycle.single ((Bytes32.ofList? drawn).getD default)).source fun _ => false

def run (i : Invocation) : Run Json := do
  let settings := (← readSettings i.config).override i.overrides
  let found ← find settings.statePath
  let ledger ← ExceptT.mk (pure (StateFile.load (← seeds) found))
  let (answer, ledger) := Command.run ledger settings.caller i.command
  let answer ← ExceptT.mk (pure answer)
  unless i.command.isQuery do
    save settings.statePath (← ExceptT.mk (pure (StateFile.content ledger)))
  return answer

end TokenLedger.CommandLine

open TokenLedger in
def main (words : List String) : IO UInt32 := do
  if words ∈ [["--help"], ["-h"], ["help"]] then
    IO.println CommandLine.usage
    return 0
  let environment ← Flag.all.mapM fun f => return (f, ← IO.getEnv f.environmentName)
  match Invocation.parse? (fun f => (environment.lookup f).join) words with
  | none =>
    IO.eprintln CommandLine.usage
    return 2
  | some i =>
    match ← (CommandLine.run i).run with
    | .ok answer =>
      IO.println answer.renderIndented
      return 0
    | .error e =>
      IO.eprintln ("Error: " ++ e.message)
      return 1
