import ChainAnchor.Settings.Load
import ChainAnchor.Startup
import Std.Time.DateTime.Timestamp

namespace ChainAnchor.Program

def directory : IO String := do
  let base ← match ← IO.getEnv "XDG_CONFIG_HOME" with
    | some d => pure d
    | none => pure (((← IO.getEnv "HOME").getD "") ++ "/.config")
  return base ++ "/Stakecoin"

/-- The variables that set fields, which are looked up in capital letters. -/
def environment : IO (List (String × String)) := do
  let names := Settings.sections.flatMap fun s ↦ s.fields.map (Settings.environmentName s)
  let found ← names.mapM fun name ↦ IO.getEnv (name.map Char.toUpper)
  return (names.zip found).filterMap fun p ↦ p.2.map fun v ↦ (p.1, v)

def file (directory : String) : IO (Option String) := do
  let path := directory ++ "/config.toml"
  try
    return some (← IO.FS.readFile path)
  catch _ =>
    try
      IO.FS.createDirAll directory
      IO.FS.writeFile path (Settings.fileText directory none)
    catch e => IO.eprintln ("Failed to create configuration! Reason: " ++ toString e)
    return none

def seconds : IO Int64 := do
  let t ← Std.Time.Timestamp.now
  return Int64.ofInt t.toSecondsSinceUnixEpoch.val

partial def run (n : Node) : IO Unit := do
  let (reports, n) := n.tick (← seconds)
  reports.forM IO.eprintln
  IO.sleep 30000
  run n

def fail (message : String) : IO UInt32 := do
  IO.eprintln ("Error: " ++ message)
  return 1

end ChainAnchor.Program

open ChainAnchor in
def main : IO UInt32 := do
  let directory ← Program.directory
  let found ← Program.environment
  match Settings.load directory found (← Program.file directory) with
  | .error e => Program.fail ("invalid configuration: " ++ e.message)
  | .ok s => match Node.ofSettings s with
    | .error e => Program.fail e.message
    | .ok n =>
      Program.run n
      return 0
