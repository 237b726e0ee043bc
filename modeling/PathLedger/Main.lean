import Std.Time.DateTime.Timestamp
import PathLedger.Command.Arguments
import PathLedger.Command.Run

/-!
# The program

Real files and the wall clock under the commands, and printing.
-/

namespace PathLedger.Main

/-- The file fault that an error of the system stands for. -/
def faultOf (e : IO.Error) : FileFault :=
  match e with
  | .noFileOrDirectory _ 20 _ => .notFolder
  | .noFileOrDirectory _ _ _ => .missing
  | .inappropriateType _ 21 _ => .isFolder
  | .inappropriateType _ 20 _ => .notFolder
  | e => .other (toString e)

/-- A call to the system with its errors as faults. -/
def caught (call : IO α) : IO (Except FileFault α) := do
  try return .ok (← call)
  catch e => return .error (faultOf e)

/-- The files of the system. -/
def systemFiles : Files IO where
  standing place := do
    match ← caught (IO.FS.realPath place) with
    | .error _ => return .nothing
    | .ok full => return if ← full.isDir then .folder else .file
  fullPlace place := caught do return (← IO.FS.realPath place).toString
  read place := caught do return (← IO.FS.readBinFile place).toList
  write place content := caught (IO.FS.writeBinFile place ⟨content.toArray⟩)
  delete place := caught (IO.FS.removeFile place)

/-- The readings of the wall clock from now on, each at least a millisecond behind the one before. -/
def wallClock : IO Clock := do
  let now ← Std.Time.Timestamp.now
  return .ticking (UInt64.ofNat now.toMillisecondsSinceUnixEpoch.toInt.toNat) 1

/-- One invocation: the settings in force, then the command. -/
def perform (i : Arguments.Invocation) : ExceptT Fault IO (Settings × Option Command.Output) := do
  let environment ← IO.getEnv Settings.environmentVariable
  let settings ← Command.settingsFor systemFiles i.overrides i.settingsFile environment
  let output ← Command.run systemFiles settings (← wallClock) i.command
  return (settings, output)

end PathLedger.Main

open PathLedger in
/-- Runs one command line and prints its answer; a refusal goes to the error stream. -/
def main (args : List String) : IO UInt32 := do
  match Arguments.parse? args with
  | none =>
    IO.eprintln "Usage"
    return 2
  | some i =>
    match ← (Main.perform i).run with
    | .ok (settings, output) =>
      if let some output := output then IO.println (if settings.json then output.json.pretty else output.text)
      return 0
    | .error f =>
      IO.eprintln f.message
      return 1
