import ScriptMachine.Machine.Request
import ScriptMachine.Tool
import Std.Time.Format

namespace ScriptMachine
namespace CommandLine

def bytes (t : Text) : ByteArray := ⟨t.toArray⟩

/-- A path as the system spells it; it ends at its first zero byte. -/
def spell (path : Text) : String := (String.fromUTF8? (bytes path.untilZero)).getD ""

def now : IO Text := do
  return (← Std.Time.PlainDateTime.now).format "uuuu-MM-dd HH:mm:ss.SSS"

def fetch (files : Storage) (path : Text) : IO Storage := do
  try
    let content ← IO.FS.readBinFile (spell path)
    let files := files.withDirectoryOf path
    return (files.write? path content.data.toList).getD files
  catch
    | .inappropriateType _ 21 _ => return files.withDirectory (Storage.segments path.untilZero)
    | _ => return files

def makeRoom (files : Storage) (path : Text) : IO Storage := do
  try
    let _ ← IO.FS.Handle.mk (spell path) .append
    return files.withDirectoryOf path
  catch _ => return files

def flush (files : Storage) (path : Text) : IO Unit := do
  match files.read? path with
  | some content => try IO.FS.writeBinFile (spell path) (bytes content) catch _ => return ()
  | none => return ()

/-- Adds to a file what came to it since `old`. -/
def flushAdded (old files : Storage) (path : Text) : IO Unit := do
  let length := ((old.read? path).getD []).length
  let added := ((files.read? path).getD []).drop length
  if !added.isEmpty then
    try IO.FS.withFile (spell path) .append fun h => h.write (bytes added)
    catch _ => return ()

def put (stream : IO.FS.Stream) (t : Text) : IO Unit := do
  stream.write (bytes t)
  stream.flush

def provide (p : Program) (s : Machine.State) : IO Machine.State := do
  match Machine.request? p s with
  | some .line =>
    let line ← (← IO.getStdin).getLine
    return { s with world := { s.world with input := s.world.input ++ Text.ofString line } }
  | some (.read path) =>
    return { s with world := { s.world with files := ← fetch s.world.files path } }
  | some (.write path) =>
    return { s with world := { s.world with files := ← makeRoom s.world.files path } }
  | none => return s

def publish (request : Option Machine.Request) (w : Machine.World) : IO Machine.World := do
  if !w.output.isEmpty then put (← IO.getStdout) w.output.toList
  match request with
  | some (.write path) => flush w.files path
  | _ => pure ()
  return { w with output := #[] }

/-- Runs until the execution ends, or `none` if the machine is stuck. -/
partial def drive (p : Program) (limits : Machine.Limits) (s : Machine.State) :
    IO (Option Machine.Finished) := do
  let s ← provide p s
  let request := Machine.request? p s
  match Machine.step p limits s with
  | none => return none
  | some (.done f) => return some { f with world := ← publish request f.world }
  | some (.next s) => drive p limits { s with world := ← publish request s.world }

def report (r : Tool.Report) : IO UInt32 := do
  put (← IO.getStdout) r.out
  put (← IO.getStderr) r.err
  return r.exit.toUInt32

/-- Executes the loaded program and brings the log up to date. -/
def execute (o : Tool.RunOptions) (h : Host) (env : Surroundings) : IO UInt32 := do
  let logPath := env.log.path
  match h.prepare env mainName with
  | .error e =>
    let (r, after) := Tool.RunOptions.refused env (← now) "HostError" e.message
    flushAdded env.files after.files logPath
    report r
  | .ok (machine, index) =>
    let began ← IO.monoNanosNow
    let f := machine.program.functions.getD index default
    let finished ←
      match Machine.start machine.program machine.limits machine.world f index [] with
      | some (.next s) => drive machine.program machine.limits s
      | some (.done f) => pure (some f)
      | none => pure none
    match finished with
    | none => return 1
    | some f =>
      let took := (← IO.monoNanosNow) - began
      let before := (f.world.files.withDirectoryOf logPath)
      let f := { f with world := { f.world with files := before } }
      let after := Host.conclude env (← now) mainName f
      flushAdded before after.files logPath
      report (o.finished took f)

def run (args : List Text) : IO UInt32 := do
  match Tool.RunOptions.ofArgs args with
  | .error r => report r
  | .ok o =>
    let files ← fetch (Storage.withDirectoryOf {} o.log.path) o.image
    let env : Surroundings := { files, log := o.log }
    match o.load env (← now) with
    | (.error r, after) =>
      flushAdded env.files after.files o.log.path
      report r
    | (.ok h, env) => execute o h env

def list (args : List Text) : IO UInt32 := do
  let files ← (args.take 1).foldlM fetch {}
  let list (args : List Text) (files : Storage) : IO (Tool.Report × Storage) :=
    match Tool.list args files with
    | .ok done => return done
    | .error e => throw (IO.userError ((String.fromUTF8? (bytes e.message)).getD ""))
  let (shown, _) ← list (args.take 1) files
  match args[1]? with
  | some output =>
    if shown.exit ≠ 0 then report shown
    else
      let (r, files) ← list args (← makeRoom files output)
      if r.exit = 0 then flush files output
      report r
  | none => report shown

end CommandLine
end ScriptMachine

def main (args : List String) : IO UInt32 := do
  match args with
  | "list" :: rest => ScriptMachine.CommandLine.list (rest.map ScriptMachine.Text.ofString)
  | "run" :: rest => ScriptMachine.CommandLine.run (rest.map ScriptMachine.Text.ofString)
  | _ =>
    IO.eprintln "Usage: scriptmachine (run | list) <arguments>"
    return 1
