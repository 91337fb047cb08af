import ScriptMachine.Host

namespace ScriptMachine
namespace Tool

/-- What a tool leaves behind besides files. -/
structure Report where
  exit : Nat
  out : Text := []
  err : Text := []

structure RunOptions where
  image : Text
  showTrace : Bool := false
  stats : Bool := false
  logPath : Option Text := none

namespace RunOptions

/-- Reads the options after the image. -/
def parse (o : RunOptions) : List Text → Except Report RunOptions
  | [] => .ok o
  | option :: rest =>
    if option = Text.ofString "--trace" then parse { o with showTrace := true } rest
    else if option = Text.ofString "--stats" then parse { o with stats := true } rest
    else
      match decide (option = Text.ofString "--log"), rest with
      | true, path :: rest => parse { o with logPath := some path } rest
      | _, _ => .error { exit := 1, err := Text.concat ["Unknown option: ", option, "\n"] }

def ofArgs : List Text → Except Report RunOptions
  | [] =>
    .error { exit := 1,
             err := "Usage: run_bytecode <file.pbc> [--trace] [--stats] [--log <path>]\n" }
  | image :: options => parse { image } options

/-- Failures are reported by the tool, so the log keeps to its file. -/
def log (o : RunOptions) : Log :=
  { path := o.logPath.getD (Log.path {}), toConsole := false }

def host (o : RunOptions) : Host := { limits := { collectStats := o.stats } }

/-- The report on a load that was broken off or a call that could not be made. -/
def refused (env : Surroundings) (time type message : Text) : Report × Surroundings :=
  ({ exit := 1, err := Text.concat ["Error: ", message, "\n"] },
    env.record (Log.exceptionBlock time type message "run" []))

def load (o : RunOptions) (env : Surroundings) (time : Text) : Except Report Host × Surroundings :=
  match o.host.loadFile env time o.image with
  | .ok (true, h, env) => (.ok h, env)
  | .ok (false, h, env) =>
    (.error { exit := 1, err := Text.concat ["Failed to load bytecode: ", h.lastError, "\n"] }, env)
  | .error e =>
    let (report, env) := refused env time "ReadError" e.message
    (.error report, env)

def finished (o : RunOptions) (nanoseconds : Int) (f : Machine.Finished) : Report :=
  let stats := (f.stats.map (·.report nanoseconds)).getD []
  let out := f.world.output.toList
  match f.outcome with
  | .returned _ => { exit := 0, out, err := stats }
  | .failed e =>
    let text := if o.showTrace then e.renderWithTrace else e.render
    { exit := 2, out, err := Text.concat [stats, text, "\n"] }

end RunOptions

def run (args : List Text) (env : Surroundings) (time : Text) (nanoseconds : Int) (fuel : Nat) :
    Report × Surroundings :=
  match RunOptions.ofArgs args with
  | .error report => (report, env)
  | .ok o =>
    match o.load { env with log := o.log } time with
    | (.error report, env) => (report, env)
    | (.ok h, env) =>
      match h.call env time fuel mainName {} [] with
      | .error e => RunOptions.refused env time "HostError" e.message
      | .ok (.finished f, env) => (o.finished nanoseconds f, env)
      | .ok (_, env) => ({ exit := 1 }, env)

def list (args : List Text) (files : Storage) : Except ReadError (Report × Storage) := do
  match args with
  | [] => return ({ exit := 1, err := "Usage: pohdis <input.pbc> [output.txt]\n" }, files)
  | image :: rest =>
    let failed (message : Text) : Report :=
      { exit := 2, err := Text.concat ["Load failed: ", message, "\n"] }
    match ← Image.load files image with
    | .error e => return (failed e.message, files)
    | .ok p =>
      match p.listing, rest with
      | .error e, _ => return (failed e.message, files)
      | .ok listing, [] => return ({ exit := 0, out := listing }, files)
      | .ok listing, output :: _ =>
        match files.write? output listing with
        | some files => return ({ exit := 0 }, files)
        | none =>
          return ({ exit := 3, err := Text.concat ["Failed to write listing: ", output, "\n"] },
            files)

end Tool
end ScriptMachine
