import LoopNest.Code.Json
import LoopNest.Code.Listing
import LoopNest.Command.Options
import LoopNest.FileTree
import LoopNest.Session
import LoopNest.Stamp.Listing

/-! The command: it compiles a source file and writes one of the results. -/
namespace LoopNest

def ManifestFault.message (origin : String) : ManifestFault → String
  | .malformed => origin ++ ": not a function manifest"
  | .duplicate id => "duplicate function '" ++ id ++ "' in " ++ origin

namespace Command

/-- What a command leaves: its status, its output, and the messages, each of which may have several
lines. -/
structure Outcome where
  status : Nat
  stdout : String
  messages : List String
  deriving DecidableEq

def Outcome.stderr (o : Outcome) : String := String.join (o.messages.map (· ++ "\n"))

/-- Steps that leave messages. An exception is the status to end with. -/
abbrev Step := ExceptT Nat (StateM (List String))

def say (text : String) : Step Unit := modify (· ++ ["axc: " ++ text])

def sayIf (verbose : Bool) (text : String) : Step Unit := if verbose then say text else pure ()

/-- Ends with status 2. -/
def fail {α : Type} (text : String) : Step α := do
  say ("error: " ++ text)
  throw 2

/-- Where files come from. -/
abbrev Reader := String → Except FileFault String

def loadManifest (read : Reader) (verbose : Bool) (r : Registry) (path : String) :
    Step Registry :=
  match read path with
  | .error f => fail (path ++ ": " ++ f.message)
  | .ok text =>
    match r.load text with
    | (.error f, _) => fail (f.message path)
    | (.ok n, r) => do
      sayIf verbose ("loaded " ++ toString n ++ " functions from " ++ path)
      return r

def readSource (read : Reader) (path : String) : Step String :=
  match read path with
  | .error f => fail (path ++ ": " ++ f.message)
  | .ok text => pure text

def sayAll (ds : List Diagnostic) : Step Unit := ds.forM fun d => say d.render

def openSession (source : String) (r : Registry) : Step Session :=
  match Session.ofSource source r with
  | .ok s => pure s
  | .error ds => do
    sayAll ds
    throw 1

/-- The last pass that a stage needs. -/
def terminal? : Stage → Option Pass
  | .stamps => some .stamp
  | .carriers => some .carriers
  | .code | .codeJson => some .inline
  | .buildInfo => none

/-- Runs the passes of a stage, with a message for each diagnostic. -/
def runPasses (o : Options) (s : Session) : Step Session :=
  match terminal? o.stage with
  | none => pure s
  | some p => do
    let (outcomes, s) := s.run p o.inlining
    outcomes.forM fun r => do
      sayAll r.fault.toList
      sayIf o.verbose (r.pass.name ++ " complete")
    if (Session.failed? outcomes).isSome then throw 1 else return s

/-- The result of a stage. -/
def text? (stage : Stage) (s : Session) : Option String :=
  match stage with
  | .stamps => s.artifacts.stamped.map StampedModule.render
  | .carriers => s.artifacts.carriers.map CarrierMap.render
  | .code => s.finalCode.map LoopModule.render
  | .codeJson => s.finalCode.map fun m => m.toJson.pretty ++ "\n"
  | .buildInfo => s.provenance.map Provenance.render

/-- Compiles up to the text that is to be written. -/
def compile (read : Reader) (o : Options) : Step String := do
  sayIf o.verbose ("source = " ++ o.source)
  sayIf o.verbose ("emit   = " ++ o.stage.label)
  let r ← o.functions.foldlM (loadManifest read o.verbose) Registry.builtins
  sayIf o.verbose (toString r.size ++ " functions registered")
  let source ← readSource read o.source
  let s ← openSession source r
  sayIf o.verbose ("parsed " ++ toString s.program.inputs.size ++ " inputs, " ++
    toString s.program.graph.size ++ " declarations")
  let s ← runPasses o s
  match text? o.stage s with
  | some text => return text
  | none =>
    say ("nothing to emit for " ++ o.stage.label)
    throw 1

/-- After the attempt to write the output file. -/
def afterWrite (o : Options) (path : String) : Except FileFault Unit → Step Unit
  | .ok _ => sayIf o.verbose ("wrote " ++ path)
  | .error f => fail (path ++ ": " ++ f.message)

/-- The outcome of steps that end with some output. -/
def conclude (step : Step String) (messages : List String) : Outcome :=
  match step.run.run messages with
  | (.ok text, messages) => ⟨0, text, messages⟩
  | (.error status, messages) => ⟨status, "", messages⟩

def helpLines : List String :=
  ["Axis compiler: dimensional analysis and loop lowering for .axm declaration modules",
    "",
    "Usage: axc [OPTIONS] <SOURCE>",
    "",
    "Arguments:",
    "  <SOURCE>  Input .axm source file",
    "",
    "Options:",
    "  -o, --output <OUTPUT>        Output file path (stdout when omitted)",
    "      --functions <FUNCTIONS>  Function manifest JSON, layered over the builtins (repeatable)",
    "      --emit <EMIT>            Output stage [default: lir] [possible values: " ++
      ", ".intercalate (Stage.all.map Stage.name) ++ "]",
    "      --no-inline              Skip the LIR inliner",
    "      --verbose                Print compiler phases and timing",
    "  -h, --help                   Print help",
    "  -V, --version                Print version"]

/-- The outcome where no file is compiled. -/
def interrupted : Interruption → Outcome
  | .version => ⟨0, "axc " ++ version ++ "\n", []⟩
  | .help => ⟨0, String.join (helpLines.map (· ++ "\n")), []⟩
  | .usage fault => ⟨2, "", ["axc: " ++ fault.message ++ "\n\nUsage: axc [OPTIONS] <SOURCE>"]⟩

/-- Runs the command on a tree of files. -/
def run (t : FileTree) (o : Options) : Outcome × FileTree :=
  match (compile t.readText o).run.run [] with
  | (.error status, messages) => (⟨status, "", messages⟩, t)
  | (.ok text, messages) =>
    match o.output with
    | none => (⟨0, text, messages⟩, t)
    | some path =>
      let written := t.write path text.toUTF8
      (conclude (do afterWrite o path (written.map fun _ => ()); return "") messages,
        written.toOption.getD t)

end Command
end LoopNest
