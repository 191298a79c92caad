import LoopNest.Command.Run

/-! The command line on the files of the system. -/
namespace LoopNest
namespace Command

/-- The fault of a failed access. -/
def fileFault : IO.Error → FileFault
  | .noFileOrDirectory .. => .notFound
  | .alreadyExists _ code details | .invalidArgument _ code details
  | .permissionDenied _ code details | .resourceExhausted _ code details
  | .inappropriateType _ code details | .noSuchThing _ code details
  | .interrupted _ code details | .otherError code details | .resourceBusy code details
  | .resourceVanished code details | .unsupportedOperation code details
  | .hardwareFault code details | .unsatisfiedConstraints code details
  | .illegalOperation code details | .protocolError code details | .timeExpired code details =>
    .other (FileFault.numbered details code.toNat)
  | .unexpectedEof => .other "unexpected end of file"
  | .userError text => .other text

def attempt {α : Type} (action : IO α) : IO (Except FileFault α) := do
  try return .ok (← action)
  catch e => return .error (fileFault e)

/-- The text of each file that the options name. -/
def readFiles (paths : List String) : IO (List (String × Except FileFault String)) :=
  paths.mapM fun (path : String) => do
    let bytes ← attempt (IO.FS.readBinFile path)
    return (path, bytes.bind decodeText)

def readerOf (files : List (String × Except FileFault String)) : Reader := fun path =>
  (files.lookup path).getD (.error .notFound)

def finish (o : Outcome) : IO UInt32 := do
  IO.print o.stdout
  IO.eprint o.stderr
  return UInt32.ofNat o.status

def runOptions (o : Options) : IO UInt32 := do
  let files ← readFiles (o.functions ++ [o.source])
  match (compile (readerOf files) o).run.run [] with
  | (.error status, messages) => finish ⟨status, "", messages⟩
  | (.ok text, messages) =>
    match o.output with
    | none => finish ⟨0, text, messages⟩
    | some path =>
      let written ← attempt (IO.FS.writeFile path text)
      finish (conclude (do afterWrite o path written; return "") messages)

end Command
end LoopNest

def main (args : List String) : IO UInt32 :=
  match LoopNest.Command.Options.ofArgs args with
  | .error i => LoopNest.Command.finish (LoopNest.Command.interrupted i)
  | .ok o => LoopNest.Command.runOptions o
