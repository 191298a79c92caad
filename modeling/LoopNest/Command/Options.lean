/-! The options of the command line. -/
namespace LoopNest

/-- What the command writes. -/
inductive Stage where
  | stamps
  | carriers
  | code
  | codeJson
  | buildInfo
  deriving DecidableEq

namespace Stage

def all : List Stage := [.stamps, .carriers, .code, .codeJson, .buildInfo]

/-- The name of the option's value. -/
def name : Stage → String
  | .stamps => "stamps"
  | .carriers => "carriers"
  | .code => "lir"
  | .codeJson => "lir-json"
  | .buildInfo => "build-info"

def ofName? (text : String) : Option Stage := all.find? fun s => s.name == text

/-- The name in messages. -/
def label : Stage → String
  | .stamps => "Stamps"
  | .carriers => "Carriers"
  | .code => "Lir"
  | .codeJson => "LirJson"
  | .buildInfo => "BuildInfo"

end Stage

namespace Command

structure Options where
  source : String
  /-- Without a file, the result goes to the standard output. -/
  output : Option String
  functions : List String
  stage : Stage
  inlining : Bool
  verbose : Bool
  deriving DecidableEq

inductive UsageFault where
  | unknownOption (name : String)
  | unexpectedArgument (text : String)
  | missingValue (option : String)
  | unexpectedValue (option : String)
  | invalidValue (option value : String)
  | repeatedOption (name : String)
  | missingSource
  deriving DecidableEq

def UsageFault.message : UsageFault → String
  | .unknownOption name => "unknown option " ++ name
  | .unexpectedArgument text => "unexpected argument " ++ text
  | .missingValue option => option ++ " needs a value"
  | .unexpectedValue option => option ++ " takes no value"
  | .invalidValue option value => "invalid value for " ++ option ++ ": " ++ value
  | .repeatedOption name => name ++ " is given twice"
  | .missingSource => "no source file is given"

/-- Why the reading of arguments ends before the last one. -/
inductive Interruption where
  | usage (fault : UsageFault)
  | version
  | help
  deriving DecidableEq

/-- An option with a value. -/
inductive ValueOption where
  | output
  | functions
  | emit
  deriving DecidableEq

def ValueOption.text : ValueOption → String
  | .output => "--output"
  | .functions => "--functions"
  | .emit => "--emit"

/-- The options so far, the one that waits for its value, and whether all that follows is no
option. -/
structure Draft where
  source : Option String
  output : Option String
  functions : List String
  stage : Option Stage
  noInline : Bool
  verbose : Bool
  pending : Option ValueOption
  literal : Bool

namespace Draft

def empty : Draft := ⟨none, none, [], none, false, false, none, false⟩

def refuse {α : Type} (fault : UsageFault) : Except Interruption α := .error (.usage fault)

/-- Paths are not empty, a single option is given once, and a stage is one of the known ones. -/
def setValue (d : Draft) (option : ValueOption) (value : String) : Except Interruption Draft :=
  let d := { d with pending := none }
  match option with
  | .output =>
    if d.output.isSome then refuse (.repeatedOption option.text)
    else if value = "" then refuse (.invalidValue option.text value)
    else .ok { d with output := some value }
  | .functions =>
    if value = "" then refuse (.invalidValue option.text value)
    else .ok { d with functions := d.functions ++ [value] }
  | .emit =>
    if d.stage.isSome then refuse (.repeatedOption option.text)
    else
      match Stage.ofName? value with
      | some s => .ok { d with stage := some s }
      | none => refuse (.invalidValue option.text value)

/-- Takes the value that is attached to an option, or waits for the next argument. -/
def takeValue (d : Draft) (option : ValueOption) : Option String → Except Interruption Draft
  | some value => d.setValue option value
  | none => .ok { d with pending := some option }

def setSource (d : Draft) (value : String) : Except Interruption Draft :=
  if d.source.isSome then refuse (.unexpectedArgument value)
  else if value = "" then refuse (.invalidValue "source" value)
  else .ok { d with source := some value }

/-- An option that is there or not; it has no value and is given once. -/
def setFlag (d : Draft) (name : String) (given : Bool) (value : Option String)
    (set : Draft → Draft) : Except Interruption Draft :=
  match value with
  | some _ => refuse (.unexpectedValue name)
  | none => if given then refuse (.repeatedOption name) else .ok (set d)

/-- An option that ends the reading. -/
def stop (name : String) (value : Option String) (reason : Interruption) :
    Except Interruption Draft :=
  match value with
  | some _ => refuse (.unexpectedValue name)
  | none => .error reason

/-- An option after two hyphens. -/
def takeLong (d : Draft) (name : String) (value : Option String) : Except Interruption Draft :=
  match name with
  | "output" => d.takeValue .output value
  | "functions" => d.takeValue .functions value
  | "emit" => d.takeValue .emit value
  | "no-inline" => d.setFlag "--no-inline" d.noInline value fun d => { d with noInline := true }
  | "verbose" => d.setFlag "--verbose" d.verbose value fun d => { d with verbose := true }
  | "version" => stop "--version" value .version
  | "help" => stop "--help" value .help
  | name => refuse (.unknownOption ("--" ++ name))

/-- The value that follows the letter of an option at once, with or without a sign of equality. -/
def attached : List Char → Option String
  | [] => none
  | '=' :: cs => some (String.ofList cs)
  | cs => some (String.ofList cs)

/-- An option after one hyphen. -/
def takeShort (d : Draft) (letter : Char) (rest : List Char) : Except Interruption Draft :=
  if letter = 'o' then d.takeValue .output (attached rest)
  else if letter = 'V' then .error .version
  else if letter = 'h' then .error .help
  else refuse (.unknownOption (String.ofList ['-', letter]))

/-- The name and the value of a long option. -/
def splitLong (text : List Char) : String × Option String :=
  let name := text.takeWhile fun c => c != '='
  match text.dropWhile fun c => c != '=' with
  | [] => (String.ofList name, none)
  | _ :: value => (String.ofList name, some (String.ofList value))

/-- An argument where no option waits for a value. -/
def takeFree (d : Draft) (arg : String) : Except Interruption Draft :=
  match arg.toList with
  | ['-', '-'] => .ok { d with literal := true }
  | '-' :: '-' :: text =>
    let (name, value) := splitLong text
    d.takeLong name value
  | '-' :: letter :: rest => d.takeShort letter rest
  | _ => d.setSource arg

/-- What looks like an option is no value of the one before. -/
def looksLikeOption (arg : String) : Bool :=
  match arg.toList with
  | '-' :: _ :: _ => true
  | _ => false

def take (d : Draft) (arg : String) : Except Interruption Draft :=
  if d.literal then d.setSource arg
  else
    match d.pending with
    | none => d.takeFree arg
    | some option =>
      if looksLikeOption arg then refuse (.missingValue option.text) else d.setValue option arg

def finish (d : Draft) : Except Interruption Options :=
  match d.pending, d.source with
  | some option, _ => refuse (.missingValue option.text)
  | none, none => refuse .missingSource
  | none, some source =>
    .ok ⟨source, d.output, d.functions, d.stage.getD .code, !d.noInline, d.verbose⟩

end Draft

/-- Reads the arguments from left to right. -/
def Options.ofArgs (args : List String) : Except Interruption Options := do
  (← args.foldlM Draft.take .empty).finish

end Command
end LoopNest
