import LoopNest.Digest
import LoopNest.Graph
import LoopNest.Inlining
import LoopNest.Lowering
import LoopNest.Pass
import LoopNest.Source.Parser
import LoopNest.Stamp.Stamping
import LoopNest.Validity

/-! Sessions: a program with the functions that it is compiled with and the results of the passes
that ran so far. -/
namespace LoopNest

/-- The inputs and the declarations that a source text stands for. -/
structure Program where
  inputs : InputTable
  graph : Graph

namespace Program

def ofModule (m : SourceModule) : Except Diagnostic Program := do
  let inputs ← InputTable.ofDecls m.inputs
  let graph ← Graph.ofDeclarations m.declarations
  return ⟨inputs, graph⟩

/-- Reads a source text. All its lexical and syntax errors are reported, but only the first fault of
a text without any. -/
def ofSource (source : String) : Except (List Diagnostic) Program :=
  let reading := SourceReading.ofSource source
  match reading.strays, reading.result with
  | [], .ok m => (ofModule m).mapError fun d => [d]
  | _, _ => .error (reading.errors.map fun (span, message) => .plain span message)

end Program

/-- The version of the compiler. -/
def version : String := "0.3.2"

/-- The digests of a source and of the functions that it is compiled with, in hexadecimal. The
functions count by their canonical text. -/
structure Provenance where
  sourceHash : String
  registryFingerprint : String
  deriving DecidableEq

namespace Provenance

def ofSource (source : String) (registry : Registry) : Provenance :=
  ⟨Digest.ofText source, Digest.ofText registry.canonicalText⟩

def toJson (p : Provenance) : Json :=
  .record [("compiler_version", .text version),
    ("registry_fingerprint", .text p.registryFingerprint), ("source_hash", .text p.sourceHash)]

def render (p : Provenance) : String := p.toJson.pretty ++ "\n"

end Provenance

/-- The latest result of each pass. -/
structure Artifacts where
  analysis : Option Analysis
  stamped : Option StampedModule
  carriers : Option CarrierMap
  code : Option LoopModule
  inlined : Option LoopModule

def Artifacts.empty : Artifacts := ⟨none, none, none, none, none⟩

structure Session where
  registry : Registry
  program : Program
  artifacts : Artifacts
  diagnostics : List Diagnostic
  hasError : Bool
  provenance : Option Provenance

namespace Session

def ofProgram (program : Program) (registry : Registry) : Session :=
  ⟨registry, program, .empty, [], false, none⟩

def ofSource (source : String) (registry : Registry) : Except (List Diagnostic) Session := do
  let program ← Program.ofSource source
  return { ofProgram program registry with provenance := some (.ofSource source registry) }

/-- The code to be used: inlined where the inliner ran. -/
def finalCode (s : Session) : Option LoopModule := s.artifacts.inlined.or s.artifacts.code

def missing {α : Type} (p : Pass) (what : String) : Except Diagnostic α :=
  .error ((Fault.missingArtifact p.name what).diagnose .zero)

def analyze (s : Session) : Except Diagnostic Analysis :=
  Analysis.ofGraph s.program.graph s.program.inputs s.registry

def stamp (s : Session) : Except Diagnostic StampedModule :=
  match s.artifacts.analysis with
  | some a => StampedModule.ofGraph s.program.graph a s.registry
  | none => missing .stamp "analysis"

def findCarriers (s : Session) : Except Diagnostic CarrierMap :=
  match s.artifacts.stamped with
  | some m => CarrierMap.ofModule m
  | none => missing .carriers "stamped module"

def lower (s : Session) : Except Diagnostic LoopModule :=
  match s.artifacts.stamped, s.artifacts.carriers with
  | some m, some c => LoopModule.ofStamped m c s.registry
  | _, _ => missing .lower "stamped module and carrier map"

def verify (s : Session) : Except Diagnostic Unit :=
  match s.artifacts.code with
  | some m => m.check
  | none => missing .verify "LIR"

/-- The inlined code, which has to be valid again. -/
def inline (s : Session) : Except Diagnostic LoopModule :=
  match s.artifacts.code with
  | some m => m.inline.check.map fun _ => m.inline
  | none => missing .inline "LIR"

/-- The artifacts once a pass has run. -/
def compute (s : Session) : Pass → Except Diagnostic Artifacts
  | .analyze => s.analyze.map fun a => { s.artifacts with analysis := some a }
  | .stamp => s.stamp.map fun m => { s.artifacts with stamped := some m }
  | .carriers => s.findCarriers.map fun c => { s.artifacts with carriers := some c }
  | .lower => s.lower.map fun m => { s.artifacts with code := some m }
  | .verify => s.verify.map fun _ => s.artifacts
  | .inline => s.inline.map fun m => { s.artifacts with inlined := some m }

/-- What a pass reported. -/
structure Outcome where
  pass : Pass
  fault : Option Diagnostic

/-- Runs a pass. A failing one leaves nothing but its diagnostic. -/
def perform (s : Session) (p : Pass) : Outcome × Session :=
  match s.compute p with
  | .ok a => (⟨p, none⟩, { s with artifacts := a })
  | .error d =>
    (⟨p, some d⟩, { s with diagnostics := s.diagnostics ++ [d], hasError := true })

/-- Runs passes in order up to the first that fails. -/
def performAll (s : Session) : List Pass → List Outcome × Session
  | [] => ([], s)
  | p :: ps =>
    match s.perform p with
    | (o, s) =>
      match o.fault with
      | some _ => ([o], s)
      | none =>
        let (os, s) := s.performAll ps
        (o :: os, s)

/-- The passes of a run; inlining can be left out. -/
def plan (terminal : Pass) (inlining : Bool) : List Pass :=
  terminal.required.filter fun p => inlining || p != .inline

/-- Runs what is needed for a pass, and the pass itself. -/
def run (s : Session) (terminal : Pass) (inlining : Bool) : List Outcome × Session :=
  s.performAll (plan terminal inlining)

/-- The pass that failed. -/
def failed? (outcomes : List Outcome) : Option Pass :=
  (outcomes.find? fun o => o.fault.isSome).map Outcome.pass

/-- Loads a manifest into the functions. -/
def loadManifest (s : Session) (text : String) : Except ManifestFault Nat × Session :=
  let (count, r) := s.registry.load text
  (count, { s with registry := r })

/-- Continues with the program of another source. -/
def replaceProgram (s : Session) (source : String) : Except (List Diagnostic) Session :=
  (Program.ofSource source).map fun p => { s with program := p }

end Session
end LoopNest
