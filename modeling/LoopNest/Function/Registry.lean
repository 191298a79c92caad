import LoopNest.Function.Json
import LoopNest.Json.Reader
import LoopNest.OrderedMap
import LoopNest.Text.Order

/-! The table of functions, in the order of their names. -/
namespace LoopNest

abbrev Registry := OrderedMap Text.compare Signature

/-- Why a manifest is refused. -/
inductive ManifestFault where
  | malformed
  /-- The name is taken, by the table or by an earlier function of the manifest. -/
  | duplicate (id : String)
  deriving DecidableEq

/-- The functions that a text lists, if it is a well-formed manifest. -/
def Manifest.ofText? (text : String) : Option Manifest := (Json.ofText? text).bind ofJson?

namespace Registry

def add (r : Registry) (f : Signature) : Registry := r.insert f.id f

def addAll (r : Registry) (fs : List Signature) : Registry := fs.foldl add r

/-- Steps on a table. What a step did to the table before it fails is not undone. -/
abbrev Loading := ExceptT ManifestFault (StateM Registry)

/-- Looks for a name that the table or an earlier function of the manifest has already. -/
def checkNames (seen : List String) : Manifest → Loading Unit
  | [] => pure ()
  | f :: fs => do
    if (← get).contains f.id || seen.contains f.id then throw (.duplicate f.id)
    checkNames (f.id :: seen) fs

/-- Goes through the names of a manifest before it adds its functions. Gives their number. -/
def loadText (text : String) : Loading Nat :=
  match Manifest.ofText? text with
  | none => throw .malformed
  | some fs => do
    checkNames [] fs
    fs.forM fun f => modify (add · f)
    return fs.length

/-- Loads a manifest: the number of its functions or why it is refused, and the table after it. -/
def load (r : Registry) (text : String) : Except ManifestFault Nat × Registry :=
  (loadText text).run.run r

def toJson (r : Registry) : Json := .array (r.values.map Signature.toJson)

/-- The canonical text: all functions without blanks, in the order of their names. -/
def canonicalText (r : Registry) : String := r.toJson.compact

def elementwise (id : String) (params : List String) (rule : TypeRule) : Signature :=
  ⟨id, .elementwise, params, false, rule, none⟩

def binary (id : String) (rule : TypeRule) : Signature := elementwise id ["left", "right"] rule

def reducer (id : String) (rule : TypeRule) (identity : Identity) : Signature :=
  ⟨id, .reduce, ["source"], false, rule, some identity⟩

def builtinFunctions : List Signature :=
  [binary "add" .promote,
    binary "subtract" .promote,
    binary "multiply" .promote,
    binary "divide" (.fixed .float),
    binary "gt" (.fixed .boolean),
    binary "lt" (.fixed .boolean),
    binary "ge" (.fixed .boolean),
    binary "le" (.fixed .boolean),
    binary "eq" (.fixed .boolean),
    binary "and" (.fixed .boolean),
    binary "or" (.fixed .boolean),
    elementwise "not" ["value"] (.fixed .boolean),
    binary "concat" (.fixed .string),
    reducer "sum" (.same "source") .zero,
    reducer "product" (.same "source") .one,
    reducer "max" (.same "source") .negInfinity,
    reducer "min" (.same "source") .posInfinity,
    reducer "count" (.fixed .integer) .zero,
    reducer "any" (.fixed .boolean) .false,
    reducer "all" (.fixed .boolean) .true,
    ⟨"array", .constructor, ["elements"], true, .tupleOf, none⟩]

/-- The table of the functions that need no manifest. -/
def builtins : Registry := addAll .empty builtinFunctions

end Registry
end LoopNest
