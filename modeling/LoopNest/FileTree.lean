/-! Files: why one cannot be read or written, and a tree of files in memory. -/
namespace LoopNest

inductive FileFault where
  | notFound
  | notDirectory
  | isDirectory
  | nameTooLong
  /-- A path with a null character names nothing. -/
  | nullInName
  /-- The bytes are no text. -/
  | notText
  | other (message : String)
  deriving DecidableEq

namespace FileFault

/-- The wording of a fault that has a number of its own. -/
def numbered (text : String) (number : Nat) : String :=
  text ++ " (os error " ++ toString number ++ ")"

def message : FileFault → String
  | .notFound => numbered "No such file or directory" 2
  | .notDirectory => numbered "Not a directory" 20
  | .isDirectory => numbered "Is a directory" 21
  | .nameTooLong => numbered "File name too long" 36
  | .nullInName => "file name contained an unexpected NUL byte"
  | .notText => "stream did not contain valid UTF-8"
  | .other message => message

end FileFault

/-- The text that bytes stand for. -/
def decodeText (bytes : ByteArray) : Except FileFault String :=
  match String.fromUTF8? bytes with
  | some s => .ok s
  | none => .error .notText

/-- What is known outside a tree of files. -/
inductive Outside where
  /-- The top of all files, where absolute paths start. -/
  | top
  /-- A directory between the top and the tree. -/
  | above
  /-- The directory of the devices. -/
  | devices
  /-- The device that reads as an empty file and drops what is written to it. -/
  | nullDevice
  /-- Any other entry of a directory outside the tree. -/
  | absent

def nameLimit : Nat := 255

def pathLimit : Nat := 4096

namespace Outside

/-- Follows a name that is no dot and not empty, from a directory. -/
def entry : Outside → String → Outside
  | .top, name => if name = "dev" then .devices else .absent
  | .devices, name => if name = "null" then .nullDevice else .absent
  | _, _ => .absent

def parent : Outside → Outside
  | .devices => .top
  | o => o

def step (o : Outside) (name : String) : Except FileFault Outside :=
  match o with
  | .nullDevice => .error .notDirectory
  | .absent => .error .notFound
  | .top | .above | .devices =>
    if name = "" ∨ name = "." then .ok o
    else if name = ".." then .ok o.parent
    else if nameLimit < name.utf8ByteSize then .error .nameTooLong
    else .ok (o.entry name)

end Outside

/-- Files by the names that lead to them. The directories are those of the files, and the root. -/
structure FileTree where
  files : List (List String × ByteArray)

namespace FileTree

def empty : FileTree := ⟨[]⟩

/-- What a path leads to. -/
inductive Place where
  | directory (names : List String)
  | file (names : List String) (bytes : ByteArray)
  | absent (names : List String)
  | outside (place : Outside)

def isDirectory (t : FileTree) (names : List String) : Bool :=
  names.isEmpty || t.files.any fun (file, _) =>
    names.isPrefixOf file && decide (names.length < file.length)

/-- The entry of a directory. -/
def entry (t : FileTree) (names : List String) : Place :=
  match t.files.lookup names with
  | some bytes => .file names bytes
  | none => if t.isDirectory names then .directory names else .absent names

/-- Follows one name of a path. An empty one stands for a doubled slash. -/
def step (t : FileTree) (place : Place) (name : String) : Except FileFault Place :=
  match place with
  | .file .. => .error .notDirectory
  | .absent _ => .error .notFound
  | .outside o => (o.step name).map .outside
  | .directory names =>
    if name = "" ∨ name = "." then .ok place
    else if name = ".." then
      .ok (if names = [] then .outside .above else .directory names.dropLast)
    else if nameLimit < name.utf8ByteSize then .error .nameTooLong
    else .ok (t.entry (names ++ [name]))

/-- The place where a path starts, and its names. -/
def namesOf (path : String) : Except FileFault (Place × List String) :=
  if path.toList.contains (Char.ofNat 0) then .error .nullInName
  else if path = "" then .error .notFound
  else if pathLimit ≤ path.utf8ByteSize then .error .nameTooLong
  else
    let names := path.splitOn "/"
    .ok (if names.head? = some "" then .outside .top else .directory [], names)

def walk (t : FileTree) (start : Place) (names : List String) : Except FileFault Place :=
  names.foldlM t.step start

/-- The bytes of the file at a path. -/
def read (t : FileTree) (path : String) : Except FileFault ByteArray := do
  let (start, names) ← namesOf path
  match ← t.walk start names with
  | .file _ bytes => return bytes
  | .outside .nullDevice => return .empty
  | .absent _ | .outside .absent => throw .notFound
  | .directory _ | .outside _ => throw .isDirectory

def readText (t : FileTree) (path : String) : Except FileFault String := do
  decodeText (← t.read path)

def put (t : FileTree) (names : List String) (bytes : ByteArray) : FileTree :=
  ⟨(names, bytes) :: t.files.filter fun (file, _) => file != names⟩

/-- The place a written file goes to. A path with a slash at its end is one of a directory as soon
as the directory of its last name is found, whatever that name leads to. -/
def target (t : FileTree) (path : String) : Except FileFault Place := do
  let (start, names) ← namesOf path
  if path.endsWith "/" then
    let shown := names.filter (· ≠ "")
    t.walk start (shown.dropLast ++ ["."])
  else t.walk start names

/-- Writes a file, a new one where there is none. What is written outside the tree is not kept. -/
def write (t : FileTree) (path : String) (bytes : ByteArray) : Except FileFault FileTree := do
  match ← t.target path with
  | .file names _ | .absent names => return t.put names bytes
  | .outside .nullDevice | .outside .absent => return t
  | .directory _ | .outside _ => throw .isDirectory

end FileTree
end LoopNest
