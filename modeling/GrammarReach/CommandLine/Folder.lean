import GrammarReach.CommandLine.System
import GrammarReach.Text.Record

namespace GrammarReach.CommandLine

/-- What a file holds. -/
inductive FileContent where
  | text (content : String)
  /-- Bytes that are no text. -/
  | binary
deriving DecidableEq

/-- A folder that commands run in. -/
structure Folder where
  /-- The files by the steps of their paths, each of them once. -/
  files : List (List String × FileContent) := []
  printed : String := ""

namespace Folder

/-- The steps of a path. A path from the root begins with an empty step. -/
def steps (path : String) : List String :=
  match (Text.splitOn '/' path.toList).map String.ofList with
  | [] => []
  | first :: rest =>
    let rest := rest.filter fun step => step != "" && step != "."
    if first = "." then rest else first :: rest

/-- The file at a path. -/
def file? (folder : Folder) (steps : List String) : Option FileContent :=
  (folder.files.find? (·.1 == steps)).map (·.2)

/-- Whether there is a folder at a path. -/
def isFolder (folder : Folder) (steps : List String) : Bool :=
  steps.all (·.isEmpty) ||
    folder.files.any fun (file, _) => steps.isPrefixOf file && steps.length < file.length

/-- Why there is no file at a path. -/
def fault (folder : Folder) (steps : List String) : FileFault :=
  if folder.isFolder steps then .isFolder
  else if folder.files.any fun (file, _) => file.isPrefixOf steps then .notFolder
  else .missing

/-- Reads the text of a file. -/
def read (folder : Folder) (path : String) : Except FileFault String :=
  match folder.file? (steps path) with
  | some (.text content) => .ok content
  | some .binary => .error .notText
  | none => .error (folder.fault (steps path))

/-- Puts a file in place of the one of its path, or among the others. -/
def put (folder : Folder) (steps : List String) (content : FileContent) : Folder :=
  { folder with files := folder.files.filter (·.1 != steps) ++ [(steps, content)] }

/-- Writes the text of a file. The folder of the file has to be there. -/
def write (folder : Folder) (path text : String) : Except FileFault Folder :=
  let steps := steps path
  if (folder.file? steps).isSome || (!folder.isFolder steps && folder.isFolder steps.dropLast) then
    .ok (folder.put steps (.text text))
  else .error (folder.fault steps)

/-- The folder of files with the given paths. -/
def ofFiles (files : List (String × FileContent)) : Folder :=
  files.foldl (fun folder (path, content) => folder.put (steps path) content) {}

end Folder

/-- The world of a folder. -/
def System.ofFolder : System (StateM Folder) where
  read path := ExceptT.mk do return (← get).read path
  write path text := ExceptT.mk do
    match (← get).write path text with
    | .error fault => return .error fault
    | .ok folder =>
      set folder
      return .ok ()
  print text := modify fun folder => { folder with printed := folder.printed ++ text }
  note _ := pure ()
  now := pure 0

end GrammarReach.CommandLine
