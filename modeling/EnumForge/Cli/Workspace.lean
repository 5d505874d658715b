/-!
# Workspaces

The files that a command can see, as a function of their paths.  A path is followed step by step,
so a step through something that is no folder fails.
-/

namespace EnumForge.Cli

/-- Why a path gives no text. -/
inductive ReadError where
  | notFound
  /-- A step of the path goes through a file. -/
  | notAFolder
  | isAFolder
  /-- The file holds bytes that are no UTF-8. -/
  | badEncoding
  | other (reason : String)
deriving DecidableEq, Repr

namespace ReadError

def message : ReadError → String
  | notFound => "No such file or directory (os error 2)"
  | notAFolder => "Not a directory (os error 20)"
  | isAFolder => "Is a directory (os error 21)"
  | badEncoding => "stream did not contain valid UTF-8"
  | other reason => reason

/-- Whether there is nothing at the path. -/
def isAbsence : ReadError → Bool
  | notFound | notAFolder => true
  | isAFolder | badEncoding | other _ => false

end ReadError

/-- The text at each path. -/
abbrev Workspace := String → Except ReadError String

/-- Files by their names, which are relative paths without dots. -/
abbrev FileList := List (String × String)

/-- Where a path has led so far. -/
inductive Place where
  | folder (steps : List String)
  | file (name content : String)
  /-- A folder around the workspace, about which nothing else is known. -/
  | outside
deriving DecidableEq, Repr

namespace FileList

/-- The file or folder at the end of the steps. -/
def at? (files : FileList) (steps : List String) : Option Place :=
  match List.find? (fun f ↦ f.1.splitOn "/" == steps) files with
  | some (name, content) => some (.file name content)
  | none =>
    if files.any fun f ↦ steps.isPrefixOf (f.1.splitOn "/") then some (.folder steps) else none

/-- One more step of a path. -/
def step (files : FileList) (place : Place) (name : String) : Except ReadError Place :=
  match place with
  | .file _ _ => .error .notAFolder
  | .outside => if name ∈ ["", ".", ".."] then .ok .outside else .error .notFound
  | .folder steps =>
    if name = "" ∨ name = "." then .ok (.folder steps)
    else if name = ".." then .ok (if steps.isEmpty then .outside else .folder steps.dropLast)
    else match files.at? (steps ++ [name]) with
      | some place => .ok place
      | none => .error .notFound

/-- Where a path leads. -/
def follow (files : FileList) (path : String) : Except ReadError Place :=
  (path.splitOn "/").foldlM files.step (if path.startsWith "/" then .outside else .folder [])

/-- The workspace that holds the files and the folders they stand in. -/
def workspace (files : FileList) : Workspace := fun path ↦ do
  match ← files.follow path with
  | .file _ content => return content
  | .folder _ | .outside => throw .isAFolder

/-- Writes a file; a new one comes last. -/
def write (path content : String) (files : FileList) : FileList :=
  match files.follow path with
  | .ok (.file name _) => files.map fun f ↦ if f.1 = name then (name, content) else f
  | _ => files ++ [(path, content)]

end FileList

end EnumForge.Cli
