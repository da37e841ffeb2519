import A32Lowering.Text.Basic

/-!
# Files of a folder

Programs are read from files below a current folder. A path is followed part by part: `.` and an
empty part stay, `..` goes up, and a name goes to the file or the folder of that name. A part after
a file fails, even an empty one, so that a slash behind a file name is an error.

## Main definitions

* `ReadFailure` : why a file could not be read, with the wording in `message`.
* `Folder`, `Folder.ofFiles` : the files below the current folder.
* `Folder.step` : one part of a path.
* `Folder.read` : the text of the file at a path.
-/

namespace A32Lowering

/-- Why a file could not be read. -/
inductive ReadFailure where
  | notFound
  | notFolder
  | isFolder
  | nameTooLong
  | badName
  deriving DecidableEq, Repr

/-- The wording of a failure to read the file at a path. A folder can be opened and not read. -/
def ReadFailure.message (path : String) : ReadFailure → String
  | notFound => "open " ++ path ++ ": no such file or directory"
  | notFolder => "open " ++ path ++ ": not a directory"
  | isFolder => "read " ++ path ++ ": is a directory"
  | nameTooLong => "open " ++ path ++ ": file name too long"
  | badName => "open " ++ path ++ ": invalid argument"

/-- The files below the current folder: the parts of the path of each, and its text. -/
structure Folder where
  files : List (List Text × Text) := []
  deriving DecidableEq, Repr

namespace Folder

/-- The parts of a path. -/
def parts (path : Text) : List Text := path.fields '/'.toUInt8

/-- Whether a part of a path stays where it is. -/
def stays (part : Text) : Bool := part = [] || part = Text.ascii "."

/-- The folder with some files, given by their paths. -/
def ofFiles (files : List (String × Text)) : Folder :=
  ⟨files.map fun f => ((parts (Text.ofString f.1)).filter fun p => !stays p, f.2)⟩

/-- Where the walk along a path stands. -/
inductive Spot where
  /-- In a folder that can be seen; its parts are kept with the last one first. -/
  | inside (path : List Text)
  /-- In a folder that is not below the current one, of which nothing can be seen. -/
  | outside
  /-- At a file. -/
  | file (t : Text)
  deriving DecidableEq, Repr

/-- The longest name of a file, in bytes. -/
def maxName : Nat := 255

/-- The longest path, in bytes. -/
def maxPath : Nat := 4095

/-- What has a name in the folder at `path`, whose parts are kept with the last one first. -/
def entry (f : Folder) (path : List Text) (name : Text) : Except ReadFailure Spot :=
  let full := path.reverse ++ [name]
  match f.files.lookup full with
  | some t => .ok (.file t)
  | none =>
    if f.files.any fun e => full.isPrefixOf e.1 then .ok (.inside (name :: path))
    else .error .notFound

/-- Where one part of a path leads. -/
def step (f : Folder) (s : Spot) (part : Text) : Except ReadFailure Spot :=
  match s with
  | .file _ => .error .notFolder
  | s =>
    if stays part then .ok s
    else if part = Text.ascii ".." then
      match s with
      | .inside (_ :: up) => .ok (.inside up)
      | _ => .ok .outside
    else if maxName < part.length then .error .nameTooLong
    else match s with
      | .inside path => f.entry path part
      | _ => .error .notFound

/-- Where a path leads. A path that starts with a slash does not start in the current folder. -/
def follow (f : Folder) (path : Text) : Except ReadFailure Spot :=
  (parts path).foldlM f.step (if path.head? = some '/'.toUInt8 then .outside else .inside [])

/-- The text of the file at a path. -/
def read (f : Folder) (path : Text) : Except ReadFailure Text :=
  if 0 ∈ path then .error .badName
  else if path = [] then .error .notFound
  else if maxPath < path.length then .error .nameTooLong
  else match f.follow path with
    | .error e => .error e
    | .ok (.file t) => .ok t
    | .ok _ => .error .isFolder

end Folder

end A32Lowering
