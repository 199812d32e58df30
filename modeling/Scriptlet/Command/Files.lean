import Scriptlet.Text.Lines
import Scriptlet.Text.Quoted

/-! Files as the command line sees them: paths in normal form, contents, and what goes wrong when
one is read. -/

namespace Scriptlet.Command

/-- A path in normal form: what it starts from, and its parts. -/
structure Path where
  root : String
  parts : List String
  deriving DecidableEq, Repr

namespace Path

/-- A path without empty parts and parts that stay where they are. Two slashes in front are kept. -/
def ofText (s : String) : Path :=
  let cs := s.toList
  { root :=
      match cs with
      | '/' :: '/' :: '/' :: _ => "/"
      | ['/', '/'] => "//"
      | '/' :: '/' :: _ => "//"
      | '/' :: _ => "/"
      | _ => ""
    parts := ((Text.pieces '/' cs).map String.ofList).filter fun p => p ≠ "" && p ≠ "." }

/-- The text of a path. -/
def text (p : Path) : String :=
  if p.root = "" && p.parts.isEmpty then "." else p.root ++ "/".intercalate p.parts

/-- The last part of a path. -/
def name (p : Path) : String := p.parts.getLast?.getD ""

/-- The path of a part of a folder. -/
def part (p : Path) (name : String) : Path := { p with parts := p.parts ++ [name] }

/-- The path of the folder around a folder. The root of all folders is its own one. -/
def outer (p : Path) : Path :=
  if p.root = "" && p.parts.all (· = "..") then p.part ".."
  else { p with parts := p.parts.dropLast }

/-- Whether a path leads to something inside the folder at another one. -/
def isInside (p folder : Path) : Bool :=
  p.root = folder.root && folder.parts.isPrefixOf p.parts && folder.parts.length < p.parts.length

end Path

/-- Why a file cannot be read. -/
inductive AccessFault where
  | missing
  | denied
  | notFolder
  | isFolder
  | nameTooLong
  | broken
  deriving DecidableEq, Repr

namespace AccessFault

/-- The number of a fault. -/
def code : AccessFault → Nat
  | missing => 2
  | broken => 5
  | denied => 13
  | notFolder => 20
  | isFolder => 21
  | nameTooLong => 36

/-- The fault with a number. -/
def ofCode (n : Nat) : AccessFault :=
  ([missing, denied, notFolder, isFolder, nameTooLong].find? fun f => f.code = n).getD broken

/-- The wording of a fault. -/
def wording : AccessFault → String
  | missing => "No such file or directory"
  | broken => "Input/output error"
  | denied => "Permission denied"
  | notFolder => "Not a directory"
  | isFolder => "Is a directory"
  | nameTooLong => "File name too long"

theorem ofCode_code (f : AccessFault) : ofCode f.code = f := by cases f <;> rfl

end AccessFault

/-- The files that can be read, by their paths. -/
abbrev Files := Path → Except AccessFault ByteArray

/-- The message for a file that cannot be read. -/
def unreadable (path : Path) (fault : AccessFault) : String :=
  "Cannot read " ++ path.text ++ ": [Errno " ++ toString fault.code ++ "] " ++ fault.wording ++ ": "
    ++ Text.quoted path.text

/-- The text of a file: UTF-8 with any line ends. -/
def decode? (content : ByteArray) : Option String :=
  (String.fromUTF8? content).map fun s => String.ofList (Text.unifyLineEnds s.toList)

/-- The number of bytes that the name of a file can have. -/
def nameLimit : Nat := 255

/-- The number of bytes that a path can have. -/
def pathLimit : Nat := 4095

/-- Files held in memory, and the folders that have none of them inside. -/
structure Disk where
  files : List (Path × ByteArray)
  folders : List Path := []

namespace Disk
variable (disk : Disk)

/-- Whether a path that goes down only leads to a folder. -/
def hasFolder (p : Path) : Bool :=
  disk.folders.contains p || disk.files.any fun (q, _) => q.isInside p

/-- Reads a file by the parts of a path from a folder on. The first part that leads nowhere decides
the fault. -/
def readFrom (folder : Path) : List String → Except AccessFault ByteArray
  | [] => .error .isFolder
  | name :: rest =>
    if name = ".." then readFrom folder.outer rest
    else if nameLimit < name.utf8ByteSize then .error .nameTooLong
    else
      match disk.files.lookup (folder.part name) with
      | some content => if rest.isEmpty then .ok content else .error .notFolder
      | none =>
        if disk.hasFolder (folder.part name) then readFrom (folder.part name) rest
        else .error .missing

/-- Reads a file. -/
def read : Files := fun p =>
  if pathLimit < p.text.utf8ByteSize then .error .nameTooLong
  else disk.readFrom ⟨if p.root = "" then "" else "/", []⟩ p.parts

end Disk

end Scriptlet.Command
