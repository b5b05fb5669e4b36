import Lisplet.Setup
import Lisplet.Text.Utf8

set_option autoImplicit false

/-! # Directories

A `Directory` is a folder tree held in memory: files with their bytes, and folders, given by their
paths from the top. Paths are relative to the top and are followed name by name; empty names and `.`
are skipped, and `..` leaves a folder that has to exist. A path that would leave the tree leads
nowhere. -/

namespace Lisplet

structure Directory where
  /-- Files by the names on their way from the top. -/
  files : List (List String × List UInt8)
  /-- Folders that exist even if they are empty. -/
  folders : List (List String)
  /-- Files that exist and cannot be read, by the path as it is asked for, with the reason. -/
  failing : List (String × String)
deriving Inhabited

namespace Directory

/-- The names on the way that a path describes. -/
def names (path : String) : List String :=
  (path.splitOn "/").filter (fun name => name ≠ "" && name ≠ ".")

/-- Whether a way leads to a folder: to the top, to a folder or to one that something is in. -/
def isFolder (d : Directory) (way : List String) : Bool :=
  way.isEmpty || d.folders.any way.isPrefixOf
    || d.files.any (fun file => way.isPrefixOf file.1 && way.length < file.1.length)

/-- Follow names from a folder. -/
def follow (d : Directory) (way : List String) : List String → Option (List String)
  | [] => some way
  | name :: rest =>
    if !d.isFolder way then none
    else if name = ".." then
      if way.isEmpty then none else d.follow way.dropLast rest
    else d.follow (way ++ [name]) rest

/-- The bytes of the file that a path leads to. -/
def file? (d : Directory) (path : String) : Option (List UInt8) :=
  if path.startsWith "/" then none
  else do
    let way ← d.follow [] (names path)
    (d.files.find? (fun file => file.1 == way)).map Prod.snd

/-- The reply to a request for the bytes of a file as text. -/
def replyOf (bytes : List UInt8) : FileReply :=
  match Utf8.decode bytes with
  | .ok chars => .content (String.ofList (Text.unifyNewlines chars))
  | .error e => .unreadable e.message

/-- The reply to a request for a file. -/
def reply (d : Directory) (path : String) : FileReply :=
  match d.failing.lookup path with
  | some reason => .unreadable reason
  | none => (d.file? path).elim .missing replyOf

end Directory

end Lisplet
