import Syntagma.Dictionary
import Syntagma.Host

/-! A tree of files held in memory with a directory to work in, and a host that works there. Names
are followed as a system does that keeps dots and slashes for itself. -/

namespace Syntagma

/-- A file that is no storage. -/
inductive Device where
  /-- It is empty and takes everything. -/
  | null
  /-- It takes nothing. -/
  | full
  /-- The input of the command. -/
  | input
deriving DecidableEq, Inhabited, Repr

inductive FileEntry where
  | file (bytes : List UInt8)
  | device (d : Device)
  | directory
deriving DecidableEq, Inhabited

/-- Files by their places, which are paths from the root without its slash; a place in front of
another one is a directory. -/
structure FileTree where
  files : Dictionary String (List UInt8)
  /-- The directory to work in. -/
  home : List String
deriving DecidableEq, Inhabited

namespace FileTree

/-- Where the directory to work in usually is. -/
def usualHome : List String := ["tmp", "work"]

/-- Directories that are there even if no file is in them. -/
def standingDirectories : List String :=
  ["bin", "boot", "dev", "etc", "home", "lib", "mnt", "opt", "proc", "root", "run", "sbin", "srv",
    "sys", "tmp", "usr", "var", "dev/fd", "dev/pts", "dev/shm", "usr/bin", "usr/lib", "usr/local",
    "usr/sbin", "usr/share", "var/lib", "var/log", "var/tmp"]

def device? : String → Option Device
  | "dev/null" => some .null
  | "dev/full" => some .full
  | "dev/stdin" | "dev/fd/0" | "proc/self/fd/0" => some .input
  | _ => none

def placeText (place : List String) : String := "/".intercalate place

/-- Whether a place is a directory because of a file below it. -/
def isAbove (place : List String) (other : String) : Bool :=
  (placeText place ++ "/").toList.isPrefixOf other.toList

def entry? (t : FileTree) (place : List String) : Option FileEntry :=
  let name := placeText place
  match device? name, t.files.get? name with
  | some d, _ => some (.device d)
  | none, some bytes => some (.file bytes)
  | none, none =>
    if place.isPrefixOf t.home || standingDirectories.contains name ||
        t.files.keys.any (isAbove place) then
      some .directory
    else none

/-! ### Paths -/

def byteLength (s : String) : Nat := s.utf8ByteSize

/-- A name has at most 255 bytes. -/
def checkName (name : String) : Except FileProblem Unit :=
  if byteLength name ≤ 255 then .ok () else .error .nameTooLong

/-- A path names something, has no NUL in it and at most 4095 bytes. -/
def checkPath (path : String) : Except FileProblem Unit :=
  if path.toList.contains '\x00' then .error .nulInName
  else if path.isEmpty then .error .missing
  else if byteLength path ≤ 4095 then .ok ()
  else .error .nameTooLong

def checkDirectory (t : FileTree) (place : List String) : Except FileProblem Unit :=
  match t.entry? place with
  | some .directory => .ok ()
  | some _ => .error .notDirectory
  | none => .error .missing

/-- Follows the segments of a path. Only the last one may name something that is missing or not a
directory. -/
def follow (t : FileTree) (place : List String) : List String → Except FileProblem (List String)
  | [] => .ok place
  | segment :: rest => do
    t.checkDirectory place
    if segment = "" ∨ segment = "." then t.follow place rest
    else if segment = ".." then t.follow place.dropLast rest
    else
      checkName segment
      t.follow (place ++ [segment]) rest

/-- Where the segments of a path are followed from. -/
def base (t : FileTree) (path : String) : List String :=
  if path.startsWith "/" then [] else t.home

/-- What a path leads to when it is opened for reading. -/
def find (t : FileTree) (path : String) : Except FileProblem FileEntry := do
  checkPath path
  match t.entry? (← t.follow (t.base path) (path.splitOn "/")) with
  | some entry => return entry
  | none => throw .missing

/-- The place of a file that is to be written, in a directory that is there. A path that ends in a
slash or in dots does not name a file. -/
def placeToWrite (t : FileTree) (path : String) : Except FileProblem (List String) := do
  checkPath path
  let segments := (path.splitOn "/").filter (· != "")
  let directory ← t.follow (t.base path) segments.dropLast
  t.checkDirectory directory
  match segments.getLast? with
  | none => throw .isDirectory
  | some name =>
    if path.endsWith "/" || name == "." || name == ".." then throw .isDirectory
    checkName name
    return directory ++ [name]

/-- Writes a file, over the one at the place if there is one. -/
def write (t : FileTree) (path : String) (bytes : List UInt8) : Except FileProblem FileTree := do
  let place ← t.placeToWrite path
  match t.entry? place with
  | some .directory => throw .isDirectory
  | some (.device .full) => throw .noSpace
  | some (.device _) => return t
  | _ => return { t with files := t.files.insert (placeText place) bytes }

/-! ### The directory to work in -/

/-- The files of the directory to work in, by their paths from there. -/
def homeFiles (t : FileTree) : List (String × List UInt8) :=
  t.files.entries.filterMap (fun e =>
    if isAbove t.home e.1 then
      some (String.ofList (e.1.toList.drop ((placeText t.home).length + 1)), e.2)
    else none)

/-- A tree in which nothing but these files of the directory to work in is known. -/
def ofHomeFiles (files : List (String × List UInt8)) : FileTree where
  files := .ofList (files.map (fun e => (placeText (usualHome ++ [e.1]), e.2)))
  home := usualHome

end FileTree

/-- A tree of files, an input that can be read once, and what has been written to the two
streams. -/
structure Desk where
  files : FileTree
  input : String := ""
  out : String := ""
  err : String := ""
deriving Inhabited

namespace Desk

/-- Takes what is left of the input. -/
def takeInput : StateM Desk String := modifyGet (fun desk => (desk.input, { desk with input := "" }))

def readEntry : FileEntry → StateM Desk (Except FileProblem (List UInt8))
  | .file bytes => return .ok bytes
  | .device .input => return .ok (← takeInput).toUTF8.toList
  | .device _ => return .ok []
  | .directory => return .error .isDirectory

end Desk

instance : Host (StateM Desk) where
  read path := do
    match (← get).files.find path with
    | .ok entry => Desk.readEntry entry
    | .error problem => return .error problem
  write path bytes := do
    let desk ← get
    match desk.files.write path bytes with
    | .ok files =>
      set { desk with files := files }
      return .ok ()
    | .error problem => return .error problem
  out text := modify (fun desk => { desk with out := desk.out ++ text })
  err text := modify (fun desk => { desk with err := desk.err ++ text })

end Syntagma
