import Mips.Host.Error
import Mips.Host.File
import Mips.Text.Blank
import Mips.Text.Utf8

/-!
The files that a program may open: a tree whose root is the working directory. Opening follows a
path through the tree, checks permissions, and may create or empty a file; reading and writing go
through a handle that remembers a position. Main statement: `read_eq_ok`, what is read is the part
of a content at the position.
-/
namespace Mips

inductive Node
  | file (f : File)
  | directory

abbrev Path := List (List Char)

structure Files where
  nodes : Std.ExtTreeMap Path Node := ∅

inductive Access
  | read
  | write
  | append
  deriving DecidableEq, Repr

inductive Handle
  | directory
  | file (path : Path) (access : Access) (pos : Nat)
  deriving DecidableEq, Repr

namespace Files

def maxPath : Nat := 4095

def maxName : Nat := 255

def umask : Nat := 0o022

def defaultMode : Nat := 0o666

def initialMode : Nat := 0o644

def ownerReads : Nat := 0o400

def ownerWrites : Nat := 0o200

/-- The permissions of a new file for which `mode` is asked. Zero asks for none in particular. -/
def newMode (mode : Nat) : Nat :=
  let asked := if mode = 0 then defaultMode else mode &&& 0o7777
  asked - (asked &&& umask)

def ofList (nodes : List (Path × Node)) : Files := ⟨.ofList nodes⟩

def toList (fs : Files) : List (Path × Node) := fs.nodes.toList

def node? (fs : Files) (path : Path) : Option Node :=
  if path = [] then some .directory else fs.nodes[path]?

def file? (fs : Files) (path : Path) : Option File :=
  match fs.node? path with
  | some (.file f) => some f
  | _ => none

def put (fs : Files) (path : Path) (f : File) : Files := ⟨fs.nodes.insert path (.file f)⟩

def update (fs : Files) (path : Path) (change : File → File) : Files :=
  match fs.file? path with
  | some f => fs.put path (change f)
  | none => fs

def content (fs : Files) (path : Path) : List UInt8 := (fs.file? path).elim [] File.content

def child (fs : Files) (dir : Path) (name : List Char) : Except Errno (Option Node) :=
  if maxName < Text.utf8Size name then .error .nameTooLong else .ok (fs.node? (dir ++ [name]))

def walk (fs : Files) (dir : Path) : List (List Char) → Except Errno Path
  | [] => .ok dir
  | ['.'] :: names => walk fs dir names
  | ['.', '.'] :: names => walk fs dir.dropLast names
  | name :: names =>
    match fs.child dir name with
    | .error e => .error e
    | .ok none => .error .noEntry
    | .ok (some (.file _)) => .error .notDirectory
    | .ok (some .directory) => walk fs (dir ++ [name]) names

inductive Target
  | directory
  | name (dir : Path) (name : List Char)

def target (fs : Files) (path : List Char) : Except Errno Target :=
  if path = [] then .error .noEntry
  else if maxPath < Text.utf8Size path then .error .nameTooLong
  else
    let names := Text.fields (· == '/') path
    match names.getLast? with
    | none => .ok .directory
    | some ['.'] | some ['.', '.'] => (fs.walk [] names.dropLast).map fun _ => .directory
    | some last => (fs.walk [] names.dropLast).map (.name · last)

def asksDirectory (path : List Char) : Bool := path.getLast? == some '/'

def openRead (fs : Files) (path : List Char) : Except Errno Handle :=
  match fs.target path with
  | .error e => .error e
  | .ok .directory => .ok .directory
  | .ok (.name dir name) =>
    match fs.child dir name with
    | .error e => .error e
    | .ok none => .error .noEntry
    | .ok (some .directory) => .ok .directory
    | .ok (some (.file f)) =>
      if asksDirectory path then .error .notDirectory
      else if f.mode &&& ownerReads = 0 then .error .accessDenied
      else .ok (.file (dir ++ [name]) .read 0)

/-- Opens a path for writing, with a new file if there is none. Unless it is opened for appending,
the file is emptied. -/
def openWrite (fs : Files) (path : List Char) (append : Bool) (mode : Nat) :
    Except Errno (Handle × Files) :=
  match fs.target path with
  | .error e => .error e
  | .ok .directory => .error .isDirectory
  | .ok (.name dir name) =>
    if asksDirectory path then .error .isDirectory
    else
      let place := dir ++ [name]
      let handle := Handle.file place (if append then .append else .write) 0
      match fs.child dir name with
      | .error e => .error e
      | .ok none => .ok (handle, fs.put place (.empty (newMode mode)))
      | .ok (some .directory) => .error .isDirectory
      | .ok (some (.file f)) =>
        if f.mode &&& ownerWrites = 0 then .error .accessDenied
        else .ok (handle, if append then fs else fs.put place (.empty f.mode))

def read (fs : Files) (h : Handle) (n : Nat) : Except Errno (Block × Handle) :=
  match h with
  | .directory => .error .isDirectory
  | .file path .read pos =>
    let b := (fs.file? path).elim {} (·.read pos n)
    .ok (b, .file path .read (pos + b.size))
  | .file _ _ _ => .error .badDescriptor

/-- Writes a block at the position of a handle, or at the end of a file opened for appending.
Writing no bytes always succeeds. -/
def write (fs : Files) (h : Handle) (b : Block) : Except Errno (Files × Handle) :=
  if b.size = 0 then .ok (fs, h)
  else
    match h with
    | .directory | .file _ .read _ => .error .badDescriptor
    | .file path access pos =>
      let start := if access = .append then (fs.file? path).elim 0 File.size else pos
      .ok (fs.update path (·.write start b), .file path access (start + b.size))

def topLevel (fs : Files) : List (List Char × Node) :=
  fs.toList.filterMap fun (path, n) =>
    match path with
    | [name] => some (name, n)
    | _ => none

theorem read_eq_ok {fs : Files} {h h' : Handle} {n : Nat} {b : Block}
    (r : fs.read h n = .ok (b, h')) :
    ∃ path pos, h = .file path .read pos ∧ b.toList = ((fs.content path).drop pos).take n ∧
      h' = .file path .read (pos + b.size) := by
  cases h with
  | directory => cases r
  | file path access pos =>
    cases access with
    | read =>
      cases r
      refine ⟨path, pos, rfl, ?_, rfl⟩
      unfold content
      cases fs.file? path with
      | none => simp [Block.toList_eq_nil_iff]
      | some f => exact f.toList_read pos n
    | write => cases r
    | append => cases r

theorem file?_put (fs : Files) {path : Path} (f : File) (named : path ≠ []) (other : Path) :
    (fs.put path f).file? other = if other = path then some f else fs.file? other := by
  unfold file? node? put
  by_cases same : other = path
  · subst same
    simp [named]
  · simp [Std.ExtTreeMap.getElem?_insert, same, Ne.symm same]

end Files

/-- What the owner of a file reads in it: nothing where the permissions forbid it. -/
def File.readable? (f : File) : Option (List UInt8) :=
  if f.mode &&& Files.ownerReads = 0 then none else some f.content

end Mips
