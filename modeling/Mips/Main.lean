import Mips.Command

/-!
The command line. The first argument names a command, the others are its own. A command works on the
files below the working directory as they are when it starts, and its changes are written back when
it ends.
-/
namespace Mips.Command

def Name.ofString? : String → Option Name
  | "assemble" => some .assemble
  | "simulate" => some .simulate
  | "run" => some .run
  | _ => none

def hostPath (path : Path) : String := String.ofList (['/'].intercalate path)

/-- The files below a directory. One that cannot be read has no permissions. -/
partial def collect (path : Path) : IO (List (Path × Node)) := do
  let mut nodes := []
  for entry in ← ((← IO.currentDir) / hostPath path).readDir do
    let place := path ++ [entry.fileName.toList]
    if ← entry.path.isDir then
      nodes := nodes ++ (place, Node.directory) :: (← collect place)
    else
      let file ←
        try pure (File.ofBytes (← IO.FS.readBinFile entry.path).toList Files.initialMode)
        catch _ => pure (File.empty 0)
      nodes := nodes ++ [(place, Node.file file)]
  return nodes

def rights (bits : Nat) : IO.AccessRight where
  read := bits / 4 % 2 = 1
  write := bits / 2 % 2 = 1
  execution := bits % 2 = 1

def writeBack (before after : Files) : IO Unit := do
  for (path, node) in after.toList do
    match node with
    | .directory => pure ()
    | .file f =>
      match before.file? path with
      | some old =>
        if old.content ≠ f.content then
          IO.FS.writeBinFile (hostPath path) ⟨f.content.toArray⟩
      | none =>
        IO.FS.writeBinFile (hostPath path) ⟨f.content.toArray⟩
        IO.setAccessRights (hostPath path)
          ⟨rights (f.mode / 64), rights (f.mode / 8), rights f.mode⟩

partial def finishRun (m : Machine) : Machine × Event :=
  match m.run 65536 with
  | (m', some e) => (m', e)
  | (m', none) => finishRun m'

def carryOut (c : Name) (args : List String) : IO UInt32 := do
  let files := Files.ofList (← collect [])
  let stdin ← (← IO.getStdin).readBinToEnd
  let outcome :=
    match start c (args.map String.toList) ⟨files, stdin.toList⟩ with
    | .done o => o
    | .ready m s =>
      let (m, e) := finishRun m
      s.finish m e
  writeBack files outcome.files
  (← IO.getStdout).write ⟨outcome.stdout.toArray⟩
  (← IO.getStderr).write ⟨outcome.stderr.toArray⟩
  return outcome.status.toUInt32

end Mips.Command

def main (args : List String) : IO UInt32 := do
  match args with
  | name :: rest =>
    match Mips.Command.Name.ofString? name with
    | some c => Mips.Command.carryOut c rest
    | none => return 2
  | [] => return 2
