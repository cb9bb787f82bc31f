import Mips.Assembly
import Mips.Command.Dump
import Mips.Command.Failure
import Mips.Machine

/-!
The three commands: to assemble a source into a listing, to run a listing, and to assemble and run
in one go. A command that runs a program first prepares a machine; once the machine has come to an
end, the session says what is left behind.
-/
namespace Mips.Command

inductive Name
  | assemble
  | simulate
  | run
  deriving DecidableEq, Repr

structure Environment where
  files : Files
  stdin : List UInt8

structure Outcome where
  status : Nat
  stdout : List UInt8
  stderr : List UInt8
  files : Files

structure Session where
  dumps : Bool

inductive Prepared
  | done (o : Outcome)
  | ready (m : Machine) (s : Session)

def fail (files : Files) (f : Failure) : Outcome := ⟨f.status, [], Text.utf8 f.report.toList, files⟩

def readText (files : Files) (path : List Char) : Except StreamError (List Char) :=
  match files.openRead path with
  | .error e => .error (.refused e)
  | .ok .directory => .error (.refused .isDirectory)
  | .ok (.file place _ _) =>
    match Text.ofUtf8? (files.content place) with
    | some s => .ok s
    | none => .error .notText

def settings (files : Files) (a : Arguments) : Except Failure Machine.Settings := do
  let config ← match a.value? "config" with
    | none => .ok {}
    | some path =>
      match readText files path with
      | .error e => .error (.unreadableConfig path e)
      | .ok s =>
        match Machine.Settings.ofText? s with
        | none => .error (.badConfig path)
        | some c => .ok c
  match (a.value? "max-steps").bind ValueKind.number? with
  | none => return config
  | some n => return { config with stepLimit := some n }

/-- Prepares a machine. The input is opened first, then the output is created, then the program is
loaded. -/
def prepare (env : Environment) (config : Machine.Settings) (prog : Program)
    (input output : Option (List Char)) (dumps : Bool) : Prepared :=
  let opened : Except Failure (Option Handle) :=
    match input with
    | none => .ok none
    | some path => ((env.files.openRead path).map some).mapError (.cannotOpen path ∘ .refused)
  let created : Except Failure (Option Outlet × Files) :=
    match output with
    | none => .ok (none, env.files)
    | some path =>
      ((env.files.openWrite path false 0).map fun (handle, files) =>
        (some { handle }, files)).mapError (.cannotOpen path ∘ .refused)
  match opened with
  | .error f => .done (fail env.files f)
  | .ok source =>
    match created with
    | .error f => .done (fail env.files f)
    | .ok (outlet, files) =>
      let input := { source := source.elim (.bytes (.ofList env.stdin) none) .file }
      match (Machine.start config { input, output := { outlet }, files }).load prog with
      | (_, some e) => .done (fail files (.refusedProgram e))
      | (m, none) => .ready m ⟨dumps⟩

/-- What a run leaves behind: the output, now all of it, in its file or on the standard output, and
on the standard error what the program wrote there, its state if asked for, and its fault. -/
def Session.finish (s : Session) (m : Machine) (e : Event) : Outcome :=
  let output := m.host.output
  let dump := if s.dumps then m.hart.cpu.dump else ""
  let fault :=
    match e with
    | .ended _ => ""
    | .fault f => f.message ++ "\n"
  { status :=
      match e with
      | .ended h => h.status.getD 1
      | .fault _ => 1
    stdout := if output.outlet.isNone then output.written else []
    stderr := m.host.reports.written ++ Text.utf8 (dump ++ fault).toList
    files := output.drain m.host.files }

def runOptions : List Known :=
  [{ name := "config", kind := .path }, { name := "max-steps", kind := .number }]

def grammar : Name → Grammar
  | .assemble => ⟨[], 0, 2⟩
  | .simulate => ⟨runOptions, 1, 3⟩
  | .run =>
    ⟨[{ name := "input", letter := some 'i', kind := .path },
      { name := "output", letter := some 'o', kind := .path },
      { name := "dump-state", kind := .none }] ++ runOptions, 1, 1⟩

def deliver (env : Environment) (prog : Program) (output : Option (List Char)) : Outcome :=
  let bytes := Text.utf8 prog.listing
  match output with
  | none => ⟨0, bytes, [], env.files⟩
  | some path =>
    match env.files.openWrite path false 0 with
    | .error e => fail env.files (.cannotOpen path (.refused e))
    | .ok (.file place _ _, files) => ⟨0, [], [], files.update place (.ofBytes bytes ·.mode)⟩
    | .ok (.directory, files) => ⟨0, [], [], files⟩

def assemblySource (env : Environment) (input : Option (List Char)) : Except Failure (List Char) :=
  match input with
  | some path => (readText env.files path).mapError (.cannotOpen path)
  | none =>
    match Text.ofUtf8? env.stdin with
    | some s => .ok s
    | none => .error (.badInput .notText)

def assemble (env : Environment) (a : Arguments) : Outcome :=
  let program : Except Failure Program := do
    let source ← assemblySource env a.operands[0]?
    (Assembly.assemble source).mapError (.badSource none)
  match program with
  | .error f => fail env.files f
  | .ok prog => deliver env prog a.operands[1]?

def simulate (env : Environment) (a : Arguments) : Prepared :=
  let path := a.operands.headD []
  let loaded : Except Failure (Machine.Settings × Program) := do
    let config ← settings env.files a
    let source ← (readText env.files path).mapError (.cannotOpen path)
    let prog ← (Assembly.assemble source).mapError (.badSource (some path))
    return (config, prog)
  match loaded with
  | .error f => .done (fail env.files f)
  | .ok (config, prog) => prepare env config prog a.operands[1]? a.operands[2]? false

def run (env : Environment) (a : Arguments) : Prepared :=
  let path := a.operands.headD []
  let loaded : Except Failure (Machine.Settings × Program) := do
    let config ← settings env.files a
    let listing ← (readText env.files path).mapError (.cannotOpen path)
    let prog ← (Program.ofListing listing).mapError (.badListing path)
    return (config, prog)
  match loaded with
  | .error f => .done (fail env.files f)
  | .ok (config, prog) =>
    prepare env config prog (a.value? "input") (a.value? "output") (a.value? "dump-state").isSome

def start (c : Name) (args : List (List Char)) (env : Environment) : Prepared :=
  match Arguments.read (grammar c) args with
  | .error u => .done (fail env.files (.usage u))
  | .ok a =>
    match c with
    | .assemble => .done (assemble env a)
    | .simulate => simulate env a
    | .run => run env a

end Mips.Command
