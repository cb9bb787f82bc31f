import Mips.Command
import Mips.Proofs.Machine.Apart

namespace Mips

theorem Machine.host_load (m : Machine) (prog : Program) : (m.load prog).1.host = m.host := by
  unfold load
  dsimp only
  split <;> rfl

namespace Command

def Environment.put (env : Environment) (place : Path) (g : File) : Environment :=
  { env with files := env.files.put place g }

def Outcome.put (o : Outcome) (place : Path) (g : File) : Outcome :=
  { o with files := o.files.put place g }

namespace Prepared

def put (place : Path) (g : File) : Prepared → Prepared
  | done o => done (o.put place g)
  | ready m s => ready (m.put place g) s

def Apart (place : Path) : Prepared → Prop
  | done _ => True
  | ready m _ => m.host.Apart place

/-- What a command has come to when its program has taken at most `n` steps, if it has ended by
then. -/
def outcome? (n : Nat) : Prepared → Option Outcome
  | done o => some o
  | ready m s =>
    match m.run n with
    | (m', some e) => some (s.finish m' e)
    | (_, none) => none

def opens? (n : Nat) : Prepared → Option (List Char)
  | done _ => none
  | ready m _ =>
    match m.run n with
    | (_, some _) => none
    | (m', none) => m'.opens?

end Prepared

variable {place : Path} {g : File} {fs : Files} {path : List Char}

theorem readText_of_content {s : List Char} {access : Access} {pos : Nat}
    (opened : fs.openRead path = .ok (.file place access pos))
    (content : fs.content place = Text.utf8 s) : readText fs path = .ok s := by
  unfold readText
  rw [opened]
  dsimp only
  rw [content, Text.ofUtf8?_utf8]

theorem readText_put (unpassed : ¬Files.Passes path place) :
    readText (fs.put place g) path = readText fs path := by
  unfold readText
  rw [Files.openRead_put unpassed]
  split
  · rfl
  · rfl
  · rename_i opened
    have differs : _ ≠ place := Files.apart_of_openRead unpassed opened
    rw [Files.content_put_of_ne differs]

theorem settings_congr {a b : Arguments} (config : b.value? "config" = a.value? "config")
    (limit : (b.value? "max-steps").bind ValueKind.number? =
      (a.value? "max-steps").bind ValueKind.number?) (fs : Files) :
    settings fs b = settings fs a := by
  unfold settings
  rw [config, limit]

theorem settings_put {a : Arguments}
    (unpassed : ∀ path ∈ a.value? "config", ¬Files.Passes path place) :
    settings (fs.put place g) a = settings fs a := by
  unfold settings
  cases given : a.value? "config" with
  | none => rfl
  | some path => simp only [readText_put (unpassed path given)]

theorem finish_put {m : Machine} (apart : m.host.Apart place) (g : File) (s : Session) (e : Event) :
    s.finish (m.put place g) e = (s.finish m e).put place g := by
  have drained : (m.put place g).host.output.drain (m.put place g).host.files =
      (m.host.output.drain m.host.files).put place g := Output.drain_put apart.output _ g
  exact congrArg (fun files => { s.finish m e with files := files }) drained

def openInput (fs : Files) (input : Option (List Char)) : Except Failure (Option Handle) :=
  match input with
  | none => .ok none
  | some path => ((fs.openRead path).map some).mapError (.cannotOpen path ∘ .refused)

def createOutput (fs : Files) (output : Option (List Char)) :
    Except Failure (Option Outlet × Files) :=
  match output with
  | none => .ok (none, fs)
  | some path =>
    ((fs.openWrite path false 0).map fun (handle, files) =>
      (some { handle }, files)).mapError (.cannotOpen path ∘ .refused)

def newHost (stdin : List UInt8) (source : Option Handle) (outlet : Option Outlet) (fs : Files) :
    Host where
  input := { source := source.elim (.bytes (.ofList stdin) none) .file }
  output := { outlet }
  files := fs

def startOn (host : Host) (config : Machine.Settings) (prog : Program) (dumps : Bool) : Prepared :=
  match (Machine.start config host).load prog with
  | (_, some e) => .done (fail host.files (.refusedProgram e))
  | (m, none) => .ready m ⟨dumps⟩

theorem prepare_eq (env : Environment) (config : Machine.Settings) (prog : Program)
    (input output : Option (List Char)) (dumps : Bool) :
    prepare env config prog input output dumps =
      match openInput env.files input with
      | .error f => .done (fail env.files f)
      | .ok source =>
        match createOutput env.files output with
        | .error f => .done (fail env.files f)
        | .ok (outlet, files) =>
          startOn (newHost env.stdin source outlet files) config prog dumps :=
  rfl

theorem openInput_put {input : Option (List Char)}
    (unpassed : ∀ path ∈ input, ¬Files.Passes path place) :
    openInput (fs.put place g) input = openInput fs input := by
  cases input with
  | none => rfl
  | some path => rw [openInput, openInput, Files.openRead_put (unpassed path rfl)]

theorem createOutput_put {output : Option (List Char)}
    (unpassed : ∀ path ∈ output, ¬Files.Passes path place) :
    createOutput (fs.put place g) output =
      (createOutput fs output).map fun (outlet, files) => (outlet, files.put place g) := by
  cases output with
  | none => rfl
  | some path =>
    rw [createOutput, createOutput, Files.openWrite_put (unpassed path rfl)]
    cases fs.openWrite path false 0 <;> rfl

theorem apart_newHost {stdin : List UInt8} {source : Option Handle} {outlet : Option Outlet}
    {files : Files} {input output : Option (List Char)}
    (reads : ∀ path ∈ input, ¬Files.Passes path place)
    (writes : ∀ path ∈ output, ¬Files.Passes path place)
    (opened : openInput fs input = .ok source)
    (created : createOutput fs output = .ok (outlet, files)) :
    (newHost stdin source outlet files).Apart place where
  input := by
    cases input with
    | none =>
      cases opened
      trivial
    | some path =>
      obtain ⟨h, read, rfl⟩ := map_eq_ok_iff.mp (mapError_eq_ok_iff.mp opened)
      exact Files.apart_of_openRead (reads path rfl) read
  output := by
    cases output with
    | none =>
      cases created
      rintro t ⟨⟩
    | some path =>
      obtain ⟨⟨h, files'⟩, wrote, same⟩ := map_eq_ok_iff.mp (mapError_eq_ok_iff.mp created)
      cases same
      rintro t ⟨⟩
      exact Files.apart_of_openWrite (writes path rfl) wrote
  handles fd f listed := by
    unfold Host.handle? newHost at listed
    simp at listed

theorem startOn_put {host : Host} (apart : host.Apart place) (g : File) (config : Machine.Settings)
    (prog : Program) (dumps : Bool) :
    startOn (host.put place g) config prog dumps = (startOn host config prog dumps).put place g ∧
      (startOn host config prog dumps).Apart place := by
  have loaded := Machine.load_put (Machine.start config host) place g prog
  have kept := (Machine.start config host).host_load prog
  unfold startOn
  rw [show Machine.start config (host.put place g) = (Machine.start config host).put place g from
    rfl, loaded]
  cases ready : (Machine.start config host).load prog with
  | mk m refused =>
    rw [ready] at kept
    cases refused with
    | some e => exact ⟨rfl, trivial⟩
    | none => exact ⟨rfl, (show m.host = host from kept) ▸ apart⟩

theorem prepare_put (env : Environment) (config : Machine.Settings) (prog : Program)
    {input output : Option (List Char)} (dumps : Bool)
    (reads : ∀ path ∈ input, ¬Files.Passes path place)
    (writes : ∀ path ∈ output, ¬Files.Passes path place) :
    prepare (env.put place g) config prog input output dumps =
        (prepare env config prog input output dumps).put place g ∧
      (prepare env config prog input output dumps).Apart place := by
  rw [prepare_eq, prepare_eq, show (env.put place g).files = env.files.put place g from rfl,
    openInput_put reads, createOutput_put writes]
  cases opened : openInput env.files input with
  | error f => exact ⟨rfl, trivial⟩
  | ok source =>
    cases created : createOutput env.files output with
    | error f => exact ⟨rfl, trivial⟩
    | ok r => exact startOn_put (apart_newHost reads writes opened created) g config prog dumps

/-- What a command comes to is the same with a file put at a place, and that file with it, if
nothing is open there and its program opens no path through the place. -/
theorem outcome?_put {P : Prepared} (apart : P.Apart place)
    (unpassed : ∀ n, ∀ path ∈ P.opens? n, ¬Files.Passes path place) (g : File) (n : Nat) :
    (P.put place g).outcome? n = (P.outcome? n).map (·.put place g) := by
  cases P with
  | done o => rfl
  | ready m s =>
    have avoids : m.Avoids place := fun n m' ran path opened => unpassed n path (by
      rw [Prepared.opens?, ran]
      exact opened)
    obtain ⟨same, kept⟩ := Machine.run_put apart avoids g n
    unfold Prepared.put Prepared.outcome?
    dsimp only
    rw [same]
    cases ends : m.run n with
    | mk m' e =>
      rw [ends] at kept
      cases e with
      | none => rfl
      | some e => exact congrArg some (finish_put kept g s e)

theorem opens?_of_outcome? {P : Prepared} {n k : Nat} (ended : (P.outcome? n).isSome)
    (later : n ≤ k) : P.opens? k = none := by
  cases P with
  | done o => rfl
  | ready m s =>
    unfold Prepared.outcome? at ended
    dsimp only at ended
    split at ended
    · rename_i ran
      obtain ⟨j, rfl⟩ := Nat.exists_eq_add_of_le later
      rw [Prepared.opens?, Machine.run_add_of_some ran]
    · cases ended

end Command
end Mips
