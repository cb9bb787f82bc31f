import Mips.Proofs.Host.Apart
import Mips.Proofs.Machine.Steps
import Mips.Proofs.Process.Handles

namespace Mips

variable {place : Path} {g : File}

theorem Files.openAs_put {fs : Files} {path : List Char} (unpassed : ¬Passes path place)
    (flags : OpenMode) (mode : Nat) :
    (fs.put place g).openAs flags path mode =
      (fs.openAs flags path mode).map fun (h, fs') => (h, fs'.put place g) := by
  unfold openAs
  split
  · exact openWrite_put unpassed flags.appending mode
  · rw [openRead_put unpassed]
    cases fs.openRead path <;> rfl

theorem Files.apart_of_openAs {fs fs' : Files} {path : List Char} {flags : OpenMode} {mode : Nat}
    {h : Handle} (unpassed : ¬Passes path place)
    (opened : fs.openAs flags path mode = .ok (h, fs')) : h.Apart place := by
  unfold openAs at opened
  split at opened
  · exact apart_of_openWrite unpassed opened
  · obtain ⟨h', read, same⟩ := map_eq_ok_iff.mp opened
    cases same
    exact apart_of_openRead unpassed read

theorem Hart.step_eq_syscall {h h' : Hart} (stepped : h.step = (h', some .syscall)) :
    h.next? = some .syscall ∧ h' = h.setPc (h.cpu.pc.add 4) := by
  cases next : h.next? with
  | none =>
    obtain ⟨t, stopped, other⟩ := step_of_next?_eq_none next
    cases stopped.symm.trans stepped
    exact absurd rfl other
  | some i =>
    rw [step_of_next? next] at stepped
    obtain rfl := eq_syscall_of_exec stepped
    exact ⟨rfl, (congrArg Prod.fst stepped).symm⟩

namespace Host.Apart

variable {h : Host}

theorem setInput (apart : h.Apart place) {i : Input} (source : i.source.Apart place) :
    Host.Apart place { h with input := i } :=
  { apart with input := source }

theorem setFiles (apart : h.Apart place) (fs : Files) : Host.Apart place { h with files := fs } :=
  { apart with }

theorem setHandle (apart : h.Apart place) (fd : Word) {f : Handle} (other : f.Apart place) :
    (h.setHandle fd f).Apart place where
  input := apart.input
  output := apart.output
  handles fd' f' listed := by
    rw [handle?_setHandle] at listed
    split at listed
    · cases listed
      exact other
    · exact apart.handles fd' f' listed

theorem addHandle (apart : h.Apart place) {f : Handle} (other : f.Apart place) :
    (h.addHandle f).2.Apart place :=
  { apart.setHandle h.nextDescriptor other with }

theorem dropHandle (apart : h.Apart place) (fd : Word) : (h.dropHandle fd).Apart place where
  input := apart.input
  output := apart.output
  handles fd' f' listed := by
    rw [handle?_dropHandle] at listed
    split at listed
    · cases listed
    · exact apart.handles fd' f' listed

end Host.Apart

namespace Process

def put (p : Process) (place : Path) (g : File) : Process := { p with host := p.host.put place g }

/-- What one service comes to, and with a file put at a place: the same, with nothing open there. -/
structure Carried (place : Path) (g : File) (r r' : Process × Reply) : Prop where
  apart : r.1.host.Apart place
  same : r' = (r.1.put place g, r.2)

variable {p : Process}

theorem put_hart (p : Process) (place : Path) (g : File) : (p.put place g).hart = p.hart := rfl

theorem put_input (p : Process) (place : Path) (g : File) :
    (p.put place g).host.input = p.host.input :=
  rfl

theorem put_files (p : Process) (place : Path) (g : File) :
    (p.put place g).host.files = p.host.files.put place g :=
  rfl

theorem put_handle? (p : Process) (place : Path) (g : File) (fd : Word) :
    (p.put place g).host.handle? fd = p.host.handle? fd :=
  rfl

theorem print_put (apart : p.host.Apart place) (b : Block) :
    (p.put place g).print b = ((p.print b).1, (p.print b).2.put place g) ∧
      (p.print b).2.host.Apart place := by
  obtain ⟨same, kept⟩ := Output.write_put apart.output p.host.files g b
  refine ⟨?_, { apart with output := kept }⟩
  unfold print put Host.put
  dsimp only
  rw [same]

theorem printAll_put (apart : p.host.Apart place) (b : Block) :
    Carried place g (p.printAll b) ((p.put place g).printAll b) := by
  obtain ⟨same, kept⟩ := print_put (g := g) apart b
  unfold printAll
  rw [same]
  cases printed : p.print b with
  | mk r q =>
    rw [printed] at kept
    cases r with
    | error e => exact ⟨kept, rfl⟩
    | ok _ => exact ⟨kept, rfl⟩

theorem printInt_put (apart : p.host.Apart place) (z : Int) :
    Carried place g (p.printInt z) ((p.put place g).printInt z) := by
  obtain ⟨same, kept⟩ := print_put (g := g) apart (.ofList (if z < 0 then Text.utf8 ['-'] else []))
  unfold printInt
  rw [same]
  cases printed : p.print (.ofList (if z < 0 then Text.utf8 ['-'] else [])) with
  | mk r q =>
    rw [printed] at kept
    cases r with
    | error e => exact ⟨kept, rfl⟩
    | ok _ => exact printAll_put kept _

theorem printString_put (apart : p.host.Apart place) (addr : Word) :
    Carried place g (p.printString addr) ((p.put place g).printString addr) := by
  unfold printString
  rw [put_hart]
  split
  · exact ⟨apart, rfl⟩
  · exact printAll_put apart _

theorem readInt_put (apart : p.host.Apart place) :
    Carried place g p.readInt (p.put place g).readInt := by
  obtain ⟨same, kept⟩ := Input.token_put apart.input p.host.files g #[]
  unfold readInt
  rw [put_input, put_files, same]
  cases taken : p.host.input.token p.host.files with
  | mk r i =>
    rw [taken] at kept
    cases r with
    | error e => exact ⟨apart.setInput kept, rfl⟩
    | ok tok =>
      dsimp only
      cases tokenValue tok with
      | error e => exact ⟨apart.setInput kept, rfl⟩
      | ok z => exact ⟨apart.setInput kept, rfl⟩

theorem readString_put (apart : p.host.Apart place) (addr : Word) (len : Int) :
    Carried place g (p.readString addr len) ((p.put place g).readString addr len) := by
  obtain ⟨same, kept⟩ := Input.line_put apart.input p.host.files g (len - 1).toNat #[]
  unfold readString
  rw [put_input, put_files, same, put_hart]
  split
  · exact ⟨apart, rfl⟩
  · cases taken : p.host.input.line p.host.files (len - 1).toNat with
    | mk r i =>
      rw [taken] at kept
      cases r with
      | error e => exact ⟨apart.setInput kept, rfl⟩
      | ok bs =>
        dsimp only
        cases p.hart.mem.write addr (bs ++ [0]) with
        | error e => exact ⟨apart.setInput kept, rfl⟩
        | ok m => exact ⟨apart.setInput kept, rfl⟩

theorem readChar_put (apart : p.host.Apart place) :
    Carried place g p.readChar (p.put place g).readChar := by
  obtain ⟨same, kept⟩ := Input.next_put apart.input p.host.files g
  unfold readChar
  rw [put_input, put_files, same]
  cases taken : p.host.input.next p.host.files with
  | mk r i =>
    rw [taken] at kept
    rcases r with e | none | b
    · exact ⟨apart.setInput kept, rfl⟩
    · exact ⟨apart.setInput kept, rfl⟩
    · exact ⟨apart.setInput kept, rfl⟩

theorem answerOpened_put (apart : p.host.Apart place) {r : Except Errno (Handle × Files)}
    (other : ∀ f fs, r = .ok (f, fs) → f.Apart place) :
    Carried place g (p.answerOpened r)
      ((p.put place g).answerOpened (r.map fun (f, fs) => (f, fs.put place g))) := by
  cases r with
  | error e => exact ⟨apart, rfl⟩
  | ok opened =>
    obtain ⟨f, fs⟩ := opened
    exact ⟨(apart.setFiles fs).addHandle (other f fs rfl), rfl⟩

theorem openFile_put (apart : p.host.Apart place) {name : Word} (flags mode : Word)
    (unpassed : ∀ b, p.hart.mem.readString name = .ok b →
      ¬Files.Passes (Text.ofUtf8Lossy b.toList) place) :
    Carried place g (p.openFile name flags mode) ((p.put place g).openFile name flags mode) := by
  cases read : p.hart.mem.readString name with
  | error e =>
    have refused (q : Process) (same : q.hart = p.hart) :
        q.openFile name flags mode = q.busFault name e := by
      unfold openFile
      simp only [same, read]
    rw [refused p rfl, refused (p.put place g) rfl]
    exact ⟨apart, rfl⟩
  | ok b =>
    rw [openFile_of_read read, openFile_of_read (p := p.put place g) read]
    split
    · exact ⟨apart, rfl⟩
    · rw [put_files, Files.openAs_put (unpassed b read)]
      exact answerOpened_put apart fun f fs => Files.apart_of_openAs (unpassed b read)

theorem deliver_put (apart : p.host.Apart place) (addr : Word) (b : Block) :
    Carried place g (p.deliver addr b) ((p.put place g).deliver addr b) := by
  unfold deliver
  rw [put_hart]
  split
  · exact ⟨apart, rfl⟩
  · exact ⟨apart, rfl⟩

theorem readBlock_put (apart : p.host.Apart place) (fd addr len : Word) :
    Carried place g (p.readBlock fd addr len) ((p.put place g).readBlock fd addr len) := by
  obtain ⟨same, kept⟩ := Input.read_put apart.input p.host.files g len.toNat
  unfold readBlock
  rw [put_input, put_files, same, put_hart]
  split
  · exact ⟨apart, rfl⟩
  · split
    · cases taken : p.host.input.read p.host.files len.toNat with
      | mk r i =>
        rw [taken] at kept
        cases r with
        | error e => exact ⟨apart.setInput kept, rfl⟩
        | ok b => exact deliver_put (p := p.setInput i) (apart.setInput kept) addr b
    · rw [put_handle?]
      split
      · exact ⟨apart, rfl⟩
      · rename_i f listed
        have other := apart.handles fd f listed
        rw [Files.read_put other]
        split
        · exact ⟨apart, rfl⟩
        · rename_i b f' read
          obtain ⟨pos, rfl⟩ := Files.exists_moved_of_read read
          exact deliver_put (p := { p with host := p.host.setHandle fd _ })
            (apart.setHandle fd (other.moved pos)) addr b

theorem writeBlock_put (apart : p.host.Apart place) (fd addr len : Word) :
    Carried place g (p.writeBlock fd addr len) ((p.put place g).writeBlock fd addr len) := by
  unfold writeBlock
  rw [put_hart]
  split
  · exact ⟨apart, rfl⟩
  · rename_i b _
    split
    · obtain ⟨same, kept⟩ := print_put (g := g) apart b
      rw [same]
      cases printed : p.print b with
      | mk r q =>
        rw [printed] at kept
        cases r with
        | error e => exact ⟨kept, rfl⟩
        | ok _ => exact ⟨kept, rfl⟩
    · split
      · exact ⟨{ apart with }, rfl⟩
      · rw [put_handle?]
        split
        · exact ⟨apart, rfl⟩
        · rename_i f listed
          have other := apart.handles fd f listed
          rw [put_files, Files.write_put other]
          cases wrote : p.host.files.write f b with
          | error e => exact ⟨apart, rfl⟩
          | ok r =>
            obtain ⟨fs, f'⟩ := r
            obtain ⟨pos, rfl⟩ := Files.exists_moved_of_write wrote
            exact ⟨(apart.setFiles fs).setHandle fd (other.moved pos), rfl⟩

theorem closeFile_put (apart : p.host.Apart place) (fd : Word) :
    Carried place g (p.closeFile fd) ((p.put place g).closeFile fd) := by
  unfold closeFile
  rw [put_handle?]
  split
  · exact ⟨apart, rfl⟩
  · split
    · exact ⟨apart, rfl⟩
    · exact ⟨apart.dropHandle fd, rfl⟩

/-- The path of the file that a program asks the host for. -/
def asksFor? (p : Process) : Option (List Char) :=
  if p.selected? = some .openFile then
    (p.hart.mem.readString (p.reg Register.a0)).toOption.map fun b => Text.ofUtf8Lossy b.toList
  else none

/-- A service does the same with a file put at a place where nothing is open, unless it opens a path
through that place, and afterwards there still is nothing open there. -/
theorem serve_put (apart : p.host.Apart place)
    (unpassed : ∀ path, p.asksFor? = some path → ¬Files.Passes path place) :
    Carried place g p.serve (p.put place g).serve := by
  cases selected : p.selected? with
  | none =>
    rw [serve_of_unselected selected, serve_of_unselected (p := p.put place g) selected]
    exact ⟨apart, rfl⟩
  | some s =>
    rw [serve_of_selected selected, serve_of_selected (p := p.put place g) selected]
    cases s with
    | printInt => exact printInt_put apart _
    | printString => exact printString_put apart _
    | readInt => exact readInt_put apart
    | readString => exact readString_put apart _ _
    | sbrk => exact ⟨apart, rfl⟩
    | exit => exact ⟨apart, rfl⟩
    | printChar => exact printAll_put apart _
    | readChar => exact readChar_put apart
    | openFile =>
      refine openFile_put apart _ _ fun b read => unpassed _ ?_
      rw [asksFor?, if_pos selected, read]
      rfl
    | readBlock => exact readBlock_put apart _ _ _
    | writeBlock => exact writeBlock_put apart _ _ _
    | closeFile => exact closeFile_put apart _
    | exitWith => exact ⟨apart, rfl⟩

theorem next_put (apart : p.host.Apart place)
    (unpassed : ∀ path, p.hart.next? = some .syscall → p.asksFor? = some path →
      ¬Files.Passes path place) :
    (p.put place g).next = p.next.put place g ∧ (p.put place g).outcome = p.outcome ∧
      p.next.host.Apart place := by
  unfold next outcome
  rw [put_hart]
  cases stepped : p.hart.step with
  | mk h trap =>
    cases trap with
    | none => exact ⟨rfl, rfl, apart⟩
    | some t =>
      cases t with
      | syscall =>
        obtain ⟨calls, rfl⟩ := Hart.step_eq_syscall stepped
        have served := serve_put (p := { p with hart := p.hart.setPc (p.hart.cpu.pc.add 4) })
          (g := g) apart fun path asked => unpassed path calls asked
        have same : ({ p.put place g with hart := p.hart.setPc (p.hart.cpu.pc.add 4) } : Process) =
          Process.put { p with hart := p.hart.setPc (p.hart.cpu.pc.add 4) } place g := rfl
        dsimp only
        rw [same, served.same]
        exact ⟨rfl, rfl, served.apart⟩
      | _ => exact ⟨rfl, rfl, apart⟩

end Process
end Mips
