import Mips.Proofs.Host.Files
import Mips.Proofs.Memory.Operations
import Mips.Proofs.Process.Stops

/-!
What one service does to the open files of a program. Main statements: `serve_of_opened?`, a file
that the host opens gets the next descriptor; `turn_serve`, the ways in which a service changes the
table of descriptors; and `serve_of_readBlock`, `serve_of_writeBlock` and `serve_of_closes`, how the
table decides what a service on a descriptor does.
-/
namespace Mips

def Host.descriptors (h : Host) : Std.ExtTreeMap Word Handle × Word := (h.handles, h.nextDescriptor)

theorem Host.handle?_setHandle_self (h : Host) (fd : Word) (f : Handle) :
    (h.setHandle fd f).handle? fd = some f :=
  (h.handle?_setHandle fd fd f).trans (if_pos rfl)

namespace Files

def openAs (fs : Files) (flags : OpenMode) (path : List Char) (mode : Nat) :
    Except Errno (Handle × Files) :=
  if flags.writing then fs.openWrite path flags.appending mode
  else (fs.openRead path).map (·, fs)

end Files

namespace Process

variable {p : Process} {s : Service} {d : Word}

theorem serve_of_selected (selected : p.selected? = some s) : p.serve = p.perform s := by
  unfold serve
  rw [show Service.ofNumber? (p.reg Register.v0).toNat = some s from selected]

theorem serve_of_unselected (none : p.selected? = none) :
    p.serve = (p, .fault (.unknownService (p.reg Register.v0))) := by
  unfold serve
  rw [show Service.ofNumber? (p.reg Register.v0).toNat = Option.none from none]

def asked? (p : Process) : Option (Except Errno (Handle × Files)) :=
  if p.selected? = some .openFile then
    (p.hart.mem.readString (p.reg Register.a0)).toOption.map fun name =>
      if Files.maxPath < name.size then .error .nameTooLong
      else
        p.host.files.openAs (OpenMode.ofWord (p.reg Register.a1)) (Text.ofUtf8Lossy name.toList)
          (p.reg Register.a2).toNat
  else none

/-- The file that the host opens for a program that asks it for one. -/
def opened? (p : Process) : Option Handle := p.asked?.bind fun r => r.toOption.map (·.1)

def Closes (p : Process) (d : Word) : Prop :=
  p.selected? = some .closeFile ∧ p.reg Register.a0 = d

structure OnBuffer (p : Process) (s : Service) (d : Word) : Prop where
  selected : p.selected? = some s
  descriptor : p.reg Register.a0 = d
  backed : p.hart.mem.layout.Backs (p.reg Register.a1) (p.reg Register.a2).toNat

/-- A service reads, writes or closes a descriptor, or answers it for a file that it opens. -/
def Concerns (p : Process) (d : Word) : Prop :=
  (p.selected? = some .readBlock ∨ p.selected? = some .writeBlock ∨
      p.selected? = some .closeFile) ∧ p.reg Register.a0 = d ∨
    p.opened? ≠ none ∧ p.serve.1.reg Register.v0 = d

theorem selected_of_opened? {f : Handle} (opens : p.opened? = some f) :
    p.selected? = some .openFile := by
  obtain ⟨r, asked, _⟩ := Option.bind_eq_some_iff.mp opens
  unfold asked? at asked
  split at asked
  · assumption
  · cases asked

theorem opened?_of_selected (selected : p.selected? = some s) (other : s ≠ .openFile) :
    p.opened? = none := by
  cases opens : p.opened? with
  | none => rfl
  | some f => exact absurd (Option.some.inj (selected.symm.trans (selected_of_opened? opens))) other

def answerOpened (p : Process) : Except Errno (Handle × Files) → Process × Reply
  | .error e => p.answer e.answer
  | .ok (f, files) =>
    { p with host := ({ p.host with files := files }.addHandle f).2 }.answer
      p.host.nextDescriptor.toNat

theorem openFile_of_read {name : Word} {b : Block} (read : p.hart.mem.readString name = .ok b)
    (flags mode : Word) :
    p.openFile name flags mode = p.answerOpened
      (if Files.maxPath < b.size then .error .nameTooLong
      else p.host.files.openAs (.ofWord flags) (Text.ofUtf8Lossy b.toList) mode.toNat) := by
  unfold openFile
  simp only [read]
  split
  · rfl
  · rfl

theorem serve_of_asked? {r : Except Errno (Handle × Files)} (asked : p.asked? = some r) :
    p.serve = p.answerOpened r := by
  unfold asked? at asked
  split at asked
  · rename_i selected
    obtain ⟨name, read, rfl⟩ := Option.map_eq_some_iff.mp asked
    rw [toOption_eq_some_iff] at read
    rw [serve_of_selected selected]
    exact openFile_of_read read _ _
  · cases asked

theorem serve_of_opened? {f : Handle} (opens : p.opened? = some f) :
    ∃ files, p.serve = p.answerOpened (.ok (f, files)) := by
  obtain ⟨r, asked, opens⟩ := Option.bind_eq_some_iff.mp opens
  obtain ⟨⟨g, files⟩, ok, rfl⟩ := Option.map_eq_some_iff.mp opens
  rw [toOption_eq_some_iff] at ok
  exact ⟨files, ok ▸ serve_of_asked? asked⟩

theorem answer_of_opened? {f : Handle} (opens : p.opened? = some f) :
    p.serve.2 = .resume ∧ p.serve.1.reg Register.v0 = p.host.nextDescriptor := by
  obtain ⟨files, served⟩ := serve_of_opened? opens
  rw [served]
  exact ⟨rfl, reg_answer_toNat _ p.host.nextDescriptor⟩

def readThrough (p : Process) (f : Handle) : Process × Reply :=
  match p.host.files.read f (p.reg Register.a2).toNat with
  | .error e => p.answer e.answer
  | .ok (b, g) =>
    { p with host := p.host.setHandle (p.reg Register.a0) g }.deliver (p.reg Register.a1) b

def writeThrough (p : Process) (f : Handle) (b : Block) : Process × Reply :=
  match p.host.files.write f b with
  | .error e => p.answer e.answer
  | .ok (files, g) =>
    { p with host := { p.host with files := files }.setHandle (p.reg Register.a0) g }.answer
      (p.reg Register.a2).toNat

theorem serve_of_readBlock (call : p.OnBuffer .readBlock d) (other : d ≠ 0) :
    p.serve = (p.host.handle? d).elim (p.answer (-9)) p.readThrough := by
  obtain ⟨selected, rfl, backed⟩ := call
  rw [serve_of_selected selected]
  unfold perform readBlock
  simp only [Memory.offset?_of_backs backed, if_neg other]
  cases p.host.handle? (p.reg Register.a0) <;> rfl

theorem serve_of_writeBlock (call : p.OnBuffer .writeBlock d) (output : d ≠ 1) (reports : d ≠ 2) :
    ∃ b, p.hart.mem.read (p.reg Register.a1) (p.reg Register.a2).toNat = .ok b ∧
      p.serve = (p.host.handle? d).elim (p.answer (-9)) (p.writeThrough · b) := by
  obtain ⟨selected, rfl, backed⟩ := call
  obtain ⟨b, read⟩ : ∃ b, p.hart.mem.read (p.reg Register.a1) (p.reg Register.a2).toNat = .ok b :=
    ⟨_, map_eq_ok_iff.mpr ⟨_, Memory.offset?_of_backs backed, rfl⟩⟩
  refine ⟨b, read, ?_⟩
  rw [serve_of_selected selected]
  unfold perform writeBlock
  simp only [read, if_neg output, if_neg reports]
  cases p.host.handle? (p.reg Register.a0) <;> rfl

theorem serve_of_closes (closing : p.Closes d) (file : 3 ≤ d.toNat) :
    p.serve = (p.host.handle? d).elim (p.answer (-9)) fun _ =>
      { p with host := p.host.dropHandle d }.answer 0 := by
  obtain ⟨selected, rfl⟩ := closing
  rw [serve_of_selected selected]
  unfold perform closeFile
  simp only [if_neg (Nat.not_lt.mpr file)]
  cases p.host.handle? (p.reg Register.a0) <;> rfl

theorem serve_of_closes_stream (closing : p.Closes d) (stream : d.toNat < 3) :
    p.serve = p.answer 0 := by
  obtain ⟨selected, rfl⟩ := closing
  rw [serve_of_selected selected]
  unfold perform closeFile
  simp only [if_pos stream]

inductive Turn (p : Process) (h : Host) : Prop
  | kept (same : h.descriptors = p.host.descriptors) (unopened : p.opened? = none)
    (unclosed : ∀ d, p.Closes d → d.toNat < 3 ∨ p.host.handle? d = none)
  | opened {f : Handle} (opens : p.opened? = some f)
    (listed : h.descriptors =
      (p.host.handles.insert p.host.nextDescriptor f, p.host.nextDescriptor.add 1))
  | moved (selected : p.selected? = some .readBlock ∨ p.selected? = some .writeBlock) {f : Handle}
    (listed : p.host.handle? (p.reg Register.a0) = some f) (pos : Nat)
    (moved : h.descriptors =
      (p.host.handles.insert (p.reg Register.a0) (f.moved pos), p.host.nextDescriptor))
  | closed (selected : p.selected? = some .closeFile) (file : 3 ≤ (p.reg Register.a0).toNat)
    (erased : h.descriptors = (p.host.handles.erase (p.reg Register.a0), p.host.nextDescriptor))

theorem Turn.aside {h : Host} (selected : p.selected? = some s) (opens : s ≠ .openFile)
    (closes : s ≠ .closeFile) (same : h.descriptors = p.host.descriptors) : Turn p h :=
  .kept same (opened?_of_selected selected opens) fun _ closing =>
    absurd (Option.some.inj (selected.symm.trans closing.1)) closes

theorem descriptors_printAll (p : Process) (b : Block) :
    (p.printAll b).1.host.descriptors = p.host.descriptors := by
  unfold printAll
  split
  · rename_i printed
    exact congrArg (·.2.host.descriptors) printed.symm
  · rename_i printed
    exact congrArg (·.2.host.descriptors) printed.symm

theorem descriptors_printInt (p : Process) (z : Int) :
    (p.printInt z).1.host.descriptors = p.host.descriptors := by
  unfold printInt
  split
  · rename_i p' printed
    rw [descriptors_printAll]
    exact congrArg (·.2.host.descriptors) printed.symm
  · rename_i printed
    exact congrArg (·.2.host.descriptors) printed.symm

theorem descriptors_printString (p : Process) (addr : Word) :
    (p.printString addr).1.host.descriptors = p.host.descriptors := by
  unfold printString
  split
  · rfl
  · exact descriptors_printAll ..

theorem descriptors_readInt (p : Process) : p.readInt.1.host.descriptors = p.host.descriptors := by
  unfold readInt
  split
  · rfl
  · split <;> rfl

theorem descriptors_readString (p : Process) (addr : Word) (len : Int) :
    (p.readString addr len).1.host.descriptors = p.host.descriptors := by
  unfold readString
  split
  · rfl
  · split
    · rfl
    · split <;> rfl

theorem descriptors_readChar (p : Process) :
    p.readChar.1.host.descriptors = p.host.descriptors := by
  unfold readChar
  split <;> rfl

theorem descriptors_deliver (p : Process) (addr : Word) (b : Block) :
    (p.deliver addr b).1.host.descriptors = p.host.descriptors := by
  unfold deliver
  split <;> rfl

theorem turn_openFile (selected : p.selected? = some .openFile) : Turn p p.serve.1.host := by
  have unclosed : ∀ d, ¬p.Closes d := fun d closing =>
    nomatch Option.some.inj (selected.symm.trans closing.1)
  cases opens : p.opened? with
  | some f =>
    obtain ⟨files, served⟩ := serve_of_opened? opens
    exact .opened opens (congrArg (·.1.host.descriptors) served)
  | none =>
    refine .kept ?_ opens fun d closing => absurd closing (unclosed d)
    cases asked : p.asked? with
    | some r =>
      rw [serve_of_asked? asked]
      cases r with
      | error e => rfl
      | ok r =>
        rw [opened?, asked] at opens
        cases opens
    | none =>
      rw [asked?, if_pos selected, Option.map_eq_none_iff] at asked
      rw [serve_of_selected selected]
      unfold perform openFile
      dsimp only
      cases read : p.hart.mem.readString (p.reg Register.a0) with
      | error e => rfl
      | ok b =>
        rw [read] at asked
        cases asked

theorem turn_readBlock (selected : p.selected? = some .readBlock) (addr len : Word) :
    Turn p (p.readBlock (p.reg Register.a0) addr len).1.host := by
  have aside {h : Host} (same : h.descriptors = p.host.descriptors) : Turn p h :=
    .aside selected nofun nofun same
  unfold readBlock
  split
  · exact aside rfl
  · split
    · split
      · exact aside rfl
      · exact aside (descriptors_deliver ..)
    · split
      · exact aside rfl
      · rename_i f listed
        split
        · exact aside rfl
        · rename_i taken
          obtain ⟨pos, rfl⟩ := Files.exists_moved_of_read taken
          exact .moved (.inl selected) listed pos (descriptors_deliver ..)

theorem turn_writeBlock (selected : p.selected? = some .writeBlock) (addr len : Word) :
    Turn p (p.writeBlock (p.reg Register.a0) addr len).1.host := by
  have aside {h : Host} (same : h.descriptors = p.host.descriptors) : Turn p h :=
    .aside selected nofun nofun same
  unfold writeBlock
  split
  · exact aside rfl
  · split
    · split
      · rename_i printed
        exact aside (congrArg (·.2.host.descriptors) printed).symm
      · rename_i printed
        exact aside (congrArg (·.2.host.descriptors) printed).symm
    · split
      · exact aside rfl
      · split
        · exact aside rfl
        · rename_i f listed
          split
          · exact aside rfl
          · rename_i given
            obtain ⟨pos, rfl⟩ := Files.exists_moved_of_write given
            exact .moved (.inr selected) listed pos rfl

theorem turn_closeFile (selected : p.selected? = some .closeFile) : Turn p p.serve.1.host := by
  have unopened := opened?_of_selected selected nofun
  by_cases stream : (p.reg Register.a0).toNat < 3
  · rw [serve_of_closes_stream ⟨selected, rfl⟩ stream]
    exact .kept rfl unopened fun d closing => .inl (closing.2 ▸ stream)
  · have file := Nat.not_lt.mp stream
    rw [serve_of_closes ⟨selected, rfl⟩ file]
    cases listed : p.host.handle? (p.reg Register.a0) with
    | none => exact .kept rfl unopened fun d closing => .inr (closing.2 ▸ listed)
    | some f => exact .closed selected file rfl

theorem turn_serve (p : Process) : Turn p p.serve.1.host := by
  cases selected : p.selected? with
  | none =>
    have unopened : p.opened? = none := by
      rw [opened?, asked?, selected, if_neg nofun, Option.bind_none]
    rw [serve_of_unselected selected]
    exact .kept rfl unopened fun d closing => nomatch selected.symm.trans closing.1
  | some s =>
    have served := serve_of_selected selected
    have aside (opens : s ≠ .openFile) (closes : s ≠ .closeFile)
        (same : (p.perform s).1.host.descriptors = p.host.descriptors) :
        Turn p p.serve.1.host := by
      rw [served]
      exact .aside selected opens closes same
    cases s with
    | printInt => exact aside nofun nofun (descriptors_printInt ..)
    | printString => exact aside nofun nofun (descriptors_printString ..)
    | readInt => exact aside nofun nofun (descriptors_readInt p)
    | readString => exact aside nofun nofun (descriptors_readString ..)
    | sbrk => exact aside nofun nofun rfl
    | exit => exact aside nofun nofun rfl
    | printChar => exact aside nofun nofun (descriptors_printAll ..)
    | readChar => exact aside nofun nofun (descriptors_readChar p)
    | openFile => exact turn_openFile selected
    | readBlock =>
      rw [served]
      exact turn_readBlock selected ..
    | writeBlock =>
      rw [served]
      exact turn_writeBlock selected ..
    | closeFile => exact turn_closeFile selected
    | exitWith => exact aside nofun nofun rfl

end Process
end Mips
