import Mips.Proofs.Host.Lines
import Mips.Proofs.Machine.Marks

/-!
Services that stop the program. Main statements: `stops_of_serve`, the ways in which a service stops
it and what it has changed by then; and `untouched_iff_of_serve`, a service that memory refuses has
changed nothing unless it has read a line.
-/
namespace Mips

theorem Memory.exists_writeBlock {m : Memory} {addr : Word} {n off : Nat} {b : Block}
    (backed : m.offset? addr n = .ok off) (short : b.size ≤ n) :
    ∃ m', m.writeBlock addr b = .ok m' := by
  obtain ⟨above, rfl, within⟩ := Memory.offset?_eq_ok_iff.mp backed
  have fits : m.offset? addr b.size = .ok (addr.toNat - m.layout.base.toNat) :=
    Memory.offset?_eq_ok_iff.mpr ⟨above, rfl, by omega⟩
  exact ⟨_, map_eq_ok_iff.mpr ⟨_, fits, rfl⟩⟩

namespace Process

variable {p p' : Process} {t : Trap}

def selected? (p : Process) : Option Service := Service.ofNumber? (p.reg Register.v0).toNat

def unread (p : Process) : List UInt8 := p.host.input.unread p.host.files

inductive Stops (p p' : Process) : Trap → Prop
  | unknown (same : p' = p) : Stops p p' (.unknownService (p.reg Register.v0))
  | failed (kept : p'.hart = p.hart) (cause : HostError) : Stops p p' (.host cause)
  | refused (same : p' = p) (other : p.selected? ≠ some .readString) (addr : Word)
      (cause : MemoryError) : Stops p p' (.bus addr cause)
  | unstored (selected : p.selected? = some .readString) {bs : List UInt8} {i : Input}
      (read : p.host.input.line p.host.files ((p.reg Register.a1).signed - 1).toNat = (.ok bs, i))
      (same : p' = p.setInput i) (addr : Word) (cause : MemoryError) : Stops p p' (.bus addr cause)

theorem hart_setInput (p : Process) (i : Input) : (p.setInput i).hart = p.hart := rfl

theorem host_of_printAll {b : Block} (stopped : p.printAll b = (p', .fault t)) :
    ∃ cause, t = .host cause := by
  unfold printAll at stopped
  split at stopped
  · cases stopped
  · cases stopped
    exact ⟨_, rfl⟩

theorem host_of_printInt {z : Int} (stopped : p.printInt z = (p', .fault t)) :
    ∃ cause, t = .host cause := by
  unfold printInt at stopped
  split at stopped
  · exact host_of_printAll stopped
  · cases stopped
    exact ⟨_, rfl⟩

theorem stops_of_readString (selected : p.selected? = some .readString)
    (stopped : p.readString (p.reg Register.a0) (p.reg Register.a1).signed = (p', .fault t)) :
    Stops p p' t := by
  unfold readString at stopped
  split at stopped
  · cases stopped
  · split at stopped
    · cases stopped
      exact .failed (hart_setInput ..) _
    · rename_i read
      split at stopped
      · cases stopped
        exact .unstored selected read rfl _ _
      · cases stopped

theorem not_fault_deliver {addr : Word} {n off : Nat} {b : Block}
    (backed : p.hart.mem.offset? addr n = .ok off) (short : b.size ≤ n) :
    p.deliver addr b ≠ (p', .fault t) := by
  obtain ⟨m', written⟩ := Memory.exists_writeBlock backed short
  unfold deliver
  rw [written]
  nofun

theorem stops_of_readBlock (other : p.selected? ≠ some .readString) {fd addr len : Word}
    (stopped : p.readBlock fd addr len = (p', .fault t)) : Stops p p' t := by
  unfold readBlock at stopped
  split at stopped
  · cases stopped
    exact .refused rfl other _ _
  · rename_i off backed
    split at stopped
    · split at stopped
      · cases stopped
      · rename_i b i read
        exact absurd stopped
          (not_fault_deliver (p := p.setInput i) backed (Input.size_le_of_read read))
    · split at stopped
      · cases stopped
      · split at stopped
        · cases stopped
        · rename_i b handle read
          exact absurd stopped
            (not_fault_deliver (p := { p with host := p.host.setHandle fd handle }) backed
              (Files.size_le_of_read read))

theorem stops_of_writeBlock (other : p.selected? ≠ some .readString) {fd addr len : Word}
    (stopped : p.writeBlock fd addr len = (p', .fault t)) : Stops p p' t := by
  unfold writeBlock at stopped
  split at stopped
  · cases stopped
    exact .refused rfl other _ _
  · split at stopped
    · split at stopped
      · cases stopped
      · rename_i printed
        cases stopped
        exact .failed (congrArg (·.2.hart) printed).symm _
    · split at stopped
      · cases stopped
      · split at stopped
        · cases stopped
        · split at stopped <;> cases stopped

theorem stops_of_openFile (other : p.selected? ≠ some .readString) {name flags mode : Word}
    (stopped : p.openFile name flags mode = (p', .fault t)) : Stops p p' t := by
  unfold openFile at stopped
  split at stopped
  · cases stopped
    exact .refused rfl other _ _
  · split at stopped
    · cases stopped
    · dsimp only at stopped
      split at stopped <;> cases stopped

theorem stops_of_printString (other : p.selected? ≠ some .readString) {addr : Word}
    (stopped : p.printString addr = (p', .fault t)) : Stops p p' t := by
  have kept := hart_printString p addr
  rw [stopped] at kept
  unfold printString at stopped
  split at stopped
  · cases stopped
    exact .refused rfl other _ _
  · obtain ⟨cause, rfl⟩ := host_of_printAll stopped
    exact .failed kept cause

theorem stops_of_readInt (stopped : p.readInt = (p', .fault t)) : Stops p p' t := by
  unfold readInt at stopped
  split at stopped
  · cases stopped
    exact .failed (hart_setInput ..) _
  · split at stopped
    · cases stopped
      exact .failed (hart_setInput ..) _
    · cases stopped

theorem stops_of_readChar (stopped : p.readChar = (p', .fault t)) : Stops p p' t := by
  unfold readChar at stopped
  split at stopped
  · cases stopped
    exact .failed (hart_setInput ..) _
  · cases stopped
  · cases stopped

theorem stops_of_serve (stopped : p.serve = (p', .fault t)) : Stops p p' t := by
  unfold serve at stopped
  split at stopped
  · cases stopped
    exact .unknown rfl
  · rename_i s number
    have selected : p.selected? = some s := number
    have other (differs : s ≠ .readString) : p.selected? ≠ some .readString := by
      rw [selected]
      exact fun same => differs (Option.some.inj same)
    cases s with
    | printInt =>
      have kept := hart_printInt p (p.reg Register.a0).signed
      obtain ⟨cause, rfl⟩ := host_of_printInt stopped
      exact .failed ((congrArg (·.1.hart) stopped).symm.trans kept) cause
    | printString => exact stops_of_printString (other nofun) stopped
    | readInt => exact stops_of_readInt stopped
    | readString => exact stops_of_readString selected stopped
    | sbrk => cases stopped
    | exit => cases stopped
    | printChar =>
      have kept := hart_printAll p (.ofList [UInt8.ofNat (p.reg Register.a0).toNat])
      obtain ⟨cause, rfl⟩ := host_of_printAll stopped
      exact .failed ((congrArg (·.1.hart) stopped).symm.trans kept) cause
    | readChar => exact stops_of_readChar stopped
    | openFile => exact stops_of_openFile (other nofun) stopped
    | readBlock => exact stops_of_readBlock (other nofun) stopped
    | writeBlock => exact stops_of_writeBlock (other nofun) stopped
    | closeFile =>
      have unstopped : (p.closeFile (p.reg Register.a0)).2 = .resume := by
        unfold closeFile
        split
        · rfl
        · split <;> rfl
      exact absurd (unstopped.symm.trans (congrArg Prod.snd stopped)) nofun
    | exitWith => cases stopped

theorem Stops.hart_eq (stops : Stops p p' t) : p'.hart = p.hart := by
  cases stops with
  | unknown same => rw [same]
  | failed kept => exact kept
  | refused same => rw [same]
  | unstored _ _ same => rw [same, hart_setInput]

theorem Stops.ne_stepLimit (stops : Stops p p' t) (limit : Nat) : t ≠ .stepLimit limit := by
  cases stops <;> nofun

/-- Nothing has happened between two states of a program. -/
structure Untouched (p p' : Process) : Prop where
  cpu : p'.hart.cpu = p.hart.cpu
  mem : p'.hart.mem = p.hart.mem
  unread : p'.unread = p.unread
  output : p'.host.output = p.host.output
  reports : p'.host.reports = p.host.reports
  files : p'.host.files = p.host.files
  handles : p'.host.handles = p.host.handles
  nextDescriptor : p'.host.nextDescriptor = p.host.nextDescriptor

/-- The bytes that the selected service takes from the input before it looks at memory. -/
def readAhead (p : Process) : List UInt8 :=
  if p.selected? = some .readString then
    Input.lineOf ((p.reg Register.a1).signed - 1).toNat p.unread
  else []

/-- A service that memory refuses has at most read ahead, and has changed nothing exactly if there
was nothing to read ahead. -/
theorem untouched_iff_of_serve {addr : Word} {cause : MemoryError}
    (refused : p.serve = (p', .fault (.bus addr cause))) :
    p' = p.setInput p'.host.input ∧ p.unread = p.readAhead ++ p'.unread ∧
      (Untouched p p' ↔ p.readAhead = []) := by
  have ahead : p' = p.setInput p'.host.input ∧ p.unread = p.readAhead ++ p'.unread := by
    cases stops_of_serve refused with
    | refused same other =>
      rw [same, readAhead, if_neg other]
      exact ⟨rfl, rfl⟩
    | unstored selected read same =>
      rw [same, readAhead, if_pos selected]
      exact ⟨rfl, (Input.line_eq_ok read).2⟩
  obtain ⟨same, taken⟩ := ahead
  refine ⟨same, taken, ?_⟩
  constructor
  · intro untouched
    rw [untouched.unread] at taken
    exact List.append_left_eq_self.mp taken.symm
  · intro nothing
    rw [nothing, List.nil_append] at taken
    rw [same]
    exact ⟨rfl, rfl, by rw [← same, taken], rfl, rfl, rfl, rfl, rfl⟩

/-- Reading a line to an address that is not backed loses three bytes of the input. -/
theorem not_untouched_readString :
    ∃ p p' : Process, p.serve = (p', .fault (.bus 0 (.below 0))) ∧
      p.unread = [97, 98, 99, 10] ∧ p'.unread = [10] ∧ ¬Untouched p p' := by
  let cpu := ((Cpu.reset {} 0x00400000).write Register.v0 8).write Register.a1 4
  let host : Host :=
    { input := ⟨[97, 98, 99, 10], .bytes {} none⟩, output := {}, files := {} }
  have refused : (⟨⟨cpu, .empty {}⟩, host⟩ : Process).serve =
      (⟨⟨cpu, .empty {}⟩, { host with input := ⟨[10], .bytes {} none⟩ }⟩,
        .fault (.bus 0 (.below 0))) := rfl
  refine ⟨_, _, refused, rfl, rfl, ?_⟩
  rw [(untouched_iff_of_serve refused).2.2]
  decide +kernel

end Process
end Mips
