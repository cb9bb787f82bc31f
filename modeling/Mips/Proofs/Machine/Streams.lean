import Mips.Proofs.Machine.Steps
import Mips.Proofs.Process.Streams

namespace Mips.Machine

variable {m : Machine} {place : Option Path} {n : Nat}

def called (m : Machine) : Process :=
  { m.toProcess with hart := m.hart.setPc (m.hart.cpu.pc.add 4) }

/-- The bytes that a step takes from the input: those of the service that it performs. -/
def takes (m : Machine) : List UInt8 :=
  if m.current? = some .syscall then m.called.taken else []

def prints (m : Machine) : List UInt8 :=
  if m.current? = some .syscall then m.called.printed else []

def consumed (m : Machine) (n : Nat) : List UInt8 :=
  (List.range n).flatMap fun j => (m.after j).takes

def emitted (m : Machine) (n : Nat) : List UInt8 :=
  (List.range n).flatMap fun j => (m.after j).prints

/-- The file behind the input, if there is one, is not changed by the first steps. -/
def Steady (m : Machine) (place : Option Path) (n : Nat) : Prop :=
  ∀ path ∈ place, ∀ j ≤ n,
    (m.after j).host.files.content path = m.host.files.content path

theorem consumed_succ (m : Machine) (n : Nat) :
    m.consumed (n + 1) = m.consumed n ++ (m.after n).takes := by
  simp [consumed, List.range_succ]

theorem emitted_succ (m : Machine) (n : Nat) :
    m.emitted (n + 1) = m.emitted n ++ (m.after n).prints := by
  simp [emitted, List.range_succ]

theorem streams_step (sound : m.toProcess.Sound place) :
    Process.Streams place m.toProcess m.takes m.prints m.step.1.toProcess := by
  by_cases calls : m.current? = some .syscall
  · obtain ⟨kept, input, output⟩ := Process.streams_serve (p := m.called) ⟨sound.1, sound.2⟩
    rw [takes, prints, if_pos calls, if_pos calls, step_of_syscall calls]
    exact ⟨kept, input, output⟩
  · rw [takes, prints, if_neg calls, if_neg calls]
    rcases m.executed_cases with ⟨_, same⟩ | ⟨i, current, same | ⟨rfl, _⟩⟩
    · rw [same]
      exact Process.streams_aside sound rfl rfl
    · rw [same]
      exact Process.streams_aside sound rfl rfl
    · exact absurd current calls

theorem sound_after (sound : m.toProcess.Sound place) (n : Nat) :
    (m.after n).toProcess.Sound place := by
  induction n with
  | zero => exact sound
  | succ n ih => exact (streams_step ih).sound

theorem written_after (sound : m.toProcess.Sound place) (n : Nat) :
    (m.after n).host.output.written = m.host.output.written ++ m.emitted n := by
  induction n with
  | zero => exact (List.append_nil _).symm
  | succ n ih =>
    rw [emitted_succ, ← List.append_assoc, ← ih]
    exact (streams_step (sound_after sound n)).output

/-- What is still unread does not depend on other files than the one behind the input. -/
theorem unread_after_succ (sound : m.toProcess.Sound place) (steady : m.Steady place (n + 1)) :
    (m.after n).unread = (m.after n).takes ++ (m.after (n + 1)).unread := by
  have streams := streams_step (sound_after sound n)
  have same : ∀ path ∈ place,
      (m.after (n + 1)).host.files.content path = (m.after n).host.files.content path :=
    fun path among => (steady path among (n + 1) (Nat.le_refl _)).trans
      (steady path among n (Nat.le_succ n)).symm
  have still : (m.after (n + 1)).unread =
      (m.after (n + 1)).host.input.unread (m.after n).host.files :=
    Input.unread_of_sound streams.sound.source same
  rw [still]
  exact streams.input

theorem unread_after (sound : m.toProcess.Sound place) (steady : m.Steady place n) :
    m.unread = m.consumed n ++ (m.after n).unread := by
  induction n with
  | zero => rfl
  | succ n ih =>
    have earlier : m.Steady place n := fun path among j within =>
      steady path among j (Nat.le_succ_of_le within)
    rw [consumed_succ, List.append_assoc, ← unread_after_succ sound steady]
    exact ih earlier

/-- Bytes of the input are taken one behind the other, each once, and bytes are only ever added to
the output. What is written to the file behind the input shows in what stays unread, not in what a
call takes. -/
theorem streams_of_sound (sound : m.toProcess.Sound place) (n : Nat) :
    (m.Steady place n → m.unread = m.consumed n ++ (m.after n).unread) ∧
      (m.after n).host.output.written = m.host.output.written ++ m.emitted n ∧
      (m.after n).unread =
        (m.after n).takes ++ (m.after (n + 1)).host.input.unread (m.after n).host.files ∧
      ((m.after n).current? = some .syscall → (m.after n).called.Takes) := by
  have kept := sound_after sound n
  exact ⟨unread_after sound, written_after sound n, (streams_step kept).input,
    fun _ => Process.takes_of_sound (p := (m.after n).called) ⟨kept.1, kept.2⟩⟩

theorem streams_of_sound_copied :
    ∃ m₀, (start {} ⟨{ source := .bytes (.ofList [97, 10, 98, 99]) none }, {}, {}, {}, ∅, 3⟩).load
        ⟨[], [0x34020008, 0x3C040040, 0x34050004, 0x0000000C, 0x3402000C, 0x0000000C, 0x00402021,
          0x3402000B, 0x0000000C]⟩ = (m₀, none) ∧
      m₀.consumed 9 = [97, 10, 98] ∧ (m₀.after 9).unread = [99] ∧
      (m₀.after 9).host.output.written = [98] ∧ (m₀.after 3).called.Takes := by
  let m₀ := ((start {} ⟨{ source := .bytes (.ofList [97, 10, 98, 99]) none }, {}, {}, {}, ∅, 3⟩).load
    ⟨[], [0x34020008, 0x3C040040, 0x34050004, 0x0000000C, 0x3402000C, 0x0000000C, 0x00402021,
      0x3402000B, 0x0000000C]⟩).1
  have sound : m₀.toProcess.Sound none := ⟨.bytes _, rfl, nofun⟩
  obtain ⟨input, output, _, _⟩ := streams_of_sound sound 9
  have given : m₀.unread = [97, 10, 98] ++ [99] := by decide +kernel
  have taken : m₀.consumed 9 = [97, 10, 98] := by decide +kernel
  have put : m₀.host.output.written ++ m₀.emitted 9 = [98] := by decide +kernel
  have rest := input nofun
  rw [given, taken] at rest
  have takes := (streams_of_sound sound 3).2.2.2 (by decide +kernel)
  exact ⟨m₀, Prod.ext rfl (by decide +kernel), taken, (List.append_cancel_left rest).symm,
    output.trans put, takes⟩

end Mips.Machine
