import Mips.Proofs.Machine.Marks
import Mips.Proofs.Process.Stops
import Mips.Proofs.Hart.Traps

/-!
What one step of a machine can do. Main statements: `step_cases`, a step finds the program counter
outside the text, finds the limit reached, or takes place; and `executed_cases`, it leaves the
process alone, executes an instruction or performs a service.
-/
namespace Mips

namespace Hart

variable {h : Hart} {i : Instruction}

theorem step_of_next? (next : h.next? = some i) : h.step = (h.setPc (h.cpu.pc.add 4)).exec i := by
  unfold next? at next
  cases read : h.mem.readWord h.cpu.pc 4 with
  | error e =>
    rw [read] at next
    cases next
  | ok w =>
    rw [read] at next
    simp only [step, read]
    rw [show Instruction.decode w = some i from next]

theorem step_of_next?_eq_none (none : h.next? = none) :
    ∃ t, h.step = (h, some t) ∧ t ≠ .syscall := by
  unfold next? at none
  unfold step
  cases read : h.mem.readWord h.cpu.pc 4 with
  | error e => exact ⟨_, rfl, nofun⟩
  | ok w =>
    rw [read] at none
    simp only [show Instruction.decode w = Option.none from none]
    exact ⟨_, rfl, nofun⟩

theorem step_cases (h : Hart) :
    (h.next? = none ∧ h.step.1 = h) ∨
      ∃ i, h.next? = some i ∧ h.step = (h.setPc (h.cpu.pc.add 4)).exec i := by
  cases next : h.next? with
  | none =>
    obtain ⟨t, stopped, _⟩ := step_of_next?_eq_none next
    exact .inl ⟨rfl, congrArg Prod.fst stopped⟩
  | some i => exact .inr ⟨i, rfl, step_of_next? next⟩

theorem eq_syscall_of_exec {h' : Hart} (trapped : h.exec i = (h', some .syscall)) :
    i = .syscall := by
  cases i with
  | syscall => rfl
  | alu op rd rs rt | aluImm op rt rs imm | trap rel rs rt | trapImm rel rs imm =>
    unfold exec at trapped
    dsimp only at trapped
    split at trapped <;> cases trapped
  | moveFrom half rd => cases half <;> cases trapped
  | moveTo half rs => cases half <;> cases trapped
  | load op rt rs imm =>
    obtain ⟨refused, _⟩ := attempt_eq_some trapped
    cases ofAccess_of_load refused
  | store op rt rs imm =>
    obtain ⟨refused, _⟩ := attempt_eq_some trapped
    cases ofAccess_of_store refused
  | _ => cases trapped

end Hart

namespace Process

def next (p : Process) : Process :=
  match p.hart.step with
  | (h, some .syscall) => { p with hart := h }.serve.1
  | (h, _) => { p with hart := h }

/-- What the instruction at the program counter brings to an end, if anything. -/
def outcome (p : Process) : Option Event :=
  match p.hart.step with
  | (_, none) => none
  | (h, some .syscall) =>
    match { p with hart := h }.serve.2 with
    | .resume => none
    | .exit code => some (.ended (.exited code))
    | .fault t => some (.fault ⟨p.hart.cpu.pc, t⟩)
  | (_, some t) => some (.fault ⟨p.hart.cpu.pc, t⟩)

theorem next_of_next?_eq_none {p : Process} (none : p.hart.next? = none) : p.next = p := by
  obtain ⟨t, stopped, other⟩ := Hart.step_of_next?_eq_none none
  unfold next
  split
  · rename_i called
    cases stopped.symm.trans called
    exact absurd rfl other
  · rename_i stepped
    cases stopped.symm.trans stepped
    rfl

theorem next_cases (p : Process) :
    p.next = { p with hart := p.hart.step.1 } ∨
      p.hart.step.2 = some .syscall ∧ p.next = { p with hart := p.hart.step.1 }.serve.1 := by
  unfold next
  split
  · rename_i called
    rw [called]
    exact .inr ⟨rfl, rfl⟩
  · rename_i stepped
    rw [stepped]
    exact .inl rfl

end Process

namespace Machine

variable {m : Machine}

theorem spent_eq_some_iff {limit : Nat} :
    m.spent = some limit ↔ m.stepLimit = some limit ∧ limit ≤ m.steps := by
  rw [spent, Option.filter_eq_some_iff, decide_eq_true_eq]

theorem spent_eq_none_iff : m.spent = none ↔ ∀ limit ∈ m.stepLimit, m.steps < limit := by
  rw [spent, Option.filter_eq_none_iff]
  simp only [decide_eq_true_eq, Nat.not_le, Option.mem_def]

theorem step_of_outside (outside : m.hart.mem.isText m.hart.cpu.pc = false) :
    m.step = (m, some (.ended (.pastText m.hart.cpu.pc))) := by
  simp only [step, outside, Bool.not_false, if_true]

theorem step_of_spent (text : m.hart.mem.isText m.hart.cpu.pc = true) {limit : Nat}
    (spent : m.spent = some limit) :
    m.step = (m, some (.fault ⟨m.hart.cpu.pc, .stepLimit limit⟩)) := by
  simp only [step, text, spent, Bool.not_true, Bool.false_eq_true, if_false]

theorem step_of_running (text : m.hart.mem.isText m.hart.cpu.pc = true) (running : m.spent = none) :
    m.step = ({ m with toProcess := m.next, steps := m.steps + 1 }, m.outcome) := by
  simp only [step, text, running, Process.next, Process.outcome, Bool.not_true, Bool.false_eq_true,
    if_false]
  cases m.hart.step with
  | mk h trap =>
    cases trap with
    | none => rfl
    | some t =>
      cases t with
      | syscall =>
        dsimp only
        cases { m.toProcess with hart := h }.serve with
        | mk p reply => cases reply <;> rfl
      | _ => rfl

/-- A step finds the program counter outside the text, or the limit reached, and changes nothing, or
it executes an instruction. -/
theorem step_cases (m : Machine) :
    (m.hart.mem.isText m.hart.cpu.pc = false ∧
        m.step = (m, some (.ended (.pastText m.hart.cpu.pc)))) ∨
      (∃ limit, m.spent = some limit ∧
        m.step = (m, some (.fault ⟨m.hart.cpu.pc, .stepLimit limit⟩))) ∨
      (m.hart.mem.isText m.hart.cpu.pc = true ∧ m.spent = none ∧
        m.step = ({ m with toProcess := m.next, steps := m.steps + 1 }, m.outcome)) := by
  cases text : m.hart.mem.isText m.hart.cpu.pc with
  | false => exact .inl ⟨rfl, step_of_outside text⟩
  | true =>
    cases spent : m.spent with
    | none => exact .inr (.inr ⟨rfl, rfl, step_of_running text spent⟩)
    | some limit => exact .inr (.inl ⟨limit, rfl, step_of_spent text spent⟩)

def current? (m : Machine) : Option Instruction :=
  if m.hart.mem.isText m.hart.cpu.pc ∧ m.spent = none then m.hart.next? else none

theorem current?_eq_some_iff {i : Instruction} :
    m.current? = some i ↔
      m.hart.mem.isText m.hart.cpu.pc = true ∧ m.spent = none ∧ m.hart.next? = some i := by
  unfold current?
  split
  · rename_i running
    simp [running.1, running.2]
  · rename_i stopped
    constructor
    · nofun
    · rintro ⟨text, unspent, _⟩
      exact absurd ⟨text, unspent⟩ stopped

/-- A step executes the current instruction, and no other. A service is performed by the process
whose program counter has moved on. -/
theorem executed_cases (m : Machine) :
    (m.current? = none ∧ m.step.1.toProcess = m.toProcess) ∨
      ∃ i, m.current? = some i ∧
        (m.step.1.toProcess =
            { m.toProcess with hart := ((m.hart.setPc (m.hart.cpu.pc.add 4)).exec i).1 } ∨
          i = .syscall ∧ m.step.1.toProcess =
            { m.toProcess with hart := m.hart.setPc (m.hart.cpu.pc.add 4) }.serve.1) := by
  rcases m.step_cases with ⟨outside, stepped⟩ | ⟨limit, spent, stepped⟩ | ⟨text, running, stepped⟩
  · exact .inl ⟨by simp [current?, outside], by rw [stepped]⟩
  · exact .inl ⟨by simp [current?, spent], by rw [stepped]⟩
  · have current : m.current? = m.hart.next? := if_pos ⟨text, running⟩
    rw [current, stepped]
    rcases m.hart.step_cases with ⟨none, same⟩ | ⟨i, next, executed⟩
    · exact .inl ⟨none, Process.next_of_next?_eq_none none⟩
    · refine .inr ⟨i, next, ?_⟩
      rcases m.next_cases with plain | ⟨trapped, called⟩
      · rw [executed] at plain
        exact .inl plain
      · rw [executed] at trapped called
        obtain rfl : i = .syscall := Hart.eq_syscall_of_exec (Prod.ext rfl trapped)
        exact .inr ⟨rfl, called⟩

theorem step_of_syscall (current : m.current? = some .syscall) :
    m.step.1.toProcess =
      { m.toProcess with hart := m.hart.setPc (m.hart.cpu.pc.add 4) }.serve.1 := by
  obtain ⟨text, running, next⟩ := current?_eq_some_iff.mp current
  have called : m.hart.step = (m.hart.setPc (m.hart.cpu.pc.add 4), some .syscall) :=
    Hart.step_of_next? next
  rw [step_of_running text running]
  simp only [Process.next, called]

end Machine
end Mips
