import Mips.Proofs.Hart.Transfer
import Mips.Proofs.Hart.Traps
import Mips.Proofs.Process.Stops

namespace Mips.Machine

variable {m m' : Machine} {f : Fault}

/-- A machine that has counted an instruction and done nothing else to its processor and memory but
move the program counter past it, if it was fetched and decoded. -/
structure Precise (m m' : Machine) : Prop where
  gpr : m'.hart.cpu.gpr = m.hart.cpu.gpr
  hi : m'.hart.cpu.hi = m.hart.cpu.hi
  lo : m'.hart.cpu.lo = m.hart.cpu.lo
  byteAt : ∀ off, m'.hart.mem.byteAt off = m.hart.mem.byteAt off
  marks : m'.hart.mem.marks = m.hart.mem.marks
  layout : m'.hart.mem.layout = m.hart.mem.layout
  steps : m'.steps = m.steps + 1
  pc : m'.hart.cpu.pc = if m.hart.next?.isSome then m.hart.cpu.pc.add 4 else m.hart.cpu.pc

theorem precise_of_passed (passed : m'.hart = m.hart.passed) (counted : m'.steps = m.steps + 1) :
    Precise m m' := by
  have cpu := m.hart.cpu_passed
  have mem := m.hart.mem_passed
  rw [← passed] at cpu mem
  exact ⟨by rw [cpu], by rw [cpu], by rw [cpu], by rw [mem]; exact fun _ => rfl, by rw [mem],
    by rw [mem], counted, by rw [cpu]⟩

theorem limit_or_precise_of_step (faulted : m.step = (m', some (.fault f))) :
    f.pc = m.hart.cpu.pc ∧
      ((m' = m ∧ ∃ limit, f.trap = .stepLimit limit) ∨
        (Precise m m' ∧ ∀ limit, f.trap ≠ .stepLimit limit)) := by
  unfold step at faulted
  dsimp only at faulted
  split at faulted
  · cases faulted
  · split at faulted
    · rename_i limit spent
      cases faulted
      exact ⟨rfl, .inl ⟨rfl, limit, rfl⟩⟩
    · split at faulted
      · cases faulted
      · rename_i h called
        obtain ⟨rfl, _⟩ := Hart.step_eq_some called
        split at faulted
        · cases faulted
        · cases faulted
        · rename_i t stopped
          cases faulted
          have stops := Process.stops_of_serve (Prod.ext rfl stopped)
          exact ⟨rfl, .inr ⟨precise_of_passed stops.hart_eq rfl, stops.ne_stepLimit⟩⟩
      · rename_i h t _ trapped
        cases faulted
        obtain ⟨rfl, other⟩ := Hart.step_eq_some trapped
        exact ⟨rfl, .inr ⟨precise_of_passed rfl rfl, other⟩⟩

/-- A fault names the instruction that raised it. At the limit the machine is as it was, and any
other fault is precise, whatever state the machine had got to. -/
theorem step_fault (faulted : m.step = (m', some (.fault f))) :
    f.pc = m.hart.cpu.pc ∧ ((∃ limit, f.trap = .stepLimit limit) → m' = m) ∧
      ((∀ limit, f.trap ≠ .stepLimit limit) → Precise m m') := by
  obtain ⟨here, atLimit | raised⟩ := limit_or_precise_of_step faulted
  · obtain ⟨same, limit, trap⟩ := atLimit
    exact ⟨here, fun _ => same, fun other => absurd trap (other limit)⟩
  · obtain ⟨precise, other⟩ := raised
    exact ⟨here, fun ⟨limit, trap⟩ => absurd trap (other limit), fun _ => precise⟩

theorem step_fault_swl :
    ∃ m₀ m', (start {} ⟨{ source := .bytes {} none }, {}, {}, {}, ∅, 3⟩).load
        ⟨[], [0xA8000001]⟩ = (m₀, none) ∧
      m₀.step = (m', some (.fault ⟨0x00400000, .bus 0 (.below 0)⟩)) ∧ Precise m₀ m' ∧
      m'.hart.cpu.pc = 0x00400004 ∧ m'.steps = 1 := by
  have fits : (Program.mk [] [0xA8000001]).FitsIn {} := ⟨by decide, by decide, by decide⟩
  obtain ⟨m₀, loaded, _, zero, unlimited, begun⟩ :=
    exists_load_start (c := {}) fits ⟨{ source := .bytes {} none }, {}, {}, {}, ∅, 3⟩
  have here : m₀.hart.cpu.pc = 0x00400000 := by rw [begun]; rfl
  have fetched : m₀.hart.mem.readWord m₀.hart.cpu.pc 4 = .ok 0xA8000001 := by
    rw [begun]
    exact Program.readWord_image (i := 0) fits rfl
  have decoded : Instruction.decode 0xA8000001 = some (.store .swl 0 0 1) := by decide
  have text : m₀.hart.mem.isText 0x00400000 = true := by
    rw [begun]
    rfl
  have running : m₀.spent = none := by
    rw [spent, unlimited]
    rfl
  have trapped : m₀.hart.step =
      (m₀.hart.setPc 0x00400004, some (.bus 0 (.below 0))) := by
    rw [Hart.step_of_decode fetched decoded, begun]
    rfl
  have faulted : m₀.step = ({ m₀ with hart := m₀.hart.setPc 0x00400004, steps := m₀.steps + 1 },
      some (.fault ⟨0x00400000, .bus 0 (.below 0)⟩)) := by
    simp only [step, here, text, running, trapped, Bool.not_true, Bool.false_eq_true, if_false]
  have unspent : ∀ limit, Trap.bus 0 (.below 0) ≠ .stepLimit limit := by
    intro limit spent
    cases spent
  exact ⟨m₀, _, loaded, faulted, (step_fault faulted).2.2 unspent, rfl, by rw [zero]⟩

end Mips.Machine
