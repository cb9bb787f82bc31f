import Mips.Proofs.Machine.Steps
import Mips.Proofs.Process.Effects

namespace Mips

namespace Cpu

variable {c c' : Cpu} {dest : Option Register}

structure ZeroWired (c : Cpu) : Prop where
  wired : c.settings.hardwiredZero = true
  zero : c.read 0 = 0

theorem index_ne_zero {r : Register} (small : r.toNat < 32) (other : r ≠ 0) :
    r.index ≠ (0 : Register).index :=
  fun same => other (Register.eq_of_index_eq small (by decide) same)

theorem ZeroWired.of_writes (held : ZeroWired c) (writes : Writes c dest c')
    (small : ∀ r ∈ dest, r.toNat < 32) : ZeroWired c' where
  wired := writes.settings.symm ▸ held.wired
  zero := (writes.read_eq small (by decide) fun _ => ⟨rfl, held.wired⟩).trans held.zero

theorem zeroWired_reset {s : Cpu.Settings} (wired : s.hardwiredZero = true) (pc : Word) :
    ZeroWired (reset s pc) := by
  refine ⟨wired, ?_⟩
  simp [reset, read, Register.index, Register.sp]

end Cpu

open Cpu (ZeroWired)

theorem Process.zeroWired_serve {p : Process} (held : ZeroWired p.hart.cpu) :
    ZeroWired p.serve.1.hart.cpu := by
  refine held.of_writes p.effect_serve.writes fun r among => ?_
  obtain rfl := Option.some.inj among
  decide

namespace Machine

/-- The states that a new machine gets to, whatever is loaded into it and whatever its steps end
in. -/
inductive Reachable (c : Settings) (host : Host) : Machine → Prop
  | start : Reachable c host (start c host)
  | load {m : Machine} (reached : Reachable c host m) (prog : Program) :
    Reachable c host (m.load prog).1
  | step {m : Machine} (reached : Reachable c host m) : Reachable c host m.step.1

variable {c : Settings} {host : Host} {m : Machine}

theorem zeroWired_load (held : ZeroWired m.hart.cpu) (prog : Program) :
    ZeroWired (m.load prog).1.hart.cpu := by
  unfold load
  dsimp only
  split
  · exact held
  · exact Cpu.zeroWired_reset held.wired _

theorem zeroWired_step (held : ZeroWired m.hart.cpu) : ZeroWired m.step.1.hart.cpu := by
  rcases m.executed_cases with ⟨_, same⟩ | ⟨i, current, same | ⟨_, same⟩⟩
  · rwa [same]
  · rw [same]
    obtain ⟨_, _, next⟩ := current?_eq_some_iff.mp current
    obtain ⟨w, _, decoded⟩ := Option.bind_eq_some_iff.mp next
    have moved : ZeroWired (m.hart.setPc (m.hart.cpu.pc.add 4)).cpu := ⟨held.wired, held.zero⟩
    exact moved.of_writes (Hart.writes_exec _ i) fun r writes =>
      Instruction.lt_of_destination? decoded writes
  · rw [same]
    exact Process.zeroWired_serve ⟨held.wired, held.zero⟩

theorem zeroWired_of_reachable (wired : c.cpu.hardwiredZero = true) (reached : Reachable c host m) :
    ZeroWired m.hart.cpu := by
  induction reached with
  | start => exact Cpu.zeroWired_reset wired _
  | load _ prog ih => exact zeroWired_load ih prog
  | step _ ih => exact zeroWired_step ih

/-- A hardwired zero holds zero for ever, and the instructions that are decoded name it by no other
number. -/
theorem zero_of_reachable (wired : c.cpu.hardwiredZero = true) (reached : Reachable c host m) :
    m.hart.cpu.gpr[0] = 0 ∧ ∀ i, m.hart.next? = some i → ∀ r ∈ i.registers,
      r.toNat < 32 ∧ (r.index = 0 → r = 0) := by
  refine ⟨(zeroWired_of_reachable wired reached).zero, fun i next r named => ?_⟩
  obtain ⟨w, _, decoded⟩ := Option.bind_eq_some_iff.mp next
  have small := Instruction.lt_of_decode decoded named
  exact ⟨small, fun place => Classical.byContradiction fun other =>
    Cpu.index_ne_zero small other place⟩

theorem zero_of_reachable_added :
    ∃ m, Reachable {} ⟨{ source := .bytes {} none }, {}, {}, {}, ∅, 3⟩ m ∧ m.steps = 1 ∧
      m.hart.next? = some (.aluImm .addiu 0 0 7) ∧ m.hart.cpu.gpr[0] = 0 := by
  let m := ((start {} ⟨{ source := .bytes {} none }, {}, {}, {}, ∅, 3⟩).load
    ⟨[], [0x24000005, 0x24000007]⟩).1.step.1
  have reached : Reachable {} ⟨{ source := .bytes {} none }, {}, {}, {}, ∅, 3⟩ m :=
    .step (.load .start _)
  exact ⟨m, reached, by decide +kernel, by decide +kernel, (zero_of_reachable rfl reached).1⟩

end Machine
end Mips
