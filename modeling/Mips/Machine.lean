import Mips.Machine.Settings
import Mips.Program
import Mips.Service

/-!
A machine: a process, a count of the instructions it has executed, and a limit on them. A step
executes one instruction and performs the service it may call for; a run goes on until the program
exits, leaves its text or faults. Main statement: `run_add_of_some`, what ended a run is not changed
by leave to go on.
-/
namespace Mips

inductive Ending
  | exited (code : Int)
  | pastText (pc : Word)
  deriving DecidableEq, Repr, Inhabited

namespace Ending

def exitCode : Ending → Int
  | exited code => code
  | pastText _ => 0

def status (e : Ending) : Option Nat :=
  if 0 ≤ e.exitCode ∧ e.exitCode < 256 then some e.exitCode.toNat else none

end Ending

structure Fault where
  pc : Word
  trap : Trap
  deriving DecidableEq, Repr

def Fault.message (f : Fault) : String := s!"{f.trap.message} at pc {Trap.showAddress f.pc}"

inductive Event
  | ended (e : Ending)
  | fault (f : Fault)
  deriving DecidableEq, Repr, Inhabited

structure Machine extends Process where
  steps : Nat
  stepLimit : Option Nat

namespace Machine

def start (c : Machine.Settings) (host : Host) : Machine where
  hart := ⟨Cpu.reset c.cpu c.layout.textBase, Memory.empty c.layout⟩
  host := host
  steps := 0
  stepLimit := c.stepLimit

/-- Loads a program into fresh memory and resets the processor to its first instruction. Where
memory refuses the program, the processor and the count stay as they were. -/
def load (m : Machine) (prog : Program) : Machine × Option MemoryError :=
  let layout := m.hart.mem.layout
  match prog.placeIn (Memory.empty layout) with
  | (mem, some e) => ({ m with hart := { m.hart with mem := mem } }, some e)
  | (mem, none) =>
    ({ m with hart := ⟨Cpu.reset m.hart.cpu.settings layout.textBase, mem⟩, steps := 0 }, none)

def spent (m : Machine) : Option Nat := m.stepLimit.filter (· ≤ m.steps)

def step (m : Machine) : Machine × Option Event :=
  let pc := m.hart.cpu.pc
  if !m.hart.mem.isText pc then (m, some (.ended (.pastText pc)))
  else
    match m.spent with
    | some limit => (m, some (.fault ⟨pc, .stepLimit limit⟩))
    | none =>
      let counted := { m with steps := m.steps + 1 }
      match m.hart.step with
      | (h, none) => ({ counted with hart := h }, none)
      | (h, some .syscall) =>
        let (p, reply) := { m.toProcess with hart := h }.serve
        let next := { counted with toProcess := p }
        match reply with
        | .resume => (next, none)
        | .exit code => (next, some (.ended (.exited code)))
        | .fault t => (next, some (.fault ⟨pc, t⟩))
      | (h, some t) => ({ counted with hart := h }, some (.fault ⟨pc, t⟩))

def advance : Nat → Machine → Machine × Option Event
  | 0, m => (m, none)
  | n + 1, m =>
    match m.step with
    | (m', none) => advance n m'
    | (m', some e) => (m', some e)

/-- The event that ends a run once the output is brought to its end: an ending becomes a fault if
that fails. -/
def settle (m : Machine) (e : Event) : Event :=
  match e, m.host.output.flush with
  | .ended _, .error err => .fault ⟨m.hart.cpu.pc, .host (.stream err)⟩
  | e, _ => e

def run (n : Nat) (m : Machine) : Machine × Option Event :=
  match m.advance n with
  | (m', some e) => (m', some (m'.settle e))
  | (m', none) => (m', none)

theorem advance_add (n k : Nat) (m : Machine) :
    advance (n + k) m =
      match advance n m with
      | (m', none) => advance k m'
      | (m', some e) => (m', some e) := by
  induction n generalizing m with
  | zero => simp [advance]
  | succ n ih =>
    rw [Nat.add_right_comm, advance, advance]
    cases m.step with
    | mk m' e =>
      cases e with
      | none => exact ih m'
      | some e => rfl

theorem run_add_of_some {m m' : Machine} {n : Nat} {e : Event} (h : run n m = (m', some e))
    (k : Nat) : run (n + k) m = (m', some e) := by
  unfold run at h ⊢
  rw [advance_add]
  cases ha : advance n m with
  | mk m₁ e =>
    cases e with
    | none => simp [ha] at h
    | some e => simpa [ha] using h

end Machine
end Mips
