import Mips.Hart
import Mips.Host

namespace Mips

structure Process where
  hart : Hart
  host : Host

namespace Process

def reg (p : Process) (r : Register) : Word := p.hart.cpu.read r

def setReg (p : Process) (r : Register) (w : Word) : Process :=
  { p with hart := p.hart.write r w }

def setMemory (p : Process) (m : Memory) : Process := { p with hart := { p.hart with mem := m } }

def setInput (p : Process) (i : Input) : Process := { p with host := { p.host with input := i } }

end Process
end Mips
