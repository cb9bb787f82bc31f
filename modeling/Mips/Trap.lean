import Mips.Host.Error
import Mips.Instruction
import Mips.Memory

namespace Mips

def Relation.message : Relation → String
  | eq => "equal"
  | ne => "not equal"
  | ge => "greater or equal"
  | geu => "greater or equal unsigned"
  | lt => "less than"
  | ltu => "less than unsigned"

inductive Trap
  | illegalInstruction (word : Word)
  | overflow
  | condition (rel : Relation)
  | breakpoint (code : Word)
  | syscall
  | unknownService (code : Word)
  | unaligned (addr : Word)
  | bus (addr : Word) (cause : MemoryError)
  | host (cause : HostError)
  | stepLimit (limit : Nat)
  deriving DecidableEq, Repr

namespace Trap

def showAddress (addr : Word) : String := String.ofList (Numeral.hex8 addr.toNat)

def message : Trap → String
  | illegalInstruction word => s!"Illegal instruction {showAddress word}"
  | overflow => "Arithmetic overflow"
  | condition rel => s!"Trap if {rel.message}"
  | breakpoint code => s!"Breakpoint (code {String.ofList (Numeral.hex code.toNat)})"
  | syscall => "System call"
  | unknownService code => s!"Unknown system call {code.toNat}"
  | unaligned addr => s!"Unaligned access at {showAddress addr}"
  | bus addr cause => s!"Bus error at {showAddress addr}: {cause.message}"
  | host cause => s!"Host I/O failed: {cause.message}"
  | stepLimit limit => s!"Step limit of {limit} instructions reached"

end Trap
end Mips
