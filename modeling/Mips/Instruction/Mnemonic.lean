import Mips.Instruction.Encoding

namespace Mips

inductive Format
  | register | immediate | jump | other
  deriving DecidableEq, Repr

inductive Shape
  | rdRsRt
  | rdRtRs
  | rdRtShamt
  | rsRt
  /-- A register and a link register, which may be left out. -/
  | rsRd
  | rs
  | rd
  | rdRs
  | rsRtLabel
  | rsLabel
  | rtRsImm
  | rtImm
  | rtMem
  | rsImm
  | target
  /-- A code, which may be left out. -/
  | code
  | empty
  deriving DecidableEq, Repr

def Op.shape : Op → Shape
  | alu _ => .rdRsRt
  | aluImm _ => .rtRsImm
  | lui => .rtImm
  | shift _ => .rdRtShamt
  | shiftVar _ => .rdRtRs
  | mulDiv _ => .rsRt
  | moveFrom _ => .rd
  | moveTo _ => .rs
  | count _ => .rdRs
  | trap _ => .rsRt
  | trapImm _ => .rsImm
  | breakpoint => .code
  | syscall => .empty
  | jr => .rs
  | jalr => .rsRd
  | jump _ => .target
  | branchPair _ => .rsRtLabel
  | branchZero _ => .rsLabel
  | load _ => .rtMem
  | store _ => .rtMem

/-- A name that a source line may begin with: an operation, the empty shift, or the return from an
exception, which can be assembled but not executed. -/
inductive Mnemonic
  | op (o : Op)
  | nop
  | eret
  deriving DecidableEq, Repr

namespace Mnemonic

def all : List Mnemonic := Op.all.map op ++ [nop, eret]

def name : Mnemonic → String
  | op o => o.name
  | nop => "nop"
  | eret => "eret"

def shape : Mnemonic → Shape
  | op o => o.shape
  | nop => .empty
  | eret => .empty

def format : Mnemonic → Format
  | nop | eret | op .syscall | op .breakpoint => .other
  | op (.jump _) => .jump
  | op o =>
    match o.code with
    | .regimm _ | .primary _ => .immediate
    | _ => .register

def eretWord : Word := 0x42000018

def base : Mnemonic → Word
  | op o => Word.ofNat o.code.bits
  | nop => 0
  | eret => eretWord

def ofName? (s : List Char) : Option Mnemonic := all.find? (·.name = String.ofList s)

end Mnemonic
end Mips
