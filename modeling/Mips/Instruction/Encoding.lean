import Mips.Instruction

/-!
Instructions as words. The fixed bits of an operation are its `Code`; the operands lie in fields at
fixed places. Decoding reads the code, finds the operation and fills in the fields. The tables in
which it is found are made from the codes, so those serve both directions. Main statement:
`ofCode?_code`, an operation is found by its code.
-/
namespace Mips

/-- The fixed bits of an operation: a whole word, or a selector in the place that the primary opcode
assigns. -/
inductive Code
  | whole (word : Word)
  | special (funct : Nat)
  | special2 (funct : Nat)
  | regimm (rt : Nat)
  | primary (opcode : Nat)
  deriving DecidableEq, Repr

structure Fields where
  rs : Register := 0
  rt : Register := 0
  rd : Register := 0
  shamt : BitVec 8 := 0
  imm : BitVec 16 := 0
  target : Word := 0
  code : Word := 0

namespace Word

def opcode (w : Word) : Nat := w.toNat >>> 26

def funct (w : Word) : Nat := w.toNat % 0x40

/-- The operand fields of a word: `rs` in bits 25 to 21, `rt` in 20 to 16, `rd` in 15 to 11, `shamt`
in 10 to 6, `imm` in 15 to 0, `target` in 25 to 0, and the code of a breakpoint in 25 to 6. -/
@[inline] def fields (w : Word) : Fields where
  rs := BitVec.ofNatLT (w.toNat >>> 21 % 32) (by omega)
  rt := BitVec.ofNatLT (w.toNat >>> 16 % 32) (by omega)
  rd := BitVec.ofNatLT (w.toNat >>> 11 % 32) (by omega)
  shamt := BitVec.ofNatLT (w.toNat >>> 6 % 32) (by omega)
  imm := BitVec.ofNatLT (w.toNat % 0x10000) (by omega)
  target := BitVec.ofNatLT (w.toNat % 0x4000000) (by omega)
  code := BitVec.ofNatLT (w.toNat >>> 6 % 0x100000) (by omega)

end Word

namespace Code

def specialOpcode : Nat := 0x00
def regimmOpcode : Nat := 0x01
def special2Opcode : Nat := 0x1C

def callWord : Word := 0x0000000C

@[inline] def ofWord (w : Word) : Code :=
  if w = callWord then whole w
  else if Word.opcode w = specialOpcode then special (Word.funct w)
  else if Word.opcode w = special2Opcode then special2 (Word.funct w)
  else if Word.opcode w = regimmOpcode then regimm (w.toNat >>> 16 % 32)
  else primary (Word.opcode w)

def bits : Code → Nat
  | whole w => w.toNat
  | special f => specialOpcode <<< 26 + f
  | special2 f => special2Opcode <<< 26 + f
  | regimm t => regimmOpcode <<< 26 + t <<< 16
  | primary o => o <<< 26

end Code

namespace Op

def code : Op → Code
  | alu .add => .special 0x20
  | alu .addu => .special 0x21
  | alu .sub => .special 0x22
  | alu .subu => .special 0x23
  | alu .and => .special 0x24
  | alu .or => .special 0x25
  | alu .xor => .special 0x26
  | alu .nor => .special 0x27
  | alu .slt => .special 0x2A
  | alu .sltu => .special 0x2B
  | alu .mul => .special2 0x02
  | aluImm .addi => .primary 0x08
  | aluImm .addiu => .primary 0x09
  | aluImm .slti => .primary 0x0A
  | aluImm .sltiu => .primary 0x0B
  | aluImm .andi => .primary 0x0C
  | aluImm .ori => .primary 0x0D
  | aluImm .xori => .primary 0x0E
  | lui => .primary 0x0F
  | shift .sll => .special 0x00
  | shift .srl => .special 0x02
  | shift .sra => .special 0x03
  | shiftVar .sll => .special 0x04
  | shiftVar .srl => .special 0x06
  | shiftVar .sra => .special 0x07
  | mulDiv .mult => .special 0x18
  | mulDiv .multu => .special 0x19
  | mulDiv .div => .special 0x1A
  | mulDiv .divu => .special 0x1B
  | mulDiv .madd => .special2 0x00
  | mulDiv .maddu => .special2 0x01
  | mulDiv .msub => .special2 0x04
  | mulDiv .msubu => .special2 0x05
  | moveFrom .hi => .special 0x10
  | moveFrom .lo => .special 0x12
  | moveTo .hi => .special 0x11
  | moveTo .lo => .special 0x13
  | count .clz => .special2 0x20
  | count .clo => .special2 0x21
  | trap .eq => .special 0x34
  | trap .ne => .special 0x36
  | trap .ge => .special 0x30
  | trap .geu => .special 0x31
  | trap .lt => .special 0x32
  | trap .ltu => .special 0x33
  | trapImm .eq => .regimm 0x0C
  | trapImm .ne => .regimm 0x0E
  | trapImm .ge => .regimm 0x08
  | trapImm .geu => .regimm 0x09
  | trapImm .lt => .regimm 0x0A
  | trapImm .ltu => .regimm 0x0B
  | breakpoint => .special 0x0D
  | syscall => .whole Code.callWord
  | jr => .special 0x08
  | jalr => .special 0x09
  | jump .j => .primary 0x02
  | jump .jal => .primary 0x03
  | branchPair .beq => .primary 0x04
  | branchPair .bne => .primary 0x05
  | branchZero .blez => .primary 0x06
  | branchZero .bgtz => .primary 0x07
  | branchZero .bltz => .regimm 0x00
  | branchZero .bgez => .regimm 0x01
  | branchZero .bltzal => .regimm 0x10
  | branchZero .bgezal => .regimm 0x11
  | load .lb => .primary 0x20
  | load .lh => .primary 0x21
  | load .lwl => .primary 0x22
  | load .lw => .primary 0x23
  | load .lbu => .primary 0x24
  | load .lhu => .primary 0x25
  | load .lwr => .primary 0x26
  | load .ll => .primary 0x30
  | store .sb => .primary 0x28
  | store .sh => .primary 0x29
  | store .swl => .primary 0x2A
  | store .sw => .primary 0x2B
  | store .swr => .primary 0x2E
  | store .sc => .primary 0x38

def withCode? (c : Code) : Option Op := all.find? (·.code = c)

/-- The operations of a selector with six bits, or of one with fewer, in order. -/
def table (code : Nat → Code) : Vector (Option Op) 64 :=
  Vector.ofFn fun i => withCode? (code i)

def specialTable : Vector (Option Op) 64 := table .special
def special2Table : Vector (Option Op) 64 := table .special2
def regimmTable : Vector (Option Op) 64 := table .regimm
def primaryTable : Vector (Option Op) 64 := table .primary

@[inline] def ofCode? : Code → Option Op
  | .whole w => if w = Code.callWord then some syscall else none
  | .special f => specialTable[f]?.join
  | .special2 f => special2Table[f]?.join
  | .regimm t => regimmTable[t]?.join
  | .primary o => primaryTable[o]?.join

@[inline] def instruction (o : Op) (f : Fields) : Instruction :=
  match o with
  | alu o => .alu o f.rd f.rs f.rt
  | aluImm o => .aluImm o f.rt f.rs f.imm
  | lui => .lui f.rt f.imm
  | shift o => .shift o f.rd f.rt f.shamt
  | shiftVar o => .shiftVar o f.rd f.rt f.rs
  | mulDiv o => .mulDiv o f.rs f.rt
  | moveFrom h => .moveFrom h f.rd
  | moveTo h => .moveTo h f.rs
  | count o => .count o f.rd f.rs
  | trap r => .trap r f.rs f.rt
  | trapImm r => .trapImm r f.rs f.imm
  | breakpoint => .breakpoint f.code
  | syscall => .syscall
  | jr => .jr f.rs
  | jalr => .jalr f.rd f.rs
  | jump o => .jump o f.target
  | branchPair o => .branchPair o f.rs f.rt f.imm
  | branchZero o => .branchZero o f.rs f.imm
  | load o => .load o f.rt f.rs f.imm
  | store o => .store o f.rt f.rs f.imm

theorem ofCode?_code (o : Op) : ofCode? o.code = some o := by
  cases o <;> first | decide | (rename_i x; cases x <;> decide)

end Op

namespace Instruction

def decode (w : Word) : Option Instruction :=
  (Op.ofCode? (Code.ofWord w)).map (·.instruction (Word.fields w))

def registerWord (o : Op) (rs rt rd : Register) (shamt : BitVec 8) : Word :=
  Word.ofNat (o.code.bits + (rs.toNat % 32) <<< 21 + (rt.toNat % 32) <<< 16 +
    (rd.toNat % 32) <<< 11 + (shamt.toNat % 32) <<< 6)

def immediateWord (o : Op) (rs rt : Register) (imm : BitVec 16) : Word :=
  Word.ofNat (o.code.bits + (rs.toNat % 32) <<< 21 + (rt.toNat % 32) <<< 16 + imm.toNat)

/-- The word of an instruction. A count of leading bits names its destination in `rt` as well. -/
def encode (i : Instruction) : Word :=
  match i with
  | alu _ rd rs rt => registerWord i.op rs rt rd 0
  | aluImm _ rt rs imm => immediateWord i.op rs rt imm
  | lui rt imm => immediateWord i.op 0 rt imm
  | shift _ rd rt shamt => registerWord i.op 0 rt rd shamt
  | shiftVar _ rd rt rs => registerWord i.op rs rt rd 0
  | mulDiv _ rs rt => registerWord i.op rs rt 0 0
  | moveFrom _ rd => registerWord i.op 0 0 rd 0
  | moveTo _ rs => registerWord i.op rs 0 0 0
  | count _ rd rs => registerWord i.op rs rd rd 0
  | trap _ rs rt => registerWord i.op rs rt 0 0
  | trapImm _ rs imm => immediateWord i.op rs 0 imm
  | breakpoint code => Word.ofNat (i.op.code.bits + (code.toNat % 0x100000) <<< 6)
  | syscall => Word.ofNat i.op.code.bits
  | jr rs => registerWord i.op rs 0 0 0
  | jalr rd rs => registerWord i.op rs 0 rd 0
  | jump _ target => Word.ofNat (i.op.code.bits + target.toNat % 0x4000000)
  | branchPair _ rs rt imm => immediateWord i.op rs rt imm
  | branchZero _ rs imm => immediateWord i.op rs 0 imm
  | load _ rt rs imm => immediateWord i.op rs rt imm
  | store _ rt rs imm => immediateWord i.op rs rt imm

end Instruction
end Mips
