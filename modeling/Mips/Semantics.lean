import Mips.Instruction
import Mips.Word.Bytes

namespace Mips

def Word.ofBool (b : Bool) : Word := if b then 1 else 0

def Relation.holds : Relation → Word → Word → Bool
  | eq, a, b => a == b
  | ne, a, b => a != b
  | ge, a, b => b.signed ≤ a.signed
  | geu, a, b => b.toNat ≤ a.toNat
  | lt, a, b => a.signed < b.signed
  | ltu, a, b => a.toNat < b.toNat

/-- The result of an operation on two registers, none on overflow. -/
def Alu.result? : Alu → Word → Word → Option Word
  | add, a, b => Word.ofInt? (a.signed + b.signed)
  | addu, a, b => some (a.add b)
  | sub, a, b => Word.ofInt? (a.signed - b.signed)
  | subu, a, b => some (a.sub b)
  | and, a, b => some (a &&& b)
  | or, a, b => some (a ||| b)
  | xor, a, b => some (a ^^^ b)
  | nor, a, b => some (Word.complement (a ||| b))
  | slt, a, b => some (Word.ofBool (a.signed < b.signed))
  | sltu, a, b => some (Word.ofBool (a.toNat < b.toNat))
  | mul, a, b => some (a.mul b)

/-- The operand that an immediate stands for: arithmetic and comparisons extend its sign, bitwise
operations fill with zeros. -/
def AluImm.operand : AluImm → BitVec 16 → Word
  | addi, imm | addiu, imm | slti, imm | sltiu, imm => Word.extendHalf imm
  | andi, imm | ori, imm | xori, imm => imm.setWidth 32

def AluImm.alu : AluImm → Alu
  | addi => .add
  | addiu => .addu
  | slti => .slt
  | sltiu => .sltu
  | andi => .and
  | ori => .or
  | xori => .xor

def Shift.result : Shift → Word → Nat → Word
  | sll, a, n => a.shiftLeft n
  | srl, a, n => a >>> n
  | sra, a, n => a.shiftRightSigned n

/-- The product register after an operation. A division by zero leaves it as it was. -/
def MulDiv.result (op : MulDiv) (p : UInt64) (a b : Word) : UInt64 :=
  match op with
  | mult => a.signedProduct b
  | multu => a.product b
  | div => if b = 0 then p else Word.join (a.signedRem b) (a.signedDiv b)
  | divu => if b = 0 then p else Word.join (a % b) (a / b)
  | madd => p + a.signedProduct b
  | maddu => p + a.product b
  | msub => p - a.signedProduct b
  | msubu => p - a.product b

def Count.result : Count → Word → Word
  | clz, a => a.clz
  | clo, a => a.complement.clz

def BranchPair.taken : BranchPair → Word → Word → Bool
  | beq, a, b => a == b
  | bne, a, b => a != b

def BranchZero.taken : BranchZero → Word → Bool
  | blez, a => a.signed ≤ 0
  | bgtz, a => 0 < a.signed
  | bltz, a | bltzal, a => a.signed < 0
  | bgez, a | bgezal, a => 0 ≤ a.signed

/-- Whether a branch writes the link register. It does so even when it is not taken. -/
def BranchZero.links : BranchZero → Bool
  | bltzal | bgezal => true
  | _ => false

def Jump.links : Jump → Bool
  | j => false
  | jal => true

def Load.width : Load → Nat
  | lb | lbu => 1
  | lh | lhu => 2
  | lw | ll | lwl | lwr => 4

/-- The address that a load reads at: a partial load reads the word around its address. -/
def Load.place : Load → Word → Word
  | lwl, addr | lwr, addr => Word.align addr
  | _, addr => addr

def Load.result (op : Load) (old w addr : Word) : Word :=
  match op with
  | lb => Word.extendByte w.lowByte
  | lh => Word.extendHalf w.lowHalf
  | lbu | lhu | lw | ll => w
  | lwl => Word.loadLeft old w addr
  | lwr => Word.loadRight old w addr

def Store.width : Store → Nat
  | sb => 1
  | sh => 2
  | sw | sc | swl | swr => 4

/-- The address that a store writes at: a partial store rewrites the word around its address. -/
def Store.place : Store → Word → Word
  | swl, addr | swr, addr => Word.align addr
  | _, addr => addr

def Store.merge? : Store → Option (Word → Word → Word → Word)
  | swl => some Word.storeLeft
  | swr => some Word.storeRight
  | _ => none

end Mips
