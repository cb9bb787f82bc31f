import Mips.Assembly.Literal
import Mips.Assembly.Symbols
import Mips.Instruction.Mnemonic

namespace Mips.Assembly

structure Place where
  line : Nat
  pc : Word
  symbols : Symbols

namespace Place

def refuse {α : Type} (p : Place) (c : Cause) : Except Error α := .error ⟨p.line, c⟩

def register (p : Place) (tok : List Char) : Except Error Register :=
  match Register.ofToken? tok with
  | some r => .ok r
  | none => p.refuse (.unknownRegister tok)

def immediate (p : Place) (bits : Nat) (tok : List Char) : Except Error (BitVec bits) :=
  match integer? tok with
  | some z => .ok (BitVec.ofInt bits z)
  | none => p.refuse (.badImmediate tok)

/-- Reads the distance of a branch, counted in words from the next instruction: a number of words,
or a label. -/
def branchDistance (p : Place) (tok : List Char) : Except Error (BitVec 16) :=
  match integer? tok with
  | some z => .ok (BitVec.ofInt 16 z)
  | none =>
    (p.symbols.resolve tok p.line).map fun addr =>
      BitVec.ofInt 16 (((addr.toNat : Int) - (p.pc.toNat + 4)) / 4)

/-- Reads the target of a jump, a byte address or a label, and counts it in words. -/
def jumpTarget (p : Place) (tok : List Char) : Except Error Word :=
  let field (addr : Int) : Word := (BitVec.ofInt 26 (addr / 4)).setWidth 32
  match integer? tok with
  | some z => .ok (field z)
  | none => (p.symbols.resolve tok p.line).map fun addr => field addr.toNat

/-- Reads a memory operand: an offset, which may be left out, before a base register in brackets. -/
def memory (p : Place) (tok : List Char) : Except Error (Register × BitVec 16) :=
  match Text.splitAtFirst (· == '(') tok with
  | (offset, some rest) =>
    if rest.getLast? = some ')' then do
      let imm ← if offset = [] then .ok 0 else p.immediate 16 offset
      let base ← p.register rest.dropLast
      return (base, imm)
    else p.refuse (.badMemoryOperand tok)
  | (_, none) => p.refuse (.badMemoryOperand tok)

end Place

def arity : Shape → Nat
  | .rdRsRt | .rdRtRs | .rdRtShamt | .rsRtLabel | .rtRsImm => 3
  | .rsRt | .rsRd | .rdRs | .rsLabel | .rtImm | .rtMem | .rsImm => 2
  | .rs | .rd | .target | .code => 1
  | .empty => 0

def operandFields (p : Place) (mnemonic : List Char) (shape : Shape) (ops : List (List Char)) :
    Except Error Fields :=
  match shape, ops with
  | .rdRsRt, [a, b, c] => do
    let rs ← p.register b
    let rt ← p.register c
    let rd ← p.register a
    return { rs, rt, rd }
  | .rdRtRs, [a, b, c] => do
    let rs ← p.register c
    let rt ← p.register b
    let rd ← p.register a
    return { rs, rt, rd }
  | .rdRtShamt, [a, b, c] => do
    let rt ← p.register b
    let rd ← p.register a
    let shamt ← p.immediate 5 c
    return { rt, rd, shamt := shamt.setWidth 8 }
  | .rsRt, [a, b] => do
    let rs ← p.register a
    let rt ← p.register b
    return { rs, rt }
  | .rsRd, [a] => do
    let rs ← p.register a
    return { rs, rd := Register.ra }
  | .rsRd, [a, b] => do
    let rd ← p.register b
    let rs ← p.register a
    return { rs, rd }
  | .rs, [a] => do
    let rs ← p.register a
    return { rs }
  | .rd, [a] => do
    let rd ← p.register a
    return { rd }
  | .rdRs, [a, b] => do
    let rd ← p.register a
    let rs ← p.register b
    return { rs, rd }
  | .rsRtLabel, [a, b, c] => do
    let rs ← p.register a
    let rt ← p.register b
    let imm ← p.branchDistance c
    return { rs, rt, imm }
  | .rsLabel, [a, b] => do
    let rs ← p.register a
    let imm ← p.branchDistance b
    return { rs, imm }
  | .rtRsImm, [a, b, c] => do
    let rs ← p.register b
    let rt ← p.register a
    let imm ← p.immediate 16 c
    return { rs, rt, imm }
  | .rtImm, [a, b] => do
    let rt ← p.register a
    let imm ← p.immediate 16 b
    return { rt, imm }
  | .rtMem, [a, b] => do
    let (rs, imm) ← p.memory b
    let rt ← p.register a
    return { rs, rt, imm }
  | .rsImm, [a, b] => do
    let rs ← p.register a
    let imm ← p.immediate 16 b
    return { rs, imm }
  | .target, [a] => do
    let target ← p.jumpTarget a
    return { target }
  | .code, [] => .ok {}
  | .code, [a] => do
    let code ← p.immediate 20 a
    return { code := code.setWidth 32 }
  | .empty, [] => .ok {}
  | _, _ => p.refuse (.operandCount mnemonic (arity shape) ops.length)

def mnemonicWord (p : Place) (m : Mnemonic) (ops : List (List Char)) : Except Error Word :=
  (operandFields p m.name.toList m.shape ops).map fun f =>
    match m with
    | .op o => (o.instruction f).encode
    | .nop => Instruction.nop.encode
    | .eret => Mnemonic.eretWord

def tokens (s : List Char) : List (List Char) := Text.fields (fun c => c == ',' || Text.isBlank c) s

def lineWord (l : Line) (pc : Word) (symbols : Symbols) : Except Error Word :=
  match tokens (leadingLabels l.text).2 with
  | [] => .error ⟨l.number, .danglingLabel (lastLabel l.text)⟩
  | name :: ops =>
    match Mnemonic.ofName? name with
    | none => .error ⟨l.number, .unknownMnemonic name⟩
    | some m => mnemonicWord ⟨l.number, pc, symbols⟩ m ops

def textWords (symbols : Symbols) (pc : Word) : List Line → Except Error (List Word)
  | [] => .ok []
  | l :: ls => do
    let w ← lineWord l pc symbols
    let ws ← textWords symbols (pc.add 4) ls
    return w :: ws

end Mips.Assembly
