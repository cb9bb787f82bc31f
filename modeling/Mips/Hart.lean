import Mips.Cpu
import Mips.Instruction.Encoding
import Mips.Semantics
import Mips.Trap

namespace Mips

structure Hart where
  cpu : Cpu
  mem : Memory

namespace Hart

@[inline] def write (h : Hart) (r : Register) (w : Word) : Hart := { h with cpu := h.cpu.write r w }

@[inline] def setPc (h : Hart) (pc : Word) : Hart := { h with cpu := { h.cpu with pc := pc } }

@[inline] def attempt (h : Hart) : Except Trap Hart → Hart × Option Trap
  | .ok h' => (h', none)
  | .error t => (h, some t)

@[inline] def effective (h : Hart) (rs : Register) (imm : BitVec 16) : Word :=
  (h.cpu.read rs).add (Word.extendHalf imm)

/-- Reads `width` bytes at an address that must be a multiple of the width. -/
def loadAt (h : Hart) (addr : Word) (width : Nat) : Except Trap Word :=
  if addr.toNat % width = 0 then (h.mem.readWord addr width).mapError (Trap.bus addr)
  else .error (.unaligned addr)

def storeAt (h : Hart) (addr : Word) (width : Nat) (w : Word) : Except Trap Hart :=
  if addr.toNat % width = 0 then
    ((h.mem.writeWord addr width w).mapError (Trap.bus addr)).map fun m => { h with mem := m }
  else .error (.unaligned addr)

/-- The word that a store writes: the register itself, or its join with what memory holds. -/
def stored (h : Hart) (op : Store) (rt : Register) (addr : Word) : Except Trap Word :=
  match op.merge? with
  | none => .ok (h.cpu.read rt)
  | some merge => (h.loadAt (op.place addr) 4).map (merge (h.cpu.read rt) · addr)

def load (h : Hart) (op : Load) (rt : Register) (addr : Word) : Except Trap Hart :=
  (h.loadAt (op.place addr) op.width).map fun w =>
    h.write rt (op.result (h.cpu.read rt) w addr)

/-- A store of a register. The link of a conditional store is never broken, so it always reports
success. -/
def store (h : Hart) (op : Store) (rt : Register) (addr : Word) : Except Trap Hart :=
  (h.stored op rt addr).bind fun w =>
    (h.storeAt (op.place addr) op.width w).map fun h' => if op = .sc then h'.write rt 1 else h'

@[inline] def branch (h : Hart) (taken : Bool) (imm : BitVec 16) : Hart :=
  if taken then h.setPc (h.cpu.pc.add ((Word.extendHalf imm).shiftLeft 2)) else h

@[inline] def link (h : Hart) (links : Bool) : Hart :=
  if links then h.write Register.ra h.cpu.pc else h

/-- The address of a jump: a field of 28 bits within the region of the next instruction. -/
def jumpAddress (pc target : Word) : Word := (pc &&& 0xF0000000) ||| target.shiftLeft 2

/-- Executes an instruction. The program counter already points at the next one. -/
def exec (h : Hart) (i : Instruction) : Hart × Option Trap :=
  match i with
  | .alu op rd rs rt =>
    match op.result? (h.cpu.read rs) (h.cpu.read rt) with
    | some w => (h.write rd w, none)
    | none => (h, some .overflow)
  | .aluImm op rt rs imm =>
    match op.alu.result? (h.cpu.read rs) (op.operand imm) with
    | some w => (h.write rt w, none)
    | none => (h, some .overflow)
  | .lui rt imm => (h.write rt (Word.ofNat (imm.toNat * 0x10000)), none)
  | .shift op rd rt shamt => (h.write rd (op.result (h.cpu.read rt) (shamt.toNat % 32)), none)
  | .shiftVar op rd rt rs =>
    (h.write rd (op.result (h.cpu.read rt) ((h.cpu.read rs).toNat % 32)), none)
  | .mulDiv op rs rt =>
    ({ h with cpu := h.cpu.setProduct (op.result h.cpu.product (h.cpu.read rs) (h.cpu.read rt)) },
      none)
  | .moveFrom .hi rd => (h.write rd h.cpu.hi, none)
  | .moveFrom .lo rd => (h.write rd h.cpu.lo, none)
  | .moveTo .hi rs => ({ h with cpu := { h.cpu with hi := h.cpu.read rs } }, none)
  | .moveTo .lo rs => ({ h with cpu := { h.cpu with lo := h.cpu.read rs } }, none)
  | .count op rd rs => (h.write rd (op.result (h.cpu.read rs)), none)
  | .trap rel rs rt =>
    (h, if rel.holds (h.cpu.read rs) (h.cpu.read rt) then some (.condition rel) else none)
  | .trapImm rel rs imm =>
    (h, if rel.holds (h.cpu.read rs) (Word.extendHalf imm) then some (.condition rel) else none)
  | .breakpoint code => (h, some (.breakpoint code))
  | .syscall => (h, some .syscall)
  | .jr rs => (h.setPc (h.cpu.read rs), none)
  | .jalr rd rs => ((h.write rd h.cpu.pc).setPc (h.cpu.read rs), none)
  | .jump op target => ((h.link op.links).setPc (jumpAddress h.cpu.pc target), none)
  | .branchPair op rs rt imm =>
    (h.branch (op.taken (h.cpu.read rs) (h.cpu.read rt)) imm, none)
  | .branchZero op rs imm =>
    ((h.link op.links).branch (op.taken (h.cpu.read rs)) imm, none)
  | .load op rt rs imm => h.attempt (h.load op rt (h.effective rs imm))
  | .store op rt rs imm => h.attempt (h.store op rt (h.effective rs imm))

/-- Fetches, decodes and executes the instruction at the program counter, which advances once the
word has been decoded. -/
def step (h : Hart) : Hart × Option Trap :=
  match h.mem.readWord h.cpu.pc 4 with
  | .error e => (h, some (.bus h.cpu.pc e))
  | .ok w =>
    match Instruction.decode w with
    | none => (h, some (.illegalInstruction w))
    | some i => (h.setPc (h.cpu.pc.add 4)).exec i

end Hart
end Mips
