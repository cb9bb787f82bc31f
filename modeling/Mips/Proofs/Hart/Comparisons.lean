import Mips.Proofs.Hart.Arithmetic
import Mips.Proofs.Hart.Transfer

namespace Mips

inductive Comparison
  | eq | ne | lt | ge | le | gt
  deriving DecidableEq

namespace Comparison

def Holds : Comparison → Int → Int → Prop
  | eq, x, y => x = y
  | ne, x, y => x ≠ y
  | lt, x, y => x < y
  | ge, x, y => y ≤ x
  | le, x, y => x ≤ y
  | gt, x, y => y < x

instance : (c : Comparison) → (x y : Int) → Decidable (c.Holds x y)
  | eq, x, y => inferInstanceAs (Decidable (x = y))
  | ne, x, y => inferInstanceAs (Decidable (x ≠ y))
  | lt, x, y => inferInstanceAs (Decidable (x < y))
  | ge, x, y => inferInstanceAs (Decidable (y ≤ x))
  | le, x, y => inferInstanceAs (Decidable (x ≤ y))
  | gt, x, y => inferInstanceAs (Decidable (y < x))

def opposite : Comparison → Comparison
  | eq => ne
  | ne => eq
  | lt => ge
  | ge => lt
  | le => gt
  | gt => le

theorem holds_opposite (c : Comparison) (x y : Int) : c.opposite.Holds x y ↔ ¬c.Holds x y := by
  cases c <;> simp [opposite, Holds]

end Comparison

namespace Word

inductive Reading
  | signed | unsigned
  deriving DecidableEq

namespace Reading

def number : Reading → Word → Int
  | signed, w => w.signed
  | unsigned, w => w.toNat

/-- The number that an immediate stands for: its sign is extended first in either reading. -/
def immediate : Reading → BitVec 16 → Int
  | signed, imm => imm.toInt
  | unsigned, imm => imm.toInt % 0x100000000

theorem number_extendHalf (r : Reading) (imm : BitVec 16) :
    r.number (extendHalf imm) = r.immediate imm := by
  cases r with
  | signed => exact signed_extendHalf imm
  | unsigned => exact Hart.toNat_extendHalf imm

end Reading

theorem signed_inj {a b : Word} : a.signed = b.signed ↔ a = b := BitVec.toInt_inj

theorem shiftLeft_extendHalf (imm : BitVec 16) :
    (extendHalf imm).shiftLeft 2 = ofInt (4 * imm.toInt) := by
  have extended := Hart.toNat_extendHalf imm
  have distance := toNat_ofInt (4 * imm.toInt)
  apply BitVec.eq_of_toNat_eq
  rw [shiftLeft_eq _ (by decide), BitVec.toNat_shiftLeft, Nat.shiftLeft_eq]
  omega

end Word

open Word (Reading)

/-- How an instruction reads its operands, and the relation that it tests. -/
def Op.comparison? : Op → Option (Reading × Comparison)
  | alu .slt | aluImm .slti | trap .lt | trapImm .lt => some (.signed, .lt)
  | alu .sltu | aluImm .sltiu | trap .ltu | trapImm .ltu => some (.unsigned, .lt)
  | trap .ge | trapImm .ge => some (.signed, .ge)
  | trap .geu | trapImm .geu => some (.unsigned, .ge)
  | trap .eq | trapImm .eq | branchPair .beq => some (.signed, .eq)
  | trap .ne | trapImm .ne | branchPair .bne => some (.signed, .ne)
  | branchZero .blez => some (.signed, .le)
  | branchZero .bgtz => some (.signed, .gt)
  | branchZero .bltz | branchZero .bltzal => some (.signed, .lt)
  | branchZero .bgez | branchZero .bgezal => some (.signed, .ge)
  | _ => none

/-- The operands of an instruction that compares. A branch on one register compares it with zero. -/
def Hart.operands (h : Hart) (r : Reading) : Instruction → Int × Int
  | .alu _ _ rs rt | .trap _ rs rt | .branchPair _ rs rt _ =>
    (r.number (h.cpu.read rs), r.number (h.cpu.read rt))
  | .aluImm _ _ rs imm | .trapImm _ rs imm => (r.number (h.cpu.read rs), r.immediate imm)
  | .branchZero _ rs _ => (r.number (h.cpu.read rs), 0)
  | _ => (0, 0)

def Hart.pcBehind (h : Hart) (taken : Bool) (imm : BitVec 16) : Word :=
  if taken then h.cpu.pc + Word.ofInt (4 * imm.toInt) else h.cpu.pc

/-- What an instruction does that compares, by the outcome: it puts one or zero into its
destination, traps or does nothing, goes to its target or to the next instruction. A branch that
links does so in either case. -/
def Hart.Decides (h : Hart) (holds : Bool) (i : Instruction) : Prop :=
  match i with
  | .alu _ rd _ _ | .aluImm _ rd _ _ => h.Puts i rd (if holds then 1 else 0)
  | .trap rel _ _ | .trapImm rel _ _ =>
    h.exec i = (h, if holds then some (.condition rel) else none)
  | .branchPair _ _ _ imm =>
    h.exec i = ({ h with cpu := { h.cpu with pc := h.pcBehind holds imm } }, none)
  | .branchZero op _ imm =>
    h.exec i = ({ h with cpu := { (h.link op.links).cpu with pc := h.pcBehind holds imm } }, none)
  | _ => h.exec i = (h, none)

/-- A comparison sets a register to one where a trap on it is taken and one on the opposite is not,
and to zero where it is the other way about. -/
def Hart.SetsAsTraps (h : Hart) (set : Alu) (below atLeast : Relation) : Prop :=
  ∀ rd rs rt : Register,
    (h.Puts (.alu set rd rs rt) rd 1 ∧
      h.exec (.trap below rs rt) = (h, some (.condition below)) ∧
      h.exec (.trap atLeast rs rt) = (h, none)) ∨
    (h.Puts (.alu set rd rs rt) rd 0 ∧
      h.exec (.trap below rs rt) = (h, none) ∧
      h.exec (.trap atLeast rs rt) = (h, some (.condition atLeast)))

inductive Instruction.Complementary : Instruction → Instruction → Prop
  | equal (rs rt : Register) (imm imm' : BitVec 16) :
    Complementary (.branchPair .beq rs rt imm) (.branchPair .bne rs rt imm')
  | positive (rs : Register) (imm imm' : BitVec 16) :
    Complementary (.branchZero .blez rs imm) (.branchZero .bgtz rs imm')
  | negative (rs : Register) (imm imm' : BitVec 16) :
    Complementary (.branchZero .bltz rs imm) (.branchZero .bgez rs imm')
  | linking (rs : Register) (imm imm' : BitVec 16) :
    Complementary (.branchZero .bltzal rs imm) (.branchZero .bgezal rs imm')

variable {r : Reading} {c : Comparison}

theorem Relation.holds_of_comparison? {rel : Relation}
    (tests : (Op.trap rel).comparison? = some (r, c)) (a b : Word) :
    rel.holds a b = decide (c.Holds (r.number a) (r.number b)) := by
  rw [Bool.eq_iff_iff, decide_eq_true_eq]
  cases rel <;> cases tests <;>
    simp [holds, Comparison.Holds, Reading.number, Word.signed_inj]

theorem Op.comparison?_trapImm (rel : Relation) :
    (trapImm rel).comparison? = (trap rel).comparison? := by
  cases rel <;> rfl

theorem Alu.result?_of_comparison? {op : Alu} (tests : (Op.alu op).comparison? = some (r, c))
    (a b : Word) :
    op.result? a b = some (if decide (c.Holds (r.number a) (r.number b)) then 1 else 0) := by
  cases op with
  | slt =>
    cases tests
    rfl
  | sltu =>
    cases tests
    simp only [result?, Word.ofBool, Comparison.Holds, Reading.number, Int.ofNat_lt]
  | _ => cases tests

theorem AluImm.operand_of_comparison? {op : AluImm}
    (tests : (Op.aluImm op).comparison? = some (r, c)) (imm : BitVec 16) :
    (Op.alu op.alu).comparison? = some (r, c) ∧ op.operand imm = Word.extendHalf imm := by
  cases op with
  | slti | sltiu => exact ⟨tests, rfl⟩
  | _ => cases tests

theorem BranchPair.taken_of_comparison? {op : BranchPair}
    (tests : (Op.branchPair op).comparison? = some (r, c)) (a b : Word) :
    op.taken a b = decide (c.Holds (r.number a) (r.number b)) := by
  rw [Bool.eq_iff_iff, decide_eq_true_eq]
  cases op <;> cases tests <;>
    simp [taken, Comparison.Holds, Reading.number, Word.signed_inj]

theorem BranchZero.taken_of_comparison? {op : BranchZero}
    (tests : (Op.branchZero op).comparison? = some (r, c)) (a : Word) :
    op.taken a = decide (c.Holds (r.number a) 0) := by
  rw [Bool.eq_iff_iff, decide_eq_true_eq]
  cases op <;> cases tests <;> simp [taken, Comparison.Holds, Reading.number]

namespace Hart

variable {h : Hart} {i : Instruction}

theorem branch_eq (h : Hart) (taken : Bool) (imm : BitVec 16) :
    h.branch taken imm = { h with cpu := { h.cpu with pc := h.pcBehind taken imm } } := by
  rw [branch, pcBehind, Word.shiftLeft_extendHalf]
  cases taken <;> rfl

theorem branch_link (h : Hart) (links taken : Bool) (imm : BitVec 16) :
    (h.link links).branch taken imm =
      { h with cpu := { (h.link links).cpu with pc := h.pcBehind taken imm } } := by
  rw [branch_eq, pcBehind, pcBehind, pc_link]
  cases links <;> rfl

theorem decides_of_comparison? (tests : i.op.comparison? = some (r, c)) :
    h.Decides (c.Holds (h.operands r i).1 (h.operands r i).2) i := by
  cases i with
  | alu op rd rs rt =>
    apply puts_iff.mpr
    rw [exec, Alu.result?_of_comparison? tests]
    rfl
  | aluImm op rd rs imm =>
    obtain ⟨tests, extended⟩ := AluImm.operand_of_comparison? tests imm
    apply puts_iff.mpr
    rw [exec, extended, Alu.result?_of_comparison? tests, Reading.number_extendHalf]
    rfl
  | trap rel rs rt =>
    rw [Decides, exec, Relation.holds_of_comparison? tests]
    rfl
  | trapImm rel rs imm =>
    rw [Instruction.op, Op.comparison?_trapImm] at tests
    rw [Decides, exec, Relation.holds_of_comparison? tests, Reading.number_extendHalf]
    rfl
  | branchPair op rs rt imm =>
    rw [Decides, exec, BranchPair.taken_of_comparison? tests, branch_eq]
    rfl
  | branchZero op rs imm =>
    rw [Decides, exec, BranchZero.taken_of_comparison? tests, branch_link]
    rfl
  | _ => cases tests

theorem decides_of_opposite (tests : i.op.comparison? = some (r, c.opposite)) :
    h.Decides (!decide (c.Holds (h.operands r i).1 (h.operands r i).2)) i := by
  rw [← decide_not, ← decide_eq_decide.mpr (c.holds_opposite _ _)]
  exact decides_of_comparison? tests

theorem setsAsTraps_of_comparison? (h : Hart) {set : Alu} {below atLeast : Relation}
    (sets : (Op.alu set).comparison? = some (r, .lt))
    (traps : (Op.trap below).comparison? = some (r, .lt))
    (opposes : (Op.trap atLeast).comparison? = some (r, .ge)) :
    h.SetsAsTraps set below atLeast := by
  intro rd rs rt
  have written := decides_of_comparison? (h := h) (i := .alu set rd rs rt) sets
  have trapped := decides_of_comparison? (h := h) (i := .trap below rs rt) traps
  have passed := decides_of_opposite (h := h) (i := .trap atLeast rs rt) (c := .lt) opposes
  by_cases less : Comparison.lt.Holds (r.number (h.cpu.read rs)) (r.number (h.cpu.read rt))
  · simp only [operands, less, decide_true, Bool.not_true] at written trapped passed
    exact .inl ⟨written, trapped, passed⟩
  · simp only [operands, less, decide_false, Bool.not_false] at written trapped passed
    exact .inr ⟨written, trapped, passed⟩

theorem exists_tests_of_complementary {j : Instruction} (pair : i.Complementary j) :
    ∃ r c, i.op.comparison? = some (r, c) ∧ j.op.comparison? = some (r, c.opposite) ∧
      h.operands r j = h.operands r i := by
  cases pair with
  | equal => exact ⟨.signed, .eq, rfl, rfl, rfl⟩
  | positive => exact ⟨.signed, .le, rfl, rfl, rfl⟩
  | negative => exact ⟨.signed, .lt, rfl, rfl, rfl⟩
  | linking => exact ⟨.signed, .lt, rfl, rfl, rfl⟩

theorem exists_taken_of_complementary {j : Instruction} (pair : i.Complementary j) :
    ∃ taken : Bool, h.Decides taken i ∧ h.Decides (!taken) j := by
  obtain ⟨r, c, tests, opposes, same⟩ := exists_tests_of_complementary (h := h) pair
  have opposed := decides_of_opposite (h := h) opposes
  rw [same] at opposed
  exact ⟨_, decides_of_comparison? tests, opposed⟩

/-- A comparing instruction decides a relation of its operands, read as signed or as unsigned
numbers. So a comparison that sets a register agrees with the traps, an immediate form does what the
form on two registers does where the second holds the immediate, and of two complementary branches
one is taken. -/
theorem exec_comparing (h : Hart) :
    (∀ i r c, i.op.comparison? = some (r, c) →
      h.Decides (c.Holds (h.operands r i).1 (h.operands r i).2) i) ∧
    h.SetsAsTraps .slt .lt .ge ∧ h.SetsAsTraps .sltu .ltu .geu ∧
    (∀ rs rt imm, (h.cpu.read rt).signed = imm.toInt →
      (∀ rd, h.exec (.aluImm .slti rd rs imm) = h.exec (.alu .slt rd rs rt)) ∧
      (∀ rd, h.exec (.aluImm .sltiu rd rs imm) = h.exec (.alu .sltu rd rs rt)) ∧
      ∀ rel, h.exec (.trapImm rel rs imm) = h.exec (.trap rel rs rt)) ∧
    ∀ i j, i.Complementary j →
      ∃ taken : Bool, h.Decides taken i ∧ h.Decides (!taken) j := by
  refine ⟨fun _ _ _ => decides_of_comparison?, h.setsAsTraps_of_comparison? rfl rfl rfl,
    h.setsAsTraps_of_comparison? rfl rfl rfl, fun rs rt imm same => ?_,
    fun _ _ => exists_taken_of_complementary⟩
  rw [← Word.signed_extendHalf, Word.signed_inj] at same
  refine ⟨fun rd => ?_, fun rd => ?_, fun rel => ?_⟩
  · rw [exec, exec, same]
    rfl
  · rw [exec, exec, same]
    rfl
  · rw [exec, exec, same]

theorem exec_comparing_across :
    ∃ h : Hart, h.cpu.read 8 = 0xFFFFFFFF ∧ h.cpu.read 9 = 1 ∧
      (h.exec (.alu .slt 2 8 9)).1.cpu.read 2 = 1 ∧
      (h.exec (.alu .sltu 2 8 9)).1.cpu.read 2 = 0 ∧
      h.exec (.trapImm .ltu 9 (-1)) = (h, some (.condition .ltu)) ∧
      h.exec (.trapImm .ltu 9 (-1)) = h.exec (.trap .ltu 9 8) := by
  obtain ⟨h, minus, one⟩ : ∃ h : Hart, h.cpu.read 8 = 0xFFFFFFFF ∧ h.cpu.read 9 = 1 :=
    ⟨⟨((Cpu.reset {} 0).write 8 0xFFFFFFFF).write 9 1, .empty {}⟩, by decide, by decide⟩
  obtain ⟨decides, _, _, immediate, _⟩ := exec_comparing h
  have set := decides (.alu .slt 2 8 9) .signed .lt rfl
  have unset := decides (.alu .sltu 2 8 9) .unsigned .lt rfl
  have trapped := decides (.trapImm .ltu 9 (-1)) .unsigned .lt rfl
  have held : (h.cpu.read 8).signed = (-1 : BitVec 16).toInt := by
    rw [minus]
    decide
  simp only [operands, minus, one] at set unset trapped
  have kept : ¬h.cpu.Discards 2 := h.cpu.not_discards (by decide)
  exact ⟨h, minus, one, set.value kept, unset.value kept, trapped,
    (immediate 9 8 (-1) held).2.2 .ltu⟩

end Hart
end Mips
