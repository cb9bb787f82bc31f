import Mips.Proofs.Memory.Words
import Mips.Hart

namespace Mips

theorem Cpu.pc_write (c : Cpu) (r : Register) (w : Word) : (c.write r w).pc = c.pc := by
  unfold write
  split <;> rfl

namespace Hart

theorem step_of_decode {h : Hart} {w : Word} {i : Instruction}
    (fetched : h.mem.readWord h.cpu.pc 4 = .ok w) (decoded : Instruction.decode w = some i) :
    h.step = (h.setPc (h.cpu.pc.add 4)).exec i := by
  simp only [step, fetched, decoded]

theorem pc_link (h : Hart) (links : Bool) : (h.link links).cpu.pc = h.cpu.pc := by
  unfold link
  split
  · exact Cpu.pc_write ..
  · rfl

def destination (pc : Word) (taken : Bool) (imm : BitVec 16) : Word :=
  if taken then (pc.add 4).add ((Word.extendHalf imm).shiftLeft 2) else pc.add 4

theorem pc_branch (h : Hart) {pc : Word} (next : h.cpu.pc = pc.add 4) (taken : Bool)
    (imm : BitVec 16) : (h.branch taken imm).cpu.pc = destination pc taken imm := by
  unfold branch destination
  split
  · rw [← next]
    rfl
  · exact next

theorem toNat_extendHalf (imm : BitVec 16) :
    ((Word.extendHalf imm).toNat : Int) = imm.toInt % 0x100000000 := by
  rw [Word.extendHalf_eq, BitVec.signExtend, BitVec.toNat_ofInt]
  exact Int.toNat_of_nonneg (Int.emod_nonneg _ (by decide))

theorem toNat_destination (pc : Word) (imm : BitVec 16) :
    ((destination pc true imm).toNat : Int) = (pc.toNat + 4 + 4 * imm.toInt) % 0x100000000 := by
  have extended := toNat_extendHalf imm
  simp only [destination, if_true, Word.add_eq, Word.shiftLeft_eq _ (by decide : 2 < 32),
    BitVec.toNat_add, BitVec.toNat_shiftLeft, Nat.shiftLeft_eq, BitVec.reduceToNat]
  omega

/-- Whether a distance in words can be held by the field of a branch. -/
def InReach (distance : Int) : Prop := -32768 ≤ distance ∧ distance ≤ 32767

instance (distance : Int) : Decidable (InReach distance) := inferInstanceAs (Decidable (_ ∧ _))

/-- The field of a branch holds the distance between two lines, as far as it fits. -/
theorem destination_slot {start : Word} {i k : Nat} (hi : i < 0x20000000) (hk : k < 0x20000000)
    {imm : BitVec 16}
    (held : (imm.toNat : Int) =
      (((Word.slot start k).toNat : Int) - ((Word.slot start i).toNat + 4)) / 4 % 0x10000) :
    destination (Word.slot start i) true imm = Word.slot start k ↔ InReach ((k : Int) - i - 1) := by
  have reached := toNat_destination (Word.slot start i) imm
  rw [Word.toNat_slot] at held reached
  rw [Word.toNat_slot] at held
  have lower : -32768 ≤ imm.toInt := BitVec.le_toInt imm
  have upper : imm.toInt < 32768 := BitVec.toInt_lt
  have residue := Word.toNat_eq_toInt_emod imm
  -- the start and the wrap at the end of the address space drop out of the difference
  have congruent : imm.toInt % 0x10000 = ((k : Int) - i - 1) % 0x10000 := by
    have bound := start.isLt
    omega
  unfold InReach
  constructor
  · intro same
    have target := congrArg BitVec.toNat same
    rw [Word.toNat_slot] at target
    omega
  · intro reach
    have exact : imm.toInt = (k : Int) - i - 1 := by omega
    apply BitVec.eq_of_toNat_eq
    rw [Word.toNat_slot]
    omega

theorem and_region (pc : Word) : pc &&& (0xF0000000 : Word) = pc >>> 28 <<< 28 := by
  have mask : ∀ i < 32, (0xF0000000 : Word).getLsbD i = decide (28 ≤ i) := by decide
  apply BitVec.eq_of_getLsbD_eq
  intro i hi
  rw [BitVec.getLsbD_and, mask i hi, BitVec.getLsbD_shiftLeft, BitVec.getLsbD_ushiftRight]
  by_cases high : 28 ≤ i
  · have place : 28 + (i - 28) = i := by omega
    simp [high, hi, place]
  · simp [high, hi]

theorem toNat_jumpAddress (pc : Word) {target : Word} (small : target.toNat < 0x4000000) :
    (jumpAddress pc target).toNat = pc.toNat / 0x10000000 * 0x10000000 + 4 * target.toNat := by
  have bound := pc.isLt
  have low : (target.shiftLeft 2).toNat = 4 * target.toNat := by
    rw [Word.shiftLeft_eq _ (by decide), BitVec.toNat_shiftLeft, Nat.shiftLeft_eq]
    omega
  have high : (pc >>> 28 <<< 28).toNat = (pc.toNat / 0x10000000) <<< 28 := by
    rw [BitVec.toNat_shiftLeft, BitVec.toNat_ushiftRight, Nat.shiftRight_eq_div_pow]
    simp only [Nat.shiftLeft_eq]
    omega
  rw [jumpAddress, and_region, BitVec.toNat_or, high, low, ← Nat.shiftLeft_add_eq_or_of_lt,
    Nat.shiftLeft_eq]
  omega

/-- A jump reaches the addresses of one region, those that its field counts in words. -/
theorem jumpAddress_eq_iff {pc target addr : Word} (small : target.toNat < 0x4000000) :
    jumpAddress pc target = addr ↔
      addr.toNat % 0x10000000 = 4 * target.toNat ∧
        addr.toNat / 0x10000000 = pc.toNat / 0x10000000 := by
  have reached := toNat_jumpAddress pc small
  constructor
  · rintro rfl
    omega
  · intro same
    apply BitVec.eq_of_toNat_eq
    omega

def region (addr : Word) : Nat := addr.toNat / 0x10000000

theorem read_ra_link (h : Hart) : (h.link true).cpu.read Register.ra = h.cpu.pc :=
  h.cpu.read_write_self (h.cpu.not_discards (by decide)) h.cpu.pc

theorem pc_jump (h : Hart) (op : Jump) (target : Word) :
    ∃ h', h.exec (.jump op target) = (h', none) ∧ h'.cpu.pc = jumpAddress h.cpu.pc target :=
  ⟨_, rfl, rfl⟩

end Hart
end Mips
