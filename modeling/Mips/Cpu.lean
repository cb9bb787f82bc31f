import Mips.Register

namespace Mips

structure Cpu.Settings where
  hardwiredZero : Bool := true
  initialSp : Word := 0x00A00000
  deriving DecidableEq, Repr

structure Cpu where
  pc : Word
  gpr : Vector Word 32
  hi : Word
  lo : Word
  settings : Cpu.Settings
  deriving DecidableEq

namespace Cpu

def reset (settings : Cpu.Settings) (pc : Word) : Cpu where
  pc := pc
  gpr := (Vector.replicate 32 0).set Register.sp.index settings.initialSp
  hi := 0
  lo := 0
  settings := settings

@[inline] def read (c : Cpu) (r : Register) : Word := c.gpr[r.index]

/-- The processor with a register written. The number zero, not the place it stands for, is what a
hardwired zero guards. -/
@[inline] def write (c : Cpu) (r : Register) (w : Word) : Cpu :=
  if r = 0 ∧ c.settings.hardwiredZero then c else { c with gpr := c.gpr.set r.index w }

@[inline] def product (c : Cpu) : UInt64 := Word.join c.hi c.lo

@[inline] def setProduct (c : Cpu) (p : UInt64) : Cpu :=
  { c with hi := Word.high p, lo := Word.low p }

theorem read_write (c : Cpu) (r s : Register) (w : Word) :
    (c.write r w).read s =
      if (r = 0 ∧ c.settings.hardwiredZero) ∨ r.index ≠ s.index then c.read s else w := by
  unfold write read
  by_cases h : r = 0 ∧ c.settings.hardwiredZero
  · rw [if_pos h, if_pos (Or.inl h)]
  · rw [if_neg h]
    by_cases hi : r.index = s.index
    · rw [if_neg (fun e => e.elim h (· hi))]
      simp [hi]
    · have hv : r.index.val ≠ s.index.val := fun e => hi (Fin.ext e)
      rw [if_pos (Or.inr hi)]
      simp [hv]

def Discards (c : Cpu) (r : Register) : Prop := r = 0 ∧ c.settings.hardwiredZero

theorem not_discards (c : Cpu) {r : Register} (other : r ≠ 0) : ¬c.Discards r :=
  fun lost => other lost.1

theorem read_write_self (c : Cpu) {r : Register} (kept : ¬c.Discards r) (w : Word) :
    (c.write r w).read r = w := by
  rw [read_write, if_neg]
  rintro (lost | differs)
  · exact kept lost
  · exact differs rfl

theorem product_setProduct (c : Cpu) (p : UInt64) : (c.setProduct p).product = p :=
  Word.join_high_low p

end Cpu
end Mips
