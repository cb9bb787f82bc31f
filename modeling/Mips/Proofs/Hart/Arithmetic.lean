import Mips.Proofs.Hart.Updates

namespace Mips

namespace Word

/-- Whether an integer is the signed reading of a word. -/
def InRange (z : Int) : Prop := -0x80000000 ≤ z ∧ z ≤ 0x7FFFFFFF

theorem ofInt?_of_inRange {z : Int} (fits : InRange z) : ofInt? z = some (ofInt z) := if_pos fits

theorem ofInt?_of_not_inRange {z : Int} (outside : ¬InRange z) : ofInt? z = none := if_neg outside

theorem signed_ofInt {z : Int} (fits : InRange z) : signed (ofInt z) = z :=
  ofInt?_eq_some_iff.mp (ofInt?_of_inRange fits)

theorem toNat_ofInt (z : Int) : ((ofInt z).toNat : Int) = z % 0x100000000 := by
  rw [ofInt_eq, BitVec.toNat_ofInt]
  exact Int.toNat_of_nonneg (Int.emod_nonneg z (by decide))

theorem signed_extendHalf (imm : BitVec 16) : signed (extendHalf imm) = imm.toInt := by
  rw [signed_eq, extendHalf_eq, BitVec.toInt_signExtend_of_le (by decide)]

theorem add_eq_ofInt (a b : Word) : a.add b = ofInt (a.signed + b.signed) := by
  simp only [add_eq, ofInt_eq, signed_eq, BitVec.ofInt_add, BitVec.ofInt_toInt]

theorem sub_eq_ofInt (a b : Word) : a.sub b = ofInt (a.signed - b.signed) := by
  simp only [sub_eq, ofInt_eq, signed_eq, Int.sub_eq_add_neg, BitVec.ofInt_add, BitVec.ofInt_neg,
    BitVec.ofInt_toInt, BitVec.sub_eq_add_neg]

theorem high_join (hi lo : Word) : high (join hi lo) = hi := by
  have bound := lo.isLt
  apply BitVec.eq_of_toNat_eq
  rw [toNat_high, toNat_join]
  omega

theorem low_join (hi lo : Word) : low (join hi lo) = lo := by
  have bound := lo.isLt
  apply BitVec.eq_of_toNat_eq
  rw [toNat_low, toNat_join]
  omega

end Word

/-- A sum or a difference that has a form which traps on overflow and one which wraps. -/
inductive Additive
  | add (rd rs rt : Register)
  | addi (rt rs : Register) (imm : BitVec 16)
  | sub (rd rs rt : Register)

namespace Additive

def trapping : Additive → Instruction
  | add rd rs rt => .alu .add rd rs rt
  | addi rt rs imm => .aluImm .addi rt rs imm
  | sub rd rs rt => .alu .sub rd rs rt

def wrapping : Additive → Instruction
  | add rd rs rt => .alu .addu rd rs rt
  | addi rt rs imm => .aluImm .addiu rt rs imm
  | sub rd rs rt => .alu .subu rd rs rt

def dest : Additive → Register
  | add rd _ _ => rd
  | addi rt _ _ => rt
  | sub rd _ _ => rd

def value (h : Hart) : Additive → Int
  | add _ rs rt => (h.cpu.read rs).signed + (h.cpu.read rt).signed
  | addi _ rs imm => (h.cpu.read rs).signed + imm.toInt
  | sub _ rs rt => (h.cpu.read rs).signed - (h.cpu.read rt).signed

end Additive

namespace Hart

theorem exec_trapping (h : Hart) (s : Additive) :
    h.exec s.trapping =
      match Word.ofInt? (s.value h) with
      | some w => (h.write s.dest w, none)
      | none => (h, some .overflow) := by
  cases s with
  | add rd rs rt => rfl
  | addi rt rs imm =>
    rw [Additive.value, ← Word.signed_extendHalf]
    rfl
  | sub rd rs rt => rfl

theorem exec_wrapping (h : Hart) (s : Additive) :
    h.exec s.wrapping = (h.write s.dest (Word.ofInt (s.value h)), none) := by
  cases s with
  | add rd rs rt =>
    rw [Additive.value, ← Word.add_eq_ofInt]
    rfl
  | addi rt rs imm =>
    rw [Additive.value, ← Word.signed_extendHalf, ← Word.add_eq_ofInt]
    rfl
  | sub rd rs rt =>
    rw [Additive.value, ← Word.sub_eq_ofInt]
    rfl

/-- A trapping sum or difference overflows where its exact result is the reading of no word, and is
exact elsewhere. A wrapping one always comes to the result modulo `2 ^ 32`, so that it leaves the
same state wherever the trapping one leaves one. -/
theorem exec_additive (h : Hart) (s : Additive) :
    (h.exec s.trapping = (h, some .overflow) ↔ ¬Word.InRange (s.value h)) ∧
    (Word.InRange (s.value h) → ∃ w, w.signed = s.value h ∧ h.Puts s.trapping s.dest w) ∧
    (∃ w : Word, (w.toNat : Int) = s.value h % 0x100000000 ∧ h.Puts s.wrapping s.dest w) ∧
    ∀ h', h.exec s.trapping = (h', none) → h.exec s.wrapping = (h', none) := by
  have wraps := h.exec_wrapping s
  have wrapped := puts_iff.mpr wraps
  by_cases fits : Word.InRange (s.value h)
  · have done : h.exec s.trapping = (h.write s.dest (Word.ofInt (s.value h)), none) := by
      rw [exec_trapping, Word.ofInt?_of_inRange fits]
    refine ⟨?_, ?_, ?_, ?_⟩
    · simp [done, fits]
    · intro _
      exact ⟨_, Word.signed_ofInt fits, puts_iff.mpr done⟩
    · exact ⟨_, Word.toNat_ofInt _, wrapped⟩
    · intro h' same
      rw [wraps, ← done, same]
  · have trapped : h.exec s.trapping = (h, some .overflow) := by
      rw [exec_trapping, Word.ofInt?_of_not_inRange fits]
    refine ⟨?_, ?_, ?_, ?_⟩
    · simp [trapped, fits]
    · exact fun inside => absurd inside fits
    · exact ⟨_, Word.toNat_ofInt _, wrapped⟩
    · intro h' same
      rw [trapped] at same
      cases same

end Hart

structure Word.Quotient (n d q r : Word) : Prop where
  eq : n.toNat = q.toNat * d.toNat + r.toNat
  lt : r.toNat < d.toNat

/-- Quotient and remainder of the signed readings, the quotient rounded toward zero. -/
structure Word.SignedQuotient (n d q r : Word) : Prop where
  eq : n.signed = q.signed * d.signed + r.signed
  lt : r.signed.natAbs < d.signed.natAbs
  sign : r.signed = 0 ∨ r.signed.sign = n.signed.sign

/-- The one quotient of words that no word has for its signed reading. -/
def Word.QuotientOverflows (n d : Word) : Prop := n.signed = -0x80000000 ∧ d.signed = -1

namespace Word

variable {n d : Word}

theorem toNat_pos_of_ne_zero (divisor : d ≠ 0) : 0 < d.toNat :=
  Nat.pos_of_ne_zero fun zero => divisor (BitVec.eq_of_toNat_eq zero)

theorem signed_ne_zero (divisor : d ≠ 0) : d.signed ≠ 0 := fun zero =>
  divisor (BitVec.eq_of_toInt_eq zero)

theorem quotient_div (divisor : d ≠ 0) : Quotient n d (n / d) (n % d) := by
  constructor
  · rw [BitVec.toNat_udiv, BitVec.toNat_umod]
    exact (Nat.div_add_mod' ..).symm
  · rw [BitVec.toNat_umod]
    exact Nat.mod_lt _ (toNat_pos_of_ne_zero divisor)

theorem signed_signedRem (n d : Word) : (n.signedRem d).signed = n.signed.tmod d.signed :=
  BitVec.toInt_srem n d

theorem signed_signedDiv (fits : ¬QuotientOverflows n d) :
    (n.signedDiv d).signed = n.signed.tdiv d.signed := by
  apply BitVec.toInt_sdiv_of_ne_or_ne n d
  by_cases least : n = BitVec.intMin 32
  · right
    rintro rfl
    exact fits ⟨congrArg signed least, rfl⟩
  · exact .inl least

theorem signedQuotient_signedDiv (divisor : d ≠ 0) (fits : ¬QuotientOverflows n d) :
    SignedQuotient n d (n.signedDiv d) (n.signedRem d) := by
  constructor
  · rw [signed_signedDiv fits, signed_signedRem]
    exact (Int.tdiv_mul_add_tmod ..).symm
  · rw [signed_signedRem, Int.natAbs_tmod]
    exact Nat.mod_lt _ (Int.natAbs_pos.mpr (signed_ne_zero divisor))
  · rw [signed_signedRem, Int.sign_tmod]
    split
    · rename_i divides
      exact .inl (Int.tmod_eq_zero_of_dvd divides)
    · exact .inr rfl

example : signedDiv (-7) 2 = -3 ∧ signedRem (-7) 2 = -1 := by decide

theorem signedDiv_of_overflows (overflows : QuotientOverflows n d) :
    (n.signedDiv d).signed = -0x80000000 ∧ (n.signedRem d).signed = 0 := by
  obtain rfl : n = BitVec.intMin 32 := BitVec.eq_of_toInt_eq overflows.1
  obtain rfl : d = -1 := BitVec.eq_of_toInt_eq overflows.2
  decide

end Word

namespace Hart

def withHalves (h : Hart) (hi lo : Word) : Hart :=
  { h with cpu := { h.cpu with hi := hi, lo := lo } }

theorem exec_mulDiv (h : Hart) (op : MulDiv) (rs rt : Register) {hi lo : Word}
    (result : op.result h.cpu.product (h.cpu.read rs) (h.cpu.read rt) = Word.join hi lo) :
    h.exec (.mulDiv op rs rt) = (h.withHalves hi lo, none) := by
  rw [exec, result, Cpu.setProduct, Word.high_join, Word.low_join]
  rfl

/-- Divisions never trap: one by zero leaves the state alone, and any other leaves quotient and
remainder in `LO` and `HI`. The quotient that does not fit wraps. -/
theorem exec_quotients (h : Hart) (rs rt : Register) :
    (h.cpu.read rt = 0 →
      h.exec (.mulDiv .divu rs rt) = (h, none) ∧ h.exec (.mulDiv .div rs rt) = (h, none)) ∧
    (h.cpu.read rt ≠ 0 →
      (∃ q r, Word.Quotient (h.cpu.read rs) (h.cpu.read rt) q r ∧
        h.exec (.mulDiv .divu rs rt) = (h.withHalves r q, none)) ∧
      ∃ q r, h.exec (.mulDiv .div rs rt) = (h.withHalves r q, none) ∧
        (Word.QuotientOverflows (h.cpu.read rs) (h.cpu.read rt) →
          q.signed = -0x80000000 ∧ r.signed = 0) ∧
        (¬Word.QuotientOverflows (h.cpu.read rs) (h.cpu.read rt) →
          Word.SignedQuotient (h.cpu.read rs) (h.cpu.read rt) q r)) := by
  constructor
  · intro zero
    exact ⟨h.exec_mulDiv _ _ _ (if_pos zero), h.exec_mulDiv _ _ _ (if_pos zero)⟩
  · intro divisor
    constructor
    · exact ⟨_, _, Word.quotient_div divisor, h.exec_mulDiv _ _ _ (if_neg divisor)⟩
    · exact ⟨_, _, h.exec_mulDiv _ _ _ (if_neg divisor), Word.signedDiv_of_overflows,
        Word.signedQuotient_signedDiv divisor⟩

end Hart
end Mips
