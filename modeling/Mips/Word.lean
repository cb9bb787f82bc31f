/-!
Machine words and their arithmetic. It is that of the fixed-width integers, which compute no power
of two, and each operation equals the one on bit vectors. Main statements: those equations;
`ofInt?_eq_some_iff`, an integer is held by the word that reads as it; and `join_high_low`, a
double word is made of its halves.
-/
namespace Mips

abbrev Word := BitVec 32

namespace Word

/-- The word of a number, modulo `2 ^ 32`. -/
@[inline] def ofNat (n : Nat) : Word := (UInt32.ofNat n).toBitVec

/-- The word of an integer, modulo `2 ^ 32`. -/
@[inline] def ofInt (z : Int) : Word := (Int32.ofInt z).toBitVec

@[inline] def signed (w : Word) : Int := (Int32.ofBitVec w).toInt

def ofInt? (z : Int) : Option Word :=
  if -0x80000000 ≤ z ∧ z ≤ 0x7FFFFFFF then some (ofInt z) else none

@[inline] def add (a b : Word) : Word := (UInt32.ofBitVec a + UInt32.ofBitVec b).toBitVec

@[inline] def sub (a b : Word) : Word := (UInt32.ofBitVec a - UInt32.ofBitVec b).toBitVec

@[inline] def mul (a b : Word) : Word := (UInt32.ofBitVec a * UInt32.ofBitVec b).toBitVec

@[inline] def complement (a : Word) : Word := (~~~(UInt32.ofBitVec a)).toBitVec

@[inline] def shiftLeft (a : Word) (n : Nat) : Word :=
  (UInt32.ofBitVec a <<< UInt32.ofNat n).toBitVec

def shiftRightSigned (a : Word) (n : Nat) : Word := ofInt (signed a >>> n)

def signedDiv (a b : Word) : Word := (Int32.ofBitVec a / Int32.ofBitVec b).toBitVec

/-- The remainder of the signed readings. It has the sign of the dividend. -/
def signedRem (a b : Word) : Word := (Int32.ofBitVec a % Int32.ofBitVec b).toBitVec

@[inline] def extendByte (x : BitVec 8) : Word := (Int8.ofBitVec x).toInt32.toBitVec

@[inline] def extendHalf (x : BitVec 16) : Word := (Int16.ofBitVec x).toInt32.toBitVec

@[inline] def lowByte (w : Word) : BitVec 8 := (UInt32.ofBitVec w).toUInt8.toBitVec

@[inline] def lowHalf (w : Word) : BitVec 16 := (UInt32.ofBitVec w).toUInt16.toBitVec

@[inline] def product (a b : Word) : UInt64 :=
  (UInt32.ofBitVec a).toUInt64 * (UInt32.ofBitVec b).toUInt64

@[inline] def signedProduct (a b : Word) : UInt64 :=
  ((Int32.ofBitVec a).toInt64 * (Int32.ofBitVec b).toInt64).toUInt64

@[inline] def join (high low : Word) : UInt64 :=
  (UInt32.ofBitVec high).toUInt64 * 0x100000000 + (UInt32.ofBitVec low).toUInt64

@[inline] def high (d : UInt64) : Word := (d >>> 32).toUInt32.toBitVec

@[inline] def low (d : UInt64) : Word := d.toUInt32.toBitVec

theorem ofNat_eq (n : Nat) : ofNat n = BitVec.ofNat 32 n := rfl

theorem ofInt_eq (z : Int) : ofInt z = BitVec.ofInt 32 z := rfl

theorem signed_eq (w : Word) : signed w = w.toInt := rfl

theorem ofInt?_eq_some_iff {z : Int} {w : Word} : ofInt? z = some w ↔ signed w = z := by
  have lower := w.le_toInt
  have upper := w.toInt_lt
  unfold ofInt?
  rw [ofInt_eq, signed_eq]
  constructor
  · intro h
    split at h
    · cases h
      rw [BitVec.toInt_ofInt]
      exact Int.bmod_eq_of_le (by omega) (by omega)
    · cases h
  · intro h
    subst h
    rw [if_pos (by omega), BitVec.ofInt_toInt]

theorem add_eq (a b : Word) : add a b = a + b := rfl

theorem sub_eq (a b : Word) : sub a b = a - b := rfl

theorem mul_eq (a b : Word) : mul a b = a * b := rfl

theorem shiftLeft_eq (a : Word) {n : Nat} (h : n < 32) : shiftLeft a n = a <<< n := by
  have places : n % 0x100000000 % 32 = n := by omega
  simp [shiftLeft, places]

theorem extendByte_eq (x : BitVec 8) : extendByte x = x.signExtend 32 := rfl

theorem extendHalf_eq (x : BitVec 16) : extendHalf x = x.signExtend 32 := rfl

theorem lowByte_eq (w : Word) : lowByte w = w.setWidth 8 := rfl

theorem lowHalf_eq (w : Word) : lowHalf w = w.setWidth 16 := rfl

theorem toBitVec_product (a b : Word) :
    (product a b).toBitVec = a.setWidth 64 * b.setWidth 64 := rfl

theorem toBitVec_signedProduct (a b : Word) :
    (signedProduct a b).toBitVec = a.signExtend 64 * b.signExtend 64 := rfl

theorem toNat_join (h l : Word) : (join h l).toNat = h.toNat * 0x100000000 + l.toNat := by
  have hh := h.isLt
  have hl := l.isLt
  simp only [join, UInt64.toNat_add, UInt64.toNat_mul, UInt32.toNat_toUInt64, UInt32.toNat_ofBitVec,
    UInt64.reduceToNat]
  omega

theorem toNat_high (d : UInt64) : (high d).toNat = d.toNat / 0x100000000 := by
  have hd := d.toNat_lt
  simp only [high, UInt32.toNat_toBitVec, UInt64.toNat_toUInt32, UInt64.toNat_shiftRight,
    UInt64.reduceToNat, Nat.shiftRight_eq_div_pow, Nat.reduceMod, Nat.reducePow]
  omega

theorem toNat_low (d : UInt64) : (low d).toNat = d.toNat % 0x100000000 :=
  UInt64.toNat_toUInt32 d

theorem join_high_low (d : UInt64) : join (high d) (low d) = d := by
  apply UInt64.toNat.inj
  rw [toNat_join, toNat_high, toNat_low]
  omega

end Word
end Mips
