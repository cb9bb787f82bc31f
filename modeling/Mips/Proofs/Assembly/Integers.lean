import Mips.Proofs.Assembly.Labels
import Mips.Proofs.Numeral.Meaning

namespace Mips.Assembly

open Numeral

/-- The magnitude of an integer literal: decimal digits, or hexadecimal digits behind their mark. -/
inductive IsMagnitude : List Char → Nat → Prop
  | decimal {s : List Char} {n : Nat} (means : Means 10 s n) : IsMagnitude s n
  | hexadecimal {mark : Char} {s : List Char} {n : Nat} (marked : mark = 'x' ∨ mark = 'X')
      (means : Means 16 s n) : IsMagnitude ('0' :: mark :: s) n

/-- An integer literal: a magnitude of at most 63 bits behind at most one sign. -/
inductive IsInteger : List Char → Int → Prop
  | unsigned {s : List Char} {n : Nat} (magnitude : IsMagnitude s n)
      (small : n ≤ 0x7FFFFFFFFFFFFFFF) : IsInteger s n
  | plus {s : List Char} {n : Nat} (magnitude : IsMagnitude s n)
      (small : n ≤ 0x7FFFFFFFFFFFFFFF) : IsInteger ('+' :: s) n
  | minus {s : List Char} {n : Nat} (magnitude : IsMagnitude s n)
      (small : n ≤ 0x7FFFFFFFFFFFFFFF) : IsInteger ('-' :: s) (-n)

def signOf (z : Int) : Char := if z < 0 then '-' else '+'

variable {s : List Char} {n : Nat} {z : Int}

theorem magnitude?_eq_some_iff :
    magnitude? s = some n ↔ IsMagnitude s n ∧ n ≤ 0x7FFFFFFFFFFFFFFF := by
  have read {base : Nat} (positive : 0 < base) {s : List Char} :
      valueUpTo? base maxMagnitude s = some n ↔ Means base s n ∧ n ≤ 0x7FFFFFFFFFFFFFFF :=
    valueUpTo?_eq_some_iff positive
  constructor
  · intro found
    unfold magnitude? at found
    split at found
    · obtain ⟨means, small⟩ := (read (by decide)).mp found
      exact ⟨.hexadecimal (.inl rfl) means, small⟩
    · obtain ⟨means, small⟩ := (read (by decide)).mp found
      exact ⟨.hexadecimal (.inr rfl) means, small⟩
    · obtain ⟨means, small⟩ := (read (by decide)).mp found
      exact ⟨.decimal means, small⟩
  · rintro ⟨magnitude, small⟩
    cases magnitude with
    | decimal means =>
      have digits := (read (by decide)).mpr ⟨means, small⟩
      unfold magnitude?
      split
      -- a radix mark is no decimal digit
      · cases digits
      · cases digits
      · exact digits
    | hexadecimal marked means =>
      rcases marked with rfl | rfl
      · exact (read (by decide)).mpr ⟨means, small⟩
      · exact (read (by decide)).mpr ⟨means, small⟩

theorem integer?_eq_some_iff : integer? s = some z ↔ IsInteger s z := by
  constructor
  · intro found
    have read {g : Int → Int} {r : List Char}
        (found : ((magnitude? r).map fun n => g (n : Int)) = some z) :
        ∃ n : Nat, IsMagnitude r n ∧ n ≤ 0x7FFFFFFFFFFFFFFF ∧ g n = z := by
      cases read : magnitude? r with
      | none =>
        rw [read] at found
        cases found
      | some n =>
        rw [read] at found
        obtain ⟨magnitude, small⟩ := magnitude?_eq_some_iff.mp read
        exact ⟨n, magnitude, small, Option.some.inj found⟩
    unfold integer? at found
    split at found
    · obtain ⟨n, magnitude, small, rfl⟩ := read found
      exact .minus magnitude small
    · obtain ⟨n, magnitude, small, rfl⟩ := read found
      exact .plus magnitude small
    · obtain ⟨n, magnitude, small, rfl⟩ := read found
      exact .unsigned magnitude small
  · intro literal
    cases literal with
    | unsigned magnitude small =>
      exact integer?_of_magnitude? (magnitude?_eq_some_iff.mpr ⟨magnitude, small⟩)
    | plus magnitude small =>
      rw [integer?, magnitude?_eq_some_iff.mpr ⟨magnitude, small⟩]
      rfl
    | minus magnitude small =>
      rw [integer?, magnitude?_eq_some_iff.mpr ⟨magnitude, small⟩]
      rfl

theorem integer?_signOf (magnitude : IsMagnitude s z.natAbs)
    (small : z.natAbs ≤ 0x7FFFFFFFFFFFFFFF) : integer? (signOf z :: s) = some z := by
  rw [integer?_eq_some_iff, signOf]
  split
  · have literal := IsInteger.minus magnitude small
    rwa [Int.ofNat_natAbs_of_nonpos (by omega), Int.neg_neg] at literal
  · have literal := IsInteger.plus magnitude small
    rwa [Int.natAbs_of_nonneg (by omega)] at literal

/-- A token is read as an integer exactly if it is a literal, which has at most one sign and a
magnitude of at most 63 bits. So every integer of 64 bits but the least is read back from its
decimal digits, with or without a plus sign, and from its sign and its hexadecimal digits, in small
or in capital letters; and the name of a label is never read as an integer. -/
theorem integer?_outcome (token : List Char) (z : Int) :
    (integer? token = some z ↔ IsInteger token z) ∧
      (-0x8000000000000000 < z → z < 0x8000000000000000 →
        integer? (signed z) = some z ∧ integer? (forcedSign z) = some z ∧
          integer? (signOf z :: hex z.natAbs) = some z ∧
            integer? (signOf z :: '0' :: 'x' :: (Nat.toDigits 16 z.natAbs).map Char.toUpper) =
              some z) ∧
      (isName token = true → integer? token = none) := by
  refine ⟨integer?_eq_some_iff, fun lower upper => ?_, integer?_of_isName⟩
  have small : z.natAbs ≤ 0x7FFFFFFFFFFFFFFF := by omega
  have digits : Means 16 (Nat.toDigits 16 z.natAbs) z.natAbs :=
    means_toDigits (by decide) (by decide) z.natAbs
  exact ⟨integer?_signed small, integer?_forcedSign small,
    integer?_signOf (.hexadecimal (.inl rfl) digits) small,
    integer?_signOf (.hexadecimal (.inl rfl) digits.toUpper) small⟩

theorem integer?_outcome_least :
    integer? "-9223372036854775807".toList = some (-0x7FFFFFFFFFFFFFFF) ∧
      integer? "-0x7FFFFFFFFFFFFFFF".toList = some (-0x7FFFFFFFFFFFFFFF) ∧
      integer? "-0X00fFa".toList = some (-0xFFA) ∧
      isName "xFF".toList = true ∧ integer? "xFF".toList = none := by
  obtain ⟨_, printed, _⟩ := integer?_outcome [] (-0x7FFFFFFFFFFFFFFF)
  obtain ⟨decimal, _, _, capitals⟩ := printed (by decide) (by decide)
  have inDecimal : signed (-0x7FFFFFFFFFFFFFFF) = "-9223372036854775807".toList := by
    decide +kernel
  have inCapitals : signOf (-0x7FFFFFFFFFFFFFFF) :: '0' :: 'x' ::
      (Nat.toDigits 16 (-0x7FFFFFFFFFFFFFFF : Int).natAbs).map Char.toUpper =
        "-0x7FFFFFFFFFFFFFFF".toList := by
    decide +kernel
  rw [inDecimal] at decimal
  rw [inCapitals] at capitals
  have digits : Means 16 "00fFa".toList 0xFFA := value?_eq_some_iff.mp (by decide)
  have literal : IsInteger "-0X00fFa".toList (-0xFFA) :=
    .minus (.hexadecimal (.inr rfl) digits) (by decide)
  have named : isName "xFF".toList = true := by decide
  exact ⟨decimal, capitals, (integer?_outcome _ _).1.mpr literal, named,
    (integer?_outcome _ 0).2.2 named⟩

end Mips.Assembly
