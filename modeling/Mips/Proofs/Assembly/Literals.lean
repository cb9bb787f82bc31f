import Mips.Proofs.Numeral.Digits
import Mips.Assembly.Literal

namespace Mips.Assembly

open Numeral

theorem valueUpTo?_eq_some {base limit n : Nat} {s : List Char} (positive : 0 < base)
    (read : value? base s = some n) (small : n ≤ limit) : valueUpTo? base limit s = some n := by
  rw [valueUpTo?_eq positive, read, Option.filter_some, if_pos (by simpa using small)]

theorem magnitude?_decimal {n : Nat} (small : n ≤ maxMagnitude) :
    magnitude? (decimal n) = some n := by
  have read : value? 10 (decimal n) = some n := value?_toDigits (by decide) (by decide) n
  unfold magnitude?
  split
  -- a radix mark is no decimal digit
  · rename_i marked
    rw [marked] at read
    cases read
  · rename_i marked
    rw [marked] at read
    cases read
  · exact valueUpTo?_eq_some (by decide) read small

theorem magnitude?_marked {n : Nat} {s : List Char} (read : value? 16 s = some n)
    (small : n ≤ maxMagnitude) : magnitude? ('0' :: 'x' :: s) = some n :=
  valueUpTo?_eq_some (by decide) read small

theorem integer?_of_magnitude? {n : Nat} {s : List Char} (read : magnitude? s = some n) :
    integer? s = some (n : Int) := by
  unfold integer?
  split
  · cases read
  · cases read
  · rw [read]
    rfl

theorem integer?_decimal {n : Nat} (small : n ≤ maxMagnitude) :
    integer? (decimal n) = some (n : Int) :=
  integer?_of_magnitude? (magnitude?_decimal small)

theorem integer?_hex {n : Nat} (small : n ≤ maxMagnitude) : integer? (hex n) = some (n : Int) :=
  integer?_of_magnitude? (magnitude?_marked (value?_toDigits (by decide) (by decide) n) small)

theorem integer?_hex8 {n : Nat} (small : n ≤ maxMagnitude) : integer? (hex8 n) = some (n : Int) :=
  integer?_of_magnitude? (magnitude?_marked (value?_leftpad (by decide) (by decide) 8 n) small)

theorem integer?_minus {n : Nat} (small : n ≤ maxMagnitude) :
    integer? ('-' :: decimal n) = some (-(n : Int)) := by
  rw [integer?, magnitude?_decimal small]
  rfl

theorem integer?_plus {n : Nat} (small : n ≤ maxMagnitude) :
    integer? ('+' :: decimal n) = some (n : Int) := by
  rw [integer?, magnitude?_decimal small]
  rfl

theorem integer?_signed {z : Int} (small : z.natAbs ≤ maxMagnitude) :
    integer? (signed z) = some z := by
  unfold signed
  split
  · rename_i negative
    rw [integer?_minus small, Int.ofNat_natAbs_of_nonpos (by omega), Int.neg_neg]
  · rename_i natural
    rw [integer?_decimal small, Int.natAbs_of_nonneg (by omega)]

theorem integer?_forcedSign {z : Int} (small : z.natAbs ≤ maxMagnitude) :
    integer? (forcedSign z) = some z := by
  unfold forcedSign
  split
  · rename_i negative
    rw [integer?_minus small, Int.ofNat_natAbs_of_nonpos (by omega), Int.neg_neg]
  · rename_i natural
    rw [integer?_plus small, Int.natAbs_of_nonneg (by omega)]

end Mips.Assembly
