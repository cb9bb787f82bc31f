import Mips.Numeral.Int32
import Mips.Proofs.Numeral.Digits
import Mips.Proofs.Text.Cuts

namespace Mips.Numeral

variable {limit n v : Nat} {s : List Char}

theorem upTo_of_extend? (past : IntegerError) (read : extend? 10 n s = some v)
    (small : v ≤ limit) : upTo limit past n s = .ok v := by
  induction s generalizing n with
  | nil =>
    obtain rfl := Option.some.inj read
    rfl
  | cons c s ih =>
    obtain ⟨d, digit, read⟩ := Option.bind_eq_some_iff.mp read
    have below : ¬limit < n * 10 + d := by
      have := le_of_extend? (by decide) read
      omega
    simp only [upTo, digit, if_neg below, ih read]

theorem extend?_decimal (n : Nat) : extend? 10 0 (decimal n) = some n :=
  extend?_toDigits (by decide) (by decide) n

theorem isAlphanum_decimal (n : Nat) : ∀ c ∈ decimal n, c.isAlphanum = true :=
  isAlphanum_of_extend? (extend?_decimal n)

theorem int32_minus (small : n ≤ 0x80000000) : int32 ('-' :: decimal n) = .ok (-(n : Int)) := by
  obtain ⟨c, cs, digits⟩ : ∃ c cs, decimal n = c :: cs :=
    List.exists_cons_of_ne_nil Nat.toDigits_ne_nil
  have read := upTo_of_extend? .tooSmall (extend?_decimal n) small
  rw [digits] at read ⊢
  rw [int32, read]
  · rfl
  · nofun

theorem int32_decimal (small : n ≤ 0x7FFFFFFF) : int32 (decimal n) = .ok (n : Int) := by
  have read := upTo_of_extend? .tooLarge (extend?_decimal n) small
  have plain : ∀ c ∈ decimal n, c ≠ '+' ∧ c ≠ '-' := fun c there => by
    have clean := isAlphanum_decimal n c there
    constructor
    · rintro rfl
      cases clean
    · rintro rfl
      cases clean
  unfold int32
  split
  · rename_i none
    exact absurd none Nat.toDigits_ne_nil
  · rename_i signed
    exact absurd rfl (plain '+' (by simp [signed])).1
  · rename_i signed
    exact absurd rfl (plain '-' (by simp [signed])).2
  · rename_i signed
    exact absurd rfl (plain '-' (by simp [signed])).2
  · rename_i signed
    exact absurd rfl (plain '+' (by simp [signed])).1
  · rw [read]
    rfl

theorem int32_signed {z : Int} (lower : -0x80000000 ≤ z) (upper : z ≤ 0x7FFFFFFF) :
    int32 (signed z) = .ok z := by
  unfold signed
  split
  · rename_i negative
    rw [int32_minus (by omega), Int.ofNat_natAbs_of_nonpos (by omega), Int.neg_neg]
  · rw [int32_decimal (by omega), Int.natAbs_of_nonneg (by omega)]

theorem signed_ne_nil (z : Int) : signed z ≠ [] := by
  unfold signed
  split
  · exact List.cons_ne_nil _ _
  · exact Nat.toDigits_ne_nil

theorem isBlank_signed (z : Int) : ∀ c ∈ signed z, Text.isBlank c = false := by
  intro c there
  unfold signed at there
  split at there
  · rcases List.mem_cons.mp there with rfl | there
    · rfl
    · exact isBlank_of_isAlphanum (isAlphanum_decimal _ c there)
  · exact isBlank_of_isAlphanum (isAlphanum_decimal _ c there)

theorem trim_signed (z : Int) : Text.trim (signed z) = signed z :=
  Text.trim_of_clean (isBlank_signed z)

end Mips.Numeral
