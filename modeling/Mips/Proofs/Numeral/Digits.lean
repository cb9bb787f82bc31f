import Mips.Numeral
import Mips.Text.Blank
import Mathlib.Data.Nat.Digits.Defs

namespace Mips

namespace Numeral

theorem isAlphanum_iff {c : Char} :
    c.isAlphanum = true ↔ ((65 ≤ c.toNat ∧ c.toNat ≤ 90) ∨ (97 ≤ c.toNat ∧ c.toNat ≤ 122)) ∨
      (48 ≤ c.toNat ∧ c.toNat ≤ 57) := by
  unfold Char.isAlphanum Char.isAlpha Char.isUpper Char.isLower Char.isDigit
  simp only [Bool.or_eq_true, Bool.and_eq_true, decide_eq_true_eq, ge_iff_le,
    UInt32.le_iff_toNat_le]
  exact Iff.rfl

theorem isBlank_of_isAlphanum {c : Char} (hc : c.isAlphanum = true) : Text.isBlank c = false := by
  rw [isAlphanum_iff] at hc
  simp only [Text.isBlank, Bool.or_eq_false_iff, Bool.and_eq_false_iff, decide_eq_false_iff_not,
    beq_eq_false_iff_ne]
  omega

theorem isAlphanum_of_digit? {base d : Nat} {c : Char} (h : digit? base c = some d) :
    c.isAlphanum = true := by
  have valued : digitValue? c = some d := (Option.filter_eq_some_iff.mp h).1
  rw [isAlphanum_iff]
  unfold digitValue? at valued
  split at valued
  · exact .inr ‹_›
  · split at valued
    · exact .inl (.inr (by omega))
    · split at valued
      · exact .inl (.inl (by omega))
      · cases valued

theorem isAlphanum_of_extend? {base n v : Nat} {s : List Char} (h : extend? base n s = some v) :
    ∀ c ∈ s, c.isAlphanum = true := by
  induction s generalizing n with
  | nil => nofun
  | cons c s ih =>
    obtain ⟨d, hd, h⟩ := Option.bind_eq_some_iff.mp h
    exact List.forall_mem_cons.mpr ⟨isAlphanum_of_digit? hd, ih h⟩

theorem isAlphanum_of_value? {base n : Nat} {s : List Char} (h : value? base s = some n) :
    ∀ c ∈ s, c.isAlphanum = true := by
  cases s with
  | nil => nofun
  | cons c s => exact isAlphanum_of_extend? h

theorem extend?_zeros {base : Nat} (positive : 0 < base) (k : Nat) (s : List Char) :
    extend? base 0 (List.replicate k '0' ++ s) = extend? base 0 s := by
  induction k with
  | zero => rfl
  | succ k ih =>
    have zero : digit? base '0' = some 0 := by
      have valued : digitValue? '0' = some 0 := by decide
      simp [digit?, valued, positive]
    rw [List.replicate_succ, List.cons_append, extend?, zero, Option.bind_some, Nat.zero_mul, ih]

theorem value?_leftpad {base : Nat} (h1 : 1 < base) (h16 : base ≤ 16) (width n : Nat) :
    value? base ((Nat.toDigits base n).leftpad width '0') = some n := by
  rw [List.leftpad]
  have read := extend?_toDigits h1 h16 n
  rw [← extend?_zeros (by omega) (width - (Nat.toDigits base n).length)] at read
  cases padded : List.replicate (width - (Nat.toDigits base n).length) '0' ++
      Nat.toDigits base n with
  | nil => exact absurd (List.append_eq_nil_iff.mp padded).2 Nat.toDigits_ne_nil
  | cons c cs => rwa [padded] at read

theorem eq_of_digit? {base d : Nat} {c c' : Char} (small : base ≤ 10) (h : digit? base c = some d)
    (h' : digit? base c' = some d) : c = c' := by
  have figure : ∀ c : Char, digit? base c = some d → c.toNat = 48 + d := by
    intro c h
    obtain ⟨valued, below⟩ := Option.filter_eq_some_iff.mp h
    have below : d < base := by simpa using below
    unfold digitValue? at valued
    grind
  exact Char.ext (UInt32.toNat_inj.mp ((figure c h).trans (figure c' h').symm))

theorem lt_of_extend? {base n v : Nat} {s : List Char} (h : extend? base n s = some v) :
    v < (n + 1) * Nat.pow base s.length := by
  induction s generalizing n with
  | nil =>
    obtain rfl := Option.some.inj h
    exact Nat.lt_of_lt_of_eq (Nat.lt_succ_self n) (Nat.mul_one _).symm
  | cons c s ih =>
    obtain ⟨d, hd, h⟩ := Option.bind_eq_some_iff.mp h
    have below : d < base := by simpa using (Option.filter_eq_some_iff.mp hd).2
    calc v < (n * base + d + 1) * Nat.pow base s.length := ih h
      _ ≤ (n + 1) * base * Nat.pow base s.length :=
        Nat.mul_le_mul_right _ (by rw [Nat.add_mul, Nat.one_mul]; omega)
      _ = (n + 1) * Nat.pow base (c :: s).length := by
        rw [List.length_cons, Nat.pow_eq, Nat.pow_eq, Nat.pow_succ', Nat.mul_assoc]

theorem lt_of_value? {base n : Nat} {s : List Char} (h : value? base s = some n) :
    n < Nat.pow base s.length := by
  cases s with
  | nil => cases h
  | cons c s => simpa using lt_of_extend? (n := 0) h

theorem eq_of_extend? {base n n' v : Nat} {s s' : List Char} (small : base ≤ 10)
    (length : s.length = s'.length) (h : extend? base n s = some v)
    (h' : extend? base n' s' = some v) : n = n' ∧ s = s' := by
  induction s generalizing n n' s' with
  | nil =>
    obtain rfl := List.length_eq_zero_iff.mp length.symm
    exact ⟨Option.some.inj (h.trans h'.symm), rfl⟩
  | cons c s ih =>
    obtain ⟨c', s', rfl⟩ := List.exists_cons_of_length_eq_add_one length.symm
    obtain ⟨d, hd, h⟩ := Option.bind_eq_some_iff.mp h
    obtain ⟨d', hd', h'⟩ := Option.bind_eq_some_iff.mp h'
    obtain ⟨front, rfl⟩ := ih (Nat.succ.inj length) h h'
    have below : d < base := by simpa using (Option.filter_eq_some_iff.mp hd).2
    have below' : d' < base := by simpa using (Option.filter_eq_some_iff.mp hd').2
    have digits : (d + base * n) % base = (d' + base * n') % base := by
      rw [Nat.mul_comm base n, Nat.mul_comm base n', Nat.add_comm d, Nat.add_comm d', front]
    rw [Nat.add_mul_mod_self_left, Nat.add_mul_mod_self_left, Nat.mod_eq_of_lt below,
      Nat.mod_eq_of_lt below'] at digits
    subst digits
    have fronts : n * base = n' * base := Nat.add_right_cancel front
    exact ⟨Nat.eq_of_mul_eq_mul_right (by omega) fronts, by rw [eq_of_digit? small hd hd']⟩

theorem eq_of_value? {base n : Nat} {s s' : List Char} (small : base ≤ 10)
    (length : s.length = s'.length) (h : value? base s = some n) (h' : value? base s' = some n) :
    s = s' := by
  cases s with
  | nil => cases h
  | cons c s =>
    cases s' with
    | nil => cases h'
    | cons c' s' => exact (eq_of_extend? small length h h').2

theorem length_binary32 (w : BitVec 32) : (binary32 w.toNat).length = 32 := by
  have digits : (Nat.toDigits 2 w.toNat).length ≤ 32 :=
    Nat.toDigits_length 2 _ 32 (by decide) w.isLt
  rw [binary32, List.length_leftpad, Nat.max_eq_left digits]

end Numeral
end Mips
