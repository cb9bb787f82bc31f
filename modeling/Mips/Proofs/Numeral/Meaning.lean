import Mathlib.Data.List.Forall2
import Mathlib.Data.Nat.Digits.Defs
import Mips.Numeral

namespace Mips.Numeral

def smallDigits : List Char := "0123456789abcdef".toList

def capitalDigits : List Char := "0123456789ABCDEF".toList

/-- A character is the digit of a number, a letter in either case. -/
def IsDigitOf (base : Nat) (c : Char) (d : Nat) : Prop :=
  d < base ∧ (smallDigits[d]? = some c ∨ capitalDigits[d]? = some c)

/-- A nonempty string of digits, the most significant first, and the number that it means. -/
def Means (base : Nat) (s : List Char) (n : Nat) : Prop :=
  s ≠ [] ∧ ∃ ds, List.Forall₂ (IsDigitOf base) s ds ∧ n = Nat.ofDigits base ds.reverse

variable {base limit n v d : Nat} {c : Char} {s : List Char}

theorem lt_of_placed (placed : smallDigits[d]? = some c ∨ capitalDigits[d]? = some c) :
    d < 16 := by
  rcases placed with small | capital
  · exact (List.getElem?_eq_some_iff.mp small).1
  · exact (List.getElem?_eq_some_iff.mp capital).1

theorem digitValue?_eq_some_iff :
    digitValue? c = some d ↔ smallDigits[d]? = some c ∨ capitalDigits[d]? = some c := by
  constructor
  · intro valued
    have ascii : c.toNat < 128 := by
      unfold digitValue? at valued
      grind
    have each : ∀ m < 128, ∀ d ∈ digitValue? (Char.ofNat m),
        smallDigits[d]? = some (Char.ofNat m) ∨ capitalDigits[d]? = some (Char.ofNat m) := by
      decide
    have placed := each c.toNat ascii d
    rw [Char.ofNat_toNat] at placed
    exact placed valued
  · intro placed
    have each : ∀ d < 16, smallDigits[d]?.bind digitValue? = some d ∧
        capitalDigits[d]?.bind digitValue? = some d := by decide
    obtain ⟨small, capital⟩ := each d (lt_of_placed placed)
    rcases placed with there | there
    · rwa [there] at small
    · rwa [there] at capital

theorem digit?_eq_some_iff : digit? base c = some d ↔ IsDigitOf base c d := by
  rw [digit?, Option.filter_eq_some_iff, digitValue?_eq_some_iff, decide_eq_true_eq, and_comm]
  exact Iff.rfl

theorem extend?_eq_some_iff :
    extend? base n s = some v ↔
      ∃ ds, List.Forall₂ (IsDigitOf base) s ds ∧ v = Nat.ofDigits base (ds.reverse ++ [n]) := by
  induction s generalizing n with
  | nil => simp [extend?, eq_comm]
  | cons c s ih =>
    have moved (d : Nat) (ds : List Nat) : Nat.ofDigits base (ds.reverse ++ [n * base + d]) =
        Nat.ofDigits base ((d :: ds).reverse ++ [n]) := by
      rw [List.reverse_cons, List.append_assoc, List.singleton_append, Nat.ofDigits_append,
        Nat.ofDigits_append, Nat.ofDigits_singleton, Nat.ofDigits_cons, Nat.ofDigits_singleton,
        Nat.add_comm (n * base), Nat.mul_comm n]
    simp only [extend?, Option.bind_eq_some_iff, digit?_eq_some_iff, ih, moved,
      List.forall₂_cons_left_iff]
    constructor
    · rintro ⟨d, digit, ds, digits, rfl⟩
      exact ⟨d :: ds, ⟨d, ds, digit, digits, rfl⟩, rfl⟩
    · rintro ⟨_, ⟨d, ds, digit, digits, rfl⟩, rfl⟩
      exact ⟨d, digit, ds, digits, rfl⟩

theorem value?_eq_some_iff : value? base s = some n ↔ Means base s n := by
  cases s with
  | nil => simp [value?, Means]
  | cons c s =>
    have read : value? base (c :: s) = extend? base 0 (c :: s) := rfl
    simp [read, extend?_eq_some_iff, Means, Nat.ofDigits_append_zero]

theorem valueUpTo?_eq_some_iff (positive : 0 < base) :
    valueUpTo? base limit s = some n ↔ Means base s n ∧ n ≤ limit := by
  rw [valueUpTo?_eq positive, Option.filter_eq_some_iff, value?_eq_some_iff, decide_eq_true_eq]

theorem means_toDigits (above : 1 < base) (small : base ≤ 16) (n : Nat) :
    Means base (Nat.toDigits base n) n :=
  value?_eq_some_iff.mp (value?_toDigits above small n)

theorem IsDigitOf.toUpper (digit : IsDigitOf base c d) : IsDigitOf base c.toUpper d := by
  have each : ∀ d < 16, smallDigits[d]?.map Char.toUpper = capitalDigits[d]? ∧
      capitalDigits[d]?.map Char.toUpper = capitalDigits[d]? := by decide
  obtain ⟨raised, kept⟩ := each d (lt_of_placed digit.2)
  refine ⟨digit.1, .inr ?_⟩
  rcases digit.2 with small | capital
  · rw [← raised, small, Option.map_some]
  · rw [← kept, capital, Option.map_some]

theorem Means.toUpper (means : Means base s n) : Means base (s.map Char.toUpper) n := by
  obtain ⟨filled, ds, digits, value⟩ := means
  refine ⟨by simpa using filled, ds, ?_, value⟩
  rw [List.forall₂_map_left_iff]
  exact digits.imp fun c d digit => digit.toUpper

end Mips.Numeral
