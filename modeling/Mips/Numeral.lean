namespace Mips.Numeral

def digitValue? (c : Char) : Option Nat :=
  if 48 ≤ c.toNat ∧ c.toNat ≤ 57 then some (c.toNat - 48)
  else if 97 ≤ c.toNat ∧ c.toNat ≤ 102 then some (c.toNat - 87)
  else if 65 ≤ c.toNat ∧ c.toNat ≤ 70 then some (c.toNat - 55)
  else none

def digit? (base : Nat) (c : Char) : Option Nat := (digitValue? c).filter (· < base)

def extend? (base : Nat) : Nat → List Char → Option Nat
  | n, [] => some n
  | n, c :: cs => (digit? base c).bind fun d => extend? base (n * base + d) cs

def value? (base : Nat) : List Char → Option Nat
  | [] => none
  | cs => extend? base 0 cs

def extendUpTo? (base limit : Nat) : Nat → List Char → Option Nat
  | n, [] => some n
  | n, c :: cs =>
    (digit? base c).bind fun d =>
      if limit < n * base + d then none else extendUpTo? base limit (n * base + d) cs

def valueUpTo? (base limit : Nat) : List Char → Option Nat
  | [] => none
  | cs => extendUpTo? base limit 0 cs

def decimal (n : Nat) : List Char := Nat.toDigits 10 n

def signed (z : Int) : List Char :=
  if z < 0 then '-' :: decimal z.natAbs else decimal z.natAbs

def forcedSign (z : Int) : List Char :=
  if z < 0 then '-' :: decimal z.natAbs else '+' :: decimal z.natAbs

def hex (n : Nat) : List Char := '0' :: 'x' :: Nat.toDigits 16 n

def hex8 (n : Nat) : List Char := '0' :: 'x' :: (Nat.toDigits 16 n).leftpad 8 '0'

def binary32 (n : Nat) : List Char := (Nat.toDigits 2 n).leftpad 32 '0'

theorem le_of_extend? {base n v : Nat} (hb : 0 < base) {cs : List Char}
    (h : extend? base n cs = some v) : n ≤ v := by
  induction cs generalizing n with
  | nil => exact Nat.le_of_eq (Option.some.inj h)
  | cons c cs ih =>
    rw [extend?, Option.bind_eq_some_iff] at h
    obtain ⟨d, _, h⟩ := h
    have grown : n ≤ n * base := Nat.le_mul_of_pos_right n hb
    have := ih h
    omega

theorem extendUpTo?_eq {base limit n : Nat} (hb : 0 < base) (hn : n ≤ limit) (cs : List Char) :
    extendUpTo? base limit n cs = (extend? base n cs).filter (· ≤ limit) := by
  induction cs generalizing n with
  | nil => simp [extendUpTo?, extend?, Option.filter, hn]
  | cons c cs ih =>
    rw [extendUpTo?, extend?]
    cases digit? base c with
    | none => rfl
    | some d =>
      rw [Option.bind_some, Option.bind_some]
      split
      · rename_i past
        cases h : extend? base (n * base + d) cs with
        | none => rfl
        | some v =>
          have := le_of_extend? hb h
          simp only [Option.filter]
          rw [if_neg (by simp only [decide_eq_true_eq]; omega)]
      · exact ih (by omega)

theorem valueUpTo?_eq {base : Nat} (hb : 0 < base) (limit : Nat) (s : List Char) :
    valueUpTo? base limit s = (value? base s).filter (· ≤ limit) := by
  cases s with
  | nil => rfl
  | cons c cs => exact extendUpTo?_eq hb (Nat.zero_le _) _

theorem digit?_digitChar {base d : Nat} (hb : base ≤ 16) (hd : d < base) :
    digit? base (Nat.digitChar d) = some d := by
  have h16 : d < 16 := by omega
  have hv : digitValue? (Nat.digitChar d) = some d := by
    have all : ∀ d : Fin 16, digitValue? (Nat.digitChar d) = some d.val := by decide
    exact all ⟨d, h16⟩
  simp [digit?, hv, hd]

theorem extend?_append (base n : Nat) (xs ys : List Char) :
    extend? base n (xs ++ ys) = (extend? base n xs).bind (extend? base · ys) := by
  induction xs generalizing n with
  | nil => simp [extend?]
  | cons c cs ih => cases h : digit? base c <;> simp [extend?, h, ih]

theorem extend?_toDigits {base : Nat} (h1 : 1 < base) (h16 : base ≤ 16) (n : Nat) :
    extend? base 0 (Nat.toDigits base n) = some n := by
  induction n using Nat.strongRecOn with
  | _ n ih =>
    rw [Nat.toDigits_eq_if h1]
    split
    · rename_i hn
      simp [extend?, digit?_digitChar h16 hn]
    · rename_i hn
      have hlt : n / base < n := Nat.div_lt_self (by omega) h1
      have hmod : n % base < base := Nat.mod_lt _ (by omega)
      rw [extend?_append, ih _ hlt]
      simp [extend?, digit?_digitChar h16 hmod, Nat.div_add_mod']

theorem value?_toDigits {base : Nat} (h1 : 1 < base) (h16 : base ≤ 16) (n : Nat) :
    value? base (Nat.toDigits base n) = some n := by
  have hne : Nat.toDigits base n ≠ [] := by
    have := Nat.length_toDigits_pos (b := base) (n := n)
    intro h
    simp [h] at this
  cases h : Nat.toDigits base n with
  | nil => exact absurd h hne
  | cons c cs =>
    rw [value?, ← h, extend?_toDigits h1 h16]
    simp

end Mips.Numeral
