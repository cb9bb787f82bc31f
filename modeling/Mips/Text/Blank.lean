namespace Mips.Text

/-- The characters with the property `White_Space`. -/
def isBlank (c : Char) : Bool :=
  let n := c.toNat
  (9 ≤ n && n ≤ 13) || n == 0x20 || n == 0x85 || n == 0xA0 || n == 0x1680 ||
    (0x2000 ≤ n && n ≤ 0x200A) || n == 0x2028 || n == 0x2029 || n == 0x202F || n == 0x205F ||
    n == 0x3000

def trimStart (s : List Char) : List Char := s.dropWhile isBlank

def trimEnd (s : List Char) : List Char := (s.reverse.dropWhile isBlank).reverse

def trim (s : List Char) : List Char := trimEnd (trimStart s)

def fields (sep : Char → Bool) (s : List Char) : List (List Char) :=
  match _h : s.dropWhile sep with
  | [] => []
  | c :: r => (c :: r.takeWhile (!sep ·)) :: fields sep (r.dropWhile (!sep ·))
termination_by s.length
decreasing_by
  have h₁ : (s.dropWhile sep).length ≤ s.length := (List.dropWhile_sublist sep).length_le
  have h₂ : (r.dropWhile (!sep ·)).length ≤ r.length := (List.dropWhile_sublist _).length_le
  rw [_h] at h₁
  simp only [List.length_cons] at h₁
  omega

/-- The text before the first character of a kind, and the text after it when there is one. -/
def splitAtFirst (p : Char → Bool) (s : List Char) : List Char × Option (List Char) :=
  match s.dropWhile (!p ·) with
  | [] => (s, none)
  | _ :: r => (s.takeWhile (!p ·), some r)

theorem head?_trimStart {s : List Char} {c : Char} (h : (trimStart s).head? = some c) :
    isBlank c = false := by
  induction s with
  | nil => simp [trimStart] at h
  | cons d r ih =>
    by_cases hd : isBlank d = true
    · rw [trimStart, List.dropWhile_cons_of_pos hd] at h
      exact ih h
    · rw [trimStart, List.dropWhile_cons_of_neg hd] at h
      simp only [List.head?_cons, Option.some.injEq] at h
      subst h
      simpa using hd

end Mips.Text
