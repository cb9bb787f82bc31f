/-!
UTF-8. Writing is the standard library's encoding of each character. Reading cuts a byte string
into characters and maximal ill-formed parts: a part ends before the first byte that no character
beginning like it could have there. A strict reader refuses such a part, a lenient one puts the
replacement character in its place. Main statements: `ofUtf8?_utf8` and `ofUtf8Lossy_utf8`, both
readers give back a text from its bytes.
-/
namespace Mips.Text

def utf8 (s : List Char) : List UInt8 := s.flatMap String.utf8EncodeChar

def utf8Size (s : List Char) : Nat := s.foldl (fun n c => n + c.utf8Size) 0

/-- What a first byte promises: how many bytes follow, the range of the first of them, and the bits
the first byte gives to the character. -/
structure Utf8Lead where
  more : Nat
  low : Nat
  high : Nat
  bits : Nat

/-- The promise of a first byte that is no character alone. The ranges leave out overlong forms,
surrogates and numbers past the last code point. -/
def utf8Lead? (b : Nat) : Option Utf8Lead :=
  if b < 0xC2 then none
  else if b < 0xE0 then some ⟨1, 0x80, 0xBF, b - 0xC0⟩
  else if b < 0xF0 then
    some ⟨2, if b = 0xE0 then 0xA0 else 0x80, if b = 0xED then 0x9F else 0xBF, b - 0xE0⟩
  else if b < 0xF5 then
    some ⟨3, if b = 0xF0 then 0x90 else 0x80, if b = 0xF4 then 0x8F else 0xBF, b - 0xF0⟩
  else none

/-- Reads the promised bytes behind the bits already read: the character if all are there, and what
is left. -/
def utf8Tail : Nat → Nat → Nat → Nat → List UInt8 → Option Char × List UInt8
  | 0, _, _, bits, bs => (some (Char.ofNat bits), bs)
  | _ + 1, _, _, _, [] => (none, [])
  | more + 1, low, high, bits, b :: bs =>
    if low ≤ b.toNat ∧ b.toNat ≤ high then
      utf8Tail more 0x80 0xBF (bits * 64 + b.toNat % 64) bs
    else (none, b :: bs)

def utf8Step (b : UInt8) (bs : List UInt8) : Option Char × List UInt8 :=
  if b.toNat < 0x80 then (some (Char.ofNat b.toNat), bs)
  else
    match utf8Lead? b.toNat with
    | none => (none, bs)
    | some lead => utf8Tail lead.more lead.low lead.high lead.bits bs

theorem length_utf8Tail_le (more low high bits : Nat) (bs : List UInt8) :
    (utf8Tail more low high bits bs).2.length ≤ bs.length := by
  induction more generalizing low high bits bs with
  | zero => simp [utf8Tail]
  | succ more ih =>
    cases bs with
    | nil => simp [utf8Tail]
    | cons b bs =>
      rw [utf8Tail]
      split
      · exact Nat.le_succ_of_le (ih _ _ _ _)
      · simp

theorem length_utf8Step_le (b : UInt8) (bs : List UInt8) :
    (utf8Step b bs).2.length ≤ bs.length := by
  rw [utf8Step]
  split
  · simp
  · split
    · simp
    · exact length_utf8Tail_le _ _ _ _ _

def utf8Parts : List UInt8 → List (Option Char)
  | [] => []
  | b :: bs => (utf8Step b bs).1 :: utf8Parts (utf8Step b bs).2
termination_by bs => bs.length
decreasing_by
  have := length_utf8Step_le b bs
  simp only [List.length_cons]
  omega

def ofUtf8? (bs : List UInt8) : Option (List Char) := (utf8Parts bs).mapM id

def ofUtf8Lossy (bs : List UInt8) : List Char := (utf8Parts bs).map (·.getD '\uFFFD')

theorem utf8Tail_cons {more low high bits : Nat} {b : UInt8} (bs : List UInt8)
    (h : low ≤ b.toNat ∧ b.toNat ≤ high) :
    utf8Tail (more + 1) low high bits (b :: bs) =
      utf8Tail more 0x80 0xBF (bits * 64 + b.toNat % 64) bs := by
  rw [utf8Tail, if_pos h]

theorem utf8Step_encode (c : Char) (bs : List UInt8) :
    ∃ b r, String.utf8EncodeChar c = b :: r ∧ utf8Step b (r ++ bs) = (some c, bs) := by
  have hv : c.toNat < 0xD800 ∨ (0xDFFF < c.toNat ∧ c.toNat < 0x110000) := c.valid
  have hn : c.val.toNat = c.toNat := rfl
  have back : ∀ m, m = c.toNat → Char.ofNat m = c := fun m hm => hm ▸ Char.ofNat_toNat c
  simp only [String.utf8EncodeChar, hn]
  generalize c.toNat = n at hv hn back
  by_cases h1 : n ≤ 127
  · rw [if_pos h1]
    refine ⟨_, _, rfl, ?_⟩
    have hb : (UInt8.ofNat n).toNat = n := by rw [UInt8.toNat_ofNat']; omega
    rw [utf8Step, hb, if_pos (by omega), back n rfl, List.nil_append]
  rw [if_neg h1]
  have low : ∀ m, (UInt8.ofNat (m % 64 + 128)).toNat = m % 64 + 128 := by
    intro m; rw [UInt8.toNat_ofNat']; omega
  by_cases h2 : n ≤ 2047
  · rw [if_pos h2]
    refine ⟨_, _, rfl, ?_⟩
    have hb : (UInt8.ofNat (n / 64 % 32 + 192)).toNat = n / 64 % 32 + 192 := by
      rw [UInt8.toNat_ofNat']; omega
    rw [utf8Step, hb, if_neg (by omega), utf8Lead?, if_neg (by omega), if_pos (by omega)]
    simp only [List.cons_append, List.nil_append]
    rw [utf8Tail_cons _ (by rw [low]; omega), low, utf8Tail, back _ (by omega)]
  rw [if_neg h2]
  by_cases h3 : n ≤ 65535
  · rw [if_pos h3]
    refine ⟨_, _, rfl, ?_⟩
    have hb : (UInt8.ofNat (n / 4096 % 16 + 224)).toNat = n / 4096 % 16 + 224 := by
      rw [UInt8.toNat_ofNat']; omega
    rw [utf8Step, hb, if_neg (by omega), utf8Lead?, if_neg (by omega), if_neg (by omega),
      if_pos (by omega)]
    simp only [List.cons_append, List.nil_append]
    rw [utf8Tail_cons _ (by rw [low]; constructor <;> split <;> omega), low,
      utf8Tail_cons _ (by rw [low]; omega), low, utf8Tail, back _ (by omega)]
  · rw [if_neg h3]
    refine ⟨_, _, rfl, ?_⟩
    have hb : (UInt8.ofNat (n / 262144 % 8 + 240)).toNat = n / 262144 % 8 + 240 := by
      rw [UInt8.toNat_ofNat']; omega
    rw [utf8Step, hb, if_neg (by omega), utf8Lead?, if_neg (by omega), if_neg (by omega),
      if_neg (by omega), if_pos (by omega)]
    simp only [List.cons_append, List.nil_append]
    rw [utf8Tail_cons _ (by rw [low]; constructor <;> split <;> omega), low,
      utf8Tail_cons _ (by rw [low]; omega), low, utf8Tail_cons _ (by rw [low]; omega), low,
      utf8Tail, back _ (by omega)]

theorem utf8Parts_utf8 (s : List Char) : utf8Parts (utf8 s) = s.map some := by
  induction s with
  | nil => simp [utf8, utf8Parts]
  | cons c s ih =>
    obtain ⟨b, r, hb, hs⟩ := utf8Step_encode c (utf8 s)
    have cut : utf8 (c :: s) = b :: (r ++ utf8 s) := by simp [utf8, hb]
    rw [cut, utf8Parts, hs, ih, List.map_cons]

theorem ofUtf8?_utf8 (s : List Char) : ofUtf8? (utf8 s) = some s := by
  rw [ofUtf8?, utf8Parts_utf8]
  induction s with
  | nil => rfl
  | cons c s ih => simp [List.mapM_cons, ih]

theorem ofUtf8Lossy_utf8 (s : List Char) : ofUtf8Lossy (utf8 s) = s := by
  rw [ofUtf8Lossy, utf8Parts_utf8, List.map_map]
  exact List.map_id s

end Mips.Text
