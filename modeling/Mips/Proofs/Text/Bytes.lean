import Mips.Text.Utf8

namespace Mips.Text

variable {s : List Char} {c : Char} {b : UInt8}

theorem utf8_ne_nil (filled : s ≠ []) : utf8 s ≠ [] := by
  obtain ⟨c, cs, rfl⟩ := List.exists_cons_of_ne_nil filled
  obtain ⟨b, r, encoded, _⟩ := utf8Step_encode c []
  rw [utf8, List.flatMap_cons, encoded]
  exact List.cons_ne_nil _ _

theorem le_of_mem_utf8EncodeChar (wide : 127 < c.toNat) (there : b ∈ String.utf8EncodeChar c) :
    128 ≤ b.toNat := by
  have same : c.val.toNat = c.toNat := rfl
  simp only [String.utf8EncodeChar, same, if_neg (Nat.not_le.mpr wide)] at there
  split at there
  · simp only [List.mem_cons, List.not_mem_nil, or_false] at there
    rcases there with rfl | rfl <;> rw [UInt8.toNat_ofNat'] <;> omega
  · split at there
    · simp only [List.mem_cons, List.not_mem_nil, or_false] at there
      rcases there with rfl | rfl | rfl <;> rw [UInt8.toNat_ofNat'] <;> omega
    · simp only [List.mem_cons, List.not_mem_nil, or_false] at there
      rcases there with rfl | rfl | rfl | rfl <;> rw [UInt8.toNat_ofNat'] <;> omega

theorem exists_of_mem_utf8 (there : b ∈ utf8 s) (low : b.toNat < 128) :
    ∃ c ∈ s, c.toNat = b.toNat := by
  obtain ⟨c, within, there⟩ := List.mem_flatMap.mp there
  refine ⟨c, within, ?_⟩
  by_cases wide : 127 < c.toNat
  · have high := le_of_mem_utf8EncodeChar wide there
    omega
  · have same : c.val.toNat = c.toNat := rfl
    simp only [String.utf8EncodeChar, same, if_pos (Nat.not_lt.mp wide),
      List.mem_singleton] at there
    rw [there, UInt8.toNat_ofNat']
    omega

end Mips.Text
