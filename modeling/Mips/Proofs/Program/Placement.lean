import Mips.Proofs.Memory.Operations
import Mips.Proofs.Program.Loading

namespace Mips

theorem Width.value_of_fetch {c : Contents} {off : Nat} {w : Word}
    (bytes : c.fetch off 4 = Word.bytes w) : word.value c.byteAt off = w.toNat := by
  have bound := value_lt c.byteAt off word
  have number : c.number off 4 = word.value c.byteAt off := number_eq_value c off word
  have spelled : Word.ofNat (word.value c.byteAt off) = w := by
    rw [← number, Contents.number_eq, bytes]
    exact Word.ofBytes_bytes w
  rw [← spelled, Word.ofNat_eq, BitVec.toNat_ofNat]
  exact (Nat.mod_eq_of_lt bound).symm

namespace Program

/-- Memory that holds the words of a program, the most significant byte of each first, zeros around
them, and its text for text. -/
structure PlacedIn (p : Program) (l : Layout) (m : Memory) : Prop where
  layout : m.layout = l
  text : ∀ i w, p.text[i]? = some w → Width.word.value m.byteAt (4 * i) = w.toNat
  data : ∀ i w, p.data[i]? = some w →
    Width.word.value m.byteAt (l.dataOffset.toNat + 4 * i) = w.toNat
  zero : ∀ k, 4 * p.text.length ≤ k →
    k < l.dataOffset.toNat ∨ l.dataOffset.toNat + 4 * p.data.length ≤ k → m.byteAt k = 0
  isText : ∀ pc, m.isText pc = true ↔
    l.base.toNat ≤ pc.toNat ∧ pc.toNat < l.base.toNat + 4 * p.text.length

variable {p : Program} {l : Layout}

theorem placedIn_image (fits : p.FitsIn l) : p.PlacedIn l (p.image l) := by
  constructor
  · rfl
  · exact fun i w there => Width.value_of_fetch (fetch_image_text fits there)
  · exact fun i w there => Width.value_of_fetch (fetch_image_data there)
  · intro k behind apart
    have text := Word.length_flatMap_bytes p.text
    have data := Word.length_flatMap_bytes p.data
    rw [Memory.byteAt, image, Contents.byteAt_write, if_neg (by omega), Contents.byteAt_write,
      if_neg (by omega), Contents.byteAt_empty]
  · intro pc
    rw [Memory.isText_iff, layout_image, textEnd_image, toNat_slot_text fits (Nat.le_refl _)]

/-- Fresh memory takes a program exactly if the text ends before the data, the data begin in the
address space and they end in memory. It then holds the program and nothing else. -/
theorem placedIn_placeIn (p : Program) (l : Layout) :
    ((p.placeIn (Memory.empty l)).2 = none ↔
        4 * p.text.length ≤ l.dataOffset.toNat ∧
          l.base.toNat + l.dataOffset.toNat < 0x100000000 ∧
          l.dataOffset.toNat + 4 * p.data.length ≤ l.size.toNat) ∧
      ((p.placeIn (Memory.empty l)).2 = none → p.PlacedIn l (p.placeIn (Memory.empty l)).1) := by
  have outcome (taken : (p.placeIn (Memory.empty l)).2 = none) :
      p.FitsIn l ∧ (p.placeIn (Memory.empty l)).1 = p.image l :=
    placeIn_empty.mp (Prod.ext rfl taken)
  refine ⟨⟨fun taken => ?_, fun ⟨text, mapped, data⟩ => ?_⟩, fun taken => ?_⟩
  · obtain ⟨fits, _⟩ := outcome taken
    exact ⟨fits.text, fits.mapped, fits.data⟩
  · have placed := placeIn_empty.mpr ⟨FitsIn.mk text data mapped, rfl⟩
    rw [placed]
  · obtain ⟨fits, image⟩ := outcome taken
    rw [image]
    exact placedIn_image fits

theorem placedIn_placeIn_full :
    ((Program.mk [3, 4] [1, 2]).placeIn (.empty ⟨0xFFFFFFF0, 16, 8⟩)).2 = none ∧
      (Program.mk [3, 4] [1, 2]).PlacedIn ⟨0xFFFFFFF0, 16, 8⟩
        ((Program.mk [3, 4] [1, 2]).placeIn (.empty ⟨0xFFFFFFF0, 16, 8⟩)).1 := by
  obtain ⟨takes, placed⟩ := placedIn_placeIn ⟨[3, 4], [1, 2]⟩ ⟨0xFFFFFFF0, 16, 8⟩
  have taken := takes.mpr ⟨by decide, by decide, by decide⟩
  exact ⟨taken, placed taken⟩

end Program
end Mips
