import Mips.Proofs.Memory.Words
import Mips.Program

namespace Mips

def Program.image (p : Program) (l : Layout) : Memory where
  layout := l
  contents := ((∅ : Contents).write 0 (p.text.flatMap Word.bytes)).write l.dataOffset.toNat
    (p.data.flatMap Word.bytes)
  textEnd := Word.slot l.textBase p.text.length
  dataEnd := Word.slot l.dataBase p.data.length
  heapEnd := Word.slot l.dataBase p.data.length

structure Program.FitsIn (p : Program) (l : Layout) : Prop where
  text : 4 * p.text.length ≤ l.dataOffset.toNat
  data : l.dataOffset.toNat + 4 * p.data.length ≤ l.size.toNat
  mapped : l.base.toNat + l.dataOffset.toNat < 0x100000000

namespace Memory

theorem placeText_eq_ok_iff {m m' : Memory} {text : List Word} :
    m.placeText text = .ok m' ↔
      4 * text.length ≤ m.layout.dataOffset.toNat ∧ 4 * text.length ≤ m.layout.size.toNat ∧
        m' = { m with
          contents := m.contents.write 0 (text.flatMap Word.bytes)
          textEnd := Word.slot m.layout.textBase text.length } := by
  have start {off : Nat} : m.offset? m.layout.textBase (text.flatMap Word.bytes).length = .ok off ↔
      off = 0 ∧ 4 * text.length ≤ m.layout.size.toNat := by
    rw [offset?_eq_ok_iff, Word.length_flatMap_bytes, Layout.textBase]
    omega
  unfold placeText
  split
  · rename_i long
    constructor
    · nofun
    · omega
  · rename_i short
    simp only [map_eq_ok_iff, write_eq_ok_iff, start]
    constructor
    · rintro ⟨_, ⟨_, ⟨rfl, within⟩, rfl⟩, rfl⟩
      exact ⟨by omega, within, rfl⟩
    · rintro ⟨_, within, rfl⟩
      exact ⟨_, ⟨0, ⟨rfl, within⟩, rfl⟩, rfl⟩

theorem placeData_eq_ok_iff {m m' : Memory} {data : List Word} :
    m.placeData data = .ok m' ↔
      m.layout.base.toNat + m.layout.dataOffset.toNat < 0x100000000 ∧
        m.layout.dataOffset.toNat + 4 * data.length ≤ m.layout.size.toNat ∧
        m' = { m with
          contents := m.contents.write m.layout.dataOffset.toNat (data.flatMap Word.bytes)
          dataEnd := Word.slot m.layout.dataBase data.length
          heapEnd := Word.slot m.layout.dataBase data.length } := by
  have start {off : Nat} : m.offset? m.layout.dataBase (data.flatMap Word.bytes).length = .ok off ↔
      m.layout.base.toNat + m.layout.dataOffset.toNat < 0x100000000 ∧
        off = m.layout.dataOffset.toNat ∧ off + 4 * data.length ≤ m.layout.size.toNat := by
    -- past the end of the address space the base of the data wraps to below memory
    have bound := m.layout.base.isLt
    have offset := m.layout.dataOffset.isLt
    rw [offset?_eq_ok_iff, Word.length_flatMap_bytes, Layout.dataBase, BitVec.toNat_add]
    omega
  simp only [placeData, map_eq_ok_iff, write_eq_ok_iff, start]
  constructor
  · rintro ⟨_, ⟨_, ⟨mapped, rfl, within⟩, rfl⟩, rfl⟩
    exact ⟨mapped, within, rfl⟩
  · rintro ⟨mapped, within, rfl⟩
    exact ⟨_, ⟨_, ⟨mapped, rfl, within⟩, rfl⟩, rfl⟩

end Memory

namespace Program

theorem placeIn_eq_none_iff {p : Program} {m m' : Memory} :
    p.placeIn m = (m', none) ↔
      ∃ m₁, m.placeText p.text = .ok m₁ ∧ m₁.placeData p.data = .ok m' := by
  unfold placeIn
  cases m.placeText p.text with
  | error e => simp
  | ok m₁ =>
    cases placed : m₁.placeData p.data with
    | error e => simp [placed]
    | ok m₂ => simp [placed]

/-- A program is placed if it fits, and then memory is its image. -/
theorem placeIn_empty {p : Program} {l : Layout} {m : Memory} :
    p.placeIn (Memory.empty l) = (m, none) ↔ p.FitsIn l ∧ m = p.image l := by
  simp only [placeIn_eq_none_iff, Memory.placeText_eq_ok_iff, Memory.placeData_eq_ok_iff]
  constructor
  · rintro ⟨_, ⟨text, _, rfl⟩, mapped, data, rfl⟩
    exact ⟨⟨text, data, mapped⟩, rfl⟩
  · rintro ⟨⟨text, data, mapped⟩, rfl⟩
    have room : 4 * p.text.length ≤ l.size.toNat := by omega
    exact ⟨_, ⟨text, room, rfl⟩, mapped, data, rfl⟩

variable {p : Program} {l : Layout}

@[simp] theorem layout_image : (p.image l).layout = l := rfl

@[simp] theorem textEnd_image :
    (p.image l).textEnd = Word.slot l.textBase p.text.length := rfl

theorem toNat_slot_text (fits : p.FitsIn l) {i : Nat} (within : i ≤ p.text.length) :
    (Word.slot l.textBase i).toNat = l.base.toNat + 4 * i := by
  have text := fits.text
  have mapped := fits.mapped
  rw [Word.toNat_slot, Layout.textBase]
  omega

theorem isText_image (fits : p.FitsIn l) {i : Nat} (within : i < p.text.length) :
    (p.image l).isText (Word.slot l.textBase i) = true := by
  have here := toNat_slot_text fits (Nat.le_of_lt within)
  have stop := toNat_slot_text fits (Nat.le_refl p.text.length)
  rw [Memory.isText_iff, layout_image, textEnd_image, here, stop]
  omega

theorem fetch_image_text (fits : p.FitsIn l) {i : Nat} {w : Word} (there : p.text[i]? = some w) :
    (p.image l).contents.fetch (4 * i) 4 = Word.bytes w := by
  have within : i < p.text.length := (List.getElem?_eq_some_iff.mp there).1
  have text := fits.text
  have size := Word.length_flatMap_bytes p.text
  have place : 4 * i = 0 + 4 * i := by omega
  rw [image, Contents.fetch_write_apart _ (by omega), place,
    Contents.fetch_write_within _ _ (by omega)]
  exact Word.take_drop_flatMap_bytes there

theorem fetch_image_data {i : Nat} {w : Word} (there : p.data[i]? = some w) :
    (p.image l).contents.fetch (l.dataOffset.toNat + 4 * i) 4 = Word.bytes w := by
  have within : i < p.data.length := (List.getElem?_eq_some_iff.mp there).1
  have size := Word.length_flatMap_bytes p.data
  rw [image, Contents.fetch_write_within _ _ (by omega)]
  exact Word.take_drop_flatMap_bytes there

theorem readWord_image (fits : p.FitsIn l) {i : Nat} {w : Word} (there : p.text[i]? = some w) :
    (p.image l).readWord (Word.slot l.textBase i) 4 = .ok w := by
  have within : i < p.text.length := (List.getElem?_eq_some_iff.mp there).1
  have text := fits.text
  have data := fits.data
  have backed : (p.image l).offset? (Word.slot l.textBase i) 4 = .ok (4 * i) := by
    rw [Memory.offset?_eq_ok_iff, toNat_slot_text fits (Nat.le_of_lt within), layout_image]
    omega
  exact Memory.readWord_of_fetch backed (fetch_image_text fits there)

end Program
end Mips
