import Mips.Proofs.Machine.Marks

namespace Mips

/-- The regions of a memory follow one another and end within it, the static data after `n`
words. -/
structure Memory.InOrder (m : Memory) (n : Nat) : Prop where
  text : m.layout.textBase.toNat ≤ m.textEnd.toNat
  gap : m.textEnd.toNat ≤ m.layout.dataBase.toNat
  data : m.layout.dataBase.toNat ≤ m.dataEnd.toNat
  heap : m.dataEnd = m.heapEnd
  within : m.dataEnd.toNat ≤ m.layout.base.toNat + m.layout.size.toNat
  words : m.dataEnd.toNat = m.layout.dataBase.toNat + 4 * n

namespace Program

variable {p : Program} {l : Layout} {m : Memory} {e : MemoryError}

theorem toNat_dataBase (fits : p.FitsIn l) :
    l.dataBase.toNat = l.base.toNat + l.dataOffset.toNat := by
  rw [Layout.dataBase, BitVec.toNat_add]
  exact Nat.mod_eq_of_lt fits.mapped

theorem textBase_le_textEnd (fits : p.FitsIn l) :
    l.textBase.toNat ≤ (p.image l).textEnd.toNat ∧
      (p.image l).textEnd.toNat ≤ l.dataBase.toNat := by
  have text := fits.text
  have begins := toNat_dataBase fits
  rw [textEnd_image, toNat_slot_text fits (Nat.le_refl p.text.length), Layout.textBase]
  omega

theorem inOrder_image_iff (fits : p.FitsIn l) :
    (p.image l).InOrder p.data.length ↔
      l.dataBase.toNat + 4 * p.data.length < 0x100000000 := by
  have ends : (p.image l).dataEnd.toNat =
      (l.dataBase.toNat + 4 * p.data.length) % 0x100000000 := Word.toNat_slot ..
  constructor
  · intro order
    have bound := (p.image l).dataEnd.isLt
    have words := order.words
    rw [layout_image] at words
    omega
  · intro mapped
    have begins := toNat_dataBase fits
    have data := fits.data
    obtain ⟨text, gap⟩ := textBase_le_textEnd fits
    refine ⟨text, gap, ?_, rfl, ?_, ?_⟩ <;>
      · rw [layout_image]
        omega

/-- What memory has taken of a program that it refuses: the text, unless that is refused already. -/
def taken (p : Program) (l : Layout) : Program where
  text :=
    if 4 * p.text.length ≤ l.dataOffset.toNat ∧ 4 * p.text.length ≤ l.size.toNat then p.text else []

theorem image_empty (l : Layout) : (Program.mk [] []).image l = Memory.empty l := by
  simp only [image, List.length_nil, Word.slot_zero]
  rfl

theorem image_taken_of_refused (refused : p.placeIn (Memory.empty l) = (m, some e)) :
    m = (p.taken l).image l := by
  unfold placeIn at refused
  split at refused
  · rename_i tooLong
    cases refused
    have untaken :
        ¬(4 * p.text.length ≤ l.dataOffset.toNat ∧ 4 * p.text.length ≤ l.size.toNat) := by
      rintro ⟨text, room⟩
      cases tooLong.symm.trans (Memory.placeText_eq_ok_iff.mpr ⟨text, room, rfl⟩)
    rw [taken, if_neg untaken, image_empty]
  · rename_i m₁ placed
    obtain ⟨text, room, rfl⟩ := Memory.placeText_eq_ok_iff.mp placed
    split at refused
    · cases refused
      rw [taken, if_pos ⟨text, room⟩, image, List.length_nil, Word.slot_zero]
      rfl
    · cases refused

end Program

namespace Machine

variable {m m₀ m' : Machine} {prog : Program} {e : MemoryError}

/-- The text of a loaded program ends before its data begin, and its heap begins where they end.
That is behind their last word unless they reach the end of the address space, where the mark
wraps. -/
theorem inOrder_iff_of_load (loaded : m.load prog = (m₀, none)) :
    m₀.hart.mem.layout = m.hart.mem.layout ∧
      m₀.hart.mem.layout.textBase.toNat ≤ m₀.hart.mem.textEnd.toNat ∧
      m₀.hart.mem.textEnd.toNat ≤ m₀.hart.mem.layout.dataBase.toNat ∧
      m₀.hart.mem.dataEnd = m₀.hart.mem.heapEnd ∧
      m₀.hart.mem.dataEnd.toNat =
        (m₀.hart.mem.layout.dataBase.toNat + 4 * prog.data.length) % 0x100000000 ∧
      (m₀.hart.mem.InOrder prog.data.length ↔
        m₀.hart.mem.layout.dataBase.toNat + 4 * prog.data.length < 0x100000000) := by
  obtain ⟨fits, rfl⟩ := load_eq_none_iff.mp loaded
  obtain ⟨text, gap⟩ := Program.textBase_le_textEnd fits
  exact ⟨rfl, text, gap, rfl, Word.toNat_slot .., Program.inOrder_image_iff fits⟩

/-- A word of static data in the last four bytes of the address space. -/
theorem inOrder_iff_of_load_last :
    ∃ m₀, (start { layout := ⟨0xFFFFFFFC, 4, 0⟩ }
        ⟨{ source := .bytes {} none }, {}, {}, {}, ∅, 3⟩).load ⟨[1], []⟩ = (m₀, none) ∧
      m₀.hart.mem.dataEnd = 0 ∧ ¬m₀.hart.mem.InOrder 1 := by
  have fits : (Program.mk [1] []).FitsIn ⟨0xFFFFFFFC, 4, 0⟩ := ⟨by decide, by decide, by decide⟩
  obtain ⟨m₀, loaded, _, _, _, begun⟩ :=
    exists_load_start (c := { layout := ⟨0xFFFFFFFC, 4, 0⟩ }) fits
      ⟨{ source := .bytes {} none }, {}, {}, {}, ∅, 3⟩
  obtain ⟨layout, _, _, _, _, order⟩ := inOrder_iff_of_load loaded
  refine ⟨m₀, loaded, by rw [begun]; rfl, fun inOrder => ?_⟩
  have ends := order.mp inOrder
  rw [layout] at ends
  exact absurd ends (by decide)

/-- A machine whose processor, memory and count are those of another. -/
structure Undisturbed (m m' : Machine) : Prop where
  cpu : m'.hart.cpu = m.hart.cpu
  layout : m'.hart.mem.layout = m.hart.mem.layout
  marks : m'.hart.mem.marks = m.hart.mem.marks
  byteAt : ∀ k, m'.hart.mem.byteAt k = m.hart.mem.byteAt k
  steps : m'.steps = m.steps

theorem exists_load_of_snd {r : Option MemoryError} (outcome : (m.load prog).2 = r) :
    ∃ m', m.load prog = (m', r) :=
  ⟨(m.load prog).1, Prod.ext rfl outcome⟩

theorem load_eq_some (refused : m.load prog = (m', some e)) :
    m' = { m with
      hart := { m.hart with mem := (prog.taken m.hart.mem.layout).image m.hart.mem.layout } } := by
  unfold load at refused
  dsimp only at refused
  split at refused
  · rename_i placed
    cases refused
    rw [Program.image_taken_of_refused placed]
  · cases refused

/-- A refused program leaves the processor and the count alone, but memory as if what was taken of
it had been loaded. So the machine is as it was only if its memory was like that before. -/
theorem undisturbed_iff_of_refused (refused : m.load prog = (m', some e)) :
    m' = { m with
        hart := { m.hart with mem := (prog.taken m.hart.mem.layout).image m.hart.mem.layout } } ∧
      (Undisturbed m m' ↔
        m.hart.mem.marks =
            ((prog.taken m.hart.mem.layout).image m.hart.mem.layout).marks ∧
          ∀ k, m.hart.mem.byteAt k =
            ((prog.taken m.hart.mem.layout).image m.hart.mem.layout).byteAt k) := by
  have left := load_eq_some refused
  refine ⟨left, ?_⟩
  subst left
  constructor
  · exact fun same => ⟨same.marks.symm, fun k => (same.byteAt k).symm⟩
  · exact fun ⟨marks, bytes⟩ => ⟨rfl, rfl, marks.symm, fun k => (bytes k).symm, rfl⟩

/-- A machine executes the program that it has refused in place of the one that it has loaded. -/
theorem undisturbed_iff_of_refused_executed :
    ∃ m₀ m', (start { layout := { size := 16, dataOffset := 8 } }
        ⟨{ source := .bytes {} none }, {}, {}, {}, ∅, 3⟩).load ⟨[], [0x24080001]⟩ = (m₀, none) ∧
      m₀.load ⟨[1, 2, 3], [0x24090007]⟩ = (m', some (.beyond 0x00400008)) ∧
      ¬Undisturbed m₀ m' ∧ m₀.step.1.hart.cpu.read 9 = 0 ∧ m'.step.1.hart.cpu.read 9 = 7 := by
  let m₀ := ((start { layout := { size := 16, dataOffset := 8 } }
    ⟨{ source := .bytes {} none }, {}, {}, {}, ∅, 3⟩).load ⟨[], [0x24080001]⟩).1
  have stopped : (m₀.load ⟨[1, 2, 3], [0x24090007]⟩).2 = some (.beyond 0x00400008) := by
    decide +kernel
  obtain ⟨m', refused⟩ := exists_load_of_snd stopped
  obtain ⟨left, unchanged⟩ := undisturbed_iff_of_refused refused
  refine ⟨m₀, m', Prod.ext rfl (by decide +kernel), refused, fun same => ?_, by decide +kernel, ?_⟩
  · exact absurd ((unchanged.mp same).2 1) (by decide +kernel)
  · rw [left]
    decide +kernel

end Machine
end Mips
