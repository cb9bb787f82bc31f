import Mips.Proofs.Hart.Alignment
import Mips.Proofs.Machine.Stores

/-!
Where the instructions that a machine executes are fetched from. The text check looks at the first
of four bytes. Main statement: `fetched_of_load`, the other three lie in the text too unless the
program has jumped out of line.
-/
namespace Mips

/-- In the text of a program, what begins in line with the first instruction ends in it. -/
theorem Memory.inText_of_inLine {prog : Program} {l : Layout} (fits : prog.FitsIn l) {mem : Memory}
    (marks : SameMarks (prog.image l) mem) {pc : Word} (first : mem.InText pc.toNat)
    (line : mem.layout.textBase.InLine pc) {k : Nat} (within : k < 4) :
    mem.InText (pc.toNat + k) := by
  have stop := Program.toNat_slot_text fits (Nat.le_refl prog.text.length)
  rw [← Program.textEnd_image, ← marks.textEnd] at stop
  have base : mem.layout.textBase = l.base := congrArg Layout.textBase marks.layout
  rw [Word.InLine, base] at line
  rw [InText, base, stop] at first ⊢
  -- the end of the text is in line too, so what begins before it ends four bytes on at the latest
  omega

namespace Machine

variable {m m₀ : Machine} {prog : Program} {i : Instruction}

/-- Whether a step executes a jump to an address that is no multiple of four away from the first
instruction. -/
def Misjumps (m : Machine) : Prop :=
  ∃ i ∈ m.current?, m.hart.Misjumps m.hart.mem.layout.textBase i

instance (m : Machine) : Decidable m.Misjumps :=
  inferInstanceAs (Decidable (∃ _ ∈ m.current?, _))

theorem inLine_step (line : m.hart.mem.layout.textBase.InLine m.hart.cpu.pc)
    (straight : ¬m.Misjumps) : m.hart.mem.layout.textBase.InLine m.step.1.hart.cpu.pc := by
  rcases m.executed_cases with ⟨_, same⟩ | ⟨i, current, same | ⟨_, same⟩⟩
  · rwa [same]
  · rw [same]
    apply Hart.inLine_exec (Word.inLine_add_four line)
    rw [Hart.misjumps_setPc]
    exact fun misjumps => straight ⟨i, current, misjumps⟩
  · rw [same, (Process.effect_serve _).pc]
    exact Word.inLine_add_four line

theorem inLine_after {n : Nat} (line : m.hart.mem.layout.textBase.InLine m.hart.cpu.pc)
    (straight : ∀ j < n, ¬(m.after j).Misjumps) :
    m.hart.mem.layout.textBase.InLine (m.after n).hart.cpu.pc := by
  induction n with
  | zero => exact line
  | succ n ih =>
    have before := ih fun j earlier => straight j (Nat.lt_succ_of_lt earlier)
    have layout := (sameMarks_after m n).layout
    rw [← layout] at before ⊢
    exact inLine_step before (straight n (Nat.lt_succ_self n))

/-- An instruction and the four bytes that it was fetched from. -/
structure Fetched (m : Machine) (i : Instruction) : Prop where
  first : m.hart.mem.InText m.hart.cpu.pc.toNat
  bytes : ∃ w, Instruction.decode w = some i ∧ Word.bytes w =
    (List.range' (m.hart.cpu.pc.toNat - m.hart.mem.layout.base.toNat) 4).map m.hart.mem.byteAt

theorem fetched_of_current? (current : m.current? = some i) : Fetched m i := by
  obtain ⟨text, _, next⟩ := current?_eq_some_iff.mp current
  obtain ⟨w, fetched, decoded⟩ := Option.bind_eq_some_iff.mp next
  obtain ⟨off, backed, bytes⟩ := Memory.bytes_of_readWord (toOption_eq_some_iff.mp fetched)
  obtain ⟨_, rfl, _⟩ := Memory.offset?_eq_ok_iff.mp backed
  exact ⟨Memory.isText_iff.mp text, w, decoded, bytes.trans (Contents.fetch_eq ..)⟩

/-- Every instruction that a loaded program executes was fetched from four bytes of which the first
lies in the text. The others lie there too if it is in line with the first instruction, as all are
up to a jump out of line. -/
theorem fetched_of_load (loaded : m.load prog = (m₀, none)) {n : Nat}
    (current : (m₀.after n).current? = some i) :
    Fetched (m₀.after n) i ∧
      (m₀.hart.mem.layout.textBase.InLine (m₀.after n).hart.cpu.pc → ∀ k < 4,
        (m₀.after n).hart.mem.InText ((m₀.after n).hart.cpu.pc.toNat + k)) ∧
      ((∀ j < n, ¬(m₀.after j).Misjumps) →
        m₀.hart.mem.layout.textBase.InLine (m₀.after n).hart.cpu.pc) := by
  obtain ⟨fits, rfl⟩ := load_eq_none_iff.mp loaded
  have marks := sameMarks_of_load loaded n
  have fetched := fetched_of_current? current
  refine ⟨fetched, fun line k within => ?_, inLine_after rfl⟩
  apply Memory.inText_of_inLine fits marks fetched.first ?_ within
  rwa [marks.layout]

theorem fetched_of_load_last :
    ∃ m₀, (start {} ⟨{ source := .bytes {} none }, {}, {}, {}, ∅, 3⟩).load
        ⟨[], [0x3C080040, 0x2508000C, 0x01000008, 0x24090001]⟩ = (m₀, none) ∧
      (m₀.after 3).current? = some (.aluImm .addiu 9 0 1) ∧
      ∀ k < 4, (m₀.after 3).hart.mem.InText ((m₀.after 3).hart.cpu.pc.toNat + k) := by
  let m₀ := ((start {} ⟨{ source := .bytes {} none }, {}, {}, {}, ∅, 3⟩).load
    ⟨[], [0x3C080040, 0x2508000C, 0x01000008, 0x24090001]⟩).1
  have loaded : (start {} ⟨{ source := .bytes {} none }, {}, {}, {}, ∅, 3⟩).load
      ⟨[], [0x3C080040, 0x2508000C, 0x01000008, 0x24090001]⟩ = (m₀, none) :=
    Prod.ext rfl (by decide +kernel)
  have current : (m₀.after 3).current? = some (.aluImm .addiu 9 0 1) := by decide +kernel
  have straight : ∀ j < 3, ¬(m₀.after j).Misjumps := by decide +kernel
  obtain ⟨_, whole, line⟩ := fetched_of_load loaded current
  exact ⟨m₀, loaded, current, whole (line straight)⟩

/-- After a jump to two bytes before the end of the text, an instruction is executed of which half
is static data. -/
theorem fetched_outside :
    ∃ m₀, (start { layout := { dataOffset := 16 } }
        ⟨{ source := .bytes {} none }, {}, {}, {}, ∅, 3⟩).load
        ⟨[0x002A0000], [0x3C080040, 0x3508000E, 0x01000008, 0x34002409]⟩ = (m₀, none) ∧
      (m₀.after 3).current? = some (.aluImm .addiu 9 0 42) ∧
      ¬(m₀.after 3).hart.mem.InText ((m₀.after 3).hart.cpu.pc.toNat + 2) ∧
      (m₀.after 4).hart.cpu.gpr[9] = 42 := by
  refine ⟨((start { layout := { dataOffset := 16 } }
    ⟨{ source := .bytes {} none }, {}, {}, {}, ∅, 3⟩).load
    ⟨[0x002A0000], [0x3C080040, 0x3508000E, 0x01000008, 0x34002409]⟩).1, Prod.ext rfl ?_, ?_, ?_,
    ?_⟩ <;> decide +kernel

end Machine
end Mips
