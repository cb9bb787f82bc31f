import Mips.Proofs.Hart.Registers
import Mips.Proofs.Hart.Transfer
import Mips.Proofs.Process.Stops

namespace Mips

theorem Input.length_line_le {fs : Files} {i j : Input} {n : Nat} {bs : List UInt8}
    (taken : i.line fs n = (.ok bs, j)) : bs.length ≤ n := by
  obtain ⟨cut, _⟩ := line_eq_ok taken
  rw [cut]
  exact length_lineOf_le n _

namespace Process

/-- The effects of a service on the processor and the memory, not on the outside. -/
inductive Effect (p : Process) : Hart → Prop
  | kept : Effect p p.hart
  | answered (w : Word) : Effect p (p.hart.write Register.v0 w)
  | grown (incr w : Word) :
    Effect p ({ p.hart with mem := p.hart.mem.grow incr }.write Register.v0 w)
  | line (selected : p.selected? = some .readString) {bs : List UInt8} {mem : Memory}
      (short : (bs.length : Int) ≤ (p.reg Register.a1).signed)
      (written : p.hart.mem.write (p.reg Register.a0) bs = .ok mem) :
    Effect p { p.hart with mem := mem }
  | block (selected : p.selected? = some .readBlock) {b : Block} {mem : Memory}
      (short : b.size ≤ (p.reg Register.a2).toNat)
      (written : p.hart.mem.writeBlock (p.reg Register.a1) b = .ok mem) (w : Word) :
    Effect p ({ p.hart with mem := mem }.write Register.v0 w)

variable {p q : Process}

theorem effect_of_hart (same : q.hart = p.hart) : Effect p q.hart := same ▸ .kept

theorem effect_answer (same : q.hart = p.hart) (z : Int) : Effect p (q.answer z).1.hart := by
  have answered : (q.answer z).1.hart = p.hart.write Register.v0 (Word.ofInt z) := by
    rw [← same]
    rfl
  exact answered ▸ .answered _

theorem effect_readInt (p : Process) : Effect p p.readInt.1.hart := by
  unfold readInt
  split
  · exact effect_of_hart rfl
  · split
    · exact effect_of_hart rfl
    · exact effect_answer rfl _

theorem effect_readString (selected : p.selected? = some .readString) :
    Effect p (p.readString (p.reg Register.a0) (p.reg Register.a1).signed).1.hart := by
  unfold readString
  split
  · exact .kept
  · split
    · exact effect_of_hart rfl
    · rename_i taken
      have short := Input.length_line_le taken
      split
      · exact effect_of_hart rfl
      · rename_i written
        refine .line selected ?_ written
        rw [List.length_append, List.length_singleton]
        omega

theorem effect_readChar (p : Process) : Effect p p.readChar.1.hart := by
  unfold readChar
  split
  · exact effect_of_hart rfl
  · exact effect_answer rfl _
  · exact effect_answer rfl _

theorem effect_openFile (p : Process) (name flags mode : Word) :
    Effect p (p.openFile name flags mode).1.hart := by
  unfold openFile
  split
  · exact .kept
  · split
    · exact effect_answer rfl _
    · dsimp only
      split
      · exact effect_answer rfl _
      · exact effect_answer rfl _

theorem effect_deliver (selected : p.selected? = some .readBlock) (same : q.hart = p.hart)
    {b : Block} (short : b.size ≤ (p.reg Register.a2).toNat) :
    Effect p (q.deliver (p.reg Register.a1) b).1.hart := by
  unfold deliver
  split
  · exact effect_of_hart same
  · rename_i mem written
    rw [same] at written
    have stored : ((q.setMemory mem).answer b.size).1.hart =
        { p.hart with mem := mem }.write Register.v0 (Word.ofInt b.size) := by
      rw [← same]
      rfl
    exact stored ▸ .block selected short written _

theorem effect_readBlock (selected : p.selected? = some .readBlock) (fd : Word) :
    Effect p (p.readBlock fd (p.reg Register.a1) (p.reg Register.a2)).1.hart := by
  unfold readBlock
  split
  · exact .kept
  · split
    · split
      · exact effect_answer rfl _
      · rename_i b i taken
        exact effect_deliver (q := p.setInput i) selected rfl (Input.size_le_of_read taken)
    · split
      · exact effect_answer rfl _
      · split
        · exact effect_answer rfl _
        · rename_i b handle taken
          exact effect_deliver (q := { p with host := p.host.setHandle fd handle }) selected rfl
            (Files.size_le_of_read taken)

theorem effect_writeBlock (p : Process) (fd addr len : Word) :
    Effect p (p.writeBlock fd addr len).1.hart := by
  unfold writeBlock
  split
  · exact .kept
  · split
    · split
      · rename_i printed
        exact effect_answer (congrArg (·.2.hart) printed).symm _
      · rename_i printed
        exact effect_of_hart (congrArg (·.2.hart) printed).symm
    · split
      · exact effect_answer rfl _
      · split
        · exact effect_answer rfl _
        · split
          · exact effect_answer rfl _
          · exact effect_answer rfl _

theorem effect_closeFile (p : Process) (fd : Word) : Effect p (p.closeFile fd).1.hart := by
  unfold closeFile
  split
  · exact effect_answer rfl _
  · split
    · exact effect_answer rfl _
    · exact effect_answer rfl _

theorem effect_serve (p : Process) : Effect p p.serve.1.hart := by
  unfold serve
  split
  · exact .kept
  · rename_i s number
    have selected : p.selected? = some s := number
    cases s with
    | printInt => exact effect_of_hart (hart_printInt ..)
    | printString => exact effect_of_hart (hart_printString ..)
    | readInt => exact effect_readInt p
    | readString => exact effect_readString selected
    | sbrk => exact .grown _ _
    | exit => exact .kept
    | printChar => exact effect_of_hart (hart_printAll ..)
    | readChar => exact effect_readChar p
    | openFile => exact effect_openFile ..
    | readBlock => exact effect_readBlock selected _
    | writeBlock => exact effect_writeBlock ..
    | closeFile => exact effect_closeFile ..
    | exitWith => exact .kept

theorem Effect.writes {h : Hart} (effect : Effect p h) :
    p.hart.cpu.Writes (some Register.v0) h.cpu := by
  cases effect with
  | kept => exact .refl ..
  | line => exact .refl p.hart.cpu _
  | answered w => exact Cpu.writes_write ..
  | grown incr w => exact Cpu.writes_write p.hart.cpu ..
  | block _ _ _ w => exact Cpu.writes_write p.hart.cpu ..

theorem Effect.pc {h : Hart} (effect : Effect p h) : h.cpu.pc = p.hart.cpu.pc := by
  cases effect with
  | kept | line => rfl
  | answered w => exact Cpu.pc_write ..
  | grown incr w => exact Cpu.pc_write p.hart.cpu ..
  | block _ _ _ w => exact Cpu.pc_write p.hart.cpu ..

end Process
end Mips
