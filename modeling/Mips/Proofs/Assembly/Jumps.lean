import Mips.Proofs.Assembly.Encoding
import Mips.Proofs.Assembly.Labels
import Mips.Proofs.Hart.Transfer
import Mips.Proofs.Program.Loading

namespace Mips.Assembly

open Hart (region)

theorem exists_givesTarget {symbols : Symbols} {label : List Char} {addr : Word}
    (named : isName label = true) (known : symbols.address? label = some addr) :
    ∃ target : Word, GivesTarget symbols label target ∧
      target.toNat = addr.toNat / 4 % 0x4000000 := by
  have narrow : 26 ≤ 32 := by decide
  have held : (((BitVec.ofInt 26 ((addr.toNat : Int) / 4)).setWidth 32 : Word).toNat : Int) =
      (addr.toNat : Int) / 4 % 0x4000000 := (Place.setWidth_ofInt_eq_iff narrow).mp rfl
  exact ⟨_, .inr ⟨integer?_of_isName named, addr, known, held⟩, by omega⟩

theorem exists_denotes_of_jumps {symbols : Symbols} {label : List Char} {addr : Word}
    (named : isName label = true) (known : symbols.address? label = some addr) {op : Jump}
    {toks : List (List Char)} (jumps : toks = [(Op.jump op).name.toList, label]) (pc : Word) :
    ∃ field, Denotes symbols pc toks (.jump op field) ∧
      field.toNat = addr.toNat / 4 % 0x4000000 := by
  obtain ⟨field, given, held⟩ := exists_givesTarget named known
  refine ⟨field, ?_, held⟩
  rw [jumps]
  exact .jump given

/-- A jump to a label is encoded wherever it stands. It leads to the label if that lies in the
region of the next instruction, and else to the address that lies as far behind the start of that
region. A step executes it where memory holds its word. -/
theorem step_of_jumps {start : Word} (aligned : start.toNat % 4 = 0) {ls : List Line}
    {symbols : Symbols} (built : Symbols.ofLines ls start = .ok symbols) {l : Line} {op : Jump}
    {label : List Char} (jumps : tokens (leadingLabels l.text).2 = [(Op.jump op).name.toList, label])
    {addr : Word} (defined : symbols.address? label = some addr) (h : Hart) :
    ∃ w ins h', lineWord l h.cpu.pc symbols = .ok w ∧ Instruction.decode w = some ins ∧
      (h.setPc (h.cpu.pc.add 4)).exec ins = (h', none) ∧
      (h.mem.readWord h.cpu.pc 4 = .ok w → h.step = (h', none)) ∧
      (h'.cpu.pc = addr ↔ region addr = region (h.cpu.pc.add 4)) ∧
      h'.cpu.pc.toNat = region (h.cpu.pc.add 4) * 0x10000000 + addr.toNat % 0x10000000 ∧
      (op = .jal → h'.cpu.read Register.ra = h.cpu.pc.add 4) := by
  obtain ⟨k, target, _, labelled, place⟩ := Symbols.exists_slot_of_ofLines built defined
  obtain ⟨field, denotes, held⟩ :=
    exists_denotes_of_jumps (isName_of_mem_leadingLabels labelled) defined jumps h.cpu.pc
  have decoded := Instruction.decode_encode (fits_of_denotes denotes)
  have small : field.toNat < 0x4000000 := by
    rw [held]
    exact Nat.mod_lt _ (by decide)
  -- the start is a multiple of four, so the two bits that the field drops are zero
  have whole : 4 * field.toNat = addr.toNat % 0x10000000 := by
    have wrapped := congrArg BitVec.toNat place
    rw [Word.toNat_slot] at wrapped
    omega
  let next := h.setPc (h.cpu.pc.add 4)
  have executed : next.exec (.jump op field) =
      ((next.link op.links).setPc (Hart.jumpAddress next.cpu.pc field), none) := rfl
  refine ⟨_, _, _, lineWord_of_denotes denotes, decoded, executed, ?_, ?_, ?_, ?_⟩
  · intro fetched
    exact (Hart.step_of_decode fetched decoded).trans executed
  · refine (Hart.jumpAddress_eq_iff small).trans ?_
    rw [whole]
    exact and_iff_right rfl
  · refine (Hart.toNat_jumpAddress _ small).trans ?_
    rw [whole]
    rfl
  · rintro rfl
    exact Hart.read_ra_link next

theorem step_of_jumps_last :
    ∃ symbols w h',
      Symbols.ofLines [⟨1, "back: nop".toList⟩, ⟨2, "jal back".toList⟩] 0x0FFFFFF8 = .ok symbols ∧
      symbols.address? "back".toList = some 0x0FFFFFF8 ∧
      lineWord ⟨2, "jal back".toList⟩ 0x0FFFFFFC symbols = .ok w ∧
      (Hart.mk (Cpu.reset {} 0x0FFFFFFC)
        (Program.image ⟨[], [0, w]⟩ { base := 0x0FFFFFF8 })).step = (h', none) ∧
      h'.cpu.pc = 0x1FFFFFF8 ∧ h'.cpu.read Register.ra = 0x10000000 := by
  have peeled : leadingLabels "back: nop".toList = (["back".toList], "nop".toList) := by
    decide +kernel
  have unlabelled : leadingLabels "jal back".toList = ([], "jal back".toList) := by
    decide +kernel
  have jumps : tokens (leadingLabels "jal back".toList).2 =
      [(Op.jump .jal).name.toList, "back".toList] := by decide +kernel
  obtain ⟨symbols, built⟩ : ∃ symbols,
      Symbols.ofLines [⟨1, "back: nop".toList⟩, ⟨2, "jal back".toList⟩] 0x0FFFFFF8 =
        .ok symbols := by
    rw [Symbols.ofLines, Symbols.addLines, peeled]
    simp only [Symbols.define, Symbols.address?, Std.ExtTreeMap.getElem?_empty, Symbols.addLines,
      unlabelled]
    exact ⟨_, rfl⟩
  have defined : symbols.address? "back".toList = some 0x0FFFFFF8 := by
    refine Symbols.address?_of_ofLines built (k := 0) rfl ?_
    rw [peeled]
    exact List.mem_singleton.mpr rfl
  have follow (w : Word) := step_of_jumps (by decide) built (l := ⟨2, "jal back".toList⟩) jumps
    defined ⟨Cpu.reset {} 0x0FFFFFFC, Program.image ⟨[], [0, w]⟩ { base := 0x0FFFFFF8 }⟩
  obtain ⟨w, _, _, encoded, _⟩ := follow 0
  obtain ⟨w', _, h', again, _, _, steps, _, arrived, linked⟩ := follow w
  obtain rfl : w = w' := Except.ok.inj (encoded.symm.trans again)
  have fits : (Program.mk [] [0, w]).FitsIn { base := 0x0FFFFFF8 } :=
    ⟨by simp, by simp, by decide⟩
  have stepped := steps (Program.readWord_image fits (i := 1) rfl)
  have place : region ((Cpu.reset {} 0x0FFFFFFC).pc.add 4) * 0x10000000 +
      (0x0FFFFFF8 : Word).toNat % 0x10000000 = (0x1FFFFFF8 : Word).toNat := by decide
  refine ⟨symbols, w, h', built, defined, encoded, stepped, ?_, linked rfl⟩
  exact BitVec.eq_of_toNat_eq (arrived.trans place)

end Mips.Assembly
