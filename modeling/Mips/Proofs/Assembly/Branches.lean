import Mips.Proofs.Assembly.Encoding
import Mips.Proofs.Assembly.Labels
import Mips.Proofs.Hart.Transfer
import Mips.Proofs.Program.Loading

namespace Mips.Assembly

open Register (ofToken?)

inductive BranchesTo (cpu : Cpu) : List (List Char) → List Char → Bool → Prop
  | pair {op a b label rs rt} (ha : ofToken? a = some rs) (hb : ofToken? b = some rt) :
    BranchesTo cpu [(Op.branchPair op).name.toList, a, b, label] label
      (op.taken (cpu.read rs) (cpu.read rt))
  | zero {op a label rs} (ha : ofToken? a = some rs) :
    BranchesTo cpu [(Op.branchZero op).name.toList, a, label] label (op.taken (cpu.read rs))

theorem exists_denotes_of_branchesTo {cpu : Cpu} {toks : List (List Char)} {label : List Char}
    {taken : Bool} (branches : BranchesTo cpu toks label taken) {symbols : Symbols} {pc : Word}
    {imm : BitVec 16} (given : GivesDistance symbols pc label imm) :
    ∃ i, Denotes symbols pc toks i ∧ ∀ h : Hart, h.cpu = cpu →
      ∃ h', (h.setPc (h.cpu.pc.add 4)).exec i = (h', none) ∧
        h'.cpu.pc = Hart.destination h.cpu.pc taken imm := by
  cases branches with
  | pair ha hb =>
    refine ⟨_, .branchPair ha hb given, ?_⟩
    rintro h rfl
    exact ⟨_, rfl, Hart.pc_branch _ rfl _ imm⟩
  | zero ha =>
    refine ⟨_, .branchZero ha given, ?_⟩
    rintro h rfl
    exact ⟨_, rfl, Hart.pc_branch _ (Hart.pc_link ..) _ imm⟩

theorem exists_givesDistance {symbols : Symbols} {label : List Char} {addr : Word}
    (named : isName label = true) (known : symbols.address? label = some addr) (pc : Word) :
    ∃ imm : BitVec 16, GivesDistance symbols pc label imm ∧
      (imm.toNat : Int) = ((addr.toNat : Int) - (pc.toNat + 4)) / 4 % 0x10000 := by
  have held : ((BitVec.ofInt 16 (((addr.toNat : Int) - (pc.toNat + 4)) / 4)).toNat : Int) =
      ((addr.toNat : Int) - (pc.toNat + 4)) / 4 % 0x10000 := Place.ofInt_eq_iff.mp rfl
  exact ⟨_, .inr ⟨integer?_of_isName named, addr, known, held⟩, held⟩

/-- A branch to a label is encoded, and it leads to the line of the label as far as its field
reaches. A step executes it where memory holds its word. -/
theorem step_of_branchesTo {start : Word} {ls : List Line} {symbols : Symbols}
    (built : Symbols.ofLines ls start = .ok symbols) (short : ls.length < 0x20000000) {i k : Nat}
    {l target : Line} (line : ls[i]? = some l) (labelled : ls[k]? = some target)
    {label : List Char} (defined : label ∈ (leadingLabels target.text).1) {h : Hart} {taken : Bool}
    (branches : BranchesTo h.cpu (tokens (leadingLabels l.text).2) label taken)
    (here : h.cpu.pc = Word.slot start i) :
    ∃ w ins h', lineWord l (Word.slot start i) symbols = .ok w ∧
      Instruction.decode w = some ins ∧ (h.setPc (h.cpu.pc.add 4)).exec ins = (h', none) ∧
      (h.mem.readWord h.cpu.pc 4 = .ok w → h.step = (h', none)) ∧
      (taken = true → Hart.InReach ((k : Int) - i - 1) → h'.cpu.pc = Word.slot start k) ∧
      (taken = true → ¬Hart.InReach ((k : Int) - i - 1) → h'.cpu.pc ≠ Word.slot start k) ∧
      (taken = false → h'.cpu.pc = Word.slot start (i + 1)) := by
  have hi : i < 0x20000000 := Nat.lt_trans (List.getElem?_eq_some_iff.mp line).1 short
  have hk : k < 0x20000000 := Nat.lt_trans (List.getElem?_eq_some_iff.mp labelled).1 short
  have known := Symbols.address?_of_ofLines built labelled defined
  have named := isName_of_mem_leadingLabels defined
  obtain ⟨imm, given, held⟩ := exists_givesDistance named known (Word.slot start i)
  obtain ⟨ins, denotes, follows⟩ := exists_denotes_of_branchesTo branches given
  have decoded := Instruction.decode_encode (fits_of_denotes denotes)
  obtain ⟨h', executed, arrived⟩ := follows h rfl
  refine ⟨ins.encode, ins, h', lineWord_of_denotes denotes, decoded, executed, ?_, ?_, ?_, ?_⟩
  · intro fetched
    exact (Hart.step_of_decode fetched decoded).trans executed
  · rintro rfl reach
    rw [arrived, here]
    exact (Hart.destination_slot hi hk held).mpr reach
  · rintro rfl beyond
    rw [arrived, here]
    exact fun same => beyond ((Hart.destination_slot hi hk held).mp same)
  · rintro rfl
    rw [arrived, here, Word.slot_succ]
    rfl

theorem step_of_branchesTo_self :
    ∃ symbols w h',
      Symbols.ofLines [⟨1, "loop: bgez $zero, loop".toList⟩] 0x00400000 = .ok symbols ∧
      lineWord ⟨1, "loop: bgez $zero, loop".toList⟩ 0x00400000 symbols = .ok w ∧
      (Hart.mk (Cpu.reset {} 0x00400000) (Program.image ⟨[], [w]⟩ {})).step = (h', none) ∧
      h'.cpu.pc = 0x00400000 := by
  have peeled : leadingLabels "loop: bgez $zero, loop".toList =
      (["loop".toList], "bgez $zero, loop".toList) := by decide +kernel
  have cut : tokens "bgez $zero, loop".toList =
      [(Op.branchZero .bgez).name.toList, "$zero".toList, "loop".toList] := by decide +kernel
  obtain ⟨symbols, built⟩ : ∃ symbols,
      Symbols.ofLines [⟨1, "loop: bgez $zero, loop".toList⟩] 0x00400000 = .ok symbols := by
    rw [Symbols.ofLines, Symbols.addLines, peeled]
    simp only [Symbols.define, Symbols.address?, Std.ExtTreeMap.getElem?_empty]
    exact ⟨_, rfl⟩
  have defined : "loop".toList ∈ (leadingLabels "loop: bgez $zero, loop".toList).1 := by
    rw [peeled]
    exact List.mem_singleton.mpr rfl
  have branches : BranchesTo (Cpu.reset {} 0x00400000)
      (tokens (leadingLabels "loop: bgez $zero, loop".toList).2) "loop".toList true := by
    rw [peeled, cut]
    have zero : ofToken? "$zero".toList = some 0 := by decide
    exact @BranchesTo.zero _ .bgez _ _ _ zero
  have follow (w : Word) := step_of_branchesTo built (by decide) (i := 0) (k := 0) rfl rfl defined
    (h := ⟨Cpu.reset {} 0x00400000, Program.image ⟨[], [w]⟩ {}⟩) branches rfl
  obtain ⟨w, _, _, encoded, _⟩ := follow 0
  obtain ⟨w', _, h', again, _, _, steps, reached, _⟩ := follow w
  obtain rfl : w = w' := Except.ok.inj (encoded.symm.trans again)
  have fits : (Program.mk [] [w]).FitsIn {} := ⟨by simp, by simp, by decide⟩
  have stepped := steps (Program.readWord_image fits (i := 0) rfl)
  exact ⟨symbols, w, h', built, encoded, stepped, reached rfl (by decide)⟩

end Mips.Assembly
