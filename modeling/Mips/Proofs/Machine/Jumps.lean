import Mips.Proofs.Assembly.Jumps
import Mips.Proofs.Machine.Marks
import Mips.Proofs.Program.Loading
import Mips.Assembly

/-!
Jumps to labels, from the source to the machine that runs it. Labels are resolved for one base of
the text, and a machine may place the text at another. Main statement: `pc_step_jump_iff`, when a
jump reaches the instruction that was labelled.
-/
namespace Mips

namespace Assembly

theorem getElem?_textWords {symbols : Symbols} {pc : Word} {ls : List Line} {ws : List Word}
    (encoded : textWords symbols pc ls = .ok ws) {i : Nat} {l : Line} (line : ls[i]? = some l) :
    ∃ w, ws[i]? = some w ∧ lineWord l (Word.slot pc i) symbols = .ok w := by
  induction ls generalizing pc ws i with
  | nil => simp at line
  | cons first ls ih =>
    obtain ⟨w, hw, rest⟩ := bind_eq_ok_iff.mp encoded
    obtain ⟨ws', hws, done⟩ := bind_eq_ok_iff.mp rest
    obtain rfl := Except.ok.inj done
    cases i with
    | zero =>
      obtain rfl := Option.some.inj line
      exact ⟨w, rfl, by rwa [Word.slot_zero]⟩
    | succ i =>
      obtain ⟨w', there, made⟩ := ih hws line
      exact ⟨w', there, by rwa [← Word.slot_add_four]⟩

theorem length_textWords {symbols : Symbols} {pc : Word} {ls : List Line} {ws : List Word}
    (encoded : textWords symbols pc ls = .ok ws) : ws.length = ls.length := by
  induction ls generalizing pc ws with
  | nil =>
    obtain rfl := Except.ok.inj encoded
    rfl
  | cons first ls ih =>
    obtain ⟨w, _, rest⟩ := bind_eq_ok_iff.mp encoded
    obtain ⟨ws', hws, done⟩ := bind_eq_ok_iff.mp rest
    obtain rfl := Except.ok.inj done
    rw [List.length_cons, List.length_cons, ih hws]

theorem Segments.assemble_eq_ok_iff {s : Segments} {prog : Program} :
    s.assemble = .ok prog ↔ ∃ symbols, dataWords s.data = .ok prog.data ∧
      Symbols.ofLines s.text textBase = .ok symbols ∧
        textWords symbols textBase s.text = .ok prog.text := by
  unfold assemble
  simp only [bind_eq_ok_iff, pure, Except.pure, Except.ok.injEq]
  constructor
  · rintro ⟨data, hdata, symbols, built, text, htext, rfl⟩
    exact ⟨symbols, hdata, built, htext⟩
  · rintro ⟨symbols, hdata, built, htext⟩
    exact ⟨prog.data, hdata, symbols, built, prog.text, htext, rfl⟩

theorem Segments.length_text {s : Segments} {prog : Program} (assembled : s.assemble = .ok prog) :
    prog.text.length = s.text.length := by
  obtain ⟨_, _, _, encoded⟩ := assemble_eq_ok_iff.mp assembled
  exact length_textWords encoded

theorem decode_jump_of_assemble {s : Segments} {prog : Program} (assembled : s.assemble = .ok prog)
    {i k : Nat} {l target : Line} (line : s.text[i]? = some l) (labelled : s.text[k]? = some target)
    {label : List Char} (defined : label ∈ (leadingLabels target.text).1) {op : Jump}
    (jumps : tokens (leadingLabels l.text).2 = [(Op.jump op).name.toList, label]) :
    ∃ w field, prog.text[i]? = some w ∧ Instruction.decode w = some (.jump op field) ∧
      field.toNat = (Word.slot textBase k).toNat / 4 % 0x4000000 := by
  obtain ⟨symbols, _, built, encoded⟩ := Segments.assemble_eq_ok_iff.mp assembled
  obtain ⟨w, there, made⟩ := getElem?_textWords encoded line
  have known := Symbols.address?_of_ofLines built labelled defined
  obtain ⟨field, denotes, held⟩ :=
    exists_denotes_of_jumps (isName_of_mem_leadingLabels defined) known jumps (Word.slot textBase i)
  obtain rfl : (Instruction.jump op field).encode = w :=
    Except.ok.inj ((lineWord_of_denotes denotes).symm.trans made)
  exact ⟨_, field, there, Instruction.decode_encode (fits_of_denotes denotes), held⟩

end Assembly

open Assembly

namespace Machine

/-- A machine that executes the unchanged word of a jump to a label gets to the labelled instruction
exactly when its text lies where the labels were resolved, up to the region, and the instruction
lies in the region of the one behind the jump. -/
theorem pc_step_jump_iff {source : List Char} {s : Segments}
    (divided : Segments.ofText source = .ok s) {prog : Program}
    (assembled : assemble source = .ok prog) {c : Settings} {host : Host} {m₀ : Machine}
    (loaded : (start c host).load prog = (m₀, none)) {i k : Nat} {l target : Line}
    (line : s.text[i]? = some l) (labelled : s.text[k]? = some target) {label : List Char}
    (defined : label ∈ (leadingLabels target.text).1) {op : Jump}
    (jumps : tokens (leadingLabels l.text).2 = [(Op.jump op).name.toList, label]) {n : Nat}
    (here : (m₀.after n).hart.cpu.pc = Word.slot c.layout.textBase i)
    (unmodified : ∀ w, prog.text[i]? = some w →
      (m₀.after n).hart.mem.readWord (m₀.after n).hart.cpu.pc 4 = .ok w)
    (running : (m₀.after n).spent = none) :
    ∃ m', (m₀.after n).step = (m', none) ∧
      (m'.hart.cpu.pc = Word.slot c.layout.textBase k ↔
        c.layout.base.toNat % 0x10000000 = textBase.toNat ∧
          (Word.slot c.layout.textBase k).toNat / 0x10000000 =
            (Word.slot c.layout.textBase (i + 1)).toNat / 0x10000000) := by
  have together : s.assemble = .ok prog := by
    simp only [assemble, divided] at assembled
    exact assembled
  obtain ⟨w, field, there, decoded, held⟩ :=
    decode_jump_of_assemble together line labelled defined jumps
  obtain ⟨fits, _⟩ := load_eq_none_iff.mp loaded
  have marks := sameMarks_of_load loaded n
  have hi : i < prog.text.length := (List.getElem?_eq_some_iff.mp there).1
  have hk : k < prog.text.length := by
    rw [Segments.length_text together]
    exact (List.getElem?_eq_some_iff.mp labelled).1
  have text : (m₀.after n).hart.mem.isText (m₀.after n).hart.cpu.pc = true := by
    have placed := Program.isText_image fits hi
    rw [Memory.isText_iff] at placed ⊢
    rw [here, marks.layout, marks.textEnd]
    exact placed
  have followed := Hart.step_of_decode (unmodified w there) decoded
  obtain ⟨h', executed, arrived⟩ :=
    Hart.pc_jump ((m₀.after n).hart.setPc ((m₀.after n).hart.cpu.pc.add 4)) op field
  refine ⟨_, step_of_exec text running (followed.trans executed), ?_⟩
  have next : ((m₀.after n).hart.setPc ((m₀.after n).hart.cpu.pc.add 4)).cpu.pc =
      Word.slot c.layout.textBase (i + 1) := by
    rw [Word.slot_succ, ← here]
    rfl
  have small : field.toNat < 0x4000000 := by
    rw [held]
    exact Nat.mod_lt _ (by decide)
  have base : textBase.toNat = 0x00400000 := rfl
  have moved : (Word.slot c.layout.textBase k).toNat = c.layout.base.toNat + 4 * k :=
    Program.toNat_slot_text fits (Nat.le_of_lt hk)
  have low : (Word.slot c.layout.textBase k).toNat % 0x10000000 = 4 * field.toNat ↔
      c.layout.base.toNat % 0x10000000 = textBase.toNat := by
    rw [held, Word.toNat_slot textBase, base, moved]
    omega
  calc h'.cpu.pc = Word.slot c.layout.textBase k
    _ ↔ Hart.jumpAddress (Word.slot c.layout.textBase (i + 1)) field =
        Word.slot c.layout.textBase k := by rw [arrived, next]
    _ ↔ _ := by rw [Hart.jumpAddress_eq_iff small, low]

/-- In a machine that places its text elsewhere, a jump misses its label. -/
theorem pc_step_jump_moved :
    ∃ m₀ m', assemble "j end\nnop\nend: nop\n".toList = .ok ⟨[], [0x08100002, 0, 0]⟩ ∧
      (start { layout := { base := 0x00500000 } }
        ⟨{ source := .bytes {} none }, {}, {}, {}, ∅, 3⟩).load ⟨[], [0x08100002, 0, 0]⟩ =
          (m₀, none) ∧
      m₀.hart.cpu.pc = 0x00500000 ∧ m₀.step = (m', none) ∧ m'.hart.cpu.pc ≠ 0x00500008 := by
  have divided : Segments.ofText "j end\nnop\nend: nop\n".toList =
      .ok ⟨[], [⟨1, "j end".toList⟩, ⟨2, "nop".toList⟩, ⟨3, "end: nop".toList⟩]⟩ :=
    toOption_eq_some_iff.mp (by decide +kernel)
  have assembled : assemble "j end\nnop\nend: nop\n".toList = .ok ⟨[], [0x08100002, 0, 0]⟩ :=
    toOption_eq_some_iff.mp (by decide +kernel)
  have defined : "end".toList ∈ (leadingLabels "end: nop".toList).1 := by decide +kernel
  have jumps : tokens (leadingLabels "j end".toList).2 =
      [(Op.jump .j).name.toList, "end".toList] := by decide +kernel
  have fits : (Program.mk [] [0x08100002, 0, 0]).FitsIn { base := 0x00500000 } :=
    ⟨by decide, by decide, by decide⟩
  obtain ⟨m₀, loaded, _, _, unlimited, begun⟩ :=
    exists_load_start (c := { layout := { base := 0x00500000 } }) fits
      ⟨{ source := .bytes {} none }, {}, {}, {}, ∅, 3⟩
  have here : m₀.hart.cpu.pc = Word.slot 0x00500000 0 := by
    rw [begun]
    decide
  have unmodified : ∀ w, ([0x08100002, 0, 0] : List Word)[0]? = some w →
      m₀.hart.mem.readWord m₀.hart.cpu.pc 4 = .ok w := by
    intro w there
    rw [here, begun]
    exact Program.readWord_image fits there
  have running : m₀.spent = none := by
    rw [spent, unlimited]
    rfl
  obtain ⟨m', stepped, reached⟩ := pc_step_jump_iff divided assembled loaded (i := 0) (k := 2) rfl
    rfl defined jumps (n := 0) here unmodified running
  refine ⟨m₀, m', assembled, loaded, here, stepped, ?_⟩
  intro same
  exact absurd (reached.mp same).1 (by decide)

end Machine
end Mips
