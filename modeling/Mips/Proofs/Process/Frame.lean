import Mips.Proofs.Hart.Updates
import Mips.Proofs.Machine.Stores
import Mips.Proofs.Process.Streams
import Mips.Proofs.Process.Descriptors

/-!
What a service leaves alone. Main statement: `framed_serve`, a service that does not stop the
program with a fault changes at most its answer, the bytes that it has read into a buffer, the end
of the heap or the table of descriptors, each of them for its own services only.
-/
namespace Mips

def Service.answers : Service → Bool
  | readInt | sbrk | readChar | openFile | readBlock | writeBlock | closeFile => true
  | printInt | printString | readString | exit | printChar | exitWith => false

theorem Errno.signed_answer (e : Errno) : (Word.ofInt e.answer).signed < 0 := by
  cases e <;> decide

theorem StreamError.signed_answer (e : StreamError) : (Word.ofInt e.answer).signed < 0 := by
  cases e with
  | refused e => exact e.signed_answer
  | _ => decide

namespace Process

variable {p : Process} {t : Trap} {k : Nat}

/-- The block that the host gives to a program that reads one. There is none if it refuses. -/
def given? (p : Process) : Option Block :=
  if p.reg Register.a0 = 0 then
    (p.host.input.read p.host.files (p.reg Register.a2).toNat).1.toOption
  else
    (p.host.handle? (p.reg Register.a0)).bind fun f =>
      (p.host.files.read f (p.reg Register.a2).toNat).toOption.map (·.1)

theorem onBuffer_of_succeeds (selected : p.selected? = some .readBlock)
    (succeeds : ∀ t, p.serve.2 ≠ .fault t) : p.OnBuffer .readBlock (p.reg Register.a0) := by
  refine ⟨selected, rfl, ?_⟩
  by_contra unbacked
  obtain ⟨e, refused⟩ := Memory.exists_error_of_not_backs unbacked
  apply succeeds (.bus (p.reg Register.a1) e)
  rw [serve_of_selected selected]
  simp only [perform, readBlock, refused, busFault]

theorem exists_deliver {q : Process} {d : Word} {b : Block} (call : p.OnBuffer .readBlock d)
    (same : q.hart = p.hart) (short : b.size ≤ (p.reg Register.a2).toNat) :
    ∃ mem, p.hart.mem.writeBlock (p.reg Register.a1) b = .ok mem ∧
      q.deliver (p.reg Register.a1) b = (q.setMemory mem).answer b.size := by
  obtain ⟨mem, written⟩ :=
    Memory.exists_writeBlock (Memory.offset?_of_backs call.backed) short
  refine ⟨mem, written, ?_⟩
  rw [deliver, same, written]

theorem serve_of_given? (call : p.OnBuffer .readBlock (p.reg Register.a0)) :
    ∃ q : Process, q.hart = p.hart ∧
      ((p.given? = none ∧ ∃ z : Int, (Word.ofInt z).signed < 0 ∧ p.serve = q.answer z) ∨
        ∃ b mem, p.given? = some b ∧ b.size ≤ (p.reg Register.a2).toNat ∧
          p.hart.mem.writeBlock (p.reg Register.a1) b = .ok mem ∧
          p.serve = (q.setMemory mem).answer b.size) := by
  by_cases input : p.reg Register.a0 = 0
  · have found := Memory.offset?_of_backs call.backed
    rw [serve_of_selected call.selected, perform, readBlock, given?, if_pos input]
    cases read : p.host.input.read p.host.files (p.reg Register.a2).toNat with
    | mk outcome i =>
      refine ⟨p.setInput i, rfl, ?_⟩
      cases outcome with
      | error e =>
        refine .inl ⟨rfl, _, e.signed_answer, ?_⟩
        simp only [found, if_pos input]
      | ok b =>
        have short := Input.size_le_of_read read
        obtain ⟨mem, written, delivered⟩ := exists_deliver (q := p.setInput i) call rfl short
        refine .inr ⟨b, mem, rfl, short, written, ?_⟩
        simp only [found, if_pos input, delivered]
  · rw [serve_of_readBlock call input, given?, if_neg input]
    cases p.host.handle? (p.reg Register.a0) with
    | none => exact ⟨p, rfl, .inl ⟨rfl, _, by decide, rfl⟩⟩
    | some f =>
      rw [Option.elim_some, readThrough, Option.bind_some]
      cases read : p.host.files.read f (p.reg Register.a2).toNat with
      | error e => exact ⟨p, rfl, .inl ⟨rfl, _, e.signed_answer, rfl⟩⟩
      | ok taken =>
        obtain ⟨b, g⟩ := taken
        let q : Process := { p with host := p.host.setHandle (p.reg Register.a0) g }
        have short := Files.size_le_of_read read
        obtain ⟨mem, written, delivered⟩ := exists_deliver (q := q) call rfl short
        exact ⟨q, rfl, .inr ⟨b, mem, rfl, short, written, delivered⟩⟩

/-- The bytes of memory that a service may change, by its answer: those of the buffer for a line,
and those that have been read of a block. -/
def Receives (p : Process) (answer : Word) (a : Nat) : Prop :=
  (p.selected? = some .readString ∧ 1 ≤ (p.reg Register.a1).signed ∧
    (p.reg Register.a0).toNat ≤ a ∧
      a < (p.reg Register.a0).toNat + (p.reg Register.a1).toNat) ∨
  (p.selected? = some .readBlock ∧ p.given?.isSome ∧ (p.reg Register.a1).toNat ≤ a ∧
    a < (p.reg Register.a1).toNat + answer.toNat)

structure Framed (p q : Process) : Prop where
  pc : q.hart.cpu.pc = p.hart.cpu.pc
  hi : q.hart.cpu.hi = p.hart.cpu.hi
  lo : q.hart.cpu.lo = p.hart.cpu.lo
  settings : q.hart.cpu.settings = p.hart.cpu.settings
  registers : ∀ r : Register, r.index ≠ Register.v0.index → q.reg r = p.reg r
  answer : q.reg Register.v0 ≠ p.reg Register.v0 → ∃ s ∈ p.selected?, s.answers = true
  bytes : ∀ k, q.hart.mem.byteAt k ≠ p.hart.mem.byteAt k →
    p.Receives (q.reg Register.v0) (p.hart.mem.layout.base.toNat + k)
  counted : p.selected? = some .readBlock → ∀ b, p.given? = some b →
    (q.reg Register.v0).toNat = b.size ∧ b.size ≤ (p.reg Register.a2).toNat
  refused : p.selected? = some .readBlock → p.given? = none → (q.reg Register.v0).signed < 0
  layout : q.hart.mem.layout = p.hart.mem.layout
  textEnd : q.hart.mem.textEnd = p.hart.mem.textEnd
  dataEnd : q.hart.mem.dataEnd = p.hart.mem.dataEnd
  heapEnd : q.hart.mem.heapEnd ≠ p.hart.mem.heapEnd → p.selected? = some .sbrk
  /-- A descriptor stands for the same open file, be its position elsewhere. -/
  table : p.selected? = some .openFile ∨ p.selected? = some .closeFile ∨
    q.host.nextDescriptor = p.host.nextDescriptor ∧
      ∀ d, ∃ pos, q.host.handle? d = (p.host.handle? d).map (·.moved pos)

theorem Effect.cpu_eq {h : Hart} (effect : Effect p h) :
    h.cpu = p.hart.cpu ∨ ∃ w, h.cpu = p.hart.cpu.write Register.v0 w := by
  cases effect with
  | kept | line => exact .inl rfl
  | answered w => exact .inr ⟨w, rfl⟩
  | grown incr w => exact .inr ⟨w, rfl⟩
  | block _ _ _ w => exact .inr ⟨w, rfl⟩

theorem cpu_readString (p : Process) (addr : Word) (len : Int) :
    (p.readString addr len).1.hart.cpu = p.hart.cpu := by
  unfold readString
  split
  · rfl
  · split
    · rfl
    · split <;> rfl

theorem reg_serve_of_not_answers (silent : ∀ s ∈ p.selected?, s.answers = false) (r : Register) :
    p.serve.1.reg r = p.reg r := by
  cases selected : p.selected? with
  | none => rw [serve_of_unselected selected]
  | some s =>
    have quiet := silent s selected
    rw [serve_of_selected selected]
    cases s with
    | printInt => exact congrArg (·.cpu.read r) (hart_printInt ..)
    | printString => exact congrArg (·.cpu.read r) (hart_printString ..)
    | printChar => exact congrArg (·.cpu.read r) (hart_printAll ..)
    | readString => exact congrArg (·.read r) (cpu_readString ..)
    | exit | exitWith => rfl
    | _ => cases quiet

theorem answer_of_readBlock (call : p.OnBuffer .readBlock (p.reg Register.a0)) :
    (∀ b, p.given? = some b → (p.serve.1.reg Register.v0).toNat = b.size ∧
      b.size ≤ (p.reg Register.a2).toNat) ∧
    (p.given? = none → (p.serve.1.reg Register.v0).signed < 0) ∧
    ∀ k, p.serve.1.hart.mem.byteAt k ≠ p.hart.mem.byteAt k →
      p.Receives (p.serve.1.reg Register.v0) (p.hart.mem.layout.base.toNat + k) := by
  obtain ⟨q, same, ⟨none, z, negative, served⟩ | ⟨b, mem, given, short, written, served⟩⟩ :=
    serve_of_given? call
  · rw [served, none, reg_answer]
    refine ⟨nofun, fun _ => negative, fun k changed => ?_⟩
    exact absurd (congrArg (·.mem.byteAt k) same) changed
  · have count : (p.serve.1.reg Register.v0).toNat = b.size := by
      rw [served]
      exact toNat_answer_size short _
    rw [count, given]
    refine ⟨fun c same => ?_, nofun, fun k changed => ?_⟩
    · obtain rfl := Option.some.inj same
      exact ⟨rfl, short⟩
    · rw [served] at changed
      by_contra unreceived
      apply changed
      apply Memory.byteAt_of_writeBlock written
      intro within
      rw [← count] at within
      exact unreceived (.inr ⟨call.selected, by rw [given]; rfl, within⟩)

theorem receives_of_ne (succeeds : ∀ t, p.serve.2 ≠ .fault t)
    (changed : p.serve.1.hart.mem.byteAt k ≠ p.hart.mem.byteAt k) :
    p.Receives (p.serve.1.reg Register.v0) (p.hart.mem.layout.base.toNat + k) := by
  by_cases block : p.selected? = some .readBlock
  · exact (answer_of_readBlock (onBuffer_of_succeeds block succeeds)).2.2 k changed
  · by_contra unreceived
    apply changed
    apply p.effect_serve.byteAt
    intro s selected fills
    cases s with
    | readString =>
      have bound := @Word.signed_of_pos (p.reg Register.a1)
      rw [Fills] at fills
      exact unreceived (.inl ⟨selected, by omega, fills.1, by omega⟩)
    | readBlock => exact block selected
    | _ => exact fills

theorem table_of_serve (opens : p.selected? ≠ some .openFile)
    (closes : p.selected? ≠ some .closeFile) :
    p.serve.1.host.nextDescriptor = p.host.nextDescriptor ∧
      ∀ d, ∃ pos, p.serve.1.host.handle? d = (p.host.handle? d).map (·.moved pos) := by
  have unmoved (d : Word) : ∃ pos, p.host.handle? d = (p.host.handle? d).map (·.moved pos) := by
    cases p.host.handle? d with
    | none => exact ⟨0, rfl⟩
    | some f =>
      obtain ⟨pos, same⟩ := f.exists_eq_moved
      exact ⟨pos, congrArg some same⟩
  cases p.turn_serve with
  | kept same =>
    refine ⟨congrArg (·.2) same, fun d => ?_⟩
    obtain ⟨pos, still⟩ := unmoved d
    exact ⟨pos, (congrArg (·.1[d]?) same).trans still⟩
  | opened opened => exact absurd (selected_of_opened? opened) opens
  | moved _ listed pos moved =>
    refine ⟨congrArg (·.2) moved, fun d => ?_⟩
    rw [Host.handle?_of_insert moved]
    split
    · rename_i here
      rw [here, listed]
      exact ⟨pos, rfl⟩
    · exact unmoved d
  | closed closing => exact absurd closing closes

/-- A service that succeeds changes only what it names. -/
theorem framed_serve (succeeds : ∀ t, p.serve.2 ≠ .fault t) : Framed p p.serve.1 := by
  have effect := p.effect_serve
  have marks := p.sameMarks_serve
  obtain ⟨gpr, cpu⟩ : ∃ gpr, p.serve.1.hart.cpu = { p.hart.cpu with gpr := gpr } := by
    rcases effect.cpu_eq with same | ⟨w, same⟩
    · exact ⟨_, same⟩
    · exact ⟨_, same.trans (Cpu.write_eq ..)⟩
  constructor
  case pc => rw [cpu]
  case hi => rw [cpu]
  case lo => rw [cpu]
  case settings => rw [cpu]
  case registers =>
    intro r other
    rcases effect.cpu_eq with same | ⟨w, same⟩
    · exact congrArg (·.read r) same
    · rw [reg, same, Cpu.read_write, if_pos (.inr (Ne.symm other))]
      rfl
  case answer =>
    intro changed
    by_contra silent
    apply changed
    apply reg_serve_of_not_answers
    intro s selected
    exact Bool.eq_false_iff.mpr fun answers => silent ⟨s, selected, answers⟩
  case bytes => exact fun k changed => receives_of_ne succeeds changed
  case counted => exact fun block => (answer_of_readBlock (onBuffer_of_succeeds block succeeds)).1
  case refused => exact fun block => (answer_of_readBlock (onBuffer_of_succeeds block succeeds)).2.1
  case layout => exact marks.layout
  case textEnd => exact marks.textEnd
  case dataEnd => exact marks.dataEnd
  case heapEnd =>
    intro changed
    by_contra other
    exact changed (congrArg Memory.Marks.heapEnd (written_serve other).marks_eq.2.1)
  case table =>
    by_cases opens : p.selected? = some .openFile
    · exact .inl opens
    · by_cases closes : p.selected? = some .closeFile
      · exact .inr (.inl closes)
      · exact .inr (.inr (table_of_serve opens closes))

theorem framed_serve_short :
    ∃ p : Process, p.selected? = some .readBlock ∧ (p.reg Register.a2).toNat = 5 ∧
      (∀ t, p.serve.2 ≠ .fault t) ∧ Framed p p.serve.1 ∧
      (p.serve.1.reg Register.v0).toNat = 2 ∧ p.serve.1.hart.mem.byteAt 1 = 98 ∧
      p.serve.1.hart.mem.byteAt 2 = 7 := by
  let cpu := (((Cpu.reset {} 0x00400000).write Register.v0 14).write Register.a1 0x00400000).write
    Register.a2 5
  let mem : Memory := { Memory.empty {} with contents := (∅ : Contents).write 0 [7, 7, 7, 7, 7] }
  let p : Process :=
    ⟨⟨cpu, mem⟩, { input := ⟨[97, 98], .bytes {} none⟩, output := {}, files := {} }⟩
  have resumes : p.serve.2 = .resume := by decide +kernel
  have succeeds : ∀ t, p.serve.2 ≠ .fault t := fun t stopped => nomatch resumes.symm.trans stopped
  have framed := framed_serve succeeds
  have count : (p.serve.1.reg Register.v0).toNat = 2 := by decide +kernel
  have kept : p.serve.1.hart.mem.byteAt 2 = p.hart.mem.byteAt 2 := by
    by_contra changed
    rcases framed.bytes 2 changed with ⟨line, _⟩ | ⟨_, _, _, within⟩
    · cases line
    · rw [count] at within
      revert within
      decide
  exact ⟨p, by decide, by decide, succeeds, framed, count, by decide +kernel,
    kept.trans (by decide +kernel)⟩

end Process
end Mips
