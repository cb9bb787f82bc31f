import Mips.Proofs.Program.Loading
import Mips.Machine

/-!
What a machine leaves alone in its memory: where it lies and where its text and its static data end.
Main statements: `written_exec` and `written_serve`, an instruction and a service at most store
bytes, but for the one that grows the heap; `load_eq_none_iff`, what a program leaves when it is
loaded; and `sameMarks_of_load`, the marks are those of the program after any number of steps.
-/
namespace Mips

structure Memory.SameMarks (m m' : Memory) : Prop where
  layout : m'.layout = m.layout
  textEnd : m'.textEnd = m.textEnd
  dataEnd : m'.dataEnd = m.dataEnd

namespace Memory

variable {m m' : Memory}

theorem SameMarks.refl (m : Memory) : SameMarks m m := ⟨rfl, rfl, rfl⟩

theorem SameMarks.trans {m'' : Memory} (first : SameMarks m m') (second : SameMarks m' m'') :
    SameMarks m m'' :=
  ⟨second.layout.trans first.layout, second.textEnd.trans first.textEnd,
    second.dataEnd.trans first.dataEnd⟩

/-- A memory that is another with bytes stored in it, or that other itself. -/
inductive Written (m : Memory) : Memory → Prop
  | kept : Written m m
  | bytes {addr : Word} {bs : List UInt8} {m' : Memory} (done : m.write addr bs = .ok m') :
    Written m m'
  | block {addr : Word} {b : Block} {m' : Memory} (done : m.writeBlock addr b = .ok m') :
    Written m m'

theorem Written.marks_eq (written : Written m m') :
    m'.layout = m.layout ∧ m'.marks = m.marks ∧
      ∀ k, m.layout.size.toNat ≤ k → m'.byteAt k = m.byteAt k := by
  cases written with
  | kept => exact ⟨rfl, rfl, fun _ _ => rfl⟩
  | bytes done =>
    obtain ⟨off, backed, rfl⟩ := write_eq_ok_iff.mp done
    obtain ⟨_, _, within⟩ := offset?_eq_ok_iff.mp backed
    refine ⟨rfl, rfl, fun k beyond => ?_⟩
    rw [byteAt, Contents.byteAt_write, if_neg (by omega)]
    rfl
  | block done =>
    obtain ⟨off, backed, rfl⟩ := map_eq_ok_iff.mp done
    obtain ⟨_, _, within⟩ := offset?_eq_ok_iff.mp backed
    refine ⟨rfl, rfl, fun k beyond => ?_⟩
    rw [byteAt, Contents.byteAt_copy, if_neg (by omega)]
    rfl

theorem Written.sameMarks (written : Written m m') : SameMarks m m' := by
  obtain ⟨layout, marks, _⟩ := written.marks_eq
  exact ⟨layout, congrArg Marks.textEnd marks, congrArg Marks.dataEnd marks⟩

theorem sameMarks_grow (m : Memory) (incr : Word) : SameMarks m (m.grow incr) := ⟨rfl, rfl, rfl⟩

end Memory

open Memory (SameMarks Written)

namespace Hart

theorem mem_link (h : Hart) (links : Bool) : (h.link links).mem = h.mem := by
  unfold link
  split <;> rfl

theorem mem_branch (h : Hart) (taken : Bool) (imm : BitVec 16) :
    (h.branch taken imm).mem = h.mem := by
  unfold branch
  split <;> rfl

theorem mem_of_load {h h' : Hart} {op : Load} {rt : Register} {addr : Word}
    (loaded : h.load op rt addr = .ok h') : h'.mem = h.mem := by
  obtain ⟨w, _, rfl⟩ := map_eq_ok_iff.mp loaded
  rfl

theorem written_of_storeAt {h h' : Hart} {addr : Word} {width : Nat} {w : Word}
    (stored : h.storeAt addr width w = .ok h') : Written h.mem h'.mem := by
  unfold storeAt at stored
  split at stored
  · obtain ⟨m, written, rfl⟩ := map_eq_ok_iff.mp stored
    exact .bytes (mapError_eq_ok_iff.mp written)
  · cases stored

theorem written_of_store {h h' : Hart} {op : Store} {rt : Register} {addr : Word}
    (stored : h.store op rt addr = .ok h') : Written h.mem h'.mem := by
  obtain ⟨w, _, stored⟩ := bind_eq_ok_iff.mp stored
  obtain ⟨h₁, done, rfl⟩ := map_eq_ok_iff.mp stored
  have written := written_of_storeAt done
  split <;> exact written

theorem written_attempt {h : Hart} {x : Except Trap Hart}
    (written : ∀ h', x = .ok h' → Written h.mem h'.mem) :
    Written h.mem (h.attempt x).1.mem := by
  cases x with
  | error t => exact .kept
  | ok h' => exact written h' rfl

/-- What an instruction does to memory is to store bytes, if it does anything. -/
theorem written_exec (h : Hart) (i : Instruction) : Written h.mem (h.exec i).1.mem := by
  cases i with
  | alu op rd rs rt =>
    unfold exec
    dsimp only
    split <;> exact .kept
  | aluImm op rt rs imm =>
    unfold exec
    dsimp only
    split <;> exact .kept
  | moveFrom half rd => cases half <;> exact .kept
  | moveTo half rs => cases half <;> exact .kept
  | jump op target =>
    have kept : ((h.exec (.jump op target)).1).mem = h.mem := mem_link h _
    rw [kept]
    exact .kept
  | branchPair op rs rt imm =>
    have kept : ((h.exec (.branchPair op rs rt imm)).1).mem = h.mem := mem_branch h _ _
    rw [kept]
    exact .kept
  | branchZero op rs imm =>
    have kept : ((h.exec (.branchZero op rs imm)).1).mem = h.mem :=
      (mem_branch _ _ _).trans (mem_link h _)
    rw [kept]
    exact .kept
  | load op rt rs imm =>
    apply written_attempt
    intro h' loaded
    rw [mem_of_load loaded]
    exact .kept
  | store op rt rs imm => exact written_attempt fun h' stored => written_of_store stored
  | _ => exact .kept

theorem sameMarks_step (h : Hart) : SameMarks h.mem h.step.1.mem := by
  unfold step
  split
  · exact .refl _
  · split
    · exact .refl _
    · exact (written_exec (h.setPc (h.cpu.pc.add 4)) _).sameMarks

end Hart

namespace Process

theorem reg_answer (p : Process) (z : Int) : (p.answer z).1.reg Register.v0 = Word.ofInt z :=
  p.hart.cpu.read_write_self (p.hart.cpu.not_discards (by decide)) (Word.ofInt z)

theorem reg_answer_toNat (p : Process) (w : Word) :
    (p.answer w.toNat).1.reg Register.v0 = w := by
  rw [reg_answer, Word.ofInt_eq, BitVec.ofInt_natCast, BitVec.ofNat_toNat, BitVec.setWidth_eq]

theorem hart_printAll (p : Process) (b : Block) : (p.printAll b).1.hart = p.hart := by
  unfold printAll
  split
  · rename_i printed
    exact congrArg (·.2.hart) printed.symm
  · rename_i printed
    exact congrArg (·.2.hart) printed.symm

theorem hart_printInt (p : Process) (z : Int) : (p.printInt z).1.hart = p.hart := by
  unfold printInt
  split
  · rename_i p' printed
    rw [hart_printAll]
    exact congrArg (·.2.hart) printed.symm
  · rename_i printed
    exact congrArg (·.2.hart) printed.symm

theorem hart_printString (p : Process) (addr : Word) : (p.printString addr).1.hart = p.hart := by
  unfold printString
  split
  · rfl
  · exact hart_printAll ..

theorem mem_readInt (p : Process) : p.readInt.1.hart.mem = p.hart.mem := by
  unfold readInt
  split
  · rfl
  · split <;> rfl

theorem written_readString (p : Process) (addr : Word) (len : Int) :
    Written p.hart.mem (p.readString addr len).1.hart.mem := by
  unfold readString
  split
  · exact .kept
  · split
    · exact .kept
    · split
      · exact .kept
      · exact .bytes ‹_›

theorem mem_readChar (p : Process) : p.readChar.1.hart.mem = p.hart.mem := by
  unfold readChar
  split <;> rfl

theorem mem_openFile (p : Process) (name flags mode : Word) :
    (p.openFile name flags mode).1.hart.mem = p.hart.mem := by
  unfold openFile
  split
  · rfl
  · split
    · rfl
    · dsimp only
      split <;> rfl

theorem written_deliver (p : Process) (addr : Word) (b : Block) :
    Written p.hart.mem (p.deliver addr b).1.hart.mem := by
  unfold deliver
  split
  · exact .kept
  · exact .block ‹_›

theorem written_readBlock (p : Process) (fd addr len : Word) :
    Written p.hart.mem (p.readBlock fd addr len).1.hart.mem := by
  unfold readBlock
  split
  · exact .kept
  · split
    · split
      · exact .kept
      · rename_i b i _
        exact written_deliver (p.setInput i) addr b
    · split
      · exact .kept
      · split
        · exact .kept
        · rename_i b handle _
          exact written_deliver { p with host := p.host.setHandle fd handle } addr b

theorem mem_writeBlock (p : Process) (fd addr len : Word) :
    (p.writeBlock fd addr len).1.hart.mem = p.hart.mem := by
  unfold writeBlock
  split
  · rfl
  · split
    · split
      · rename_i printed
        exact congrArg (·.2.hart.mem) printed.symm
      · rename_i printed
        exact congrArg (·.2.hart.mem) printed.symm
    · split
      · rfl
      · split
        · rfl
        · split <;> rfl

theorem mem_closeFile (p : Process) (fd : Word) : (p.closeFile fd).1.hart.mem = p.hart.mem := by
  unfold closeFile
  split
  · rfl
  · split <;> rfl

theorem serve_of_sbrk {p : Process}
    (selected : Service.ofNumber? (p.reg Register.v0).toNat = some .sbrk) :
    p.serve = p.sbrk (p.reg Register.a0) := by
  unfold serve
  rw [selected]
  rfl

/-- What a service does to memory is to store bytes, but for the one that grows the heap. -/
theorem written_serve {p : Process}
    (other : Service.ofNumber? (p.reg Register.v0).toNat ≠ some .sbrk) :
    Written p.hart.mem p.serve.1.hart.mem := by
  have unchanged {m : Memory} (same : m = p.hart.mem) : Written p.hart.mem m := same ▸ .kept
  unfold serve
  split
  · exact .kept
  · rename_i s number
    cases s with
    | printInt => exact unchanged (congrArg Hart.mem (hart_printInt ..))
    | printString => exact unchanged (congrArg Hart.mem (hart_printString ..))
    | readInt => exact unchanged (mem_readInt p)
    | readString => exact written_readString ..
    | sbrk => exact absurd number other
    | exit => exact .kept
    | printChar => exact unchanged (congrArg Hart.mem (hart_printAll ..))
    | readChar => exact unchanged (mem_readChar p)
    | openFile => exact unchanged (mem_openFile ..)
    | readBlock => exact written_readBlock ..
    | writeBlock => exact unchanged (mem_writeBlock ..)
    | closeFile => exact unchanged (mem_closeFile ..)
    | exitWith => exact .kept

theorem sameMarks_serve (p : Process) : SameMarks p.hart.mem p.serve.1.hart.mem := by
  by_cases grows : Service.ofNumber? (p.reg Register.v0).toNat = some .sbrk
  · rw [serve_of_sbrk grows]
    exact Memory.sameMarks_grow ..
  · exact (written_serve grows).sameMarks

end Process

namespace Machine

theorem sameMarks_step (m : Machine) : SameMarks m.hart.mem m.step.1.hart.mem := by
  have executed := m.hart.sameMarks_step
  unfold step
  dsimp only
  split
  · exact .refl _
  · split
    · exact .refl _
    · split
      · rename_i h stepped
        rwa [stepped] at executed
      · rename_i h stepped
        rw [stepped] at executed
        have served := Process.sameMarks_serve { m.toProcess with hart := h }
        split <;> exact executed.trans served
      · rename_i h t _ stepped
        rwa [stepped] at executed

/-- The machine after a number of steps, whatever each of them ended in. -/
def after (m : Machine) : Nat → Machine
  | 0 => m
  | n + 1 => (m.after n).step.1

theorem sameMarks_after (m : Machine) (n : Nat) : SameMarks m.hart.mem (m.after n).hart.mem := by
  induction n with
  | zero => exact .refl _
  | succ n ih => exact ih.trans (m.after n).sameMarks_step

theorem load_eq_none_iff {m m' : Machine} {prog : Program} :
    m.load prog = (m', none) ↔ prog.FitsIn m.hart.mem.layout ∧
      m' = { m with
        hart := ⟨Cpu.reset m.hart.cpu.settings m.hart.mem.layout.textBase,
          prog.image m.hart.mem.layout⟩
        steps := 0 } := by
  have placed {mem : Memory} : prog.placeIn (Memory.empty m.hart.mem.layout) = (mem, none) ↔
      prog.FitsIn m.hart.mem.layout ∧ mem = prog.image m.hart.mem.layout := Program.placeIn_empty
  unfold load
  dsimp only
  cases outcome : prog.placeIn (Memory.empty m.hart.mem.layout) with
  | mk mem refused =>
    cases refused with
    | none =>
      obtain ⟨fits, rfl⟩ := placed.mp outcome
      simp [fits, eq_comm]
    | some e =>
      have unfit : ¬prog.FitsIn m.hart.mem.layout := by
        intro fits
        rw [placed.mpr ⟨fits, rfl⟩] at outcome
        cases outcome
      simp [unfit]

theorem exists_load_start {c : Settings} {prog : Program} (fits : prog.FitsIn c.layout)
    (host : Host) :
    ∃ m, (start c host).load prog = (m, none) ∧ m.host = host ∧ m.steps = 0 ∧
      m.stepLimit = c.stepLimit ∧
      m.hart = ⟨Cpu.reset c.cpu c.layout.textBase, prog.image c.layout⟩ :=
  ⟨_, load_eq_none_iff.mpr ⟨fits, rfl⟩, rfl, rfl, rfl, rfl⟩

theorem sameMarks_of_load {m m₀ : Machine} {prog : Program} (loaded : m.load prog = (m₀, none))
    (n : Nat) : SameMarks (prog.image m.hart.mem.layout) (m₀.after n).hart.mem := by
  obtain ⟨_, same⟩ := load_eq_none_iff.mp loaded
  have image : m₀.hart.mem = prog.image m.hart.mem.layout := by rw [same]
  have kept := sameMarks_after m₀ n
  rwa [image] at kept

theorem step_of_exec {m : Machine} (text : m.hart.mem.isText m.hart.cpu.pc = true)
    (running : m.spent = none) {h : Hart} (executed : m.hart.step = (h, none)) :
    m.step = ({ m with hart := h, steps := m.steps + 1 }, none) := by
  simp only [step, text, running, executed, Bool.not_true, Bool.false_eq_true, if_false]

end Machine
end Mips
