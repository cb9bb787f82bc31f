import Mips.Proofs.Process.Printing
import Mips.Proofs.Process.Streams

namespace Mips

namespace Input

variable {n : Nat} {input line : List UInt8}

/-- The longest beginning of an input of at most `n` bytes that has none behind its first
newline. -/
structure IsLine (n : Nat) (input line : List UInt8) : Prop where
  front : line <+: input
  short : line.length ≤ n
  ends : 10 ∉ line.dropLast
  longest : ∀ other, other <+: input → other.length ≤ n → 10 ∉ other.dropLast →
    other.length ≤ line.length

theorem IsLine.fits (isLine : IsLine (n - 1) input line) (room : 0 < n) :
    (line ++ [0]).length ≤ n := by
  have short := isLine.short
  rw [List.length_append, List.length_singleton]
  omega

theorem lineOf_front (n : Nat) (bs : List UInt8) : lineOf n bs <+: bs := by
  induction n generalizing bs with
  | zero => exact List.nil_prefix
  | succ n ih =>
    cases bs with
    | nil => exact List.nil_prefix
    | cons b bs =>
      rw [lineOf]
      split
      · exact List.cons_prefix_cons.mpr ⟨rfl, List.nil_prefix⟩
      · exact List.cons_prefix_cons.mpr ⟨rfl, ih bs⟩

theorem not_mem_dropLast_cons_iff {b : UInt8} {bs : List UInt8} :
    10 ∉ (b :: bs).dropLast ↔ (bs = [] ∨ b ≠ 10) ∧ 10 ∉ bs.dropLast := by
  cases bs with
  | nil => simp
  | cons c bs => simp [eq_comm]

theorem length_le_lineOf {other bs : List UInt8} (front : other <+: bs) (short : other.length ≤ n)
    (ends : 10 ∉ other.dropLast) : other.length ≤ (lineOf n bs).length := by
  induction n generalizing other bs with
  | zero => omega
  | succ n ih =>
    cases other with
    | nil => exact Nat.zero_le _
    | cons c other =>
      cases bs with
      | nil => cases List.prefix_nil.mp front
      | cons b bs =>
        obtain ⟨rfl, behind⟩ := List.cons_prefix_cons.mp front
        obtain ⟨last, later⟩ := not_mem_dropLast_cons_iff.mp ends
        rw [lineOf]
        split
        · rename_i newline
          simp [last.resolve_right (· newline)]
        · exact Nat.succ_le_succ (ih behind (Nat.le_of_succ_le_succ short) later)

theorem isLine_lineOf (n : Nat) (bs : List UInt8) : IsLine n bs (lineOf n bs) where
  front := lineOf_front n bs
  short := length_lineOf_le n bs
  ends := not_mem_dropLast_lineOf n bs
  longest _ := length_le_lineOf

end Input

namespace Memory

structure Holds (m : Memory) (addr : Word) (bs : List UInt8) : Prop where
  backed : m.layout.Backs addr bs.length
  bytes : m.contents.fetch (m.layout.offset addr) bs.length = bs

variable {m : Memory} {addr : Word}

theorem exists_write {bs : List UInt8} (backed : m.layout.Backs addr bs.length) :
    ∃ m', m.write addr bs = .ok m' ∧ m'.layout = m.layout ∧ m'.marks = m.marks ∧
      m'.Holds addr bs ∧ ∀ k, k < m.layout.offset addr ∨ m.layout.offset addr + bs.length ≤ k →
        m'.byteAt k = m.byteAt k := by
  refine ⟨_, write_eq_ok_iff.mpr ⟨_, offset?_of_backs backed, rfl⟩, rfl, rfl, ⟨backed, ?_⟩,
    fun k outside => ?_⟩
  · have whole : (m.contents.write (m.layout.offset addr) bs).fetch (m.layout.offset addr + 0)
        bs.length = (bs.drop 0).take bs.length := Contents.fetch_write_within _ _ (by omega)
    simpa using whole
  · simp only [byteAt, Contents.byteAt_write]
    exact if_neg (by omega)

theorem Holds.readString {line : List UInt8} (held : m.Holds addr (line ++ [0]))
    (zeroless : 0 ∉ line) : ∃ b, m.readString addr = .ok b ∧ b.toList = line := by
  obtain ⟨backed, bytes⟩ := held
  rw [List.length_append, List.length_singleton] at backed bytes
  exact exists_readString (offset?_of_backs (backed.mono (Nat.zero_le _))) backed.2 bytes zeroless

end Memory

namespace Process

variable {p q : Process} {place : Option Path} {line : List UInt8}

theorem Prints.of_sound {bs : List UInt8} (prints : p.Prints bs) (sound : p.host.output.Sound) :
    p.serve.2 = .resume ∧ p.serve.1.host.output.written = p.host.output.written ++ bs := by
  obtain ⟨b, served, rfl⟩ := prints.block
  obtain ⟨q, wrote, _, _, grown⟩ := printAll_of_sound sound b
  rw [served, wrote]
  exact ⟨rfl, grown⟩

structure ReadsLine (p : Process) (line : List UInt8) (q : Process) : Prop where
  isLine : Input.IsLine ((p.reg Register.a1).toNat - 1) p.unread line
  input : p.unread = line ++ q.unread
  held : q.hart.mem.Holds (p.reg Register.a0) (line ++ [0])
  bytes : ∀ k, k < p.hart.mem.layout.offset (p.reg Register.a0) ∨
    p.hart.mem.layout.offset (p.reg Register.a0) + (line ++ [0]).length ≤ k →
      q.hart.mem.byteAt k = p.hart.mem.byteAt k
  layout : q.hart.mem.layout = p.hart.mem.layout
  marks : q.hart.mem.marks = p.hart.mem.marks
  cpu : q.hart.cpu = p.hart.cpu
  host : q.host = { p.host with input := q.host.input }

theorem readsLine_of_sound (sound : p.host.input.source.Sound place)
    (selected : p.selected? = some .readString) (room : 1 ≤ (p.reg Register.a1).signed)
    (backed : p.hart.mem.layout.Backs (p.reg Register.a0) (p.reg Register.a1).toNat) :
    p.serve.2 = .resume ∧ ∃ line, p.ReadsLine line p.serve.1 := by
  have size := Word.signed_of_pos room
  have limit : ((p.reg Register.a1).signed - 1).toNat = (p.reg Register.a1).toNat - 1 := by omega
  obtain ⟨line, i, read, _⟩ :=
    Input.line_of_sound sound p.host.files ((p.reg Register.a1).toNat - 1) #[]
  obtain ⟨same, rest⟩ := Input.line_eq_ok read
  rw [← same.trans (List.nil_append _)] at rest
  have isLine : Input.IsLine ((p.reg Register.a1).toNat - 1) p.unread line :=
    same ▸ Input.isLine_lineOf ..
  have fits : (line ++ [0]).length ≤ (p.reg Register.a1).toNat := isLine.fits (by omega)
  obtain ⟨m, written, layout, marks, held, bytes⟩ :=
    Memory.exists_write (backed.mono fits)
  have served : p.serve = ((p.setInput i).setMemory m, .resume) := by
    rw [serve_of_selected selected, perform, readString, if_neg (by omega), limit, read]
    dsimp only
    rw [written]
  rw [served]
  exact ⟨rfl, line, isLine, rest, held, bytes, layout, marks, rfl, rfl⟩

structure CallsOn (p : Process) (addr : Word) (n : Nat) (later : Process) : Prop where
  layout : later.hart.mem.layout = p.hart.mem.layout
  kept : ∀ i < n, later.hart.mem.byteAt (p.hart.mem.layout.offset addr + i) =
    p.hart.mem.byteAt (p.hart.mem.layout.offset addr + i)
  service : (later.reg Register.v0).toNat = 4
  argument : later.reg Register.a0 = addr

theorem CallsOn.prints {later : Process} {addr : Word} {n : Nat} (calls : p.CallsOn addr n later)
    (held : p.hart.mem.Holds addr (line ++ [0])) (within : (line ++ [0]).length ≤ n)
    (zeroless : 0 ∉ line) : later.Prints line := by
  have again : later.hart.mem.Holds (later.reg Register.a0) (line ++ [0]) := by
    rw [calls.argument]
    refine ⟨calls.layout ▸ held.backed, ?_⟩
    rw [calls.layout]
    refine Eq.trans (Contents.fetch_congr fun i there => ?_) held.bytes
    exact calls.kept i (Nat.lt_of_lt_of_le there within)
  obtain ⟨b, read, rfl⟩ := again.readString zeroless
  exact prints_of_readString calls.service read

theorem exists_callsOn {addr : Word} {n : Nat} (argument : p.reg Register.a0 = addr) :
    ∃ later : Process, p.CallsOn addr n later ∧ later.host = p.host := by
  refine ⟨p.setReg Register.v0 4, ⟨rfl, fun _ _ => rfl, ?_, ?_⟩, rfl⟩
  · simp [setReg, reg, Hart.write, Cpu.read_write, Register.index, Register.v0]
  · rw [← argument]
    simp [setReg, reg, Hart.write, Cpu.read_write, Register.index, Register.v0, Register.a0]

/-- A read of at least one byte from an input that cannot fail stores a line of it with a zero
behind it, and a line with no zero in it is what the buffer prints. Other reads do nothing. -/
theorem serve_readString (selected : p.selected? = some .readString) :
    ((p.reg Register.a1).signed ≤ 0 → p.serve = (p, .resume)) ∧
      (1 ≤ (p.reg Register.a1).signed → p.host.input.source.Sound place →
        p.hart.mem.layout.Backs (p.reg Register.a0) (p.reg Register.a1).toNat →
          p.serve.2 = .resume ∧ ∃ line, p.ReadsLine line p.serve.1 ∧
            (0 ∉ line → ∀ later : Process,
              p.serve.1.CallsOn (p.reg Register.a0) (p.reg Register.a1).toNat later →
                later.Prints line ∧
                  (later.host.output.Sound → later.serve.2 = .resume ∧
                    later.serve.1.host.output.written =
                      later.host.output.written ++ line))) := by
  constructor
  · intro none
    rw [serve_of_selected selected, perform, readString, if_pos (by omega)]
  · intro room sound backed
    obtain ⟨resumes, line, reads⟩ := readsLine_of_sound sound selected room backed
    refine ⟨resumes, line, reads, fun zeroless later calls => ?_⟩
    have size := Word.signed_of_pos room
    have within := reads.isLine.fits (by omega)
    have prints := calls.prints reads.held within zeroless
    exact ⟨prints, prints.of_sound⟩

theorem serve_readString_full :
    ∃ p : Process, p.selected? = some .readString ∧ (p.reg Register.a1).signed = 4 ∧
      p.unread = [97, 98, 10, 99] ∧ p.serve.2 = .resume ∧
      p.ReadsLine [97, 98, 10] p.serve.1 ∧ p.serve.1.hart.mem.byteAt 4 = 7 ∧
      ∃ later : Process, p.serve.1.CallsOn (p.reg Register.a0) (p.reg Register.a1).toNat later ∧
        later.serve.2 = .resume ∧ later.serve.1.host.output.written = [97, 98, 10] := by
  let cpu := (((Cpu.reset {} 0x00400000).write Register.v0 8).write Register.a0 0x00400000).write
    Register.a1 4
  let mem : Memory := { Memory.empty {} with contents := (∅ : Contents).write 0 [7, 7, 7, 7, 7] }
  let p : Process :=
    ⟨⟨cpu, mem⟩, { input := ⟨[97, 98, 10, 99], .bytes {} none⟩, output := {}, files := {} }⟩
  have selected : p.selected? = some .readString := by decide
  obtain ⟨resumes, line, reads, prints⟩ :=
    (serve_readString selected).2 (by decide) (.bytes {}) (by decide)
  obtain rfl : line = [97, 98, 10] := by
    have left : p.serve.1.unread = [99] := by decide +kernel
    have input : [97, 98, 10] ++ [99] = line ++ p.serve.1.unread := reads.input
    rw [left] at input
    exact (List.append_cancel_right input).symm
  have kept : p.serve.1.hart.mem.byteAt 4 = p.hart.mem.byteAt 4 := reads.bytes 4 (by decide)
  obtain ⟨later, calls, host⟩ := exists_callsOn (p := p.serve.1) (n := (p.reg Register.a1).toNat)
    (congrArg (·.read Register.a0) reads.cpu)
  have empty : later.host.output = {} := by rw [host, reads.host]
  have sound : later.host.output.Sound := empty ▸ ⟨rfl, nofun⟩
  obtain ⟨again, written⟩ := (prints (by decide) later calls).2 sound
  rw [empty] at written
  exact ⟨p, selected, by decide, rfl, resumes, reads, kept.trans (by decide +kernel), later, calls,
    again, written⟩

end Process
end Mips
