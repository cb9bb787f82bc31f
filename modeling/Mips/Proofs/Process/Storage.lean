import Mips.Proofs.Host.Storage
import Mips.Proofs.Process.Calls
import Mips.Proofs.Process.Frame
import Mips.Proofs.Process.Lines

/-!
Blocks that a program writes to a file, and what it reads from the file afterwards. Main statements:
`writes_served`, the blocks go behind what the file holds, one behind the other; `reads_callers`, a
file is read piece by piece; and `Session.answered_of_asks`, a file that is written, closed and
opened again gives back the blocks in pieces of any lengths.
-/
namespace Mips

namespace OpenMode

theorem writing_ofWord (w : Word) : (ofWord w).writing = w.getLsbD 0 := by
  simp [ofWord, BitVec.getLsbD, Nat.testBit_eq_decide_div_mod_eq, beq_eq_decide]

theorem appending_ofWord (w : Word) : (ofWord w).appending = w.getLsbD 3 := by
  simp [ofWord, BitVec.getLsbD, Nat.testBit_eq_decide_div_mod_eq, beq_eq_decide]

end OpenMode

namespace Memory

variable {m : Memory} {addr : Word} {bs : List UInt8}

instance (m : Memory) (addr : Word) (bs : List UInt8) : Decidable (m.Holds addr bs) :=
  decidable_of_iff (m.layout.Backs addr bs.length ∧
      m.contents.fetch (m.layout.offset addr) bs.length = bs)
    ⟨fun ⟨backed, bytes⟩ => ⟨backed, bytes⟩, fun held => ⟨held.backed, held.bytes⟩⟩

theorem Holds.read (held : m.Holds addr bs) :
    ∃ b, m.read addr bs.length = .ok b ∧ b.toList = bs :=
  ⟨_, map_eq_ok_iff.mpr ⟨_, offset?_of_backs held.backed, rfl⟩, held.bytes⟩

theorem exists_holds {b : Block} (backed : m.layout.Backs addr b.size) :
    ∃ m', m.writeBlock addr b = .ok m' ∧ m'.Holds addr b.toList ∧
      ∀ k, k < m.layout.offset addr ∨ m.layout.offset addr + b.size ≤ k →
        m'.byteAt k = m.byteAt k := by
  rw [← b.length_toList] at backed ⊢
  obtain ⟨m', stored, layout, bytes⟩ := (stores_writeBlock m addr b).ok backed
  refine ⟨m', stored, ⟨layout ▸ backed, ?_⟩, fun k outside => ?_⟩
  · rw [layout]
    apply List.ext_getElem (Contents.length_fetch ..)
    intro i _ within
    have byte := bytes (m.layout.offset addr + i)
    rw [if_pos ⟨Nat.le_add_right .., Nat.add_lt_add_left within _⟩, Nat.add_sub_cancel_left,
      List.getD_eq_getElem?_getD, List.getElem?_eq_getElem within] at byte
    rw [Contents.getElem_fetch]
    exact byte
  · rw [bytes, if_neg (by omega)]

end Memory

namespace Process

variable {p : Process} {path : List Char} {fd : Word} {f : Handle} {fs : Files}

structure OpensPath (p : Process) (path : List Char) : Prop where
  selected : p.selected? = some .openFile
  name : ∃ b, p.hart.mem.readString (p.reg Register.a0) = .ok b ∧ b.size ≤ Files.maxPath ∧
    Text.ofUtf8Lossy b.toList = path

structure WritesBlock (p : Process) (fd : Word) (bs : List UInt8) : Prop where
  selected : p.selected? = some .writeBlock
  descriptor : p.reg Register.a0 = fd
  length : (p.reg Register.a2).toNat = bs.length
  held : p.hart.mem.Holds (p.reg Register.a1) bs

structure ReadsBlock (p : Process) (fd : Word) (n : Nat) : Prop where
  onBuffer : p.OnBuffer .readBlock fd
  length : (p.reg Register.a2).toNat = n

instance (p : Process) (path : List Char) : Decidable (p.OpensPath path) :=
  decidable_of_iff (_ ∧ ∃ _, _ ∧ _)
    ⟨fun ⟨selected, name⟩ => ⟨selected, name⟩, fun opens => ⟨opens.selected, opens.name⟩⟩

instance (p : Process) (fd : Word) (bs : List UInt8) : Decidable (p.WritesBlock fd bs) :=
  decidable_of_iff (_ ∧ _ ∧ _ ∧ _)
    ⟨fun ⟨selected, descriptor, length, held⟩ => ⟨selected, descriptor, length, held⟩,
      fun writes => ⟨writes.selected, writes.descriptor, writes.length, writes.held⟩⟩

instance (p : Process) (fd : Word) (n : Nat) : Decidable (p.ReadsBlock fd n) :=
  decidable_of_iff (_ ∧ _)
    ⟨fun ⟨onBuffer, length⟩ => ⟨onBuffer, length⟩, fun reads => ⟨reads.onBuffer, reads.length⟩⟩

/-- A read puts bytes into the buffer, and no others, and answers how many they are. -/
structure Gets (p : Process) (bs : List UInt8) : Prop where
  resumes : p.serve.2 = .resume
  counted : (p.serve.1.reg Register.v0).toNat = bs.length
  held : p.serve.1.hart.mem.Holds (p.reg Register.a1) bs
  others : ∀ k, k < p.hart.mem.layout.offset (p.reg Register.a1) ∨
    p.hart.mem.layout.offset (p.reg Register.a1) + bs.length ≤ k →
      p.serve.1.hart.mem.byteAt k = p.hart.mem.byteAt k

structure Gains (p : Process) (f : Handle) (fs : Files) : Prop where
  resumes : p.serve.2 = .resume
  answer : p.serve.1.reg Register.v0 = p.host.nextDescriptor
  files : p.serve.1.host.files = fs
  handle : p.serve.1.host.handle? p.host.nextDescriptor = some f
  next : p.serve.1.host.nextDescriptor = p.host.nextDescriptor + 1

theorem gains_of_openAs (opens : p.OpensPath path)
    (granted : p.host.files.openAs (.ofWord (p.reg Register.a1)) path (p.reg Register.a2).toNat =
      .ok (f, fs)) : p.Gains f fs := by
  obtain ⟨selected, b, read, short, rfl⟩ := opens
  have served : p.serve = p.answerOpened (.ok (f, fs)) := by
    rw [serve_of_selected selected, perform, openFile_of_read read, if_neg (Nat.not_lt.mpr short),
      granted]
  constructor
  case resumes => rw [served]; rfl
  case answer => rw [served]; exact reg_answer_toNat _ p.host.nextDescriptor
  case files => rw [served]; rfl
  case handle => rw [served]; exact Host.handle?_setHandle_self ..
  case next => rw [served]; rfl

theorem gains_of_openWrite (opens : p.OpensPath path)
    (writing : (p.reg Register.a1).getLsbD 0 = true)
    (granted : p.host.files.openWrite path ((p.reg Register.a1).getLsbD 3)
      (p.reg Register.a2).toNat = .ok (f, fs)) : p.Gains f fs := by
  apply gains_of_openAs opens
  rw [Files.openAs, OpenMode.writing_ofWord, OpenMode.appending_ofWord, if_pos writing, granted]

theorem gains_of_openRead (opens : p.OpensPath path)
    (reading : (p.reg Register.a1).getLsbD 0 = false)
    (granted : p.host.files.openRead path = .ok f) : p.Gains f p.host.files := by
  apply gains_of_openAs opens
  rw [Files.openAs, OpenMode.writing_ofWord, reading, granted]
  rfl

theorem serve_of_closes_listed (closes : p.Closes fd) (file : 3 ≤ fd.toNat)
    (listed : p.host.handle? fd = some f) :
    (p.serve.2 = .resume ∧ p.serve.1.reg Register.v0 = 0) ∧
      p.serve.1.host.files = p.host.files ∧
      p.serve.1.host.nextDescriptor = p.host.nextDescriptor := by
  rw [serve_of_closes closes file, listed]
  exact ⟨⟨rfl, reg_answer _ 0⟩, rfl, rfl⟩

theorem serve_of_writesBlock {bs : List UInt8} (calls : p.WritesBlock fd bs)
    (file : 3 ≤ fd.toNat) (listed : p.host.handle? fd = some f) :
    ∃ b, b.toList = bs ∧ p.serve = p.writeThrough f b := by
  obtain ⟨selected, rfl, length, held⟩ := calls
  have stream {d : Word} (small : d.toNat < 3) : p.reg Register.a0 ≠ d := fun same => by
    rw [same] at file
    omega
  obtain ⟨b, read, served⟩ := serve_of_writeBlock ⟨selected, rfl, length ▸ held.backed⟩
    (stream (by decide)) (stream (by decide))
  obtain ⟨b', read', bytes⟩ := held.read
  rw [length, read'] at read
  obtain rfl := Except.ok.inj read
  rw [listed] at served
  exact ⟨b', bytes, served⟩

theorem gets_of_readsBlock {n pos : Nat} {place : Path} (calls : p.ReadsBlock fd n)
    (input : fd ≠ 0) (listed : p.host.handle? fd = some (.file place .read pos)) :
    p.Gets (((p.host.files.content place).drop pos).take n) ∧
      p.serve.1.host.files = p.host.files ∧
      p.serve.1.host.handle? fd = some (.file place .read
        (pos + (((p.host.files.content place).drop pos).take n).length)) := by
  obtain ⟨call, rfl⟩ := calls
  obtain ⟨b, taken, cut⟩ :=
    p.host.files.exists_read place pos (p.reg Register.a2).toNat
  have short := Files.size_le_of_read taken
  obtain ⟨mem, written, held, others⟩ := Memory.exists_holds (call.backed.mono short)
  rw [← cut, b.length_toList]
  let q : Process :=
    { p with host := p.host.setHandle (p.reg Register.a0) (.file place .read (pos + b.size)) }
  have served : p.serve = (q.setMemory mem).answer b.size := by
    rw [serve_of_readBlock call input, listed, Option.elim_some, readThrough, taken]
    simp only [deliver, written]
    rfl
  have gets : p.Gets b.toList := by
    constructor
    case resumes => rw [served]; rfl
    case counted => rw [served, b.length_toList]; exact toNat_answer_size short _
    case held => rw [served]; exact held
    case others => rw [served, b.length_toList]; exact others
  refine ⟨gets, by rw [served]; rfl, ?_⟩
  rw [served, ← call.descriptor]
  exact Host.handle?_setHandle_self ..

end Process

namespace Host

/-- The descriptor writes behind the last byte of a file, and nothing else has happened to the files
than that it has been put at its place. -/
structure Holding (h : Host) (fd : Word) (base : Files) (place : Path) (f : File) : Prop where
  files : h.files = base.put place f
  handle : ∃ g, h.handle? fd = some g ∧ g.AtEnd place f.size

variable {h : Host} {fd : Word} {base : Files} {place : Path} {f : File} {cs : List Hart}
  {bs : List UInt8}

theorem Holding.serve {p : Process} (holding : p.host.Holding fd base place f) (named : place ≠ [])
    (file : 3 ≤ fd.toNat) (calls : p.WritesBlock fd bs) :
    (p.serve.2 = .resume ∧ (p.serve.1.reg Register.v0).toNat = bs.length) ∧
      p.serve.1.host.nextDescriptor = p.host.nextDescriptor ∧
      ∃ g, p.serve.1.host.Holding fd base place g ∧ g.content = f.content ++ bs ∧
        g.mode = f.mode := by
  obtain ⟨g, listed, atEnd⟩ := holding.handle
  obtain ⟨b, rfl, served⟩ := Process.serve_of_writesBlock calls file listed
  obtain ⟨f', g', given, atEnd', content, mode⟩ := base.write_of_atEnd named atEnd b
  rw [← holding.files] at given
  rw [Process.writeThrough, given] at served
  rw [served]
  refine ⟨⟨rfl, ?_⟩, rfl, f', ⟨rfl, g', ?_, atEnd'⟩, content, mode⟩
  · rw [Process.reg_answer_toNat, calls.length]
  · rw [← calls.descriptor]
    exact handle?_setHandle_self ..

theorem writes_served (holding : h.Holding fd base place f) (named : place ≠ [])
    (file : 3 ≤ fd.toNat) {blocks : List (List UInt8)}
    (writes : List.Forall₂ (Process.WritesBlock · fd ·) (h.callers cs) blocks) :
    List.Forall₂ (fun p bs => p.serve.2 = .resume ∧ (p.serve.1.reg Register.v0).toNat = bs.length)
        (h.callers cs) blocks ∧
      (h.served cs).nextDescriptor = h.nextDescriptor ∧
      ∃ g, (h.served cs).Holding fd base place g ∧ g.content = f.content ++ blocks.flatten ∧
        g.mode = f.mode := by
  let Left (blocks' : List (List UInt8)) (h' : Host) : Prop :=
    h'.nextDescriptor = h.nextDescriptor ∧ ∃ g, h'.Holding fd base place g ∧
      g.content ++ blocks'.flatten = f.content ++ blocks.flatten ∧ g.mode = f.mode
  have step (p : Process) (bs : List UInt8) (blocks' : List (List UInt8))
      (left : Left (bs :: blocks') p.host) (writes : p.WritesBlock fd bs) :
      (p.serve.2 = .resume ∧ (p.serve.1.reg Register.v0).toNat = bs.length) ∧
        Left blocks' p.serve.1.host := by
    obtain ⟨next, g, holding, content, mode⟩ := left
    obtain ⟨answers, next', g', holding', content', mode'⟩ := holding.serve named file writes
    refine ⟨answers, next'.trans next, g', holding', ?_, mode'.trans mode⟩
    rw [content', List.append_assoc, ← List.flatten_cons]
    exact content
  obtain ⟨answers, next, g, holding', content, mode⟩ :=
    forall₂_callers Left step ⟨rfl, f, holding, rfl, rfl⟩ writes
  exact ⟨answers, next, g, holding', (List.append_nil _).symm.trans content, mode⟩

end Host

def pieces (bs : List UInt8) : List Nat → List (List UInt8)
  | [] => []
  | n :: ns => bs.take n :: pieces (bs.drop n) ns

namespace Host

variable {h : Host} {fd : Word} {place : Path} {pos : Nat} {cs : List Hart} {lengths : List Nat}

theorem reads_callers (input : fd ≠ 0) (listed : h.handle? fd = some (.file place .read pos))
    (reads : List.Forall₂ (Process.ReadsBlock · fd ·) (h.callers cs) lengths) :
    List.Forall₂ Process.Gets (h.callers cs)
      (pieces ((h.files.content place).drop pos) lengths) := by
  induction cs generalizing h pos lengths with
  | nil =>
    cases reads
    exact .nil
  | cons c cs ih =>
    cases reads with
    | cons first later =>
      rename_i n lengths
      obtain ⟨gets, same, moved⟩ := Process.gets_of_readsBlock first input listed
      have behind (bs : List UInt8) : bs.drop (bs.take n).length = bs.drop n := by
        rw [List.length_take, List.drop_eq_drop_iff]
        omega
      have others := ih moved later
      rw [same, ← List.drop_drop, behind] at others
      exact .cons gets others

end Host

/-- The calls of a program that creates a file, writes blocks to it, closes it, opens it again and
reads from it. -/
structure Session where
  creating : Hart
  writing : List Hart
  closing : Hart
  opening : Hart
  reading : List Hart

namespace Session

variable (s : Session) (h : Host)

def creator : Process := ⟨s.creating, h⟩

def writers : List Process := (s.creator h).serve.1.host.callers s.writing

def closer : Process := ⟨s.closing, (s.creator h).serve.1.host.served s.writing⟩

def opener : Process := ⟨s.opening, (s.closer h).serve.1.host⟩

def readers : List Process := (s.opener h).serve.1.host.callers s.reading

def appends : Bool := (s.creating.cpu.read Register.a1).getLsbD 3

/-- What the calls of a session are for. A path is opened for writing if the lowest bit of the flags
is set, and the other bits but one do not matter. -/
structure Asks (path : List Char) (blocks : List (List UInt8)) (lengths : List Nat) : Prop where
  creates : (s.creator h).OpensPath path
  creating : ((s.creator h).reg Register.a1).getLsbD 0 = true
  writes : List.Forall₂ (Process.WritesBlock · ((s.creator h).serve.1.reg Register.v0) ·)
    (s.writers h) blocks
  closes : (s.closer h).Closes ((s.creator h).serve.1.reg Register.v0)
  opens : (s.opener h).OpensPath path
  opening : ((s.opener h).reg Register.a1).getLsbD 0 = false
  reads : List.Forall₂ (Process.ReadsBlock · ((s.opener h).serve.1.reg Register.v0) ·)
    (s.readers h) lengths

def stored (place : Path) (blocks : List (List UInt8)) : List UInt8 :=
  (if s.appends then h.files.content place else []) ++ blocks.flatten

structure Answered (place : Path) (blocks : List (List UInt8)) (lengths : List Nat) : Prop where
  created : (s.creator h).serve.2 = .resume
  written : List.Forall₂
    (fun p bs => p.serve.2 = .resume ∧ (p.serve.1.reg Register.v0).toNat = bs.length)
    (s.writers h) blocks
  closed : (s.closer h).serve.2 = .resume ∧ (s.closer h).serve.1.reg Register.v0 = 0
  left : ∃ f, (s.closer h).serve.1.host.files.file? place = some f ∧
    f.content = s.stored h place blocks
  opened : (s.opener h).serve.2 = .resume
  read : List.Forall₂ Process.Gets (s.readers h) (pieces (s.stored h place blocks) lengths)

variable {s h} {path : List Char} {place : Path} {blocks : List (List UInt8)} {lengths : List Nat}

structure Leaves (s : Session) (h : Host) (place : Path) (f : File) : Prop where
  files : (s.closer h).serve.1.host.files = h.files.put place f
  next : (s.closer h).serve.1.host.nextDescriptor = h.nextDescriptor + 1

theorem leaves_of_asks (low : 3 ≤ h.nextDescriptor.toNat)
    (grants : h.files.Grants path s.appends ((s.creator h).reg Register.a2).toNat place)
    (asks : s.Asks h path blocks lengths) :
    (s.creator h).serve.2 = .resume ∧
      List.Forall₂
        (fun p bs => p.serve.2 = .resume ∧ (p.serve.1.reg Register.v0).toNat = bs.length)
        (s.writers h) blocks ∧
      ((s.closer h).serve.2 = .resume ∧ (s.closer h).serve.1.reg Register.v0 = 0) ∧
      ∃ f, s.Leaves h place f ∧ f.content = s.stored h place blocks ∧
        (h.files.put place f).openRead path = .ok (.file place .read 0) := by
  obtain ⟨named, f, g, opened, atEnd, held, again⟩ := Files.exists_of_grants grants
  have gains : (s.creator h).Gains g (h.files.put place f) :=
    Process.gains_of_openWrite asks.creates asks.creating opened
  have fd : (s.creator h).serve.1.reg Register.v0 = h.nextDescriptor := gains.answer
  have writes := asks.writes
  have closes := asks.closes
  rw [fd] at writes closes
  obtain ⟨written, next, f', ⟨files, g', listed, _⟩, content, mode⟩ :=
    Host.writes_served ⟨gains.files, g, gains.handle, atEnd⟩ named low writes
  obtain ⟨closed, files', next'⟩ := Process.serve_of_closes_listed closes low listed
  refine ⟨gains.resumes, written, closed, f', ⟨files'.trans files, ?_⟩, ?_, again f' mode⟩
  · exact next'.trans (next.trans gains.next)
  · rw [content, held]
    rfl

/-- A file that is written, closed and opened again holds the blocks, and gives back what it holds
piece by piece. The counter of descriptors, which begins at three, must not have run out. -/
theorem answered_of_asks (low : 3 ≤ h.nextDescriptor.toNat)
    (few : h.nextDescriptor.toNat + 1 < 0x100000000)
    (grants : h.files.Grants path s.appends ((s.creator h).reg Register.a2).toNat place)
    (asks : s.Asks h path blocks lengths) : s.Answered h place blocks lengths := by
  obtain ⟨created, written, closed, f, left, stored, granted⟩ := leaves_of_asks low grants asks
  have named := (Files.exists_of_grants grants).1
  have there : (s.closer h).serve.1.host.files.content place = s.stored h place blocks := by
    rw [left.files, Files.content_put_self named, stored]
  have gains : (s.opener h).Gains (.file place .read 0) (s.closer h).serve.1.host.files :=
    Process.gains_of_openRead asks.opens asks.opening (left.files ▸ granted)
  have fd : (s.opener h).serve.1.reg Register.v0 = (s.closer h).serve.1.host.nextDescriptor :=
    gains.answer
  -- a counter that has wrapped would answer the descriptor of the input
  have input : (s.closer h).serve.1.host.nextDescriptor ≠ 0 := fun zero => by
    have wraps := congrArg BitVec.toNat (left.next.symm.trans zero)
    rw [BitVec.toNat_add_of_lt few] at wraps
    cases wraps
  have reads := asks.reads
  rw [fd] at reads
  have read := Host.reads_callers input gains.handle reads
  rw [gains.files, List.drop_zero, there] at read
  constructor
  case created => exact created
  case written => exact written
  case closed => exact closed
  case left =>
    refine ⟨f, ?_, stored⟩
    rw [left.files, Files.file?_put _ _ named, if_pos rfl]
  case opened => exact gains.resumes
  case read => exact read

theorem answered_of_asks_append :
    ∃ (s : Session) (h : Host), h.files.content [['f']] = [1, 2] ∧ s.appends = true ∧
      s.Asks h ['f'] [[3], [], [4, 5]] [2, 2, 7, 1] ∧
      s.Answered h [['f']] [[3], [], [4, 5]] [2, 2, 7, 1] ∧
      pieces (s.stored h [['f']] [[3], [], [4, 5]]) [2, 2, 7, 1] = [[1, 2], [3, 4], [5], []] := by
  let h : Host :=
    { input := ⟨[], .bytes {} none⟩, output := {},
      files := ({} : Files).put [['f']] (.ofBytes [1, 2] 0o644) }
  let mem : Memory :=
    { Memory.empty {} with contents := (∅ : Contents).write 0 [102, 0, 3, 4, 5] }
  let call (service a0 a1 a2 : Word) : Hart :=
    ⟨((((Cpu.reset {} 0x00400000).write Register.v0 service).write Register.a0 a0).write
      Register.a1 a1).write Register.a2 a2, mem⟩
  let s : Session :=
    { creating := call 13 0x00400000 0xFFFFFFF9 0
      writing := [call 15 3 0x00400002 1, call 15 3 0x00400000 0, call 15 3 0x00400003 2]
      closing := call 16 3 0 0
      opening := call 13 0x00400000 0xFFFFFFFE 0
      reading := [call 14 4 0x00400100 2, call 14 4 0x00400100 2, call 14 4 0x00400100 7,
        call 14 4 0x00400100 1] }
  have grants : h.files.Grants ['f'] s.appends ((s.creator h).reg Register.a2).toNat [['f']] := by
    decide +kernel
  have asks : s.Asks h ['f'] [[3], [], [4, 5]] [2, 2, 7, 1] := by
    constructor
    case closes => exact ⟨by decide, by decide +kernel⟩
    all_goals decide +kernel
  have answered := answered_of_asks (by decide) (by decide) grants asks
  exact ⟨s, h, by decide +kernel, by decide +kernel, asks, answered, by decide +kernel⟩

end Session
end Mips
