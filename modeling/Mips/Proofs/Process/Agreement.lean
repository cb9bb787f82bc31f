import Mips.Proofs.Host.Agreement
import Mips.Proofs.Machine.Steps

namespace Mips

theorem Memory.writeBlock_congr {b b' : Block} (same : b'.toList = b.toList) (m : Memory)
    (addr : Word) : m.writeBlock addr b' = m.writeBlock addr b := by
  simp only [writeBlock, Block.size_congr same, Block.copy_congr same]

namespace Process

/-- Processes of which one does as the other, on outsides that agree since they were `base` and
`base'`. -/
structure Abreast (base base' : Host) (p p' : Process) : Prop where
  hart : p'.hart = p.hart
  host : Host.Abreast base base' p.host p'.host

structure Alike (base base' : Host) (r r' : Process × Reply) : Prop where
  abreast : Abreast base base' r.1 r'.1
  reply : r'.2 = r.2

variable {base base' : Host} {p p' : Process}

namespace Abreast

theorem reg (abreast : Abreast base base' p p') (r : Register) : p'.reg r = p.reg r := by
  rw [Process.reg, Process.reg, abreast.hart]

theorem of_host {h h' : Host} (hosts : Host.Abreast base base' h h') (hart : Hart) :
    Abreast base base' ⟨hart, h⟩ ⟨hart, h'⟩ :=
  ⟨rfl, hosts⟩

theorem setInput (abreast : Abreast base base' p p') {i i' : Input} (agrees : i.Agrees i') :
    Abreast base base' (p.setInput i) (p'.setInput i') :=
  ⟨abreast.hart, abreast.host.setInput agrees⟩

theorem setMemory (abreast : Abreast base base' p p') (m : Memory) :
    Abreast base base' (p.setMemory m) (p'.setMemory m) :=
  ⟨by rw [Process.setMemory, Process.setMemory, abreast.hart], abreast.host⟩

theorem same (abreast : Abreast base base' p p') (reply : Reply) :
    Alike base base' (p, reply) (p', reply) :=
  ⟨abreast, rfl⟩

theorem answer (abreast : Abreast base base' p p') (z : Int) :
    Alike base base' (p.answer z) (p'.answer z) :=
  ⟨⟨congrArg (·.write Register.v0 (Word.ofInt z)) abreast.hart, abreast.host⟩, rfl⟩

theorem print (abreast : Abreast base base' p p') (b : Block) :
    ∃ r q q', p.print b = (r, q) ∧ p'.print b = (r, q') ∧ Abreast base base' q q' := by
  obtain ⟨r, fs, o, o', wrote, wrote', changed⟩ := abreast.host.write b
  unfold Process.print
  rw [abreast.hart, wrote, wrote']
  exact ⟨r, _, _, rfl, rfl, of_host changed p.hart⟩

theorem printAll (abreast : Abreast base base' p p') (b : Block) :
    Alike base base' (p.printAll b) (p'.printAll b) := by
  obtain ⟨r, q, q', printed, printed', abreast'⟩ := abreast.print b
  unfold Process.printAll
  rw [printed, printed']
  cases r with
  | error e => exact abreast'.same _
  | ok _ => exact abreast'.same _

theorem printInt (abreast : Abreast base base' p p') (z : Int) :
    Alike base base' (p.printInt z) (p'.printInt z) := by
  obtain ⟨r, q, q', printed, printed', abreast'⟩ :=
    abreast.print (.ofList (if z < 0 then Text.utf8 ['-'] else []))
  unfold Process.printInt
  rw [printed, printed']
  cases r with
  | error e => exact abreast'.same _
  | ok _ => exact abreast'.printAll _

theorem printString (abreast : Abreast base base' p p') (addr : Word) :
    Alike base base' (p.printString addr) (p'.printString addr) := by
  unfold Process.printString
  rw [abreast.hart]
  split
  · exact abreast.same _
  · exact abreast.printAll _

theorem readInt (abreast : Abreast base base' p p') : Alike base base' p.readInt p'.readInt := by
  obtain ⟨r, i, i', taken, taken', agrees⟩ :=
    Input.agrees_token abreast.host.input p.host.files #[]
  unfold Process.readInt
  rw [abreast.host.files, taken, taken']
  cases r with
  | error e => exact (abreast.setInput agrees).same _
  | ok tok =>
    dsimp only
    split
    · exact (abreast.setInput agrees).same _
    · exact (abreast.setInput agrees).answer _

theorem readString (abreast : Abreast base base' p p') (addr : Word) (len : Int) :
    Alike base base' (p.readString addr len) (p'.readString addr len) := by
  obtain ⟨r, i, i', taken, taken', agrees⟩ :=
    Input.agrees_line abreast.host.input p.host.files (len - 1).toNat #[]
  unfold Process.readString
  rw [abreast.host.files, abreast.hart, taken, taken']
  split
  · exact abreast.same _
  · cases r with
    | error e => exact (abreast.setInput agrees).same _
    | ok bs =>
      dsimp only
      split
      · exact (abreast.setInput agrees).same _
      · exact ((abreast.setInput agrees).setMemory _).same _

theorem sbrk (abreast : Abreast base base' p p') (incr : Word) :
    Alike base base' (p.sbrk incr) (p'.sbrk incr) := by
  unfold Process.sbrk
  rw [abreast.hart]
  exact (abreast.setMemory _).answer _

theorem readChar (abreast : Abreast base base' p p') :
    Alike base base' p.readChar p'.readChar := by
  obtain ⟨r, i, i', taken, taken', agrees⟩ := Input.agrees_next abreast.host.input p.host.files
  unfold Process.readChar
  rw [abreast.host.files, taken, taken']
  rcases r with e | none | b
  · exact (abreast.setInput agrees).same _
  · exact (abreast.setInput agrees).answer _
  · exact (abreast.setInput agrees).answer _

theorem openFile (abreast : Abreast base base' p p') (name flags mode : Word) :
    Alike base base' (p.openFile name flags mode) (p'.openFile name flags mode) := by
  unfold Process.openFile
  rw [abreast.hart, abreast.host.files]
  split
  · exact abreast.same _
  · split
    · exact abreast.answer _
    · dsimp only
      split
      · exact abreast.answer _
      · rename_i handle fs _
        obtain ⟨fd, opened⟩ := (abreast.host.setFiles fs).addHandle handle
        rw [fd]
        exact (of_host opened p.hart).answer _

theorem deliver (abreast : Abreast base base' p p') (addr : Word) {b b' : Block}
    (same : b'.toList = b.toList) : Alike base base' (p.deliver addr b) (p'.deliver addr b') := by
  unfold Process.deliver
  rw [abreast.hart, Memory.writeBlock_congr same, Block.size_congr same]
  split
  · exact abreast.same _
  · exact (abreast.setMemory _).answer _

theorem readBlock (abreast : Abreast base base' p p') (fd addr len : Word) :
    Alike base base' (p.readBlock fd addr len) (p'.readBlock fd addr len) := by
  unfold Process.readBlock
  rw [abreast.hart, abreast.host.files, abreast.host.handle? fd]
  split
  · exact abreast.same _
  · split
    · rcases Input.agrees_read abreast.host.input p.host.files len.toNat with
        ⟨e, i, i', taken, taken', agrees⟩ | ⟨b, b', i, i', taken, taken', same, agrees⟩
      · rw [taken, taken']
        exact (abreast.setInput agrees).answer _
      · rw [taken, taken']
        exact (abreast.setInput agrees).deliver addr same
    · split
      · exact abreast.answer _
      · split
        · exact abreast.answer _
        · exact (of_host (abreast.host.setHandle fd _) p.hart).deliver addr rfl

theorem writeBlock (abreast : Abreast base base' p p') (fd addr len : Word) :
    Alike base base' (p.writeBlock fd addr len) (p'.writeBlock fd addr len) := by
  unfold Process.writeBlock
  rw [abreast.hart, abreast.host.files, abreast.host.handle? fd]
  split
  · exact abreast.same _
  · rename_i b _
    split
    · obtain ⟨r, q, q', printed, printed', abreast'⟩ := abreast.print b
      rw [printed, printed']
      cases r with
      | error e => exact abreast'.same _
      | ok _ => exact abreast'.answer _
    · split
      · exact (of_host (abreast.host.report b) p.hart).answer _
      · split
        · exact abreast.answer _
        · split
          · exact abreast.answer _
          · exact (of_host ((abreast.host.setFiles _).setHandle fd _) p.hart).answer _

theorem closeFile (abreast : Abreast base base' p p') (fd : Word) :
    Alike base base' (p.closeFile fd) (p'.closeFile fd) := by
  unfold Process.closeFile
  rw [abreast.hart, abreast.host.handle? fd]
  split
  · exact abreast.answer _
  · split
    · exact abreast.answer _
    · exact (of_host (abreast.host.dropHandle fd) p.hart).answer _

end Abreast

theorem abreast_serve (abreast : Abreast base base' p p') : Alike base base' p.serve p'.serve := by
  unfold serve
  rw [abreast.reg Register.v0]
  split
  · exact abreast.same _
  · rename_i s _
    unfold perform
    rw [abreast.reg Register.a0, abreast.reg Register.a1, abreast.reg Register.a2]
    cases s with
    | printInt => exact abreast.printInt _
    | printString => exact abreast.printString _
    | readInt => exact abreast.readInt
    | readString => exact abreast.readString _ _
    | sbrk => exact abreast.sbrk _
    | exit => exact abreast.same _
    | printChar => exact abreast.printAll _
    | readChar => exact abreast.readChar
    | openFile => exact abreast.openFile _ _ _
    | readBlock => exact abreast.readBlock _ _ _
    | writeBlock => exact abreast.writeBlock _ _ _
    | closeFile => exact abreast.closeFile _
    | exitWith => exact abreast.same _

theorem abreast_next (abreast : Abreast base base' p p') :
    Abreast base base' p.next p'.next ∧ p'.outcome = p.outcome := by
  have served (h : Hart) :
      Alike base base' { p with hart := h }.serve { p' with hart := h }.serve :=
    abreast_serve ⟨rfl, abreast.host⟩
  unfold next outcome
  rw [abreast.hart]
  cases p.hart.step with
  | mk h trap =>
    cases trap with
    | none => exact ⟨⟨rfl, abreast.host⟩, rfl⟩
    | some t =>
      cases t with
      | syscall =>
        dsimp only
        rw [(served h).reply]
        exact ⟨(served h).abreast, rfl⟩
      | _ => exact ⟨⟨rfl, abreast.host⟩, rfl⟩

end Process
end Mips
