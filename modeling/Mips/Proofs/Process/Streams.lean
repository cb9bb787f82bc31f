import Mips.Proofs.Host.Streams
import Mips.Proofs.Process.Handles

/-!
What a service takes from the input and writes to the output, where neither can fail. Main
statements: `streams_serve`, the bytes taken stand in front of those that stay unread, and those
printed behind all that was written before; and `takes_of_sound`, how many bytes each service takes
and what a block does with them.
-/
namespace Mips

namespace Process

variable {p q : Process} {place : Option Path}

instance (p : Process) (s : Service) (d : Word) : Decidable (p.OnBuffer s d) :=
  decidable_of_iff
    (p.selected? = some s ∧ p.reg Register.a0 = d ∧
      p.hart.mem.layout.Backs (p.reg Register.a1) (p.reg Register.a2).toNat)
    ⟨fun ⟨selected, descriptor, backed⟩ => ⟨selected, descriptor, backed⟩,
      fun call => ⟨call.selected, call.descriptor, call.backed⟩⟩

/-- The bytes that a service takes from the input. Of a block it takes as many as it answers. -/
def taken (p : Process) : List UInt8 :=
  match p.selected? with
  | some .readInt => Input.tokenOf p.unread
  | some .readString => Input.lineOf ((p.reg Register.a1).signed - 1).toNat p.unread
  | some .readChar => p.unread.take 1
  | some .readBlock =>
    if p.OnBuffer .readBlock 0 then p.unread.take (p.serve.1.reg Register.v0).toNat else []
  | _ => []

def decimalBytes (z : Int) : List UInt8 :=
  (if z < 0 then Text.utf8 ['-'] else []) ++ Text.utf8 (Numeral.decimal z.natAbs)

def printed (p : Process) : List UInt8 :=
  match p.selected? with
  | some .printInt => decimalBytes (p.reg Register.a0).signed
  | some .printString => (p.hart.mem.readString (p.reg Register.a0)).toOption.elim [] Block.toList
  | some .printChar => [UInt8.ofNat (p.reg Register.a0).toNat]
  | some .writeBlock =>
    if p.OnBuffer .writeBlock 1 then
      p.hart.mem.contents.fetch (p.hart.mem.layout.offset (p.reg Register.a1))
        (p.reg Register.a2).toNat
    else []
  | _ => []

/-- A process whose input and output never fail, by the file behind the input, if there is one. -/
structure Sound (p : Process) (place : Option Path) : Prop where
  source : p.host.input.source.Sound place
  output : p.host.output.Sound

/-- A process that follows on another and has taken bytes from the input and written others to the
output. What stays unread is looked at in the files as they were before. -/
structure Streams (place : Option Path) (p : Process) (taken printed : List UInt8) (q : Process) :
    Prop where
  sound : q.Sound place
  input : p.unread = taken ++ q.host.input.unread p.host.files
  output : q.host.output.written = p.host.output.written ++ printed

theorem streams_output (sound : p.Sound place) {bs : List UInt8}
    (input : q.host.input = p.host.input) (kept : q.host.output.Sound)
    (grown : q.host.output.written = p.host.output.written ++ bs) : Streams place p [] bs q where
  sound := ⟨input ▸ sound.source, kept⟩
  input := by rw [input]; rfl
  output := grown

theorem streams_input (sound : p.Sound place) {i : Input} {bs : List UInt8}
    (kept : i.source.Sound place) (cut : p.unread = bs ++ i.unread p.host.files)
    (input : q.host.input = i) (output : q.host.output = p.host.output) :
    Streams place p bs [] q where
  sound := ⟨input ▸ kept, output ▸ sound.output⟩
  input := input ▸ cut
  output := by rw [output, List.append_nil]

theorem streams_aside (sound : p.Sound place) (input : q.host.input = p.host.input)
    (output : q.host.output = p.host.output) : Streams place p [] [] q :=
  streams_input sound sound.source rfl input output

theorem print_of_sound (sound : p.host.output.Sound) (b : Block) :
    ∃ q, p.print b = (.ok (), q) ∧ q.host.input = p.host.input ∧ q.host.output.Sound ∧
      q.host.output.written = p.host.output.written ++ b.toList := by
  obtain ⟨fs, o, wrote, kept, grown⟩ := Output.write_of_sound sound p.host.files b
  refine ⟨{ p with host := { p.host with files := fs, output := o } }, ?_, rfl, kept, grown⟩
  unfold print
  rw [wrote]

theorem printAll_of_sound (sound : p.host.output.Sound) (b : Block) :
    ∃ q, p.printAll b = (q, .resume) ∧ q.host.input = p.host.input ∧ q.host.output.Sound ∧
      q.host.output.written = p.host.output.written ++ b.toList := by
  obtain ⟨q, wrote, kept⟩ := print_of_sound sound b
  refine ⟨q, ?_, kept⟩
  rw [printAll, wrote]

theorem printInt_of_sound (sound : p.host.output.Sound) (z : Int) :
    ∃ q, p.printInt z = (q, .resume) ∧ q.host.input = p.host.input ∧ q.host.output.Sound ∧
      q.host.output.written = p.host.output.written ++ decimalBytes z := by
  obtain ⟨q, wrote, input, kept, grown⟩ :=
    print_of_sound sound (.ofList (if z < 0 then Text.utf8 ['-'] else []))
  obtain ⟨r, wrote', input', kept', grown'⟩ :=
    printAll_of_sound kept (.ofList (Text.utf8 (Numeral.decimal z.natAbs)))
  refine ⟨r, ?_, input'.trans input, kept', ?_⟩
  · rw [printInt, wrote]
    exact wrote'
  · rw [grown', grown, List.append_assoc, Block.toList_ofList, Block.toList_ofList, decimalBytes]

theorem streams_printAll (sound : p.Sound place) (b : Block) :
    Streams place p [] b.toList (p.printAll b).1 := by
  obtain ⟨q, wrote, input, kept, grown⟩ := printAll_of_sound sound.output b
  rw [wrote]
  exact streams_output sound input kept grown

theorem streams_printInt (sound : p.Sound place) (z : Int) :
    Streams place p [] (decimalBytes z) (p.printInt z).1 := by
  obtain ⟨q, wrote, input, kept, grown⟩ := printInt_of_sound sound.output z
  rw [wrote]
  exact streams_output sound input kept grown

theorem streams_printString (sound : p.Sound place) (addr : Word) :
    Streams place p [] ((p.hart.mem.readString addr).toOption.elim [] Block.toList)
      (p.printString addr).1 := by
  rw [printString]
  cases p.hart.mem.readString addr with
  | error e => exact streams_aside sound rfl rfl
  | ok b => exact streams_printAll sound b

theorem streams_readInt (sound : p.Sound place) :
    Streams place p (Input.tokenOf p.unread) [] p.readInt.1 := by
  obtain ⟨bs, i, read, kept⟩ := Input.token_of_sound sound.source p.host.files #[]
  have cut : p.unread = Input.tokenOf p.unread ++ i.unread p.host.files := Input.unread_token read
  rw [readInt, read]
  dsimp only
  split
  · exact streams_input sound kept cut rfl rfl
  · exact streams_input sound kept cut rfl rfl

theorem streams_readString (sound : p.Sound place) (addr : Word) (len : Int) :
    Streams place p (Input.lineOf (len - 1).toNat p.unread) [] (p.readString addr len).1 := by
  rw [readString]
  split
  · have none : (len - 1).toNat = 0 := by omega
    rw [none]
    exact streams_aside sound rfl rfl
  · obtain ⟨bs, i, read, kept⟩ :=
      Input.line_of_sound sound.source p.host.files (len - 1).toNat #[]
    have cut := (Input.line_eq_ok read).2
    rw [read]
    dsimp only
    split
    · exact streams_input sound kept cut rfl rfl
    · exact streams_input sound kept cut rfl rfl

theorem streams_readChar (sound : p.Sound place) :
    Streams place p (p.unread.take 1) [] p.readChar.1 := by
  obtain ⟨first, i, read, kept⟩ := Input.next_of_sound sound.source p.host.files
  have cut := Input.unread_next_take read
  rw [readChar, read]
  cases first with
  | none => exact streams_input sound kept cut rfl rfl
  | some b => exact streams_input sound kept cut rfl rfl

theorem host_deliver (p : Process) (addr : Word) (b : Block) :
    (p.deliver addr b).1.host = p.host := by
  unfold deliver
  split <;> rfl

theorem exists_block (sound : p.Sound place) (call : p.OnBuffer .readBlock 0) :
    ∃ b i mem, p.host.input.read p.host.files (p.reg Register.a2).toNat = (.ok b, i) ∧
      i.source.Sound place ∧ p.hart.mem.writeBlock (p.reg Register.a1) b = .ok mem ∧
      p.serve = ((p.setInput i).setMemory mem).answer b.size := by
  obtain ⟨selected, input, backed⟩ := call
  have found := Memory.offset?_of_backs backed
  obtain ⟨b, i, read, kept⟩ :=
    Input.read_of_sound sound.source p.host.files (p.reg Register.a2).toNat
  obtain ⟨mem, written⟩ := Memory.exists_writeBlock found (Input.size_le_of_read read)
  refine ⟨b, i, mem, read, kept, written, ?_⟩
  rw [serve_of_selected selected]
  simp only [perform, readBlock, found, if_pos input, read, deliver, setInput, written]

theorem toNat_answer_size {n : Word} {b : Block} (short : b.size ≤ n.toNat) (p : Process) :
    ((p.answer b.size).1.reg Register.v0).toNat = b.size := by
  rw [reg_answer, Word.ofInt_eq, BitVec.ofInt_natCast, BitVec.toNat_ofNat]
  exact Nat.mod_eq_of_lt (Nat.lt_of_le_of_lt short n.isLt)

theorem taken_of_block {b : Block} {i : Input} {mem : Memory} (call : p.OnBuffer .readBlock 0)
    (read : p.host.input.read p.host.files (p.reg Register.a2).toNat = (.ok b, i))
    (served : p.serve = ((p.setInput i).setMemory mem).answer b.size) :
    (p.serve.1.reg Register.v0).toNat = b.size ∧ p.taken = b.toList := by
  have size : (p.serve.1.reg Register.v0).toNat = b.size := by
    rw [served]
    exact toNat_answer_size (Input.size_le_of_read read) _
  refine ⟨size, ?_⟩
  have cut : p.unread = b.toList ++ i.unread p.host.files := Input.unread_read read
  rw [taken, call.selected]
  dsimp only
  rw [if_pos call, size, cut, ← b.length_toList, List.take_left]

theorem streams_readBlock (sound : p.Sound place) (selected : p.selected? = some .readBlock) :
    Streams place p p.taken [] (p.perform .readBlock).1 := by
  by_cases call : p.OnBuffer .readBlock 0
  · obtain ⟨b, i, mem, read, kept, written, served⟩ := exists_block sound call
    rw [(taken_of_block call read served).2, ← serve_of_selected selected, served]
    exact streams_input sound kept (Input.unread_read read) rfl rfl
  · have none : p.taken = [] := by
      rw [taken, selected]
      exact if_neg call
    rw [none]
    simp only [perform, readBlock]
    split
    · exact streams_aside sound rfl rfl
    · rename_i found
      split
      · rename_i input
        exact absurd ⟨selected, input, Memory.backs_of_offset? found⟩ call
      · split
        · exact streams_aside sound rfl rfl
        · split
          · exact streams_aside sound rfl rfl
          · exact streams_aside sound (by rw [host_deliver]; rfl) (by rw [host_deliver]; rfl)

theorem writeBlock_of_sound (sound : p.host.output.Sound) (call : p.OnBuffer .writeBlock 1) :
    ∃ q : Process, p.serve = q.answer (p.reg Register.a2).toNat ∧ q.host.input = p.host.input ∧
      q.host.output.Sound ∧ q.host.output.written = p.host.output.written ++ p.printed := by
  rw [serve_of_selected call.selected, printed, call.selected]
  dsimp only
  rw [if_pos call]
  obtain ⟨selected, output, backed⟩ := call
  obtain ⟨q, wrote, kept⟩ := print_of_sound sound
    ⟨p.hart.mem.contents, p.hart.mem.layout.offset (p.reg Register.a1), (p.reg Register.a2).toNat⟩
  refine ⟨q, ?_, kept⟩
  simp only [perform, writeBlock, Memory.read, Memory.offset?_of_backs backed, Except.map,
    if_pos output, wrote]

theorem writeBlock_of_not_onBuffer (selected : p.selected? = some .writeBlock)
    (aside : ¬p.OnBuffer .writeBlock 1) :
    p.printed = [] ∧ p.serve.1.host.input = p.host.input ∧
      p.serve.1.host.output = p.host.output := by
  constructor
  · rw [printed, selected]
    exact if_neg aside
  rw [serve_of_selected selected, perform, writeBlock]
  split
  · exact ⟨rfl, rfl⟩
  · rename_i read
    obtain ⟨_, found, _⟩ := map_eq_ok_iff.mp read
    rw [if_neg fun output => aside ⟨selected, output, Memory.backs_of_offset? found⟩]
    split
    · exact ⟨rfl, rfl⟩
    · split
      · exact ⟨rfl, rfl⟩
      · split
        · exact ⟨rfl, rfl⟩
        · exact ⟨rfl, rfl⟩

theorem streams_writeBlock (sound : p.Sound place) (selected : p.selected? = some .writeBlock) :
    Streams place p [] p.printed (p.perform .writeBlock).1 := by
  rw [← serve_of_selected selected]
  by_cases call : p.OnBuffer .writeBlock 1
  · obtain ⟨q, served, input, kept, grown⟩ := writeBlock_of_sound sound.output call
    rw [served]
    exact streams_output sound input kept grown
  · obtain ⟨none, input, output⟩ := writeBlock_of_not_onBuffer selected call
    rw [none]
    exact streams_aside sound input output

theorem streams_openFile (sound : p.Sound place) (name flags mode : Word) :
    Streams place p [] [] (p.openFile name flags mode).1 := by
  unfold openFile
  split
  · exact streams_aside sound rfl rfl
  · split
    · exact streams_aside sound rfl rfl
    · dsimp only
      split
      · exact streams_aside sound rfl rfl
      · exact streams_aside sound rfl rfl

theorem streams_closeFile (sound : p.Sound place) (fd : Word) :
    Streams place p [] [] (p.closeFile fd).1 := by
  unfold closeFile
  split
  · exact streams_aside sound rfl rfl
  · split
    · exact streams_aside sound rfl rfl
    · exact streams_aside sound rfl rfl

/-- A service takes the bytes it takes from the front of those unread and prints behind those
written. -/
theorem streams_serve (sound : p.Sound place) : Streams place p p.taken p.printed p.serve.1 := by
  cases selected : p.selected? with
  | none =>
    rw [serve_of_unselected selected, taken, printed, selected]
    exact streams_aside sound rfl rfl
  | some s =>
    rw [serve_of_selected selected, taken, printed, selected]
    cases s with
    | printInt => exact streams_printInt sound _
    | printString => exact streams_printString sound _
    | printChar =>
      have put := streams_printAll sound (.ofList [UInt8.ofNat (p.reg Register.a0).toNat])
      rw [Block.toList_ofList] at put
      exact put
    | readInt => exact streams_readInt sound
    | readString => exact streams_readString sound _ _
    | readChar => exact streams_readChar sound
    | readBlock =>
      have read := streams_readBlock sound selected
      rw [taken, selected] at read
      exact read
    | writeBlock =>
      have wrote := streams_writeBlock sound selected
      rw [printed, selected] at wrote
      exact wrote
    | openFile => exact streams_openFile sound ..
    | closeFile => exact streams_closeFile sound _
    | sbrk | exit | exitWith => exact streams_aside sound rfl rfl

/-- How much the services take from the input. Of a block as much as is answered goes to the
buffer. -/
structure Takes (p : Process) : Prop where
  char : p.selected? = some .readChar → p.taken.length ≤ 1
  line : p.selected? = some .readString →
    p.taken.length ≤ ((p.reg Register.a1).signed - 1).toNat ∧ 10 ∉ p.taken.dropLast
  token : p.selected? = some .readInt →
    ∃ spaces token delimiter, p.taken = spaces ++ (token ++ delimiter) ∧
      (∀ b ∈ spaces, Input.isSpace b = true) ∧ (∀ b ∈ token, Input.isSpace b = false) ∧
      (∀ b ∈ delimiter, Input.isSpace b = true) ∧ delimiter.length ≤ 1 ∧
      (token = [] ∨ delimiter = [] → p.taken = p.unread)
  block : p.OnBuffer .readBlock 0 →
    (p.serve.1.reg Register.v0).toNat = p.taken.length ∧
      ∀ k, p.serve.1.hart.mem.byteAt k =
        if p.hart.mem.layout.offset (p.reg Register.a1) ≤ k ∧
            k < p.hart.mem.layout.offset (p.reg Register.a1) + p.taken.length then
          p.taken.getD (k - p.hart.mem.layout.offset (p.reg Register.a1)) 0
        else p.hart.mem.byteAt k
  others : p.taken ≠ [] →
    p.selected? = some .readChar ∨ p.selected? = some .readString ∨
      p.selected? = some .readInt ∨ p.OnBuffer .readBlock 0

theorem takes_of_sound (sound : p.Sound place) : p.Takes where
  char selected := by
    rw [taken, selected]
    exact List.length_take_le ..
  line selected := by
    rw [taken, selected]
    exact ⟨Input.length_lineOf_le .., Input.not_mem_dropLast_lineOf _ _⟩
  token selected := by
    rw [taken, selected]
    exact Input.exists_parts p.unread
  block call := by
    obtain ⟨b, i, mem, read, _, written, served⟩ := exists_block sound call
    obtain ⟨size, bytes⟩ := taken_of_block call read served
    have short := Input.size_le_of_read read
    have backed : p.hart.mem.layout.Backs (p.reg Register.a1) b.toList.length := by
      rw [b.length_toList]
      exact ⟨call.backed.1, Nat.le_trans (Nat.add_le_add_left short _) call.backed.2⟩
    obtain ⟨mem', again, _, stored⟩ := (Memory.stores_writeBlock ..).ok backed
    obtain rfl := Except.ok.inj (written.symm.trans again)
    rw [bytes, b.length_toList]
    refine ⟨size, fun k => ?_⟩
    rw [served, ← b.length_toList]
    exact stored k
  others some := by
    unfold taken at some
    split at some
    · rename_i selected
      exact .inr (.inr (.inl selected))
    · rename_i selected
      exact .inr (.inl selected)
    · rename_i selected
      exact .inl selected
    · split at some
      · rename_i call
        exact .inr (.inr (.inr call))
      · exact absurd rfl some
    · exact absurd rfl some

end Process
end Mips
