import Mips.Proofs.Hart.Traps
import Mips.Proofs.Machine.Marks
import Mips.Proofs.Memory.Operations

/-!
The bytes that a store writes. A partial store rewrites the word around its address, but the other
bytes of that word stay what they are. Main statements: `byteAt_of_store`, a store puts the bytes of
its register where it covers them; and `byteAt_exec`, an instruction changes no byte that it does
not store to.
-/
namespace Mips

namespace Store

/-- Whether a store to an address writes the byte at another. Partial stores write from their
address to the end of its word, or from the start of its word to their address. -/
def Covers (op : Store) (addr : Word) (a : Nat) : Prop :=
  match op with
  | swl => addr.toNat ≤ a ∧ a < addr.toNat / 4 * 4 + 4
  | swr => addr.toNat / 4 * 4 ≤ a ∧ a < addr.toNat + 1
  | sb | sh | sw | sc => addr.toNat ≤ a ∧ a < addr.toNat + op.width

instance (addr : Word) (a : Nat) : (op : Store) → Decidable (op.Covers addr a)
  | swl | swr | sb | sh | sw | sc => inferInstanceAs (Decidable (_ ∧ _))

theorem width_le (op : Store) : op.width ≤ 4 := by
  cases op <;> decide

def first : Store → Nat
  | sb | swr => 3
  | sh => 2
  | sw | sc | swl => 0

def byte (op : Store) (reg addr : Word) (a : Nat) : UInt8 :=
  (Word.bytes reg).getD (a + op.first - addr.toNat) 0

end Store

namespace Word

theorem toNat_align (a : Word) : (align a).toNat = a.toNat / 4 * 4 := by
  have bound := a.isLt
  rw [align, ofNat_eq, BitVec.toNat_ofNat]
  omega

theorem getElem?_bytes (w : Word) {i : Nat} (within : i < 4) :
    (bytes w)[i]? = some ((bytes w).getD i 0) := by
  rw [List.getD_eq_getElem?_getD, List.getElem?_eq_getElem within]
  rfl

theorem length_lowBytes {n : Nat} (narrow : n ≤ 4) (w : Word) : (lowBytes n w).length = n := by
  rw [lowBytes, List.length_drop, length_bytes]
  omega

theorem getElem?_storeLeft (reg word addr : Word) {i : Nat} (within : i < 4) :
    (bytes (storeLeft reg word addr))[i]? =
      if lane addr ≤ i then (bytes reg)[i - lane addr]? else (bytes word)[i]? := by
  have small := lane_lt addr
  have kept : ((bytes word).take (lane addr)).length = lane addr := by
    rw [List.length_take, length_bytes]
    omega
  have stored : ((bytes reg).take (4 - lane addr)).length = 4 - lane addr := by
    rw [List.length_take, length_bytes]
    omega
  rw [storeLeft, bytes_ofBytes (by rw [List.length_append]; omega), List.getElem?_append, kept]
  split
  · rw [if_neg (by omega), List.getElem?_take_of_lt (by omega)]
  · rw [if_pos (by omega), List.getElem?_take_of_lt (by omega)]

theorem getElem?_storeRight (reg word addr : Word) (i : Nat) :
    (bytes (storeRight reg word addr))[i]? =
      if i ≤ lane addr then (bytes reg)[i + 3 - lane addr]? else (bytes word)[i]? := by
  have small := lane_lt addr
  have stored : ((bytes reg).drop (3 - lane addr)).length = lane addr + 1 := by
    rw [List.length_drop, length_bytes]
    omega
  have kept : ((bytes word).drop (lane addr + 1)).length = 3 - lane addr := by
    rw [List.length_drop, length_bytes]
    omega
  rw [storeRight, bytes_ofBytes (by rw [List.length_append]; omega), List.getElem?_append, stored,
    List.getElem?_drop, List.getElem?_drop]
  split
  · rw [if_pos (by omega)]
    congr 1
    omega
  · rw [if_neg (by omega)]
    congr 1
    omega

end Word

namespace Memory

variable {m m' : Memory} {addr : Word} {k : Nat}

theorem byteAt_of_write {bs : List UInt8} (written : m.write addr bs = .ok m')
    (apart : ¬(addr.toNat ≤ m.layout.base.toNat + k ∧
      m.layout.base.toNat + k < addr.toNat + bs.length)) : m'.byteAt k = m.byteAt k := by
  obtain ⟨off, backed, rfl⟩ := write_eq_ok_iff.mp written
  obtain ⟨above, rfl, _⟩ := offset?_eq_ok_iff.mp backed
  rw [byteAt, Contents.byteAt_write, if_neg (by omega)]
  rfl

theorem byteAt_of_writeBlock {b : Block} (written : m.writeBlock addr b = .ok m')
    (apart : ¬(addr.toNat ≤ m.layout.base.toNat + k ∧
      m.layout.base.toNat + k < addr.toNat + b.size)) : m'.byteAt k = m.byteAt k := by
  obtain ⟨off, backed, rfl⟩ := map_eq_ok_iff.mp written
  obtain ⟨above, rfl, _⟩ := offset?_eq_ok_iff.mp backed
  rw [byteAt, Contents.byteAt_copy, if_neg (by omega)]
  rfl

/-- The bytes of a word are found where it was written, and the others where they were. -/
theorem byteAt_of_writeWord {width : Nat} {w : Word} (narrow : width ≤ 4)
    (written : m.writeWord addr width w = .ok m') :
    m'.byteAt k =
      if addr.toNat ≤ m.layout.base.toNat + k ∧ m.layout.base.toNat + k < addr.toNat + width then
        (Word.bytes w).getD (m.layout.base.toNat + k + (4 - width) - addr.toNat) 0
      else m.byteAt k := by
  have length := Word.length_lowBytes narrow w
  split
  · obtain ⟨off, backed, rfl⟩ := write_eq_ok_iff.mp written
    obtain ⟨above, rfl, _⟩ := offset?_eq_ok_iff.mp backed
    have place : 4 - width + (k - (addr.toNat - m.layout.base.toNat)) =
        m.layout.base.toNat + k + (4 - width) - addr.toNat := by omega
    rw [byteAt, Contents.byteAt_write, if_pos (by omega), List.getD_eq_getElem?_getD, Word.lowBytes,
      List.getElem?_drop, place, List.getD_eq_getElem?_getD]
  · rename_i apart
    exact byteAt_of_write written (length.symm ▸ apart)

theorem byteAt_of_joined {old w : Word} (fetched : m.readWord addr 4 = .ok old)
    (written : m.writeWord addr 4 w = .ok m') {covered : Prop} [Decidable covered] {b : UInt8}
    (within : covered → addr.toNat ≤ m.layout.base.toNat + k ∧
      m.layout.base.toNat + k < addr.toNat + 4)
    (joined : ∀ i < 4, m.layout.base.toNat + k = addr.toNat + i →
      (Word.bytes w)[i]? = if covered then some b else (Word.bytes old)[i]?) :
    m'.byteAt k = if covered then b else m.byteAt k := by
  rw [byteAt_of_writeWord (by decide) written]
  split
  · obtain ⟨off, backed, bytes⟩ := bytes_of_readWord fetched
    obtain ⟨above, rfl, _⟩ := offset?_eq_ok_iff.mp backed
    obtain ⟨i, there⟩ : ∃ i, m.layout.base.toNat + k = addr.toNat + i :=
      Nat.exists_eq_add_of_le (by omega)
    have held : (Word.bytes old)[i]? = some (m.byteAt k) := by
      have place : addr.toNat - m.layout.base.toNat + i = k := by omega
      rw [bytes, Contents.getElem?_fetch _ _ (by omega), place]
      rfl
    have spot : m.layout.base.toNat + k + (4 - 4) - addr.toNat = i := by omega
    rw [spot, List.getD_eq_getElem?_getD, joined i (by omega) there, held]
    split <;> rfl
  · rename_i apart
    rw [if_neg (mt within apart)]

end Memory

namespace Hart

variable {h h' : Hart} {addr : Word} {k : Nat}

theorem readWord_of_loadAt {width : Nat} {w : Word} (loaded : h.loadAt addr width = .ok w) :
    h.mem.readWord addr width = .ok w := by
  unfold loadAt at loaded
  split at loaded
  · exact mapError_eq_ok_iff.mp loaded
  · cases loaded

theorem writeWord_of_storeAt {width : Nat} {w : Word} (stored : h.storeAt addr width w = .ok h') :
    h.mem.writeWord addr width w = .ok h'.mem := by
  unfold storeAt at stored
  split at stored
  · obtain ⟨m, written, rfl⟩ := map_eq_ok_iff.mp stored
    exact mapError_eq_ok_iff.mp written
  · cases stored

theorem exists_loadAt {width : Nat} (aligned : addr.toNat % width = 0)
    (backed : h.mem.layout.Backs addr width) : ∃ w, h.loadAt addr width = .ok w := by
  obtain ⟨w, fetched⟩ : ∃ w, h.mem.readWord addr width = .ok w :=
    ⟨_, map_eq_ok_iff.mpr ⟨_, Memory.offset?_of_backs backed, rfl⟩⟩
  refine ⟨w, ?_⟩
  rw [loadAt, if_pos aligned, fetched]
  rfl

theorem exists_storeAt {width : Nat} (narrow : width ≤ 4) (aligned : addr.toNat % width = 0)
    (backed : h.mem.layout.Backs addr width) (w : Word) :
    ∃ h', h.storeAt addr width w = .ok h' := by
  rw [← Word.length_lowBytes narrow w] at backed
  obtain ⟨m, written⟩ : ∃ m, h.mem.writeWord addr width w = .ok m :=
    ⟨_, Memory.write_eq_ok_iff.mpr ⟨_, Memory.offset?_of_backs backed, rfl⟩⟩
  refine ⟨⟨h.cpu, m⟩, ?_⟩
  rw [storeAt, if_pos aligned, written]
  rfl

theorem exists_store {op : Store} {rt : Register}
    (aligned : (op.place addr).toNat % op.width = 0)
    (backed : h.mem.layout.Backs (op.place addr) op.width) : ∃ h', h.store op rt addr = .ok h' := by
  obtain ⟨w, made⟩ : ∃ w, h.stored op rt addr = .ok w := by
    cases op with
    | sb | sh | sw | sc => exact ⟨_, rfl⟩
    | swl | swr =>
      obtain ⟨old, loaded⟩ := exists_loadAt aligned backed
      exact ⟨_, map_eq_ok_iff.mpr ⟨old, loaded, rfl⟩⟩
  obtain ⟨h', done⟩ := exists_storeAt op.width_le aligned backed w
  exact ⟨_, bind_eq_ok_iff.mpr ⟨w, made, map_eq_ok_iff.mpr ⟨h', done, rfl⟩⟩⟩

/-- A store puts the bytes of its register where it covers them, in their order, and no others. -/
theorem byteAt_of_store {op : Store} {rt : Register} (stored : h.store op rt addr = .ok h') :
    h'.mem.byteAt k =
      if op.Covers addr (h.mem.layout.base.toNat + k) then
        op.byte (h.cpu.read rt) addr (h.mem.layout.base.toNat + k)
      else h.mem.byteAt k := by
  obtain ⟨w, made, rest⟩ := bind_eq_ok_iff.mp stored
  obtain ⟨h₁, done, rfl⟩ := map_eq_ok_iff.mp rest
  have written := writeWord_of_storeAt done
  have start := Word.toNat_align addr
  have put : h₁.mem.byteAt k =
      if op.Covers addr (h.mem.layout.base.toNat + k) then
        op.byte (h.cpu.read rt) addr (h.mem.layout.base.toNat + k)
      else h.mem.byteAt k := by
    unfold Hart.stored at made
    cases op with
    | sb | sh | sw | sc =>
      obtain rfl := Except.ok.inj made
      exact Memory.byteAt_of_writeWord (by decide) written
    | swl =>
      obtain ⟨old, loaded, rfl⟩ := map_eq_ok_iff.mp made
      refine Memory.byteAt_of_joined (readWord_of_loadAt loaded) written ?_ fun i hi there => ?_
      · simp only [Store.Covers, Store.place, start]
        omega
      · rw [Store.place, start] at there
        have reached : Store.swl.Covers addr (h.mem.layout.base.toNat + k) ↔
            Word.lane addr ≤ i := by
          simp only [Store.Covers, Word.lane]
          omega
        have place : h.mem.layout.base.toNat + k + 0 - addr.toNat = i - Word.lane addr := by
          rw [Word.lane]
          omega
        rw [Word.getElem?_storeLeft _ _ _ hi, Word.getElem?_bytes _ (by omega), Store.byte,
          Store.first, place]
        simp only [reached]
    | swr =>
      obtain ⟨old, loaded, rfl⟩ := map_eq_ok_iff.mp made
      refine Memory.byteAt_of_joined (readWord_of_loadAt loaded) written ?_ fun i hi there => ?_
      · simp only [Store.Covers, Store.place, start]
        omega
      · rw [Store.place, start] at there
        have reached : Store.swr.Covers addr (h.mem.layout.base.toNat + k) ↔
            i ≤ Word.lane addr := by
          simp only [Store.Covers, Word.lane]
          omega
        have place : h.mem.layout.base.toNat + k + 3 - addr.toNat = i + 3 - Word.lane addr := by
          rw [Word.lane]
          omega
        rw [Word.getElem?_storeRight, Store.byte, Store.first, place]
        simp only [reached]
        split
        · rw [Word.getElem?_bytes _ (by omega)]
        · rfl
  split <;> exact put

def StoresTo (h : Hart) (a : Nat) : Instruction → Prop
  | .store op _ rs imm => op.Covers (h.effective rs imm) a
  | _ => False

instance (h : Hart) (a : Nat) : (i : Instruction) → Decidable (h.StoresTo a i)
  | .store op _ rs imm => inferInstanceAs (Decidable (op.Covers (h.effective rs imm) a))
  | .alu .. | .aluImm .. | .lui .. | .shift .. | .shiftVar .. | .mulDiv .. | .moveFrom ..
  | .moveTo .. | .count .. | .trap .. | .trapImm .. | .breakpoint _ | .syscall | .jr _ | .jalr ..
  | .jump .. | .branchPair .. | .branchZero .. | .load .. => inferInstanceAs (Decidable False)

theorem storesTo_setPc {pc : Word} {a : Nat} {i : Instruction} :
    (h.setPc pc).StoresTo a i ↔ h.StoresTo a i := by
  cases i <;> exact Iff.rfl

theorem byteAt_exec (h : Hart) (i : Instruction)
    (apart : ¬h.StoresTo (h.mem.layout.base.toNat + k) i) :
    (h.exec i).1.mem.byteAt k = h.mem.byteAt k := by
  cases i with
  | alu op rd rs rt | aluImm op rt rs imm =>
    unfold exec
    dsimp only
    split <;> rfl
  | moveFrom half rd => cases half <;> rfl
  | moveTo half rs => cases half <;> rfl
  | jump op target => exact congrArg (·.byteAt k) (mem_link h _)
  | branchPair op rs rt imm => exact congrArg (·.byteAt k) (mem_branch h _ _)
  | branchZero op rs imm => exact congrArg (·.byteAt k) ((mem_branch _ _ _).trans (mem_link h _))
  | load op rt rs imm =>
    show (h.attempt (h.load op rt (h.effective rs imm))).1.mem.byteAt k = h.mem.byteAt k
    cases loaded : h.load op rt (h.effective rs imm) with
    | error t => rfl
    | ok h' => exact congrArg (·.byteAt k) (mem_of_load loaded)
  | store op rt rs imm =>
    show (h.attempt (h.store op rt (h.effective rs imm))).1.mem.byteAt k = h.mem.byteAt k
    cases stored : h.store op rt (h.effective rs imm) with
    | error t => rfl
    | ok h' => exact (byteAt_of_store stored).trans (if_neg apart)
  | _ => rfl

end Hart
end Mips
