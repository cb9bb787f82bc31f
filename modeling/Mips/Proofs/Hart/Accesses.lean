import Mips.Proofs.Hart.Arithmetic
import Mips.Proofs.Hart.Unaligned

/-!
Loads and stores one by one. Main statements: `exec_of_trap?` and `exists_exec`, when an access is
refused and when it is carried out; `gives_of_readWord`, what a load puts into its register;
`puts_of_store`, what a store puts into memory; and `exec_access`, what comes of an access.
-/
namespace Mips

inductive MemoryOp
  | load (op : Load)
  | store (op : Store)

namespace MemoryOp

def instruction (rt rs : Register) (imm : BitVec 16) : MemoryOp → Instruction
  | load op => .load op rt rs imm
  | store op => .store op rt rs imm

def isPartial : MemoryOp → Bool
  | load .lwl | load .lwr | store .swl | store .swr => true
  | _ => false

def size : MemoryOp → Nat
  | load .lb | load .lbu | store .sb => 1
  | load .lh | load .lhu | store .sh => 2
  | load .lw | load .ll | load .lwl | load .lwr => 4
  | store .sw | store .sc | store .swl | store .swr => 4

/-- The number that has to divide the address. -/
def alignment (a : MemoryOp) : Nat := if a.isPartial then 1 else a.size

/-- The address of the first byte that an access needs. -/
def first (a : MemoryOp) (addr : Word) : Word := if a.isPartial then Word.align addr else addr

theorem first_load (op : Load) (addr : Word) : (load op).first addr = op.place addr := by
  cases op <;> rfl

theorem first_store (op : Store) (addr : Word) : (store op).first addr = op.place addr := by
  cases op <;> rfl

theorem size_load (op : Load) : (load op).size = op.width := by
  cases op <;> rfl

theorem size_store (op : Store) : (store op).size = op.width := by
  cases op <;> rfl

theorem size_cases (a : MemoryOp) : a.size = 1 ∨ a.size = 2 ∨ a.size = 4 := by
  rcases a with op | op <;> cases op <;> simp [size]

theorem toNat_first_mod (a : MemoryOp) (addr : Word) :
    (a.first addr).toNat % a.size = 0 ↔ a.alignment ∣ addr.toNat := by
  cases whole : a.isPartial with
  | false => simp [first, alignment, whole, Nat.dvd_iff_mod_eq_zero]
  | true =>
    have four : a.size = 4 := by
      rcases a with op | op <;> cases op <;> first | rfl | cases whole
    simp [first, alignment, whole, four, Word.toNat_align_mod_four]

theorem first_of_not_dvd {a : MemoryOp} {addr : Word} (unaligned : ¬a.alignment ∣ addr.toNat) :
    a.first addr = addr := by
  cases whole : a.isPartial with
  | false => simp [first, whole]
  | true => simp [alignment, whole] at unaligned

end MemoryOp

namespace Layout

def Maps (l : Layout) (addr : Word) (n : Nat) : Prop :=
  ∀ i < n, l.Backs (addr.add (Word.ofNat i)) 1

def refusal (l : Layout) (addr : Word) : MemoryError :=
  if addr.toNat < l.base.toNat then .below addr else .beyond addr

/-- The trap that ends an access to some bytes. Their alignment is looked at first. -/
def trap? (l : Layout) (addr : Word) (n : Nat) : Option Trap :=
  if addr.toNat % n = 0 then
    if l.Backs addr n then none else some (.bus addr (l.refusal addr))
  else some (.unaligned addr)

variable {l : Layout} {addr : Word} {n : Nat}

theorem maps_iff_backs (some : 0 < n) (room : addr.toNat + n ≤ 0x100000000) :
    l.Maps addr n ↔ l.Backs addr n := by
  have place {i : Nat} (within : i < n) : (addr.add (Word.ofNat i)).toNat = addr.toNat + i := by
    rw [Word.add_eq, Word.ofNat_eq, BitVec.toNat_add, BitVec.toNat_ofNat]
    omega
  constructor
  · intro mapped
    -- The two ends decide, as memory has no holes.
    have head := mapped 0 some
    have last := mapped (n - 1) (by omega)
    simp only [Backs, place some, place (show n - 1 < n by omega)] at head last ⊢
    omega
  · intro backed i within
    simp only [Backs, place within] at backed ⊢
    omega

theorem trap?_eq_none_iff : l.trap? addr n = none ↔ addr.toNat % n = 0 ∧ l.Backs addr n := by
  unfold trap?
  split
  · split <;> simp_all
  · simp_all

theorem trap?_eq_some_iff {t : Trap} : l.trap? addr n = some t ↔
    addr.toNat % n ≠ 0 ∧ t = .unaligned addr ∨
      addr.toNat % n = 0 ∧ ¬l.Backs addr n ∧ t = .bus addr (l.refusal addr) := by
  unfold trap?
  split
  · split <;> simp_all [eq_comm]
  · simp_all [eq_comm]

end Layout

theorem MemoryOp.maps_iff_backs {l : Layout} {a : MemoryOp} {addr : Word}
    (aligned : (a.first addr).toNat % a.size = 0) :
    l.Maps (a.first addr) a.size ↔ l.Backs (a.first addr) a.size := by
  have bound := (a.first addr).isLt
  apply Layout.maps_iff_backs
  · rcases a.size_cases with size | size | size <;> omega
  · rcases a.size_cases with size | size | size <;> rw [size] at aligned ⊢ <;> omega

namespace Memory

variable {m : Memory} {addr : Word} {n : Nat}

theorem offset?_of_not_backs (unbacked : ¬m.layout.Backs addr n) :
    m.offset? addr n = .error (m.layout.refusal addr) := by
  unfold offset? Layout.refusal
  split
  · rfl
  · rename_i above
    rw [if_neg]
    exact fun within => unbacked ⟨Nat.le_of_not_lt above, within⟩

theorem readWord_of_not_backs (unbacked : ¬m.layout.Backs addr n) :
    m.readWord addr n = .error (m.layout.refusal addr) := by
  rw [readWord, offset?_of_not_backs unbacked]
  rfl

theorem writeWord_of_not_backs (narrow : n ≤ 4) (unbacked : ¬m.layout.Backs addr n) (w : Word) :
    m.writeWord addr n w = .error (m.layout.refusal addr) := by
  rw [writeWord, write, Word.length_lowBytes narrow, offset?_of_not_backs unbacked]
  rfl

end Memory

namespace Hart

variable {h h' : Hart} {addr : Word} {rt rs : Register} {imm : BitVec 16} {n : Nat}

theorem loadAt_of_trap? {t : Trap} (refused : h.mem.layout.trap? addr n = some t) :
    h.loadAt addr n = .error t := by
  obtain ⟨unaligned, rfl⟩ | ⟨aligned, unbacked, rfl⟩ := Layout.trap?_eq_some_iff.mp refused
  · exact if_neg unaligned
  · rw [loadAt, if_pos aligned, Memory.readWord_of_not_backs unbacked]
    rfl

theorem storeAt_of_trap? {t : Trap} {w : Word} (narrow : n ≤ 4)
    (refused : h.mem.layout.trap? addr n = some t) : h.storeAt addr n w = .error t := by
  obtain ⟨unaligned, rfl⟩ | ⟨aligned, unbacked, rfl⟩ := Layout.trap?_eq_some_iff.mp refused
  · exact if_neg unaligned
  · rw [storeAt, if_pos aligned, Memory.writeWord_of_not_backs narrow unbacked]
    rfl

theorem store_of_trap? {op : Store} {t : Trap}
    (refused : h.mem.layout.trap? (op.place addr) op.width = some t) :
    h.store op rt addr = .error t := by
  cases op with
  | sb | sh | sw | sc => exact map_eq_error_iff.mpr (storeAt_of_trap? (by decide) refused)
  | swl | swr =>
    exact bind_eq_error_iff.mpr (.inl (map_eq_error_iff.mpr (loadAt_of_trap? refused)))

theorem exec_of_trap? {a : MemoryOp} {t : Trap}
    (refused : h.mem.layout.trap? (a.first (h.effective rs imm)) a.size = some t) :
    h.exec (a.instruction rt rs imm) = (h, some t) := by
  cases a with
  | load op =>
    rw [MemoryOp.first_load, MemoryOp.size_load] at refused
    have failed : h.load op rt (h.effective rs imm) = .error t :=
      map_eq_error_iff.mpr (loadAt_of_trap? refused)
    rw [MemoryOp.instruction, exec, failed]
    rfl
  | store op =>
    rw [MemoryOp.first_store, MemoryOp.size_store] at refused
    rw [MemoryOp.instruction, exec, store_of_trap? refused]
    rfl

theorem exists_exec {a : MemoryOp}
    (free : h.mem.layout.trap? (a.first (h.effective rs imm)) a.size = none) :
    ∃ h', h.exec (a.instruction rt rs imm) = (h', none) := by
  obtain ⟨aligned, backed⟩ := Layout.trap?_eq_none_iff.mp free
  cases a with
  | load op =>
    rw [MemoryOp.first_load, MemoryOp.size_load] at aligned backed
    obtain ⟨w, loaded⟩ := exists_loadAt aligned backed
    have done : h.load op rt (h.effective rs imm) = .ok _ := map_eq_ok_iff.mpr ⟨w, loaded, rfl⟩
    exact ⟨_, congrArg h.attempt done⟩
  | store op =>
    rw [MemoryOp.first_store, MemoryOp.size_store] at aligned backed
    obtain ⟨h', done⟩ := exists_store aligned backed
    exact ⟨h', congrArg h.attempt done⟩

end Hart

/-- Whether a register holds what a load puts into it, from the bytes at an offset and from what it
held. Narrow loads extend the number that the bytes spell; partial ones put the bytes from the
address to the end of its word, or up to the address, into their places in the register. -/
def Load.Gives (op : Load) (bytes : Nat → UInt8) (off : Nat) (addr old w : Word) : Prop :=
  match op with
  | lb => w.signed = (Width.byte.value bytes off : Int).bmod 0x100
  | lbu => w.toNat = Width.byte.value bytes off
  | lh => w.signed = (Width.half.value bytes off : Int).bmod 0x10000
  | lhu => w.toNat = Width.half.value bytes off
  | lw | ll => w.toNat = Width.word.value bytes off
  | lwl => ∀ j < 4, (Word.bytes w)[j]? =
      if j + Word.lane addr < 4 then some (bytes (off + j)) else (Word.bytes old)[j]?
  | lwr => ∀ j < 4, (Word.bytes w)[j]? =
      if 3 ≤ j + Word.lane addr then some (bytes (off + j - 3)) else (Word.bytes old)[j]?

/-- Whether the bytes at an offset are what a store of a register puts there: its low bytes, or as
many of its high or its low ones as a partial store reaches. -/
def Store.Puts (op : Store) (bytes : Nat → UInt8) (off : Nat) (addr reg : Word) : Prop :=
  match op with
  | sb => Width.byte.value bytes off = reg.toNat % 0x100
  | sh => Width.half.value bytes off = reg.toNat % 0x10000
  | sw | sc => Width.word.value bytes off = reg.toNat
  | swl => ∀ j < 4, j + Word.lane addr < 4 → some (bytes (off + j)) = (Word.bytes reg)[j]?
  | swr => ∀ j < 4, 3 ≤ j + Word.lane addr → some (bytes (off + j - 3)) = (Word.bytes reg)[j]?

namespace Word

theorem signed_extendByte (w : Word) :
    (extendByte w.lowByte).signed = (w.toNat : Int).bmod 0x100 := by
  rw [signed_eq, extendByte_eq, BitVec.toInt_signExtend_of_le (by decide), lowByte_eq,
    BitVec.toInt_setWidth]

theorem signed_extendHalf_lowHalf (w : Word) :
    (extendHalf w.lowHalf).signed = (w.toNat : Int).bmod 0x10000 := by
  rw [signed_extendHalf, lowHalf_eq, BitVec.toInt_setWidth]

end Word

namespace Width

def count : Width → Nat
  | byte => 0x100
  | half => 0x10000
  | word => 0x100000000

theorem size_le (width : Width) : width.size ≤ 4 := by
  cases width <;> decide

theorem value_of_bytes {bytes : Nat → UInt8} {off : Nat} {w : Word} {width : Width}
    (same : ∀ i < width.size, some (bytes (off + i)) = (Word.bytes w)[i + (4 - width.size)]?) :
    width.value bytes off = w.toNat % width.count := by
  have low (i : Nat) (within : i < width.size) : some (bytes (off + i)) = (width.bytes w)[i]? := by
    rw [same i within, ← lowBytes_size, Word.lowBytes, List.getElem?_drop, Nat.add_comm]
  have bound := w.isLt
  cases width with
  | byte =>
    have b₀ : bytes off = UInt8.ofNat w.toNat := Option.some.inj (low 0 (by decide))
    rw [value, b₀]
    exact UInt8.toNat_ofNat'
  | half =>
    have b₀ : bytes off = UInt8.ofNat (w.toNat / 0x100) := Option.some.inj (low 0 (by decide))
    have b₁ : bytes (off + 1) = UInt8.ofNat w.toNat := Option.some.inj (low 1 (by decide))
    simp only [value, count, b₀, b₁, UInt8.toNat_ofNat']
    omega
  | word =>
    have b₀ : bytes off = UInt8.ofNat (w.toNat / 0x1000000) := Option.some.inj (low 0 (by decide))
    have b₁ : bytes (off + 1) = UInt8.ofNat (w.toNat / 0x10000) :=
      Option.some.inj (low 1 (by decide))
    have b₂ : bytes (off + 2) = UInt8.ofNat (w.toNat / 0x100) := Option.some.inj (low 2 (by decide))
    have b₃ : bytes (off + 3) = UInt8.ofNat w.toNat := Option.some.inj (low 3 (by decide))
    simp only [value, count, b₀, b₁, b₂, b₃, UInt8.toNat_ofNat']
    omega

end Width

namespace Hart

variable {h h' : Hart} {addr : Word} {rt rs : Register} {imm : BitVec 16} {n : Nat}

theorem toNat_of_readWord {m : Memory} {w : Word} (width : Width)
    (fetched : m.readWord addr width.size = .ok w) :
    w.toNat = width.value m.byteAt (m.layout.offset addr) :=
  Memory.answers_of_look (r := .word addr width) (map_eq_ok_iff.mpr ⟨w, fetched, rfl⟩)

theorem bytes_of_readWord_align {m : Memory} {w : Word}
    (fetched : m.readWord (Word.align addr) 4 = .ok w) :
    Word.lane addr ≤ m.layout.offset addr ∧ ∀ i < 4, (Word.bytes w)[i]? =
      some (m.byteAt (m.layout.offset addr - Word.lane addr + i)) := by
  obtain ⟨off, found, bytes⟩ := Memory.bytes_of_readWord fetched
  obtain ⟨above, rfl, _⟩ := Memory.offset?_eq_ok_iff.mp found
  have start := Word.toNat_align addr
  have place : (Word.align addr).toNat - m.layout.base.toNat =
      m.layout.offset addr - Word.lane addr := by
    rw [Layout.offset, Word.lane]
    omega
  constructor
  · rw [Layout.offset, Word.lane]
    omega
  · intro i within
    rw [bytes, Contents.getElem?_fetch _ _ within, place]
    rfl

theorem gives_of_readWord {op : Load} {w : Word} (old : Word)
    (fetched : h.mem.readWord (op.place addr) op.width = .ok w) :
    op.Gives h.mem.byteAt (h.mem.layout.offset addr) addr old (op.result old w addr) := by
  cases op with
  | lb =>
    have value := toNat_of_readWord .byte fetched
    rw [Load.Gives, Load.result, Word.signed_extendByte, value]
    rfl
  | lh =>
    have value := toNat_of_readWord .half fetched
    rw [Load.Gives, Load.result, Word.signed_extendHalf_lowHalf, value]
    rfl
  | lbu => exact toNat_of_readWord .byte fetched
  | lhu => exact toNat_of_readWord .half fetched
  | lw | ll => exact toNat_of_readWord .word fetched
  | lwl =>
    obtain ⟨room, bytes⟩ := bytes_of_readWord_align fetched
    intro j hj
    rw [Load.result, Word.getElem?_loadLeft]
    split
    · rename_i reached
      rw [bytes _ reached]
      congr 2
      omega
    · rfl
  | lwr =>
    obtain ⟨room, bytes⟩ := bytes_of_readWord_align fetched
    intro j hj
    have small := Word.lane_lt addr
    rw [Load.result, Word.getElem?_loadRight _ _ _ hj]
    split
    · rw [bytes _ (by omega)]
      congr 2
      omega
    · rfl

theorem backs_of_store {op : Store} (stored : h.store op rt addr = .ok h') :
    h.mem.layout.Backs (op.place addr) op.width := by
  cases refused : h.mem.layout.trap? (op.place addr) op.width with
  | none => exact (Layout.trap?_eq_none_iff.mp refused).2
  | some t =>
    rw [store_of_trap? refused] at stored
    cases stored

theorem getElem?_of_store {op : Store} (stored : h.store op rt addr = .ok h') {j k : Nat}
    (hj : j < 4) (place : h.mem.layout.base.toNat + k + op.first = addr.toNat + j)
    (reached : op.Covers addr (h.mem.layout.base.toNat + k)) :
    some (h'.mem.byteAt k) = (Word.bytes (h.cpu.read rt))[j]? := by
  rw [byteAt_of_store stored, if_pos reached, Store.byte, place, Nat.add_sub_cancel_left,
    Word.getElem?_bytes _ hj]

theorem value_of_store {op : Store} (stored : h.store op rt addr = .ok h') (width : Width)
    (above : h.mem.layout.base.toNat ≤ addr.toNat) (first : op.first = 4 - width.size)
    (covers : ∀ a, addr.toNat ≤ a → a < addr.toNat + width.size → op.Covers addr a) :
    width.value h'.mem.byteAt (h.mem.layout.offset addr) =
      (h.cpu.read rt).toNat % width.count := by
  apply Width.value_of_bytes
  intro i within
  have small := width.size_le
  have place : h.mem.layout.base.toNat + (h.mem.layout.offset addr + i) = addr.toNat + i := by
    rw [Layout.offset]
    omega
  apply getElem?_of_store stored
  · omega
  · omega
  · exact covers _ (by omega) (by omega)

theorem puts_of_store {op : Store} (stored : h.store op rt addr = .ok h') :
    op.Puts h'.mem.byteAt (h.mem.layout.offset addr) addr (h.cpu.read rt) := by
  have above := (backs_of_store stored).1
  have start := Word.toNat_align addr
  cases op with
  | sb => exact value_of_store stored .byte above rfl fun _ => And.intro
  | sh => exact value_of_store stored .half above rfl fun _ => And.intro
  | sw | sc =>
    have value := value_of_store stored .word above rfl fun _ => And.intro
    exact value.trans (Nat.mod_eq_of_lt (h.cpu.read rt).isLt)
  | swl =>
    intro j hj within
    rw [Store.place, start] at above
    apply getElem?_of_store stored hj
    · simp only [Store.first, Layout.offset]
      omega
    · simp only [Store.Covers, Layout.offset, Word.lane] at within ⊢
      omega
  | swr =>
    intro j hj within
    rw [Store.place, start] at above
    simp only [Word.lane] at within
    apply getElem?_of_store stored hj
    · simp only [Store.first, Layout.offset]
      omega
    · simp only [Store.Covers, Layout.offset]
      omega

structure HasLoaded (h : Hart) (op : Load) (rt : Register) (addr : Word) (h' : Hart) : Prop where
  value : ¬h.cpu.Discards rt → op.Gives h.mem.byteAt (h.mem.layout.offset addr) addr
    (h.cpu.read rt) (h'.cpu.read rt)
  cpu : ∃ w, h'.cpu = h.cpu.write rt w
  mem : h'.mem = h.mem

/-- The state behind a store: the bytes of its register are in memory, where no others change, and a
conditional store has reported success. -/
structure HasStored (h : Hart) (op : Store) (rt : Register) (addr : Word) (h' : Hart) : Prop where
  value : op.Puts h'.mem.byteAt (h.mem.layout.offset addr) addr (h.cpu.read rt)
  others : ∀ k, ¬op.Covers addr (h.mem.layout.base.toNat + k) → h'.mem.byteAt k = h.mem.byteAt k
  layout : h'.mem.layout = h.mem.layout
  marks : h'.mem.marks = h.mem.marks
  cpu : h'.cpu = if op = .sc then h.cpu.write rt 1 else h.cpu
  reports : op = .sc → ¬h.cpu.Discards rt → h'.cpu.read rt = 1

def HasAccessed (h : Hart) (rt : Register) (addr : Word) (h' : Hart) : MemoryOp → Prop
  | .load op => h.HasLoaded op rt addr h'
  | .store op => h.HasStored op rt addr h'

/-- What comes of an access to an address. -/
structure Outcome (h : Hart) (a : MemoryOp) (rt : Register) (addr : Word)
    (result : Hart × Option Trap) : Prop where
  unaligned : result = (h, some (.unaligned addr)) ↔ ¬a.alignment ∣ addr.toNat
  done : (∃ h', result = (h', none)) ↔
    a.alignment ∣ addr.toNat ∧ h.mem.layout.Maps (a.first addr) a.size
  bus : a.alignment ∣ addr.toNat → ¬h.mem.layout.Maps (a.first addr) a.size →
    result = (h, some (.bus (a.first addr) (h.mem.layout.refusal (a.first addr))))
  effect : ∀ h', result = (h', none) → h.HasAccessed rt addr h' a

theorem hasLoaded_of_load {op : Load} (loaded : h.load op rt addr = .ok h') :
    h.HasLoaded op rt addr h' := by
  obtain ⟨w, fetched, same⟩ := cpu_of_load loaded
  refine ⟨fun kept => ?_, ⟨_, same⟩, mem_of_load loaded⟩
  rw [same, Cpu.read_write_self _ kept]
  exact gives_of_readWord _ fetched

theorem hasStored_of_store {op : Store} (stored : h.store op rt addr = .ok h') :
    h.HasStored op rt addr h' := by
  obtain ⟨layout, marks, _⟩ := (written_of_store stored).marks_eq
  have cpu := cpu_of_store stored
  refine ⟨puts_of_store stored, fun k apart => ?_, layout, marks, cpu, fun conditional kept => ?_⟩
  · exact (byteAt_of_store stored).trans (if_neg apart)
  · rw [cpu, if_pos conditional, Cpu.read_write_self _ kept]

theorem hasAccessed_of_exec {a : MemoryOp}
    (done : h.exec (a.instruction rt rs imm) = (h', none)) :
    h.HasAccessed rt (h.effective rs imm) h' a := by
  cases a with
  | load op => exact hasLoaded_of_load (eq_ok_of_attempt done)
  | store op => exact hasStored_of_store (eq_ok_of_attempt done)

theorem toNat_effective (h : Hart) (rs : Register) (imm : BitVec 16) :
    ((h.effective rs imm).toNat : Int) =
      ((h.cpu.read rs).toNat + imm.toInt) % 0x100000000 := by
  have extended := toNat_extendHalf imm
  rw [effective, Word.add_eq, BitVec.toNat_add]
  omega

/-- A load or a store traps at an address that its width does not divide, and then at bytes that
memory does not have. Otherwise it moves just the bytes that it names. -/
theorem exec_access (h : Hart) (a : MemoryOp) (rt rs : Register) (imm : BitVec 16) :
    ∃ addr : Word, (addr.toNat : Int) = ((h.cpu.read rs).toNat + imm.toInt) % 0x100000000 ∧
      h.Outcome a rt addr (h.exec (a.instruction rt rs imm)) := by
  refine ⟨h.effective rs imm, toNat_effective h rs imm, ?_⟩
  have divides := a.toNat_first_mod (h.effective rs imm)
  cases refused : h.mem.layout.trap? (a.first (h.effective rs imm)) a.size with
  | none =>
    obtain ⟨aligned, backed⟩ := Layout.trap?_eq_none_iff.mp refused
    have mapped := (MemoryOp.maps_iff_backs aligned).mpr backed
    obtain ⟨h', done⟩ : ∃ h', h.exec (a.instruction rt rs imm) = (h', none) := exists_exec refused
    have there := divides.mp aligned
    constructor
    · simp [done, there]
    · simp [done, there, mapped]
    · exact fun _ unmapped => absurd mapped unmapped
    · exact fun h'' done => hasAccessed_of_exec done
  | some t =>
    have trapped : h.exec (a.instruction rt rs imm) = (h, some t) := exec_of_trap? refused
    obtain ⟨unaligned, rfl⟩ | ⟨aligned, unbacked, rfl⟩ := Layout.trap?_eq_some_iff.mp refused
    · -- The trap names where the access begins, which for a whole one is its own address.
      have apart := mt divides.mpr unaligned
      rw [MemoryOp.first_of_not_dvd apart] at trapped
      constructor
      · simp [trapped, apart]
      · simp [trapped, apart]
      · exact fun there => absurd there apart
      · simp [trapped]
    · have there := divides.mp aligned
      have unmapped := mt (MemoryOp.maps_iff_backs aligned).mp unbacked
      constructor
      · simp [trapped, there]
      · simp [trapped, unmapped]
      · exact fun _ _ => trapped
      · simp [trapped]

end Hart
end Mips
