import Mathlib.Data.List.Permutation
import Mips.Proofs.Hart.Updates
import Mips.Proofs.Memory.Operations

/-!
Words at any address, which a pair of partial accesses reaches: one works from the address to the
end of its word, the other from the start of the next word on. Main statement: `exec_pairs`, in
either order the two loads fetch the word and the two stores put it there.
-/
namespace Mips

namespace Word

theorem toNat_align_mod_four (a : Word) : (align a).toNat % 4 = 0 := by
  rw [toNat_align]
  exact Nat.mul_mod_left ..

theorem getElem?_loadLeft (reg word addr : Word) (j : Nat) :
    (bytes (loadLeft reg word addr))[j]? =
      if j + lane addr < 4 then (bytes word)[j + lane addr]? else (bytes reg)[j]? := by
  have small := lane_lt addr
  have loaded : ((bytes word).drop (lane addr)).length = 4 - lane addr := List.length_drop ..
  have kept : ((bytes reg).drop (4 - lane addr)).length = lane addr := by
    rw [List.length_drop, length_bytes]
    omega
  rw [loadLeft, bytes_ofBytes (by rw [List.length_append]; omega), List.getElem?_append, loaded,
    List.getElem?_drop, List.getElem?_drop]
  split
  · rw [if_pos (by omega), Nat.add_comm]
  · rw [if_neg (by omega)]
    congr 1
    omega

theorem getElem?_loadRight (reg word addr : Word) {j : Nat} (hj : j < 4) :
    (bytes (loadRight reg word addr))[j]? =
      if 3 ≤ j + lane addr then (bytes word)[j + lane addr - 3]? else (bytes reg)[j]? := by
  have small := lane_lt addr
  have kept : ((bytes reg).take (3 - lane addr)).length = 3 - lane addr := by
    rw [List.length_take, length_bytes]
    omega
  have loaded : ((bytes word).take (lane addr + 1)).length = lane addr + 1 := by
    rw [List.length_take, length_bytes]
    omega
  rw [loadRight, bytes_ofBytes (by rw [List.length_append]; omega), List.getElem?_append, kept]
  split
  · rw [if_neg (by omega), List.getElem?_take_of_lt (by omega)]
  · rw [if_pos (by omega), List.getElem?_take_of_lt (by omega)]
    congr 1
    omega

theorem fetch_eq_bytes {c : Contents} {off : Nat} {w : Word}
    (same : ∀ j < 4, (bytes w)[j]? = some (c.byteAt (off + j))) : c.fetch off 4 = bytes w := by
  apply List.ext_getElem?
  intro j
  by_cases hj : j < 4
  · rw [Contents.getElem?_fetch c off hj, same j hj]
  · rw [List.getElem?_eq_none (by rw [Contents.length_fetch]; omega),
      List.getElem?_eq_none (by rw [length_bytes]; omega)]

end Word

/-- The ends of an unaligned word, by the partial access that works there. -/
inductive Side
  | left | right

namespace Side

def load : Side → Load
  | left => .lwl
  | right => .lwr

def store : Side → Store
  | left => .swl
  | right => .swr

def field (imm : BitVec 16) : Side → BitVec 16
  | left => imm
  | right => imm + 3

def place (addr : Word) : Side → Word
  | left => addr
  | right => addr.add 3

def Reaches (addr : Word) (a : Nat) (s : Side) : Prop := s.store.Covers (s.place addr) a

instance (addr : Word) (a : Nat) (s : Side) : Decidable (s.Reaches addr a) :=
  inferInstanceAs (Decidable (s.store.Covers _ a))

end Side

/-- An address with four bytes behind it, the words around which are backed by memory. -/
structure Layout.HoldsWord (l : Layout) (addr : Word) : Prop where
  room : addr.toNat + 3 < 0x100000000
  first : l.Backs (Word.align addr) 4
  last : l.Backs (Word.align (addr.add 3)) 4

namespace Side

variable {l : Layout} {addr : Word} {s : Side} {a j : Nat}

theorem toNat_place (room : addr.toNat + 3 < 0x100000000) (s : Side) :
    (s.place addr).toNat = addr.toNat + s.store.first := by
  have three : (3 : Word).toNat = 3 := rfl
  cases s with
  | left => rfl
  | right =>
    rw [place, Word.add_eq, BitVec.toNat_add, three]
    exact Nat.mod_eq_of_lt room

theorem backs_place (held : l.HoldsWord addr) (s : Side) :
    l.Backs (Word.align (s.place addr)) 4 := by
  cases s with
  | left => exact held.first
  | right => exact held.last

theorem within_of_reaches (reached : s.Reaches addr a) :
    (Word.align (s.place addr)).toNat ≤ a ∧ a < (Word.align (s.place addr)).toNat + 4 := by
  rw [Word.toNat_align]
  cases s <;>
    · simp only [Reaches, store, Store.Covers] at reached
      omega

theorem exists_reaches_iff (room : addr.toNat + 3 < 0x100000000) :
    (∃ s : Side, s.Reaches addr a) ↔ addr.toNat ≤ a ∧ a < addr.toNat + 4 := by
  have last := toNat_place room right
  constructor
  · rintro ⟨s, reached⟩
    cases s with
    | left =>
      simp only [Reaches, store, Store.Covers, place] at reached
      omega
    | right =>
      simp only [Reaches, store, Store.Covers, last, Store.first] at reached
      omega
  · intro within
    by_cases near : a < addr.toNat / 4 * 4 + 4
    · exact ⟨left, within.1, near⟩
    · refine ⟨right, ?_⟩
      simp only [Reaches, store, Store.Covers, last, Store.first]
      omega

theorem ite_exists_cons {α : Type} (s : Side) (sides : List Side) (x y : α) :
    (if ∃ t ∈ sides, t.Reaches addr a then x else if s.Reaches addr a then x else y) =
      if ∃ t ∈ s :: sides, t.Reaches addr a then x else y := by
  have either : (∃ t ∈ s :: sides, t.Reaches addr a) ↔
      (∃ t ∈ sides, t.Reaches addr a) ∨ s.Reaches addr a := by
    rw [List.exists_mem_cons_iff, or_comm]
  simp only [either, ite_or]

theorem getElem?_result (room : addr.toNat + 3 < 0x100000000) (s : Side) (old word : Word)
    (hj : j < 4) :
    (Word.bytes (s.load.result old word (s.place addr)))[j]? =
      if s.Reaches addr (addr.toNat + j) then
        (Word.bytes word)[addr.toNat + j - (Word.align (s.place addr)).toNat]?
      else (Word.bytes old)[j]? := by
  have start := Word.toNat_align (s.place addr)
  rw [toNat_place room s] at start
  cases s with
  | left =>
    have reached : left.Reaches addr (addr.toNat + j) ↔ j + Word.lane addr < 4 := by
      simp only [Reaches, store, Store.Covers, place, Word.lane]
      omega
    have spot : addr.toNat + j - (Word.align (left.place addr)).toNat = j + Word.lane addr := by
      rw [start, Word.lane]
      simp only [store, Store.first]
      omega
    rw [spot, load, Load.result, place, Word.getElem?_loadLeft]
    simp only [reached]
  | right =>
    have last := toNat_place room right
    have reached : right.Reaches addr (addr.toNat + j) ↔
        3 ≤ j + Word.lane (right.place addr) := by
      simp only [Reaches, store, Store.Covers, last, Store.first, Word.lane]
      omega
    have spot : addr.toNat + j - (Word.align (right.place addr)).toNat =
        j + Word.lane (right.place addr) - 3 := by
      rw [start, Word.lane, last]
      simp only [store, Store.first]
      omega
    rw [spot, load, Load.result, Word.getElem?_loadRight _ _ _ hj]
    simp only [reached]

end Side

namespace Hart

variable {h : Hart} {addr : Word} {rt rs : Register} {imm : BitVec 16}

theorem toInt_add_three (low : imm.toInt + 3 < 0x8000) : (imm + 3).toInt = imm.toInt + 3 := by
  have lower := imm.le_toInt
  have three : (3 : BitVec 16).toInt = 3 := rfl
  rw [BitVec.toInt_add, three]
  exact Int.bmod_eq_of_le (by omega) (by omega)

theorem effective_field (there : h.effective rs imm = addr) (low : imm.toInt + 3 < 0x8000)
    (s : Side) : h.effective rs (s.field imm) = s.place addr := by
  subst there
  cases s with
  | left => rfl
  | right =>
    have extended : Word.extendHalf (imm + 3) = (Word.extendHalf imm).add 3 := by
      have plain := toNat_extendHalf imm
      have ahead := toNat_extendHalf (imm + 3)
      rw [toInt_add_three low] at ahead
      have three : (3 : Word).toNat = 3 := rfl
      apply BitVec.eq_of_toNat_eq
      rw [Word.add_eq, BitVec.toNat_add, three]
      omega
    rw [effective, Side.field, extended, Side.place, effective]
    exact (BitVec.add_assoc ..).symm

theorem loadAt_of_backs (backed : h.mem.layout.Backs (Word.align addr) 4) :
    ∃ w, h.loadAt (Word.align addr) 4 = .ok w ∧ ∀ i < 4,
      (Word.bytes w)[i]? = some (h.mem.byteAt (h.mem.layout.offset (Word.align addr) + i)) := by
  obtain ⟨w, loaded⟩ := exists_loadAt (Word.toNat_align_mod_four addr) backed
  obtain ⟨off, found, bytes⟩ := Memory.bytes_of_readWord (readWord_of_loadAt loaded)
  obtain rfl := Except.ok.inj ((Memory.offset?_of_backs backed).symm.trans found)
  refine ⟨w, loaded, fun i hi => ?_⟩
  rw [bytes]
  exact Contents.getElem?_fetch _ _ hi

theorem exec_load_side (there : h.effective rs imm = addr) (low : imm.toInt + 3 < 0x8000)
    (held : h.mem.layout.HoldsWord addr) (rt : Register) (s : Side) :
    ∃ w, h.exec (.load s.load rt rs (s.field imm)) = (h.write rt w, none) ∧
      ∀ j < 4, (Word.bytes w)[j]? =
        if s.Reaches addr (addr.toNat + j) then
          some (h.mem.byteAt (h.mem.layout.offset addr + j))
        else (Word.bytes (h.cpu.read rt))[j]? := by
  have place := effective_field there low s
  obtain ⟨old, loaded, bytes⟩ := loadAt_of_backs (Side.backs_place held s)
  refine ⟨s.load.result (h.cpu.read rt) old (s.place addr), ?_, fun j hj => ?_⟩
  · have around : s.load.place (s.place addr) = Word.align (s.place addr) := by cases s <;> rfl
    have four : s.load.width = 4 := by cases s <;> rfl
    rw [exec, place, load, around, four, loaded]
    rfl
  · rw [Side.getElem?_result held.room s _ _ hj]
    split
    · rename_i reached
      have within := Side.within_of_reaches reached
      have above := (Side.backs_place held s).1
      have first := held.first.1
      have start := Word.toNat_align addr
      rw [bytes _ (by omega)]
      congr 2
      unfold Layout.offset
      omega
    · rfl

theorem exec_store_side (there : h.effective rs imm = addr) (low : imm.toInt + 3 < 0x8000)
    (held : h.mem.layout.HoldsWord addr) (rt : Register) (s : Side) :
    ∃ h', h.exec (.store s.store rt rs (s.field imm)) = (h', none) ∧ h'.cpu = h.cpu ∧
      h'.mem.layout = h.mem.layout ∧ ∀ k, h'.mem.byteAt k =
        if s.Reaches addr (h.mem.layout.base.toNat + k) then
          (Word.bytes (h.cpu.read rt)).getD (h.mem.layout.base.toNat + k - addr.toNat) 0
        else h.mem.byteAt k := by
  have place := effective_field there low s
  have backed := Side.backs_place held s
  obtain ⟨h', done⟩ : ∃ h', h.store s.store rt (s.place addr) = .ok h' := by
    apply exists_store
    · cases s <;> exact Word.toNat_align_mod_four _
    · cases s <;> exact backed
  have cpu : h'.cpu = h.cpu := by
    have same := cpu_of_store done
    cases s <;> exact same
  refine ⟨h', ?_, cpu, (written_of_store done).marks_eq.1, fun k => ?_⟩
  · rw [exec, place, done]
    rfl
  · rw [byteAt_of_store done, Store.byte, Side.toNat_place held.room, Nat.add_sub_add_right]
    rfl

/-- Loads at the ends of a word leave memory alone, so that each of them adds the bytes it reaches
to those that are in their places already. -/
theorem execAll_loads (apart : rt.index ≠ rs.index) (other : rt ≠ 0)
    (low : imm.toInt + 3 < 0x8000) (there : h.effective rs imm = addr)
    (held : h.mem.layout.HoldsWord addr) (sides : List Side) :
    ∃ h', h.execAll (sides.map fun s => .load s.load rt rs (s.field imm)) = (h', none) ∧
      ∀ j < 4, (Word.bytes (h'.cpu.read rt))[j]? =
        if ∃ s ∈ sides, s.Reaches addr (addr.toNat + j) then
          some (h.mem.byteAt (h.mem.layout.offset addr + j))
        else (Word.bytes (h.cpu.read rt))[j]? := by
  induction sides generalizing h with
  | nil => exact ⟨h, rfl, fun j hj => by simp⟩
  | cons s sides ih =>
    obtain ⟨w, done, loaded⟩ := exec_load_side there low held rt s
    have still : (h.write rt w).effective rs imm = addr := by
      rw [← there, effective, write, Cpu.read_write, if_pos (.inr apart), effective]
    obtain ⟨h', rest, bytes⟩ := ih (h := h.write rt w) still held
    refine ⟨h', (execAll_cons done _).trans rest, fun j hj => ?_⟩
    have written : (h.write rt w).cpu.read rt = w :=
      h.cpu.read_write_self (h.cpu.not_discards other) w
    rw [bytes j hj, written, loaded j hj]
    exact Side.ite_exists_cons ..

/-- Stores at the ends of a word leave the processor alone, so that each of them adds the bytes it
reaches to those that are in memory already. -/
theorem execAll_stores (low : imm.toInt + 3 < 0x8000) (there : h.effective rs imm = addr)
    (held : h.mem.layout.HoldsWord addr) (rt : Register) (sides : List Side) :
    ∃ h', h.execAll (sides.map fun s => .store s.store rt rs (s.field imm)) = (h', none) ∧
      h'.cpu = h.cpu ∧ h'.mem.layout = h.mem.layout ∧ ∀ k, h'.mem.byteAt k =
        if ∃ s ∈ sides, s.Reaches addr (h.mem.layout.base.toNat + k) then
          (Word.bytes (h.cpu.read rt)).getD (h.mem.layout.base.toNat + k - addr.toNat) 0
        else h.mem.byteAt k := by
  induction sides generalizing h with
  | nil => exact ⟨h, rfl, rfl, rfl, fun k => by simp⟩
  | cons s sides ih =>
    obtain ⟨h₁, done, cpu, layout, stored⟩ := exec_store_side there low held rt s
    have still : h₁.effective rs imm = addr := by rw [← there, effective, cpu, effective]
    obtain ⟨h', rest, cpu', layout', bytes⟩ := ih still (layout ▸ held)
    refine ⟨h', (execAll_cons done _).trans rest, cpu'.trans cpu, layout'.trans layout, ?_⟩
    intro k
    rw [bytes k, layout, cpu, stored k]
    exact Side.ite_exists_cons ..

def loadPair (rt rs : Register) (imm : BitVec 16) : List Instruction :=
  [.load .lwl rt rs imm, .load .lwr rt rs (imm + 3)]

def storePair (rt rs : Register) (imm : BitVec 16) : List Instruction :=
  [.store .swl rt rs imm, .store .swr rt rs (imm + 3)]

theorem exists_sides_of_perm {α : Type} {f : Side → α} {xs : List α}
    (order : xs.Perm [f .left, f .right]) :
    ∃ sides : List Side, xs = sides.map f ∧ ∀ s, s ∈ sides := by
  rcases List.perm_pair.mp order with rfl | rfl
  · exact ⟨[.left, .right], rfl, fun s => by cases s <;> simp⟩
  · exact ⟨[.right, .left], rfl, fun s => by cases s <;> simp⟩

theorem exists_mem_reaches_iff {sides : List Side} (both : ∀ s, s ∈ sides) {a : Nat}
    (room : addr.toNat + 3 < 0x100000000) :
    (∃ s ∈ sides, s.Reaches addr a) ↔ addr.toNat ≤ a ∧ a < addr.toNat + 4 := by
  rw [← Side.exists_reaches_iff room]
  exact ⟨fun ⟨s, _, reached⟩ => ⟨s, reached⟩, fun ⟨s, reached⟩ => ⟨s, both s, reached⟩⟩

theorem read_of_loadPair (apart : rt.index ≠ rs.index) (other : rt ≠ 0)
    (low : imm.toInt + 3 < 0x8000) (there : h.effective rs imm = addr)
    (held : h.mem.layout.HoldsWord addr) {is : List Instruction}
    (order : is.Perm (loadPair rt rs imm)) :
    ∃ h', h.execAll is = (h', none) ∧
      h'.cpu.read rt = Word.ofBytes (h.mem.contents.fetch (h.mem.layout.offset addr) 4) := by
  obtain ⟨sides, rfl, both⟩ := exists_sides_of_perm
    (f := fun s => Instruction.load s.load rt rs (s.field imm)) order
  obtain ⟨h', done, bytes⟩ := execAll_loads apart other low there held sides
  refine ⟨h', done, ?_⟩
  rw [Word.fetch_eq_bytes (w := h'.cpu.read rt), Word.ofBytes_bytes]
  intro j hj
  rw [bytes j hj, if_pos ((exists_mem_reaches_iff both held.room).mpr (by omega))]
  rfl

theorem byteAt_of_storePair (low : imm.toInt + 3 < 0x8000) (there : h.effective rs imm = addr)
    (held : h.mem.layout.HoldsWord addr) {is : List Instruction}
    (order : is.Perm (storePair rt rs imm)) :
    ∃ h', h.execAll is = (h', none) ∧ h'.cpu = h.cpu ∧ h'.mem.layout = h.mem.layout ∧
      ∀ k, h'.mem.byteAt k =
        if h.mem.layout.offset addr ≤ k ∧ k < h.mem.layout.offset addr + 4 then
          (Word.bytes (h.cpu.read rt)).getD (k - h.mem.layout.offset addr) 0
        else h.mem.byteAt k := by
  obtain ⟨sides, rfl, both⟩ := exists_sides_of_perm
    (f := fun s => Instruction.store s.store rt rs (s.field imm)) order
  obtain ⟨h', done, cpu, layout, bytes⟩ := execAll_stores low there held rt sides
  refine ⟨h', done, cpu, layout, fun k => ?_⟩
  have first := held.first.1
  have start := Word.toNat_align addr
  have within : (∃ s ∈ sides, s.Reaches addr (h.mem.layout.base.toNat + k)) ↔
      h.mem.layout.offset addr ≤ k ∧ k < h.mem.layout.offset addr + 4 := by
    rw [exists_mem_reaches_iff both held.room, Layout.offset]
    omega
  have place : h.mem.layout.base.toNat + k - addr.toNat = k - h.mem.layout.offset addr := by
    rw [Layout.offset]
    omega
  rw [bytes k, place]
  simp only [within]

/-- Words at any address are loaded and stored by pairs of partial accesses, in either order, so
that a pair of loads finds what a pair of stores has put there. -/
theorem exec_pairs (apart : rt.index ≠ rs.index) (other : rt ≠ 0) (low : imm.toInt + 3 < 0x8000)
    (there : h.effective rs imm = addr) (held : h.mem.layout.HoldsWord addr) :
    (∀ is, is.Perm (loadPair rt rs imm) → ∃ h', h.execAll is = (h', none) ∧
      h'.cpu.read rt = Word.ofBytes (h.mem.contents.fetch (h.mem.layout.offset addr) 4)) ∧
    ∀ is, is.Perm (storePair rt rs imm) → ∃ h', h.execAll is = (h', none) ∧
      (∀ k, h'.mem.byteAt k =
        if h.mem.layout.offset addr ≤ k ∧ k < h.mem.layout.offset addr + 4 then
          (Word.bytes (h.cpu.read rt)).getD (k - h.mem.layout.offset addr) 0
        else h.mem.byteAt k) ∧
      ∀ r : Register, r.index ≠ rs.index → r ≠ 0 → ∀ js, js.Perm (loadPair r rs imm) →
        ∃ h'', h'.execAll js = (h'', none) ∧ h''.cpu.read r = h.cpu.read rt := by
  refine ⟨fun is order => read_of_loadPair apart other low there held order, fun is order => ?_⟩
  obtain ⟨h', done, cpu, layout, bytes⟩ := byteAt_of_storePair low there held order
  refine ⟨h', done, bytes, fun r apart' other' js order' => ?_⟩
  have still : h'.effective rs imm = addr := by rw [← there, effective, cpu, effective]
  obtain ⟨h'', done', loaded⟩ := read_of_loadPair apart' other' low still (layout ▸ held) order'
  refine ⟨h'', done', loaded.trans ?_⟩
  rw [layout, Word.fetch_eq_bytes (w := h.cpu.read rt), Word.ofBytes_bytes]
  intro j hj
  have byte := bytes (h.mem.layout.offset addr + j)
  rw [if_pos (by omega), Nat.add_sub_cancel_left] at byte
  rw [Word.getElem?_bytes _ hj]
  exact congrArg some byte.symm

theorem exec_pairs_across :
    let h : Hart := ⟨((Cpu.reset {} 0x00400000).write 8 0x00400006).write 9 0x01020304, .empty {}⟩
    ∃ h', h.execAll (storePair 9 8 (-1)).reverse = (h', none) ∧ h'.mem.byteAt 4 = 0 ∧
      h'.mem.byteAt 5 = 1 ∧ h'.mem.byteAt 8 = 4 ∧ h'.mem.byteAt 9 = 0 ∧
      ∃ h'', h'.execAll (loadPair 10 8 (-1)).reverse = (h'', none) ∧
        h''.cpu.read 10 = 0x01020304 := by
  intro h
  have held : h.mem.layout.HoldsWord 0x00400005 := ⟨by decide, by decide, by decide⟩
  have pairs := exec_pairs (h := h) (by decide : (9 : Register).index ≠ (8 : Register).index)
    (by decide) (by decide : (-1 : BitVec 16).toInt + 3 < 0x8000) (by decide +kernel) held
  obtain ⟨h', done, bytes, loads⟩ := pairs.2 _ (List.reverse_perm _)
  obtain ⟨h'', done', value⟩ := loads 10 (by decide) (by decide) _ (List.reverse_perm _)
  refine ⟨h', done, ?_, ?_, ?_, ?_, h'', done', value.trans (by decide +kernel)⟩ <;>
    exact (bytes _).trans (by decide +kernel)

end Hart
end Mips
