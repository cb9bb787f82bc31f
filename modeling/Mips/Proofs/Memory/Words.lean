import Mips.Memory
import Mips.Proofs.Outcome

namespace Mips

namespace Contents

theorem getElem?_fetch (c : Contents) (off : Nat) {n i : Nat} (within : i < n) :
    (c.fetch off n)[i]? = some (c.byteAt (off + i)) := by
  rw [List.getElem?_eq_getElem (by rwa [length_fetch]), getElem_fetch]

theorem fetch_write_within (c : Contents) (off : Nat) {bs : List UInt8} {i n : Nat}
    (within : i + n ≤ bs.length) :
    (c.write off bs).fetch (off + i) n = (bs.drop i).take n := by
  apply List.ext_getElem
  · rw [length_fetch, List.length_take, List.length_drop]
    omega
  · intro k hk _
    rw [length_fetch] at hk
    rw [getElem_fetch, byteAt_write, if_pos (by omega), List.getElem_take, List.getElem_drop,
      List.getD_eq_getElem?_getD]
    have place : off + i + k - off = i + k := by omega
    rw [place, List.getElem?_eq_getElem (by omega)]
    rfl

theorem fetch_write_apart (c : Contents) {start off n : Nat} {bs : List UInt8}
    (apart : off + n ≤ start) : (c.write start bs).fetch off n = c.fetch off n := by
  apply fetch_congr
  intro i hi
  rw [byteAt_write, if_neg (by omega)]

end Contents

namespace Word

/-- The address of the word with a number, counted from the first at `start`. -/
def slot (start : Word) (i : Nat) : Word := start.add (ofNat (4 * i))

theorem slot_zero (start : Word) : slot start 0 = start := BitVec.add_zero start

theorem slot_add_four (start : Word) (i : Nat) : slot (start.add 4) i = slot start (i + 1) := by
  simp only [slot, add_eq, ofNat_eq, BitVec.add_assoc, Nat.mul_add]
  rw [BitVec.ofNat_add, BitVec.add_comm 4]
  rfl

theorem slot_succ (start : Word) (i : Nat) : slot start (i + 1) = (slot start i).add 4 := by
  simp only [slot, add_eq, ofNat_eq, BitVec.add_assoc, Nat.mul_add]
  rw [BitVec.ofNat_add]
  rfl

theorem toNat_slot (start : Word) (i : Nat) :
    (slot start i).toNat = (start.toNat + 4 * i) % 0x100000000 := by
  simp only [slot, add_eq, ofNat_eq, BitVec.toNat_add, BitVec.toNat_ofNat]
  omega

theorem bytes_ofBytes {bs : List UInt8} (four : bs.length = 4) : bytes (ofBytes bs) = bs := by
  match bs, four with
  | [a, b, c, d], _ =>
    have ha := a.toNat_lt
    have hb := b.toNat_lt
    have hc := c.toNat_lt
    have hd := d.toNat_lt
    have value : (ofBytes [a, b, c, d]).toNat =
        ((a.toNat * 256 + b.toNat) * 256 + c.toNat) * 256 + d.toNat := by
      simp only [ofBytes, List.foldl_cons, List.foldl_nil, ofNat_eq, BitVec.toNat_ofNat]
      omega
    simp only [bytes, value, Nat.shiftRight_eq_div_pow, List.cons.injEq, and_true]
    refine ⟨?_, ?_, ?_, ?_⟩ <;>
      · apply UInt8.toNat.inj
        rw [UInt8.toNat_ofNat']
        omega

theorem toNat_eq_toInt_emod (imm : BitVec 16) : (imm.toNat : Int) = imm.toInt % 0x10000 := by
  have := imm.isLt
  rw [BitVec.toInt_eq_toNat_cond]
  split <;> omega

theorem signed_of_pos {w : Word} (positive : 0 < w.signed) : w.signed = w.toNat := by
  rw [signed_eq, BitVec.toInt_eq_toNat_cond] at positive ⊢
  split at positive <;> omega

theorem length_flatMap_bytes (ws : List Word) : (ws.flatMap bytes).length = 4 * ws.length := by
  induction ws with
  | nil => rfl
  | cons w ws ih =>
    rw [List.flatMap_cons, List.length_append, ih, length_bytes, List.length_cons]
    omega

theorem take_drop_flatMap_bytes {ws : List Word} {i : Nat} {w : Word} (there : ws[i]? = some w) :
    ((ws.flatMap bytes).drop (4 * i)).take 4 = bytes w := by
  induction ws generalizing i with
  | nil => simp at there
  | cons first ws ih =>
    cases i with
    | zero =>
      obtain rfl := Option.some.inj there
      rfl
    | succ i =>
      rw [List.flatMap_cons, Nat.mul_succ, Nat.add_comm, ← List.drop_drop,
        List.drop_left' (length_bytes first)]
      exact ih there

end Word

namespace Memory

theorem offset?_eq_ok_iff {m : Memory} {addr : Word} {len off : Nat} :
    m.offset? addr len = .ok off ↔
      m.layout.base.toNat ≤ addr.toNat ∧ off = addr.toNat - m.layout.base.toNat ∧
        off + len ≤ m.layout.size.toNat := by
  unfold offset?
  split
  · constructor
    · nofun
    · omega
  · split
    · rw [Except.ok.injEq]
      omega
    · constructor
      · nofun
      · omega

theorem isText_iff {m : Memory} {pc : Word} :
    m.isText pc = true ↔ m.layout.base.toNat ≤ pc.toNat ∧ pc.toNat < m.textEnd.toNat := by
  rw [isText, Bool.and_eq_true, decide_eq_true_eq, decide_eq_true_eq]
  exact Iff.rfl

theorem readWord_of_fetch {m : Memory} {addr w : Word} {off : Nat}
    (backed : m.offset? addr 4 = .ok off) (bytes : m.contents.fetch off 4 = Word.bytes w) :
    m.readWord addr 4 = .ok w := by
  rw [readWord_eq, read, backed]
  simp only [Except.map, Block.toList, bytes, Word.ofBytes_bytes]

theorem bytes_of_readWord {m : Memory} {addr w : Word} (fetched : m.readWord addr 4 = .ok w) :
    ∃ off, m.offset? addr 4 = .ok off ∧ Word.bytes w = m.contents.fetch off 4 := by
  rw [readWord_eq, map_eq_ok_iff] at fetched
  obtain ⟨b, block, rfl⟩ := fetched
  obtain ⟨off, backed, rfl⟩ := map_eq_ok_iff.mp block
  exact ⟨off, backed, Word.bytes_ofBytes (Contents.length_fetch ..)⟩

theorem write_eq_ok_iff {m m' : Memory} {addr : Word} {bs : List UInt8} :
    m.write addr bs = .ok m' ↔ ∃ off, m.offset? addr bs.length = .ok off ∧
      m' = { m with contents := m.contents.write off bs } := by
  simp only [write, map_eq_ok_iff, @eq_comm _ _ m']

end Memory
end Mips
