namespace Mips

/-- A page of 256 bytes. The remainder of an offset is its place in a page. -/
structure Page where
  bytes : ByteArray
  size_bytes : bytes.size = 256

namespace Page

def zero : Page := ⟨⟨Array.replicate 256 0⟩, by simp [ByteArray.size]⟩

theorem place_lt (p : Page) (off : Nat) : off % 256 < p.bytes.size := by
  rw [p.size_bytes]
  exact Nat.mod_lt _ (by decide)

@[inline] def get (p : Page) (off : Nat) : UInt8 :=
  have within := p.place_lt off
  p.bytes[off % 256]

@[inline] def set (p : Page) (off : Nat) (b : UInt8) : Page :=
  ⟨p.bytes.set (off % 256) b (p.place_lt off), (Array.size_set ..).trans p.size_bytes⟩

/-- How many of `n` bytes from one offset on, and from another, stay in the page that they begin
in. -/
def reach (off src n : Nat) : Nat := min n (min (256 - off % 256) (256 - src % 256))

/-- The page with the bytes from the place of `off` on taken from another page, from the place of
`src` on: as many of `n` as stay in both. -/
def splice (p : Page) (off : Nat) (q : Page) (src n : Nat) : Page :=
  ⟨q.bytes.copySlice (src % 256) p.bytes (off % 256) (reach off src n), by
    have hp : p.bytes.data.size = 256 := p.size_bytes
    have hq : q.bytes.data.size = 256 := q.size_bytes
    simp only [ByteArray.copySlice, ByteArray.size, Array.size_append, Array.size_extract, hp, hq,
      reach]
    omega⟩

theorem get_zero (off : Nat) : zero.get off = 0 := by
  simp [get, zero, ByteArray.getElem_eq_getElem_data]

theorem get_set (p : Page) (off k : Nat) (b : UInt8) :
    (p.set off b).get k = if k % 256 = off % 256 then b else p.get k := by
  simp only [get, set, ByteArray.getElem_eq_getElem_data, ByteArray.data_set, Array.getElem_set,
    eq_comm]

theorem get_splice (p q : Page) (off src n k : Nat) :
    (p.splice off q src n).get k =
      if off % 256 ≤ k % 256 ∧ k % 256 < off % 256 + reach off src n then
        q.get (src % 256 + (k % 256 - off % 256))
      else p.get k := by
  have hp : p.bytes.data.size = 256 := p.size_bytes
  have hq : q.bytes.data.size = 256 := q.size_bytes
  have hr : reach off src n ≤ 256 - off % 256 ∧ reach off src n ≤ 256 - src % 256 := by
    unfold reach
    omega
  have hk : k % 256 < 256 := Nat.mod_lt _ (by decide)
  simp only [get, splice, ByteArray.getElem_eq_getElem_data, ByteArray.copySlice,
    Array.getElem_append, Array.getElem_extract, Array.size_append, Array.size_extract, hp, hq]
  split
  · split
    · rw [if_neg (by omega)]
      congr 1
      omega
    · rw [if_pos (by omega)]
      congr 1
      omega
  · rw [if_neg (by omega)]
    congr 1
    omega

end Page
end Mips
