import Mips.Block

namespace Mips

structure File where
  bytes : Contents := ∅
  size : Nat := 0
  mode : Nat
  zero_beyond : ∀ k, size ≤ k → bytes.byteAt k = 0 := by exact fun k _ => Contents.byteAt_empty k

namespace File

/-- A content with bytes put at a position. A gap before them is filled with zeros. -/
def overlay (content : List UInt8) (pos : Nat) (bs : List UInt8) : List UInt8 :=
  content.take pos ++ List.replicate (pos - content.length) 0 ++ bs ++
    content.drop (pos + bs.length)

theorem overlay_end (content bs : List UInt8) :
    overlay content content.length bs = content ++ bs := by
  simp [overlay]

theorem length_overlay (content : List UInt8) (pos : Nat) (bs : List UInt8) :
    (overlay content pos bs).length = max content.length (pos + bs.length) := by
  simp only [overlay, List.length_append, List.length_take, List.length_replicate,
    List.length_drop]
  omega

theorem getD_overlay (content : List UInt8) (pos k : Nat) (bs : List UInt8) :
    (overlay content pos bs).getD k 0 =
      if pos ≤ k ∧ k < pos + bs.length then bs.getD (k - pos) 0 else content.getD k 0 := by
  have front : (content.take pos ++ List.replicate (pos - content.length) 0).length = pos := by
    simp only [List.length_append, List.length_take, List.length_replicate]
    omega
  simp only [overlay, List.getD_eq_getElem?_getD]
  rw [List.append_assoc, List.getElem?_append, front]
  split
  · rw [if_neg (by omega), List.getElem?_append]
    split
    · rw [List.getElem?_take_of_lt (by omega)]
    · rename_i inside
      have past : content.length ≤ k := by
        rw [List.length_take] at inside
        omega
      rw [List.getElem?_eq_none past, List.getElem?_replicate]
      split <;> rfl
  · rw [List.getElem?_append]
    split
    · rw [if_pos (by omega)]
    · rw [if_neg (by omega), List.getElem?_drop,
        show pos + bs.length + (k - pos - bs.length) = k by omega]

def empty (mode : Nat) : File where
  mode := mode

def content (f : File) : List UInt8 := f.bytes.fetch 0 f.size

def read (f : File) (pos n : Nat) : Block := ⟨f.bytes, pos, min n (f.size - pos)⟩

def write (f : File) (pos : Nat) (b : Block) : File where
  bytes := f.bytes.copy pos b.contents b.start b.size
  size := max f.size (pos + b.size)
  mode := f.mode
  zero_beyond k beyond := by
    rw [Contents.byteAt_copy, if_neg (by omega)]
    exact f.zero_beyond k (by omega)

def ofBytes (bs : List UInt8) (mode : Nat) : File := (empty mode).write 0 (.ofList bs)

theorem length_content (f : File) : f.content.length = f.size := Contents.length_fetch ..

theorem getD_content (f : File) (k : Nat) : f.content.getD k 0 = f.bytes.byteAt k := by
  by_cases within : k < f.size
  · simp [content, Contents.fetch_eq, List.getD_eq_getElem?_getD, within]
  · rw [f.zero_beyond k (by omega), List.getD_eq_getElem?_getD,
      List.getElem?_eq_none (by rw [length_content]; omega), Option.getD_none]

theorem content_write (f : File) (pos : Nat) (b : Block) :
    (f.write pos b).content = overlay f.content pos b.toList := by
  apply List.ext_getElem
  · rw [length_content, length_overlay, length_content, b.length_toList]
    rfl
  · intro k written put
    have same : (f.write pos b).content.getD k 0 =
        (overlay f.content pos b.toList).getD k 0 := by
      rw [getD_overlay, getD_content, getD_content, b.length_toList, b.getD_toList]
      rw [write, Contents.byteAt_copy]
      split
      · rw [if_pos (by omega)]
      · rfl
    simpa [List.getD_eq_getElem?_getD, written, put] using same

theorem content_ofBytes (bs : List UInt8) (mode : Nat) : (ofBytes bs mode).content = bs := by
  rw [ofBytes, content_write, Block.toList_ofList]
  exact overlay_end [] bs

theorem toList_read (f : File) (pos n : Nat) :
    (f.read pos n).toList = (f.content.drop pos).take n := by
  apply List.ext_getElem
  · rw [Block.length_toList, List.length_take, List.length_drop, length_content]
    rfl
  · intro k _ _
    rw [List.getElem_take, List.getElem_drop]
    simp only [Block.toList, content, Contents.getElem_fetch, read, Nat.zero_add]

end File
end Mips
