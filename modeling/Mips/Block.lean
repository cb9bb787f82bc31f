import Mips.Contents

namespace Mips

structure Block where
  contents : Contents := ∅
  start : Nat := 0
  size : Nat := 0

namespace Block

def toList (b : Block) : List UInt8 := b.contents.fetch b.start b.size

def ofList (bs : List UInt8) : Block := ⟨(∅ : Contents).write 0 bs, 0, bs.length⟩

def take (b : Block) (n : Nat) : Block := { b with size := min n b.size }

def drop (b : Block) (n : Nat) : Block := { b with start := b.start + n, size := b.size - n }

def append (a b : Block) : Block :=
  ⟨a.contents.copy (a.start + a.size) b.contents b.start b.size, a.start, a.size + b.size⟩

theorem length_toList (b : Block) : b.toList.length = b.size := Contents.length_fetch ..

theorem getD_toList (b : Block) (i : Nat) :
    b.toList.getD i 0 = if i < b.size then b.contents.byteAt (b.start + i) else 0 := by
  split
  · rename_i within
    rw [List.getD_eq_getElem?_getD, List.getElem?_eq_getElem (by rwa [length_toList])]
    exact Contents.getElem_fetch ..
  · rw [List.getD_eq_getElem?_getD, List.getElem?_eq_none (by rw [length_toList]; omega)]
    rfl

theorem toList_eq_nil_iff (b : Block) : b.toList = [] ↔ b.size = 0 := by
  rw [← length_toList, List.length_eq_zero_iff]

theorem toList_ofList (bs : List UInt8) : (ofList bs).toList = bs := Contents.fetch_write ..

theorem toList_take (b : Block) (n : Nat) : (b.take n).toList = b.toList.take n := by
  apply List.ext_getElem
  · rw [length_toList, List.length_take, length_toList]
    rfl
  · intro i _ _
    rw [List.getElem_take]
    simp only [toList, Contents.getElem_fetch, take]

theorem toList_drop (b : Block) (n : Nat) : (b.drop n).toList = b.toList.drop n := by
  apply List.ext_getElem
  · rw [length_toList, List.length_drop, length_toList]
    rfl
  · intro i _ _
    rw [List.getElem_drop]
    simp only [toList, Contents.getElem_fetch, drop, Nat.add_assoc]

theorem toList_append (a b : Block) : (a.append b).toList = a.toList ++ b.toList := by
  simp only [toList, append, Contents.fetch_add]
  congr 1
  · apply Contents.fetch_congr
    intro i _
    rw [Contents.byteAt_copy, if_neg (by omega)]
  · apply Contents.fetch_congr
    intro i _
    rw [Contents.byteAt_copy, if_pos (by omega), Nat.add_sub_cancel_left]

end Block
end Mips
