import Mips.Contents.Page
import Std.Data.ExtTreeMap

/-!
Bytes by offset, zero wherever nothing was stored. They are kept in pages, so a stretch is read or
replaced a page at a time, and one that was never written takes no room. Main statements:
`byteAt_write` and `byteAt_copy`, the bytes that are replaced and no others change; `fetch_eq`, a
stretch is its bytes one by one; and `firstZero?_eq`, the zero that is found is the first.
-/
namespace Mips

/-- Bytes by offset. A page that is not kept is zero. -/
structure Contents where
  pages : Std.ExtTreeMap Nat Page := ∅

namespace Contents

instance : EmptyCollection Contents := ⟨{}⟩

@[inline] def page (c : Contents) (i : Nat) : Page := c.pages.getD i Page.zero

@[inline] def setPage (c : Contents) (i : Nat) (p : Page) : Contents := ⟨c.pages.insert i p⟩

def byteAt (c : Contents) (off : Nat) : UInt8 := (c.page (off / 256)).get off

theorem byteAt_empty (off : Nat) : (∅ : Contents).byteAt off = 0 := by
  have none : (∅ : Contents).page (off / 256) = Page.zero := Std.ExtTreeMap.getD_empty
  rw [byteAt, none, Page.get_zero]

theorem page_setPage (c : Contents) (i j : Nat) (p : Page) :
    (c.setPage i p).page j = if j = i then p else c.page j := by
  simp [page, setPage, Std.ExtTreeMap.getD_insert, @eq_comm _ j i]

theorem byteAt_setPage (c : Contents) (i k : Nat) (p : Page) :
    (c.setPage i p).byteAt k = if k / 256 = i then p.get k else c.byteAt k := by
  rw [byteAt, page_setPage]
  split <;> rfl

/-- The contents with the bytes from an offset on replaced, where `p` is what the page of the offset
has become. -/
def writeFrom (c : Contents) (off : Nat) (p : Page) : List UInt8 → Contents
  | [] => c.setPage (off / 256) p
  | b :: bs =>
    if (off + 1) % 256 = 0 then
      let next := c.page ((off + 1) / 256)
      writeFrom (c.setPage (off / 256) (p.set off b)) (off + 1) next bs
    else writeFrom c (off + 1) (p.set off b) bs

def write (c : Contents) (off : Nat) (bs : List UInt8) : Contents :=
  match bs with
  | [] => c
  | _ :: _ => writeFrom c off (c.page (off / 256)) bs

theorem byteAt_writeFrom (c : Contents) (off k : Nat) (p : Page) (bs : List UInt8) :
    (writeFrom c off p bs).byteAt k =
      if off ≤ k ∧ k < off + bs.length then bs.getD (k - off) 0
      else if k / 256 = off / 256 then p.get k else c.byteAt k := by
  induction bs generalizing c off p with
  | nil =>
    have outside : ¬ (off ≤ k ∧ k < off + ([] : List UInt8).length) := by
      rw [List.length_nil]
      omega
    rw [writeFrom, byteAt_setPage, if_neg outside]
  | cons b bs ih =>
    have tail : off + 1 ≤ k ∧ k < off + 1 + bs.length →
        bs.getD (k - (off + 1)) 0 = (b :: bs).getD (k - off) 0 := fun within => by
      rw [show k - off = k - (off + 1) + 1 by omega, List.getD_cons_succ]
    simp only [List.length_cons]
    by_cases first : k = off
    · subst first
      rw [if_pos (by omega), Nat.sub_self, List.getD_cons_zero, writeFrom]
      split
      · rw [ih, if_neg (by omega), if_neg (by omega), byteAt_setPage, if_pos rfl, Page.get_set,
          if_pos rfl]
      · rw [ih, if_neg (by omega), if_pos (by omega), Page.get_set, if_pos rfl]
    · by_cases within : off + 1 ≤ k ∧ k < off + 1 + bs.length
      · rw [if_pos (by omega), writeFrom, ← tail within]
        split <;> rw [ih, if_pos within]
      · rw [if_neg (by omega), writeFrom]
        split
        · rw [ih, if_neg within, byteAt_setPage, Page.get_set]
          by_cases same : k / 256 = off / 256
          · rw [if_neg (by omega), if_pos same, if_pos same, if_neg (by omega)]
          · rw [if_neg same, if_neg same]
            split
            · rename_i next
              rw [byteAt, next]
            · rfl
        · rw [ih, if_neg within, Page.get_set, show (off + 1) / 256 = off / 256 by omega]
          split
          · rw [if_neg (by omega)]
          · rfl

theorem byteAt_write (c : Contents) (off k : Nat) (bs : List UInt8) :
    (c.write off bs).byteAt k =
      if off ≤ k ∧ k < off + bs.length then bs.getD (k - off) 0 else c.byteAt k := by
  unfold write
  split
  · rw [if_neg (by rw [List.length_nil]; omega)]
  · rw [byteAt_writeFrom]
    split
    · rfl
    · split
      · rename_i same
        rw [byteAt, same]
      · rfl

/-- The contents with `n` bytes from an offset on replaced by those of other contents from `start`
on, in at most `pieces` pieces, none of which leaves its page on either side. -/
def copyPieces (c : Contents) (off : Nat) (src : Contents) (start n : Nat) : Nat → Contents
  | 0 => c
  | pieces + 1 =>
    if n = 0 then c
    else
      let k := Page.reach off start n
      let p := (c.page (off / 256)).splice off (src.page (start / 256)) start n
      copyPieces (c.setPage (off / 256) p) (off + k) src (start + k) (n - k) pieces

def copy (c : Contents) (off : Nat) (src : Contents) (start n : Nat) : Contents :=
  copyPieces c off src start n n

theorem byteAt_copyPieces (c : Contents) (off : Nat) (src : Contents) (start n pieces k : Nat)
    (enough : n ≤ pieces) :
    (copyPieces c off src start n pieces).byteAt k =
      if off ≤ k ∧ k < off + n then src.byteAt (start + (k - off)) else c.byteAt k := by
  induction pieces generalizing c off start n with
  | zero => rw [copyPieces, if_neg (by omega)]
  | succ pieces ih =>
    rw [copyPieces]
    split
    · rw [if_neg (by omega)]
    · have positive : 0 < Page.reach off start n := by
        unfold Page.reach
        omega
      have here : Page.reach off start n ≤ n ∧ Page.reach off start n ≤ 256 - off % 256 ∧
          Page.reach off start n ≤ 256 - start % 256 := by
        unfold Page.reach
        omega
      rw [ih _ _ _ _ (by omega), byteAt_setPage, Page.get_splice]
      by_cases first : off ≤ k ∧ k < off + Page.reach off start n
      · rw [if_neg (by omega), if_pos (by omega), if_pos (by omega), if_pos (by omega), byteAt,
          show (start + (k - off)) / 256 = start / 256 by omega, Page.get, Page.get]
        congr 1
        omega
      · by_cases later : off + Page.reach off start n ≤ k ∧ k < off + n
        · rw [if_pos (by omega), if_pos (by omega)]
          congr 1
          omega
        · rw [if_neg (by omega), if_neg (by omega : ¬ (off ≤ k ∧ k < off + n))]
          split
          · rename_i same
            rw [if_neg (by omega), byteAt, same]
          · rfl

theorem byteAt_copy (c : Contents) (off : Nat) (src : Contents) (start n k : Nat) :
    (c.copy off src start n).byteAt k =
      if off ≤ k ∧ k < off + n then src.byteAt (start + (k - off)) else c.byteAt k :=
  byteAt_copyPieces c off src start n n k (Nat.le_refl n)

def fetchTo (c : Contents) (off : Nat) (p : Page) : Nat → List UInt8 → List UInt8
  | 0, bs => bs
  | n + 1, bs =>
    let p' := if (off + n) % 256 = 0 then c.page ((off + n - 1) / 256) else p
    fetchTo c off p' n (p.get (off + n) :: bs)

def fetch (c : Contents) (off n : Nat) : List UInt8 :=
  fetchTo c off (c.page ((off + n - 1) / 256)) n []

theorem fetchTo_eq (c : Contents) (off n : Nat) (bs : List UInt8) :
    fetchTo c off (c.page ((off + n - 1) / 256)) n bs =
      (List.range' off n).map c.byteAt ++ bs := by
  induction n generalizing bs with
  | zero => rfl
  | succ n ih =>
    have before : (if (off + n) % 256 = 0 then c.page ((off + n - 1) / 256)
        else c.page ((off + (n + 1) - 1) / 256)) = c.page ((off + n - 1) / 256) := by
      split
      · rfl
      · rw [show (off + (n + 1) - 1) / 256 = (off + n - 1) / 256 by omega]
    rw [fetchTo, before, ih, List.range'_concat, List.map_append, List.append_assoc]
    simp [byteAt]

theorem fetch_eq (c : Contents) (off n : Nat) :
    c.fetch off n = (List.range' off n).map c.byteAt := by
  rw [fetch, fetchTo_eq, List.append_nil]

theorem length_fetch (c : Contents) (off n : Nat) : (c.fetch off n).length = n := by
  simp [fetch_eq]

theorem getElem_fetch (c : Contents) (off n i : Nat) (h : i < (c.fetch off n).length) :
    (c.fetch off n)[i] = c.byteAt (off + i) := by
  simp [fetch_eq]

theorem fetch_congr {c d : Contents} {off start n : Nat}
    (same : ∀ i < n, c.byteAt (off + i) = d.byteAt (start + i)) :
    c.fetch off n = d.fetch start n := by
  apply List.ext_getElem
  · rw [length_fetch, length_fetch]
  · intro i h _
    rw [getElem_fetch, getElem_fetch, same i (by rwa [length_fetch] at h)]

theorem fetch_add (c : Contents) (off m n : Nat) :
    c.fetch off (m + n) = c.fetch off m ++ c.fetch (off + m) n := by
  rw [fetch_eq, fetch_eq, fetch_eq, ← List.map_append, List.range'_append_1]

theorem fetch_write (c : Contents) (off : Nat) (bs : List UInt8) :
    (c.write off bs).fetch off bs.length = bs := by
  apply List.ext_getElem
  · rw [length_fetch]
  · intro i h hi
    rw [getElem_fetch, byteAt_write, if_pos (by omega), Nat.add_sub_cancel_left]
    simp [List.getD_eq_getElem?_getD, hi]

/-- The number that the `n` bytes from an offset on spell behind the digits of another, the most
significant byte first, where `p` is the page of the offset. -/
def numberFrom (c : Contents) (off : Nat) (p : Page) : Nat → Nat → Nat
  | 0, v => v
  | n + 1, v =>
    let p' := if (off + 1) % 256 = 0 then c.page ((off + 1) / 256) else p
    numberFrom c (off + 1) p' n (v * 256 + (p.get off).toNat)

def number (c : Contents) (off n : Nat) : Nat := numberFrom c off (c.page (off / 256)) n 0

theorem page_next (c : Contents) (off : Nat) :
    (if (off + 1) % 256 = 0 then c.page ((off + 1) / 256) else c.page (off / 256)) =
      c.page ((off + 1) / 256) := by
  split
  · rfl
  · rw [show off / 256 = (off + 1) / 256 by omega]

theorem number_eq (c : Contents) (off n : Nat) :
    c.number off n = (c.fetch off n).foldl (fun v b => v * 256 + b.toNat) 0 := by
  have from_eq (off n v : Nat) : numberFrom c off (c.page (off / 256)) n v =
      ((List.range' off n).map c.byteAt).foldl (fun v b => v * 256 + b.toNat) v := by
    induction n generalizing off v with
    | zero => rfl
    | succ n ih => rw [numberFrom, page_next, ih]; rfl
  rw [number, from_eq, fetch_eq]

def firstZeroIn? (c : Contents) (off : Nat) (p : Page) : Nat → Option Nat
  | 0 => none
  | n + 1 =>
    if p.get off = 0 then some off
    else
      firstZeroIn? c (off + 1) (if (off + 1) % 256 = 0 then c.page ((off + 1) / 256) else p) n

def firstZero? (c : Contents) (off n : Nat) : Option Nat :=
  firstZeroIn? c off (c.page (off / 256)) n

theorem firstZero?_eq (c : Contents) (off n : Nat) :
    c.firstZero? off n = (List.range' off n).find? (c.byteAt · = 0) := by
  unfold firstZero?
  induction n generalizing off with
  | zero => rfl
  | succ n ih =>
    rw [firstZeroIn?, page_next, ih, List.range'_succ, List.find?_cons]
    by_cases zero : c.byteAt off = 0
    · simp [show (c.page (off / 256)).get off = 0 from zero, zero]
    · simp [show ¬ (c.page (off / 256)).get off = 0 from zero, zero]

end Contents
end Mips
