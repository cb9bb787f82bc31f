import Mips.Contents

namespace Mips

theorem Page.ext_get {p q : Page} (same : ∀ k < 256, p.get k = q.get k) : p = q := by
  have hp : p.bytes.data.size = 256 := p.size_bytes
  have hq : q.bytes.data.size = 256 := q.size_bytes
  have bytes : p.bytes = q.bytes := by
    apply ByteArray.ext
    apply Array.ext
    · rw [hp, hq]
    · intro k within _
      have byte := same k (hp ▸ within)
      simp only [get, ByteArray.getElem_eq_getElem_data, Nat.mod_eq_of_lt (hp ▸ within)] at byte
      exact byte
  cases p
  cases q
  cases bytes
  rfl

namespace Contents

variable {c d : Contents} {off : Nat}

theorem ext_byteAt (kept : ∀ i, i ∈ c.pages ↔ i ∈ d.pages)
    (bytes : ∀ k, c.byteAt k = d.byteAt k) : c = d := by
  have page (i : Nat) : c.page i = d.page i := by
    apply Page.ext_get
    intro k within
    have byte := bytes (256 * i + k)
    have number : (256 * i + k) / 256 = i := by omega
    have place : (256 * i + k) % 256 = k % 256 := by omega
    simpa only [byteAt, number, Page.get, place] using byte
  have pages : c.pages = d.pages := by
    apply Std.ExtTreeMap.ext_getElem?
    intro i
    by_cases there : i ∈ c.pages
    · have there' := (kept i).mp there
      have found := page i
      simp only [Contents.page, Std.ExtTreeMap.getD_eq_getD_getElem?,
        Std.ExtTreeMap.getElem?_eq_some_getElem there,
        Std.ExtTreeMap.getElem?_eq_some_getElem there', Option.getD_some] at found
      rw [Std.ExtTreeMap.getElem?_eq_some_getElem there,
        Std.ExtTreeMap.getElem?_eq_some_getElem there', found]
    · have there' := mt (kept i).mpr there
      rw [Std.ExtTreeMap.getElem?_eq_none there, Std.ExtTreeMap.getElem?_eq_none there']
  cases c
  cases d
  cases pages
  rfl

theorem mem_copyPieces {src : Contents} {start n pieces i : Nat} (enough : n ≤ pieces) :
    i ∈ (copyPieces c off src start n pieces).pages ↔
      i ∈ c.pages ∨ 0 < n ∧ off / 256 ≤ i ∧ 256 * i < off + n := by
  induction pieces generalizing c off start n with
  | zero =>
    have none : n = 0 := Nat.le_zero.mp enough
    simp [copyPieces, none]
  | succ pieces ih =>
    rw [copyPieces]
    split
    · rename_i none
      simp [none]
    · have reach : 0 < Page.reach off start n ∧ Page.reach off start n ≤ n ∧
          Page.reach off start n ≤ 256 - off % 256 := by
        unfold Page.reach
        omega
      rw [ih (by omega), setPage, Std.ExtTreeMap.mem_insert, Nat.compare_eq_eq]
      constructor
      · rintro ((rfl | there) | ⟨more, above, below⟩)
        · exact .inr (by omega)
        · exact .inl there
        · exact .inr (by omega)
      · rintro (there | ⟨_, above, below⟩)
        · exact .inl (.inr there)
        · by_cases first : off / 256 = i
          · exact .inl (.inl first)
          · exact .inr (by omega)

theorem copy_congr {src src' : Contents} {start start' n : Nat}
    (same : ∀ i < n, src.byteAt (start + i) = src'.byteAt (start' + i)) :
    c.copy off src start n = c.copy off src' start' n := by
  apply ext_byteAt
  -- Which pages are kept depends on the length of a copy alone.
  · intro i
    rw [copy, copy, mem_copyPieces (Nat.le_refl n), mem_copyPieces (Nat.le_refl n)]
  · intro k
    rw [byteAt_copy, byteAt_copy]
    split
    · exact same _ (by omega)
    · rfl

end Contents
end Mips
