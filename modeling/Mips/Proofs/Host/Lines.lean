import Mips.Host.Input

namespace Mips

theorem Block.size_le_of_toList {b : Block} {l : List UInt8} {n : Nat}
    (cut : b.toList = l.take n) : b.size ≤ n := by
  rw [← b.length_toList, cut]
  exact List.length_take_le n l

theorem Files.size_le_of_read {fs : Files} {h h' : Handle} {n : Nat} {b : Block}
    (taken : fs.read h n = .ok (b, h')) : b.size ≤ n := by
  obtain ⟨_, _, _, cut, _⟩ := Files.read_eq_ok taken
  exact Block.size_le_of_toList cut

namespace Input

variable {fs : Files} {i j : Input}

theorem size_le_of_read {n : Nat} {b : Block} (taken : i.read fs n = (.ok b, j)) : b.size ≤ n := by
  unfold read at taken
  split at taken
  · split at taken
    · cases taken
    · rename_i fetched
      cases taken
      exact Block.size_le_of_toList (Source.rest_of_fetch fetched).1
  · split at taken
    · cases taken
    · cases taken
      exact Block.size_le_of_toList (Block.toList_ofList _)

theorem unread_of_next_none (ended : i.next fs = (.ok none, j)) : j.unread fs = [] := by
  have filled := unread_fill fs i
  rw [unread_next_none ended] at filled
  unfold next at ended
  split at ended
  · cases ended
  · rename_i kept
    rw [kept] at filled
    split at ended
    · cases ended
      exact filled
    · cases ended

/-- The longest beginning of at most `n` bytes that has none behind its first newline. -/
def lineOf : Nat → List UInt8 → List UInt8
  | 0, _ => []
  | _, [] => []
  | n + 1, b :: bs => if b = 10 then [b] else b :: lineOf n bs

theorem lineOf_nil (n : Nat) : lineOf n [] = [] := by
  cases n <;> rfl

theorem length_lineOf_le (n : Nat) (bs : List UInt8) : (lineOf n bs).length ≤ n := by
  induction n generalizing bs with
  | zero => exact Nat.le_refl 0
  | succ n ih =>
    cases bs with
    | nil => exact Nat.zero_le _
    | cons b bs =>
      rw [lineOf]
      split
      · exact Nat.succ_le_succ (Nat.zero_le n)
      · exact Nat.succ_le_succ (ih bs)

theorem line_eq_ok {n : Nat} {taken : Array UInt8} {bs : List UInt8}
    (read : i.line fs n taken = (.ok bs, j)) :
    bs = taken.toList ++ lineOf n (i.unread fs) ∧
      i.unread fs = lineOf n (i.unread fs) ++ j.unread fs := by
  induction n generalizing i taken with
  | zero =>
    cases read
    simp [lineOf]
  | succ n ih =>
    unfold line at read
    split at read
    · cases read
    · rename_i ended
      cases read
      simp [unread_next_none ended, unread_of_next_none ended, lineOf_nil]
    · rename_i b next
      rw [unread_next next, lineOf]
      split at read
      · rename_i newline
        cases read
        simp [newline]
      · rename_i within
        obtain ⟨cut, rest⟩ := ih read
        rw [if_neg within]
        constructor
        · simpa using cut
        · rw [List.cons_append, ← rest]

end Input
end Mips
