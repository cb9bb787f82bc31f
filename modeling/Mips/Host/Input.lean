import Mips.Host.Files

namespace Mips

inductive Source
  /-- Given bytes, and the failure behind the last of them, if there is one. -/
  | bytes (rest : Block) (failure : Option StreamError)
  /-- An open file, as it is whenever it is asked. -/
  | file (h : Handle)

namespace Source

def rest (fs : Files) : Source → List UInt8
  | bytes b _ => b.toList
  | file (.file path .read pos) => (fs.content path).drop pos
  | file _ => []

/-- Asks for at most `n` bytes. At the end there are none. -/
def fetch (fs : Files) (s : Source) (n : Nat) : Except StreamError (Block × Source) :=
  match s with
  | bytes b failure =>
    match failure.filter fun _ => b.size = 0 with
    | some e => .error e
    | none => .ok (b.take n, bytes (b.drop n) failure)
  | file h =>
    match fs.read h n with
    | .error e => .error (.refused e)
    | .ok (b, h') => .ok (b, file h')

theorem rest_of_fetch {fs : Files} {s t : Source} {n : Nat} {b : Block}
    (h : s.fetch fs n = .ok (b, t)) :
    b.toList = (s.rest fs).take n ∧ t.rest fs = (s.rest fs).drop b.size := by
  unfold fetch at h
  split at h
  · split at h
    · cases h
    · cases h
      refine ⟨Block.toList_take .., ?_⟩
      simp only [rest, Block.toList_drop, List.drop_eq_drop_iff, Block.length_toList, Block.take]
      omega
  · split at h
    · cases h
    · rename_i r
      cases h
      obtain ⟨path, pos, rfl, cut, rfl⟩ := Files.read_eq_ok r
      simp [rest, cut]

theorem append_rest {fs : Files} {s t : Source} {n : Nat} {b : Block}
    (h : s.fetch fs n = .ok (b, t)) : b.toList ++ t.rest fs = s.rest fs := by
  obtain ⟨taken, left⟩ := rest_of_fetch h
  rw [left, ← b.length_toList, taken, List.length_take, List.take_eq_take_min,
    List.take_append_drop]

theorem rest_of_fetch_nil {fs : Files} {s t : Source} {n : Nat} {b : Block} (positive : 0 < n)
    (empty : b.toList = []) (h : s.fetch fs n = .ok (b, t)) : s.rest fs = [] := by
  have taken := (rest_of_fetch h).1
  rw [empty] at taken
  cases rest : s.rest fs with
  | nil => rfl
  | cons a l => cases n <;> simp [rest] at positive taken

end Source

structure Input where
  held : List UInt8 := []
  source : Source

namespace Input

def stretch : Nat := 8192

def isSpace (b : UInt8) : Bool := b == 32 || b == 9 || b == 10 || b == 12 || b == 13

def unread (fs : Files) (i : Input) : List UInt8 := i.held ++ i.source.rest fs

def fill (fs : Files) (i : Input) : Except StreamError Unit × Input :=
  match i.held with
  | _ :: _ => (.ok (), i)
  | [] =>
    match i.source.fetch fs stretch with
    | .error e => (.error e, i)
    | .ok (b, s) => (.ok (), ⟨b.toList, s⟩)

def next (fs : Files) (i : Input) : Except StreamError (Option UInt8) × Input :=
  match i.fill fs with
  | (.error e, j) => (.error e, j)
  | (.ok _, j) =>
    match j.held with
    | [] => (.ok none, j)
    | b :: bs => (.ok (some b), { j with held := bs })

/-- At most `n` bytes at once: of those held, or else of those that one stretch brings. A block that
is no shorter than a stretch comes straight from the source. -/
def read (fs : Files) (i : Input) (n : Nat) : Except StreamError Block × Input :=
  if i.held = [] ∧ stretch ≤ n then
    match i.source.fetch fs n with
    | .error e => (.error e, i)
    | .ok (b, s) => (.ok b, { i with source := s })
  else
    match i.fill fs with
    | (.error e, j) => (.error e, j)
    | (.ok _, j) => (.ok (.ofList (j.held.take n)), { j with held := j.held.drop n })

theorem unread_fill (fs : Files) (i : Input) : (i.fill fs).2.unread fs = i.unread fs := by
  unfold fill
  split
  · rfl
  · rename_i held
    split
    · rfl
    · rename_i fetched
      simp [unread, held, Source.append_rest fetched]

theorem unread_next {fs : Files} {i j : Input} {b : UInt8}
    (h : i.next fs = (.ok (some b), j)) : i.unread fs = b :: j.unread fs := by
  rw [← unread_fill]
  unfold next at h
  split at h
  · cases h
  · rename_i filled
    rw [filled]
    split at h
    · cases h
    · rename_i held
      cases h
      simp [unread, held]

theorem unread_next_none {fs : Files} {i j : Input}
    (h : i.next fs = (.ok none, j)) : i.unread fs = [] := by
  unfold next fill at h
  cases held : i.held with
  | cons b bs => simp [held] at h
  | nil =>
    cases fetched : i.source.fetch fs stretch with
    | error e => simp [held, fetched] at h
    | ok r =>
      obtain ⟨b, s⟩ := r
      cases bytes : b.toList with
      | cons b bs => simp [held, fetched, bytes] at h
      | nil => simp [unread, held, Source.rest_of_fetch_nil (by decide) bytes fetched]

theorem unread_read {fs : Files} {i j : Input} {n : Nat} {b : Block}
    (h : i.read fs n = (.ok b, j)) : i.unread fs = b.toList ++ j.unread fs := by
  unfold read at h
  split at h
  · rename_i direct
    split at h
    · cases h
    · rename_i fetched
      cases h
      simp [unread, direct.1, Source.append_rest fetched]
  · rw [← unread_fill]
    split at h
    · cases h
    · rename_i filled
      cases h
      simp [unread, filled, Block.toList_ofList, ← List.append_assoc]

/-- A line that begins with the bytes already taken: at most `n` more, none of them after a
newline. -/
def line (fs : Files) (i : Input) (n : Nat) (taken : Array UInt8 := #[]) :
    Except StreamError (List UInt8) × Input :=
  match n with
  | 0 => (.ok taken.toList, i)
  | n + 1 =>
    match i.next fs with
    | (.error e, j) => (.error e, j)
    | (.ok none, j) => (.ok taken.toList, j)
    | (.ok (some b), j) =>
      if b = 10 then (.ok (taken.push b).toList, j) else line fs j n (taken.push b)

/-- A token that begins with the bytes already taken. Whitespace in front of it is passed over; the
next whitespace, which is taken too, or the end of the input ends it. -/
def token (fs : Files) (i : Input) (taken : Array UInt8 := #[]) :
    Except StreamError (List UInt8) × Input :=
  match _h : i.next fs with
  | (.error e, j) => (.error e, j)
  | (.ok none, j) => (.ok taken.toList, j)
  | (.ok (some b), j) =>
    if isSpace b then
      if taken.isEmpty then token fs j else (.ok taken.toList, j)
    else token fs j (taken.push b)
termination_by (i.unread fs).length
decreasing_by all_goals simp [unread_next _h]

end Input
end Mips
