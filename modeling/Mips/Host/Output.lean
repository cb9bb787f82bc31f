import Mips.Host.Files

/-!
The output of a program: the bytes written, how many more it takes, and the file they go to if they
go to one. A file is not given each byte at once: bytes wait until a block comes that the buffer has
no room for. Main statement: `written_write`, output grows by a beginning of what is written, and by
all of it if there is no limit.
-/
namespace Mips

structure Outlet where
  handle : Handle
  /-- How many of the bytes written it is still to be given. -/
  waiting : Nat := 0

namespace Outlet

def capacity : Nat := 8192

/-- How many bytes go on waiting when `waiting` bytes do and the last `n` of them are a new block:
none if the block alone fills the buffer, the block if all do not fit, and otherwise all. -/
def kept (waiting n : Nat) : Nat :=
  if capacity ≤ n then 0 else if capacity < waiting then n else waiting

end Outlet

structure Output where
  bytes : Block := {}
  room : Option Nat := none
  flushes : Bool := true
  outlet : Option Outlet := none

namespace Output

def written (o : Output) : List UInt8 := o.bytes.toList

def append (o : Output) (b : Block) : Output :=
  { o with
    bytes := o.bytes.append b
    room := o.room.map (· - b.size)
    outlet := o.outlet.map fun t => { t with waiting := t.waiting + b.size } }

/-- Gives the file of an output the bytes that wait, all but the last `keep w` where `w` wait. -/
def give (fs : Files) (o : Output) (keep : Nat → Nat) : Except StreamError (Files × Output) :=
  match o.outlet with
  | none => .ok (fs, o)
  | some t =>
    let k := keep t.waiting
    if t.waiting ≤ k then .ok (fs, o)
    else
      match fs.write t.handle ((o.bytes.drop (o.bytes.size - t.waiting)).take (t.waiting - k)) with
      | .error e => .error (.refused e)
      | .ok (fs', h) => .ok (fs', { o with outlet := some ⟨h, k⟩ })

def write (fs : Files) (o : Output) (b : Block) : Except StreamError Unit × Files × Output :=
  let taken := b.take (o.room.getD b.size)
  let p := o.append taken
  if taken.size < b.size then (.error .outputFull, fs, p)
  else
    match p.give fs (Outlet.kept · b.size) with
    | .error e => (.error e, fs, p)
    | .ok (fs', q) => (.ok (), fs', q)

def flush (o : Output) : Except StreamError Unit :=
  if o.flushes then .ok () else .error .flushFailed

def drain (fs : Files) (o : Output) : Files :=
  match o.give fs fun _ => 0 with
  | .error _ => fs
  | .ok (fs', _) => fs'

theorem written_append (o : Output) (b : Block) :
    (o.append b).written = o.written ++ b.toList :=
  o.bytes.toList_append b

theorem written_give {fs fs' : Files} {o p : Output} {keep : Nat → Nat}
    (h : o.give fs keep = .ok (fs', p)) : p.written = o.written := by
  unfold give at h
  split at h
  · cases h
    rfl
  · dsimp only at h
    split at h
    · cases h
      rfl
    · split at h
      · cases h
      · cases h
        rfl

theorem written_write (fs : Files) (o : Output) (b : Block) :
    (o.write fs b).2.2.written = o.written ++ b.toList.take (o.room.getD b.size) := by
  rw [← Block.toList_take, ← written_append]
  unfold write
  dsimp only
  split
  · rfl
  · split
    · rfl
    · rename_i given
      exact written_give given

end Output
end Mips
