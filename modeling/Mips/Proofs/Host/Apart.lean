import Mips.Proofs.Host.Agreement
import Mips.Proofs.Host.Files

namespace Mips

variable {place : Path} {fs : Files}

def Handle.Apart (place : Path) : Handle → Prop
  | directory => True
  | file path _ _ => path ≠ place

theorem Handle.Apart.moved {h : Handle} (apart : h.Apart place) (pos : Nat) :
    (h.moved pos).Apart place := by
  cases h with
  | directory => trivial
  | file path access pos' => exact apart

namespace Files

variable {h : Handle}

theorem apart_of_openRead {path : List Char} (unpassed : ¬Passes path place)
    (opened : fs.openRead path = .ok h) : h.Apart place := by
  rcases openRead_eq_ok opened with ⟨rfl, _⟩ | ⟨dir, name, f, targeted, _, rfl⟩
  · trivial
  · exact ne_of_not_passes unpassed targeted

theorem apart_of_openWrite {path : List Char} {append : Bool} {mode : Nat} {fs' : Files}
    (unpassed : ¬Passes path place) (opened : fs.openWrite path append mode = .ok (h, fs')) :
    h.Apart place := by
  obtain ⟨other, _, leads, rfl, _⟩ := openWrite_eq_ok opened
  exact fun same => unpassed (same ▸ leads.passes)

theorem read_put (apart : h.Apart place) (g : File) (n : Nat) :
    (fs.put place g).read h n = fs.read h n := by
  cases h with
  | directory => rfl
  | file path access pos =>
    have differs : path ≠ place := apart
    cases access with
    | read => simp only [read, file?_put_of_ne differs]
    | write => rfl
    | append => rfl

theorem write_put (apart : h.Apart place) (g : File) (b : Block) :
    (fs.put place g).write h b = (fs.write h b).map fun (fs', h') => (fs'.put place g, h') := by
  cases h with
  | directory =>
    unfold write
    split <;> rfl
  | file path access pos =>
    have differs : path ≠ place := apart
    unfold write
    split
    · rfl
    · cases access with
      | read => rfl
      | write | append =>
        simp only [file?_put_of_ne differs, update_put differs]
        rfl

end Files

/-- A source does not take its bytes from the file at a place. -/
def Source.Apart (place : Path) : Source → Prop
  | bytes _ _ => True
  | file h => h.Apart place

theorem Source.fetch_put {s : Source} (apart : s.Apart place) (fs : Files) (g : File) (n : Nat) :
    s.fetch (fs.put place g) n = s.fetch fs n := by
  cases s with
  | bytes b failure => rfl
  | file h => simp only [fetch, Files.read_put (show h.Apart place from apart)]

theorem Source.Apart.fetch {s s' : Source} {n : Nat} {b : Block} (apart : s.Apart place)
    (fetched : s.fetch fs n = .ok (b, s')) : s'.Apart place := by
  unfold Source.fetch at fetched
  split at fetched
  · split at fetched
    · cases fetched
    · cases fetched
      trivial
  · rename_i h
    split at fetched
    · cases fetched
    · rename_i taken
      cases fetched
      obtain ⟨pos, rfl⟩ := Files.exists_moved_of_read taken
      exact Handle.Apart.moved apart pos

namespace Input

variable {i : Input}

theorem fill_put (apart : i.source.Apart place) (fs : Files) (g : File) :
    i.fill (fs.put place g) = i.fill fs ∧ (i.fill fs).2.source.Apart place := by
  unfold fill
  rw [Source.fetch_put apart]
  split
  · exact ⟨rfl, apart⟩
  · split
    · exact ⟨rfl, apart⟩
    · rename_i fetched
      exact ⟨rfl, apart.fetch fetched⟩

theorem next_put (apart : i.source.Apart place) (fs : Files) (g : File) :
    i.next (fs.put place g) = i.next fs ∧ (i.next fs).2.source.Apart place := by
  obtain ⟨same, kept⟩ := fill_put apart fs g
  unfold next
  rw [same]
  cases filled : i.fill fs with
  | mk r j =>
    rw [filled] at kept
    cases r with
    | error e => exact ⟨rfl, kept⟩
    | ok _ =>
      dsimp only
      cases j.held with
      | nil => exact ⟨rfl, kept⟩
      | cons b bs => exact ⟨rfl, kept⟩

theorem read_put (apart : i.source.Apart place) (fs : Files) (g : File) (n : Nat) :
    i.read (fs.put place g) n = i.read fs n ∧ (i.read fs n).2.source.Apart place := by
  obtain ⟨same, kept⟩ := fill_put apart fs g
  unfold read
  rw [Source.fetch_put apart, same]
  split
  · cases fetched : i.source.fetch fs n with
    | error e => exact ⟨rfl, apart⟩
    | ok r => exact ⟨rfl, apart.fetch fetched⟩
  · cases filled : i.fill fs with
    | mk r j =>
      rw [filled] at kept
      cases r with
      | error e => exact ⟨rfl, kept⟩
      | ok _ => exact ⟨rfl, kept⟩

theorem line_put (apart : i.source.Apart place) (fs : Files) (g : File) (n : Nat)
    (taken : Array UInt8) :
    i.line (fs.put place g) n taken = i.line fs n taken ∧
      (i.line fs n taken).2.source.Apart place := by
  induction n generalizing i taken with
  | zero => exact ⟨rfl, apart⟩
  | succ n ih =>
    obtain ⟨same, kept⟩ := next_put apart fs g
    unfold line
    rw [same]
    cases next : i.next fs with
    | mk r j =>
      rw [next] at kept
      rcases r with e | none | b
      · exact ⟨rfl, kept⟩
      · exact ⟨rfl, kept⟩
      · dsimp only
        split
        · exact ⟨rfl, kept⟩
        · exact ih kept _

theorem token_put {i : Input} (apart : i.source.Apart place) (fs : Files) (g : File)
    (taken : Array UInt8) :
    i.token (fs.put place g) taken = i.token fs taken ∧
      (i.token fs taken).2.source.Apart place := by
  obtain ⟨same, kept⟩ := next_put apart fs g
  rw [token_eq, token_eq, same]
  cases next : i.next fs with
  | mk r j =>
    rw [next] at kept
    rcases r with e | none | b
    · exact ⟨rfl, kept⟩
    · exact ⟨rfl, kept⟩
    · dsimp only
      split
      · split
        · exact token_put kept fs g _
        · exact ⟨rfl, kept⟩
      · exact token_put kept fs g _
termination_by (i.unread fs).length
decreasing_by all_goals simp [unread_next next]

end Input

namespace Output

variable {o : Output}

def Apart (place : Path) (o : Output) : Prop := ∀ t ∈ o.outlet, t.handle.Apart place

theorem give_put (apart : o.Apart place) (fs : Files) (g : File) (keep : Nat → Nat) :
    o.give (fs.put place g) keep = (o.give fs keep).map fun (fs', p) => (fs'.put place g, p) := by
  unfold give
  split
  · rfl
  · rename_i t goes
    dsimp only
    split
    · rfl
    · rw [Files.write_put (apart t goes)]
      cases fs.write t.handle _ <;> rfl

theorem Apart.give {fs' : Files} {p : Output} {keep : Nat → Nat} (apart : o.Apart place)
    (given : o.give fs keep = .ok (fs', p)) : p.Apart place := by
  unfold Output.give at given
  split at given
  · cases given
    exact apart
  · rename_i t goes
    dsimp only at given
    split at given
    · cases given
      exact apart
    · split at given
      · cases given
      · rename_i wrote
        cases given
        obtain ⟨pos, rfl⟩ := Files.exists_moved_of_write wrote
        rintro _ ⟨⟩
        exact (apart t goes).moved pos

theorem Apart.append (apart : o.Apart place) (b : Block) : (o.append b).Apart place := by
  intro t goes
  obtain ⟨t', goes', rfl⟩ := Option.map_eq_some_iff.mp goes
  exact apart t' goes'

theorem write_put (apart : o.Apart place) (fs : Files) (g : File) (b : Block) :
    o.write (fs.put place g) b =
        ((o.write fs b).1, (o.write fs b).2.1.put place g, (o.write fs b).2.2) ∧
      (o.write fs b).2.2.Apart place := by
  have grown := apart.append (b.take (o.room.getD b.size))
  unfold write
  dsimp only
  rw [give_put grown]
  split
  · exact ⟨rfl, grown⟩
  · cases given : (o.append (b.take (o.room.getD b.size))).give fs (Outlet.kept · b.size) with
    | error e => exact ⟨rfl, grown⟩
    | ok r => exact ⟨rfl, grown.give given⟩

theorem drain_put (apart : o.Apart place) (fs : Files) (g : File) :
    o.drain (fs.put place g) = (o.drain fs).put place g := by
  unfold drain
  rw [give_put apart]
  cases o.give fs fun _ => 0 <;> rfl

end Output

namespace Host

def put (h : Host) (place : Path) (g : File) : Host := { h with files := h.files.put place g }

structure Apart (place : Path) (h : Host) : Prop where
  input : h.input.source.Apart place
  output : h.output.Apart place
  handles : ∀ fd f, h.handle? fd = some f → f.Apart place

end Host
end Mips
