import Mips.Proofs.Host.Files

/-!
The content of a file that is written through one handle and read through another. Main statements:
`exists_of_grants`, what a file holds that has been opened for writing; `write_of_atEnd`, what is
written goes behind it; and `exists_read`, what is read is cut from it.
-/
namespace Mips

inductive Handle.AtEnd (place : Path) (size : Nat) : Handle → Prop
  | append (pos : Nat) : AtEnd place size (.file place .append pos)
  | write : AtEnd place size (.file place .write size)

namespace Files

variable {fs : Files} {path : List Char} {place : Path} {append : Bool} {mode : Nat} {f : File}
  {h : Handle}

/-- The host lets a path be opened for writing and then for reading, and it leads to a file at this
place. -/
def Grants (fs : Files) (path : List Char) (append : Bool) (mode : Nat) (place : Path) : Prop :=
  ∃ r, fs.openWrite path append mode = .ok r ∧ r.2.openRead path = .ok (.file place .read 0)

instance (fs : Files) (path : List Char) (append : Bool) (mode : Nat) (place : Path) :
    Decidable (fs.Grants path append mode place) :=
  inferInstanceAs (Decidable (∃ _, _ ∧ _))

/-- A file holds nothing once it has been opened for writing, or what it held if it is opened for
appending. It may be opened for reading whatever it comes to hold. -/
theorem exists_of_grants (grants : fs.Grants path append mode place) :
    place ≠ [] ∧ ∃ f h, fs.openWrite path append mode = .ok (h, fs.put place f) ∧
      h.AtEnd place f.size ∧ f.content = (if append then fs.content place else []) ∧
      ∀ g : File, g.mode = f.mode →
        (fs.put place g).openRead path = .ok (.file place .read 0) := by
  obtain ⟨⟨h, fs'⟩, opened, again⟩ := grants
  obtain ⟨other, f, leads, rfl, rfl, held⟩ := openWrite_eq_ok opened
  have named := leads.ne_nil
  rw [leads.openRead_put] at again
  split at again
  · cases again
  · rename_i plain
    split at again
    · cases again
    · rename_i readable
      cases again
      refine ⟨named, f, _, opened, ?_, held, fun g same => ?_⟩
      · cases append with
        | true => exact .append 0
        | false =>
          have empty : f.size = 0 := by rw [← f.length_content, held]; rfl
          rw [empty]
          exact .write
      · rw [leads.openRead_put, same, if_neg plain, if_neg readable]

theorem write_of_atEnd (fs : Files) (named : place ≠ []) (atEnd : h.AtEnd place f.size)
    (b : Block) :
    ∃ g h', (fs.put place f).write h b = .ok (fs.put place g, h') ∧ h'.AtEnd place g.size ∧
      g.content = f.content ++ b.toList ∧ g.mode = f.mode := by
  have there : (fs.put place f).file? place = some f := by
    rw [file?_put _ _ named, if_pos rfl]
  have grown : (f.write f.size b).content = f.content ++ b.toList := by
    rw [File.content_write, ← f.length_content, File.overlay_end]
  have size : (f.write f.size b).size = f.size + b.size := by
    rw [← File.length_content, grown, List.length_append, File.length_content, b.length_toList]
  by_cases none : b.size = 0
  · refine ⟨f, h, if_pos none, atEnd, ?_, rfl⟩
    rw [b.toList_eq_nil_iff.mpr none, List.append_nil]
  · refine ⟨f.write f.size b, ?_⟩
    unfold write
    rw [if_neg none]
    cases atEnd with
    | append pos =>
      refine ⟨.file place .append (f.size + b.size), ?_, .append _, grown, rfl⟩
      simp only [update, there, put_put]
      rfl
    | write =>
      refine ⟨.file place .write (f.size + b.size), ?_, size ▸ .write, grown, rfl⟩
      simp only [update, there, put_put]
      rfl

theorem exists_read (fs : Files) (place : Path) (pos n : Nat) :
    ∃ b, fs.read (.file place .read pos) n = .ok (b, .file place .read (pos + b.size)) ∧
      b.toList = ((fs.content place).drop pos).take n := by
  have taken : fs.read (.file place .read pos) n = .ok (_, .file place .read _) := rfl
  obtain ⟨_, _, same, cut, _⟩ := read_eq_ok taken
  cases same
  exact ⟨_, taken, cut⟩

end Files
end Mips
