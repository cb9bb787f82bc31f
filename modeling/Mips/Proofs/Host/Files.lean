import Mips.Host
import Mips.Proofs.Outcome

namespace Mips

def Handle.moved : Handle → Nat → Handle
  | directory, _ => directory
  | file path access _, pos => file path access pos

theorem Handle.moved_moved (f : Handle) (pos pos' : Nat) :
    (f.moved pos).moved pos' = f.moved pos' := by
  cases f <;> rfl

theorem Handle.exists_eq_moved (f : Handle) : ∃ pos, f = f.moved pos := by
  cases f with
  | directory => exact ⟨0, rfl⟩
  | file path access pos => exact ⟨pos, rfl⟩

namespace Files

variable {fs fs' : Files} {h h' : Handle} {b : Block}

theorem exists_moved_of_read {n : Nat} (taken : fs.read h n = .ok (b, h')) :
    ∃ pos, h' = h.moved pos := by
  obtain ⟨path, pos, rfl, _, rfl⟩ := read_eq_ok taken
  exact ⟨pos + b.size, rfl⟩

theorem exists_moved_of_write (given : fs.write h b = .ok (fs', h')) : ∃ pos, h' = h.moved pos := by
  unfold write at given
  split at given
  · cases given
    exact h.exists_eq_moved
  · split at given
    · cases given
    · cases given
    · cases given
      exact ⟨_, rfl⟩

variable {place dir : Path} {g : File} {path : List Char} {names : List (List Char)}

/-- The places that names lead through from a directory, one behind the other. -/
def trail (dir : Path) : List (List Char) → List Path
  | [] => []
  | ['.'] :: names => trail dir names
  | ['.', '.'] :: names => trail dir.dropLast names
  | name :: names => (dir ++ [name]) :: trail (dir ++ [name]) names

/-- A path leads to a place, or through it. -/
def Passes (path : List Char) (place : Path) : Prop :=
  place ∈ trail [] (Text.fields (· == '/') path)

instance (path : List Char) (place : Path) : Decidable (Passes path place) :=
  inferInstanceAs (Decidable (place ∈ trail [] (Text.fields (· == '/') path)))

theorem node?_put_self (named : place ≠ []) : (fs.put place g).node? place = some (.file g) := by
  unfold node? put
  simp [named]

theorem node?_put_of_ne {other : Path} (differs : other ≠ place) :
    (fs.put place g).node? other = fs.node? other := by
  unfold node? put
  simp [Std.ExtTreeMap.getElem?_insert, Ne.symm differs]

theorem file?_put_of_ne {other : Path} (differs : other ≠ place) :
    (fs.put place g).file? other = fs.file? other := by
  rw [file?, file?, node?_put_of_ne differs]

theorem content_put_self (named : place ≠ []) : (fs.put place g).content place = g.content := by
  rw [content, file?, node?_put_self named, Option.elim_some]

theorem content_put_of_ne {other : Path} (differs : other ≠ place) :
    (fs.put place g).content other = fs.content other := by
  rw [content, content, file?_put_of_ne differs]

theorem put_self {f : File} (found : fs.node? place = some (.file f)) : fs.put place f = fs := by
  have there : fs.nodes[place]? = some (.file f) := by
    unfold node? at found
    split at found
    · cases found
    · exact found
  unfold put
  congr 1
  apply Std.ExtTreeMap.ext_getElem?
  intro other
  rw [Std.ExtTreeMap.getElem?_insert]
  split
  · rename_i same
    rw [← Std.LawfulEqCmp.eq_of_compare same, there]
  · rfl

theorem put_put (fs : Files) (place : Path) (f g : File) :
    (fs.put place f).put place g = fs.put place g := by
  unfold put
  congr 1
  apply Std.ExtTreeMap.ext_getElem?
  intro other
  simp only [Std.ExtTreeMap.getElem?_insert]
  split <;> rfl

theorem put_comm (fs : Files) {other : Path} (differs : other ≠ place) (f g : File) :
    (fs.put place g).put other f = (fs.put other f).put place g := by
  unfold put
  congr 1
  apply Std.ExtTreeMap.ext_getElem?
  intro third
  simp only [Std.ExtTreeMap.getElem?_insert]
  grind

theorem update_put {other : Path} (differs : other ≠ place) (change : File → File) :
    (fs.put place g).update other change = (fs.update other change).put place g := by
  unfold update
  rw [file?_put_of_ne differs]
  cases fs.file? other with
  | none => rfl
  | some f => exact fs.put_comm differs (change f) g

theorem child_put {name : List Char} (differs : dir ++ [name] ≠ place) :
    (fs.put place g).child dir name = fs.child dir name := by
  rw [child, child, node?_put_of_ne differs]

theorem walk_put {names : List (List Char)} (unpassed : place ∉ trail dir names) :
    (fs.put place g).walk dir names = fs.walk dir names := by
  fun_induction trail dir names with
  | case1 dir => rfl
  | case2 dir names ih => exact ih unpassed
  | case3 dir names ih => exact ih unpassed
  | case4 dir name names plain plain' ih =>
    have differs : dir ++ [name] ≠ place := fun same => unpassed (same ▸ List.mem_cons_self)
    have further : place ∉ trail (dir ++ [name]) names := fun there =>
      unpassed (List.mem_cons_of_mem _ there)
    simp only [walk, child_put differs, ih further]

theorem trail_subset_append (dir : Path) (names more : List (List Char)) :
    trail dir names ⊆ trail dir (names ++ more) := by
  fun_induction trail dir names with
  | case1 dir => exact List.nil_subset _
  | case2 dir names ih => exact ih
  | case3 dir names ih => exact ih
  | case4 dir name names plain plain' ih =>
    simp only [List.cons_append, trail]
    exact List.cons_subset_cons _ ih

theorem trail_append_of_walk {dir' : Path} {names : List (List Char)}
    (walked : fs.walk dir names = .ok dir') (more : List (List Char)) :
    trail dir (names ++ more) = trail dir names ++ trail dir' more := by
  fun_induction trail dir names with
  | case1 dir =>
    cases walked
    rfl
  | case2 dir names ih => exact ih walked
  | case3 dir names ih => exact ih walked
  | case4 dir name names plain plain' ih =>
    simp only [walk] at walked
    split at walked
    · cases walked
    · cases walked
    · cases walked
    · simp only [List.cons_append, trail, ih walked]

theorem node?_of_mem_trail {dir' other : Path} {names : List (List Char)}
    (walked : fs.walk dir names = .ok dir') (there : other ∈ trail dir names) :
    fs.node? other = some .directory := by
  fun_induction trail dir names with
  | case1 dir => cases there
  | case2 dir names ih => exact ih walked there
  | case3 dir names ih => exact ih walked there
  | case4 dir name names plain plain' ih =>
    simp only [walk] at walked
    split at walked
    · cases walked
    · cases walked
    · cases walked
    · rename_i found
      rcases List.mem_cons.mp there with rfl | there
      · unfold child at found
        split at found
        · cases found
        · exact Except.ok.inj found
      · exact ih walked there

theorem target_eq_name {name : List Char} (targeted : fs.target path = .ok (.name dir name)) :
    ∃ names, Text.fields (· == '/') path = names ++ [name] ∧ fs.walk [] names = .ok dir ∧
      trail [] (Text.fields (· == '/') path) = trail [] names ++ [dir ++ [name]] := by
  unfold target at targeted
  split at targeted
  · cases targeted
  · split at targeted
    · cases targeted
    · dsimp only at targeted
      split at targeted
      · cases targeted
      · obtain ⟨_, _, other⟩ := map_eq_ok_iff.mp targeted
        cases other
      · obtain ⟨_, _, other⟩ := map_eq_ok_iff.mp targeted
        cases other
      · rename_i last plain plain' ends
        obtain ⟨dir', walked, same⟩ := map_eq_ok_iff.mp targeted
        cases same
        obtain ⟨names, parts⟩ := List.getLast?_eq_some_iff.mp ends
        rw [parts, List.dropLast_concat] at walked
        refine ⟨names, parts, walked, ?_⟩
        rw [parts, trail_append_of_walk walked]
        simp only [trail]

theorem passes_of_target {name : List Char} (targeted : fs.target path = .ok (.name dir name)) :
    Passes path (dir ++ [name]) := by
  obtain ⟨names, _, _, lead⟩ := target_eq_name targeted
  rw [Passes, lead]
  exact List.mem_append_right _ (List.mem_singleton_self _)

theorem target_put (unpassed : place ∉ trail [] (Text.fields (· == '/') path).dropLast) :
    (fs.put place g).target path = fs.target path := by
  simp only [target, walk_put unpassed]

theorem target_put_of_not_passes (unpassed : ¬Passes path place) :
    (fs.put place g).target path = fs.target path := by
  refine target_put fun there => unpassed ?_
  rcases List.eq_nil_or_concat (Text.fields (· == '/') path) with none | ⟨names, last, parts⟩
  · rw [none] at there
    cases there
  · rw [List.concat_eq_append] at parts
    rw [parts, List.dropLast_concat] at there
    rw [Passes, parts]
    exact trail_subset_append [] names [last] there

theorem ne_of_not_passes (unpassed : ¬Passes path place) {name : List Char}
    (targeted : fs.target path = .ok (.name dir name)) : dir ++ [name] ≠ place :=
  fun same => unpassed (same ▸ passes_of_target targeted)

theorem openRead_put (unpassed : ¬Passes path place) :
    (fs.put place g).openRead path = fs.openRead path := by
  unfold openRead
  rw [target_put_of_not_passes unpassed]
  cases targeted : fs.target path with
  | error e => rfl
  | ok t =>
    cases t with
    | directory => rfl
    | name dir name => simp only [child_put (ne_of_not_passes unpassed targeted)]

theorem openWrite_put (unpassed : ¬Passes path place) (append : Bool) (mode : Nat) :
    (fs.put place g).openWrite path append mode =
      (fs.openWrite path append mode).map fun (h, fs') => (h, fs'.put place g) := by
  unfold openWrite
  rw [target_put_of_not_passes unpassed]
  cases targeted : fs.target path with
  | error e => rfl
  | ok t =>
    cases t with
    | directory => rfl
    | name dir name =>
      have differs := ne_of_not_passes unpassed targeted
      simp only [child_put differs, put_comm _ differs]
      split
      · rfl
      · split
        · rfl
        · rfl
        · rfl
        · split
          · rfl
          · cases append <;> rfl

theorem child_eq_ok {name : List Char} {n : Option Node} (found : fs.child dir name = .ok n) :
    Text.utf8Size name ≤ maxName ∧ n = fs.node? (dir ++ [name]) := by
  unfold child at found
  split at found
  · cases found
  · rename_i short
    exact ⟨Nat.not_lt.mp short, (Except.ok.inj found).symm⟩

theorem openRead_eq_ok (opened : fs.openRead path = .ok h) :
    (h = .directory ∧ ∀ dir name, fs.target path = .ok (.name dir name) →
        fs.node? (dir ++ [name]) = some .directory) ∨
      ∃ dir name f, fs.target path = .ok (.name dir name) ∧
        fs.node? (dir ++ [name]) = some (.file f) ∧ h = .file (dir ++ [name]) .read 0 := by
  unfold openRead at opened
  split at opened
  · cases opened
  · rename_i targeted
    cases opened
    exact .inl ⟨rfl, fun dir name other => nomatch targeted.symm.trans other⟩
  · rename_i dir name targeted
    split at opened
    · cases opened
    · cases opened
    · rename_i found
      cases opened
      refine .inl ⟨rfl, fun dir' name' same => ?_⟩
      cases targeted.symm.trans same
      exact (child_eq_ok found).2.symm
    · rename_i f found
      split at opened
      · cases opened
      · split at opened
        · cases opened
        · cases opened
          exact .inr ⟨dir, name, f, targeted, (child_eq_ok found).2.symm, rfl⟩

structure LeadsTo (fs : Files) (path : List Char) (place : Path) : Prop where
  target : ∃ dir name, fs.target path = .ok (.name dir name) ∧ place = dir ++ [name] ∧
    Text.utf8Size name ≤ maxName
  plain : fs.node? place ≠ some .directory

namespace LeadsTo

theorem ne_nil (leads : fs.LeadsTo path place) : place ≠ [] := by
  obtain ⟨dir, name, _, rfl, _⟩ := leads.target
  exact List.append_ne_nil_of_right_ne_nil _ (List.cons_ne_nil _ _)

theorem passes (leads : fs.LeadsTo path place) : Passes path place := by
  obtain ⟨dir, name, targeted, rfl, _⟩ := leads.target
  exact passes_of_target targeted

theorem target_put (leads : fs.LeadsTo path place) (g : File) :
    (fs.put place g).target path = fs.target path := by
  obtain ⟨dir, name, targeted, rfl, _⟩ := leads.target
  obtain ⟨names, parts, walked, _⟩ := target_eq_name targeted
  refine Files.target_put ?_
  rw [parts, List.dropLast_concat]
  exact fun there => leads.plain (node?_of_mem_trail walked there)

theorem openRead_put (leads : fs.LeadsTo path place) (g : File) :
    (fs.put place g).openRead path =
      if asksDirectory path then .error .notDirectory
      else if g.mode &&& ownerReads = 0 then .error .accessDenied
      else .ok (.file place .read 0) := by
  have same := leads.target_put g
  have named := leads.ne_nil
  obtain ⟨dir, name, targeted, rfl, short⟩ := leads.target
  unfold openRead child
  rw [same, targeted]
  simp only [if_neg (Nat.not_lt.mpr short), node?_put_self named]

end LeadsTo

theorem openWrite_eq_ok {append : Bool} {mode : Nat}
    (opened : fs.openWrite path append mode = .ok (h, fs')) :
    ∃ place f, fs.LeadsTo path place ∧
      h = .file place (if append then .append else .write) 0 ∧ fs' = fs.put place f ∧
      f.content = if append then fs.content place else [] := by
  unfold openWrite at opened
  split at opened
  · cases opened
  · cases opened
  · rename_i dir name targeted
    have named : dir ++ [name] ≠ [] := List.append_ne_nil_of_right_ne_nil _ (List.cons_ne_nil _ _)
    split at opened
    · cases opened
    · dsimp only at opened
      split at opened
      · cases opened
      · rename_i found
        cases opened
        obtain ⟨short, none⟩ := child_eq_ok found
        have empty : fs.content (dir ++ [name]) = [] := by rw [content, file?, ← none]; rfl
        have leads : fs.LeadsTo path (dir ++ [name]) :=
          ⟨⟨dir, name, targeted, rfl, short⟩, fun directory => by cases none.trans directory⟩
        refine ⟨_, _, leads, rfl, rfl, ?_⟩
        rw [empty, ite_self]
        rfl
      · cases opened
      · rename_i f found
        obtain ⟨short, there⟩ := child_eq_ok found
        have leads : fs.LeadsTo path (dir ++ [name]) :=
          ⟨⟨dir, name, targeted, rfl, short⟩, fun directory => by cases there.trans directory⟩
        split at opened
        · cases opened
        · cases append with
          | true =>
            cases opened
            refine ⟨_, f, leads, rfl, (put_self there.symm).symm, ?_⟩
            rw [if_pos rfl, content, file?, ← there]
            rfl
          | false =>
            cases opened
            exact ⟨_, _, leads, rfl, rfl, rfl⟩

/-- Where a path leads that has been opened for writing, a file can be put, and the path leads to
that file from then on. -/
theorem openRead_of_openWrite {mode : Nat} (opened : fs.openWrite path false mode = .ok (h, fs')) :
    ∃ place f, place ≠ [] ∧ h = .file place .write 0 ∧ fs' = fs.put place f ∧
      ∀ g h', (fs.put place g).openRead path = .ok h' → h' = .file place .read 0 := by
  obtain ⟨place, f, leads, rfl, rfl, _⟩ := openWrite_eq_ok opened
  refine ⟨place, f, leads.ne_nil, rfl, rfl, fun g h' read => ?_⟩
  rw [leads.openRead_put] at read
  split at read
  · cases read
  · split at read
    · cases read
    · exact (Except.ok.inj read).symm

end Files
end Mips
