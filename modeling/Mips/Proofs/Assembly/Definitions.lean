import Mathlib.Data.List.Induction
import Mips.Proofs.Assembly.Labels

/-!
When the labels of a text can be defined. The labels of all lines are one list, in which they are
defined one after the other. Main statement: `ofLines_outcome`, they can be defined exactly if none
is repeated, each then has the address of its line, and otherwise the first that repeats another is
named with its line.
-/
namespace Mips.Assembly

def labelsOf (ls : List Line) : List (Nat × List Char) :=
  ls.flatMap fun l => (leadingLabels l.text).1.map (l.number, ·)

/-- A label that is to be defined. -/
structure Definition where
  line : Nat
  name : List Char
  addr : Word

def definitions (addr : Word) : List Line → List Definition
  | [] => []
  | l :: ls => (leadingLabels l.text).1.map (⟨l.number, ·, addr⟩) ++ definitions (addr.add 4) ls

theorem map_definitions (addr : Word) (ls : List Line) :
    (definitions addr ls).map (fun d => (d.line, d.name)) = labelsOf ls := by
  induction ls generalizing addr with
  | nil => rfl
  | cons l ls ih =>
    rw [definitions, List.map_append, List.map_map, ih, labelsOf, labelsOf, List.flatMap_cons]
    rfl

theorem slot_inj {start : Word} {i k : Nat} (hi : i < 0x40000000) (hk : k < 0x40000000)
    (same : Word.slot start i = Word.slot start k) : i = k := by
  have numbers := congrArg BitVec.toNat same
  rw [Word.toNat_slot, Word.toNat_slot] at numbers
  omega

namespace Symbols

variable {t t' : Symbols} {ds before after : List Definition} {d : Definition} {name : List Char}

def defineEach (t : Symbols) : List Definition → Except Error Symbols
  | [] => .ok t
  | d :: ds =>
    match t.address? d.name with
    | some _ => .error ⟨d.line, .duplicateLabel d.name⟩
    | none => defineEach ⟨t.entries.insert d.name d.addr⟩ ds

theorem defineEach_append (t : Symbols) (ds es : List Definition) :
    t.defineEach (ds ++ es) = t.defineEach ds >>= (·.defineEach es) := by
  induction ds generalizing t with
  | nil => rfl
  | cons d ds ih =>
    rw [List.cons_append, defineEach, defineEach]
    cases t.address? d.name with
    | none => exact ih _
    | some a => rfl

theorem define_eq (t : Symbols) (line : Nat) (addr : Word) (names : List (List Char)) :
    t.define line addr names = t.defineEach (names.map (⟨line, ·, addr⟩)) := by
  induction names generalizing t with
  | nil => rfl
  | cons name names ih =>
    rw [List.map_cons, define, defineEach]
    cases t.address? name with
    | none => exact ih _
    | some a => rfl

theorem addLines_eq (t : Symbols) (addr : Word) (ls : List Line) :
    t.addLines addr ls = t.defineEach (definitions addr ls) := by
  induction ls generalizing t addr with
  | nil => rfl
  | cons l ls ih =>
    rw [addLines, definitions, defineEach_append, ← define_eq]
    cases t.define l.number addr (leadingLabels l.text).1 with
    | error e => rfl
    | ok t' => exact ih t' (addr.add 4)

theorem size_insert (new : t.address? name = none) (addr : Word) :
    (⟨t.entries.insert name addr⟩ : Symbols).size = t.size + 1 := by
  have absent : name ∉ t.entries := by simpa [address?] using new
  simp [size, Std.ExtTreeMap.size_insert, absent]

theorem exists_defineEach (new : ∀ d ∈ ds, t.address? d.name = none)
    (apart : (ds.map (·.name)).Nodup) :
    ∃ t', t.defineEach ds = .ok t' ∧ t'.size = t.size + ds.length ∧
      ∀ name, t'.address? name = none ↔ t.address? name = none ∧ name ∉ ds.map (·.name) := by
  induction ds generalizing t with
  | nil => exact ⟨t, rfl, rfl, by simp⟩
  | cons d ds ih =>
    obtain ⟨first, new⟩ := List.forall_mem_cons.mp new
    rw [List.map_cons, List.nodup_cons] at apart
    obtain ⟨single, apart⟩ := apart
    have later : ∀ d' ∈ ds,
        (⟨t.entries.insert d.name d.addr⟩ : Symbols).address? d'.name = none := by
      intro d' there
      have differs : d'.name ≠ d.name := fun same =>
        single (same ▸ List.mem_map_of_mem there)
      rw [address?_insert, if_neg differs, new d' there]
    obtain ⟨t', defined, size, known⟩ := ih later apart
    refine ⟨t', ?_, ?_, fun name => ?_⟩
    · simpa only [defineEach, first] using defined
    · rw [size, size_insert first, List.length_cons]
      omega
    · rw [known, address?_insert]
      by_cases same : name = d.name
      · simp [same]
      · simp [same]

theorem defineEach_of_repeated (new : ∀ d ∈ before, t.address? d.name = none)
    (apart : (before.map (·.name)).Nodup) (repeated : d.name ∈ before.map (·.name)) :
    t.defineEach (before ++ d :: after) = .error ⟨d.line, .duplicateLabel d.name⟩ := by
  obtain ⟨t', defined, _, known⟩ := exists_defineEach new apart
  have taken : t'.address? d.name ≠ none := fun unknown => ((known _).mp unknown).2 repeated
  obtain ⟨a, taken⟩ := Option.ne_none_iff_exists'.mp taken
  rw [defineEach_append, defined]
  show t'.defineEach (d :: after) = _
  simp only [defineEach, taken]

variable {ls : List Line} {start : Word}

theorem ofLines_eq (ls : List Line) (start : Word) :
    ofLines ls start = ({} : Symbols).defineEach (definitions start ls) :=
  addLines_eq {} start ls

theorem names_definitions (addr : Word) (ls : List Line) :
    (definitions addr ls).map (·.name) = (labelsOf ls).map (·.2) := by
  rw [← map_definitions addr ls, List.map_map]
  rfl

theorem exists_ofLines (apart : ((labelsOf ls).map (·.2)).Nodup) (start : Word) :
    ∃ t, ofLines ls start = .ok t ∧ t.size = (labelsOf ls).length := by
  rw [← names_definitions start] at apart
  obtain ⟨t, defined, size, _⟩ := exists_defineEach (t := {}) (fun d _ => by simp [address?]) apart
  have count : (definitions start ls).length = (labelsOf ls).length := by
    rw [← map_definitions start ls, List.length_map]
  refine ⟨t, (ofLines_eq ls start).trans defined, ?_⟩
  rw [size, count]
  exact Nat.zero_add _

theorem ofLines_of_repeated {before after : List (Nat × List Char)} {n : Nat} {name : List Char}
    (labels : labelsOf ls = before ++ (n, name) :: after) (apart : (before.map (·.2)).Nodup)
    (repeated : name ∈ before.map (·.2)) (start : Word) :
    ofLines ls start = .error ⟨n, .duplicateLabel name⟩ := by
  rw [← map_definitions start] at labels
  obtain ⟨ds, rest, cut, rfl, behind⟩ := List.map_eq_append_iff.mp labels
  obtain ⟨d, es, rfl, same, _⟩ := List.map_eq_cons_iff.mp behind
  cases same
  rw [List.map_map] at apart repeated
  rw [ofLines_eq, cut]
  exact defineEach_of_repeated (fun d _ => by simp [address?]) apart repeated

end Symbols

theorem nodup_or_exists_repeated {α β : Type} (key : α → β) (xs : List α) :
    (xs.map key).Nodup ∨ ∃ before x after, xs = before ++ x :: after ∧ (before.map key).Nodup ∧
      key x ∈ before.map key := by
  induction xs using List.reverseRecOn with
  | nil => exact .inl List.nodup_nil
  | append_singleton xs x ih =>
    rcases ih with apart | ⟨before, y, after, rfl, apart, repeated⟩
    · by_cases again : key x ∈ xs.map key
      · exact .inr ⟨xs, x, [], rfl, apart, again⟩
      · refine .inl ?_
        rw [List.map_append, List.map_singleton]
        exact List.nodup_append.mpr ⟨apart, List.pairwise_singleton _ _, fun a there b same => by
          rintro rfl
          exact again (List.mem_singleton.mp same ▸ there)⟩
    · exact .inr ⟨before, y, after ++ [x], by simp, apart, repeated⟩

namespace Symbols

/-- The labels of a text can be defined exactly if none is repeated on its lines, be it on one line.
Each then has the address of its line, and no other name has one. Otherwise the first that repeats
an earlier one is refused, on its line. -/
theorem ofLines_outcome (ls : List Line) (start : Word) (few : ls.length < 0x40000000) :
    ((∃ t, ofLines ls start = .ok t) ↔ ((labelsOf ls).map (·.2)).Nodup) ∧
      (∀ t, ofLines ls start = .ok t →
        (∀ name i l, ls[i]? = some l →
          (t.address? name = some (start + BitVec.ofNat 32 (4 * i)) ↔
            name ∈ (leadingLabels l.text).1)) ∧
        (∀ name, (∀ l ∈ ls, name ∉ (leadingLabels l.text).1) → t.address? name = none) ∧
        t.size = (labelsOf ls).length) ∧
      ∀ e, ofLines ls start = .error e ↔
        ∃ before n name after, labelsOf ls = before ++ (n, name) :: after ∧
          (before.map (·.2)).Nodup ∧ name ∈ before.map (·.2) ∧ e = ⟨n, .duplicateLabel name⟩ := by
  have apart {t : Symbols} (ok : ofLines ls start = .ok t) :
      ((labelsOf ls).map (·.2)).Nodup := by
    rcases nodup_or_exists_repeated (·.2) (labelsOf ls) with
      apart | ⟨before, _, after, labels, single, repeated⟩
    · exact apart
    · cases (ofLines_of_repeated labels single repeated start).symm.trans ok
  refine ⟨⟨fun ⟨t, ok⟩ => apart ok, fun apart => ?_⟩, fun t ok => ⟨?_, ?_, ?_⟩, fun e => ⟨?_, ?_⟩⟩
  · obtain ⟨t, ok, _⟩ := exists_ofLines apart start
    exact ⟨t, ok⟩
  · intro name i l line
    constructor
    · intro known
      obtain ⟨k, l', line', labelled, same⟩ := exists_slot_of_ofLines ok known
      have within {k : Nat} {l : Line} (line : ls[k]? = some l) : k < 0x40000000 :=
        Nat.lt_trans (List.getElem?_eq_some_iff.mp line).1 few
      obtain rfl := slot_inj (within line) (within line') same
      obtain rfl := Option.some.inj (line.symm.trans line')
      exact labelled
    · exact address?_of_ofLines ok line
  · intro name unlabelled
    cases known : t.address? name with
    | none => rfl
    | some a =>
      obtain ⟨k, l, line, labelled, _⟩ := exists_slot_of_ofLines ok known
      exact absurd labelled (unlabelled l (List.mem_of_getElem? line))
  · obtain ⟨t', ok', size⟩ := exists_ofLines (apart ok) start
    cases ok.symm.trans ok'
    exact size
  · intro error
    rcases nodup_or_exists_repeated (·.2) (labelsOf ls) with
      apart | ⟨before, ⟨n, name⟩, after, labels, single, repeated⟩
    · obtain ⟨t, ok, _⟩ := exists_ofLines apart start
      cases ok.symm.trans error
    · cases (ofLines_of_repeated labels single repeated start).symm.trans error
      exact ⟨before, n, name, after, labels, single, repeated, rfl⟩
  · rintro ⟨before, n, name, after, labels, single, repeated, rfl⟩
    exact ofLines_of_repeated labels single repeated start

theorem ofLines_outcome_repeated :
    (∃ t, ofLines [⟨1, "a: b: nop".toList⟩, ⟨2, "c : d,: nop".toList⟩] 0xFFFFFFFC = .ok t ∧
      t.address? ['b'] = some 0xFFFFFFFC ∧ t.address? ['c'] = some 0 ∧
        t.address? ['d'] = none ∧ t.size = 3) ∧
      ofLines [⟨1, "a: nop".toList⟩, ⟨4, "b: a: nop".toList⟩] 0xFFFFFFFC =
        .error ⟨4, .duplicateLabel ['a']⟩ := by
  constructor
  · obtain ⟨succeeds, told, _⟩ := ofLines_outcome
      [⟨1, "a: b: nop".toList⟩, ⟨2, "c : d,: nop".toList⟩] 0xFFFFFFFC (by decide)
    obtain ⟨t, built⟩ := succeeds.mpr (by decide +kernel)
    obtain ⟨addresses, others, size⟩ := told t built
    exact ⟨t, built, (addresses _ 0 _ rfl).mpr (by decide +kernel),
      (addresses _ 1 _ rfl).mpr (by decide +kernel), others _ (by decide +kernel),
      size.trans (by decide +kernel)⟩
  · obtain ⟨_, _, fails⟩ := ofLines_outcome
      [⟨1, "a: nop".toList⟩, ⟨4, "b: a: nop".toList⟩] 0xFFFFFFFC (by decide)
    exact (fails _).mpr ⟨[(1, ['a']), (4, ['b'])], 4, ['a'], [], by decide +kernel, by decide,
      by decide, rfl⟩

end Symbols
end Mips.Assembly
