import Mips.Proofs.Program.Listing

/-!
Which texts are listings, and what is read from them. Main statement: `ofListing_outcome`, a text is
read exactly if each of its lines belongs in a listing; its words go to the segments whose markers
stand nearest before them, and otherwise the first line that does not belong is named.
-/
namespace Mips.Program

open Numeral

def bitsValue (t : List Char) : Nat := t.foldl (fun n c => 2 * n + if c = '1' then 1 else 0) 0

def IsDigits (t : List Char) : Prop := t.length = 32 ∧ ∀ c ∈ t, c = '0' ∨ c = '1'

instance (t : List Char) : Decidable (IsDigits t) := inferInstanceAs (Decidable (_ ∧ _))

def IsMarker (t : List Char) : Prop := t = ".data".toList ∨ t = ".text".toList

instance (t : List Char) : Decidable (IsMarker t) := inferInstanceAs (Decidable (_ ∨ _))

/-- Whether a trimmed line belongs in a listing. -/
def Belongs (t : List Char) : Prop := t = [] ∨ IsMarker t ∨ IsDigits t

def wordOn? (l : List Char) : Option Word :=
  if IsDigits (Text.trim l) then some (Word.ofNat (bitsValue (Text.trim l))) else none

/-- The segment of the nearest marker among the lines before, and text if they have none. -/
def segmentBehind (before : List (List Char)) : Segment :=
  if (before.map Text.trim).reverse.find? (fun t => decide (IsMarker t)) = some ".data".toList then
    .data
  else .text

/-- The words of one segment on lines that stand behind others, in order. -/
def wordsBehind (before : List (List Char)) (seg : Segment) (ls : List (List Char)) : List Word :=
  ls.zipIdx.filterMap fun (l, k) =>
    if segmentBehind (before ++ ls.take k) = seg then wordOn? l else none

section Words

variable {c : Char} {n v : Nat} {w : Word} {t : List Char} {seg : Segment}

theorem digit?_two (c : Char) :
    digit? 2 c = if c = '0' then some 0 else if c = '1' then some 1 else none := by
  by_cases zero : c = '0'
  · subst zero
    decide
  by_cases one : c = '1'
  · subst one
    decide
  have other {d : Char} (differs : c ≠ d) : c.toNat ≠ d.toNat := fun same =>
    differs (Char.ext (UInt32.toNat_inj.mp same))
  have zero' : c.toNat ≠ 48 := other zero
  have one' : c.toNat ≠ 49 := other one
  rw [if_neg zero, if_neg one, digit?, Option.filter_eq_none_iff]
  intro d valued
  unfold digitValue? at valued
  grind

theorem extend?_two_eq_some_iff :
    extend? 2 n t = some v ↔
      (∀ c ∈ t, c = '0' ∨ c = '1') ∧
        v = t.foldl (fun n c => 2 * n + if c = '1' then 1 else 0) n := by
  induction t generalizing n with
  | nil => simp [extend?, eq_comm]
  | cons c t ih =>
    rw [extend?, digit?_two, List.forall_mem_cons, List.foldl_cons]
    by_cases zero : c = '0'
    · subst zero
      simp [ih, Nat.mul_comm]
    by_cases one : c = '1'
    · subst one
      simp [ih, Nat.mul_comm]
    · simp [zero, one]

theorem wordOfDigits?_eq_some_iff_value :
    wordOfDigits? t = some w ↔ IsDigits t ∧ w = Word.ofNat (bitsValue t) := by
  unfold wordOfDigits? IsDigits
  split
  · rename_i long
    have read : value? 2 t = extend? 2 0 t := by
      cases t with
      | nil => cases long
      | cons c t => rfl
    rw [read, Option.map_eq_some_iff]
    simp only [extend?_two_eq_some_iff]
    constructor
    · rintro ⟨v, ⟨digits, rfl⟩, rfl⟩
      exact ⟨⟨long, digits⟩, rfl⟩
    · rintro ⟨⟨_, digits⟩, rfl⟩
      exact ⟨_, ⟨digits, rfl⟩, rfl⟩
  · rename_i short
    simp [short]

theorem of_eq_word_iff_value :
    ListingLine.of t = .word w ↔ IsDigits t ∧ w = Word.ofNat (bitsValue t) := by
  rw [of_eq_word_iff, ← wordOfDigits?_eq_some_iff, wordOfDigits?_eq_some_iff_value]

theorem isMarker_iff : IsMarker t ↔ ∃ seg : Segment, t = seg.marker := by
  constructor
  · rintro (rfl | rfl)
    · exact ⟨.data, rfl⟩
    · exact ⟨.text, rfl⟩
  · rintro ⟨seg, rfl⟩
    cases seg
    · exact .inl rfl
    · exact .inr rfl

theorem IsMarker.not_isDigits (marked : IsMarker t) : ¬IsDigits t := by
  rcases marked with rfl | rfl <;> decide

theorem of_eq_other_iff : ListingLine.of t = .other ↔ ¬Belongs t := by
  unfold Belongs
  rw [isMarker_iff]
  cases kind : ListingLine.of t with
  | blank => simp [of_eq_blank_iff.mp kind]
  | marker seg => simp [of_eq_marker_iff.mp kind]
  | word w => simp [(of_eq_word_iff_value.mp kind).1]
  | other =>
    simp only [true_iff, not_or, not_exists]
    refine ⟨fun blank => ?_, fun seg marker => ?_, fun digits => ?_⟩
    · cases kind.symm.trans (of_eq_blank_iff.mpr blank)
    · cases kind.symm.trans (of_eq_marker_iff.mpr marker)
    · cases kind.symm.trans (of_eq_word_iff_value.mpr ⟨digits, rfl⟩)

end Words

section Lines

variable {before ls : List (List Char)} {l : List Char} {seg : Segment} {p : Program}

theorem segmentBehind_concat_marker (marker : Text.trim l = seg.marker) :
    segmentBehind (before ++ [l]) = seg := by
  have found : IsMarker (Text.trim l) := isMarker_iff.mpr ⟨seg, marker⟩
  unfold segmentBehind
  rw [List.map_append, List.reverse_append, List.map_singleton, List.reverse_singleton,
    List.singleton_append, List.find?_cons_of_pos (by simpa using found), marker]
  cases seg <;> rfl

theorem segmentBehind_concat (unmarked : ¬IsMarker (Text.trim l)) :
    segmentBehind (before ++ [l]) = segmentBehind before := by
  unfold segmentBehind
  rw [List.map_append, List.reverse_append, List.map_singleton, List.reverse_singleton,
    List.singleton_append, List.find?_cons_of_neg (by simpa using unmarked)]

theorem wordsBehind_cons :
    wordsBehind before seg (l :: ls) =
      (if segmentBehind before = seg then wordOn? l else none).toList ++
        wordsBehind (before ++ [l]) seg ls := by
  have behind (k : Nat) : before ++ [l] ++ ls.take k = before ++ (l :: ls).take (k + 1) := by
    rw [List.take_succ_cons, List.append_assoc, List.singleton_append]
  simp only [wordsBehind, behind]
  rw [List.zipIdx_cons', List.filterMap_cons, List.filterMap_map, List.take_zero, List.append_nil]
  cases if segmentBehind before = seg then wordOn? l else none <;> rfl

theorem wordsBehind_cons_of_unworded (unworded : ¬IsDigits (Text.trim l)) :
    wordsBehind before seg (l :: ls) = wordsBehind (before ++ [l]) seg ls := by
  rw [wordsBehind_cons, wordOn?, if_neg unworded, ite_self]
  rfl

theorem ofLines_of_belongs (before : List (List Char)) (k : Nat)
    (belong : ∀ l ∈ ls, Belongs (Text.trim l)) :
    ofLines (segmentBehind before) ((ls.zipIdx k).map fun (l, i) => (i + 1, l)) =
      .ok ⟨wordsBehind before .data ls, wordsBehind before .text ls⟩ := by
  induction ls generalizing before k with
  | nil => rfl
  | cons l ls ih =>
    obtain ⟨first, belong⟩ := List.forall_mem_cons.mp belong
    have rest := ih (before ++ [l]) (k + 1) belong
    rw [List.zipIdx_cons, List.map_cons, ofLines]
    rcases first with blank | marked | digits
    · have unmarked : ¬IsMarker (Text.trim l) := by rw [blank]; decide
      have unworded : ¬IsDigits (Text.trim l) := by rw [blank]; decide
      simp only [of_eq_blank_iff.mpr blank]
      rw [wordsBehind_cons_of_unworded unworded, wordsBehind_cons_of_unworded unworded, ← rest,
        segmentBehind_concat unmarked]
    · have unworded := marked.not_isDigits
      obtain ⟨seg, marker⟩ := isMarker_iff.mp marked
      simp only [of_eq_marker_iff.mpr marker]
      rw [wordsBehind_cons_of_unworded unworded, wordsBehind_cons_of_unworded unworded, ← rest,
        segmentBehind_concat_marker marker]
    · have unmarked : ¬IsMarker (Text.trim l) := fun marked => marked.not_isDigits digits
      simp only [of_eq_word_iff_value.mpr ⟨digits, rfl⟩]
      rw [segmentBehind_concat unmarked] at rest
      rw [rest, wordsBehind_cons, wordsBehind_cons, wordOn?, if_pos digits]
      cases segmentBehind before <;> rfl

theorem ofLines_of_not_belongs (seg : Segment) (k : Nat) {pre post : List (List Char)}
    (belong : ∀ l ∈ pre, Belongs (Text.trim l)) (other : ¬Belongs (Text.trim l)) :
    ofLines seg (((pre ++ l :: post).zipIdx k).map fun (l, i) => (i + 1, l)) =
      .error ⟨k + pre.length + 1, Text.trim l⟩ := by
  induction pre generalizing seg k with
  | nil =>
    rw [List.nil_append, List.zipIdx_cons, List.map_cons, ofLines]
    simp only [of_eq_other_iff.mpr other]
    rfl
  | cons l' pre ih =>
    obtain ⟨first, belong⟩ := List.forall_mem_cons.mp belong
    have rest (seg : Segment) := ih seg (k + 1) belong
    have number : k + 1 + pre.length + 1 = k + (l' :: pre).length + 1 := by
      rw [List.length_cons]
      omega
    rw [number] at rest
    rw [List.cons_append, List.zipIdx_cons, List.map_cons, ofLines]
    cases kind : ListingLine.of (Text.trim l') with
    | blank => exact rest seg
    | marker s => exact rest s
    | word w => exact congrArg (Except.map (·.cons seg w)) (rest seg)
    | other => exact absurd first (of_eq_other_iff.mp kind)

theorem belongs_or_exists_first (ls : List (List Char)) :
    (∀ l ∈ ls, Belongs (Text.trim l)) ∨
      ∃ pre l post, ls = pre ++ l :: post ∧ (∀ l' ∈ pre, Belongs (Text.trim l')) ∧
        ¬Belongs (Text.trim l) := by
  induction ls with
  | nil => exact .inl nofun
  | cons l ls ih =>
    by_cases first : Belongs (Text.trim l)
    · rcases ih with all | ⟨pre, l', post, rfl, belong, other⟩
      · exact .inl (List.forall_mem_cons.mpr ⟨first, all⟩)
      · exact .inr ⟨l :: pre, l', post, rfl, List.forall_mem_cons.mpr ⟨first, belong⟩, other⟩
    · exact .inr ⟨[], l, ls, rfl, nofun, first⟩

end Lines

/-- A text is read exactly if each of its lines is blank, a marker or 32 digits between blanks. A
word goes to the segment of the nearest marker before it, and to the text if there is none. What is
refused is the first other line, by its number. -/
theorem ofListing_outcome (s : List Char) :
    (∀ p, ofListing s = .ok p ↔
      (∀ l ∈ Text.lines s, Belongs (Text.trim l)) ∧
        p.data = wordsBehind [] .data (Text.lines s) ∧
          p.text = wordsBehind [] .text (Text.lines s)) ∧
      ∀ e, ofListing s = .error e ↔
        ∃ pre l post, Text.lines s = pre ++ l :: post ∧ (∀ l' ∈ pre, Belongs (Text.trim l')) ∧
          ¬Belongs (Text.trim l) ∧ e = ⟨pre.length + 1, Text.trim l⟩ := by
  have read (belong : ∀ l ∈ Text.lines s, Belongs (Text.trim l)) : ofListing s =
      .ok ⟨wordsBehind [] .data (Text.lines s), wordsBehind [] .text (Text.lines s)⟩ := by
    have unmarked : segmentBehind [] = .text := rfl
    rw [ofListing, ← unmarked]
    exact ofLines_of_belongs _ _ belong
  have refused {pre post : List (List Char)} {l : List Char} (cut : Text.lines s = pre ++ l :: post)
      (belong : ∀ l' ∈ pre, Belongs (Text.trim l')) (other : ¬Belongs (Text.trim l)) :
      ofListing s = .error ⟨pre.length + 1, Text.trim l⟩ := by
    rw [ofListing, Text.numbered, cut, ← Nat.zero_add pre.length]
    exact ofLines_of_not_belongs _ _ belong other
  constructor
  · intro p
    constructor
    · intro ok
      rcases belongs_or_exists_first (Text.lines s) with all | ⟨pre, l, post, cut, belong, other⟩
      · cases (read all).symm.trans ok
        exact ⟨all, rfl, rfl⟩
      · cases (refused cut belong other).symm.trans ok
    · rintro ⟨all, data, text⟩
      obtain ⟨_, _⟩ := p
      cases data
      cases text
      exact read all
  · intro e
    constructor
    · intro error
      rcases belongs_or_exists_first (Text.lines s) with all | ⟨pre, l, post, cut, belong, other⟩
      · cases (read all).symm.trans error
      · cases (refused cut belong other).symm.trans error
        exact ⟨pre, l, post, cut, belong, other, rfl⟩
    · rintro ⟨pre, l, post, cut, belong, other, rfl⟩
      exact refused cut belong other

end Mips.Program
