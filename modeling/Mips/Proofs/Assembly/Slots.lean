import Mips.Proofs.Assembly.Peeling
import Mips.Proofs.Machine.Jumps

namespace Mips.Assembly

def Role.marker? : Role → Option Segment
  | .marker seg => some seg
  | _ => none

def Role.statement? : Role → Option (List Char)
  | .statement text => some text
  | _ => none

/-- The segment that line `k` belongs to: that of the last marker before it, `start` if there is
none. -/
def segmentAt (start : Segment) (ls : List (List Char)) (k : Nat) : Segment :=
  ((ls.take k).filterMap fun l => (Role.of l).marker?).getLast?.getD start

def statementAt? (start seg : Segment) (ls : List (List Char)) (k : Nat) : Option (List Char) :=
  if segmentAt start ls k = seg then ls[k]?.bind fun l => (Role.of l).statement? else none

def textStatement? (ls : List (List Char)) (k : Nat) : Option (List Char) :=
  statementAt? .text .text ls k

def instruction? (ls : List (List Char)) (k : Nat) : Option (List Char) :=
  (textStatement? ls k).filter (¬LabelOnly ·)

def textLinesBefore (ls : List (List Char)) (k : Nat) : List Line :=
  (List.range k).filterMap fun j => (textStatement? ls j).map (⟨j + 1, ·⟩)

def instructionsBefore (ls : List (List Char)) (k : Nat) : Nat :=
  (List.range k).countP fun j => (instruction? ls j).isSome

/-- Words and labels of lines. An instruction lies as many words behind the base as instructions
stand before its line, and so does a label, for which an instruction must follow. -/
structure Slots (ls : List (List Char)) (symbols : Symbols) (words : List Word) : Prop where
  length : words.length = instructionsBefore ls ls.length
  word : ∀ k t, instruction? ls k = some t → ∃ w, words[instructionsBefore ls k]? = some w ∧
    lineWord ⟨k + 1, spaced t⟩ (Word.slot textBase (instructionsBefore ls k)) symbols = .ok w
  label : ∀ k t, textStatement? ls k = some t → ∀ name ∈ (leadingLabels t).1,
    symbols.address? name = some (Word.slot textBase (instructionsBefore ls k))
  next : ∀ k t, textStatement? ls k = some t → ∃ j t', k ≤ j ∧ instruction? ls j = some t' ∧
    instructionsBefore ls j = instructionsBefore ls k

section Statements

variable {start seg : Segment} {l : List Char} {ls : List (List Char)}

theorem segmentAt_cons (k : Nat) : segmentAt start (l :: ls) (k + 1) =
    segmentAt ((Role.of l).marker?.getD start) ls k := by
  unfold segmentAt
  rw [List.take_succ_cons, List.filterMap_cons]
  cases (Role.of l).marker? with
  | none => rfl
  | some s => rw [List.getLast?_cons]; rfl

theorem statementAt?_cons (k : Nat) : statementAt? start seg (l :: ls) (k + 1) =
    statementAt? ((Role.of l).marker?.getD start) seg ls k := by
  simp only [statementAt?, segmentAt_cons, List.getElem?_cons_succ]

theorem linesOf_statements (start seg : Segment) (ls : List (List Char)) (n : Nat) :
    linesOf seg (statements start ((ls.zipIdx n).map fun (x, i) => (i + 1, x))) =
      (List.range ls.length).filterMap fun k =>
        (statementAt? start seg ls k).map (⟨n + k + 1, ·⟩) := by
  induction ls generalizing start n with
  | nil => rfl
  | cons l ls ih =>
    have later (start : Segment) := ih start (n + 1)
    have shift (k : Nat) : n + (k + 1) + 1 = n + 1 + k + 1 := by omega
    have first : statementAt? start seg (l :: ls) 0 =
        if start = seg then (Role.of l).statement? else none := rfl
    simp only [List.length_cons, List.range_succ_eq_map, List.filterMap_cons, List.filterMap_map,
      Function.comp_def, Nat.succ_eq_add_one, statementAt?_cons, shift, first]
    cases role : Role.of l with
    | ignored => simpa [statements, role, Role.marker?, Role.statement?] using later start
    | marker s => simpa [statements, role, Role.marker?, Role.statement?] using later s
    | statement t =>
      by_cases same : start = seg
      · simpa [statements, role, Role.marker?, Role.statement?, linesOf, same] using later start
      · simpa [statements, role, Role.marker?, Role.statement?, linesOf, same] using later start

end Statements

section Attached

variable {held ls pre out : List Line} {l : Line}

theorem attachLabels_of_labelOnly (only : LabelOnly l.text) :
    attachLabels held (l :: ls) = attachLabels (l :: held) ls := by
  rw [attachLabels]
  exact if_pos only

theorem attachLabels_of_not_labelOnly (more : ¬LabelOnly l.text) :
    attachLabels held (l :: ls) =
      (attachLabels [] ls).map (⟨l.number, spaced (behind held l.text)⟩ :: ·) := by
  rw [attachLabels]
  exact if_neg more

/-- What lines in front come to: one line for each that holds more than labels, and the labels
that are carried on. -/
theorem exists_attachLabels_append (only : ∀ l ∈ held, LabelOnly l.text)
    (attached : attachLabels held (pre ++ ls) = .ok out) :
    ∃ held' done rest, (∀ l ∈ held', LabelOnly l.text) ∧ attachLabels held' ls = .ok rest ∧
      out = done ++ rest ∧ done.length = pre.countP (¬LabelOnly ·.text) := by
  -- Lines of labels only lengthen what is held, and what is held adds no line of its own.
  induction pre generalizing held out with
  | nil => exact ⟨held, [], out, only, attached, rfl, rfl⟩
  | cons l pre ih =>
    by_cases labels : LabelOnly l.text
    · rw [List.cons_append, attachLabels_of_labelOnly labels] at attached
      obtain ⟨held', done, rest, only', later, parts, count⟩ :=
        ih (List.forall_mem_cons.mpr ⟨labels, only⟩) attached
      exact ⟨held', done, rest, only', later, parts, by simp [count, labels]⟩
    · rw [List.cons_append, attachLabels_of_not_labelOnly labels] at attached
      obtain ⟨out', after, rfl⟩ := map_eq_ok_iff.mp attached
      obtain ⟨held', done, rest, only', later, rfl, count⟩ := ih (List.forall_mem_nil _) after
      exact ⟨held', _ :: done, rest, only', later, rfl, by simp [count, labels]⟩

theorem length_of_attachLabels (attached : attachLabels [] ls = .ok out) :
    out.length = ls.countP (¬LabelOnly ·.text) := by
  rw [← List.append_nil ls] at attached
  obtain ⟨held, done, rest, _, last, rfl, count⟩ :=
    exists_attachLabels_append (List.forall_mem_nil _) attached
  cases held with
  | nil =>
    obtain rfl := Except.ok.inj last
    rw [List.append_nil, count]
  | cons l held => cases last

theorem exists_head?_of_held (only : ∀ l ∈ held, LabelOnly l.text) (waiting : held ≠ [])
    (attached : attachLabels held ls = .ok out) :
    ∃ o, out.head? = some o ∧ ∀ name ∈ carried held, name ∈ (leadingLabels o.text).1 := by
  induction ls generalizing held with
  | nil =>
    cases held with
    | nil => exact absurd rfl waiting
    | cons l held => cases attached
  | cons l ls ih =>
    by_cases labels : LabelOnly l.text
    · rw [attachLabels_of_labelOnly labels] at attached
      have only : ∀ x ∈ l :: held, LabelOnly x.text := List.forall_mem_cons.mpr ⟨labels, only⟩
      obtain ⟨o, first, found⟩ := ih only (List.cons_ne_nil _ _) attached
      refine ⟨o, first, fun name waits => found name ?_⟩
      simp [carried_cons, waits]
    · rw [attachLabels_of_not_labelOnly labels] at attached
      obtain ⟨out', _, rfl⟩ := map_eq_ok_iff.mp attached
      refine ⟨_, rfl, fun name waits => ?_⟩
      simp [leadingLabels_spaced_behind only, waits]

theorem exists_attached_line (attached : attachLabels [] (pre ++ l :: ls) = .ok out) :
    ∃ o, out[pre.countP (¬LabelOnly ·.text)]? = some o ∧
      (∀ name ∈ (leadingLabels l.text).1, name ∈ (leadingLabels o.text).1) ∧
        (¬LabelOnly l.text → o.number = l.number ∧
          (leadingLabels o.text).2 = (leadingLabels (spaced l.text)).2) := by
  obtain ⟨held, done, rest, only, here, rfl, count⟩ :=
    exists_attachLabels_append (List.forall_mem_nil _) attached
  rw [← count, List.getElem?_append_right (Nat.le_refl _), Nat.sub_self, ← List.head?_eq_getElem?]
  by_cases labels : LabelOnly l.text
  · rw [attachLabels_of_labelOnly labels] at here
    have only : ∀ x ∈ l :: held, LabelOnly x.text := List.forall_mem_cons.mpr ⟨labels, only⟩
    obtain ⟨o, first, found⟩ := exists_head?_of_held only (List.cons_ne_nil _ _) here
    refine ⟨o, first, fun name labelled => found name ?_, absurd labels⟩
    simp [carried_cons, labelled]
  · rw [attachLabels_of_not_labelOnly labels] at here
    obtain ⟨out', _, rfl⟩ := map_eq_ok_iff.mp here
    have again := leadingLabels_spaced_behind only l.text
    refine ⟨_, rfl, fun name labelled => ?_, fun _ => ⟨rfl, by simp [again]⟩⟩
    have kept := (prefix_leadingLabels_spaced l.text).subset labelled
    simp [again, kept]

end Attached

theorem lineWord_congr {l o : Line} {pc w : Word} {symbols : Symbols} (number : o.number = l.number)
    (rest : (leadingLabels o.text).2 = (leadingLabels l.text).2)
    (made : lineWord o pc symbols = .ok w) : lineWord l pc symbols = .ok w := by
  unfold lineWord at made ⊢
  rw [rest] at made
  split at made
  · cases made
  · simpa only [number] using made

section Counts

variable {ls : List (List Char)} {k n : Nat} {t : List Char}

theorem instruction?_eq_some_iff :
    instruction? ls k = some t ↔ textStatement? ls k = some t ∧ ¬LabelOnly t := by
  simp [instruction?, Option.filter_eq_some_iff]

theorem countP_textLinesBefore (ls : List (List Char)) (k : Nat) :
    (textLinesBefore ls k).countP (¬LabelOnly ·.text) = instructionsBefore ls k := by
  rw [textLinesBefore, List.countP_filterMap, instructionsBefore]
  apply List.countP_congr
  intro j _
  cases found : textStatement? ls j with
  | none => simp [instruction?, found]
  | some t => by_cases labels : LabelOnly t <;> simp [instruction?, found, labels]

theorem textLinesBefore_succ_add (k n : Nat) (found : textStatement? ls k = some t) :
    ∃ post, textLinesBefore ls (k + 1 + n) = textLinesBefore ls k ++ ⟨k + 1, t⟩ :: post := by
  simp [textLinesBefore, List.range_add, List.range_succ, found]

theorem exists_textLinesBefore (found : textStatement? ls k = some t) :
    ∃ post, textLinesBefore ls ls.length = textLinesBefore ls k ++ ⟨k + 1, t⟩ :: post := by
  have inside : k < ls.length := by
    by_cases inside : k < ls.length
    · exact inside
    · simp [textStatement?, statementAt?, List.getElem?_eq_none (Nat.le_of_not_lt inside)] at found
  obtain ⟨n, split⟩ := Nat.exists_eq_add_of_le (Nat.succ_le_of_lt inside)
  rw [split]
  exact textLinesBefore_succ_add k n found

theorem instructionsBefore_succ (ls : List (List Char)) (k : Nat) : instructionsBefore ls (k + 1) =
    instructionsBefore ls k + if (instruction? ls k).isSome then 1 else 0 := by
  simp [instructionsBefore, List.range_succ, List.countP_append]

theorem instructionsBefore_mono (within : k ≤ n) :
    instructionsBefore ls k ≤ instructionsBefore ls n := by
  obtain ⟨m, rfl⟩ := Nat.exists_eq_add_of_le within
  simp [instructionsBefore, List.range_add, List.countP_append]

theorem exists_next_instruction (more : instructionsBefore ls k < instructionsBefore ls n) :
    ∃ j t, k ≤ j ∧ instruction? ls j = some t ∧
      instructionsBefore ls j = instructionsBefore ls k := by
  induction n with
  | zero => cases more
  | succ n ih =>
    by_cases earlier : instructionsBefore ls k < instructionsBefore ls n
    · exact ih earlier
    · have within : k ≤ n := by
        apply Nat.le_of_not_lt
        intro beyond
        exact Nat.not_lt.mpr (instructionsBefore_mono beyond) more
      have least : instructionsBefore ls k ≤ instructionsBefore ls n :=
        instructionsBefore_mono within
      cases found : instruction? ls n with
      | none => simp [instructionsBefore_succ, found, earlier] at more
      | some t => exact ⟨n, t, within, found, by omega⟩

end Counts

theorem attachLabels_of_ofText {source : List Char} {s : Segments}
    (divided : Segments.ofText source = .ok s) :
    attachLabels [] (textLinesBefore (Text.lines source) (Text.lines source).length) =
      .ok s.text := by
  obtain ⟨text, attached, rfl⟩ := map_eq_ok_iff.mp divided
  rw [Text.numbered, linesOf_statements] at attached
  simp only [Nat.zero_add] at attached
  exact attached

/-- The instructions of a source lie one behind the other from the base of the text, and a label
lies where the next instruction does. -/
theorem slots_of_assemble {source : List Char} {prog : Program}
    (assembled : assemble source = .ok prog) :
    ∃ s symbols, Segments.ofText source = .ok s ∧ Symbols.ofLines s.text textBase = .ok symbols ∧
      Slots (Text.lines source) symbols prog.text := by
  obtain ⟨s, divided, encoded⟩ := bind_eq_ok_iff.mp assembled
  obtain ⟨symbols, _, built, words⟩ := Segments.assemble_eq_ok_iff.mp encoded
  have attached := attachLabels_of_ofText divided
  have length : s.text.length =
      instructionsBefore (Text.lines source) (Text.lines source).length := by
    rw [length_of_attachLabels attached, countP_textLinesBefore]
  have placed {k : Nat} {t : List Char} (found : textStatement? (Text.lines source) k = some t) :
      ∃ o, s.text[instructionsBefore (Text.lines source) k]? = some o ∧
        (∀ name ∈ (leadingLabels t).1, name ∈ (leadingLabels o.text).1) ∧
          (¬LabelOnly t → o.number = k + 1 ∧
            (leadingLabels o.text).2 = (leadingLabels (spaced t)).2) := by
    obtain ⟨post, parts⟩ := exists_textLinesBefore found
    rw [parts] at attached
    rw [← countP_textLinesBefore]
    exact exists_attached_line attached
  refine ⟨s, symbols, divided, built, ?_, ?_, ?_, ?_⟩
  · rw [length_textWords words, length]
  · intro k t found
    obtain ⟨found, more⟩ := instruction?_eq_some_iff.mp found
    obtain ⟨o, there, _, same⟩ := placed found
    obtain ⟨w, word, made⟩ := getElem?_textWords words there
    obtain ⟨number, rest⟩ := same more
    exact ⟨w, word, lineWord_congr number rest made⟩
  · intro k t found name labelled
    obtain ⟨o, there, kept, _⟩ := placed found
    exact Symbols.address?_of_ofLines built there (kept name labelled)
  · intro k t found
    obtain ⟨o, there, _⟩ := placed found
    obtain ⟨inside, _⟩ := List.getElem?_eq_some_iff.mp there
    exact exists_next_instruction (length ▸ inside)

theorem slots_of_assemble_apart :
    let source := "a:\n.data\nx: .word 1\n.text\nb : # c:\n\nd: j f\n.globl a\ne: f:\n\tnop\n".toList
    ∃ s symbols, assemble source = .ok ⟨[1], [0x08100001, 0]⟩ ∧ Segments.ofText source = .ok s ∧
      Symbols.ofLines s.text textBase = .ok symbols ∧
        symbols.address? "a".toList = some 0x00400000 ∧
          symbols.address? "b".toList = some 0x00400000 ∧
            symbols.address? "e".toList = some 0x00400004 := by
  intro source
  have assembled : assemble source = .ok ⟨[1], [0x08100001, 0]⟩ :=
    toOption_eq_some_iff.mp (by decide +kernel)
  have start : Word.slot textBase (instructionsBefore (Text.lines source) 4) = 0x00400000 := by
    decide +kernel
  have second : Word.slot textBase (instructionsBefore (Text.lines source) 8) = 0x00400004 := by
    decide +kernel
  obtain ⟨s, symbols, divided, built, slots⟩ := slots_of_assemble assembled
  refine ⟨s, symbols, assembled, divided, built, ?_, ?_, ?_⟩
  · exact slots.label 0 "a:".toList (by decide +kernel) "a".toList (by decide +kernel)
  · rw [← start]
    exact slots.label 4 "b :".toList (by decide +kernel) "b".toList (by decide +kernel)
  · rw [← second]
    exact slots.label 8 "e: f:".toList (by decide +kernel) "e".toList (by decide +kernel)

end Mips.Assembly
