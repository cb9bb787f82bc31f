import Mips.Proofs.Assembly.Comments
import Mips.Proofs.Assembly.Data
import Mips.Proofs.Assembly.Rendering
import Mips.Proofs.Assembly.Slots

/-!
What a source comes to, told by the roles of its lines and without their numbers. Main statement:
`assemble_eq_ok_iff_yields`, lines with the same roles are assembled to the same program.
-/
namespace Mips.Assembly

/-- The statements of a segment among lines with these roles, the first of which belong to a given
segment. -/
def texts (seg : Segment) : Segment → List Role → List (List Char)
  | _, [] => []
  | cur, .ignored :: rs => texts seg cur rs
  | _, .marker next :: rs => texts seg next rs
  | cur, .statement t :: rs => if cur = seg then t :: texts seg cur rs else texts seg cur rs

theorem map_text_linesOf (seg start : Segment) (ls : List (Nat × List Char)) :
    (linesOf seg (statements start ls)).map (·.text) =
      texts seg start (ls.map fun l => Role.of l.2) := by
  induction ls generalizing start with
  | nil => rfl
  | cons l ls ih =>
    cases role : Role.of l.2 with
    | ignored => simp only [statements, role, List.map_cons, texts, ih]
    | marker next => simp only [statements, role, List.map_cons, texts, ih]
    | statement t =>
      have later := ih start
      rw [linesOf] at later
      by_cases same : start = seg
      · simp only [statements, role, List.map_cons, texts, linesOf, List.filterMap_cons,
          if_pos same, later]
      · simp only [statements, role, List.map_cons, texts, linesOf, List.filterMap_cons,
          if_neg same, later]

theorem texts_append_ignored (seg start : Segment) (rs : List Role) :
    texts seg start (rs ++ [.ignored]) = texts seg start rs := by
  induction rs generalizing start with
  | nil => rfl
  | cons r rs ih => cases r <;> simp only [List.cons_append, texts, ih]

abbrev Peeled : Type := List (List Char) × List Char

/-- What the statements of the text come to when labels before them are waiting: each that holds
more than labels takes the labels before it. -/
def attach : List (List Char) → List (List Char) → Option (List Peeled)
  | waiting, [] => if waiting = [] then some [] else none
  | waiting, t :: ts =>
    if LabelOnly t then attach (waiting ++ (leadingLabels t).1) ts
    else
      (attach [] ts).map
        ((waiting ++ (leadingLabels (spaced t)).1, (leadingLabels (spaced t)).2) :: ·)

theorem attach_eq_some_iff {held ls : List Line} {ps : List Peeled}
    (only : ∀ l ∈ held, LabelOnly l.text) :
    attach (carried held) (ls.map (·.text)) = some ps ↔
      ∃ out, attachLabels held ls = .ok out ∧ out.map (leadingLabels ·.text) = ps := by
  induction ls generalizing held ps with
  | nil =>
    cases held with
    | nil => simp [attach, attachLabels, carried]
    | cons l held =>
      have waiting : carried (l :: held) ≠ [] := by
        rw [carried_cons]
        exact List.append_ne_nil_of_right_ne_nil _ (only l List.mem_cons_self).2
      simp [attach, attachLabels, waiting]
  | cons l ls ih =>
    by_cases labels : LabelOnly l.text
    · rw [attachLabels_of_labelOnly labels, List.map_cons, attach, if_pos labels, ← carried_cons,
        ih (List.forall_mem_cons.mpr ⟨labels, only⟩)]
    · rw [attachLabels_of_not_labelOnly labels, List.map_cons, attach, if_neg labels,
        ← leadingLabels_spaced_behind only, Option.map_eq_some_iff]
      have rest {ps : List Peeled} : attach [] (ls.map (·.text)) = some ps ↔
          ∃ out, attachLabels [] ls = .ok out ∧ out.map (leadingLabels ·.text) = ps :=
        ih (List.forall_mem_nil _)
      constructor
      · rintro ⟨later, attached, rfl⟩
        obtain ⟨out, done, rfl⟩ := rest.mp attached
        exact ⟨_, map_eq_ok_iff.mpr ⟨out, done, rfl⟩, rfl⟩
      · rintro ⟨out, done, rfl⟩
        obtain ⟨later, attached, rfl⟩ := map_eq_ok_iff.mp done
        exact ⟨_, rest.mpr ⟨later, attached, rfl⟩, rfl⟩

theorem Place.reads_of_other_number {n : Nat} (k : Nat) {pc : Word} {symbols : Symbols}
    {shape : Shape} {ops : List (List Char)} {f : Fields}
    (reads : Place.Reads ⟨n, pc, symbols⟩ shape ops f) :
    Place.Reads ⟨k, pc, symbols⟩ shape ops f := by
  cases reads <;> constructor <;> assumption

section Numbers

variable {l o : Line} {ls os : List Line} {symbols : Symbols} {pc w : Word}

theorem lineWord_of_same_peeled (same : leadingLabels o.text = leadingLabels l.text)
    (made : lineWord l pc symbols = .ok w) : lineWord o pc symbols = .ok w := by
  obtain ⟨m, ops, cut, made⟩ := exists_mnemonic_of_lineWord made
  obtain ⟨f, found, rfl⟩ := map_eq_ok_iff.mp made
  have reads := Place.reads_of_other_number o.number (operandFields_eq_ok_iff.mp found)
  have again : mnemonicWord ⟨o.number, pc, symbols⟩ m ops = .ok _ :=
    map_eq_ok_iff.mpr ⟨f, operandFields_eq_ok_iff.mpr reads, rfl⟩
  simp only [lineWord, same, cut, ofName?_name]
  exact again

theorem textWords_of_same_peeled
    (same : os.map (leadingLabels ·.text) = ls.map (leadingLabels ·.text)) {ws : List Word}
    (made : textWords symbols pc ls = .ok ws) : textWords symbols pc os = .ok ws := by
  induction ls generalizing pc ws os with
  | nil =>
    obtain rfl := List.map_eq_nil_iff.mp same
    exact made
  | cons l ls ih =>
    obtain ⟨o, os, rfl⟩ := List.exists_cons_of_ne_nil (l := os) (by rintro rfl; cases same)
    obtain ⟨first, later⟩ := List.cons.inj same
    obtain ⟨w, word, rest⟩ := bind_eq_ok_iff.mp made
    obtain ⟨ws', words, done⟩ := bind_eq_ok_iff.mp rest
    exact bind_eq_ok_iff.mpr ⟨w, lineWord_of_same_peeled first word,
      bind_eq_ok_iff.mpr ⟨ws', ih later words, done⟩⟩

theorem Symbols.define_of_other_number {t t' : Symbols} {n : Nat} (k : Nat) {addr : Word}
    {names : List (List Char)} (defined : t.define n addr names = .ok t') :
    t.define k addr names = .ok t' := by
  induction names generalizing t with
  | nil => exact defined
  | cons name names ih =>
    rw [define] at defined ⊢
    split at defined
    · cases defined
    · exact ih defined

theorem Symbols.addLines_of_same_peeled {t t' : Symbols} {addr : Word}
    (same : os.map (leadingLabels ·.text) = ls.map (leadingLabels ·.text))
    (added : t.addLines addr ls = .ok t') : t.addLines addr os = .ok t' := by
  induction ls generalizing t addr os with
  | nil =>
    obtain rfl := List.map_eq_nil_iff.mp same
    exact added
  | cons l ls ih =>
    obtain ⟨o, os, rfl⟩ := List.exists_cons_of_ne_nil (l := os) (by rintro rfl; cases same)
    obtain ⟨first, later⟩ := List.cons.inj same
    rw [addLines] at added ⊢
    split at added
    · cases added
    · rename_i t₁ defined
      have labels : leadingLabels o.text = leadingLabels l.text := first
      rw [labels, define_of_other_number o.number defined]
      exact ih later added

end Numbers

def Words (ps : List Peeled) (ws : List Word) : Prop :=
  ∃ ls symbols, ls.map (fun l : Line => leadingLabels l.text) = ps ∧
    Symbols.ofLines ls textBase = .ok symbols ∧ textWords symbols textBase ls = .ok ws

/-- The program of a source whose lines have these roles. -/
structure Yields (rs : List Role) (prog : Program) : Prop where
  data : ∃ chunks, Contributions (texts .data .text rs) chunks ∧ prog.data = chunks.flatMap pack
  text : ∃ ps, attach [] (texts .text .text rs) = some ps ∧ Words ps prog.text

theorem Yields.congr {rs rs' : List Role} {prog : Program} (yields : Yields rs prog)
    (data : texts .data .text rs' = texts .data .text rs)
    (text : texts .text .text rs' = texts .text .text rs) : Yields rs' prog :=
  ⟨data ▸ yields.data, text ▸ yields.text⟩

theorem role_lines (s : List Char) : ∃ rest, (rest = [] ∨ rest = [Role.ignored]) ∧
    (s.splitOn '\n').map Role.of = (Text.lines s).map Role.of ++ rest := by
  fun_induction Text.lines s with
  | case1 => exact ⟨[.ignored], .inr rfl, rfl⟩
  | case2 s filled none =>
    have single : '\n' ∉ s := by
      have whole := List.takeWhile_append_dropWhile (p := (· != '\n')) (l := s)
      rw [none, List.append_nil] at whole
      intro feed
      rw [← whole] at feed
      simpa using List.all_eq_true.mp List.all_takeWhile _ feed
    exact ⟨[], .inl rfl, by rw [List.splitOn_eq_singleton single, List.append_nil]⟩
  | case3 s filled c r cut ih =>
    obtain ⟨rest, tail, roles⟩ := ih
    obtain rfl : c = '\n' := by
      have first := List.head?_dropWhile_not (· != '\n') s
      rw [cut] at first
      simpa using first
    have parts : s = s.takeWhile (· != '\n') ++ '\n' :: r := by
      rw [← cut, List.takeWhile_append_dropWhile]
    have single : '\n' ∉ s.takeWhile (· != '\n') := by
      intro feed
      simpa using List.all_eq_true.mp List.all_takeWhile _ feed
    have first := List.splitOn_append_cons_self_of_not_mem single r
    rw [← parts] at first
    rw [first, List.map_cons, List.map_cons, role_dropReturn, roles]
    exact ⟨rest, tail, rfl⟩

theorem texts_lines (seg : Segment) (s : List Char) :
    texts seg .text ((Text.lines s).map Role.of) =
      texts seg .text ((s.splitOn '\n').map Role.of) := by
  obtain ⟨rest, rfl | rfl, roles⟩ := role_lines s
  · rw [roles, List.append_nil]
  · rw [roles, texts_append_ignored]

/-- A source is assembled to what the roles of its lines yield. -/
theorem assemble_eq_ok_iff_yields {source : List Char} {prog : Program} :
    assemble source = .ok prog ↔ Yields ((source.splitOn '\n').map Role.of) prog := by
  let ls := statements .text (Text.numbered (Text.lines source))
  have lines (seg : Segment) : (linesOf seg ls).map (·.text) =
      texts seg .text ((source.splitOn '\n').map Role.of) := by
    have numbered : (Text.numbered (Text.lines source)).map (fun l => Role.of l.2) =
        (Text.lines source).map Role.of := by
      conv => rhs; rw [← Text.snd_numbered (Text.lines source), List.map_map]
      rfl
    rw [map_text_linesOf, numbered, texts_lines]
  have attached (ps : List Peeled) :
      attach [] (texts .text .text ((source.splitOn '\n').map Role.of)) = some ps ↔
        ∃ out, attachLabels [] (linesOf .text ls) = .ok out ∧
          out.map (leadingLabels ·.text) = ps := by
    rw [← lines]
    exact attach_eq_some_iff (List.forall_mem_nil _)
  have data : dataWords (linesOf .data ls) = .ok prog.data ↔ ∃ chunks,
      Contributions (texts .data .text ((source.splitOn '\n').map Role.of)) chunks ∧
        prog.data = chunks.flatMap pack := by
    rw [dataWords_eq_ok_iff, lines]
  constructor
  · intro assembled
    obtain ⟨_, divided, encoded⟩ := bind_eq_ok_iff.mp assembled
    obtain ⟨text, merged, rfl⟩ := map_eq_ok_iff.mp divided
    obtain ⟨symbols, words, built, made⟩ := Segments.assemble_eq_ok_iff.mp encoded
    exact ⟨data.mp words, _, (attached _).mpr ⟨text, merged, rfl⟩, text, symbols, rfl, built, made⟩
  · rintro ⟨words, ps, merged, text', symbols, same, built, made⟩
    obtain ⟨text, merged, peeled⟩ := (attached ps).mp merged
    have again : text.map (leadingLabels ·.text) = text'.map (leadingLabels ·.text) :=
      peeled.trans same.symm
    have encoded : (Segments.mk (linesOf .data ls) text).assemble = .ok prog :=
      Segments.assemble_eq_ok_iff.mpr ⟨symbols, data.mpr words,
        Symbols.addLines_of_same_peeled again built, textWords_of_same_peeled again made⟩
    exact bind_eq_ok_iff.mpr ⟨_, map_eq_ok_iff.mpr ⟨text, merged, rfl⟩, encoded⟩

end Mips.Assembly
