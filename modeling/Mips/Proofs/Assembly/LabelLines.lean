import Mips.Proofs.Assembly.Sources

/-!
Labels on a line of their own. Main statement: `yields_apart_iff`, the labels of a line may be put
on a line before it exactly if that line, as it is written, holds labels and nothing else, and what
is left is not taken for the beginning of a segment or for a declaration. In the data this holds of
every line.
-/
namespace Mips.Assembly

section Texts

theorem texts_append (seg start : Segment) (pre ls : List (List Char)) :
    texts seg start ((pre ++ ls).map Role.of) = texts seg start (pre.map Role.of) ++
      texts seg (segmentAt start pre pre.length) (ls.map Role.of) := by
  induction pre generalizing start with
  | nil => rfl
  | cons l pre ih =>
    rw [List.length_cons, segmentAt_cons, List.cons_append, List.map_cons, List.map_cons]
    cases role : Role.of l with
    | ignored => simp only [texts, ih, Role.marker?, Option.getD_none]
    | marker next => simp only [texts, ih, Role.marker?, Option.getD_some]
    | statement t =>
      simp only [texts, ih, Role.marker?, Option.getD_none]
      split <;> simp only [List.cons_append]

theorem texts_suffix (seg start : Segment) (rs : List Role) :
    texts seg start rs <:+ texts seg seg rs := by
  induction rs with
  | nil => exact List.suffix_refl _
  | cons r rs ih =>
    cases r with
    | ignored => exact ih
    | marker next => exact List.suffix_refl _
    | statement t =>
      rw [texts, texts, if_pos rfl]
      split
      · rename_i same
        subst same
        exact List.suffix_refl _
      · exact ih.trans (List.suffix_cons t _)

end Texts

section Attached

variable {waiting : List (List Char)} {t : List Char} {ts : List (List Char)} {ps : List Peeled}

theorem attach_congr {ts' : List (List Char)}
    (same : ∀ waiting, attach waiting ts' = attach waiting ts) (front : List (List Char)) :
    attach waiting (front ++ ts') = attach waiting (front ++ ts) := by
  induction front generalizing waiting with
  | nil => exact same waiting
  | cons t front ih => simp only [List.cons_append, attach, ih]

theorem length_of_attach (attached : attach waiting ts = some ps) :
    ps.length = ts.countP (¬LabelOnly ·) := by
  induction ts generalizing waiting ps with
  | nil =>
    rw [attach] at attached
    split at attached
    · obtain rfl := Option.some.inj attached
      rfl
    · cases attached
  | cons t ts ih =>
    rw [attach] at attached
    split at attached
    · rename_i only
      rw [ih attached, List.countP_cons_of_neg (by simpa using only)]
    · rename_i more
      obtain ⟨later, rest, rfl⟩ := Option.map_eq_some_iff.mp attached
      rw [List.length_cons, ih rest, List.countP_cons_of_pos (by simpa using more)]

theorem exists_mem_of_attach (more : ¬LabelOnly t) {front : List (List Char)}
    (attached : attach waiting (front ++ t :: ts) = some ps) :
    ∃ q ∈ ps, q.2 = (leadingLabels (spaced t)).2 := by
  induction front generalizing waiting ps with
  | nil =>
    rw [List.nil_append, attach, if_neg more] at attached
    obtain ⟨later, _, rfl⟩ := Option.map_eq_some_iff.mp attached
    exact ⟨_, List.mem_cons_self, rfl⟩
  | cons x front ih =>
    rw [List.cons_append, attach] at attached
    split at attached
    · exact ih attached
    · obtain ⟨later, rest, rfl⟩ := Option.map_eq_some_iff.mp attached
      obtain ⟨q, there, same⟩ := ih rest
      exact ⟨q, List.mem_cons_of_mem _ there, same⟩

theorem length_of_words {ws : List Word} (words : Words ps ws) : ws.length = ps.length := by
  obtain ⟨ls, symbols, rfl, _, made⟩ := words
  rw [length_textWords made, List.length_map]

theorem ne_nil_of_words {ws : List Word} (words : Words ps ws) {q : Peeled} (there : q ∈ ps) :
    q.2 ≠ [] := by
  obtain ⟨ls, symbols, rfl, _, made⟩ := words
  obtain ⟨l, hl, rfl⟩ := List.mem_map.mp there
  obtain ⟨i, found⟩ := List.getElem?_of_mem hl
  obtain ⟨w, _, word⟩ := getElem?_textWords made found
  obtain ⟨m, ops, cut, _⟩ := exists_mnemonic_of_lineWord word
  intro none
  rw [none, tokens, Text.fields_nil] at cut
  cases cut

end Attached

/-- A line behind these lines, cut where its labels end. In the text labels are found with blanks
for commas, in the data as they are written. What is left shows no labels as it is written. -/
structure Labelled (pre : List (List Char)) (p r : List Char) : Prop where
  labels : LabelOnly
    (match segmentAt .text pre pre.length with
    | .data => p
    | .text => spaced p)
  whole : (leadingLabels (withoutComment r)).1 = []
  statement : ¬DirectiveLine (p ++ r)

/-- Labels that may stand on a line of their own: in the text they are found as they are written,
and what is left begins with no word of the division into segments. -/
def Movable (pre : List (List Char)) (p r : List Char) : Prop :=
  segmentAt .text pre pre.length = .text → LabelOnly p ∧ ¬DirectiveLine r

instance (pre : List (List Char)) (p r : List Char) : Decidable (Movable pre p r) :=
  inferInstanceAs (Decidable (_ → _ ∧ _))

theorem LabelOnly.spaced {s : List Char} (only : LabelOnly s) : LabelOnly (spaced s) := by
  obtain ⟨names, some, labels⟩ := labelOnly_iff.mp only
  exact labelOnly_iff.mpr ⟨names, some, labels.spaced⟩

theorem labelOnly_trim {s : List Char} : LabelOnly (Text.trim s) ↔ LabelOnly s := by
  rw [LabelOnly, leadingLabels_trim, LabelOnly]

section Roles

variable {p r : List Char}

theorem clean_of_labels (labels : LabelOnly (spaced p)) : '"' ∉ p ∧ '#' ∉ p := by
  obtain ⟨names, _, labels⟩ := labelOnly_iff.mp labels
  have clean {c : Char} (other : c ≠ ',' ∧ c ≠ '\t' ∧ c ≠ ' ')
      (special : isNameChar c = false ∧ Text.isBlank c = false ∧ c ≠ ':') : c ∉ p := by
    intro there
    rcases labels.of_mem ((mem_spaced_iff other).mpr there) with letter | blank | colon
    · cases special.1.symm.trans letter
    · cases special.2.1.symm.trans blank
    · exact special.2.2 colon
  exact ⟨clean (by decide) (by decide), clean (by decide) (by decide)⟩

theorem withoutComment_labels (labels : LabelOnly (spaced p)) : withoutComment p = p :=
  beforeComment_of_clean (clean_of_labels labels).1 (clean_of_labels labels).2

theorem withoutComment_labels_append (labels : LabelOnly (spaced p)) (r : List Char) :
    withoutComment (p ++ r) = p ++ withoutComment r :=
  beforeComment_append_of_clean (clean_of_labels labels).1 (clean_of_labels labels).2 r

theorem colon_mem_trim (labels : LabelOnly (spaced p)) : ':' ∈ Text.trim p := by
  obtain ⟨names, some, labels⟩ := labelOnly_iff.mp labels
  have colon : ':' ∈ p := (mem_spaced_iff (by decide)).mp (labels.colon_mem some)
  obtain ⟨l, r, before, after, parts⟩ := Text.exists_trim p
  rw [parts, List.mem_append, List.mem_append] at colon
  rcases colon with gap | colon | gap
  · exact absurd (before _ gap) (by decide)
  · exact colon
  · exact absurd (after _ gap) (by decide)

theorem not_directiveLine_labels (labels : LabelOnly (spaced p)) (other : ¬DirectiveLine (p ++ r)) :
    ¬DirectiveLine p := by
  have filled := List.ne_nil_of_mem (colon_mem_trim labels)
  have colonless : ∀ word ∈ directiveWords, ':' ∉ word.toList := by decide
  rintro ⟨word, known, begins⟩
  rw [withoutComment_labels labels] at begins
  obtain ⟨rest, parts, stops⟩ := beginsWith_eq_true_iff.mp begins
  obtain ⟨t, longer⟩ := Text.exists_trim_append filled (withoutComment r)
  refine other ⟨word, known, ?_⟩
  rw [withoutComment_labels_append labels, longer, parts, List.append_assoc,
    beginsWith_eq_true_iff]
  refine ⟨rest ++ t, rfl, fun c first => ?_⟩
  -- the colon is behind the word, so the character behind the word is one of the labels
  cases rest with
  | nil =>
    have colon := colon_mem_trim labels
    rw [parts, List.append_nil] at colon
    exact absurd colon (colonless word known)
  | cons d rest => exact stops c first

theorem role_labels (labels : LabelOnly (spaced p)) (other : ¬DirectiveLine (p ++ r)) :
    Role.of p = .statement (Text.trim p) := by
  have filled := List.ne_nil_of_mem (colon_mem_trim labels)
  rw [role_of_not_directiveLine (not_directiveLine_labels labels other),
    withoutComment_labels labels, if_neg filled]

theorem role_labels_append (labels : LabelOnly (spaced p)) (other : ¬DirectiveLine (p ++ r)) :
    Role.of (p ++ r) = .statement (Text.trim (p ++ withoutComment r)) := by
  have filled := List.ne_nil_of_mem (colon_mem_trim labels)
  obtain ⟨t, longer⟩ := Text.exists_trim_append filled (withoutComment r)
  rw [role_of_not_directiveLine other, withoutComment_labels_append labels, if_neg]
  rw [longer]
  exact List.append_ne_nil_of_left_ne_nil filled t

end Roles

section Data

variable {t : List Char} {bs : List UInt8} {ts : List (List Char)} {prog : Program}

theorem eq_of_beginsWith {v w : List Char} (first : beginsWith v t = true)
    (second : beginsWith w t = true) (clean : ∀ c ∈ v ++ w, Text.isBlank c = false) : v = w := by
  have cut {v : List Char} (begins : beginsWith v t = true)
      (clean : ∀ c ∈ v, Text.isBlank c = false) : t.takeWhile (!Text.isBlank ·) = v := by
    obtain ⟨rest, rfl, stops⟩ := beginsWith_eq_true_iff.mp begins
    exact Text.takeWhile_append_of_clean clean stops
  obtain ⟨hv, hw⟩ := List.forall_mem_append.mp clean
  rw [← cut first hv, ← cut second hw]

theorem Contributes.beginsWith_eq_false (contributes : Contributes t bs) :
    ∀ word ∈ directiveWords, beginsWith word.toList t = false := by
  cases contributes with
  | labels => decide
  | @directive name _ args _ directs gives =>
    intro word known
    rw [← Bool.not_eq_true]
    intro begins
    have named : beginsWith name.toList t = true := by
      rw [beginsWith_eq_true_iff]
      cases directs with
      | alone => exact ⟨[], (List.append_nil _).symm, nofun⟩
      | spaced blank => exact ⟨_, rfl, fun _ head => Option.some.inj head ▸ blank⟩
    have plain : ∀ word ∈ directiveWords, word.toList.all (!Text.isBlank ·) = true := by decide
    have clean : ∀ c ∈ name.toList ++ word.toList, Text.isBlank c = false :=
      List.forall_mem_append.mpr ⟨gives.isBlank_name.2, by simpa using plain word known⟩
    have same : name = word := String.toList_inj.mp (eq_of_beginsWith named begins clean)
    have apart : ∀ word ∈ dataDirectives, word ∉ directiveWords := by decide
    exact apart name gives.mem_dataDirectives (same ▸ known)

theorem exists_contributes {front : List (List Char)} {chunks : List (List UInt8)}
    (contributions : Contributions (front ++ t :: ts) chunks) :
    ∃ bs, Contributes (leadingLabels t).2 bs := by
  induction front generalizing chunks with
  | nil =>
    obtain ⟨bs, _, here, _⟩ := List.forall₂_cons_left_iff.mp contributions
    exact ⟨bs, here⟩
  | cons x front ih =>
    obtain ⟨_, _, _, rest, _⟩ := List.forall₂_cons_left_iff.mp contributions
    exact ih rest

theorem exists_contributions_append {ts' : List (List Char)}
    (same : ∀ {chunks}, Contributions ts chunks → ∃ chunks', Contributions ts' chunks' ∧
      chunks'.flatMap pack = chunks.flatMap pack)
    (front : List (List Char)) {chunks : List (List UInt8)}
    (contributions : Contributions (front ++ ts) chunks) :
    ∃ chunks', Contributions (front ++ ts') chunks' ∧
      chunks'.flatMap pack = chunks.flatMap pack := by
  induction front generalizing chunks with
  | nil => exact same contributions
  | cons t front ih =>
    obtain ⟨bs, later, here, rest, rfl⟩ := List.forall₂_cons_left_iff.mp contributions
    obtain ⟨chunks', contributions', packed⟩ := ih rest
    exact ⟨bs :: chunks', .cons here contributions', by
      rw [List.flatMap_cons, List.flatMap_cons, packed]⟩

end Data

section Apart

variable {pre post : List (List Char)} {p r : List Char} {prog : Program}

theorem role_of_other (other : ¬DirectiveLine r) :
    (Role.of r = .ignored ∧ Text.trim (withoutComment r) = []) ∨
      Role.of r = .statement (Text.trim (withoutComment r)) ∧
        Text.trim (withoutComment r) ≠ [] := by
  rw [role_of_not_directiveLine other]
  split
  · rename_i empty
    exact .inl ⟨rfl, empty⟩
  · rename_i filled
    exact .inr ⟨rfl, filled⟩

theorem role_of_directiveLine (directive : DirectiveLine r) :
    Role.of r = .ignored ∨ ∃ seg, Role.of r = .marker seg := by
  obtain ⟨word, known, begins⟩ := directive
  simp only [directiveWords, List.mem_cons, List.not_mem_nil, or_false] at known
  unfold Role.of
  dsimp only
  split
  · exact .inl rfl
  split
  · exact .inr ⟨_, rfl⟩
  split
  · exact .inr ⟨_, rfl⟩
  split
  · exact .inl rfl
  · rename_i data text global
    rw [Bool.or_eq_true, not_or] at global
    rcases known with rfl | rfl | rfl | rfl
    · exact absurd begins data
    · exact absurd begins text
    · exact absurd begins global.1
    · exact absurd begins global.2

namespace Labelled

theorem spaced (labelled : Labelled pre p r) : LabelOnly (spaced p) := by
  have labels := labelled.labels
  split at labels
  · exact labels.spaced
  · exact labels

theorem texts_before (labelled : Labelled pre p r) (seg : Segment) :
    texts seg .text ((pre ++ (p ++ r) :: post).map Role.of) = texts seg .text (pre.map Role.of) ++
      texts seg (segmentAt .text pre pre.length)
        (.statement (Text.trim (p ++ withoutComment r)) :: post.map Role.of) := by
  rw [texts_append, List.map_cons, role_labels_append labelled.spaced labelled.statement]

theorem texts_apart (labelled : Labelled pre p r) (seg : Segment) :
    texts seg .text ((pre ++ p :: r :: post).map Role.of) = texts seg .text (pre.map Role.of) ++
      texts seg (segmentAt .text pre pre.length)
        (.statement (Text.trim p) :: Role.of r :: post.map Role.of) := by
  rw [texts_append, List.map_cons, List.map_cons, role_labels labelled.spaced labelled.statement]

theorem leadingLabels_statement (labelled : Labelled pre p r) (only : LabelOnly p) :
    leadingLabels (Text.trim (p ++ withoutComment r)) =
      ((leadingLabels p).1, Text.trim (withoutComment r)) := by
  obtain ⟨names, _, labels⟩ := labelOnly_iff.mp only
  rw [leadingLabels_trim, labels.leadingLabels_append, labels.leadingLabels_eq,
    leadingLabels_eq_trim labelled.whole, List.append_nil]

theorem not_labelOnly_statement (labelled : Labelled pre p r) (only : LabelOnly p)
    (filled : Text.trim (withoutComment r) ≠ []) :
    ¬LabelOnly (Text.trim (p ++ withoutComment r)) := by
  rw [LabelOnly, labelled.leadingLabels_statement only]
  exact fun labels => filled labels.1

theorem yields_apart_of_ignored (labelled : Labelled pre p r) (ignored : Role.of r = .ignored)
    (empty : Text.trim (withoutComment r) = [])
    (yields : Yields ((pre ++ (p ++ r) :: post).map Role.of) prog) :
    Yields ((pre ++ p :: r :: post).map Role.of) prog := by
  have same : Text.trim (p ++ withoutComment r) = Text.trim p :=
    Text.trim_append_of_blank (l := []) (List.forall_mem_nil _) (Text.trim_eq_nil_iff.mp empty)
  have texts_same (seg : Segment) : texts seg .text ((pre ++ p :: r :: post).map Role.of) =
      texts seg .text ((pre ++ (p ++ r) :: post).map Role.of) := by
    rw [labelled.texts_apart, labelled.texts_before, same, ignored]
    rfl
  exact yields.congr (texts_same .data) (texts_same .text)

theorem yields_apart_of_data (labelled : Labelled pre p r)
    (data : segmentAt .text pre pre.length = .data)
    (yields : Yields ((pre ++ (p ++ r) :: post).map Role.of) prog) :
    Yields ((pre ++ p :: r :: post).map Role.of) prog := by
  have only : LabelOnly p := by
    have labels := labelled.labels
    rwa [data] at labels
  have peeled := labelled.leadingLabels_statement only
  obtain ⟨chunks, contributions, packed⟩ := yields.data
  rw [labelled.texts_before, data, texts, if_pos rfl] at contributions
  have other : ¬DirectiveLine r := by
    obtain ⟨bs, here⟩ := exists_contributes contributions
    rw [peeled] at here
    exact not_directiveLine_iff.mpr here.beginsWith_eq_false
  rcases role_of_other other with ⟨ignored, empty⟩ | ⟨statement, _⟩
  · exact labelled.yields_apart_of_ignored ignored empty yields
  · have line {ts : List (List Char)} {chunks : List (List UInt8)}
        (here : Contributions (Text.trim (p ++ withoutComment r) :: ts) chunks) :
        ∃ chunks', Contributions (Text.trim p :: Text.trim (withoutComment r) :: ts) chunks' ∧
          chunks'.flatMap pack = chunks.flatMap pack := by
      obtain ⟨bs, later, first, rest, rfl⟩ := List.forall₂_cons_left_iff.mp here
      rw [peeled] at first
      refine ⟨[] :: bs :: later, .cons ?_ (.cons ?_ rest), rfl⟩
      · rw [leadingLabels_trim, only.1]
        exact .labels
      · rwa [leadingLabels_trim, leadingLabels_eq_trim labelled.whole]
    refine ⟨?_, ?_⟩
    · obtain ⟨chunks', contributions', same⟩ := exists_contributions_append line _ contributions
      refine ⟨chunks', ?_, by rw [packed, same]⟩
      rw [labelled.texts_apart, data, statement, texts, if_pos rfl, texts, if_pos rfl]
      exact contributions'
    · have same : texts .text .text ((pre ++ p :: r :: post).map Role.of) =
          texts .text .text ((pre ++ (p ++ r) :: post).map Role.of) := by
        rw [labelled.texts_apart, labelled.texts_before, data, statement]
        rfl
      exact same ▸ yields.text

theorem yields_apart_of_text (labelled : Labelled pre p r)
    (text : segmentAt .text pre pre.length = .text) (only : LabelOnly p) (other : ¬DirectiveLine r)
    (yields : Yields ((pre ++ (p ++ r) :: post).map Role.of) prog) :
    Yields ((pre ++ p :: r :: post).map Role.of) prog := by
  rcases role_of_other other with ⟨ignored, empty⟩ | ⟨statement, filled⟩
  · exact labelled.yields_apart_of_ignored ignored empty yields
  · have data : texts .data .text ((pre ++ p :: r :: post).map Role.of) =
        texts .data .text ((pre ++ (p ++ r) :: post).map Role.of) := by
      rw [labelled.texts_apart, labelled.texts_before, text, statement]
      rfl
    obtain ⟨names, _, labels⟩ := labelOnly_iff.mp only
    have more := labelled.not_labelOnly_statement only filled
    have unlabelled : ¬LabelOnly (Text.trim (withoutComment r)) := by
      rw [labelOnly_trim]
      exact fun labels => labels.2 labelled.whole
    have peeled : leadingLabels (Assembly.spaced (Text.trim (p ++ withoutComment r))) =
        (names ++ (leadingLabels (Assembly.spaced (Text.trim (withoutComment r)))).1,
          (leadingLabels (Assembly.spaced (Text.trim (withoutComment r)))).2) := by
      rw [leadingLabels_spaced_trim, spaced_append, labels.spaced.leadingLabels_append,
        leadingLabels_spaced_trim]
    have same (waiting ts : List (List Char)) :
        attach waiting (Text.trim p :: Text.trim (withoutComment r) :: ts) =
          attach waiting (Text.trim (p ++ withoutComment r) :: ts) := by
      rw [attach, if_pos (labelOnly_trim.mpr only), leadingLabels_trim, labels.leadingLabels_eq,
        attach, if_neg unlabelled, attach, if_neg more, peeled, List.append_assoc]
    obtain ⟨ps, attached, words⟩ := yields.text
    rw [labelled.texts_before, text, texts, if_pos rfl] at attached
    refine ⟨data ▸ yields.data, ps, ?_, words⟩
    rw [labelled.texts_apart, text, statement, texts, if_pos rfl, texts, if_pos rfl,
      attach_congr (same · _), attached]

theorem labelOnly_of_yields (labelled : Labelled pre p r)
    (text : segmentAt .text pre pre.length = .text)
    (yields : Yields ((pre ++ p :: r :: post).map Role.of) prog) : LabelOnly p := by
  by_contra more
  obtain ⟨ps, attached, words⟩ := yields.text
  rw [labelled.texts_apart, text, texts, if_pos rfl] at attached
  obtain ⟨q, there, rest⟩ := exists_mem_of_attach (mt labelOnly_trim.mp more) attached
  rw [leadingLabels_spaced_trim, labelled.spaced.1] at rest
  exact ne_nil_of_words words there rest

/-- An instruction that is taken for a directive is lost. -/
theorem not_directiveLine_of_yields (labelled : Labelled pre p r)
    (text : segmentAt .text pre pre.length = .text)
    (before : Yields ((pre ++ (p ++ r) :: post).map Role.of) prog)
    (after : Yields ((pre ++ p :: r :: post).map Role.of) prog) : ¬DirectiveLine r := by
  intro directive
  have only := labelled.labelOnly_of_yields text after
  have filled : Text.trim (withoutComment r) ≠ [] := by
    intro empty
    have none : ∀ word ∈ directiveWords, beginsWith word.toList [] = false := by decide
    exact not_directiveLine_iff.mpr (by rwa [empty]) directive
  have more := labelled.not_labelOnly_statement only filled
  have count {ls : List (List Char)} (yields : Yields (ls.map Role.of) prog) :
      prog.text.length = (texts .text .text (ls.map Role.of)).countP (¬LabelOnly ·) := by
    obtain ⟨ps, attached, words⟩ := yields.text
    rw [length_of_words words, length_of_attach attached]
  have left : (texts .text .text (Role.of r :: post.map Role.of)).countP (¬LabelOnly ·) ≤
      (texts .text .text (post.map Role.of)).countP (¬LabelOnly ·) := by
    rcases role_of_directiveLine directive with ignored | ⟨seg, marker⟩
    · simp only [ignored, texts, Nat.le_refl]
    · rw [marker, texts]
      exact (texts_suffix .text seg _).sublist.countP_le
  have first := count before
  have second := count after
  rw [labelled.texts_before, text, texts, if_pos rfl, List.countP_append,
    List.countP_cons_of_pos (by simpa using more)] at first
  rw [labelled.texts_apart, text, texts, if_pos rfl, List.countP_append,
    List.countP_cons_of_neg (by simpa [labelOnly_trim] using only)] at second
  omega

end Labelled

/-- When labels can be put on a line before the one that they stand on. -/
theorem yields_apart_iff (labelled : Labelled pre p r)
    (yields : Yields ((pre ++ (p ++ r) :: post).map Role.of) prog) :
    Yields ((pre ++ p :: r :: post).map Role.of) prog ↔ Movable pre p r := by
  constructor
  · intro apart text
    exact ⟨labelled.labelOnly_of_yields text apart,
      labelled.not_directiveLine_of_yields text yields apart⟩
  · intro movable
    cases segment : segmentAt .text pre pre.length with
    | data => exact labelled.yields_apart_of_data segment yields
    | text =>
      obtain ⟨only, other⟩ := movable segment
      exact labelled.yields_apart_of_text segment only other yields

end Apart

end Mips.Assembly
