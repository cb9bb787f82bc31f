import Mips.Proofs.Assembly.Plain

/-!
Labels are peeled from a line twice: as it was written, and once it stands behind the labels that
were carried to it, with blanks for its commas and tabs. Main statement:
`leadingLabels_spaced_behind`, the second peeling finds the labels that were carried and then those
of the line.
-/
namespace Mips.Assembly

theorem isBlank_of_isNameChar {c : Char} (h : isNameChar c = true) :
    Text.isBlank c = false ∧ c ≠ ',' := by
  simp only [isNameChar, Bool.or_eq_true, beq_iff_eq] at h
  rcases h with (letter | rfl) | rfl
  · have token : isTokenChar c = true := by simp only [isTokenChar, letter, Bool.true_or]
    exact ⟨isBlank_of_isTokenChar token, (toNat_of_isTokenChar token).2.2.1⟩
  all_goals decide

theorem filled_of_isName {name : List Char} (named : isName name = true) :
    name ≠ [] ∧ ∀ c ∈ name, isNameChar c = true := by
  cases name with
  | nil => cases named
  | cons c cs =>
    simp only [isName, Bool.and_eq_true] at named
    exact ⟨List.cons_ne_nil _ _, List.all_eq_true.mp named.2⟩

theorem firstLabel?_eq_some_iff {s name rest : List Char} :
    firstLabel? s = some (name, rest) ↔ ∃ before after, s = before ++ ':' :: after ∧
      ':' ∉ before ∧ Text.trim before = name ∧ isName name = true ∧
        Text.trimStart after = rest := by
  constructor
  · intro found
    unfold firstLabel? at found
    split at found
    · rename_i before after cut
      obtain ⟨c, parts, colon, clean⟩ := Text.splitAtFirst_eq_some_iff.mp cut
      obtain rfl : c = ':' := by simpa using colon
      split at found
      · rename_i named
        obtain ⟨rfl, rfl⟩ := Prod.mk.inj (Option.some.inj found)
        exact ⟨before, after, parts, fun hc => absurd (clean _ hc) (by decide), rfl, named, rfl⟩
      · cases found
    · cases found
  · rintro ⟨before, after, rfl, clean, rfl, named, rfl⟩
    have cut : Text.splitAtFirst (· == ':') (before ++ ':' :: after) = (before, some after) := by
      refine Text.splitAtFirst_append (fun x hx => ?_) rfl
      exact beq_eq_false_iff_ne.mpr fun colon => clean (colon ▸ hx)
    simp only [firstLabel?, cut, named, if_true]

theorem spaced_append (s t : List Char) : spaced (s ++ t) = spaced s ++ spaced t := List.map_append

theorem isBlank_of_mem_spaced {s : List Char} (blank : ∀ c ∈ s, Text.isBlank c = true) :
    ∀ c ∈ spaced s, Text.isBlank c = true := by
  intro c hc
  obtain ⟨d, hd, rfl⟩ := List.mem_map.mp hc
  split
  · decide
  · exact blank d hd

theorem spaced_of_isName {name : List Char} (named : isName name = true) : spaced name = name := by
  obtain ⟨_, chars⟩ := filled_of_isName named
  conv => rhs; rw [← List.map_id name]
  apply List.map_congr_left
  intro c hc
  obtain ⟨clean, comma⟩ := isBlank_of_isNameChar (chars c hc)
  apply if_neg
  rintro (rfl | rfl)
  · exact comma rfl
  · cases clean

theorem mem_spaced_iff {c : Char} (other : c ≠ ',' ∧ c ≠ '\t' ∧ c ≠ ' ') {s : List Char} :
    c ∈ spaced s ↔ c ∈ s := by
  rw [spaced, List.mem_map]
  constructor
  · rintro ⟨d, hd, same⟩
    split at same
    · exact absurd same.symm other.2.2
    · exact same ▸ hd
  · intro hc
    exact ⟨c, hc, if_neg (not_or.mpr ⟨other.1, other.2.1⟩)⟩

theorem trim_spaced {s : List Char} (named : isName (Text.trim s) = true) :
    Text.trim (spaced s) = Text.trim s := by
  obtain ⟨l, r, before, after, parts⟩ := Text.exists_trim s
  obtain ⟨filled, chars⟩ := filled_of_isName named
  have apart : spaced s = spaced l ++ (Text.trim s ++ spaced r) := by
    conv => lhs; rw [parts, spaced_append, spaced_append, spaced_of_isName named]
  rw [apart]
  exact Text.trim_between (isBlank_of_mem_spaced before) (isBlank_of_mem_spaced after) filled
    fun c hc => (isBlank_of_isNameChar (chars c hc)).1

theorem trimStart_spaced_append (s t : List Char) :
    Text.trimStart (spaced (Text.trimStart s ++ t)) = Text.trimStart (spaced (s ++ t)) := by
  obtain ⟨l, blank, parts⟩ := Text.exists_trimStart s
  conv => rhs; rw [parts, List.append_assoc, spaced_append]
  rw [Text.trimStart_append_of_blank (isBlank_of_mem_spaced blank)]

theorem firstLabel?_spaced_append {s name rest : List Char}
    (found : firstLabel? s = some (name, rest)) (t : List Char) :
    firstLabel? (Text.trimStart (spaced (s ++ t))) =
      some (name, Text.trimStart (spaced (rest ++ t))) := by
  obtain ⟨before, after, rfl, clean, rfl, named, rfl⟩ := firstLabel?_eq_some_iff.mp found
  have parts : Text.trimStart (spaced ((before ++ ':' :: after) ++ t)) =
      Text.trimStart (spaced before) ++ ':' :: spaced (after ++ t) := by
    rw [List.append_assoc, spaced_append]
    exact Text.trimStart_append_cons rfl
  refine firstLabel?_eq_some_iff.mpr ⟨_, _, parts, ?_, ?_, named, ?_⟩
  · exact fun hc => clean ((mem_spaced_iff (by decide)).mp ((List.dropWhile_sublist _).subset hc))
  · rw [Text.trim_trimStart, trim_spaced named]
  · exact (trimStart_spaced_append after t).symm

theorem peelFrom_of_firstLabel? {s name rest : List Char}
    (found : firstLabel? s = some (name, rest)) :
    peelFrom s = (name :: (peelFrom rest).1, (peelFrom rest).2) := by
  rw [peelFrom]
  split
  · rename_i again
    obtain ⟨rfl, rfl⟩ := Prod.mk.inj (Option.some.inj (again.symm.trans found))
    rfl
  · rename_i none
    cases none.symm.trans found

theorem leadingLabels_spaced_append_of_blank {l : List Char}
    (blank : ∀ c ∈ l, Text.isBlank c = true) (t : List Char) :
    leadingLabels (spaced (l ++ t)) = leadingLabels (spaced t) := by
  rw [leadingLabels, spaced_append, Text.trimStart_append_of_blank (isBlank_of_mem_spaced blank)]
  rfl

/-- The labels of a text are found again, and the second peeling goes on with what the first one
left. -/
theorem exists_leadingLabels_spaced_append (s t : List Char) :
    ∃ r, Text.trimEnd r = (leadingLabels s).2 ∧ leadingLabels (spaced (s ++ t)) =
      ((leadingLabels s).1 ++ (leadingLabels (spaced (r ++ t))).1,
        (leadingLabels (spaced (r ++ t))).2) := by
  have peeled (s : List Char) : ∃ r, Text.trimEnd r = (peelFrom s).2 ∧
      leadingLabels (spaced (s ++ t)) = ((peelFrom s).1 ++ (leadingLabels (spaced (r ++ t))).1,
        (leadingLabels (spaced (r ++ t))).2) := by
    fun_induction peelFrom s with
    | case1 s name rest found peeled ih =>
      obtain ⟨r, left, again⟩ := ih
      refine ⟨r, left, ?_⟩
      rw [leadingLabels, peelFrom_of_firstLabel? (firstLabel?_spaced_append found t)]
      rw [leadingLabels] at again
      rw [again]
      rfl
    | case2 s none => exact ⟨s, rfl, rfl⟩
  obtain ⟨r, left, again⟩ := peeled (Text.trimStart s)
  refine ⟨r, left, ?_⟩
  rw [leadingLabels, trimStart_spaced_append] at again
  exact again

theorem prefix_leadingLabels_spaced (s : List Char) :
    (leadingLabels s).1 <+: (leadingLabels (spaced s)).1 := by
  obtain ⟨r, _, again⟩ := exists_leadingLabels_spaced_append s []
  rw [List.append_nil] at again
  rw [again]
  exact List.prefix_append _ _

def LabelOnly (s : List Char) : Prop := (leadingLabels s).2 = [] ∧ (leadingLabels s).1 ≠ []

instance (s : List Char) : Decidable (LabelOnly s) := inferInstanceAs (Decidable (_ ∧ _))

theorem LabelOnly.leadingLabels_append {s : List Char} (only : LabelOnly s) (t : List Char) :
    leadingLabels (spaced (s ++ ' ' :: t)) =
      ((leadingLabels s).1 ++ (leadingLabels (spaced t)).1, (leadingLabels (spaced t)).2) := by
  obtain ⟨r, left, again⟩ := exists_leadingLabels_spaced_append s (' ' :: t)
  obtain ⟨b, blank, parts⟩ := Text.exists_trimEnd r
  rw [left, only.1, List.nil_append] at parts
  have gap : ∀ c ∈ r ++ [' '], Text.isBlank c = true := by
    rw [parts]
    exact List.forall_mem_append.mpr ⟨blank, List.forall_mem_singleton.mpr (by decide)⟩
  rw [again, List.append_cons, leadingLabels_spaced_append_of_blank gap]

def carried (held : List Line) : List (List Char) :=
  held.reverse.flatMap fun l => (leadingLabels l.text).1

theorem carried_cons (l : Line) (held : List Line) :
    carried (l :: held) = carried held ++ (leadingLabels l.text).1 := by
  simp [carried]

theorem leadingLabels_spaced_behind {held : List Line} (only : ∀ l ∈ held, LabelOnly l.text)
    (t : List Char) : leadingLabels (spaced (behind held t)) =
      (carried held ++ (leadingLabels (spaced t)).1, (leadingLabels (spaced t)).2) := by
  induction held generalizing t with
  | nil => rfl
  | cons l held ih =>
    obtain ⟨hl, only⟩ := List.forall_mem_cons.mp only
    have later : behind (l :: held) t = behind held (l.text ++ ' ' :: t) := rfl
    rw [later, ih only, hl.leadingLabels_append, ← List.append_assoc, ← carried_cons]

/-- Labels with their colons, blanks around these, and nothing else. -/
inductive LabelPrefix : List Char → List (List Char) → Prop
  | blank {l : List Char} (blank : ∀ c ∈ l, Text.isBlank c = true) : LabelPrefix l []
  | label {l name r p : List Char} {names : List (List Char)}
      (before : ∀ c ∈ l, Text.isBlank c = true) (named : isName name = true)
      (after : ∀ c ∈ r, Text.isBlank c = true) (rest : LabelPrefix p names) :
      LabelPrefix (l ++ (name ++ (r ++ ':' :: p))) (name :: names)

namespace LabelPrefix

variable {p : List Char} {names : List (List Char)}

theorem leadingLabels_append (labels : LabelPrefix p names) (t : List Char) :
    leadingLabels (p ++ t) = (names ++ (leadingLabels t).1, (leadingLabels t).2) := by
  induction labels with
  | blank blank => rw [leadingLabels, Text.trimStart_append_of_blank blank]; rfl
  | @label l name r p names before named after rest ih =>
    obtain ⟨filled, chars⟩ := filled_of_isName named
    have clean : ∀ c ∈ name, Text.isBlank c = false := fun c hc =>
      (isBlank_of_isNameChar (chars c hc)).1
    have colonless : ':' ∉ name ++ r := by
      rw [List.mem_append]
      rintro (letter | blank)
      · exact absurd (chars _ letter) (by decide)
      · exact absurd (after _ blank) (by decide)
    have parts : l ++ (name ++ (r ++ ':' :: p)) ++ t = l ++ ((name ++ r) ++ ':' :: (p ++ t)) := by
      simp only [List.append_assoc, List.cons_append]
    have started : Text.trimStart ((name ++ r) ++ ':' :: (p ++ t)) =
        (name ++ r) ++ ':' :: (p ++ t) := by
      apply Text.trimStart_eq_self
      obtain ⟨c, name, rfl⟩ := List.exists_cons_of_ne_nil filled
      exact fun d first => Option.some.inj first ▸ clean c List.mem_cons_self
    have trimmed : Text.trim (name ++ r) = name :=
      Text.trim_between (l := []) (List.forall_mem_nil _) after filled clean
    have found : firstLabel? ((name ++ r) ++ ':' :: (p ++ t)) =
        some (name, Text.trimStart (p ++ t)) :=
      firstLabel?_eq_some_iff.mpr ⟨_, _, rfl, colonless, trimmed, named, rfl⟩
    rw [leadingLabels] at ih
    rw [parts, leadingLabels, Text.trimStart_append_of_blank before, started,
      peelFrom_of_firstLabel? found, ih]
    rfl

theorem leadingLabels_eq (labels : LabelPrefix p names) : leadingLabels p = (names, []) := by
  have whole := labels.leadingLabels_append []
  rw [List.append_nil] at whole
  rw [whole, leadingLabels_of_unlabelled List.not_mem_nil nofun nofun, List.append_nil]

theorem of_mem (labels : LabelPrefix p names) {c : Char} (there : c ∈ p) :
    isNameChar c = true ∨ Text.isBlank c = true ∨ c = ':' := by
  induction labels with
  | blank blank => exact .inr (.inl (blank c there))
  | label before named after _ ih =>
    simp only [List.mem_append, List.mem_cons] at there
    rcases there with gap | letter | gap | colon | rest
    · exact .inr (.inl (before c gap))
    · exact .inl ((filled_of_isName named).2 c letter)
    · exact .inr (.inl (after c gap))
    · exact .inr (.inr colon)
    · exact ih rest

theorem colon_mem (labels : LabelPrefix p names) (some : names ≠ []) : ':' ∈ p := by
  cases labels with
  | blank => exact absurd rfl some
  | label => simp

theorem blank_append (labels : LabelPrefix p names) {b : List Char}
    (blank : ∀ c ∈ b, Text.isBlank c = true) : LabelPrefix (b ++ p) names := by
  cases labels with
  | blank rest => exact .blank (List.forall_mem_append.mpr ⟨blank, rest⟩)
  | label before named after rest =>
    rw [← List.append_assoc]
    exact .label (List.forall_mem_append.mpr ⟨blank, before⟩) named after rest

theorem append_blank (labels : LabelPrefix p names) {b : List Char}
    (blank : ∀ c ∈ b, Text.isBlank c = true) : LabelPrefix (p ++ b) names := by
  induction labels with
  | blank rest => exact .blank (List.forall_mem_append.mpr ⟨rest, blank⟩)
  | label before named after _ ih =>
    rw [List.append_assoc, List.append_assoc, List.append_assoc, List.cons_append]
    exact .label before named after ih

theorem spaced (labels : LabelPrefix p names) : LabelPrefix (spaced p) names := by
  induction labels with
  | blank blank => exact .blank (isBlank_of_mem_spaced blank)
  | label before named after _ ih =>
    have colon (s : List Char) : Assembly.spaced (':' :: s) = ':' :: Assembly.spaced s := rfl
    rw [spaced_append, spaced_append, spaced_append, spaced_of_isName named, colon]
    exact .label (isBlank_of_mem_spaced before) named (isBlank_of_mem_spaced after) ih

end LabelPrefix

theorem exists_labelPrefix (s : List Char) : ∃ p r, s = p ++ r ∧
    LabelPrefix p (leadingLabels s).1 ∧ Text.trimEnd r = (leadingLabels s).2 := by
  have peeled (s : List Char) : ∃ p r, s = p ++ r ∧ LabelPrefix p (peelFrom s).1 ∧
      Text.trimEnd r = (peelFrom s).2 := by
    fun_induction peelFrom s with
    | case1 s name rest found peeled ih =>
      obtain ⟨before, after, rfl, _, rfl, named, rfl⟩ := firstLabel?_eq_some_iff.mp found
      obtain ⟨p, r, cut, labels, left⟩ := ih
      obtain ⟨b, gap, parts⟩ := Text.exists_trimStart after
      obtain ⟨l, l', first, last, name⟩ := Text.exists_trim before
      refine ⟨l ++ (Text.trim before ++ (l' ++ ':' :: (b ++ p))), r, ?_,
        .label first named last (labels.blank_append gap), left⟩
      conv => lhs; rw [name, parts, cut]
      simp only [List.append_assoc, List.cons_append]
    | case2 s none => exact ⟨[], s, rfl, .blank (List.forall_mem_nil _), rfl⟩
  obtain ⟨p, r, cut, labels, left⟩ := peeled (Text.trimStart s)
  obtain ⟨b, blank, parts⟩ := Text.exists_trimStart s
  refine ⟨b ++ p, r, ?_, labels.blank_append blank, left⟩
  rw [List.append_assoc, ← cut, ← parts]

section Blanks

variable {l r s : List Char}

theorem firstLabel?_trimStart (s : List Char) :
    firstLabel? (Text.trimStart s) = firstLabel? s := by
  obtain ⟨b, blank, parts⟩ := Text.exists_trimStart s
  apply Option.ext
  rintro ⟨name, rest⟩
  rw [firstLabel?_eq_some_iff, firstLabel?_eq_some_iff]
  constructor
  · rintro ⟨before, after, cut, clean, trimmed, named, left⟩
    refine ⟨b ++ before, after, ?_, ?_, ?_, named, left⟩
    · rw [List.append_assoc, ← cut, ← parts]
    · rw [List.mem_append]
      rintro (gap | colon)
      · exact absurd (blank _ gap) (by decide)
      · exact clean colon
    · have same := Text.trim_append_of_blank (s := before) blank (List.forall_mem_nil _)
      rwa [List.append_nil, trimmed] at same
  · rintro ⟨before, after, rfl, clean, trimmed, named, left⟩
    refine ⟨Text.trimStart before, after, Text.trimStart_append_cons rfl, ?_, ?_, named, left⟩
    · exact fun colon => clean ((List.dropWhile_sublist _).subset colon)
    · rw [Text.trim_trimStart, trimmed]

theorem firstLabel?_append_of_blank (unlabelled : firstLabel? s = none)
    (after : ∀ c ∈ r, Text.isBlank c = true) : firstLabel? (s ++ r) = none := by
  have clean : ':' ∉ r := fun colon => absurd (after _ colon) (by decide)
  rw [Option.eq_none_iff_forall_ne_some]
  rintro ⟨name, rest⟩ found
  obtain ⟨front, behind, cut, colonless, trimmed, named, _⟩ := firstLabel?_eq_some_iff.mp found
  rcases List.append_eq_append_iff.mp cut with ⟨a, _, later⟩ | ⟨a, rfl, later⟩
  · exact clean (later ▸ List.mem_append_right _ List.mem_cons_self)
  · cases a with
    | nil =>
      rw [List.nil_append] at later
      exact clean (later ▸ List.mem_cons_self)
    | cons x a =>
      obtain ⟨rfl, _⟩ := List.cons.inj later
      have earlier := firstLabel?_eq_some_iff.mpr ⟨front, a, rfl, colonless, trimmed, named, rfl⟩
      cases unlabelled.symm.trans earlier

theorem leadingLabels_fst_eq_nil_iff : (leadingLabels s).1 = [] ↔ firstLabel? s = none := by
  rw [leadingLabels, peelFrom, firstLabel?_trimStart]
  constructor
  · intro unlabelled
    split at unlabelled
    · cases unlabelled
    · assumption
  · intro none
    split
    · rename_i found
      cases none.symm.trans found
    · rfl

theorem leadingLabels_eq_trim (unlabelled : (leadingLabels s).1 = []) :
    leadingLabels s = ([], Text.trim s) := by
  have none := leadingLabels_fst_eq_nil_iff.mp unlabelled
  rw [← firstLabel?_trimStart] at none
  rw [leadingLabels, peelFrom]
  split
  · rename_i found
    cases none.symm.trans found
  · rfl

/-- Blanks at the ends of a text change nothing about its labels. -/
theorem leadingLabels_of_blank_ends (before : ∀ c ∈ l, Text.isBlank c = true)
    (after : ∀ c ∈ r, Text.isBlank c = true) (s : List Char) :
    leadingLabels (l ++ (s ++ r)) = leadingLabels s := by
  obtain ⟨p, q, parts, labels, _⟩ := exists_labelPrefix s
  have whole := labels.leadingLabels_append q
  rw [← parts] at whole
  have unlabelled : (leadingLabels q).1 = [] := by
    have names := congrArg Prod.fst whole
    exact List.self_eq_append_right.mp names
  have still : (leadingLabels (q ++ r)).1 = [] :=
    leadingLabels_fst_eq_nil_iff.mpr
      (firstLabel?_append_of_blank (leadingLabels_fst_eq_nil_iff.mp unlabelled) after)
  have trimmed : Text.trim (q ++ r) = Text.trim q :=
    Text.trim_append_of_blank (l := []) (List.forall_mem_nil _) after
  have longer : leadingLabels (s ++ r) = leadingLabels s := by
    rw [whole, leadingLabels_eq_trim unlabelled]
    conv => lhs; rw [parts, List.append_assoc]
    rw [labels.leadingLabels_append, leadingLabels_eq_trim still, trimmed]
  rw [(LabelPrefix.blank before).leadingLabels_append, longer]
  rfl

theorem leadingLabels_trim (s : List Char) : leadingLabels (Text.trim s) = leadingLabels s := by
  obtain ⟨l, r, before, after, parts⟩ := Text.exists_trim s
  conv => rhs; rw [parts]
  exact (leadingLabels_of_blank_ends before after _).symm

theorem leadingLabels_spaced_trim (s : List Char) :
    leadingLabels (spaced (Text.trim s)) = leadingLabels (spaced s) := by
  obtain ⟨l, r, before, after, parts⟩ := Text.exists_trim s
  conv => rhs; rw [parts, spaced_append, spaced_append]
  exact (leadingLabels_of_blank_ends (isBlank_of_mem_spaced before)
    (isBlank_of_mem_spaced after) _).symm

end Blanks

theorem labelOnly_iff {s : List Char} :
    LabelOnly s ↔ ∃ names, names ≠ [] ∧ LabelPrefix s names := by
  constructor
  · rintro ⟨rest, labelled⟩
    obtain ⟨p, r, parts, labels, left⟩ := exists_labelPrefix s
    obtain ⟨b, blank, tail⟩ := Text.exists_trimEnd r
    rw [left, rest, List.nil_append] at tail
    refine ⟨_, labelled, ?_⟩
    conv => lhs; rw [parts, tail]
    exact labels.append_blank blank
  · rintro ⟨names, some, labels⟩
    rw [LabelOnly, labels.leadingLabels_eq]
    exact ⟨rfl, some⟩

end Mips.Assembly
