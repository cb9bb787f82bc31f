import Mips.Proofs.Assembly.Peeling

namespace Mips.Assembly

variable {p b rest : List Char} {names : List (List Char)}

theorem count_colon_of_blank (blank : ∀ c ∈ b, Text.isBlank c = true) : b.count ':' = 0 :=
  List.count_eq_zero.mpr fun colon => absurd (blank _ colon) (by decide)

theorem LabelPrefix.count_colon (labels : LabelPrefix p names) : p.count ':' = names.length := by
  induction labels with
  | blank blank => exact count_colon_of_blank blank
  | @label l name r p names before named after _ ih =>
    have colonless : name.count ':' = 0 := List.count_eq_zero.mpr fun colon =>
      absurd ((filled_of_isName named).2 _ colon) (by decide)
    simp [count_colon_of_blank before, count_colon_of_blank after, colonless, ih]

theorem exists_parts_leadingLabels (line : List Char) :
    ∃ p b, line = p ++ ((leadingLabels line).2 ++ b) ∧ LabelPrefix p (leadingLabels line).1 ∧
      (∀ c ∈ b, Text.isBlank c = true) ∧
        leadingLabels (leadingLabels line).2 = ([], (leadingLabels line).2) := by
  obtain ⟨p, r, parts, labels, left⟩ := exists_labelPrefix line
  obtain ⟨b, blank, tail⟩ := Text.exists_trimEnd r
  have whole := labels.leadingLabels_append r
  rw [← parts] at whole
  have unlabelled : (leadingLabels r).1 = [] :=
    List.self_eq_append_right.mp (congrArg Prod.fst whole)
  have trimmed := leadingLabels_eq_trim unlabelled
  have rest : (leadingLabels line).2 = Text.trim r :=
    (congrArg Prod.snd whole).trans (congrArg Prod.snd trimmed)
  refine ⟨p, b, ?_, labels, blank, ?_⟩
  · rw [← left, ← tail]
    exact parts
  · rw [rest, leadingLabels_trim]
    exact trimmed

theorem LabelPrefix.leadingLabels_rest (labels : LabelPrefix p names)
    (ends : leadingLabels rest = ([], rest)) (blank : ∀ c ∈ b, Text.isBlank c = true) :
    leadingLabels (p ++ (rest ++ b)) = (names, rest) := by
  have same : leadingLabels (rest ++ b) = leadingLabels rest :=
    leadingLabels_of_blank_ends (l := []) (List.forall_mem_nil _) blank rest
  rw [labels.leadingLabels_append, same, ends, List.append_nil]

/-- The labels of a line are names. What follows them is trimmed and begins with no further label,
and each label takes one colon of the line, so that there are no more of them than colons. The line
is cut so that it is these labels, each with its colon and blanks around both, then the rest and
blanks, and labels and a rest that are joined so are found again. -/
theorem leadingLabels_outcome (line : List Char) :
    (∀ name ∈ (leadingLabels line).1, isName name = true) ∧
      Text.trim (leadingLabels line).2 = (leadingLabels line).2 ∧
      leadingLabels (leadingLabels line).2 = ([], (leadingLabels line).2) ∧
      line.count ':' = (leadingLabels line).1.length + (leadingLabels line).2.count ':' ∧
      ∀ names rest, leadingLabels line = (names, rest) ↔
        ∃ p b, line = p ++ (rest ++ b) ∧ LabelPrefix p names ∧
          (∀ c ∈ b, Text.isBlank c = true) ∧ leadingLabels rest = ([], rest) := by
  obtain ⟨p, b, parts, labels, blank, ends⟩ := exists_parts_leadingLabels line
  refine ⟨fun name => isName_of_mem_leadingLabels, ?_, ends, ?_, fun names rest => ⟨?_, ?_⟩⟩
  · have trimmed := leadingLabels_eq_trim (congrArg Prod.fst ends)
    exact congrArg Prod.snd (trimmed.symm.trans ends)
  · conv => lhs; rw [parts]
    rw [List.count_append, List.count_append, labels.count_colon, count_colon_of_blank blank,
      Nat.add_zero]
  · intro cut
    rw [cut] at parts labels ends
    exact ⟨p, b, parts, labels, blank, ends⟩
  · rintro ⟨p, b, rfl, labels, blank, ends⟩
    exact labels.leadingLabels_rest ends blank

theorem leadingLabels_outcome_stacked :
    leadingLabels "  a :\tb.1:: nop : ".toList = ([['a'], "b.1".toList], ": nop :".toList) ∧
      isName "b.1".toList = true := by
  obtain ⟨names, _, _, _, cut⟩ := leadingLabels_outcome "  a :\tb.1:: nop : ".toList
  have first : isName ['a'] = true := by decide
  have second : isName "b.1".toList = true := by decide
  have space : ∀ c ∈ [' '], Text.isBlank c = true := List.forall_mem_singleton.mpr rfl
  have tab : ∀ c ∈ ['\t'], Text.isBlank c = true := List.forall_mem_singleton.mpr rfl
  have behind : LabelPrefix "\tb.1:".toList ["b.1".toList] :=
    .label (r := []) tab second (List.forall_mem_nil _) (.blank (List.forall_mem_nil _))
  have labels : LabelPrefix "  a :\tb.1:".toList [['a'], "b.1".toList] :=
    .label (l := [' ', ' ']) (List.forall_mem_cons.mpr ⟨rfl, space⟩) first space behind
  have found := (cut [['a'], "b.1".toList] ": nop :".toList).mpr
    ⟨_, [' '], rfl, labels, space, by decide +kernel⟩
  rw [found] at names
  exact ⟨found, names _ (by decide)⟩

end Mips.Assembly
