import Mips.Proofs.Assembly.Labels
import Mips.Assembly.Segments
import Mips.Assembly.Statement

namespace Mips.Assembly

def isTokenChar (c : Char) : Bool :=
  c.isAlphanum || c == '$' || c == '-' || c == '+' || c == '(' || c == ')'

structure IsToken (tok : List Char) : Prop where
  filled : tok ≠ []
  chars : ∀ c ∈ tok, isTokenChar c = true

/-- A line of tokens with commas and spaces between them. -/
structure IsPlain (s : List Char) : Prop where
  chars : ∀ c ∈ s, isTokenChar c = true ∨ c = ',' ∨ c = ' '
  first : ∃ c, s.head? = some c ∧ isTokenChar c = true
  last : ∃ c, s.getLast? = some c ∧ isTokenChar c = true

theorem toNat_of_isTokenChar {c : Char} (h : isTokenChar c = true) :
    35 < c.toNat ∧ c.toNat < 123 ∧ c ≠ ',' ∧ c ≠ '.' ∧ c ≠ ':' := by
  have other {x : Char} (differs : c.toNat ≠ x.toNat) : c ≠ x := fun same => differs (same ▸ rfl)
  simp only [isTokenChar, Bool.or_eq_true, Numeral.isAlphanum_iff, beq_iff_eq] at h
  rcases h with ((((within | rfl) | rfl) | rfl) | rfl) | rfl
  · have comma : ','.toNat = 44 := rfl
    have dot : '.'.toNat = 46 := rfl
    have colon : ':'.toNat = 58 := rfl
    exact ⟨by omega, by omega, other (by omega), other (by omega), other (by omega)⟩
  all_goals decide

theorem isBlank_of_isTokenChar {c : Char} (h : isTokenChar c = true) : Text.isBlank c = false := by
  obtain ⟨lo, hi, _⟩ := toNat_of_isTokenChar h
  simp only [Text.isBlank, Bool.or_eq_false_iff, Bool.and_eq_false_iff, decide_eq_false_iff_not,
    beq_eq_false_iff_ne]
  omega

theorem separator_of_isTokenChar {c : Char} (h : isTokenChar c = true) :
    (c == ',' || Text.isBlank c) = false := by
  have comma := (toNat_of_isTokenChar h).2.2.1
  rw [isBlank_of_isTokenChar h, Bool.or_false, beq_eq_false_iff_ne]
  exact comma

theorem IsToken.cons {c : Char} {tok : List Char} (hc : isTokenChar c = true)
    (token : IsToken tok) : IsToken (c :: tok) :=
  ⟨List.cons_ne_nil _ _, List.forall_mem_cons.mpr ⟨hc, token.chars⟩⟩

namespace IsPlain

variable {s t : List Char}

theorem of_isToken (token : IsToken s) : IsPlain s := by
  refine ⟨fun c hc => .inl (token.chars c hc), ⟨s.head token.filled, ?_, ?_⟩,
    ⟨s.getLast token.filled, ?_, ?_⟩⟩
  · exact List.head?_eq_some_head token.filled
  · exact token.chars _ (List.head_mem token.filled)
  · exact List.getLast?_eq_some_getLast token.filled
  · exact token.chars _ (List.getLast_mem token.filled)

theorem append (before : IsPlain s) {glue : List Char} (seps : ∀ c ∈ glue, c = ',' ∨ c = ' ')
    (after : IsPlain t) : IsPlain (s ++ (glue ++ t)) := by
  obtain ⟨c, first, hc⟩ := before.first
  obtain ⟨d, last, hd⟩ := after.last
  refine ⟨?_, ⟨c, ?_, hc⟩, ⟨d, ?_, hd⟩⟩
  · refine List.forall_mem_append.mpr ⟨before.chars, List.forall_mem_append.mpr ⟨?_, after.chars⟩⟩
    exact fun x hx => .inr (seps x hx)
  · rw [List.head?_append, first, Option.some_or]
  · rw [List.getLast?_append, List.getLast?_append, last, Option.some_or, Option.some_or]

theorem intercalate {glue : List Char} (seps : ∀ c ∈ glue, c = ',' ∨ c = ' ')
    {toks : List (List Char)} (filled : toks ≠ []) (tokens : ∀ tok ∈ toks, IsToken tok) :
    IsPlain (glue.intercalate toks) := by
  induction toks with
  | nil => exact absurd rfl filled
  | cons tok toks ih =>
    obtain ⟨token, tokens⟩ := List.forall_mem_cons.mp tokens
    cases toks with
    | nil =>
      rw [List.intercalate_singleton]
      exact of_isToken token
    | cons next toks =>
      rw [List.intercalate_cons_cons, List.append_assoc]
      exact (of_isToken token).append seps (ih (List.cons_ne_nil _ _) tokens)

theorem ne_nil (plain : IsPlain s) : s ≠ [] := by
  obtain ⟨c, first, _⟩ := plain.first
  rintro rfl
  cases first

theorem not_mem (plain : IsPlain s) {c : Char}
    (special : isTokenChar c = false ∧ c ≠ ',' ∧ c ≠ ' ') :
    c ∉ s := by
  intro hc
  rcases plain.chars c hc with token | comma | space
  · rw [special.1] at token
    cases token
  · exact special.2.1 comma
  · exact special.2.2 space

theorem isBlank_first (plain : IsPlain s) : ∀ c, s.head? = some c → Text.isBlank c = false := by
  obtain ⟨c, first, token⟩ := plain.first
  intro d hd
  obtain rfl := Option.some.inj (first.symm.trans hd)
  exact isBlank_of_isTokenChar token

theorem isBlank_last (plain : IsPlain s) : ∀ c, s.getLast? = some c → Text.isBlank c = false := by
  obtain ⟨c, last, token⟩ := plain.last
  intro d hd
  obtain rfl := Option.some.inj (last.symm.trans hd)
  exact isBlank_of_isTokenChar token

theorem leadingLabels_eq (plain : IsPlain s) : leadingLabels s = ([], s) :=
  leadingLabels_of_unlabelled (plain.not_mem (by decide)) plain.isBlank_first plain.isBlank_last

end IsPlain

theorem beforeComment_append_of_clean {s : List Char} (quote : '"' ∉ s) (mark : '#' ∉ s)
    (t : List Char) : beforeComment false (s ++ t) = s ++ beforeComment false t := by
  induction s with
  | nil => rfl
  | cons c s ih =>
    obtain ⟨hq, quote⟩ := not_or.mp (mt List.mem_cons.mpr quote)
    obtain ⟨hm, mark⟩ := not_or.mp (mt List.mem_cons.mpr mark)
    rw [List.cons_append, beforeComment, ih quote mark]
    · rfl
    · exact fun h => hq h.symm
    · nofun
    · exact fun _ h => hm h.symm

theorem beforeComment_of_clean {s : List Char} (quote : '"' ∉ s) (mark : '#' ∉ s) :
    beforeComment false s = s := by
  have whole := beforeComment_append_of_clean quote mark []
  rwa [beforeComment, List.append_nil] at whole

theorem beginsWith_of_head? {word s : List Char} {c d : Char} (begins : word.head? = some c)
    (first : s.head? = some d) (other : c ≠ d) : beginsWith word s = false := by
  cases word with
  | nil => cases begins
  | cons w word =>
    cases s with
    | nil => rfl
    | cons x s =>
      obtain rfl : w = c := Option.some.inj begins
      obtain rfl : x = d := Option.some.inj first
      have differ : (w == x) = false := beq_eq_false_iff_ne.mpr other
      rw [beginsWith, List.isPrefixOf_cons_cons, differ, Bool.false_and, Bool.false_and]

theorem IsPlain.role_eq {s : List Char} (plain : IsPlain s) : Role.of s = .statement s := by
  obtain ⟨c, first, token⟩ := plain.first
  have other : '.' ≠ c := (toNat_of_isTokenChar token).2.2.2.1.symm
  have directive (word : List Char) (begins : word.head? = some '.') :
      beginsWith word s = false := beginsWith_of_head? begins first other
  have uncommented : withoutComment s = s :=
    beforeComment_of_clean (plain.not_mem (by decide)) (plain.not_mem (by decide))
  simp only [Role.of, uncommented, Text.trim_eq_self plain.isBlank_first plain.isBlank_last,
    if_neg plain.ne_nil, directive ".data".toList rfl, directive ".text".toList rfl,
    directive ".globl".toList rfl, directive ".global".toList rfl, Bool.false_eq_true, if_false,
    Bool.or_self]

theorem statements_plain {seg : Segment} {ls : List (Nat × List Char)}
    (plain : ∀ l ∈ ls, IsPlain l.2) :
    statements seg ls = ls.map fun l => (seg, ⟨l.1, l.2⟩) := by
  induction ls with
  | nil => rfl
  | cons l ls ih =>
    obtain ⟨hl, plain⟩ := List.forall_mem_cons.mp plain
    simp only [statements, hl.role_eq, ih plain, List.map_cons]

theorem linesOf_map (seg other : Segment) (ls : List Line) :
    linesOf seg (ls.map fun l => (other, l)) = if other = seg then ls else [] := by
  by_cases same : other = seg
  · rw [if_pos same]
    induction ls with
    | nil => rfl
    | cons l ls ih =>
      rw [linesOf] at ih
      simp only [linesOf, List.map_cons, List.filterMap_cons, if_pos same, ih]
  · rw [if_neg same, linesOf, List.filterMap_map, List.filterMap_eq_nil_iff]
    intro l _
    exact if_neg same

theorem attachLabels_plain {ls : List Line} (plain : ∀ l ∈ ls, IsPlain l.text) :
    attachLabels [] ls = .ok (ls.map fun l => ⟨l.number, spaced l.text⟩) := by
  induction ls with
  | nil => rfl
  | cons l ls ih =>
    obtain ⟨hl, plain⟩ := List.forall_mem_cons.mp plain
    simp only [attachLabels, hl.leadingLabels_eq, ih plain, behind, List.foldl_nil, ne_eq,
      not_true_eq_false, and_false, if_false, List.map_cons]
    rfl

theorem spaced_plain {s : List Char} (plain : IsPlain s) : IsPlain (spaced s) := by
  have kept {c : Char} (token : isTokenChar c = true) :
      (if c = ',' ∨ c = '\t' then ' ' else c) = c := by
    apply if_neg
    rintro (rfl | rfl)
    · cases token
    · cases token
  obtain ⟨c, first, hc⟩ := plain.first
  obtain ⟨d, last, hd⟩ := plain.last
  refine ⟨?_, ⟨c, ?_, hc⟩, ⟨d, ?_, hd⟩⟩
  · intro x hx
    obtain ⟨y, hy, rfl⟩ := List.mem_map.mp hx
    rcases plain.chars y hy with token | rfl | rfl
    · exact .inl (by rwa [kept token])
    · exact .inr (.inr rfl)
    · exact .inr (.inr rfl)
  · rw [spaced, List.head?_map, first, Option.map_some, kept hc]
  · rw [spaced, List.getLast?_map, last, Option.map_some, kept hd]

theorem tokens_spaced (s : List Char) : tokens (spaced s) = tokens s := by
  apply Text.fields_map
  · intro c
    split
    · rename_i separates
      rcases separates with rfl | rfl <;> decide
    · rfl
  · intro c other
    apply if_neg
    rintro (rfl | rfl) <;> revert other <;> decide

theorem ofText_plain {ls : List (List Char)} (plain : ∀ l ∈ ls, IsPlain l) :
    Segments.ofText (['\n'].intercalate ls) =
      .ok { text := (Text.numbered ls).map fun l => ⟨l.1, spaced l.2⟩ } := by
  have cut : Text.lines (['\n'].intercalate ls) = ls := by
    apply Text.lines_intercalate
    · exact fun l hl => (plain l hl).ne_nil
    · exact fun l hl => (plain l hl).not_mem (by decide)
    · intro l hl ends
      exact (plain l hl).not_mem (by decide) (List.mem_of_getLast? ends)
  have numbered : ∀ l ∈ Text.numbered ls, IsPlain l.2 := by
    intro l hl
    obtain ⟨⟨x, n⟩, hx, rfl⟩ := List.mem_map.mp hl
    exact plain x (List.fst_mem_of_mem_zipIdx hx)
  have lines : statements .text (Text.numbered ls) =
      ((Text.numbered ls).map fun l => (⟨l.1, l.2⟩ : Line)).map fun l => (Segment.text, l) := by
    rw [statements_plain numbered, List.map_map]
    rfl
  have attached := attachLabels_plain (List.forall_mem_map.mpr numbered :
    ∀ l ∈ (Text.numbered ls).map fun l => (⟨l.1, l.2⟩ : Line), IsPlain l.text)
  rw [List.map_map] at attached
  rw [Segments.ofText, cut, lines]
  simp only [linesOf_map, if_true, reduceCtorEq, if_false, attached]
  rfl

end Mips.Assembly
