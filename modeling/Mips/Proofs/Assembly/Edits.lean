import Mathlib.Logic.Relation
import Mips.Proofs.Assembly.LabelLines

/-!
Edits of a source that change nothing about what it says. Main statement: `stable_of_assemble`, a
source that is assembled is still assembled to the same program after any number of them, and labels
may be put on a line of their own under a condition that is exact.
-/
namespace Mips.Assembly

structure Stretch where
  seg : Segment
  marker : List Char
  body : List (List Char)
  marks : Role.of marker = .marker seg
  unmarked : ∀ l ∈ body, (Role.of l).marker? = none

namespace Stretch

def lines (b : Stretch) : List (List Char) := b.marker :: b.body

def statements (b : Stretch) : List (List Char) := b.body.filterMap fun l => (Role.of l).statement?

end Stretch

def statementsIn (seg : Segment) (bs : List Stretch) : List (List Char) :=
  (bs.filter (·.seg = seg)).flatMap (·.statements)

/-- One edit of the lines of a source: a blank line or a line with nothing but a comment is
inserted, a comment or blanks are added to a line, labels are put on a line of their own, the first
lines are marked as text, or stretches change places but the statements of each segment do not. -/
inductive Edit : List (List Char) → List (List Char) → Prop
  | blankLine (pre post : List (List Char)) {l : List Char}
      (blank : ∀ c ∈ l, Text.isBlank c = true) : Edit (pre ++ post) (pre ++ l :: post)
  | commentLine (pre post : List (List Char)) {l : List Char}
      (blank : ∀ c ∈ l, Text.isBlank c = true) (t : List Char) :
      Edit (pre ++ post) (pre ++ (l ++ '#' :: t) :: post)
  | comment (pre post : List (List Char)) {l : List Char} (closed : literalOpen false l = false)
      (t : List Char) : Edit (pre ++ l :: post) (pre ++ (l ++ '#' :: t) :: post)
  | blanks (pre post : List (List Char)) {l before after : List Char}
      (first : ∀ c ∈ before, Text.isBlank c = true) (last : ∀ c ∈ after, Text.isBlank c = true) :
      Edit (pre ++ l :: post) (pre ++ (before ++ (l ++ after)) :: post)
  | labels (pre post : List (List Char)) {p r : List Char} (labelled : Labelled pre p r)
      (movable : Movable pre p r) : Edit (pre ++ (p ++ r) :: post) (pre ++ p :: r :: post)
  | mark (ls : List (List Char)) : Edit ls (".text".toList :: ls)
  | reorder (pre : List (List Char)) {bs bs' : List Stretch} (perm : bs.Perm bs')
      (order : ∀ seg, statementsIn seg bs' = statementsIn seg bs) :
      Edit (pre ++ bs.flatMap (·.lines)) (pre ++ bs'.flatMap (·.lines))

theorem texts_unmarked (seg start : Segment) {ls : List (List Char)}
    (unmarked : ∀ l ∈ ls, (Role.of l).marker? = none) :
    texts seg start (ls.map Role.of) =
      if start = seg then ls.filterMap fun l => (Role.of l).statement? else [] := by
  induction ls with
  | nil => rw [List.map_nil, texts, List.filterMap_nil, ite_self]
  | cons l ls ih =>
    obtain ⟨first, unmarked⟩ := List.forall_mem_cons.mp unmarked
    rw [List.map_cons, List.filterMap_cons]
    cases role : Role.of l with
    | ignored =>
      rw [texts, ih unmarked]
      rfl
    | marker next =>
      rw [role] at first
      cases first
    | statement t =>
      rw [texts, ih unmarked]
      split
      · rfl
      · rfl

theorem texts_stretches (seg start : Segment) (bs : List Stretch) :
    texts seg start ((bs.flatMap (·.lines)).map Role.of) = statementsIn seg bs := by
  induction bs generalizing start with
  | nil => rfl
  | cons b bs ih =>
    have own : texts seg start (b.lines.map Role.of) =
        if b.seg = seg then b.statements else [] := by
      rw [Stretch.lines, List.map_cons, b.marks, texts, texts_unmarked seg b.seg b.unmarked]
      rfl
    rw [List.flatMap_cons, texts_append, ih, own, statementsIn, statementsIn, List.filter_cons]
    by_cases same : b.seg = seg
    · rw [if_pos same, if_pos (by simpa using same), List.flatMap_cons]
    · rw [if_neg same, if_neg (by simpa using same), List.nil_append]

section Edits

variable {ls ls' pre post : List (List Char)} {l l' : List Char} {prog : Program}

theorem yields_of_ignored (ignored : Role.of l = .ignored)
    (yields : Yields ((pre ++ post).map Role.of) prog) :
    Yields ((pre ++ l :: post).map Role.of) prog := by
  have same (seg : Segment) : texts seg .text ((pre ++ l :: post).map Role.of) =
      texts seg .text ((pre ++ post).map Role.of) := by
    rw [texts_append, texts_append, List.map_cons, ignored, texts]
  exact yields.congr (same .data) (same .text)

theorem yields_of_same_role (same : Role.of l' = Role.of l)
    (yields : Yields ((pre ++ l :: post).map Role.of) prog) :
    Yields ((pre ++ l' :: post).map Role.of) prog := by
  rw [List.map_append, List.map_cons] at yields ⊢
  rwa [same]

theorem yields_of_edit (edit : Edit ls ls') (yields : Yields (ls.map Role.of) prog) :
    Yields (ls'.map Role.of) prog := by
  cases edit with
  | blankLine pre post blank => exact yields_of_ignored (role_of_blank blank) yields
  | commentLine pre post blank t => exact yields_of_ignored (role_of_comment blank t) yields
  | comment pre post closed t => exact yields_of_same_role (role_append_comment closed t) yields
  | blanks pre post first last => exact yields_of_same_role (role_of_blank_ends first last) yields
  | labels pre post labelled movable => exact (yields_apart_iff labelled yields).mpr movable
  | mark ls =>
    have marker : Role.of ".text".toList = .marker .text := by decide
    rw [List.map_cons, marker]
    exact yields.congr rfl rfl
  | @reorder pre bs bs' _ order =>
    have same (seg : Segment) : texts seg .text ((pre ++ bs'.flatMap (·.lines)).map Role.of) =
        texts seg .text ((pre ++ bs.flatMap (·.lines)).map Role.of) := by
      rw [texts_append, texts_append, texts_stretches, texts_stretches, order]
    exact yields.congr (same .data) (same .text)

theorem yields_of_edits (edits : Relation.ReflTransGen Edit ls ls')
    (yields : Yields (ls.map Role.of) prog) : Yields (ls'.map Role.of) prog := by
  induction edits with
  | refl => exact yields
  | tail _ edit ih => exact yields_of_edit edit ih

end Edits

/-- A source that is assembled to this program however it is edited, but for labels that cannot be
told from what they label once they stand on a line of their own. -/
structure Stable (s : List Char) (prog : Program) : Prop where
  edited : ∀ s', Relation.ReflTransGen Edit (s.splitOn '\n') (s'.splitOn '\n') →
    assemble s' = .ok prog
  apart : ∀ s' pre p r post, s.splitOn '\n' = pre ++ (p ++ r) :: post →
    s'.splitOn '\n' = pre ++ p :: r :: post → Labelled pre p r →
      (assemble s' = .ok prog ↔ Movable pre p r)

/-- Edits that change nothing about what a source says do not change its program. -/
theorem stable_of_assemble {s : List Char} {prog : Program} (assembled : assemble s = .ok prog) :
    Stable s prog := by
  have yields := assemble_eq_ok_iff_yields.mp assembled
  refine ⟨fun s' edits => ?_, fun s' pre p r post before after labelled => ?_⟩
  · exact assemble_eq_ok_iff_yields.mpr (yields_of_edits edits yields)
  · rw [before] at yields
    rw [assemble_eq_ok_iff_yields, after]
    exact yields_apart_iff labelled yields

/-- A comment, and a label on a line of its own. The first label cannot be put there: the next one,
with a comma before its colon, would be taken for a marker. -/
theorem stable_of_assemble_hidden :
    let s := "a: .text ,: nop\nb: syscall\n".toList
    assemble s = .ok ⟨[], [0, 12]⟩ ∧ Stable s ⟨[], [0, 12]⟩ ∧
      assemble " # \"\na: .text ,: nop\nb:\n syscall\n".toList = .ok ⟨[], [0, 12]⟩ ∧
        assemble "a:\n .text ,: nop\nb: syscall\n".toList ≠ .ok ⟨[], [0, 12]⟩ := by
  intro s
  have assembled : assemble s = .ok ⟨[], [0, 12]⟩ :=
    toOption_eq_some_iff.mp (by decide +kernel)
  have stable := stable_of_assemble assembled
  let hidden := "a:".toList ++ " .text ,: nop".toList
  let plain := "b:".toList ++ " syscall".toList
  have before : s.splitOn '\n' = [hidden, plain, []] := by decide +kernel
  refine ⟨assembled, stable, stable.edited _ ?_, ?_⟩
  · have after : " # \"\na: .text ,: nop\nb:\n syscall\n".toList.splitOn '\n' =
        [" # \"".toList, hidden, "b:".toList, " syscall".toList, []] := by decide +kernel
    have remarked : Edit [hidden, plain, []] [" # \"".toList, hidden, plain, []] :=
      .commentLine [] _ (l := [' ']) (List.forall_mem_singleton.mpr (by decide)) " \"".toList
    have moved : Edit [" # \"".toList, hidden, plain, []]
        [" # \"".toList, hidden, "b:".toList, " syscall".toList, []] :=
      .labels [" # \"".toList, hidden] [[]] ⟨by decide +kernel, by decide +kernel,
        by decide +kernel⟩ (by decide +kernel)
    rw [before, after]
    exact (Relation.ReflTransGen.single remarked).tail moved
  · have after : "a:\n .text ,: nop\nb: syscall\n".toList.splitOn '\n' =
        ["a:".toList, " .text ,: nop".toList, plain, []] := by decide +kernel
    have labelled : Labelled [] "a:".toList " .text ,: nop".toList :=
      ⟨by decide +kernel, by decide +kernel, by decide +kernel⟩
    rw [ne_eq, stable.apart _ [] _ _ _ before after labelled]
    decide +kernel

end Mips.Assembly
