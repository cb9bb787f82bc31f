import Mips.Proofs.Assembly.Plain
import Mips.Proofs.Assembly.Strings

namespace Mips.Assembly

theorem not_isBlank_special {c : Char} (blank : Text.isBlank c = true) :
    c ≠ '"' ∧ c ≠ '#' ∧ c ≠ '\\' ∧ c ≠ ':' := by
  refine ⟨?_, ?_, ?_, ?_⟩ <;>
    · rintro rfl
      cases blank

theorem beforeComment_cons {inside : Bool} {c : Char} {r : List Char} (quote : c ≠ '"')
    (escape : inside = true → c = '\\' → r = []) (mark : inside = false → c ≠ '#') :
    beforeComment inside (c :: r) = c :: beforeComment inside r := by
  rw [beforeComment]
  · exact quote
  · intro d r' opened backslash more
    cases (escape opened backslash).symm.trans more
  · exact mark

theorem prefix_beforeComment (inside : Bool) (s : List Char) : beforeComment inside s <+: s := by
  fun_induction beforeComment inside s with
  | case1 => exact List.prefix_refl _
  | case2 c r ih => exact List.cons_prefix_cons.mpr ⟨rfl, List.cons_prefix_cons.mpr ⟨rfl, ih⟩⟩
  | case3 inside r ih => exact List.cons_prefix_cons.mpr ⟨rfl, ih⟩
  | case4 => exact List.nil_prefix
  | case5 inside c r _ _ _ ih => exact List.cons_prefix_cons.mpr ⟨rfl, ih⟩

theorem beforeComment_of_blank {r : List Char} (blank : ∀ c ∈ r, Text.isBlank c = true)
    (inside : Bool) : beforeComment inside r = r := by
  induction r with
  | nil => rw [beforeComment]
  | cons c r ih =>
    obtain ⟨hc, blank⟩ := List.forall_mem_cons.mp blank
    obtain ⟨quote, mark, backslash, _⟩ := not_isBlank_special hc
    rw [beforeComment_cons quote (fun _ h => absurd h backslash) fun _ => mark, ih blank]

/-- A literal ends where its closing quote is. -/
theorem beforeComment_append_of_unescapes {body s : List Char} (unescapes : Unescapes body s)
    (t : List Char) :
    beforeComment true (body ++ '"' :: t) = body ++ '"' :: beforeComment false t := by
  induction unescapes with
  | nil => rfl
  | plain quote backslash _ ih =>
    rw [List.cons_append, beforeComment_cons quote (fun _ h => absurd h backslash)
      (fun h => absurd h (by decide)), ih]
    rfl
  | escape known _ ih =>
    rw [List.cons_append, List.cons_append, beforeComment, ih]
    rfl

def literalOpen : Bool → List Char → Bool
  | inside, [] => inside
  | true, '\\' :: _ :: r => literalOpen true r
  | inside, '"' :: r => literalOpen (!inside) r
  | false, '#' :: _ => false
  | inside, _ :: r => literalOpen inside r

theorem beforeComment_append_comment {inside : Bool} {s : List Char}
    (closed : literalOpen inside s = false) (t : List Char) :
    beforeComment inside (s ++ '#' :: t) = beforeComment inside s := by
  fun_induction literalOpen inside s with
  | case1 inside =>
    obtain rfl := closed
    rfl
  | case2 c r ih =>
    rw [List.cons_append, List.cons_append, beforeComment, beforeComment, ih closed]
  | case3 inside r ih =>
    rw [List.cons_append, beforeComment, beforeComment, ih closed]
  | case4 r => rfl
  | case5 inside c r escape quote mark ih =>
    have last (opened : inside = true) (backslash : c = '\\') : r = [] := by
      cases r with
      | nil => rfl
      | cons d r' => exact (escape d r' opened backslash rfl).elim
    have unescaped (opened : inside = true) (backslash : c = '\\') : r ++ '#' :: t = [] := by
      rw [last opened backslash, opened, literalOpen] at closed
      cases closed
    rw [List.cons_append, beforeComment_cons quote unescaped mark,
      beforeComment_cons quote last mark, ih closed]

theorem exists_beforeComment_append_of_blank (s : List Char) {r : List Char}
    (blank : ∀ c ∈ r, Text.isBlank c = true) (inside : Bool) :
    ∃ r', (∀ c ∈ r', Text.isBlank c = true) ∧
      beforeComment inside (s ++ r) = beforeComment inside s ++ r' := by
  fun_induction beforeComment inside s with
  | case1 inside => exact ⟨r, blank, beforeComment_of_blank blank inside⟩
  | case2 c s ih =>
    obtain ⟨r', blank', parts⟩ := ih
    exact ⟨r', blank', by rw [List.cons_append, List.cons_append, beforeComment, parts]; rfl⟩
  | case3 inside s ih =>
    obtain ⟨r', blank', parts⟩ := ih
    exact ⟨r', blank', by rw [List.cons_append, beforeComment, parts]; rfl⟩
  | case4 s => exact ⟨[], List.forall_mem_nil _, by rw [List.cons_append, beforeComment]; rfl⟩
  | case5 inside c s escape quote mark ih =>
    obtain ⟨r', blank', parts⟩ := ih
    by_cases opened : inside = true ∧ c = '\\'
    · obtain ⟨rfl, rfl⟩ := opened
      -- a backslash at the end of the text takes the first of the blanks with it
      have last : s = [] := by
        cases s with
        | nil => rfl
        | cons d s' => exact (escape d s' rfl rfl rfl).elim
      subst last
      refine ⟨r, blank, ?_⟩
      cases r with
      | nil => rfl
      | cons b r =>
        have kept := beforeComment_of_blank (List.forall_mem_cons.mp blank).2 true
        exact congrArg ('\\' :: b :: ·) kept
    · refine ⟨r', blank', ?_⟩
      rw [List.cons_append, beforeComment_cons quote (fun o b => absurd ⟨o, b⟩ opened) mark, parts]
      rfl

theorem beforeComment_blank_append {l : List Char} (blank : ∀ c ∈ l, Text.isBlank c = true)
    (s : List Char) : beforeComment false (l ++ s) = l ++ beforeComment false s :=
  beforeComment_append_of_clean (fun h => (not_isBlank_special (blank _ h)).1 rfl)
    (fun h => (not_isBlank_special (blank _ h)).2.1 rfl) s

theorem role_congr {l l' : List Char}
    (same : Text.trim (withoutComment l) = Text.trim (withoutComment l')) :
    Role.of l = Role.of l' := by
  simp only [Role.of, same]

section Roles

variable {l r s : List Char}

theorem role_append_comment (closed : literalOpen false s = false) (t : List Char) :
    Role.of (s ++ '#' :: t) = Role.of s :=
  role_congr (congrArg Text.trim (beforeComment_append_comment closed t))

theorem role_of_blank_ends (before : ∀ c ∈ l, Text.isBlank c = true)
    (after : ∀ c ∈ r, Text.isBlank c = true) : Role.of (l ++ (s ++ r)) = Role.of s := by
  obtain ⟨r', blank, parts⟩ := exists_beforeComment_append_of_blank s after false
  apply role_congr
  rw [withoutComment, beforeComment_blank_append before, parts]
  exact Text.trim_append_of_blank before blank

theorem role_dropReturn (s : List Char) : Role.of (Text.dropReturn s) = Role.of s := by
  unfold Text.dropReturn
  split
  · rename_i ends
    obtain ⟨t, rfl⟩ := List.getLast?_eq_some_iff.mp ends
    have after : ∀ c ∈ ['\r'], Text.isBlank c = true := List.forall_mem_singleton.mpr (by decide)
    rw [List.dropLast_concat]
    exact (role_of_blank_ends (l := []) nofun after).symm
  · rfl

theorem role_of_comment (blank : ∀ c ∈ l, Text.isBlank c = true) (t : List Char) :
    Role.of (l ++ '#' :: t) = .ignored := by
  have empty : Text.trim (withoutComment (l ++ '#' :: t)) = [] := by
    rw [withoutComment, beforeComment_blank_append blank, beforeComment, List.append_nil]
    exact Text.trim_of_blank blank
  rw [Role.of, empty]
  rfl

theorem role_of_blank (blank : ∀ c ∈ l, Text.isBlank c = true) : Role.of l = .ignored := by
  have empty : Text.trim (withoutComment l) = [] := by
    rw [withoutComment, beforeComment_of_blank blank]
    exact Text.trim_of_blank blank
  rw [Role.of, empty]
  rfl

theorem beginsWith_eq_true_iff {word : List Char} :
    beginsWith word l = true ↔
      ∃ rest, l = word ++ rest ∧ ∀ c, rest.head? = some c → Text.isBlank c = true := by
  rw [beginsWith, Bool.and_eq_true, List.isPrefixOf_iff_prefix]
  constructor
  · rintro ⟨⟨rest, rfl⟩, stops⟩
    rw [List.drop_left] at stops
    refine ⟨rest, rfl, fun c first => ?_⟩
    obtain ⟨rest, rfl⟩ := List.head?_eq_some_iff.mp first
    exact stops
  · rintro ⟨rest, rfl, stops⟩
    rw [List.drop_left]
    refine ⟨⟨rest, rfl⟩, ?_⟩
    cases rest with
    | nil => rfl
    | cons c rest => exact stops c rfl

def directiveWords : List String := [".data", ".text", ".globl", ".global"]

/-- A line that marks a segment or declares a global label. -/
def DirectiveLine (l : List Char) : Prop :=
  ∃ word ∈ directiveWords, beginsWith word.toList (Text.trim (withoutComment l)) = true

instance (l : List Char) : Decidable (DirectiveLine l) :=
  inferInstanceAs (Decidable (∃ word ∈ directiveWords, _))

theorem not_directiveLine_iff : ¬DirectiveLine l ↔ ∀ word ∈ directiveWords,
    beginsWith word.toList (Text.trim (withoutComment l)) = false := by
  simp only [DirectiveLine, not_exists, not_and, Bool.not_eq_true]

theorem role_of_not_directiveLine (other : ¬DirectiveLine l) :
    Role.of l = if Text.trim (withoutComment l) = [] then .ignored
      else .statement (Text.trim (withoutComment l)) := by
  have none := not_directiveLine_iff.mp other
  simp only [directiveWords, List.forall_mem_cons] at none
  obtain ⟨data, text, globl, global, _⟩ := none
  simp only [Role.of, data, text, globl, global, Bool.or_self, Bool.false_eq_true, if_false]

end Roles

end Mips.Assembly
