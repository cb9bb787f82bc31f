import Mips.Proofs.Text.Cuts
import Mips.Assembly.Literal

namespace Mips.Assembly

/-- The characters that may follow a backslash, each with the character that it stands for. -/
def escapes : List (Char × Char) :=
  [('n', '\n'), ('t', '\t'), ('0', '\x00'), ('\'', '\''), ('"', '"'), ('\\', '\\')]

/-- What stands between the quotes of a literal, and the text that it stands for. -/
inductive Unescapes : List Char → List Char → Prop
  | nil : Unescapes [] []
  | plain {c : Char} {body s : List Char} (quote : c ≠ '"') (backslash : c ≠ '\\')
      (rest : Unescapes body s) : Unescapes (c :: body) (c :: s)
  | escape {e c : Char} {body s : List Char} (known : (e, c) ∈ escapes)
      (rest : Unescapes body s) : Unescapes ('\\' :: e :: body) (c :: s)

/-- A literal between blanks, and the text that it stands for. -/
def Literal (args s : List Char) : Prop :=
  ∃ body, Text.trim args = '"' :: (body ++ ['"']) ∧ Unescapes body s

theorem escapeByte?_eq_some_iff {e : Char} {b : UInt8} :
    escapeByte? e = some b ↔ ∃ c, (e, c) ∈ escapes ∧ String.utf8EncodeChar c = [b] := by
  constructor
  · intro known
    refine ⟨Char.ofNat b.toNat, ?_⟩
    unfold escapeByte? at known
    split at known
    case h_7 => cases known
    all_goals
      cases known
      decide
  · rintro ⟨c, known, encoded⟩
    have each : ∀ p ∈ escapes, (escapeByte? p.1).map ([·]) = some (String.utf8EncodeChar p.2) := by
      decide
    obtain ⟨b', read, same⟩ := Option.map_eq_some_iff.mp (each (e, c) known)
    rw [encoded] at same
    rwa [← (List.cons.inj same).1]

theorem stringBody?_plain {c : Char} (quote : c ≠ '"') (backslash : c ≠ '\\') (r : List Char) :
    stringBody? (c :: r) = (stringBody? r).map (String.utf8EncodeChar c ++ ·) := by
  rw [stringBody?]
  · exact quote
  · exact backslash

theorem stringBody?_append_of_unescapes {body s r : List Char} (unescapes : Unescapes body s)
    (blank : ∀ c ∈ r, Text.isBlank c = true) :
    stringBody? (body ++ '"' :: r) = some (Text.utf8 s) := by
  induction unescapes with
  | nil => exact if_pos (Text.trim_eq_nil_iff.mpr blank)
  | plain quote backslash _ ih =>
    rw [List.cons_append, stringBody?_plain quote backslash, ih]
    rfl
  | @escape e c body s known _ ih =>
    have each : ∀ p ∈ escapes, ∃ b, String.utf8EncodeChar p.2 = [b] := by
      simp [escapes, String.utf8EncodeChar]
    obtain ⟨b, encoded⟩ := each (e, c) known
    have read := escapeByte?_eq_some_iff.mpr ⟨c, known, encoded⟩
    rw [List.cons_append, List.cons_append, stringBody?, read, Option.bind_some, ih]
    simp [Text.utf8, encoded]

theorem exists_of_stringBody? {t : List Char} {bs : List UInt8} (read : stringBody? t = some bs) :
    ∃ body s r, t = body ++ '"' :: r ∧ (∀ c ∈ r, Text.isBlank c = true) ∧ Unescapes body s ∧
      bs = Text.utf8 s := by
  fun_induction stringBody? t generalizing bs with
  | case1 => cases read
  | case2 r blank =>
    cases read
    exact ⟨[], [], r, rfl, Text.trim_eq_nil_iff.mp blank, .nil, rfl⟩
  | case3 => cases read
  | case4 => cases read
  | case5 e r ih =>
    obtain ⟨b, known, rest⟩ := Option.bind_eq_some_iff.mp read
    obtain ⟨bs', inner, rfl⟩ := Option.map_eq_some_iff.mp rest
    obtain ⟨c, known, encoded⟩ := escapeByte?_eq_some_iff.mp known
    obtain ⟨body, s, r', rfl, blank, unescapes, rfl⟩ := ih inner
    exact ⟨_, c :: s, r', rfl, blank, .escape known unescapes, by simp [Text.utf8, encoded]⟩
  | case6 c r quote backslash ih =>
    obtain ⟨bs', inner, rfl⟩ := Option.map_eq_some_iff.mp read
    obtain ⟨body, s, r', rfl, blank, unescapes, rfl⟩ := ih inner
    exact ⟨_, c :: s, r', rfl, blank, .plain quote backslash unescapes, rfl⟩

theorem string?_eq_some_iff {args : List Char} {bs : List UInt8} :
    string? args = some bs ↔ ∃ s, Literal args s ∧ bs = Text.utf8 s := by
  constructor
  · intro read
    unfold string? at read
    split at read
    · rename_i t quoted
      obtain ⟨body, s, r, rfl, blank, unescapes, rfl⟩ := exists_of_stringBody? read
      refine ⟨s, ⟨body, ?_, unescapes⟩, rfl⟩
      -- a trimmed text has no blanks behind its closing quote
      cases last : r.getLast? with
      | none => rw [quoted, List.getLast?_eq_none_iff.mp last]
      | some c =>
        have ends : (Text.trim args).getLast? = some c := by
          rw [quoted, ← List.cons_append, List.append_cons, List.getLast?_append, last,
            Option.some_or]
        have clean := Text.getLast?_trimEnd ends
        rw [blank c (List.mem_of_getLast? last)] at clean
        cases clean
    · cases read
  · rintro ⟨s, ⟨body, quoted, unescapes⟩, rfl⟩
    rw [string?, quoted]
    exact stringBody?_append_of_unescapes unescapes nofun

def escapeInLiteral (c : Char) : List Char :=
  match c with
  | '\\' => ['\\', '\\']
  | '"' => ['\\', '"']
  | '\n' => ['\\', 'n']
  | '\t' => ['\\', 't']
  | c => [c]

def escaped (s : List Char) : List Char := s.flatMap escapeInLiteral

theorem unescapes_escaped (s : List Char) : Unescapes (escaped s) s := by
  induction s with
  | nil => exact .nil
  | cons c s ih =>
    rw [escaped, List.flatMap_cons]
    fun_cases escapeInLiteral c with
    | case5 _ backslash quote => exact .plain quote backslash ih
    | _ => exact .escape (by decide) ih

end Mips.Assembly
