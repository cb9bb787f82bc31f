import Mips.Proofs.Assembly.Data

namespace Mips.Assembly

def escapeWithZero (c : Char) : List Char := if c = '\x00' then ['\\', '0'] else escapeInLiteral c

def literalOf (s : List Char) : List Char := '"' :: (s.flatMap escapeWithZero ++ ['"'])

theorem unescapes_escapeWithZero (s : List Char) : Unescapes (s.flatMap escapeWithZero) s := by
  induction s with
  | nil => exact .nil
  | cons c s ih =>
    rw [List.flatMap_cons, escapeWithZero]
    split
    · subst c
      exact .escape (by decide) ih
    · fun_cases escapeInLiteral c with
      | case5 _ backslash quote => exact .plain quote backslash ih
      | _ => exact .escape (by decide) ih

theorem literal_literalOf (s : List Char) : Literal (literalOf s) s := by
  refine ⟨s.flatMap escapeWithZero, ?_, unescapes_escapeWithZero s⟩
  apply Text.trim_eq_self
  · rintro c ⟨⟩
    decide
  · intro c last
    rw [literalOf, ← List.cons_append, List.getLast?_concat] at last
    cases last
    decide

/-- Arguments are accepted exactly if they are a literal with nothing but blanks around it: a quote,
characters that are no quote and no backslash or escapes that are known, and a quote. The bytes are
those of the text that the literal stands for; all else is refused as a malformed literal. So every
text can be given, if its line feeds, tabs, zeros, quotes and backslashes are escaped. -/
theorem string_outcome (line : Nat) (args : List Char) :
    (∀ bs, string line args = .ok bs ↔ ∃ s, Literal args s ∧ bs = Text.utf8 s) ∧
      (∀ e, string line args = .error e ↔ (¬∃ s, Literal args s) ∧ e = ⟨line, .badString⟩) ∧
      ∀ s, string line (literalOf s) = .ok (Text.utf8 s) := by
  refine ⟨fun bs => string_eq_ok_iff, fun e => ?_, fun s => ?_⟩
  · cases read : string? args with
    | none =>
      have refused : ¬∃ s, Literal args s := by
        rintro ⟨s, literal⟩
        cases read.symm.trans (string?_eq_some_iff.mpr ⟨s, literal, rfl⟩)
      simp [string, read, refused, eq_comm]
    | some bs =>
      obtain ⟨s, literal, _⟩ := string?_eq_some_iff.mp read
      have accepted : ∃ s, Literal args s := ⟨s, literal⟩
      simp [string, read, accepted]
  · exact string_eq_ok_iff.mpr ⟨s, literal_literalOf s, rfl⟩

end Mips.Assembly
