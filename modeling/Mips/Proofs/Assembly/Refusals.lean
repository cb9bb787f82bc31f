import Mips.Proofs.Assembly.Encoding
import Mips.Proofs.Assembly.Peeling
import Mips.Assembly.Directive

namespace Mips.Assembly

/-- The source text that a message quotes. -/
def Cause.quoted? : Cause → Option (List Char)
  | unknownMnemonic s | unknownRegister s | badImmediate s | operandCount s _ _
  | badMemoryOperand s | unresolvedLabel s | duplicateLabel s | danglingLabel s
  | unknownDirective s => some s
  | spaceTooLarge _ | badString => none

def Within (texts : List (List Char)) (x : List Char) : Prop := ∃ t ∈ texts, x <:+: t

/-- A refusal of line `n` that quotes nothing that does not stand in one of these texts. -/
structure Error.Quotes (n : Nat) (texts : List (List Char)) (e : Error) : Prop where
  line : e.line = n
  quoted : ∀ x, e.cause.quoted? = some x → Within texts x

def Quoting {α : Type} (n : Nat) (texts : List (List Char)) (r : Except Error α) : Prop :=
  ∀ e, r = .error e → e.Quotes n texts

section Combinators

variable {α β : Type} {n : Nat} {texts : List (List Char)} {x t : List Char}

theorem within_of_mem (h : x ∈ texts) : Within texts x := ⟨x, h, List.infix_refl x⟩

theorem within_singleton : Within [t] x ↔ x <:+: t := by
  simp [Within]

theorem Within.of_part (within : Within texts t) (part : x <:+: t) : Within texts x := by
  obtain ⟨t', there, larger⟩ := within
  exact ⟨t', there, part.trans larger⟩

theorem quoting_ok (a : α) : Quoting n texts (.ok a) := nofun

theorem quoting_error {c : Cause} (quoted : ∀ x, c.quoted? = some x → Within texts x) :
    Quoting n texts (.error ⟨n, c⟩ : Except Error α) := by
  rintro _ ⟨⟩
  exact ⟨rfl, quoted⟩

theorem Quoting.bind {r : Except Error α} {f : α → Except Error β} (first : Quoting n texts r)
    (rest : ∀ a, Quoting n texts (f a)) : Quoting n texts (r >>= f) := by
  cases r with
  | error e =>
    rintro _ ⟨⟩
    exact first e rfl
  | ok a => exact rest a

theorem Quoting.map {r : Except Error α} (quoting : Quoting n texts r) (f : α → β) :
    Quoting n texts (r.map f) := fun e refused => quoting e (map_eq_error_iff.mp refused)

theorem Quoting.mono {r : Except Error α} {texts' : List (List Char)} (quoting : Quoting n texts r)
    (within : ∀ t ∈ texts, Within texts' t) : Quoting n texts' r := by
  intro e refused
  obtain ⟨line, quoted⟩ := quoting e refused
  refine ⟨line, fun x named => ?_⟩
  obtain ⟨t, there, part⟩ := quoted x named
  exact (within t there).of_part part

end Combinators

namespace Place

variable {p : Place} {texts : List (List Char)} {tok : List Char}

theorem quoting_refuse {α : Type} {c : Cause}
    (quoted : ∀ x, c.quoted? = some x → Within texts x) :
    Quoting p.line texts (p.refuse c : Except Error α) := quoting_error quoted

theorem quoting_refuse_token {α : Type} {c : Cause} (named : c.quoted? = some tok)
    (within : Within texts tok) : Quoting p.line texts (p.refuse c : Except Error α) :=
  quoting_refuse fun _ quoted => Option.some.inj (named.symm.trans quoted) ▸ within

theorem quoting_register (within : Within texts tok) :
    Quoting p.line texts (p.register tok) := by
  unfold register
  split
  · exact quoting_ok _
  · exact quoting_refuse_token rfl within

theorem quoting_immediate (within : Within texts tok) (bits : Nat) :
    Quoting p.line texts (p.immediate bits tok) := by
  unfold immediate
  split
  · exact quoting_ok _
  · exact quoting_refuse_token rfl within

theorem quoting_resolve (within : Within texts tok) :
    Quoting p.line texts (p.symbols.resolve tok p.line) := by
  unfold Symbols.resolve
  split
  · exact quoting_ok _
  · exact quoting_refuse_token (p := p) rfl within

theorem quoting_branchDistance (within : Within texts tok) :
    Quoting p.line texts (p.branchDistance tok) := by
  unfold branchDistance
  split
  · exact quoting_ok _
  · exact (quoting_resolve within).map _

theorem quoting_jumpTarget (within : Within texts tok) :
    Quoting p.line texts (p.jumpTarget tok) := by
  unfold jumpTarget
  dsimp only
  split
  · exact quoting_ok _
  · exact (quoting_resolve within).map _

theorem quoting_memory (within : Within texts tok) : Quoting p.line texts (p.memory tok) := by
  unfold memory
  split
  · rename_i offset rest cut
    obtain ⟨c, rfl, _, _⟩ := Text.splitAtFirst_eq_some_iff.mp cut
    have front : Within texts offset := within.of_part (List.prefix_append _ _).isInfix
    have behind : rest <:+: offset ++ c :: rest := ⟨offset ++ [c], [], by simp⟩
    have base : Within texts rest.dropLast :=
      within.of_part ((List.dropLast_prefix rest).isInfix.trans behind)
    split
    · have whole (imm : BitVec 16) : Quoting p.line texts (do
          let base ← p.register rest.dropLast
          return (base, imm)) := (quoting_register base).bind fun _ => quoting_ok _
      dsimp only
      split
      · exact (quoting_ok _).bind whole
      · exact (quoting_immediate front 16).bind whole
    · exact quoting_refuse_token rfl within
  · exact quoting_refuse_token rfl within

end Place

open Place (quoting_register quoting_immediate quoting_branchDistance quoting_jumpTarget
  quoting_memory quoting_refuse_token)

theorem quoting_operandFields (p : Place) (mnemonic : List Char) (shape : Shape)
    (ops : List (List Char)) :
    Quoting p.line (mnemonic :: ops) (operandFields p mnemonic shape ops) := by
  have first {t a : List Char} {ts : List (List Char)} : Within (t :: a :: ts) a :=
    within_of_mem (by simp)
  have second {t a b : List Char} {ts : List (List Char)} : Within (t :: a :: b :: ts) b :=
    within_of_mem (by simp)
  have third {t a b c : List Char} {ts : List (List Char)} : Within (t :: a :: b :: c :: ts) c :=
    within_of_mem (by simp)
  unfold operandFields
  split
  · exact (quoting_register second).bind fun _ => (quoting_register third).bind fun _ =>
      (quoting_register first).bind fun _ => quoting_ok _
  · exact (quoting_register third).bind fun _ => (quoting_register second).bind fun _ =>
      (quoting_register first).bind fun _ => quoting_ok _
  · exact (quoting_register second).bind fun _ => (quoting_register first).bind fun _ =>
      (quoting_immediate third 5).bind fun _ => quoting_ok _
  · exact (quoting_register first).bind fun _ => (quoting_register second).bind fun _ =>
      quoting_ok _
  · exact (quoting_register first).bind fun _ => quoting_ok _
  · exact (quoting_register second).bind fun _ => (quoting_register first).bind fun _ =>
      quoting_ok _
  · exact (quoting_register first).bind fun _ => quoting_ok _
  · exact (quoting_register first).bind fun _ => quoting_ok _
  · exact (quoting_register first).bind fun _ => (quoting_register second).bind fun _ =>
      quoting_ok _
  · exact (quoting_register first).bind fun _ => (quoting_register second).bind fun _ =>
      (quoting_branchDistance third).bind fun _ => quoting_ok _
  · exact (quoting_register first).bind fun _ => (quoting_branchDistance second).bind fun _ =>
      quoting_ok _
  · exact (quoting_register second).bind fun _ => (quoting_register first).bind fun _ =>
      (quoting_immediate third 16).bind fun _ => quoting_ok _
  · exact (quoting_register first).bind fun _ => (quoting_immediate second 16).bind fun _ =>
      quoting_ok _
  · exact (quoting_memory second).bind fun _ => (quoting_register first).bind fun _ =>
      quoting_ok _
  · exact (quoting_register first).bind fun _ => (quoting_immediate second 16).bind fun _ =>
      quoting_ok _
  · exact (quoting_jumpTarget first).bind fun _ => quoting_ok _
  · exact quoting_ok _
  · exact (quoting_immediate first 20).bind fun _ => quoting_ok _
  · exact quoting_ok _
  · exact quoting_refuse_token rfl (within_of_mem List.mem_cons_self)

theorem quoting_lineWord {l : Line} {pc : Word} {symbols : Symbols}
    (filled : tokens (leadingLabels l.text).2 ≠ []) :
    Quoting l.number (tokens (leadingLabels l.text).2) (lineWord l pc symbols) := by
  unfold lineWord
  split
  · exact absurd ‹_› filled
  · rename_i name ops cut
    rw [cut]
    split
    · exact quoting_refuse_token (p := ⟨l.number, pc, symbols⟩) rfl
        (within_of_mem List.mem_cons_self)
    · rename_i m named
      rw [name_of_ofName? named]
      exact (quoting_operandFields ⟨l.number, pc, symbols⟩ _ m.shape ops).map _

section Labels

variable {s p : List Char} {names : List (List Char)} {name : List Char}

theorem LabelPrefix.infix_of_mem (labels : LabelPrefix p names) (there : name ∈ names) :
    name <:+: p := by
  induction labels with
  | blank => cases there
  | @label l first r p names _ _ _ _ ih =>
    rcases List.mem_cons.mp there with rfl | later
    · exact ⟨l, r ++ ':' :: p, by simp⟩
    · exact (ih later).trans ⟨l ++ (first ++ (r ++ [':'])), [], by simp⟩

theorem infix_leadingLabels (s : List Char) :
    (∀ name ∈ (leadingLabels s).1, name <:+: s) ∧ (leadingLabels s).2 <:+: s := by
  obtain ⟨p, r, parts, labels, rest⟩ := exists_labelPrefix s
  constructor
  · intro name there
    rw [parts]
    exact (labels.infix_of_mem there).trans (List.prefix_append p r).isInfix
  · rw [← rest]
    conv => rhs; rw [parts]
    exact (Text.prefix_trimEnd r).isInfix.trans (List.suffix_append p r).isInfix

theorem infix_lastLabel (s : List Char) : lastLabel s <:+: s := by
  rw [lastLabel]
  cases last : (leadingLabels s).1.getLast? with
  | none => exact List.nil_infix ..
  | some name => exact (infix_leadingLabels s).1 name (List.mem_of_getLast? last)

/-- What has no blank in it stands on a line if it does once blanks have taken the place of commas
and tabs. -/
theorem infix_of_infix_spaced {t : List Char} (part : t <:+: spaced s) (clean : ' ' ∉ t) :
    t <:+: s := by
  obtain ⟨before, after, parts⟩ := part
  obtain ⟨front, last, rfl, whole, _⟩ := List.map_eq_append_iff.mp parts.symm
  obtain ⟨first, here, rfl, _, rfl⟩ := List.map_eq_append_iff.mp whole
  have kept : here.map (fun c => if c = ',' ∨ c = '\t' then ' ' else c) = here := by
    conv => rhs; rw [← List.map_id here]
    apply List.map_congr_left
    intro c there
    apply if_neg
    intro separates
    apply clean
    rw [List.mem_map]
    exact ⟨c, there, if_pos separates⟩
  rw [kept]
  exact ⟨first, last, rfl⟩

theorem infix_of_mem_tokens {t : List Char} (there : t ∈ tokens s) : t <:+: s ∧ ' ' ∉ t := by
  obtain ⟨part, clean⟩ := Text.infix_of_mem_fields there
  exact ⟨part, fun blank => absurd (clean _ blank) (by decide)⟩

end Labels

section Directives

variable {n : Nat} {args name : List Char}

theorem quoting_integers (n : Nat) (args : List Char) : Quoting n [args] (integers n args) := by
  intro e refused
  obtain ⟨tok, there, refused⟩ := exists_of_mapM_eq_error refused
  have within : Within [args] tok := within_singleton.mpr (Text.infix_of_mem_fields there).1
  split at refused
  · cases refused
  · exact quoting_error (fun x quoted => Option.some.inj quoted ▸ within) e refused

theorem quoting_string (n : Nat) (args : List Char) : Quoting n [args] (string n args) := by
  unfold string
  split
  · exact quoting_ok _
  · exact quoting_error nofun

theorem quoting_space (n : Nat) (args : List Char) : Quoting n [args] (space n args) := by
  have trimmed : Within [args] (Text.trim args) := within_singleton.mpr (Text.infix_trim args)
  have bad : Quoting n [args] (.error ⟨n, .badImmediate (Text.trim args)⟩ : Except Error Nat) :=
    quoting_error fun x quoted => Option.some.inj quoted ▸ trimmed
  refine (quoting_integers n args).bind fun zs => ?_
  split
  · split
    · exact bad
    · split
      · exact quoting_error nofun
      · exact quoting_ok _
  · exact bad

theorem quoting_directive (n : Nat) (name args : List Char) :
    Quoting n [name, args] (directive n name args) := by
  have within : ∀ t ∈ [args], Within [name, args] t := fun t there =>
    within_of_mem (List.mem_cons_of_mem name there)
  have integers := (quoting_integers n args).mono within
  have string := (quoting_string n args).mono within
  have space := (quoting_space n args).mono within
  unfold directive
  split
  · exact integers.map _
  split
  · exact integers.map _
  split
  · exact integers.map _
  split
  · exact string
  split
  · exact string.map _
  split
  · exact space.map _
  · exact quoting_error fun x quoted =>
      Option.some.inj quoted ▸ within_of_mem List.mem_cons_self

theorem quoting_dataBytes (l : Line) : Quoting l.number [l.text] (dataBytes l) := by
  have rest := (infix_leadingLabels l.text).2
  have whole {name args : List Char} (first : name <:+: (leadingLabels l.text).2)
      (last : args <:+: (leadingLabels l.text).2) :
      Quoting l.number [l.text] (directive l.number name args) := by
    refine (quoting_directive l.number name args).mono ?_
    simp only [List.mem_cons, List.not_mem_nil, or_false, forall_eq_or_imp, forall_eq,
      within_singleton]
    exact ⟨first.trans rest, last.trans rest⟩
  unfold dataBytes
  dsimp only
  split
  · exact quoting_ok _
  · split
    · rename_i name args cut
      obtain ⟨c, parts, _, _⟩ := Text.splitAtFirst_eq_some_iff.mp cut
      exact whole ⟨[], c :: args, parts.symm⟩ ⟨name ++ [c], [], by simp [parts]⟩
    · rename_i name cut
      rw [← Text.eq_of_splitAtFirst_eq_none cut]
      exact whole (List.infix_refl _) (List.nil_infix ..)

end Directives

end Mips.Assembly
