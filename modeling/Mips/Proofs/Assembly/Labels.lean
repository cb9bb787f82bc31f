import Mips.Proofs.Assembly.Literals
import Mips.Proofs.Memory.Words
import Mips.Proofs.Text.Cuts
import Mips.Assembly.Symbols

namespace Mips.Assembly

theorem firstLabel?_of_unlabelled {s : List Char} (unlabelled : ':' ∉ s) :
    firstLabel? s = none := by
  have clean : ∀ c ∈ s, (c == ':') = false := fun c hc => by
    simpa using fun e : c = ':' => unlabelled (e ▸ hc)
  simp only [firstLabel?, Text.splitAtFirst_of_clean clean]

theorem leadingLabels_of_firstLabel?_eq_none {s : List Char} (none : firstLabel? s = none)
    (first : ∀ c, s.head? = some c → Text.isBlank c = false)
    (last : ∀ c, s.getLast? = some c → Text.isBlank c = false) : leadingLabels s = ([], s) := by
  rw [leadingLabels, Text.trimStart_eq_self first, peelFrom]
  split
  · rename_i found
    rw [none] at found
    cases found
  · rw [Text.trimEnd_eq_self last]

theorem leadingLabels_of_unlabelled {s : List Char} (unlabelled : ':' ∉ s)
    (first : ∀ c, s.head? = some c → Text.isBlank c = false)
    (last : ∀ c, s.getLast? = some c → Text.isBlank c = false) : leadingLabels s = ([], s) :=
  leadingLabels_of_firstLabel?_eq_none (firstLabel?_of_unlabelled unlabelled) first last

theorem isName_of_firstLabel? {s name rest : List Char} (h : firstLabel? s = some (name, rest)) :
    isName name = true := by
  unfold firstLabel? at h
  split at h
  · split at h
    · rename_i named
      obtain ⟨rfl, _⟩ := Prod.mk.inj (Option.some.inj h)
      exact named
    · cases h
  · cases h

theorem isName_of_mem_leadingLabels {line name : List Char}
    (labelled : name ∈ (leadingLabels line).1) : isName name = true := by
  have names (s : List Char) : ∀ name ∈ (peelFrom s).1, isName name = true := by
    fun_induction peelFrom s with
    | case1 s name rest found peeled ih =>
      exact List.forall_mem_cons.mpr ⟨isName_of_firstLabel? found, ih⟩
    | case2 s none => nofun
  exact names _ name labelled

theorem digit?_ten_of_not_isDigit {c : Char} (h : c.isDigit = false) :
    Numeral.digit? 10 c = none := by
  have outside : ¬(48 ≤ c.toNat ∧ c.toNat ≤ 57) := by
    intro within
    have digit : c.isDigit = true := by
      simp only [Char.isDigit, Bool.and_eq_true, decide_eq_true_eq, ge_iff_le,
        UInt32.le_iff_toNat_le]
      exact within
    rw [h] at digit
    cases digit
  rw [Numeral.digit?, Option.filter_eq_none_iff]
  intro d valued
  rw [Numeral.digitValue?, if_neg outside] at valued
  split at valued
  · have := Option.some.inj valued
    simp only [decide_eq_true_eq]
    omega
  · split at valued
    · have := Option.some.inj valued
      simp only [decide_eq_true_eq]
      omega
    · cases valued

theorem integer?_of_isName {name : List Char} (named : isName name = true) :
    integer? name = none := by
  cases name with
  | nil => rfl
  | cons c cs =>
    simp only [isName, Bool.and_eq_true, Bool.not_eq_true'] at named
    obtain ⟨noDigit, chars⟩ := named
    have hc : isNameChar c = true := List.all_eq_true.mp chars c List.mem_cons_self
    have unread : magnitude? (c :: cs) = none := by
      have decimal : Numeral.valueUpTo? 10 maxMagnitude (c :: cs) = none := by
        simp only [Numeral.valueUpTo?, Numeral.extendUpTo?, digit?_ten_of_not_isDigit noDigit,
          Option.bind_none]
      unfold magnitude?
      split
      · rename_i marked
        obtain ⟨rfl, _⟩ := List.cons.inj marked
        cases noDigit
      · rename_i marked
        obtain ⟨rfl, _⟩ := List.cons.inj marked
        cases noDigit
      · exact decimal
    unfold integer?
    split
    · rename_i signed
      obtain ⟨rfl, _⟩ := List.cons.inj signed
      cases hc
    · rename_i signed
      obtain ⟨rfl, _⟩ := List.cons.inj signed
      cases hc
    · rw [unread]
      rfl

namespace Symbols

variable {t t' : Symbols}

theorem address?_insert (t : Symbols) (name other : List Char) (addr : Word) :
    (⟨t.entries.insert name addr⟩ : Symbols).address? other =
      if other = name then some addr else t.address? other := by
  simp [address?, Std.ExtTreeMap.getElem?_insert, @eq_comm _ other name]

theorem address?_of_define {line : Nat} {addr : Word} {names : List (List Char)}
    (defined : t.define line addr names = .ok t') (name : List Char) :
    t'.address? name = if name ∈ names then some addr else t.address? name := by
  induction names generalizing t with
  | nil =>
    obtain rfl := Except.ok.inj defined
    simp
  | cons first names ih =>
    unfold define at defined
    split at defined
    · cases defined
    · rw [ih defined, address?_insert]
      by_cases later : name ∈ names
      · simp [later]
      · simp [later]

theorem fresh_of_define {line : Nat} {addr : Word} {names : List (List Char)}
    (defined : t.define line addr names = .ok t') : ∀ name ∈ names, t.address? name = none := by
  induction names generalizing t with
  | nil => nofun
  | cons first names ih =>
    unfold define at defined
    split at defined
    · cases defined
    · rename_i new
      intro name hname
      by_cases same : name = first
      · rw [same, new]
      · have later := ih defined name (List.mem_of_ne_of_mem same hname)
        rwa [address?_insert, if_neg same] at later

theorem address?_of_addLines {addr a : Word} {ls : List Line} {name : List Char}
    (added : t.addLines addr ls = .ok t') (known : t.address? name = some a) :
    t'.address? name = some a := by
  induction ls generalizing t addr with
  | nil =>
    obtain rfl := Except.ok.inj added
    exact known
  | cons l ls ih =>
    unfold addLines at added
    split at added
    · cases added
    · rename_i t₁ defined
      apply ih added
      rw [address?_of_define defined, if_neg, known]
      intro again
      rw [fresh_of_define defined name again] at known
      cases known

theorem address?_slot_of_addLines {addr : Word} {ls : List Line} {k : Nat} {l : Line}
    {name : List Char} (added : t.addLines addr ls = .ok t') (line : ls[k]? = some l)
    (labelled : name ∈ (leadingLabels l.text).1) : t'.address? name = some (Word.slot addr k) := by
  induction ls generalizing t addr k with
  | nil => simp at line
  | cons l₀ ls ih =>
    unfold addLines at added
    split at added
    · cases added
    · rename_i t₁ defined
      cases k with
      | zero =>
        obtain rfl := Option.some.inj line
        apply address?_of_addLines added
        rw [address?_of_define defined, if_pos labelled, Word.slot_zero]
      | succ k =>
        rw [← Word.slot_add_four]
        exact ih added line

theorem address?_of_ofLines {start : Word} {ls : List Line} {k : Nat} {l : Line}
    {name : List Char} (built : ofLines ls start = .ok t) (line : ls[k]? = some l)
    (labelled : name ∈ (leadingLabels l.text).1) : t.address? name = some (Word.slot start k) :=
  address?_slot_of_addLines built line labelled

theorem exists_slot_of_addLines {addr a : Word} {ls : List Line} {name : List Char}
    (added : t.addLines addr ls = .ok t') (known : t'.address? name = some a) :
    t.address? name = some a ∨
      ∃ k l, ls[k]? = some l ∧ name ∈ (leadingLabels l.text).1 ∧ a = Word.slot addr k := by
  induction ls generalizing t addr with
  | nil =>
    obtain rfl := Except.ok.inj added
    exact .inl known
  | cons l₀ ls ih =>
    unfold addLines at added
    split at added
    · cases added
    · rename_i t₁ defined
      rcases ih added with before | ⟨k, l, line, labelled, rfl⟩
      · rw [address?_of_define defined] at before
        split at before
        · rename_i labelled
          refine .inr ⟨0, l₀, rfl, labelled, ?_⟩
          rw [Word.slot_zero, Option.some.inj before]
        · exact .inl before
      · exact .inr ⟨k + 1, l, line, labelled, Word.slot_add_four addr k⟩

/-- Only labels of a text have addresses, and each that of a line which it labels. -/
theorem exists_slot_of_ofLines {start a : Word} {ls : List Line} {name : List Char}
    (built : ofLines ls start = .ok t) (known : t.address? name = some a) :
    ∃ k l, ls[k]? = some l ∧ name ∈ (leadingLabels l.text).1 ∧ a = Word.slot start k := by
  rcases exists_slot_of_addLines built known with before | labels
  · simp [address?] at before
  · exact labels

theorem ofLines_of_unlabelled {ls : List Line} (start : Word)
    (unlabelled : ∀ l ∈ ls, (leadingLabels l.text).1 = []) : ofLines ls start = .ok {} := by
  unfold ofLines
  induction ls generalizing start with
  | nil => rfl
  | cons l ls ih =>
    obtain ⟨hl, unlabelled⟩ := List.forall_mem_cons.mp unlabelled
    rw [addLines, hl, define]
    exact ih _ unlabelled

end Symbols
end Mips.Assembly
