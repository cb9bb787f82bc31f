import Mips.Text.Blank
import Mips.Text.Lines

/-!
Cuts of texts, from the side of what was joined. Main statements: `splitAtFirst_eq_some_iff`, a cut
at the first character of a kind; `fields_intercalate`, texts without separators are the fields of
what they are joined to; `infix_of_mem_fields`, a field is a stretch of the text; and
`lines_intercalate`, lines are the lines of what they are joined to.
-/
namespace Mips.Text

variable {p sep : Char → Bool} {s : List Char}

theorem takeWhile_append_of_clean {tok : List Char} (clean : ∀ c ∈ tok, p c = false)
    (stop : ∀ c, s.head? = some c → p c = true) : (tok ++ s).takeWhile (!p ·) = tok := by
  rw [List.takeWhile_append_of_pos (fun c hc => by simp [clean c hc])]
  cases s with
  | nil => simp
  | cons c s => simp [stop c rfl]

theorem dropWhile_append_of_clean {tok : List Char} (clean : ∀ c ∈ tok, p c = false)
    (stop : ∀ c, s.head? = some c → p c = true) : (tok ++ s).dropWhile (!p ·) = s := by
  rw [List.dropWhile_append_of_pos (fun c hc => by simp [clean c hc])]
  cases s with
  | nil => rfl
  | cons c s => simp [stop c rfl]

theorem splitAtFirst_append {before after : List Char} {c : Char}
    (clean : ∀ x ∈ before, p x = false) (hc : p c = true) :
    splitAtFirst p (before ++ c :: after) = (before, some after) := by
  have stop : ∀ x, (c :: after).head? = some x → p x = true := fun x hx => by
    obtain rfl : c = x := Option.some.inj hx
    exact hc
  simp only [splitAtFirst, takeWhile_append_of_clean clean stop,
    dropWhile_append_of_clean clean stop]

theorem splitAtFirst_of_clean (clean : ∀ c ∈ s, p c = false) : splitAtFirst p s = (s, none) := by
  have none := dropWhile_append_of_clean (s := []) clean nofun
  rw [List.append_nil] at none
  simp only [splitAtFirst, none]

theorem splitAtFirst_eq_some_iff {before after : List Char} :
    splitAtFirst p s = (before, some after) ↔
      ∃ c, s = before ++ c :: after ∧ p c = true ∧ ∀ x ∈ before, p x = false := by
  constructor
  · intro cut
    have joined := List.takeWhile_append_dropWhile (p := (!p ·)) (l := s)
    have first := List.head?_dropWhile_not (!p ·) s
    unfold splitAtFirst at cut
    cases rest : s.dropWhile (!p ·) with
    | nil => simp [rest] at cut
    | cons c r =>
      simp only [rest, Prod.mk.injEq, Option.some.injEq] at cut joined first
      obtain ⟨rfl, rfl⟩ := cut
      exact ⟨c, joined.symm, by simpa using first, fun x hx => by
        simpa using List.all_eq_true.mp List.all_takeWhile x hx⟩
  · rintro ⟨c, rfl, hc, clean⟩
    exact splitAtFirst_append clean hc

theorem eq_of_splitAtFirst_eq_none {before : List Char}
    (cut : splitAtFirst p s = (before, none)) : s = before := by
  unfold splitAtFirst at cut
  split at cut
  · exact congrArg Prod.fst cut
  · cases cut

theorem fields_nil (sep : Char → Bool) : fields sep [] = [] := by
  rw [fields]
  rfl

theorem fields_cons_of_sep {c : Char} (hc : sep c = true) : fields sep (c :: s) = fields sep s := by
  rw [fields, fields.eq_def sep s, List.dropWhile_cons_of_pos hc]

theorem fields_append_of_clean {tok : List Char} (filled : tok ≠ [])
    (clean : ∀ c ∈ tok, sep c = false) (stop : ∀ c, s.head? = some c → sep c = true) :
    fields sep (tok ++ s) = tok :: fields sep s := by
  cases tok with
  | nil => exact absurd rfl filled
  | cons c tok =>
    obtain ⟨hc, clean⟩ := List.forall_mem_cons.mp clean
    rw [List.cons_append, fields, List.dropWhile_cons_of_neg (by simp [hc])]
    simp only [takeWhile_append_of_clean clean stop, dropWhile_append_of_clean clean stop]

theorem fields_eq_singleton {tok : List Char} (filled : tok ≠ [])
    (clean : ∀ c ∈ tok, sep c = false) : fields sep tok = [tok] := by
  have whole := fields_append_of_clean (s := []) filled clean nofun
  rwa [List.append_nil, fields_nil] at whole

theorem fields_append_of_seps {glue : List Char} (seps : ∀ c ∈ glue, sep c = true) :
    fields sep (glue ++ s) = fields sep s := by
  induction glue with
  | nil => rfl
  | cons c glue ih =>
    obtain ⟨hc, seps⟩ := List.forall_mem_cons.mp seps
    rw [List.cons_append, fields_cons_of_sep hc, ih seps]

theorem fields_intercalate {glue : List Char} {toks : List (List Char)} (glued : glue ≠ [])
    (seps : ∀ c ∈ glue, sep c = true) (filled : ∀ tok ∈ toks, tok ≠ [])
    (clean : ∀ tok ∈ toks, ∀ c ∈ tok, sep c = false) :
    fields sep (glue.intercalate toks) = toks := by
  induction toks with
  | nil => rw [List.intercalate_nil, fields_nil]
  | cons tok toks ih =>
    obtain ⟨hf, filled⟩ := List.forall_mem_cons.mp filled
    obtain ⟨hc, clean⟩ := List.forall_mem_cons.mp clean
    cases toks with
    | nil => rw [List.intercalate_singleton, fields_eq_singleton hf hc]
    | cons next toks =>
      have stop : ∀ c, (glue ++ glue.intercalate (next :: toks)).head? = some c →
          sep c = true := by
        obtain ⟨g, glue', rfl⟩ := List.exists_cons_of_ne_nil glued
        intro c hc
        obtain rfl : g = c := Option.some.inj hc
        exact seps _ List.mem_cons_self
      rw [List.intercalate_cons_cons, List.append_assoc, fields_append_of_clean hf hc stop,
        fields_append_of_seps seps, ih filled clean]

theorem infix_of_mem_fields {tok : List Char} (there : tok ∈ fields sep s) :
    tok <:+: s ∧ ∀ c ∈ tok, sep c = false := by
  fun_induction fields sep s with
  | case1 => cases there
  | case2 s c r found ih =>
    have behind : c :: r <:+ s := found ▸ List.dropWhile_suffix sep
    have hc : sep c = false := by
      have := List.head?_dropWhile_not sep s
      rw [found] at this
      simpa using this
    rcases List.mem_cons.mp there with rfl | later
    · refine ⟨?_, List.forall_mem_cons.mpr ⟨hc, fun d hd => ?_⟩⟩
      · exact (List.cons_prefix_cons.mpr ⟨rfl, List.takeWhile_prefix _⟩).isInfix.trans
          behind.isInfix
      · simpa using List.all_eq_true.mp List.all_takeWhile d hd
    · obtain ⟨part, clean⟩ := ih later
      have rest : r.dropWhile (!sep ·) <:+ c :: r :=
        (List.dropWhile_suffix _).trans (List.suffix_cons c r)
      exact ⟨part.trans (rest.trans behind).isInfix, clean⟩

theorem fields_map {f : Char → Char} (seps : ∀ c, sep (f c) = sep c)
    (others : ∀ c, sep c = false → f c = c) (s : List Char) :
    fields sep (s.map f) = fields sep s := by
  have same : sep ∘ f = sep := funext seps
  fun_induction fields sep s with
  | case1 s none =>
    rw [fields, List.dropWhile_map, same, none]
    rfl
  | case2 s c r found ih =>
    have hc : sep c = false := by
      have := List.head?_dropWhile_not sep s
      rw [found] at this
      simpa using this
    have kept : (r.takeWhile (!sep ·)).map f = r.takeWhile (!sep ·) := by
      conv => rhs; rw [← List.map_id (r.takeWhile (!sep ·))]
      apply List.map_congr_left
      intro x hx
      have clean := List.all_eq_true.mp List.all_takeWhile x hx
      exact others x (by simpa using clean)
    have inner : (!sep ·) ∘ f = (!sep ·) := funext fun c => congrArg (! ·) (seps c)
    rw [fields, List.dropWhile_map, same, found, List.map_cons]
    simp only [List.takeWhile_map, List.dropWhile_map, inner, kept, ih, others c hc]

theorem trimStart_eq_self (first : ∀ c, s.head? = some c → isBlank c = false) :
    trimStart s = s := by
  cases s with
  | nil => rfl
  | cons c s => rw [trimStart, List.dropWhile_cons_of_neg (by simp [first c rfl])]

theorem trimEnd_eq_self (last : ∀ c, s.getLast? = some c → isBlank c = false) :
    trimEnd s = s := by
  have kept := trimStart_eq_self (s := s.reverse) (by rwa [List.head?_reverse])
  rw [trimStart] at kept
  rw [trimEnd, kept, List.reverse_reverse]

theorem trim_eq_self (first : ∀ c, s.head? = some c → isBlank c = false)
    (last : ∀ c, s.getLast? = some c → isBlank c = false) : trim s = s := by
  rw [trim, trimStart_eq_self first, trimEnd_eq_self last]

theorem trim_of_clean (clean : ∀ c ∈ s, isBlank c = false) : trim s = s :=
  trim_eq_self (fun c first => clean c (List.mem_of_head? first))
    (fun c last => clean c (List.mem_of_getLast? last))

section Blanks

variable {t l r : List Char}

theorem trimStart_append_of_blank (blank : ∀ c ∈ l, isBlank c = true) :
    trimStart (l ++ s) = trimStart s :=
  List.dropWhile_append_of_pos blank

theorem trimStart_append_cons {c : Char} (hc : isBlank c = false) :
    trimStart (s ++ c :: t) = trimStart s ++ c :: t := by
  induction s with
  | nil => exact trimStart_eq_self fun _ first => Option.some.inj first ▸ hc
  | cons d s ih =>
    cases hd : isBlank d with
    | true => simpa only [trimStart, List.cons_append, List.dropWhile_cons_of_pos hd] using ih
    | false =>
      have kept : ¬isBlank d = true := by simp [hd]
      simp only [trimStart, List.cons_append, List.dropWhile_cons_of_neg kept]

theorem exists_trimStart (s : List Char) :
    ∃ l, (∀ c ∈ l, isBlank c = true) ∧ s = l ++ trimStart s :=
  ⟨s.takeWhile isBlank, fun c hc => List.all_eq_true.mp List.all_takeWhile c hc,
    List.takeWhile_append_dropWhile.symm⟩

theorem trim_trimStart (s : List Char) : trim (trimStart s) = trim s := by
  rw [trim, trimStart_eq_self fun _ => head?_trimStart, trim]

theorem exists_trimEnd (s : List Char) :
    ∃ r, (∀ c ∈ r, isBlank c = true) ∧ s = trimEnd s ++ r := by
  obtain ⟨l, blank, parts⟩ := exists_trimStart s.reverse
  refine ⟨l.reverse, fun c hc => blank c (List.mem_reverse.mp hc), ?_⟩
  simpa [trimEnd, trimStart] using congrArg List.reverse parts

theorem exists_trim (s : List Char) :
    ∃ l r, (∀ c ∈ l, isBlank c = true) ∧ (∀ c ∈ r, isBlank c = true) ∧ s = l ++ (trim s ++ r) := by
  obtain ⟨l, before, parts⟩ := exists_trimStart s
  obtain ⟨r, after, rest⟩ := exists_trimEnd (trimStart s)
  refine ⟨l, r, before, after, ?_⟩
  rwa [trim, ← rest]

theorem prefix_trimEnd (s : List Char) : trimEnd s <+: s := by
  obtain ⟨r, _, parts⟩ := exists_trimEnd s
  exact ⟨r, parts.symm⟩

theorem infix_trim (s : List Char) : trim s <:+: s :=
  (prefix_trimEnd (trimStart s)).isInfix.trans (List.dropWhile_suffix _).isInfix

theorem trim_between (before : ∀ c ∈ l, isBlank c = true) (after : ∀ c ∈ r, isBlank c = true)
    (filled : s ≠ []) (clean : ∀ c ∈ s, isBlank c = false) : trim (l ++ (s ++ r)) = s := by
  have first : ∀ c, (s ++ r).head? = some c → isBlank c = false := by
    intro c hc
    obtain ⟨d, s, rfl⟩ := List.exists_cons_of_ne_nil filled
    exact clean c (List.mem_of_head? hc)
  have last : ∀ c, s.reverse.head? = some c → isBlank c = false := by
    intro c hc
    exact clean c (List.mem_reverse.mp (List.mem_of_head? hc))
  have reversed : ∀ c ∈ r.reverse, isBlank c = true := fun c hc =>
    after c (List.mem_reverse.mp hc)
  have back : trimStart (s ++ r).reverse = s.reverse := by
    rw [List.reverse_append, trimStart_append_of_blank reversed, trimStart_eq_self last]
  rw [trimStart] at back
  rw [trim, trimStart_append_of_blank before, trimStart_eq_self first, trimEnd, back,
    List.reverse_reverse]

theorem trimEnd_append_of_blank (blank : ∀ c ∈ r, isBlank c = true) :
    trimEnd (s ++ r) = trimEnd s := by
  have reversed : ∀ c ∈ r.reverse, isBlank c = true := fun c hc =>
    blank c (List.mem_reverse.mp hc)
  have back := trimStart_append_of_blank (s := s.reverse) reversed
  rw [trimStart, trimStart, ← List.reverse_append] at back
  rw [trimEnd, back, trimEnd]

theorem trim_of_blank (blank : ∀ c ∈ s, isBlank c = true) : trim s = [] := by
  have started : trimStart (s ++ []) = [] := trimStart_append_of_blank blank
  rw [List.append_nil] at started
  rw [trim, started]
  rfl

theorem trim_append_of_blank (before : ∀ c ∈ l, isBlank c = true)
    (after : ∀ c ∈ r, isBlank c = true) : trim (l ++ (s ++ r)) = trim s := by
  rw [trim, trimStart_append_of_blank before]
  cases first : trimStart s with
  | nil =>
    have blank : ∀ c ∈ s, isBlank c = true := by
      obtain ⟨l, blank, parts⟩ := exists_trimStart s
      rw [first, List.append_nil] at parts
      rwa [parts]
    have all : ∀ c ∈ s ++ r, isBlank c = true := List.forall_mem_append.mpr ⟨blank, after⟩
    rw [trim_of_blank blank]
    exact trim_of_blank all
  | cons c t =>
    have clean : isBlank c = false := head?_trimStart (congrArg List.head? first)
    obtain ⟨l, blank, parts⟩ := exists_trimStart s
    rw [first] at parts
    have kept : trimStart (s ++ r) = trimStart s ++ r := by
      rw [first, parts, List.append_assoc, trimStart_append_of_blank blank]
      exact trimStart_eq_self fun d hd => Option.some.inj hd ▸ clean
    rw [kept, trimEnd_append_of_blank after, trim]

theorem getLast?_trimEnd {c : Char} (last : (trimEnd s).getLast? = some c) : isBlank c = false := by
  rw [trimEnd, List.getLast?_reverse] at last
  exact head?_trimStart last

theorem trim_eq_nil_iff : trim s = [] ↔ ∀ c ∈ s, isBlank c = true := by
  constructor
  · intro empty
    obtain ⟨l, r, before, after, parts⟩ := exists_trim s
    rw [empty, List.nil_append] at parts
    rw [parts]
    exact List.forall_mem_append.mpr ⟨before, after⟩
  · exact trim_of_blank

theorem exists_trim_append (filled : trim s ≠ []) (t : List Char) :
    ∃ t', trim (s ++ t) = trim s ++ t' := by
  obtain ⟨l, before, first⟩ := exists_trimStart s
  obtain ⟨r, _, last⟩ : ∃ r, (∀ c ∈ r, isBlank c = true) ∧ trimStart s = trim s ++ r :=
    exists_trimEnd (trimStart s)
  obtain ⟨c, u, cons⟩ := List.exists_cons_of_ne_nil filled
  have clean : isBlank c = false := by
    apply head?_trimStart (s := s)
    rw [last, cons]
    rfl
  have started : trimStart (trimStart s ++ t) = trimStart s ++ t := by
    rw [last, cons]
    exact trimStart_eq_self fun d head => Option.some.inj head ▸ clean
  have trimmed : trim (s ++ t) = trimEnd (trimStart s ++ t) := by
    conv => lhs; rw [first, List.append_assoc, trim, trimStart_append_of_blank before, started]
  obtain ⟨b, blank, parts⟩ := exists_trimEnd (trimStart s ++ t)
  rw [← trimmed] at parts
  conv at parts => lhs; rw [last, List.append_assoc]
  rcases List.append_eq_append_iff.mp parts with ⟨t', longer, _⟩ | ⟨e, shorter, rfl⟩
  · exact ⟨t', longer⟩
  · -- the end of a trimmed text is no blank
    cases ends : e.getLast? with
    | none =>
      obtain rfl := List.getLast?_eq_none_iff.mp ends
      exact ⟨[], by rw [shorter, List.append_nil, List.append_nil]⟩
    | some d =>
      have clean : isBlank d = false := by
        apply getLast?_trimEnd (s := trimStart s)
        rw [← trim, shorter, List.getLast?_append, ends]
        rfl
      have gap := blank d (List.mem_append_left _ (List.mem_of_getLast? ends))
      cases clean.symm.trans gap

end Blanks

theorem dropReturn_eq_self (last : s.getLast? ≠ some '\r') : dropReturn s = s := by
  rw [dropReturn, if_neg last]

theorem lines_append {l : List Char} (single : '\n' ∉ l) (s : List Char) :
    lines (l ++ '\n' :: s) = dropReturn l :: lines s := by
  have clean : ∀ c ∈ l, (c == '\n') = false := fun c hc => by
    simpa using fun e : c = '\n' => single (e ▸ hc)
  have stop : ∀ c, ('\n' :: s).head? = some c → (c == '\n') = true := fun c hc => by
    simpa using (Option.some.inj hc).symm
  have taken : (l ++ '\n' :: s).takeWhile (· != '\n') = l := takeWhile_append_of_clean clean stop
  have left : (l ++ '\n' :: s).dropWhile (· != '\n') = '\n' :: s :=
    dropWhile_append_of_clean clean stop
  rw [lines, if_neg (by simp), left, taken]

theorem lines_eq_singleton (filled : s ≠ []) (single : '\n' ∉ s) : lines s = [s] := by
  have clean : ∀ c ∈ s, (c == '\n') = false := fun c hc => by
    simpa using fun e : c = '\n' => single (e ▸ hc)
  have none : (s ++ []).dropWhile (· != '\n') = [] := dropWhile_append_of_clean clean nofun
  rw [List.append_nil] at none
  rw [lines, if_neg filled, none]

theorem lines_intercalate {ls : List (List Char)} (filled : ∀ l ∈ ls, l ≠ [])
    (single : ∀ l ∈ ls, '\n' ∉ l) (last : ∀ l ∈ ls, l.getLast? ≠ some '\r') :
    lines (['\n'].intercalate ls) = ls := by
  induction ls with
  | nil =>
    rw [List.intercalate_nil, lines]
    rfl
  | cons l ls ih =>
    obtain ⟨hf, filled⟩ := List.forall_mem_cons.mp filled
    obtain ⟨hs, single⟩ := List.forall_mem_cons.mp single
    obtain ⟨hl, last⟩ := List.forall_mem_cons.mp last
    cases ls with
    | nil => rw [List.intercalate_singleton, lines_eq_singleton hf hs]
    | cons l' ls =>
      rw [List.intercalate_cons_cons, List.append_assoc, List.singleton_append, lines_append hs,
        dropReturn_eq_self hl, ih filled single last]

theorem snd_numbered {α : Type} (xs : List α) : (numbered xs).map (·.2) = xs := by
  have items : (fun x : Nat × α => x.2) ∘ (fun x : α × Nat => (x.2 + 1, x.1)) = Prod.fst := rfl
  simp only [numbered, List.map_map, items, List.zipIdx_map_fst]

end Mips.Text
