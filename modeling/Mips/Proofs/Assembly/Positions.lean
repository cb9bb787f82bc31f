import Mips.Proofs.Assembly.Comments
import Mips.Proofs.Assembly.Refusals
import Mips.Proofs.Assembly.Slots

/-!
The line that an error points at. Main statement: `quotes_iff_of_refused`, it is a line of the
source, and what the message quotes stands on it, unless that is a label which was carried there
from a line of its own.
-/
namespace Mips.Assembly

/-- Labels on line `j` are carried to line `k`: no instruction comes before that line. -/
def CarriedTo (ls : List (List Char)) (j k : Nat) : Prop :=
  j < k ∧ ∀ i, j ≤ i → i < k → instruction? ls i = none

/-- A label that is refused on a line to which it was carried. -/
def CarriedLabel (ls : List (List Char)) (k : Nat) (c : Cause) (name : List Char) : Prop :=
  (c = .duplicateLabel name ∨ c = .danglingLabel name) ∧
    ∃ j t, CarriedTo ls j k ∧ textStatement? ls j = some t ∧ name ∈ (leadingLabels t).1

section Roles

theorem infix_of_role {l t : List Char} (role : Role.of l = .statement t) : t <:+: l := by
  unfold Role.of at role
  dsimp only at role
  split at role
  · cases role
  split at role
  · cases role
  split at role
  · cases role
  split at role
  · cases role
  · cases role
    exact (Text.infix_trim _).trans (prefix_beforeComment false l).isInfix

theorem infix_of_statementAt? {start seg : Segment} {ls : List (List Char)} {k : Nat}
    {t : List Char} (found : statementAt? start seg ls k = some t) :
    ∃ l, ls[k]? = some l ∧ t <:+: l := by
  unfold statementAt? at found
  split at found
  · obtain ⟨l, line, statement⟩ := Option.bind_eq_some_iff.mp found
    refine ⟨l, line, infix_of_role ?_⟩
    unfold Role.statement? at statement
    split at statement
    · cases statement
      assumption
    · cases statement
  · cases found

end Roles

section Attached

variable {held ls out : List Line} {e : Error} {o : Line}

theorem exists_of_attachLabels_eq_error (refused : attachLabels held ls = .error e) :
    ∃ l, (l ∈ held ∨ l ∈ ls) ∧ e = ⟨l.number, .danglingLabel (lastLabel l.text)⟩ := by
  induction ls generalizing held with
  | nil =>
    cases held with
    | nil => cases refused
    | cons p held =>
      cases refused
      exact ⟨p, .inl List.mem_cons_self, rfl⟩
  | cons l ls ih =>
    by_cases only : LabelOnly l.text
    · rw [attachLabels_of_labelOnly only] at refused
      obtain ⟨p, there, rfl⟩ := ih refused
      refine ⟨p, ?_, rfl⟩
      simp only [List.mem_cons] at there ⊢
      tauto
    · rw [attachLabels_of_not_labelOnly only, map_eq_error_iff] at refused
      obtain ⟨p, there, rfl⟩ := ih refused
      exact ⟨p, .inr (List.mem_cons_of_mem l (by simpa using there)), rfl⟩

/-- A joined line is one that holds more than labels, behind the lines of labels just before it. -/
theorem exists_behind_of_mem (only : ∀ l ∈ held, LabelOnly l.text)
    (attached : attachLabels held ls = .ok out) (there : o ∈ out) :
    ∃ pre held' l post, held.reverse ++ ls = pre ++ (held'.reverse ++ l :: post) ∧
      (∀ l ∈ held', LabelOnly l.text) ∧ ¬LabelOnly l.text ∧
        o = ⟨l.number, spaced (behind held' l.text)⟩ := by
  induction ls generalizing held out with
  | nil =>
    cases held with
    | nil =>
      cases attached
      cases there
    | cons p held => cases attached
  | cons l ls ih =>
    by_cases labels : LabelOnly l.text
    · rw [attachLabels_of_labelOnly labels] at attached
      obtain ⟨pre, held', l', post, parts, only', more, same⟩ :=
        ih (List.forall_mem_cons.mpr ⟨labels, only⟩) attached there
      rw [List.reverse_cons, List.append_assoc, List.singleton_append] at parts
      exact ⟨pre, held', l', post, parts, only', more, same⟩
    · rw [attachLabels_of_not_labelOnly labels] at attached
      obtain ⟨out', rest, rfl⟩ := map_eq_ok_iff.mp attached
      rcases List.mem_cons.mp there with rfl | later
      · exact ⟨[], held, l, ls, rfl, only, labels, rfl⟩
      · obtain ⟨pre, held', l', post, parts, only', more, same⟩ :=
          ih (List.forall_mem_nil _) rest later
        rw [List.reverse_nil, List.nil_append] at parts
        refine ⟨held.reverse ++ l :: pre, held', l', post, ?_, only', more, same⟩
        rw [parts, List.append_assoc, List.cons_append]

end Attached

section Symbols

variable {t : Symbols} {e : Error} {line : Nat} {addr : Word} {ls : List Line}

theorem Symbols.exists_of_define_eq_error {names : List (List Char)}
    (refused : t.define line addr names = .error e) :
    ∃ name ∈ names, e = ⟨line, .duplicateLabel name⟩ := by
  induction names generalizing t with
  | nil => cases refused
  | cons name names ih =>
    unfold define at refused
    split at refused
    · cases refused
      exact ⟨name, List.mem_cons_self, rfl⟩
    · obtain ⟨other, there, rfl⟩ := ih refused
      exact ⟨other, List.mem_cons_of_mem name there, rfl⟩

theorem Symbols.exists_of_addLines_eq_error (refused : t.addLines addr ls = .error e) :
    ∃ o ∈ ls, ∃ name ∈ (leadingLabels o.text).1, e = ⟨o.number, .duplicateLabel name⟩ := by
  induction ls generalizing t addr with
  | nil => cases refused
  | cons l ls ih =>
    unfold addLines at refused
    split at refused
    · rename_i refused'
      cases refused
      obtain ⟨name, there, rfl⟩ := exists_of_define_eq_error refused'
      exact ⟨l, List.mem_cons_self, name, there, rfl⟩
    · obtain ⟨o, there, found⟩ := ih refused
      exact ⟨o, List.mem_cons_of_mem l there, found⟩

theorem exists_of_textWords_eq_error {symbols : Symbols}
    (refused : textWords symbols addr ls = .error e) :
    ∃ o ∈ ls, ∃ pc, lineWord o pc symbols = .error e := by
  induction ls generalizing addr with
  | nil => cases refused
  | cons l ls ih =>
    rcases bind_eq_error_iff.mp refused with here | ⟨w, _, refused⟩
    · exact ⟨l, List.mem_cons_self, addr, here⟩
    rcases bind_eq_error_iff.mp refused with later | ⟨ws, _, done⟩
    · obtain ⟨o, there, found⟩ := ih later
      exact ⟨o, List.mem_cons_of_mem l there, found⟩
    · cases done

end Symbols

section Lines

variable {ls : List (List Char)} {l : Line} {n : Nat}

theorem mem_textLinesBefore :
    l ∈ textLinesBefore ls n ↔ ∃ j t, j < n ∧ textStatement? ls j = some t ∧ l = ⟨j + 1, t⟩ := by
  simp only [textLinesBefore, List.mem_filterMap, List.mem_range, Option.map_eq_some_iff]
  constructor
  · rintro ⟨j, inside, t, found, rfl⟩
    exact ⟨j, t, inside, found, rfl⟩
  · rintro ⟨j, t, inside, found, rfl⟩
    exact ⟨j, inside, t, found, rfl⟩

theorem pairwise_textLinesBefore (ls : List (List Char)) (n : Nat) :
    (textLinesBefore ls n).Pairwise (·.number < ·.number) := by
  rw [textLinesBefore, List.pairwise_filterMap]
  refine List.pairwise_lt_range.imp fun {j k} before l first l' second => ?_
  obtain ⟨t, _, rfl⟩ := Option.map_eq_some_iff.mp first
  obtain ⟨t', _, rfl⟩ := Option.map_eq_some_iff.mp second
  exact Nat.succ_lt_succ before

theorem lt_length_of_textStatement? {k : Nat} {t : List Char}
    (found : textStatement? ls k = some t) : k < ls.length := by
  obtain ⟨l, line, _⟩ := infix_of_statementAt? found
  exact (List.getElem?_eq_some_iff.mp line).1

theorem carriedTo_of_parts {pre held post : List Line} {j k : Nat} {t t' : List Char}
    (parts : textLinesBefore ls ls.length = pre ++ (held.reverse ++ ⟨k + 1, t⟩ :: post))
    (only : ∀ l ∈ held, LabelOnly l.text) (there : ⟨j + 1, t'⟩ ∈ held) : CarriedTo ls j k := by
  have sorted := pairwise_textLinesBefore ls ls.length
  rw [parts] at sorted
  obtain ⟨_, sorted, first⟩ := List.pairwise_append.mp sorted
  obtain ⟨_, sorted, second⟩ := List.pairwise_append.mp sorted
  have later := (List.pairwise_cons.mp sorted).1
  have before : j + 1 < k + 1 :=
    second _ (List.mem_reverse.mpr there) _ List.mem_cons_self
  refine ⟨Nat.lt_of_succ_lt_succ before, fun i behind inside => ?_⟩
  -- a statement between the two stands in the text between them, where there are labels only
  cases found : instruction? ls i with
  | none => rfl
  | some u =>
    obtain ⟨statement, more⟩ := instruction?_eq_some_iff.mp found
    have member : (⟨i + 1, u⟩ : Line) ∈ textLinesBefore ls ls.length :=
      mem_textLinesBefore.mpr ⟨i, u, lt_length_of_textStatement? statement, statement, rfl⟩
    rw [parts, List.mem_append, List.mem_append, List.mem_cons] at member
    rcases member with front | between | same | behind'
    · have := first _ front _ (List.mem_append_left _ (List.mem_reverse.mpr there))
      simp only at this
      omega
    · exact absurd (only _ (List.mem_reverse.mp between)) more
    · have number := congrArg Line.number same
      simp only at number
      omega
    · have := later _ behind'
      simp only at this
      omega

end Lines

section Joined

variable {ls : List (List Char)} {k : Nat} {o : Line} {name tok : List Char}

/-- A line of the text that comes from line `k` of the source, behind the labels that were carried
to it. -/
structure Joined (ls : List (List Char)) (k : Nat) (o : Line) : Prop where
  number : o.number = k + 1
  parts : ∃ t held, textStatement? ls k = some t ∧ o.text = spaced (behind held t) ∧
    (∀ h ∈ held, LabelOnly h.text) ∧
      ∀ h ∈ held, ∃ j, textStatement? ls j = some h.text ∧ CarriedTo ls j k

theorem exists_joined_of_ofText {source : List Char} {s : Segments}
    (divided : Segments.ofText source = .ok s) (there : o ∈ s.text) :
    ∃ k, Joined (Text.lines source) k o := by
  obtain ⟨pre, held, l, post, parts, only, _, rfl⟩ :=
    exists_behind_of_mem (List.forall_mem_nil _) (attachLabels_of_ofText divided) there
  rw [List.reverse_nil, List.nil_append] at parts
  obtain ⟨k, t, _, statement, rfl⟩ : ∃ k t, k < (Text.lines source).length ∧
      textStatement? (Text.lines source) k = some t ∧ l = ⟨k + 1, t⟩ :=
    mem_textLinesBefore.mp (by simp [parts])
  refine ⟨k, rfl, t, held, statement, rfl, only, fun h waits => ?_⟩
  obtain ⟨j, t', _, earlier, rfl⟩ : ∃ j t', j < (Text.lines source).length ∧
      textStatement? (Text.lines source) j = some t' ∧ h = ⟨j + 1, t'⟩ :=
    mem_textLinesBefore.mp (by simp [parts, waits])
  exact ⟨j, earlier, carriedTo_of_parts parts only waits⟩

theorem Joined.label (joined : Joined ls k o) (there : name ∈ (leadingLabels o.text).1) :
    ∃ l, ls[k]? = some l ∧ (name <:+: l ∨
      ∃ j t, CarriedTo ls j k ∧ textStatement? ls j = some t ∧ name ∈ (leadingLabels t).1) := by
  obtain ⟨t, held, statement, text, only, carries⟩ := joined.parts
  obtain ⟨l, line, part⟩ := infix_of_statementAt? statement
  refine ⟨l, line, ?_⟩
  have named := isName_of_mem_leadingLabels there
  have clean : ' ' ∉ name := fun blank =>
    absurd (isBlank_of_isNameChar ((filled_of_isName named).2 _ blank)).1 (by decide)
  rw [text, leadingLabels_spaced_behind only, List.mem_append] at there
  rcases there with waits | own
  · obtain ⟨h, hh, labels⟩ := List.mem_flatMap.mp waits
    obtain ⟨j, earlier, carried⟩ := carries h (List.mem_reverse.mp hh)
    exact .inr ⟨j, h.text, carried, earlier, labels⟩
  · exact .inl ((infix_of_infix_spaced ((infix_leadingLabels _).1 name own) clean).trans part)

theorem Joined.token (joined : Joined ls k o) :
    ∃ l, ls[k]? = some l ∧ ∀ tok ∈ tokens (leadingLabels o.text).2, tok <:+: l := by
  obtain ⟨t, held, statement, text, only, _⟩ := joined.parts
  obtain ⟨l, line, part⟩ := infix_of_statementAt? statement
  refine ⟨l, line, fun tok there => ?_⟩
  rw [text, leadingLabels_spaced_behind only] at there
  obtain ⟨inside, clean⟩ := infix_of_mem_tokens there
  exact (infix_of_infix_spaced (inside.trans (infix_leadingLabels _).2) clean).trans part

end Joined

section Traced

variable {ls : List (List Char)} {k : Nat} {l : List Char} {o : Line} {e : Error}

/-- An error points at line `k`, and what it quotes stands there or is a label that was carried
there. -/
def Traced (ls : List (List Char)) (e : Error) : Prop :=
  ∃ k l, e.line = k + 1 ∧ ls[k]? = some l ∧
    ∀ x, e.cause.quoted? = some x → x <:+: l ∨ CarriedLabel ls k e.cause x

theorem Error.Quotes.traced (quotes : e.Quotes (k + 1) [l]) (line : ls[k]? = some l) :
    Traced ls e :=
  ⟨k, l, quotes.line, line, fun x named => .inl (within_singleton.mp (quotes.quoted x named))⟩

theorem traced_of_statement {start seg : Segment} {t : List Char}
    (statement : statementAt? start seg ls k = some t) (quotes : e.Quotes (k + 1) [t]) :
    Traced ls e := by
  obtain ⟨l, line, part⟩ := infix_of_statementAt? statement
  refine ⟨k, l, quotes.line, line, fun x named => .inl ?_⟩
  exact (within_singleton.mp (quotes.quoted x named)).trans part

theorem Joined.traced_duplicate (joined : Joined ls k o) {name : List Char}
    (there : name ∈ (leadingLabels o.text).1) : Traced ls ⟨o.number, .duplicateLabel name⟩ := by
  obtain ⟨l, line, found⟩ := joined.label there
  refine ⟨k, l, joined.number, line, ?_⟩
  rintro x ⟨⟩
  exact found.imp id fun carried => ⟨.inl rfl, carried⟩

theorem Joined.traced_dangling (joined : Joined ls k o) :
    Traced ls ⟨o.number, .danglingLabel (lastLabel o.text)⟩ := by
  rw [lastLabel]
  cases last : (leadingLabels o.text).1.getLast? with
  | none =>
    obtain ⟨l, line, _⟩ := joined.token
    exact ⟨k, l, joined.number, line, fun x named =>
      .inl (Option.some.inj named ▸ List.nil_infix ..)⟩
  | some name =>
    obtain ⟨l, line, found⟩ := joined.label (List.mem_of_getLast? last)
    refine ⟨k, l, joined.number, line, ?_⟩
    rintro x ⟨⟩
    exact found.imp id fun carried => ⟨.inr rfl, carried⟩

theorem Joined.traced_lineWord (joined : Joined ls k o) {pc : Word} {symbols : Symbols}
    (refused : lineWord o pc symbols = .error e) : Traced ls e := by
  cases cut : tokens (leadingLabels o.text).2 with
  | nil =>
    simp only [lineWord, cut] at refused
    cases refused
    exact joined.traced_dangling
  | cons tok toks =>
    have filled : tokens (leadingLabels o.text).2 ≠ [] := cut ▸ List.cons_ne_nil tok toks
    obtain ⟨l, line, inside⟩ := joined.token
    have quotes := (quoting_lineWord filled).mono
      (fun tok there => within_singleton.mpr (inside tok there)) e refused
    rw [joined.number] at quotes
    exact quotes.traced line

end Traced

theorem exists_statementAt?_of_mem {source : List Char} {seg : Segment} {l : Line}
    (there : l ∈ linesOf seg (statements .text (Text.numbered (Text.lines source)))) :
    ∃ k, statementAt? .text seg (Text.lines source) k = some l.text ∧ l.number = k + 1 := by
  rw [Text.numbered, linesOf_statements, List.mem_filterMap] at there
  obtain ⟨k, _, found⟩ := there
  obtain ⟨t, statement, rfl⟩ := Option.map_eq_some_iff.mp found
  exact ⟨k, statement, by rw [Nat.zero_add]⟩

theorem traced_of_refused {source : List Char} {e : Error} (refused : assemble source = .error e) :
    Traced (Text.lines source) e := by
  rcases bind_eq_error_iff.mp refused with undivided | ⟨s, divided, refused⟩
  · obtain ⟨l, there, rfl⟩ := exists_of_attachLabels_eq_error (map_eq_error_iff.mp undivided)
    obtain ⟨k, statement, number⟩ := exists_statementAt?_of_mem (by simpa using there)
    refine traced_of_statement statement ⟨number, ?_⟩
    rintro x ⟨⟩
    exact within_singleton.mpr (infix_lastLabel l.text)
  · have data : s.data = linesOf .data (statements .text (Text.numbered (Text.lines source))) := by
      obtain ⟨_, _, rfl⟩ := map_eq_ok_iff.mp divided
      rfl
    -- first the data is encoded, then labels get their addresses, then instructions are encoded
    rcases bind_eq_error_iff.mp refused with undone | ⟨_, _, refused⟩
    · rcases bind_eq_error_iff.mp undone with undone | ⟨_, _, done⟩
      · obtain ⟨l, there, undone⟩ := exists_of_mapM_eq_error undone
        obtain ⟨k, statement, number⟩ := exists_statementAt?_of_mem (data ▸ there)
        exact traced_of_statement statement (number ▸ quoting_dataBytes l e undone)
      · cases done
    rcases bind_eq_error_iff.mp refused with unnamed | ⟨_, _, refused⟩
    · obtain ⟨o, there, name, labelled, rfl⟩ := Symbols.exists_of_addLines_eq_error unnamed
      obtain ⟨k, joined⟩ := exists_joined_of_ofText divided there
      exact joined.traced_duplicate labelled
    rcases bind_eq_error_iff.mp refused with unencoded | ⟨_, _, done⟩
    · obtain ⟨o, there, pc, unencoded⟩ := exists_of_textWords_eq_error unencoded
      obtain ⟨k, joined⟩ := exists_joined_of_ofText divided there
      exact joined.traced_lineWord unencoded
    · cases done

/-- A label that is refused on a line where it does not stand. -/
def Displaced (ls : List (List Char)) (k : Nat) (l : List Char) (c : Cause) : Prop :=
  ∃ name, CarriedLabel ls k c name ∧ ¬name <:+: l

/-- An error points at a line of the source, and what its message quotes stands on that line unless
it is a label that was carried there. -/
theorem quotes_iff_of_refused {source : List Char} {e : Error}
    (refused : assemble source = .error e) :
    ∃ k l, e.line = k + 1 ∧ (Text.lines source)[k]? = some l ∧
      ((∀ x, e.cause.quoted? = some x → x <:+: l) ↔
        ¬Displaced (Text.lines source) k l e.cause) := by
  obtain ⟨k, l, line, here, quoted⟩ := traced_of_refused refused
  refine ⟨k, l, line, here, ?_⟩
  constructor
  · rintro stands ⟨name, ⟨cause, _⟩, absent⟩
    apply absent
    apply stands
    rcases cause with cause | cause
    · rw [cause, Cause.quoted?]
    · rw [cause, Cause.quoted?]
  · intro placed x named
    rcases quoted x named with stands | carried
    · exact stands
    · by_contra absent
      exact placed ⟨x, carried, absent⟩

/-- A register that is quoted where it stands, and a label that is quoted on a line behind its own.
-/
theorem quotes_iff_of_refused_carried :
    let plain := "x: nop\n add $t0, $q9,$t1 # y".toList
    let doubled := "q:\nq:\nsyscall\n".toList
    assemble plain = .error ⟨2, .unknownRegister "$q9".toList⟩ ∧
      "$q9".toList <:+: " add $t0, $q9,$t1 # y".toList ∧
        assemble doubled = .error ⟨3, .duplicateLabel ['q']⟩ ∧
          Displaced (Text.lines doubled) 2 "syscall".toList (.duplicateLabel ['q']) := by
  have stands {source l x : List Char}
      (refused : assemble source = .error ⟨2, .unknownRegister x⟩)
      (line : (Text.lines source)[1]? = some l) : x <:+: l := by
    obtain ⟨k, l', number, here, quoted⟩ := quotes_iff_of_refused refused
    obtain rfl : 1 = k := Nat.succ.inj number
    obtain rfl := Option.some.inj (line.symm.trans here)
    refine quoted.mpr ?_ x rfl
    rintro ⟨name, ⟨cause | cause, _⟩, _⟩
    · cases cause
    · cases cause
  have displaced {source l name : List Char}
      (refused : assemble source = .error ⟨3, .duplicateLabel name⟩)
      (line : (Text.lines source)[2]? = some l) (absent : ¬name <:+: l) :
      Displaced (Text.lines source) 2 l (.duplicateLabel name) := by
    obtain ⟨k, l', number, here, quoted⟩ := quotes_iff_of_refused refused
    obtain rfl : 2 = k := Nat.succ.inj number
    obtain rfl := Option.some.inj (line.symm.trans here)
    by_contra placed
    exact absent (quoted.mpr placed name rfl)
  intro plain doubled
  have refused : assemble plain = .error ⟨2, .unknownRegister "$q9".toList⟩ := by decide +kernel
  have twice : assemble doubled = .error ⟨3, .duplicateLabel ['q']⟩ := by decide +kernel
  exact ⟨refused, stands refused (by decide +kernel), twice,
    displaced twice (by decide +kernel) (by decide +kernel)⟩

end Mips.Assembly
