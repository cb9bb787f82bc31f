import Mips.Proofs.Assembly.Sources
import Mips.Proofs.Process.Printing

/-!
Tables of strings: a data segment with one string to a line, each with a zero behind it. Main
statement: `prints_of_assemble`, such a source is assembled, and each string is printed from its
place, whatever characters it and the comments hold.
-/
namespace Mips.Assembly

theorem beginsWith_label {word name t : List Char} (named : isName name = true)
    (colonless : ':' ∉ word) : beginsWith word (name ++ ':' :: t) = false := by
  obtain ⟨_, chars⟩ := filled_of_isName named
  rw [← Bool.not_eq_true, beginsWith_eq_true_iff]
  rintro ⟨rest, parts, stops⟩
  have colon : rest.head? ≠ some ':' := fun first => absurd (stops _ first) (by decide)
  rcases List.append_eq_append_iff.mp parts with ⟨a, rfl, later⟩ | ⟨c, rfl, rfl⟩
  · cases a with
    | nil => exact colon (congrArg List.head? later).symm
    | cons x a =>
      obtain ⟨rfl, _⟩ := List.cons.inj later
      exact colonless (by simp)
  · cases c with
    | nil => exact colon rfl
    | cons x c =>
      have clean := (isBlank_of_isNameChar (chars x (by simp))).1
      rw [stops x rfl] at clean
      cases clean

/-- A line that places a string: the directive with the string as a literal, perhaps with a label
before it and a comment behind it, and blanks between these. -/
structure StringLine where
  text : List Char
  label : Option (List Char) := none
  comment : Option (List Char) := none
  indent : List Char := []
  gap : List Char := []
  before : List Char := [' ']
  behind : List Char := []
  named : ∀ name ∈ label, isName name = true
  single : ∀ t ∈ comment, '\n' ∉ t
  blank : ∀ c ∈ indent ++ (gap ++ (before ++ behind)), Text.isBlank c = true ∧ c ≠ '\n'
  separated : before ≠ []
  terminated : '\x00' ∉ text

namespace StringLine

def heading (l : StringLine) : List Char :=
  match l.label with
  | none => []
  | some name => name ++ ':' :: l.gap

def literal (l : StringLine) : List Char := '"' :: (escaped l.text ++ ['"'])

def word : List Char := ".asciiz".toList

def body (l : StringLine) : List Char := word ++ (l.before ++ l.literal)

def statement (l : StringLine) : List Char := l.heading ++ l.body

def remark (l : StringLine) : List Char :=
  match l.comment with
  | none => []
  | some t => '#' :: t

def render (l : StringLine) : List Char :=
  l.indent ++ (l.statement ++ (l.behind ++ l.remark))

def bytes (l : StringLine) : List UInt8 := Text.utf8 l.text ++ [0]

variable (l : StringLine)

theorem isBlank_parts : (∀ c ∈ l.indent, Text.isBlank c = true) ∧
    (∀ c ∈ l.gap, Text.isBlank c = true) ∧ (∀ c ∈ l.before, Text.isBlank c = true) ∧
      (∀ c ∈ l.behind, Text.isBlank c = true) := by
  refine ⟨?_, ?_, ?_, ?_⟩ <;> exact fun c hc => (l.blank c (by simp [hc])).1

theorem heading_eq : l.heading = [] ∨ ∃ name, isName name = true ∧
    l.heading = name ++ ':' :: l.gap := by
  have named := l.named
  cases label : l.label with
  | none => exact .inl (by rw [heading, label])
  | some name =>
    rw [label] at named
    exact .inr ⟨name, named name rfl, by rw [heading, label]⟩

theorem labelPrefix_heading : LabelPrefix l.heading l.label.toList := by
  obtain ⟨_, gap, _, _⟩ := l.isBlank_parts
  have named := l.named
  unfold heading
  cases label : l.label with
  | none => exact .blank (List.forall_mem_nil _)
  | some name =>
    rw [label] at named
    exact .label (l := []) (r := []) (List.forall_mem_nil _) (named name rfl)
      (List.forall_mem_nil _) (.blank gap)

theorem clean_before_literal {c : Char} (special : c = '"' ∨ c = '#') :
    c ∉ l.heading ++ (word ++ l.before) := by
  have unblank : Text.isBlank c = false ∧ isNameChar c = false ∧ c ≠ ':' := by
    rcases special with rfl | rfl <;> decide
  obtain ⟨_, _, before, _⟩ := l.isBlank_parts
  rw [List.mem_append, List.mem_append]
  rintro (heading | word | blank)
  · rcases l.labelPrefix_heading.of_mem heading with letter | blank | colon
    · rw [unblank.2.1] at letter
      cases letter
    · rw [unblank.1] at blank
      cases blank
    · exact unblank.2.2 colon
  · rcases special with rfl | rfl <;> revert word <;> decide
  · have clean := before c blank
    rw [unblank.1] at clean
    cases clean

theorem beforeComment_remark : beforeComment false l.remark = [] := by
  unfold remark
  split <;> rfl

theorem withoutComment_render :
    withoutComment l.render = l.indent ++ (l.statement ++ l.behind) := by
  obtain ⟨indent, _, _, behind⟩ := l.isBlank_parts
  have parts : l.statement ++ (l.behind ++ l.remark) =
      (l.heading ++ (word ++ l.before)) ++
        '"' :: (escaped l.text ++ '"' :: (l.behind ++ l.remark)) := by
    simp only [statement, body, literal, List.append_assoc, List.cons_append, List.nil_append]
  have opened (s : List Char) : beforeComment false ('"' :: s) = '"' :: beforeComment true s := rfl
  rw [withoutComment, render, beforeComment_blank_append indent, parts,
    beforeComment_append_of_clean (l.clean_before_literal (.inl rfl))
      (l.clean_before_literal (.inr rfl)), opened,
    beforeComment_append_of_unescapes (unescapes_escaped l.text), beforeComment_blank_append behind,
    l.beforeComment_remark]
  simp only [statement, body, literal, List.append_assoc, List.cons_append, List.nil_append,
    List.append_nil]

theorem getLast?_body : l.body.getLast? = some '"' := by
  have ends : l.body = (word ++ (l.before ++ '"' :: escaped l.text)) ++ ['"'] := by
    simp only [body, literal, List.append_assoc, List.cons_append]
  rw [ends, List.getLast?_concat]

theorem trim_statement : Text.trim l.statement = l.statement := by
  apply Text.trim_eq_self
  · intro c first
    rcases l.heading_eq with none | ⟨name, named, some⟩
    · rw [statement, none] at first
      obtain rfl := Option.some.inj first
      decide
    · obtain ⟨filled, chars⟩ := filled_of_isName named
      obtain ⟨d, name, rfl⟩ := List.exists_cons_of_ne_nil filled
      rw [statement, some] at first
      obtain rfl := Option.some.inj first
      exact (isBlank_of_isNameChar (chars d List.mem_cons_self)).1
  · intro c last
    rw [statement, List.getLast?_append, l.getLast?_body] at last
    obtain rfl := Option.some.inj last
    decide

theorem role_render : Role.of l.render = .statement l.statement := by
  obtain ⟨indent, _, _, behind⟩ := l.isBlank_parts
  have trimmed : Text.trim (withoutComment l.render) = l.statement := by
    rw [l.withoutComment_render, Text.trim_append_of_blank indent behind, l.trim_statement]
  have filled : l.statement ≠ [] := by
    intro empty
    have last := l.getLast?_body
    rw [(List.append_eq_nil_iff.mp empty).2] at last
    cases last
  have other : ¬DirectiveLine l.render := by
    rw [not_directiveLine_iff, trimmed]
    intro word known
    rcases l.heading_eq with none | ⟨name, named, some⟩
    · rw [statement, none]
      simp only [directiveWords, List.mem_cons, List.not_mem_nil, or_false] at known
      rcases known with rfl | rfl | rfl | rfl <;> rfl
    · have colonless : ∀ word ∈ directiveWords, ':' ∉ word.toList := by decide
      rw [statement, some, List.append_assoc, List.cons_append]
      exact beginsWith_label named (colonless word known)
  rw [role_of_not_directiveLine other, trimmed, if_neg filled]

/-- A colon inside of the literal ends no label: the quote before it belongs to no name. -/
theorem firstLabel?_body : firstLabel? l.body = none := by
  obtain ⟨_, _, before, _⟩ := l.isBlank_parts
  have parts : l.body = (word ++ (l.before ++ ['"'])) ++ (escaped l.text ++ ['"']) := by
    simp only [body, literal, List.append_assoc, List.cons_append, List.nil_append]
  have quote : '"' ∈ word ++ (l.before ++ ['"']) := by simp
  have clean : ':' ∉ word ++ (l.before ++ ['"']) := by
    rw [List.mem_append, List.mem_append, List.mem_singleton]
    rintro (letter | blank | quote)
    · exact absurd letter (by decide)
    · exact absurd (before _ blank) (by decide)
    · exact absurd quote (by decide)
  rw [Option.eq_none_iff_forall_ne_some]
  rintro ⟨name, rest⟩ found
  obtain ⟨front, after, cut, colonless, rfl, named, _⟩ := firstLabel?_eq_some_iff.mp found
  have inside : '"' ∈ front := by
    rcases List.append_eq_append_iff.mp (parts.symm.trans cut) with ⟨a, rfl, _⟩ | ⟨c, whole, later⟩
    · exact List.mem_append_left _ quote
    · cases c with
      | nil => rwa [whole, List.append_nil] at quote
      | cons x c =>
        obtain ⟨rfl, _⟩ := List.cons.inj later
        exact absurd (whole ▸ List.mem_append_right _ List.mem_cons_self) clean
  obtain ⟨b, b', first, last, trimmed⟩ := Text.exists_trim front
  rw [trimmed, List.mem_append, List.mem_append] at inside
  rcases inside with blank | letter | blank
  · exact absurd (first _ blank) (by decide)
  · exact absurd ((filled_of_isName named).2 _ letter) (by decide)
  · exact absurd (last _ blank) (by decide)

theorem leadingLabels_statement : leadingLabels l.statement = (l.label.toList, l.body) := by
  have body : leadingLabels l.body = ([], l.body) := by
    apply leadingLabels_of_firstLabel?_eq_none l.firstLabel?_body
    · intro c first
      obtain rfl := Option.some.inj first
      decide
    · intro c last
      rw [l.getLast?_body] at last
      obtain rfl := Option.some.inj last
      decide
  rw [statement, l.labelPrefix_heading.leadingLabels_append, body, List.append_nil]

theorem literal_of_body : ∃ args, Directs ".asciiz" l.body args ∧ Literal args l.text := by
  obtain ⟨_, _, before, _⟩ := l.isBlank_parts
  obtain ⟨b, gap, parts⟩ := List.exists_cons_of_ne_nil l.separated
  rw [parts] at before
  obtain ⟨blank, before⟩ := List.forall_mem_cons.mp before
  refine ⟨gap ++ l.literal, ?_, escaped l.text, ?_, unescapes_escaped l.text⟩
  · rw [body, parts, List.cons_append]
    exact .spaced blank
  · have kept : Text.trim l.literal = l.literal := by
      apply Text.trim_eq_self
      · intro c first
        obtain rfl := Option.some.inj first
        decide
      · intro c last
        rw [literal, ← List.cons_append, List.getLast?_concat] at last
        obtain rfl := Option.some.inj last
        decide
    have trimmed := Text.trim_append_of_blank (s := l.literal) before (List.forall_mem_nil _)
    rwa [List.append_nil, kept] at trimmed

theorem contributes_statement : Contributes (leadingLabels l.statement).2 l.bytes := by
  obtain ⟨args, directs, literal⟩ := l.literal_of_body
  rw [l.leadingLabels_statement]
  exact .directive directs (.asciiz literal)

theorem not_mem_escaped (s : List Char) : '\n' ∉ escaped s := by
  have each (c : Char) : '\n' ∉ escapeInLiteral c := by
    fun_cases escapeInLiteral c with
    | case5 _ _ _ feed => exact fun there => feed (List.mem_singleton.mp there).symm
    | _ => decide
  simp only [escaped, List.mem_flatMap, not_exists, not_and]
  exact fun c _ => each c

theorem single_render : '\n' ∉ l.render := by
  have blank {s : List Char} (part : ∀ c ∈ s, c ∈ l.indent ++ (l.gap ++ (l.before ++ l.behind))) :
      '\n' ∉ s := fun there => (l.blank _ (part _ there)).2 rfl
  have indent : '\n' ∉ l.indent := blank (by simp +contextual)
  have gap : '\n' ∉ l.gap := blank (by simp +contextual)
  have before : '\n' ∉ l.before := blank (by simp +contextual)
  have behind : '\n' ∉ l.behind := blank (by simp +contextual)
  have heading : '\n' ∉ l.heading := by
    rcases l.heading_eq with none | ⟨name, named, some⟩
    · rw [none]
      exact List.not_mem_nil
    · rw [some, List.mem_append, List.mem_cons]
      rintro (letter | colon | blank)
      · exact absurd ((filled_of_isName named).2 _ letter) (by decide)
      · cases colon
      · exact gap blank
  have remark : '\n' ∉ l.remark := by
    have single := l.single
    unfold remark
    cases comment : l.comment with
    | none => exact List.not_mem_nil
    | some t =>
      rw [comment] at single
      exact List.not_mem_cons_of_ne_of_not_mem (by decide) (single t rfl)
  have word : '\n' ∉ word := by decide
  simp [render, statement, body, literal, indent, heading, word, before, not_mem_escaped, behind,
    remark]

end StringLine

namespace StringTable

def source (ls : List StringLine) (ended : Bool) : List Char :=
  ['\n'].intercalate (".data".toList :: (ls.map (·.render) ++ if ended then [[]] else []))

def words (ls : List StringLine) : List Word := ls.flatMap (pack ·.bytes)

def place : List StringLine → Nat → Nat
  | l :: ls, j + 1 => 4 * (((Text.utf8 l.text).length + 1 + 3) / 4) + place ls j
  | _, _ => 0

structure Calls (m₀ : Machine) (ls : List StringLine) (j : Nat) (p : Process) : Prop where
  layout : p.hart.mem.layout = m₀.hart.mem.layout
  kept : ∀ k < 4 * (words ls).length,
    p.hart.mem.byteAt (m₀.hart.mem.layout.dataOffset.toNat + k) =
      m₀.hart.mem.byteAt (m₀.hart.mem.layout.dataOffset.toNat + k)
  service : (p.reg Register.v0).toNat = 4
  argument : (p.reg Register.a0).toNat = m₀.hart.mem.layout.dataBase.toNat + place ls j

section Tables

variable (ls : List StringLine)

theorem roles_source (ended : Bool) : ∃ rest, (rest = [] ∨ rest = [Role.ignored]) ∧
    ((source ls ended).splitOn '\n').map Role.of =
      .marker .data :: (ls.map (.statement ·.statement) ++ rest) := by
  have single : ∀ l ∈ ".data".toList :: (ls.map (·.render) ++ if ended then [[]] else []),
      '\n' ∉ l := by
    intro l there
    rcases List.mem_cons.mp there with rfl | there
    · decide
    rcases List.mem_append.mp there with line | last
    · obtain ⟨l, _, rfl⟩ := List.mem_map.mp line
      exact l.single_render
    · cases ended with
      | false => cases last
      | true =>
        obtain rfl := List.mem_singleton.mp last
        exact List.not_mem_nil
  have marker : Role.of ".data".toList = .marker .data := by decide
  have roles : (ls.map (·.render)).map Role.of = ls.map (.statement ·.statement) := by
    rw [List.map_map]
    exact List.map_congr_left fun l _ => l.role_render
  rw [source, List.splitOn_intercalate _ single (List.cons_ne_nil _ _), List.map_cons, marker,
    List.map_append, roles]
  cases ended with
  | false => exact ⟨[], .inl rfl, rfl⟩
  | true => exact ⟨[.ignored], .inr rfl, rfl⟩

theorem assemble_source (ended : Bool) :
    assemble (source ls ended) = .ok ⟨words ls, []⟩ := by
  have data : texts .data .data (ls.map (.statement ·.statement)) = ls.map (·.statement) := by
    induction ls with
    | nil => rfl
    | cons l ls ih => rw [List.map_cons, texts, if_pos rfl, ih, List.map_cons]
  have text : texts .text .data (ls.map (.statement ·.statement)) = [] := by
    clear data
    induction ls with
    | nil => rfl
    | cons l ls ih => rw [List.map_cons, texts, if_neg (by decide), ih]
  have chunks : Contributions (ls.map (·.statement)) (ls.map (·.bytes)) := by
    rw [Contributions, List.forall₂_map_left_iff, List.forall₂_map_right_iff, List.forall₂_same]
    exact fun l _ => l.contributes_statement
  have yields : Yields (.marker .data :: ls.map (.statement ·.statement)) ⟨words ls, []⟩ := by
    refine ⟨⟨ls.map (·.bytes), ?_, ?_⟩, [], ?_, [], {}, rfl, rfl, rfl⟩
    · rw [texts, data]
      exact chunks
    · rw [List.flatMap_map]
      rfl
    · rw [texts, text]
      rfl
  obtain ⟨rest, tail, roles⟩ := roles_source ls ended
  rw [assemble_eq_ok_iff_yields, roles]
  rcases tail with rfl | rfl
  · rwa [List.append_nil]
  · rw [← List.cons_append]
    exact yields.congr (texts_append_ignored ..) (texts_append_ignored ..)

theorem flatMap_bytes_words : (words ls).flatMap Word.bytes = ls.flatMap (padded ·.bytes) := by
  have chunks := flatMap_bytes_flatMap_pack (ls.map (·.bytes))
  rwa [List.flatMap_map, List.flatMap_map] at chunks

theorem length_flatMap_padded (j : Nat) :
    ((ls.take j).flatMap (padded ·.bytes)).length = place ls j := by
  induction ls generalizing j with
  | nil => rw [List.take_nil, List.flatMap_nil, List.length_nil, place]; nofun
  | cons l ls ih =>
    cases j with
    | zero => rfl
    | succ j =>
      rw [List.take_succ_cons, List.flatMap_cons, List.length_append, ih, length_padded,
        StringLine.bytes, List.length_append, place]
      rfl

theorem exists_flatMap_bytes_words {ls : List StringLine} {j : Nat} {l : StringLine}
    (there : ls[j]? = some l) : ∃ a z, (words ls).flatMap Word.bytes = a ++ (l.bytes ++ z) ∧
      a.length = place ls j := by
  have parts : ls = ls.take j ++ l :: ls.drop (j + 1) := by
    obtain ⟨within, rfl⟩ := List.getElem?_eq_some_iff.mp there
    rw [← List.drop_eq_getElem_cons within, List.take_append_drop]
  let z := List.replicate ((4 - l.bytes.length % 4) % 4) 0 ++
    (ls.drop (j + 1)).flatMap (padded ·.bytes)
  refine ⟨(ls.take j).flatMap (padded ·.bytes), z, ?_, length_flatMap_padded ls j⟩
  conv => lhs; rw [flatMap_bytes_words, parts]
  rw [List.flatMap_append, List.flatMap_cons, padded, List.append_assoc]

end Tables

variable {ls : List StringLine} {m m₀ : Machine} {j : Nat} {l : StringLine} {p : Process}

theorem prints_of_calls (loaded : m.load ⟨words ls, []⟩ = (m₀, none)) (there : ls[j]? = some l)
    (calls : Calls m₀ ls j p) : p.Prints (Text.utf8 l.text) := by
  obtain ⟨fits, same⟩ := Machine.load_eq_none_iff.mp loaded
  have layout : m₀.hart.mem.layout = m.hart.mem.layout := by rw [same]; rfl
  have begins := Program.toNat_dataBase fits
  rw [← layout] at begins
  obtain ⟨b, read, bytes⟩ := exists_read_of_load loaded
  dsimp only at read bytes
  obtain ⟨off, backed, rfl⟩ := map_eq_ok_iff.mp read
  obtain ⟨_, rfl, within⟩ := Memory.offset?_eq_ok_iff.mp backed
  rw [begins, Nat.add_sub_cancel_left] at bytes within
  obtain ⟨a, z, parts, offset⟩ := exists_flatMap_bytes_words there
  have size := congrArg List.length parts
  rw [Word.length_flatMap_bytes] at size
  have kept : p.hart.mem.contents.fetch m₀.hart.mem.layout.dataOffset.toNat
      (a ++ (l.bytes ++ z)).length = a ++ (l.bytes ++ z) := by
    rw [← size, ← parts, ← bytes]
    exact Contents.fetch_congr calls.kept
  have string := Contents.fetch_of_fetch_append kept
  have argument := calls.argument
  rw [begins, ← calls.layout] at argument
  rw [← calls.layout] at within string
  rw [List.length_append, List.length_append, StringLine.bytes, List.length_append,
    List.length_singleton] at size
  rw [StringLine.bytes, List.length_append, List.length_singleton] at string
  have backed : p.hart.mem.offset? (p.reg Register.a0) 0 =
      .ok (p.hart.mem.layout.dataOffset.toNat + a.length) := by
    rw [Memory.offset?_eq_ok_iff]
    omega
  obtain ⟨b, found, text⟩ := Memory.exists_readString backed (by omega) string
    (Text.zero_not_mem_utf8 l.terminated)
  rw [← text]
  exact Process.prints_of_readString calls.service found

/-- A table of strings is assembled, and once it is loaded each string of it is printed from its
place. -/
theorem prints_of_assemble (ls : List StringLine) (ended : Bool) :
    assemble (source ls ended) = .ok ⟨words ls, []⟩ ∧
      ∀ {m m₀ : Machine}, m.load ⟨words ls, []⟩ = (m₀, none) →
        ∀ {j : Nat} {l : StringLine}, ls[j]? = some l →
          ∀ {p : Process}, Calls m₀ ls j p → p.Prints (Text.utf8 l.text) :=
  ⟨assemble_source ls ended, fun loaded _ _ there _ calls => prints_of_calls loaded there calls⟩

theorem prints_of_assemble_second :
    let first : StringLine :=
      { text := "a\"\\#:".toList, label := some "x".toList, comment := some " \"".toList,
        named := by decide, single := by decide, blank := List.forall_mem_singleton.mpr (by decide),
        separated := by decide, terminated := by decide }
    let second : StringLine :=
      { text := "ü\n".toList, named := by decide, single := by decide,
        blank := List.forall_mem_singleton.mpr (by decide), separated := by decide,
        terminated := by decide }
    source [first, second] true =
        ".data\nx:.asciiz \"a\\\"\\\\#:\"# \"\n.asciiz \"ü\\n\"\n".toList ∧
      assemble (source [first, second] true) = .ok ⟨words [first, second], []⟩ ∧
      ∃ m₀, (Machine.start {} ⟨{ source := .bytes {} none }, {}, {}, {}, ∅, 0⟩).load
          ⟨words [first, second], []⟩ = (m₀, none) ∧
        ∃ p, Calls m₀ [first, second] 1 p ∧ p.Prints [0xC3, 0xBC, 0x0A] := by
  intro first second
  obtain ⟨assembled, printed⟩ := prints_of_assemble [first, second] true
  have accepted : ((Machine.start {} ⟨{ source := .bytes {} none }, {}, {}, {}, ∅, 0⟩).load
      ⟨words [first, second], []⟩).2 = none := by decide +kernel
  obtain ⟨m₀, loaded, layout⟩ : ∃ m₀, (Machine.start {} ⟨{ source := .bytes {} none }, {}, {}, {},
      ∅, 0⟩).load ⟨words [first, second], []⟩ = (m₀, none) ∧ m₀.hart.mem.layout = {} :=
    ⟨_, by rw [← accepted], by decide +kernel⟩
  let p := (m₀.toProcess.setReg Register.v0 4).setReg Register.a0 0x00500008
  have calls : Calls m₀ [first, second] 1 p := by
    have service : p.reg Register.v0 = 4 := by
      simp [p, Process.reg, Process.setReg, Hart.write, Cpu.read_write, Register.index, Register.v0,
        Register.a0]
    have argument : p.reg Register.a0 = 0x00500008 := by
      simp [p, Process.reg, Process.setReg, Hart.write, Cpu.read_write, Register.a0]
    refine ⟨rfl, fun _ _ => rfl, by rw [service]; rfl, ?_⟩
    rw [argument, layout]
    decide +kernel
  have bytes : Text.utf8 second.text = [0xC3, 0xBC, 0x0A] := by decide +kernel
  exact ⟨by decide +kernel, assembled, m₀, loaded, p, calls, bytes ▸ printed loaded rfl calls⟩

end StringTable

end Mips.Assembly
