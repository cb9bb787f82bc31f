import Mathlib.Data.List.Forall2
import Mips.Proofs.Assembly.Strings
import Mips.Proofs.Machine.Loading
import Mips.Assembly.Directive

namespace Mips

theorem mapM_eq_ok_iff {ε α β : Type} {f : α → Except ε β} {as : List α} {bs : List β} :
    as.mapM f = .ok bs ↔ List.Forall₂ (fun a b => f a = .ok b) as bs := by
  induction as generalizing bs with
  | nil =>
    rw [List.mapM_nil, List.forall₂_nil_left_iff]
    exact ⟨fun done => (Except.ok.inj done).symm, fun none => none ▸ rfl⟩
  | cons a as ih =>
    rw [List.mapM_cons, bind_eq_ok_iff, List.forall₂_cons_left_iff]
    constructor
    · rintro ⟨b, first, rest⟩
      obtain ⟨bs, later, done⟩ := bind_eq_ok_iff.mp rest
      exact ⟨b, bs, first, ih.mp later, (Except.ok.inj done).symm⟩
    · rintro ⟨b, bs, first, later, rfl⟩
      exact ⟨b, first, bind_eq_ok_iff.mpr ⟨bs, ih.mpr later, rfl⟩⟩

namespace Assembly

/-- The last `n` digits of an integer to the base 256, the most significant first. -/
def bigEndian : Nat → Int → List UInt8
  | 0, _ => []
  | n + 1, z => bigEndian n (z / 256) ++ [UInt8.ofNat (z % 256).toNat]

def padded (bs : List UInt8) : List UInt8 :=
  bs ++ List.replicate ((4 - bs.length % 4) % 4) 0

def widths : List (String × Nat) := [(".word", 4), (".half", 2), (".byte", 1)]

def dataDirectives : List String := [".word", ".half", ".byte", ".ascii", ".asciiz", ".space"]

/-- A statement that begins with the name of a directive, and what follows the name. -/
inductive Directs (name : String) : List Char → List Char → Prop
  | alone : Directs name name.toList []
  | spaced {b : Char} {args : List Char} (blank : Text.isBlank b = true) :
      Directs name (name.toList ++ b :: args) args

def Values (args : List Char) (zs : List Int) : Prop :=
  List.Forall₂ (fun tok z => integer? tok = some z)
    (Text.fields (fun c => c == ',' || Text.isBlank c) args) zs

/-- A directive with its arguments, and the bytes that it stands for. -/
inductive Gives : String → List Char → List UInt8 → Prop
  | integers {name : String} {width : Nat} {args : List Char} {zs : List Int}
      (known : (name, width) ∈ widths) (values : Values args zs) :
      Gives name args (zs.flatMap (bigEndian width))
  | ascii {args s : List Char} (literal : Literal args s) : Gives ".ascii" args (Text.utf8 s)
  | asciiz {args s : List Char} (literal : Literal args s) :
      Gives ".asciiz" args (Text.utf8 s ++ [0])
  | space {args : List Char} {n : Nat} (value : Values args [(n : Int)]) (small : n ≤ maxSpace) :
      Gives ".space" args (List.replicate n 0)

/-- What follows the labels of a data line, and the bytes that it contributes. -/
inductive Contributes : List Char → List UInt8 → Prop
  | labels : Contributes [] []
  | directive {name : String} {rest args : List Char} {bs : List UInt8}
      (directs : Directs name rest args) (gives : Gives name args bs) : Contributes rest bs

theorem integerBytes_eq {n : Nat} (small : n ≤ 4) (z : Int) : integerBytes n z = bigEndian n z := by
  have whole : Word.bytes (Word.ofInt z) = bigEndian 4 z := by
    have value : ((Word.ofInt z).toNat : Int) = z % 0x100000000 := by
      rw [Word.ofInt_eq, BitVec.toNat_ofInt]
      omega
    have digit {a b : Nat} (same : a % 256 = b % 256) : UInt8.ofNat a = UInt8.ofNat b := by
      apply UInt8.toNat.inj
      rw [UInt8.toNat_ofNat', UInt8.toNat_ofNat']
      exact same
    simp only [Word.bytes, bigEndian, List.nil_append, List.cons_append, List.cons.injEq, and_true,
      Nat.shiftRight_eq_div_pow]
    exact ⟨digit (by omega), digit (by omega), digit (by omega), digit (by omega)⟩
  have kept : integerBytes n z = (bigEndian 4 z).drop (4 - n) := congrArg (List.drop (4 - n)) whole
  rw [kept]
  have each : n = 0 ∨ n = 1 ∨ n = 2 ∨ n = 3 ∨ n = 4 := by omega
  rcases each with rfl | rfl | rfl | rfl | rfl
  all_goals rfl

theorem length_padded (bs : List UInt8) : (padded bs).length = 4 * ((bs.length + 3) / 4) := by
  rw [padded, List.length_append, List.length_replicate]
  omega

theorem flatMap_bytes_pack (bs : List UInt8) : (pack bs).flatMap Word.bytes = padded bs := by
  have four (a b c d : UInt8) : Word.bytes (Word.ofBytes [a, b, c, d]) = [a, b, c, d] :=
    Word.bytes_ofBytes rfl
  fun_induction pack bs with
  | case1 => rfl
  | case2 a b c d r ih =>
    have count : (4 - (a :: b :: c :: d :: r).length % 4) % 4 = (4 - r.length % 4) % 4 := by
      simp only [List.length_cons]
      omega
    rw [List.flatMap_cons, four, ih, padded, padded, count]
    rfl
  | _ =>
    rw [List.flatMap_singleton, four]
    rfl

section Lines

variable {n : Nat} {name : String} {rest args : List Char} {bs : List UInt8}

theorem integers_eq_ok_iff {zs : List Int} : integers n args = .ok zs ↔ Values args zs := by
  rw [integers, mapM_eq_ok_iff]
  constructor
  · refine List.Forall₂.imp fun tok z read => ?_
    split at read
    · rename_i found
      rw [found, Except.ok.inj read]
    · cases read
  · refine List.Forall₂.imp fun tok z found => ?_
    rw [found]

theorem string_eq_ok_iff : string n args = .ok bs ↔ ∃ s, Literal args s ∧ bs = Text.utf8 s := by
  rw [← string?_eq_some_iff, string]
  cases string? args with
  | none => exact ⟨nofun, nofun⟩
  | some bs' => rw [Except.ok.injEq, Option.some.injEq]

theorem space_eq_ok_iff {k : Nat} :
    space n args = .ok k ↔ Values args [(k : Int)] ∧ k ≤ maxSpace := by
  rw [space, bind_eq_ok_iff]
  constructor
  · rintro ⟨zs, read, counted⟩
    split at counted
    · split at counted
      · cases counted
      · split at counted
        · cases counted
        · rename_i z _ _
          obtain rfl := Except.ok.inj counted
          have natural : ((z.toNat : Nat) : Int) = z := Int.toNat_of_nonneg (by omega)
          rw [natural]
          exact ⟨integers_eq_ok_iff.mp read, by omega⟩
    · cases counted
  · rintro ⟨value, small⟩
    refine ⟨[(k : Int)], integers_eq_ok_iff.mpr value, ?_⟩
    dsimp only
    rw [if_neg (by omega), if_neg (by omega), Int.toNat_natCast]

theorem directive_eq_ok_iff : directive n name.toList args = .ok bs ↔ Gives name args bs := by
  constructor
  · intro accepted
    have named {word : String} (same : name.toList = word.toList) : name = word :=
      String.toList_inj.mp same
    have kept {width : Nat} (known : (name, width) ∈ widths) (small : width ≤ 4)
        (read : (integers n args).map (·.flatMap (integerBytes width)) = .ok bs) :
        Gives name args bs := by
      obtain ⟨zs, values, rfl⟩ := map_eq_ok_iff.mp read
      have same : integerBytes width = bigEndian width := funext (integerBytes_eq small)
      rw [same]
      exact .integers known (integers_eq_ok_iff.mp values)
    unfold directive at accepted
    split at accepted
    · rename_i word
      exact kept (named word ▸ by decide) (by decide) accepted
    split at accepted
    · rename_i half
      exact kept (named half ▸ by decide) (by decide) accepted
    split at accepted
    · rename_i byte
      exact kept (named byte ▸ by decide) (by decide) accepted
    split at accepted
    · rename_i ascii
      obtain rfl := named ascii
      obtain ⟨s, literal, rfl⟩ := string_eq_ok_iff.mp accepted
      exact .ascii literal
    split at accepted
    · rename_i asciiz
      obtain rfl := named asciiz
      obtain ⟨_, read, rfl⟩ := map_eq_ok_iff.mp accepted
      obtain ⟨s, literal, rfl⟩ := string_eq_ok_iff.mp read
      exact .asciiz literal
    split at accepted
    · rename_i space
      obtain rfl := named space
      obtain ⟨k, read, rfl⟩ := map_eq_ok_iff.mp accepted
      obtain ⟨value, small⟩ := space_eq_ok_iff.mp read
      exact .space value small
    · cases accepted
  · rintro (@⟨_, width, _, zs, known, values⟩ | literal | literal | ⟨value, small⟩)
    · have read : integers n args = .ok zs := integers_eq_ok_iff.mpr values
      have width_le : ∀ entry ∈ widths, entry.2 ≤ 4 := by decide
      have same : bigEndian width = integerBytes width :=
        funext fun z => (integerBytes_eq (width_le _ known) z).symm
      simp only [widths, List.mem_cons, Prod.mk.injEq, List.not_mem_nil, or_false] at known
      rw [directive, same, read]
      rcases known with ⟨rfl, rfl⟩ | ⟨rfl, rfl⟩ | ⟨rfl, rfl⟩ <;> rfl
    · exact string_eq_ok_iff.mpr ⟨_, literal, rfl⟩
    · have read : string n args = .ok _ := string_eq_ok_iff.mpr ⟨_, literal, rfl⟩
      exact map_eq_ok_iff.mpr ⟨_, read, rfl⟩
    · have read : space n args = .ok _ := space_eq_ok_iff.mpr ⟨value, small⟩
      exact map_eq_ok_iff.mpr ⟨_, read, rfl⟩

theorem Gives.mem_dataDirectives (gives : Gives name args bs) : name ∈ dataDirectives := by
  have named : ∀ entry ∈ widths, entry.1 ∈ dataDirectives := by decide
  cases gives with
  | integers known _ => exact named _ known
  | _ => decide

theorem Gives.isBlank_name (gives : Gives name args bs) :
    name.toList ≠ [] ∧ ∀ c ∈ name.toList, Text.isBlank c = false := by
  have clean : ∀ word ∈ dataDirectives,
      word.toList ≠ [] ∧ word.toList.all (!Text.isBlank ·) = true := by
    decide
  obtain ⟨filled, clean⟩ := clean name gives.mem_dataDirectives
  exact ⟨filled, by simpa using clean⟩

theorem dataBytes_eq_ok_iff {l : Line} :
    dataBytes l = .ok bs ↔ Contributes (leadingLabels l.text).2 bs := by
  unfold dataBytes
  generalize (leadingLabels l.text).2 = rest
  dsimp only
  constructor
  · intro accepted
    split at accepted
    · rename_i none
      obtain rfl := Except.ok.inj accepted
      rw [none]
      exact .labels
    · split at accepted
      · rename_i name args cut
        obtain ⟨b, rfl, blank, _⟩ := Text.splitAtFirst_eq_some_iff.mp cut
        rw [← String.toList_ofList (l := name)] at accepted ⊢
        exact .directive (.spaced blank) (directive_eq_ok_iff.mp accepted)
      · rename_i name cut
        obtain rfl : rest = name := Text.eq_of_splitAtFirst_eq_none cut
        rw [← String.toList_ofList (l := rest)] at accepted ⊢
        exact .directive .alone (directive_eq_ok_iff.mp accepted)
  · rintro (_ | ⟨directs, gives⟩)
    · exact if_pos rfl
    · obtain ⟨filled, clean⟩ := gives.isBlank_name
      have accepted := directive_eq_ok_iff (n := l.number) |>.mpr gives
      cases directs with
      | alone =>
        rw [if_neg filled, Text.splitAtFirst_of_clean clean]
        exact accepted
      | spaced blank =>
        rw [if_neg (by simp), Text.splitAtFirst_append clean blank]
        exact accepted

end Lines

section Segments

variable {ls : List Line} {ws : List Word}

def Contributions (ts : List (List Char)) (chunks : List (List UInt8)) : Prop :=
  List.Forall₂ (fun t bs => Contributes (leadingLabels t).2 bs) ts chunks

theorem dataWords_eq_ok_iff :
    dataWords ls = .ok ws ↔
      ∃ chunks, Contributions (ls.map (·.text)) chunks ∧ ws = chunks.flatMap pack := by
  have packed (chunks : List (List UInt8)) :
      (chunks.map (packOnto [])).flatten = chunks.flatMap pack := by
    rw [List.flatMap_def]
    congr 2
    exact funext fun bs => packOnto_eq [] bs
  have each {chunks : List (List UInt8)} :
      ls.mapM dataBytes = .ok chunks ↔ Contributions (ls.map (·.text)) chunks := by
    simp only [mapM_eq_ok_iff, dataBytes_eq_ok_iff, Contributions, List.forall₂_map_left_iff]
  rw [dataWords, bind_eq_ok_iff]
  constructor
  · rintro ⟨chunks, encoded, done⟩
    rw [packed] at done
    exact ⟨chunks, each.mp encoded, (Except.ok.inj done).symm⟩
  · rintro ⟨chunks, contributions, rfl⟩
    refine ⟨chunks, each.mpr contributions, ?_⟩
    rw [packed]
    rfl

theorem flatMap_bytes_flatMap_pack (chunks : List (List UInt8)) :
    (chunks.flatMap pack).flatMap Word.bytes = chunks.flatMap padded := by
  rw [List.flatMap_assoc]
  exact congrArg (chunks.flatMap ·) (funext flatMap_bytes_pack)

theorem dataWords_append (a b : List Line) :
    dataWords (a ++ b) = do return (← dataWords a) ++ (← dataWords b) := by
  simp only [dataWords, List.mapM_append, bind_assoc, pure_bind, List.map_append,
    List.flatten_append]

theorem exists_dataWords_of_append {a b : List Line} (encoded : dataWords (a ++ b) = .ok ws) :
    ∃ wa wb, dataWords a = .ok wa ∧ dataWords b = .ok wb ∧ ws = wa ++ wb := by
  rw [dataWords_append] at encoded
  obtain ⟨wa, first, encoded⟩ := bind_eq_ok_iff.mp encoded
  obtain ⟨wb, rest, done⟩ := bind_eq_ok_iff.mp encoded
  exact ⟨wa, wb, first, rest, (Except.ok.inj done).symm⟩

theorem exists_read_of_load {m m₀ : Machine} {prog : Program}
    (loaded : m.load prog = (m₀, none)) :
    ∃ b, m₀.hart.mem.read m₀.hart.mem.layout.dataBase (4 * prog.data.length) = .ok b ∧
      b.toList = prog.data.flatMap Word.bytes := by
  obtain ⟨fits, rfl⟩ := Machine.load_eq_none_iff.mp loaded
  have begins := Program.toNat_dataBase fits
  have data := fits.data
  have backed : (prog.image m.hart.mem.layout).offset? m.hart.mem.layout.dataBase
      (4 * prog.data.length) = .ok m.hart.mem.layout.dataOffset.toNat := by
    rw [Memory.offset?_eq_ok_iff, Program.layout_image]
    omega
  refine ⟨_, map_eq_ok_iff.mpr ⟨_, backed, rfl⟩, ?_⟩
  rw [Block.toList, ← Word.length_flatMap_bytes]
  exact Contents.fetch_write ..

/-- Words that hold what data lines contribute, each line from a new word on. -/
structure Encodes (ls : List Line) (ws : List Word) : Prop where
  bytes : ∃ chunks, Contributions (ls.map (·.text)) chunks ∧
    ws.flatMap Word.bytes = chunks.flatMap padded
  parts : ∀ a b, ls = a ++ b →
    ∃ wa wb, dataWords a = .ok wa ∧ dataWords b = .ok wb ∧ ws = wa ++ wb
  boundary : ∀ a l b, ls = a ++ l :: b → ∃ wa bs wb, dataWords a = .ok wa ∧
    Contributes (leadingLabels l.text).2 bs ∧ dataWords b = .ok wb ∧
      ws.flatMap Word.bytes = wa.flatMap Word.bytes ++ (padded bs ++ wb.flatMap Word.bytes)
  loaded : ∀ (m m₀ : Machine) (text : List Word), m.load ⟨ws, text⟩ = (m₀, none) →
    ∃ b, m₀.hart.mem.read m₀.hart.mem.layout.dataBase (4 * ws.length) = .ok b ∧
      b.toList = ws.flatMap Word.bytes

/-- Accepted data lines become the words that hold what they contribute, filled up line by line. -/
theorem encodes_of_dataWords (encoded : dataWords ls = .ok ws) : Encodes ls ws := by
  refine ⟨?_, ?_, ?_, ?_⟩
  · obtain ⟨chunks, contributions, rfl⟩ := dataWords_eq_ok_iff.mp encoded
    exact ⟨chunks, contributions, flatMap_bytes_flatMap_pack chunks⟩
  · rintro a b rfl
    exact exists_dataWords_of_append encoded
  · rintro a l b rfl
    obtain ⟨wa, _, first, rest, rfl⟩ := exists_dataWords_of_append encoded
    obtain ⟨chunks, contributions, rfl⟩ := dataWords_eq_ok_iff.mp rest
    obtain ⟨bs, later, here, others, rfl⟩ := List.forall₂_cons_left_iff.mp contributions
    have last := dataWords_eq_ok_iff.mpr ⟨later, others, rfl⟩
    refine ⟨wa, bs, later.flatMap pack, first, here, last, ?_⟩
    rw [List.flatMap_append, List.flatMap_cons, List.flatMap_append, flatMap_bytes_pack]
  · intro m m₀ text loaded
    exact exists_read_of_load loaded

theorem encodes_of_dataWords_mixed :
    let ls : List Line := [⟨1, "x: .half -1, 2 3".toList⟩, ⟨2, "y:".toList⟩,
      ⟨3, ".asciiz \"ab\\n\"".toList⟩, ⟨4, ".space 1".toList⟩]
    dataWords ls = .ok [0xFFFF0002, 0x00030000, 0x61620A00, 0] ∧
      Encodes ls [0xFFFF0002, 0x00030000, 0x61620A00, 0] := by
  intro ls
  have encoded : dataWords ls = .ok [0xFFFF0002, 0x00030000, 0x61620A00, 0] :=
    toOption_eq_some_iff.mp (by decide +kernel)
  exact ⟨encoded, encodes_of_dataWords encoded⟩

end Segments

end Assembly
end Mips
