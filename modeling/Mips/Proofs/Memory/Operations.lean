import Mips.Proofs.Memory.Words

/-!
The operations on memory, each described by the bytes that it stores or looks at. Main statements:
`exists_perform_iff`, when an operation is carried out; `answers_of_perform`, what it answers; and
`byteAt_perform`, which bytes it leaves.
-/
namespace Mips

inductive Width
  | byte | half | word

namespace Width

def size : Width → Nat
  | byte => 1
  | half => 2
  | word => 4

def value (bytes : Nat → UInt8) (off : Nat) : Width → Nat
  | byte => (bytes off).toNat
  | half => (bytes off).toNat * 0x100 + (bytes (off + 1)).toNat
  | word =>
    (bytes off).toNat * 0x1000000 + (bytes (off + 1)).toNat * 0x10000 +
      (bytes (off + 2)).toNat * 0x100 + (bytes (off + 3)).toNat

def bytes (w : Word) : Width → List UInt8
  | byte => [UInt8.ofNat w.toNat]
  | half => [UInt8.ofNat (w.toNat / 0x100), UInt8.ofNat w.toNat]
  | word =>
    [UInt8.ofNat (w.toNat / 0x1000000), UInt8.ofNat (w.toNat / 0x10000),
      UInt8.ofNat (w.toNat / 0x100), UInt8.ofNat w.toNat]

theorem lowBytes_size (w : Word) (width : Width) : Word.lowBytes width.size w = width.bytes w := by
  cases width <;>
    simp [Word.lowBytes, Word.bytes, size, bytes, Nat.shiftRight_eq_div_pow]

theorem flatMap_bytes (ws : List Word) : ws.flatMap (word.bytes ·) = ws.flatMap Word.bytes := by
  have same : (word.bytes ·) = Word.bytes := funext fun w => (lowBytes_size w word).symm
  rw [same]

theorem number_eq_value (c : Contents) (off : Nat) (width : Width) :
    c.number off width.size = width.value c.byteAt off := by
  rw [Contents.number_eq, Contents.fetch_eq]
  cases width with
  | byte => simp [size, value, List.range'_succ]
  | half => simp [size, value, List.range'_succ]
  | word =>
    simp only [size, value, List.range'_succ, List.range'_zero, List.map_cons, List.map_nil,
      List.foldl_cons, List.foldl_nil, Nat.add_assoc, Nat.reduceAdd]
    omega

theorem value_lt (bytes : Nat → UInt8) (off : Nat) (width : Width) :
    width.value bytes off < 0x100000000 := by
  have bound (k : Nat) : (bytes k).toNat < 0x100 := (bytes k).toNat_lt
  have b₀ := bound off
  have b₁ := bound (off + 1)
  have b₂ := bound (off + 2)
  have b₃ := bound (off + 3)
  cases width <;> simp only [value] <;> omega

end Width

namespace Contents

variable {c : Contents} {off n : Nat}

theorem firstZero?_eq_some_iff {stop : Nat} :
    c.firstZero? off n = some stop ↔
      off ≤ stop ∧ stop < off + n ∧ c.byteAt stop = 0 ∧
        ∀ k, off ≤ k → k < stop → c.byteAt k ≠ 0 := by
  rw [firstZero?_eq, List.find?_range'_eq_some, List.mem_range'_1]
  simp only [decide_eq_true_eq, Bool.not_eq_true', decide_eq_false_iff_not]
  constructor
  · rintro ⟨zero, ⟨above, within⟩, others⟩
    exact ⟨above, within, zero, others⟩
  · rintro ⟨above, within, zero, others⟩
    exact ⟨zero, ⟨above, within⟩, others⟩

theorem firstZero?_eq_none_iff :
    c.firstZero? off n = none ↔ ∀ k, off ≤ k → k < off + n → c.byteAt k ≠ 0 := by
  rw [firstZero?_eq, List.find?_range'_eq_none]
  simp only [Bool.not_eq_true', decide_eq_false_iff_not, ne_eq]

end Contents

namespace Layout

def Backs (l : Layout) (addr : Word) (n : Nat) : Prop :=
  l.base.toNat ≤ addr.toNat ∧ addr.toNat - l.base.toNat + n ≤ l.size.toNat

instance (l : Layout) (addr : Word) (n : Nat) : Decidable (l.Backs addr n) :=
  inferInstanceAs (Decidable (_ ∧ _))

theorem Backs.mono {l : Layout} {addr : Word} {n k : Nat} (backed : l.Backs addr n)
    (short : k ≤ n) : l.Backs addr k :=
  ⟨backed.1, Nat.le_trans (Nat.add_le_add_left short _) backed.2⟩

/-- How far behind the first byte of memory an address lies. -/
def offset (l : Layout) (addr : Word) : Nat := addr.toNat - l.base.toNat

end Layout

namespace Memory

inductive Storing
  | word (addr : Word) (width : Width) (w : Word)
  | bytes (addr : Word) (bs : List UInt8)
  | block (addr : Word) (b : Block)
  | text (ws : List Word)
  | data (ws : List Word)

namespace Storing

def bytesStored : Storing → List UInt8
  | word _ width w => width.bytes w
  | bytes _ bs => bs
  | block _ b => b.toList
  | text ws | data ws => ws.flatMap (Width.word.bytes ·)

def addr (l : Layout) : Storing → Word
  | word addr _ _ | bytes addr _ | block addr _ => addr
  | text _ => l.textBase
  | data _ => l.dataBase

/-- Text must end before the data begins, wherever memory ends. -/
def Clear (l : Layout) : Storing → Prop
  | text ws => 4 * ws.length ≤ l.dataOffset.toNat
  | _ => True

instance (l : Layout) : (s : Storing) → Decidable (s.Clear l)
  | .text _ => inferInstanceAs (Decidable (_ ≤ _))
  | .word .. | .bytes .. | .block .. | .data _ => inferInstanceAs (Decidable True)

def Admitted (l : Layout) (s : Storing) : Prop :=
  l.Backs (s.addr l) s.bytesStored.length ∧ s.Clear l

instance (l : Layout) (s : Storing) : Decidable (s.Admitted l) :=
  inferInstanceAs (Decidable (_ ∧ _))

def byteStored? (l : Layout) (s : Storing) (k : Nat) : Option UInt8 :=
  if s.Admitted l ∧ l.offset (s.addr l) ≤ k then s.bytesStored[k - l.offset (s.addr l)]? else none

end Storing

inductive Reading
  | word (addr : Word) (width : Width)
  | bytes (addr : Word) (len : Nat)
  | string (addr : Word)

inductive Operation
  | store (s : Storing)
  | read (r : Reading)
  | grow (incr : Word)

inductive Answer
  | done
  | number (w : Word)
  | bytes (bs : List UInt8)

def store (m : Memory) : Storing → Except MemoryError Memory
  | .word addr width w => m.writeWord addr width.size w
  | .bytes addr bs => m.write addr bs
  | .block addr b => m.writeBlock addr b
  | .text ws => m.placeText ws
  | .data ws => m.placeData ws

def look (m : Memory) : Reading → Except MemoryError Answer
  | .word addr width => (m.readWord addr width.size).map .number
  | .bytes addr len => (m.read addr len).map (.bytes ·.toList)
  | .string addr => (m.readString addr).map (.bytes ·.toList)

/-- Carries out an operation. A refusal leaves memory as it is. -/
def perform (m : Memory) : Operation → Memory × Except MemoryError Answer
  | .store s =>
    match m.store s with
    | .ok m' => (m', .ok .done)
    | .error e => (m, .error e)
  | .read r => (m, m.look r)
  | .grow incr => (m.grow incr, .ok (.number m.heapEnd))

namespace Reading

/-- Whether bytes can be read. A string needs a zero behind it. -/
def Admitted (l : Layout) (bytes : Nat → UInt8) : Reading → Prop
  | word addr width => l.Backs addr width.size
  | .bytes addr len => l.Backs addr len
  | string addr =>
    l.base.toNat ≤ addr.toNat ∧ ∃ k, l.offset addr ≤ k ∧ k < l.size.toNat ∧ bytes k = 0

def Answers (l : Layout) (bytes : Nat → UInt8) : Reading → Answer → Prop
  | word addr width, .number w => w.toNat = width.value bytes (l.offset addr)
  | .bytes addr len, .bytes bs => bs = (List.range' (l.offset addr) len).map bytes
  | string addr, .bytes bs =>
    bs = (List.range' (l.offset addr) bs.length).map bytes ∧ 0 ∉ bs ∧
      l.offset addr + bs.length < l.size.toNat ∧ bytes (l.offset addr + bs.length) = 0
  | _, _ => False

end Reading

namespace Operation

def Admitted (l : Layout) (bytes : Nat → UInt8) : Operation → Prop
  | store s => s.Admitted l
  | read r => r.Admitted l bytes
  | grow _ => True

def Answers (l : Layout) (bytes : Nat → UInt8) (heapEnd : Word) : Operation → Answer → Prop
  | store _, .done => True
  | read r, a => r.Answers l bytes a
  | grow _, .number w => w = heapEnd
  | _, _ => False

def byteStored? (l : Layout) (k : Nat) : Operation → Option UInt8
  | store s => s.byteStored? l k
  | read _ | grow _ => none

end Operation

variable {m : Memory} {addr : Word} {n : Nat}

theorem offset?_of_backs (backed : m.layout.Backs addr n) :
    m.offset? addr n = .ok (m.layout.offset addr) :=
  offset?_eq_ok_iff.mpr ⟨backed.1, rfl, backed.2⟩

theorem backs_of_offset? {off : Nat} (found : m.offset? addr n = .ok off) :
    m.layout.Backs addr n := by
  obtain ⟨above, rfl, within⟩ := offset?_eq_ok_iff.mp found
  exact ⟨above, within⟩

theorem exists_error_of_not_backs (unbacked : ¬m.layout.Backs addr n) :
    ∃ e, m.offset? addr n = .error e := by
  cases found : m.offset? addr n with
  | ok off => exact absurd (backs_of_offset? found) unbacked
  | error e => exact ⟨e, rfl⟩

structure Stores (m : Memory) (addr : Word) (bs : List UInt8) (x : Except MemoryError Memory) :
    Prop where
  ok : m.layout.Backs addr bs.length → ∃ m', x = .ok m' ∧ m'.layout = m.layout ∧
    ∀ k, m'.byteAt k =
      if m.layout.offset addr ≤ k ∧ k < m.layout.offset addr + bs.length then
        bs.getD (k - m.layout.offset addr) 0
      else m.byteAt k
  error : ¬m.layout.Backs addr bs.length → ∃ e, x = .error e

theorem stores_write (m : Memory) (addr : Word) (bs : List UInt8) :
    Stores m addr bs (m.write addr bs) := by
  constructor
  · intro backed
    exact ⟨_, write_eq_ok_iff.mpr ⟨_, offset?_of_backs backed, rfl⟩, rfl,
      fun k => Contents.byteAt_write ..⟩
  · intro unbacked
    obtain ⟨e, refused⟩ := exists_error_of_not_backs unbacked
    exact ⟨e, map_eq_error_iff.mpr refused⟩

theorem stores_writeBlock (m : Memory) (addr : Word) (b : Block) :
    Stores m addr b.toList (m.writeBlock addr b) := by
  constructor
  · rw [b.length_toList]
    intro backed
    refine ⟨_, map_eq_ok_iff.mpr ⟨_, offset?_of_backs backed, rfl⟩, rfl, fun k => ?_⟩
    rw [byteAt, Contents.byteAt_copy, b.getD_toList]
    split
    · rw [if_pos (by omega)]
    · rfl
  · rw [b.length_toList]
    intro unbacked
    obtain ⟨e, refused⟩ := exists_error_of_not_backs unbacked
    exact ⟨e, map_eq_error_iff.mpr refused⟩

theorem Stores.map {bs : List UInt8} {x : Except MemoryError Memory} (stores : Stores m addr bs x)
    {f : Memory → Memory} (layout : ∀ m', (f m').layout = m'.layout)
    (contents : ∀ m', (f m').contents = m'.contents) : Stores m addr bs (x.map f) := by
  constructor
  · intro backed
    obtain ⟨m', done, same, bytes⟩ := stores.ok backed
    refine ⟨f m', map_eq_ok_iff.mpr ⟨m', done, rfl⟩, (layout m').trans same, fun k => ?_⟩
    rw [← bytes k, byteAt, contents, byteAt]
  · intro unbacked
    obtain ⟨e, refused⟩ := stores.error unbacked
    exact ⟨e, map_eq_error_iff.mpr refused⟩

theorem stores_store {s : Storing} (clear : s.Clear m.layout) :
    Stores m (s.addr m.layout) s.bytesStored (m.store s) := by
  cases s with
  | word addr width w =>
    simp only [store, writeWord, Width.lowBytes_size]
    exact stores_write m addr (width.bytes w)
  | bytes addr bs => exact stores_write m addr bs
  | block addr b => exact stores_writeBlock m addr b
  | text ws =>
    have long : ¬m.layout.dataOffset.toNat < 4 * ws.length := Nat.not_lt.mpr clear
    have stores := stores_write m m.layout.textBase (ws.flatMap Word.bytes)
    rw [← Width.flatMap_bytes] at stores
    simp only [store, placeText, if_neg long, ← Width.flatMap_bytes]
    exact stores.map (fun _ => rfl) fun _ => rfl
  | data ws =>
    have stores := stores_write m m.layout.dataBase (ws.flatMap Word.bytes)
    rw [← Width.flatMap_bytes] at stores
    simp only [store, placeData, ← Width.flatMap_bytes]
    exact stores.map (fun _ => rfl) fun _ => rfl

theorem store_of_admitted {s : Storing} (admitted : s.Admitted m.layout) :
    ∃ m', m.store s = .ok m' ∧ m'.layout = m.layout ∧
      ∀ k, m'.byteAt k = (s.byteStored? m.layout k).getD (m.byteAt k) := by
  obtain ⟨m', done, layout, bytes⟩ := (stores_store admitted.2).ok admitted.1
  refine ⟨m', done, layout, fun k => ?_⟩
  rw [bytes, Storing.byteStored?]
  by_cases before : m.layout.offset (s.addr m.layout) ≤ k
  · rw [if_pos (And.intro admitted before)]
    split
    · rename_i within
      rw [List.getD_eq_getElem?_getD, List.getElem?_eq_getElem (by omega)]
      rfl
    · rw [List.getElem?_eq_none (by omega)]
      rfl
  · rw [if_neg (fun both => before both.1), if_neg (fun both => before both.2)]
    rfl

theorem store_of_not_admitted {s : Storing} (unfit : ¬s.Admitted m.layout) :
    ∃ e, m.store s = .error e := by
  by_cases clear : s.Clear m.layout
  · exact (stores_store clear).error fun backed => unfit ⟨backed, clear⟩
  · cases s with
    | text ws => exact ⟨_, if_pos (Nat.not_le.mp clear)⟩
    | _ => exact absurd trivial clear

theorem exists_offset?_iff :
    (∃ off, m.offset? addr n = .ok off) ↔ m.layout.Backs addr n := by
  constructor
  · rintro ⟨off, found⟩
    exact backs_of_offset? found
  · intro backed
    exact ⟨_, offset?_of_backs backed⟩

theorem readString_eq_ok_iff {b : Block} :
    m.readString addr = .ok b ↔
      m.layout.Backs addr 0 ∧
        ∃ stop, m.contents.firstZero? (m.layout.offset addr)
            (m.layout.size.toNat - m.layout.offset addr) = some stop ∧
          b = ⟨m.contents, m.layout.offset addr, stop - m.layout.offset addr⟩ := by
  by_cases backed : m.layout.Backs addr 0
  · cases found : m.contents.firstZero? (m.layout.offset addr)
        (m.layout.size.toNat - m.layout.offset addr) with
    | some stop =>
      have read : m.readString addr =
          .ok ⟨m.contents, m.layout.offset addr, stop - m.layout.offset addr⟩ := by
        simp only [readString, offset?_of_backs backed, Except.bind, found]
      simp [read, backed, @eq_comm _ b]
    | none =>
      have unended : m.readString addr = .error (.unterminated addr) := by
        simp only [readString, offset?_of_backs backed, Except.bind, found]
      simp [unended]
  · obtain ⟨e, refused⟩ := exists_error_of_not_backs backed
    have unread : m.readString addr = .error e := by
      rw [readString, refused]
      rfl
    simp [unread, backed]

theorem exists_look_iff {r : Reading} :
    (∃ a, m.look r = .ok a) ↔ r.Admitted m.layout m.byteAt := by
  cases r with
  | word addr width =>
    rw [look, exists_map_eq_ok_iff, readWord, exists_map_eq_ok_iff, exists_offset?_iff]
    exact Iff.rfl
  | bytes addr len =>
    rw [look, exists_map_eq_ok_iff, read, exists_map_eq_ok_iff, exists_offset?_iff]
    exact Iff.rfl
  | string addr =>
    rw [look, exists_map_eq_ok_iff]
    simp only [readString_eq_ok_iff]
    constructor
    · rintro ⟨_, backed, stop, found, _⟩
      obtain ⟨above, within, zero, _⟩ := Contents.firstZero?_eq_some_iff.mp found
      exact ⟨backed.1, stop, above, by omega, zero⟩
    · rintro ⟨above, k, behind, within, zero⟩
      have backed : m.layout.Backs addr 0 :=
        ⟨above, Nat.le_of_lt (Nat.lt_of_le_of_lt behind within)⟩
      cases found : m.contents.firstZero? (m.layout.offset addr)
          (m.layout.size.toNat - m.layout.offset addr) with
      | some stop => exact ⟨_, backed, stop, rfl, rfl⟩
      | none => exact absurd zero (Contents.firstZero?_eq_none_iff.mp found k behind (by omega))

theorem answers_of_look {r : Reading} {a : Answer} (looked : m.look r = .ok a) :
    r.Answers m.layout m.byteAt a := by
  cases r with
  | word addr width =>
    obtain ⟨w, read, rfl⟩ := map_eq_ok_iff.mp looked
    obtain ⟨off, found, rfl⟩ := map_eq_ok_iff.mp read
    obtain rfl : m.layout.offset addr = off :=
      Except.ok.inj ((offset?_of_backs (backs_of_offset? found)).symm.trans found)
    have bound := Width.value_lt m.byteAt (m.layout.offset addr) width
    change (Word.ofNat (m.contents.number (m.layout.offset addr) width.size)).toNat = _
    rw [Width.number_eq_value, Word.ofNat_eq, BitVec.toNat_ofNat]
    exact Nat.mod_eq_of_lt bound
  | bytes addr len =>
    obtain ⟨b, read, rfl⟩ := map_eq_ok_iff.mp looked
    obtain ⟨off, found, rfl⟩ := map_eq_ok_iff.mp read
    obtain rfl : m.layout.offset addr = off :=
      Except.ok.inj ((offset?_of_backs (backs_of_offset? found)).symm.trans found)
    exact Contents.fetch_eq ..
  | string addr =>
    obtain ⟨b, read, rfl⟩ := map_eq_ok_iff.mp looked
    obtain ⟨backed, stop, found, rfl⟩ := readString_eq_ok_iff.mp read
    obtain ⟨above, within, zero, nonzero⟩ := Contents.firstZero?_eq_some_iff.mp found
    have length := Block.length_toList
      ⟨m.contents, m.layout.offset addr, stop - m.layout.offset addr⟩
    have ends : m.layout.offset addr + (stop - m.layout.offset addr) = stop := by omega
    refine ⟨?_, ?_, ?_, ?_⟩
    · rw [length]
      exact Contents.fetch_eq ..
    · rw [Block.toList, Contents.fetch_eq]
      intro found
      obtain ⟨k, between, zero⟩ := List.mem_map.mp found
      obtain ⟨behind, before⟩ := List.mem_range'_1.mp between
      exact nonzero k behind (ends ▸ before) zero
    · rw [length, ends]
      omega
    · rw [length, ends]
      exact zero

theorem layout_perform (m : Memory) (o : Operation) : (m.perform o).1.layout = m.layout := by
  cases o with
  | store s =>
    by_cases admitted : s.Admitted m.layout
    · obtain ⟨m', done, layout, _⟩ := store_of_admitted admitted
      simp only [perform, done, layout]
    · obtain ⟨e, refused⟩ := store_of_not_admitted admitted
      simp only [perform, refused]
  | read r => rfl
  | grow incr => rfl

theorem byteAt_perform (m : Memory) (o : Operation) (k : Nat) :
    (m.perform o).1.byteAt k = (o.byteStored? m.layout k).getD (m.byteAt k) := by
  cases o with
  | store s =>
    by_cases admitted : s.Admitted m.layout
    · obtain ⟨m', done, _, bytes⟩ := store_of_admitted admitted
      simp only [perform, done, bytes, Operation.byteStored?]
    · obtain ⟨e, refused⟩ := store_of_not_admitted admitted
      simp only [perform, refused, Operation.byteStored?, Storing.byteStored?, admitted, false_and,
        if_false, Option.getD_none]
  | read r => rfl
  | grow incr => rfl

theorem exists_perform_iff {o : Operation} :
    (∃ a, (m.perform o).2 = .ok a) ↔ o.Admitted m.layout m.byteAt := by
  cases o with
  | store s =>
    by_cases admitted : s.Admitted m.layout
    · obtain ⟨m', done, _⟩ := store_of_admitted admitted
      simp [perform, done, Operation.Admitted, admitted]
    · obtain ⟨e, refused⟩ := store_of_not_admitted admitted
      simp [perform, refused, Operation.Admitted, admitted]
  | read r => exact exists_look_iff
  | grow incr => exact ⟨fun _ => trivial, fun _ => ⟨_, rfl⟩⟩

theorem answers_of_perform {o : Operation} {a : Answer} (done : (m.perform o).2 = .ok a) :
    o.Answers m.layout m.byteAt m.heapEnd a := by
  cases o with
  | store s =>
    cases stored : m.store s with
    | ok m' =>
      simp only [perform, stored] at done
      cases done
      trivial
    | error e =>
      simp only [perform, stored] at done
      cases done
  | read r => exact answers_of_look done
  | grow incr =>
    cases done
    rfl

theorem perform_of_error {o : Operation} {e : MemoryError} (refused : (m.perform o).2 = .error e) :
    (m.perform o).1 = m := by
  cases o with
  | store s =>
    cases stored : m.store s with
    | ok m' =>
      simp only [perform, stored] at refused
      cases refused
    | error e => simp only [perform, stored]
  | read r => rfl
  | grow incr => cases refused

theorem byteStored?_beyond {l : Layout} (o : Operation) {k : Nat} (beyond : l.size.toNat ≤ k) :
    o.byteStored? l k = none := by
  cases o with
  | store s =>
    rw [Operation.byteStored?, Storing.byteStored?]
    split
    · rename_i stored
      obtain ⟨⟨⟨_, within⟩, _⟩, _⟩ := stored
      rw [Layout.offset]
      exact List.getElem?_eq_none (by omega)
    · rfl
  | read r => rfl
  | grow incr => rfl

end Memory
end Mips
