import Mips.Proofs.Numeral.Int32
import Mips.Proofs.Process.Calls
import Mips.Proofs.Process.Streams
import Mips.Proofs.Text.Bytes

namespace Mips

theorem Input.isSpace_iff {b : UInt8} :
    isSpace b = true ↔ b.toNat = 32 ∨ 9 ≤ b.toNat ∧ b.toNat ≤ 13 ∧ b.toNat ≠ 11 := by
  simp only [isSpace, Bool.or_eq_true, beq_iff_eq, ← UInt8.toNat_inj, UInt8.reduceToNat]
  omega

theorem Text.isSpace_utf8 {s : List Char} (clean : ∀ c ∈ s, isBlank c = false) :
    ∀ b ∈ utf8 s, Input.isSpace b = false := by
  intro b there
  by_contra space
  rw [Bool.not_eq_false, Input.isSpace_iff] at space
  obtain ⟨c, within, same⟩ := exists_of_mem_utf8 there (by omega)
  have blank : isBlank c = true := by
    simp only [isBlank, Bool.or_eq_true, Bool.and_eq_true, decide_eq_true_eq, beq_iff_eq]
    omega
  cases blank.symm.trans (clean c within)

inductive Print
  | number (w : Word)
  | other (bs : List UInt8)

namespace Print

variable {ps : List Print}

def bytes : Print → List UInt8
  | number w => Process.decimalBytes w.signed
  | other bs => bs

def numbers : List Print → List Word
  | [] => []
  | number w :: ps => w :: numbers ps
  | other _ :: ps => numbers ps

def front : List Print → List UInt8
  | other bs :: ps => bs ++ front ps
  | _ => []

def behind : List Print → List UInt8
  | [] => []
  | number w :: ps => Process.decimalBytes w.signed ++ (front ps ++ behind ps)
  | other _ :: ps => behind ps

/-- All but numbers is whitespace, and there is some behind each number, however it is printed. -/
def Spaced : List Print → Prop
  | [] => True
  | number _ :: ps => front ps ≠ [] ∧ Spaced ps
  | other bs :: ps => (∀ b ∈ bs, Input.isSpace b = true) ∧ Spaced ps

instance decidableSpaced : (ps : List Print) → Decidable (Spaced ps)
  | [] => inferInstanceAs (Decidable True)
  | number _ :: ps =>
    haveI := decidableSpaced ps
    inferInstanceAs (Decidable (_ ∧ _))
  | other _ :: ps =>
    haveI := decidableSpaced ps
    inferInstanceAs (Decidable (_ ∧ _))

theorem flatMap_bytes (ps : List Print) : ps.flatMap bytes = front ps ++ behind ps := by
  induction ps with
  | nil => rfl
  | cons x ps ih =>
    rw [List.flatMap_cons, ih]
    cases x with
    | number w => rfl
    | other bs => rw [front, behind, bytes, List.append_assoc]

theorem isSpace_front (spaced : Spaced ps) : ∀ b ∈ front ps, Input.isSpace b = true := by
  induction ps with
  | nil => nofun
  | cons x ps ih =>
    cases x with
    | number w => nofun
    | other bs => exact List.forall_mem_append.mpr ⟨spaced.1, ih spaced.2⟩

end Print

namespace Process

variable {p : Process} {place : Option Path}

/-- A process calls for something to be printed: a number by its own service, and other bytes by one
of the other services that print. -/
def Makes (p : Process) : Print → Prop
  | .number w => p.selected? = some .printInt ∧ p.reg Register.a0 = w
  | .other bs =>
    p.selected? ∈ [some .printString, some .printChar, some .writeBlock] ∧ p.printed = bs ∧
      p.serve.2 = .resume

theorem decimalBytes_eq (z : Int) : decimalBytes z = Text.utf8 (Numeral.signed z) := by
  unfold decimalBytes Numeral.signed
  split
  · rfl
  · rfl

theorem tokenValue_signed (w : Word) :
    tokenValue (Text.utf8 (Numeral.signed w.signed)) = .ok w.signed := by
  have lower : -0x80000000 ≤ w.signed := BitVec.le_toInt w
  have upper : w.signed < 0x80000000 := BitVec.toInt_lt
  rw [tokenValue, Text.ofUtf8Lossy_utf8, Numeral.trim_signed,
    Numeral.int32_signed lower (Int.le_of_lt_add_one upper)]
  rfl

theorem readInt_of_parts (sound : p.host.input.source.Sound place)
    (selected : p.selected? = some .readInt) {spaces rest : List UInt8} {b : UInt8} {w : Word}
    (blank : ∀ c ∈ spaces, Input.isSpace c = true) (ends : Input.isSpace b = true)
    (unread : p.unread = spaces ++ (decimalBytes w.signed ++ b :: rest)) :
    p.serve.2 = .resume ∧ p.serve.1.reg Register.v0 = w ∧
      p.serve.1.host.input.source.Sound place ∧ p.serve.1.unread = rest := by
  rw [decimalBytes_eq] at unread
  obtain ⟨i, read, kept, left⟩ :=
    Input.token_of_parts sound blank (Text.utf8_ne_nil (Numeral.signed_ne_nil _))
      (Text.isSpace_utf8 (Numeral.isBlank_signed _)) ends unread
  have served : p.serve = (p.setInput i).answer w.signed := by
    rw [serve_of_selected selected, perform, readInt, read]
    simp only [tokenValue_signed]
  rw [served]
  refine ⟨rfl, ?_, kept, left⟩
  rw [reg_answer, Word.ofInt_eq, Word.signed_eq, BitVec.ofInt_toInt]

instance (p : Process) : (x : Print) → Decidable (p.Makes x)
  | .number _ => inferInstanceAs (Decidable (_ ∧ _))
  | .other _ => inferInstanceAs (Decidable (_ ∧ _ ∧ _))

theorem grows_printString (sound : p.host.output.Sound)
    (selected : p.selected? = some .printString) :
    p.serve.1.host.output.Sound ∧
      p.serve.1.host.output.written = p.host.output.written ++ p.printed := by
  rw [serve_of_selected selected, printed, selected, perform, printString]
  cases p.hart.mem.readString (p.reg Register.a0) with
  | error e => exact ⟨sound, (List.append_nil _).symm⟩
  | ok b =>
    obtain ⟨q, wrote, _, kept, grown⟩ := printAll_of_sound sound b
    dsimp only
    rw [wrote]
    exact ⟨kept, grown⟩

theorem grows_printChar (sound : p.host.output.Sound) (selected : p.selected? = some .printChar) :
    p.serve.1.host.output.Sound ∧
      p.serve.1.host.output.written = p.host.output.written ++ p.printed := by
  obtain ⟨q, wrote, _, kept, grown⟩ :=
    printAll_of_sound sound (.ofList [UInt8.ofNat (p.reg Register.a0).toNat])
  rw [serve_of_selected selected, printed, selected, perform, wrote]
  rw [Block.toList_ofList] at grown
  exact ⟨kept, grown⟩

theorem grows_writeBlock (sound : p.host.output.Sound) (selected : p.selected? = some .writeBlock) :
    p.serve.1.host.output.Sound ∧
      p.serve.1.host.output.written = p.host.output.written ++ p.printed := by
  by_cases call : p.OnBuffer .writeBlock 1
  · obtain ⟨q, served, _, kept, grown⟩ := writeBlock_of_sound sound call
    rw [served]
    exact ⟨kept, grown⟩
  · obtain ⟨none, _, output⟩ := writeBlock_of_not_onBuffer selected call
    rw [output, none]
    exact ⟨sound, (List.append_nil _).symm⟩

theorem grows_of_makes {x : Print} (sound : p.host.output.Sound) (makes : p.Makes x) :
    p.serve.2 = .resume ∧ p.serve.1.host.output.Sound ∧
      p.serve.1.host.output.written = p.host.output.written ++ x.bytes := by
  cases x with
  | number w =>
    obtain ⟨selected, rfl⟩ := makes
    obtain ⟨q, wrote, _, kept, grown⟩ := printInt_of_sound sound (p.reg Register.a0).signed
    rw [serve_of_selected selected, perform, wrote]
    exact ⟨rfl, kept, grown⟩
  | other bs =>
    obtain ⟨selected, rfl, resumes⟩ := makes
    refine ⟨resumes, ?_⟩
    simp only [List.mem_cons, List.not_mem_nil, or_false] at selected
    rcases selected with selected | selected | selected
    · exact grows_printString sound selected
    · exact grows_printChar sound selected
    · exact grows_writeBlock sound selected

end Process

namespace Host

open Print Process

variable {h g : Host} {cs rs : List Hart} {ps : List Print} {place : Option Path}

theorem written_served (sound : h.output.Sound)
    (makes : List.Forall₂ Makes (h.callers cs) ps) :
    (∀ p ∈ h.callers cs, p.serve.2 = .resume) ∧
      (h.served cs).output.written = h.output.written ++ ps.flatMap bytes := by
  let Left (ps' : List Print) (h' : Host) : Prop := h'.output.Sound ∧
    h'.output.written ++ ps'.flatMap bytes = h.output.written ++ ps.flatMap bytes
  have step (p : Process) (x : Print) (ps' : List Print) (left : Left (x :: ps') p.host)
      (makes : p.Makes x) : (p.serve.2 = .resume ∧ p.Makes x) ∧ Left ps' p.serve.1.host := by
    obtain ⟨resumes, kept, grown⟩ := grows_of_makes left.1 makes
    refine ⟨⟨resumes, makes⟩, kept, ?_⟩
    rw [grown, List.append_assoc, ← List.flatMap_cons]
    exact left.2
  obtain ⟨served, _, whole⟩ := forall₂_callers Left step ⟨sound, rfl⟩ makes
  exact ⟨((List.forall₂_and_left _ _).mp served).1, (List.append_nil _).symm.trans whole⟩

theorem callers_read (spaced : Spaced ps) {spaces rest : List UInt8}
    (blank : ∀ b ∈ spaces, Input.isSpace b = true) (sound : g.input.source.Sound place)
    (unread : g.input.unread g.files = spaces ++ (behind ps ++ rest))
    (reads : ∀ p ∈ g.callers rs, p.selected? = some .readInt)
    (count : rs.length = (numbers ps).length) :
    (∀ p ∈ g.callers rs, p.serve.2 = .resume) ∧
      (g.callers rs).map (·.serve.1.reg Register.v0) = numbers ps := by
  induction ps generalizing g rs spaces with
  | nil =>
    obtain rfl := List.length_eq_zero_iff.mp count
    exact ⟨List.forall_mem_nil _, rfl⟩
  | cons x ps ih =>
    cases x with
    | other bs => exact ih spaced.2 blank sound unread reads count
    | number w =>
      cases rs with
      | nil => cases count
      | cons r rs =>
        -- the first byte behind a number is taken with it, and the others stand before the next
        obtain ⟨b, bs, gap⟩ := List.exists_cons_of_ne_nil spaced.1
        have blank' := isSpace_front spaced.2
        rw [gap] at blank'
        rw [behind, gap, List.append_assoc, List.append_assoc, List.cons_append] at unread
        obtain ⟨ends, blank'⟩ := List.forall_mem_cons.mp blank'
        obtain ⟨first, later⟩ := List.forall_mem_cons.mp reads
        obtain ⟨resumes, value, kept, left⟩ :=
          readInt_of_parts (p := ⟨r, g⟩) sound first blank ends unread
        obtain ⟨others, values⟩ := ih spaced.2 blank' kept left later (Nat.succ.inj count)
        exact ⟨List.forall_mem_cons.mpr ⟨resumes, others⟩, congrArg₂ List.cons value values⟩

/-- Numbers that are printed with whitespace behind each of them are read back. -/
theorem callers_read_printed (sound : h.output.Sound)
    (makes : List.Forall₂ Makes (h.callers cs) ps) (spaced : Spaced ps) :
    (∀ p ∈ h.callers cs, p.serve.2 = .resume) ∧
      ∃ stream, (h.served cs).output.written = h.output.written ++ stream ∧
        ∀ (g : Host) (rs : List Hart) (place : Option Path) (rest : List UInt8),
          g.input.source.Sound place → g.input.unread g.files = stream ++ rest →
            (∀ p ∈ g.callers rs, p.selected? = some .readInt) →
              rs.length = (numbers ps).length →
                (∀ p ∈ g.callers rs, p.serve.2 = .resume) ∧
                  (g.callers rs).map (·.serve.1.reg Register.v0) = numbers ps := by
  obtain ⟨resume, written⟩ := written_served sound makes
  refine ⟨resume, _, written, fun g rs place rest source unread reads count => ?_⟩
  rw [flatMap_bytes, List.append_assoc] at unread
  exact callers_read spaced (isSpace_front spaced) source unread reads count

theorem callers_read_printed_extremes :
    ∃ (h g : Host) (cs rs : List Hart) (ps : List Print),
      h.output.Sound ∧ List.Forall₂ Makes (h.callers cs) ps ∧ Spaced ps ∧
        g.input.held = (h.served cs).output.written ∧
        (∀ p ∈ g.callers rs, p.selected? = some .readInt ∧ p.serve.2 = .resume) ∧
        (g.callers rs).map (·.serve.1.reg Register.v0) = [0x80000000, 0x7FFFFFFF] := by
  let call (service a0 : Word) : Hart :=
    ⟨((Cpu.reset {} 0x00400000).write Register.v0 service).write Register.a0 a0, Memory.empty {}⟩
  let h : Host := { input := ⟨[], .bytes {} none⟩, output := {}, files := {} }
  let cs := [call 11 10, call 1 0x80000000, call 11 12, call 1 0x7FFFFFFF, call 11 13, call 11 10]
  let ps : List Print :=
    [.other [10], .number 0x80000000, .other [12], .number 0x7FFFFFFF, .other [13], .other [10]]
  have sound : h.output.Sound := ⟨rfl, nofun⟩
  have makes : List.Forall₂ Makes (h.callers cs) ps := by decide +kernel
  have spaced : Spaced ps := by decide +kernel
  obtain ⟨_, stream, written, reads⟩ := callers_read_printed sound makes spaced
  let g : Host := { input := ⟨stream, .bytes {} none⟩, output := {}, files := {} }
  let rs := [call 5 0, call 5 0]
  have number : Service.ofNumber? ((call 5 0).cpu.read Register.v0).toNat = some .readInt := by
    decide
  have selected : ∀ p ∈ g.callers rs, p.selected? = some .readInt :=
    List.forall_mem_cons.mpr ⟨number, List.forall_mem_singleton.mpr number⟩
  obtain ⟨resume, values⟩ := reads g rs none [] (.bytes {}) rfl selected rfl
  exact ⟨h, g, cs, rs, ps, sound, makes, spaced, written.symm,
    fun p there => ⟨selected p there, resume p there⟩, values⟩

end Host
end Mips
