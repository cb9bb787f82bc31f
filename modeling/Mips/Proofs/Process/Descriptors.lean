import Mathlib.Data.List.Induction
import Mips.Proofs.Process.Handles

/-!
Descriptors over a history of calls. Main statements: `ledger_after`, after any calls the table
holds the files that were opened and not closed, each under the descriptor that it got; and
`accounted_of_fresh`, what the next call comes to is told by the calls before it.
-/
namespace Mips

/-- A call for a service: the processor that makes it, and the files as it finds them. They need not
be as the call before left them, so that an open may succeed or fail whatever came before it. -/
structure Call where
  hart : Hart
  files : Files

namespace Call

def on (c : Call) (h : Host) : Process := ⟨c.hart, { h with files := c.files }⟩

/-- Whether a call closes a descriptor, be it open or not. -/
def Closes (c : Call) (d : Word) : Prop :=
  Service.ofNumber? (c.hart.cpu.read Register.v0).toNat = some .closeFile ∧
    c.hart.cpu.read Register.a0 = d

end Call

open Process (opened?_of_selected selected_of_opened? serve_of_readBlock serve_of_writeBlock
  serve_of_closes serve_of_closes_stream)

namespace Host

structure Fresh (h : Host) : Prop where
  handles : h.handles = ∅
  next : h.nextDescriptor = 3

def after (h : Host) (cs : List Call) : Host := cs.foldl (fun h c => (c.on h).serve.1.host) h

def openings (h : Host) : List Call → List Handle
  | [] => []
  | c :: cs => (c.on h).opened?.toList ++ openings (c.on h).serve.1.host cs

/-- The descriptor that the `k`-th opened file got, `3 + k`, stands for the file until it is
closed. -/
def StandsFor (h : Host) (cs : List Call) (d : Word) (f : Handle) : Prop :=
  ∃ pre c post, cs = pre ++ c :: post ∧ (c.on (h.after pre)).opened? = some f ∧
    d.toNat = 3 + (h.openings pre).length ∧ ∀ c' ∈ post, ¬c'.Closes d

variable {h : Host} {cs : List Call} {c : Call} {d : Word} {f : Handle}

theorem after_concat (h : Host) (cs : List Call) (c : Call) :
    h.after (cs ++ [c]) = (c.on (h.after cs)).serve.1.host := by
  rw [after, List.foldl_append, List.foldl_cons, List.foldl_nil, after]

theorem openings_append (h : Host) (cs ds : List Call) :
    h.openings (cs ++ ds) = h.openings cs ++ (h.after cs).openings ds := by
  induction cs generalizing h with
  | nil => rfl
  | cons c cs ih => rw [List.cons_append, openings, ih, openings, List.append_assoc, after, after,
      List.foldl_cons]

theorem openings_concat (h : Host) (cs : List Call) (c : Call) :
    h.openings (cs ++ [c]) = h.openings cs ++ (c.on (h.after cs)).opened?.toList := by
  rw [openings_append, openings, openings, List.append_nil]

theorem StandsFor.lt (stands : h.StandsFor cs d f) :
    3 ≤ d.toNat ∧ d.toNat < 3 + (h.openings cs).length := by
  obtain ⟨pre, c, post, rfl, opens, number, _⟩ := stands
  rw [openings_append, openings, opens, number]
  simp only [Option.toList_some, List.length_append, List.length_singleton]
  omega

theorem standsFor_concat_iff :
    h.StandsFor (cs ++ [c]) d f ↔
      (h.StandsFor cs d f ∧ ¬c.Closes d) ∨
        ((c.on (h.after cs)).opened? = some f ∧ d.toNat = 3 + (h.openings cs).length) := by
  constructor
  · rintro ⟨pre, c', post, parts, opens, number, unclosed⟩
    rcases List.eq_nil_or_concat post with rfl | ⟨post, last, rfl⟩
    · obtain ⟨rfl, same⟩ := List.append_inj' parts rfl
      obtain rfl := List.singleton_inj.mp same
      exact .inr ⟨opens, number⟩
    · rw [List.concat_eq_append] at parts unclosed
      rw [← List.cons_append, ← List.append_assoc] at parts
      obtain ⟨rfl, same⟩ := List.append_inj' parts rfl
      obtain rfl := List.singleton_inj.mp same
      obtain ⟨unclosed, kept⟩ := List.forall_mem_append.mp unclosed
      exact .inl ⟨⟨pre, c', post, rfl, opens, number, unclosed⟩, kept c List.mem_cons_self⟩
  · rintro (⟨⟨pre, c', post, rfl, opens, number, unclosed⟩, kept⟩ | ⟨opens, number⟩)
    · refine ⟨pre, c', post ++ [c], by rw [List.append_assoc, List.cons_append], opens, number, ?_⟩
      exact List.forall_mem_append.mpr ⟨unclosed, List.forall_mem_singleton.mpr kept⟩
    · exact ⟨cs, c, [], rfl, opens, number, nofun⟩

/-- What the host keeps about the files that calls have opened. -/
structure Ledger (h : Host) (cs : List Call) : Prop where
  next : (h.after cs).nextDescriptor.toNat = 3 + (h.openings cs).length
  entry : ∀ d f, h.StandsFor cs d f → ∃ pos, (h.after cs).handle? d = some (f.moved pos)
  history : ∀ d g, (h.after cs).handle? d = some g → ∃ f, h.StandsFor cs d f

theorem ledger_nil (fresh : h.Fresh) : h.Ledger [] where
  next := congrArg BitVec.toNat fresh.next
  entry d f stands := by
    have := stands.lt
    rw [openings, List.length_nil] at this
    omega
  history d g listed := by
    rw [handle?, after, List.foldl_nil, fresh.handles] at listed
    simp at listed

theorem handle?_of_insert {h' : Host} {next : Word}
    (listed : h'.descriptors = (h.handles.insert d f, next)) (other : Word) :
    h'.handle? other = if other = d then some f else h.handle? other := by
  rw [← handle?_setHandle, handle?, handle?, setHandle]
  exact congrArg (·.1[other]?) listed

theorem handle?_of_erase {h' : Host} {next : Word}
    (erased : h'.descriptors = (h.handles.erase d, next)) (other : Word) :
    h'.handle? other = if other = d then none else h.handle? other := by
  rw [← handle?_dropHandle, handle?, handle?, dropHandle]
  exact congrArg (·.1[other]?) erased

theorem Ledger.unmoved (ledger : h.Ledger cs) (unopened : (c.on (h.after cs)).opened? = none)
    (same : (h.after (cs ++ [c])).nextDescriptor = (h.after cs).nextDescriptor)
    (entry : ∀ d f, h.StandsFor cs d f → ¬c.Closes d →
      ∃ pos, (h.after (cs ++ [c])).handle? d = some (f.moved pos))
    (history : ∀ d g, (h.after (cs ++ [c])).handle? d = some g →
      (∃ f, h.StandsFor cs d f) ∧ ¬c.Closes d) : h.Ledger (cs ++ [c]) := by
  constructor
  · rw [same, ledger.next, openings_concat, unopened, Option.toList_none, List.append_nil]
  · intro d f stands
    rcases standsFor_concat_iff.mp stands with ⟨stands, kept⟩ | ⟨opens, _⟩
    · exact entry d f stands kept
    · cases unopened.symm.trans opens
  · intro d g listed
    obtain ⟨⟨f, stands⟩, kept⟩ := history d g listed
    exact ⟨f, standsFor_concat_iff.mpr (.inl ⟨stands, kept⟩)⟩

theorem Ledger.opened (ledger : h.Ledger cs)
    (few : 3 + (h.openings (cs ++ [c])).length < 0x100000000)
    (opens : (c.on (h.after cs)).opened? = some f)
    (listed : (h.after (cs ++ [c])).descriptors =
      ((h.after cs).handles.insert (h.after cs).nextDescriptor f,
        (h.after cs).nextDescriptor + 1)) : h.Ledger (cs ++ [c]) := by
  have count : (h.openings (cs ++ [c])).length = (h.openings cs).length + 1 := by
    rw [openings_concat, opens, Option.toList_some, List.length_append, List.length_singleton]
  rw [count, ← Nat.add_assoc, ← ledger.next] at few
  have next : (h.after (cs ++ [c])).nextDescriptor.toNat = (h.after cs).nextDescriptor.toNat + 1 :=
    (congrArg (·.2.toNat) listed).trans (BitVec.toNat_add_of_lt few)
  have here (d : Word) : d = (h.after cs).nextDescriptor ↔
      d.toNat = 3 + (h.openings cs).length := by
    rw [← ledger.next, BitVec.toNat_inj]
  have unclosed (d : Word) : ¬c.Closes d := fun closing =>
    nomatch Option.some.inj ((selected_of_opened? opens).symm.trans closing.1)
  constructor
  · rw [next, ledger.next, count, Nat.add_assoc]
  · intro d f' stands
    rw [handle?_of_insert listed]
    rcases standsFor_concat_iff.mp stands with ⟨stands, _⟩ | ⟨opens', number⟩
    · have bound := stands.lt
      rw [if_neg fun same => by have := (here d).mp same; omega]
      exact ledger.entry d f' stands
    · obtain rfl := Option.some.inj (opens.symm.trans opens')
      obtain ⟨pos, same⟩ := f.exists_eq_moved
      rw [if_pos ((here d).mpr number)]
      exact ⟨pos, congrArg some same⟩
  · intro d g found
    rw [handle?_of_insert listed] at found
    split at found
    · rename_i same
      exact ⟨f, standsFor_concat_iff.mpr (.inr ⟨opens, (here d).mp same⟩)⟩
    · obtain ⟨f', stands⟩ := ledger.history d g found
      exact ⟨f', standsFor_concat_iff.mpr (.inl ⟨stands, unclosed d⟩)⟩

theorem Ledger.kept (ledger : h.Ledger cs)
    (same : (h.after (cs ++ [c])).descriptors = (h.after cs).descriptors)
    (unopened : (c.on (h.after cs)).opened? = none)
    (unclosed : ∀ d, c.Closes d → d.toNat < 3 ∨ (h.after cs).handle? d = none) :
    h.Ledger (cs ++ [c]) := by
  have table (d : Word) : (h.after (cs ++ [c])).handle? d = (h.after cs).handle? d :=
    congrArg (·.1[d]?) same
  refine ledger.unmoved unopened (congrArg (·.2) same) ?_ ?_
  · intro d f stands _
    rw [table]
    exact ledger.entry d f stands
  · intro d g listed
    rw [table] at listed
    obtain ⟨f, stands⟩ := ledger.history d g listed
    refine ⟨⟨f, stands⟩, fun closing => ?_⟩
    rcases unclosed d closing with stream | absent
    · have := stands.lt
      omega
    · cases listed.symm.trans absent

theorem Ledger.moved (ledger : h.Ledger cs) {s : Service} {g : Handle} {pos : Nat}
    (selected : (c.on (h.after cs)).selected? = some s) (opens : s ≠ .openFile)
    (closes : s ≠ .closeFile) (found : (h.after cs).handle? d = some g)
    (moved : (h.after (cs ++ [c])).descriptors =
      ((h.after cs).handles.insert d (g.moved pos), (h.after cs).nextDescriptor)) :
    h.Ledger (cs ++ [c]) := by
  refine ledger.unmoved (opened?_of_selected selected opens) (congrArg (·.2) moved) ?_ ?_
  · intro d' f stands _
    rw [handle?_of_insert moved]
    obtain ⟨pos', listed⟩ := ledger.entry d' f stands
    split
    · rename_i same
      obtain rfl := Option.some.inj (listed.symm.trans (same ▸ found))
      exact ⟨pos, by rw [Handle.moved_moved]⟩
    · exact ⟨pos', listed⟩
  · intro d' g' listed
    rw [handle?_of_insert moved] at listed
    refine ⟨?_, fun closing => closes (Option.some.inj (selected.symm.trans closing.1))⟩
    split at listed
    · rename_i same
      exact ledger.history d' g (same ▸ found)
    · exact ledger.history d' g' listed

theorem Ledger.closed (ledger : h.Ledger cs)
    (selected : (c.on (h.after cs)).selected? = some .closeFile)
    (names : (c.on (h.after cs)).reg Register.a0 = d)
    (erased : (h.after (cs ++ [c])).descriptors =
      ((h.after cs).handles.erase d, (h.after cs).nextDescriptor)) :
    h.Ledger (cs ++ [c]) := by
  refine ledger.unmoved (opened?_of_selected selected nofun) (congrArg (·.2) erased) ?_ ?_
  · intro d' f stands kept
    have other : d' ≠ d := fun same => kept ⟨selected, names.trans same.symm⟩
    rw [handle?_of_erase erased, if_neg other]
    exact ledger.entry d' f stands
  · intro d' g listed
    rw [handle?_of_erase erased] at listed
    split at listed
    · cases listed
    · rename_i other
      exact ⟨ledger.history d' g listed, fun closing => other (closing.2.symm.trans names)⟩

theorem ledger_concat (ledger : h.Ledger cs)
    (few : 3 + (h.openings (cs ++ [c])).length < 0x100000000) : h.Ledger (cs ++ [c]) := by
  have turn := (c.on (h.after cs)).turn_serve
  rw [← after_concat] at turn
  cases turn with
  | kept same unopened unclosed => exact ledger.kept same unopened unclosed
  | opened opens listed => exact ledger.opened few opens listed
  | moved selected found pos moved =>
    rcases selected with selected | selected
    · exact ledger.moved selected nofun nofun found moved
    · exact ledger.moved selected nofun nofun found moved
  | closed selected file erased => exact ledger.closed selected rfl erased

theorem ledger_after (fresh : h.Fresh) (cs : List Call)
    (few : 3 + (h.openings cs).length < 0x100000000) : h.Ledger cs := by
  induction cs using List.reverseRecOn with
  | nil => exact ledger_nil fresh
  | append_singleton cs c ih =>
    have fewer : 3 + (h.openings cs).length < 0x100000000 := by
      rw [openings_concat, List.length_append] at few
      omega
    exact ledger_concat (ih fewer) few

/-- What a call comes to, told by the calls before it. Where an equation says that a service
answers, nothing else is changed. -/
structure Accounted (h : Host) (cs : List Call) (p : Process) : Prop where
  opened : ∀ f, p.opened? = some f →
    p.serve.2 = .resume ∧ (p.serve.1.reg Register.v0).toNat = 3 + (h.openings cs).length
  unused : ∀ pre c post, cs = pre ++ c :: post → (c.on (h.after pre)).opened? ≠ none →
    p.opened? ≠ none → (c.on (h.after pre)).serve.1.reg Register.v0 ≠ p.serve.1.reg Register.v0
  isOpen : ∀ d, (p.host.handle? d).isSome ↔ ∃ f, h.StandsFor cs d f
  readFile : ∀ d f, p.OnBuffer .readBlock d → h.StandsFor cs d f →
    ∃ pos, p.host.handle? d = some (f.moved pos) ∧ p.serve = p.readThrough (f.moved pos)
  readNone : ∀ d, p.OnBuffer .readBlock d → 3 ≤ d.toNat → (∀ f, ¬h.StandsFor cs d f) →
    p.serve = p.answer (-9)
  readStream : ∀ d, p.OnBuffer .readBlock d → d = 1 ∨ d = 2 → p.serve = p.answer (-9)
  writeFile : ∀ d f, p.OnBuffer .writeBlock d → h.StandsFor cs d f →
    ∃ b pos, p.hart.mem.read (p.reg Register.a1) (p.reg Register.a2).toNat = .ok b ∧
      p.host.handle? d = some (f.moved pos) ∧ p.serve = p.writeThrough (f.moved pos) b
  writeNone : ∀ d, p.OnBuffer .writeBlock d → 3 ≤ d.toNat → (∀ f, ¬h.StandsFor cs d f) →
    p.serve = p.answer (-9)
  writeStream : p.OnBuffer .writeBlock 0 → p.serve = p.answer (-9)
  closeFile : ∀ d f, p.Closes d → h.StandsFor cs d f →
    p.serve = { p with host := p.host.dropHandle d }.answer 0
  closeNone : ∀ d, p.Closes d → 3 ≤ d.toNat → (∀ f, ¬h.StandsFor cs d f) → p.serve = p.answer (-9)
  closeStream : ∀ d, p.Closes d → d.toNat < 3 → p.serve = p.answer 0
  others : ∀ d, ¬p.Concerns d → p.serve.1.host.handle? d = p.host.handle? d

theorem Ledger.isSome_iff (ledger : h.Ledger cs) (d : Word) :
    ((h.after cs).handle? d).isSome ↔ ∃ f, h.StandsFor cs d f := by
  rw [Option.isSome_iff_exists]
  constructor
  · rintro ⟨g, listed⟩
    exact ledger.history d g listed
  · rintro ⟨f, stands⟩
    obtain ⟨pos, listed⟩ := ledger.entry d f stands
    exact ⟨_, listed⟩

theorem Ledger.handle?_eq_none (ledger : h.Ledger cs) (closed : ∀ f, ¬h.StandsFor cs d f) :
    (h.after cs).handle? d = none := by
  cases listed : (h.after cs).handle? d with
  | none => rfl
  | some g =>
    obtain ⟨f, stands⟩ := ledger.history d g listed
    exact absurd stands (closed f)

theorem Ledger.handle?_of_stream (ledger : h.Ledger cs) (stream : d.toNat < 3) :
    (h.after cs).handle? d = none :=
  ledger.handle?_eq_none fun f stands => by
    have := stands.lt
    omega

theorem Ledger.answer (ledger : h.Ledger cs) (opens : (c.on (h.after cs)).opened? = some f) :
    (c.on (h.after cs)).serve.2 = .resume ∧
      ((c.on (h.after cs)).serve.1.reg Register.v0).toNat = 3 + (h.openings cs).length := by
  obtain ⟨resumes, answered⟩ := Process.answer_of_opened? opens
  refine ⟨resumes, ?_⟩
  rw [answered]
  exact ledger.next

theorem reg_serve_ne_of_opened? {pre post : List Call} {c' : Call} (fresh : h.Fresh)
    (ledger : h.Ledger (pre ++ c' :: post))
    (few : 3 + (h.openings (pre ++ c' :: post)).length < 0x100000000)
    (opens' : (c'.on (h.after pre)).opened? ≠ none)
    (opens : (c.on (h.after (pre ++ c' :: post))).opened? ≠ none) :
    (c'.on (h.after pre)).serve.1.reg Register.v0 ≠
      (c.on (h.after (pre ++ c' :: post))).serve.1.reg Register.v0 := by
  obtain ⟨f', opens'⟩ := Option.ne_none_iff_exists'.mp opens'
  obtain ⟨f, opens⟩ := Option.ne_none_iff_exists'.mp opens
  have longer : (h.openings pre).length < (h.openings (pre ++ c' :: post)).length := by
    rw [openings_append, openings, opens', List.length_append, List.length_append,
      Option.toList_some, List.length_singleton]
    omega
  have first := (ledger_after fresh pre (by omega)).answer opens'
  have later := ledger.answer opens
  intro same
  rw [same, later.2] at first
  omega

theorem handle?_serve_of_not_concerns {p : Process} (aside : ¬p.Concerns d) :
    p.serve.1.host.handle? d = p.host.handle? d := by
  cases p.turn_serve with
  | kept same => exact congrArg (·.1[d]?) same
  | opened opens listed =>
    have other : d ≠ p.host.nextDescriptor := fun same => aside (.inr ⟨by rw [opens]; nofun, by
      rw [(Process.answer_of_opened? opens).2, same]⟩)
    rw [handle?_of_insert listed, if_neg other]
  | moved selected _ _ moved =>
    have other : d ≠ p.reg Register.a0 := fun same =>
      aside (.inl ⟨selected.imp id .inl, same.symm⟩)
    rw [handle?_of_insert moved, if_neg other]
  | closed selected _ erased =>
    have other : d ≠ p.reg Register.a0 := fun same =>
      aside (.inl ⟨.inr (.inr selected), same.symm⟩)
    rw [handle?_of_erase erased, if_neg other]

theorem accounted_of_fresh (fresh : h.Fresh) (cs : List Call) (c : Call)
    (few : 3 + (h.openings (cs ++ [c])).length < 0x100000000) :
    h.Accounted cs (c.on (h.after cs)) := by
  have fewer : 3 + (h.openings cs).length < 0x100000000 := by
    rw [openings_concat, List.length_append] at few
    omega
  have ledger := ledger_after fresh cs fewer
  have unlike {d stream : Word} (file : 3 ≤ d.toNat) (small : stream.toNat < 3) : d ≠ stream :=
    fun same => by
      rw [same] at file
      omega
  constructor
  case opened => exact fun f opens => ledger.answer opens
  case unused =>
    rintro pre c' post rfl opens' opens
    exact reg_serve_ne_of_opened? fresh ledger fewer opens' opens
  case isOpen => exact ledger.isSome_iff
  case readFile =>
    intro d f call stands
    obtain ⟨pos, listed⟩ := ledger.entry d f stands
    refine ⟨pos, listed, ?_⟩
    rw [serve_of_readBlock call (unlike stands.lt.1 (by decide))]
    exact congrArg (Option.elim · _ _) listed
  case readNone =>
    intro d call file closed
    rw [serve_of_readBlock call (unlike file (by decide))]
    exact congrArg (Option.elim · _ _) (ledger.handle?_eq_none closed)
  case readStream =>
    intro d call stream
    have none : (h.after cs).handle? d = none := ledger.handle?_of_stream (by
      rcases stream with rfl | rfl <;> decide)
    rw [serve_of_readBlock call (by rcases stream with rfl | rfl <;> decide)]
    exact congrArg (Option.elim · _ _) none
  case writeFile =>
    intro d f call stands
    obtain ⟨pos, listed⟩ := ledger.entry d f stands
    obtain ⟨b, read, served⟩ := serve_of_writeBlock call (unlike stands.lt.1 (by decide))
      (unlike stands.lt.1 (by decide))
    refine ⟨b, pos, read, listed, ?_⟩
    rw [served]
    exact congrArg (Option.elim · _ _) listed
  case writeNone =>
    intro d call file closed
    obtain ⟨b, _, served⟩ := serve_of_writeBlock call (unlike file (by decide))
      (unlike file (by decide))
    rw [served]
    exact congrArg (Option.elim · _ _) (ledger.handle?_eq_none closed)
  case writeStream =>
    intro call
    obtain ⟨b, _, served⟩ := serve_of_writeBlock call (by decide) (by decide)
    have none : (h.after cs).handle? 0 = none := ledger.handle?_of_stream (by decide)
    rw [served]
    exact congrArg (Option.elim · _ _) none
  case closeFile =>
    intro d f closing stands
    obtain ⟨pos, listed⟩ := ledger.entry d f stands
    rw [serve_of_closes closing stands.lt.1]
    exact congrArg (Option.elim · _ _) listed
  case closeNone =>
    intro d closing file closed
    rw [serve_of_closes closing file]
    exact congrArg (Option.elim · _ _) (ledger.handle?_eq_none closed)
  case closeStream => exact fun d closing stream => serve_of_closes_stream closing stream
  case others => exact fun d aside => handle?_serve_of_not_concerns aside

/-- A file that is opened anew gets a new descriptor, and a read on the one that was closed reaches
no file. -/
theorem accounted_of_fresh_reopened :
    ∃ (h : Host) (opening closing reading : Call),
      h.Fresh ∧ 3 + (h.openings ([opening, closing, opening] ++ [reading])).length < 0x100000000 ∧
        h.openings [opening, closing, opening] =
          [.file [['f']] .write 0, .file [['f']] .write 0] ∧
        (∀ f, ¬h.StandsFor [opening, closing, opening] 3 f) ∧
        h.StandsFor [opening, closing, opening] 4 (.file [['f']] .write 0) ∧
        (reading.on (h.after [opening, closing, opening])).serve =
          (reading.on (h.after [opening, closing, opening])).answer (-9) := by
  let h : Host := { input := ⟨[], .bytes {} none⟩, output := {}, files := {} }
  let mem : Memory := { Memory.empty {} with contents := (∅ : Contents).write 0 [102] }
  let call (service a0 a1 a2 : Word) : Call :=
    ⟨⟨((((Cpu.reset {} 0x00400000).write Register.v0 service).write Register.a0 a0).write
      Register.a1 a1).write Register.a2 a2, mem⟩, {}⟩
  let opening := call 13 0x00400000 1 0
  let closing := call 16 3 0 0
  let reading := call 14 3 0x00400000 1
  have few : 3 + (h.openings ([opening, closing, opening] ++ [reading])).length < 0x100000000 := by
    decide +kernel
  have openings : h.openings [opening, closing, opening] =
      [.file [['f']] .write 0, .file [['f']] .write 0] := by decide +kernel
  have accounted := accounted_of_fresh ⟨rfl, rfl⟩ [opening, closing, opening] reading few
  have closed : ∀ f, ¬h.StandsFor [opening, closing, opening] 3 f := fun f stands => by
    have gone : ¬((reading.on (h.after [opening, closing, opening])).host.handle? 3).isSome := by
      decide +kernel
    exact gone ((accounted.isOpen 3).mpr ⟨f, stands⟩)
  have call : (reading.on (h.after [opening, closing, opening])).OnBuffer .readBlock 3 :=
    ⟨by decide +kernel, by decide +kernel, by decide +kernel⟩
  have refused := accounted.readNone 3 call (by decide) closed
  refine ⟨h, opening, closing, reading, ⟨rfl, rfl⟩, few, openings, closed, ?_, refused⟩
  exact ⟨[opening, closing], opening, [], rfl, by decide +kernel, by decide +kernel, nofun⟩

end Host
end Mips
