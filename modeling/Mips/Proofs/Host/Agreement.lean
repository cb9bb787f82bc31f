import Mips.Host
import Mips.Proofs.Memory.Pages

namespace Mips

theorem Block.size_congr {b b' : Block} (same : b'.toList = b.toList) : b'.size = b.size := by
  rw [← b'.length_toList, same, b.length_toList]

theorem Block.copy_congr {b b' : Block} (same : b'.toList = b.toList) (c : Contents) (off : Nat) :
    c.copy off b'.contents b'.start b.size = c.copy off b.contents b.start b.size := by
  apply Contents.copy_congr
  intro i within
  have byte := b'.getD_toList i
  rw [same, b.getD_toList, size_congr same, if_pos within, if_pos within] at byte
  exact byte.symm

theorem File.write_congr {b b' : Block} (same : b'.toList = b.toList) (f : File) (pos : Nat) :
    f.write pos b' = f.write pos b := by
  simp only [write, Block.size_congr same, Block.copy_congr same]

theorem Files.write_congr {b b' : Block} (same : b'.toList = b.toList) (fs : Files) (h : Handle) :
    fs.write h b' = fs.write h b := by
  simp only [write, Block.size_congr same, File.write_congr same]

inductive Source.Agrees : Source → Source → Prop
  | bytes {b b' : Block} (same : b'.toList = b.toList) (failure : Option StreamError) :
    Agrees (.bytes b failure) (.bytes b' failure)
  | file (h : Handle) : Agrees (.file h) (.file h)

theorem Source.agrees_fetch {s s' : Source} (agrees : s.Agrees s') (fs : Files) (n : Nat) :
    (∃ e, s.fetch fs n = .error e ∧ s'.fetch fs n = .error e) ∨
      ∃ b b' t t', s.fetch fs n = .ok (b, t) ∧ s'.fetch fs n = .ok (b', t') ∧
        b'.toList = b.toList ∧ t.Agrees t' := by
  cases agrees with
  | @bytes b b' same failure =>
    simp only [fetch, Block.size_congr same]
    split
    · exact .inl ⟨_, rfl, rfl⟩
    · refine .inr ⟨_, _, _, _, rfl, rfl, ?_, .bytes ?_ failure⟩
      · rw [Block.toList_take, Block.toList_take, same]
      · rw [Block.toList_drop, Block.toList_drop, same]
  | file h =>
    simp only [fetch]
    split
    · exact .inl ⟨_, rfl, rfl⟩
    · exact .inr ⟨_, _, _, _, rfl, rfl, rfl, .file _⟩

namespace Input

variable {i i' : Input}

structure Agrees (i i' : Input) : Prop where
  held : i'.held = i.held
  source : i.source.Agrees i'.source

theorem agrees_fill (agrees : i.Agrees i') (fs : Files) :
    ∃ r j j', i.fill fs = (r, j) ∧ i'.fill fs = (r, j') ∧ j.Agrees j' := by
  unfold fill
  rw [agrees.held]
  split
  · exact ⟨_, _, _, rfl, rfl, agrees⟩
  · rcases Source.agrees_fetch agrees.source fs stretch with
      ⟨e, refused, refused'⟩ | ⟨b, b', t, t', fetched, fetched', same, source⟩
    · rw [refused, refused']
      exact ⟨_, _, _, rfl, rfl, agrees⟩
    · rw [fetched, fetched']
      exact ⟨_, _, _, rfl, rfl, same, source⟩

theorem agrees_next (agrees : i.Agrees i') (fs : Files) :
    ∃ r j j', i.next fs = (r, j) ∧ i'.next fs = (r, j') ∧ j.Agrees j' := by
  obtain ⟨r, j, j', filled, filled', agrees'⟩ := agrees_fill agrees fs
  unfold next
  rw [filled, filled']
  cases r with
  | error e => exact ⟨_, _, _, rfl, rfl, agrees'⟩
  | ok _ =>
    dsimp only
    rw [agrees'.held]
    cases j.held with
    | nil => exact ⟨_, _, _, rfl, rfl, agrees'⟩
    | cons b bs => exact ⟨_, _, _, rfl, rfl, rfl, agrees'.source⟩

theorem agrees_read (agrees : i.Agrees i') (fs : Files) (n : Nat) :
    (∃ e j j', i.read fs n = (.error e, j) ∧ i'.read fs n = (.error e, j') ∧ j.Agrees j') ∨
      ∃ b b' j j', i.read fs n = (.ok b, j) ∧ i'.read fs n = (.ok b', j') ∧
        b'.toList = b.toList ∧ j.Agrees j' := by
  unfold read
  rw [agrees.held]
  split
  · rcases Source.agrees_fetch agrees.source fs n with
      ⟨e, refused, refused'⟩ | ⟨b, b', t, t', fetched, fetched', same, source⟩
    · rw [refused, refused']
      exact .inl ⟨_, _, _, rfl, rfl, agrees⟩
    · rw [fetched, fetched']
      exact .inr ⟨_, _, _, _, rfl, rfl, same, rfl, source⟩
  · obtain ⟨r, j, j', filled, filled', agrees'⟩ := agrees_fill agrees fs
    rw [filled, filled']
    cases r with
    | error e => exact .inl ⟨_, _, _, rfl, rfl, agrees'⟩
    | ok _ =>
      refine .inr ⟨_, _, _, _, rfl, rfl, ?_, ?_, agrees'.source⟩
      · rw [agrees'.held]
      · exact congrArg (List.drop n) agrees'.held

theorem agrees_line (agrees : i.Agrees i') (fs : Files) (n : Nat) (taken : Array UInt8) :
    ∃ r j j', i.line fs n taken = (r, j) ∧ i'.line fs n taken = (r, j') ∧ j.Agrees j' := by
  induction n generalizing i i' taken with
  | zero => exact ⟨_, _, _, rfl, rfl, agrees⟩
  | succ n ih =>
    obtain ⟨r, j, j', next, next', agrees'⟩ := agrees_next agrees fs
    unfold line
    rw [next, next']
    rcases r with e | none | b
    · exact ⟨_, _, _, rfl, rfl, agrees'⟩
    · exact ⟨_, _, _, rfl, rfl, agrees'⟩
    · dsimp only
      split
      · exact ⟨_, _, _, rfl, rfl, agrees'⟩
      · exact ih agrees' _

theorem token_eq (fs : Files) (i : Input) (taken : Array UInt8) :
    i.token fs taken =
      match i.next fs with
      | (.error e, j) => (.error e, j)
      | (.ok none, j) => (.ok taken.toList, j)
      | (.ok (some b), j) =>
        if isSpace b then
          if taken.isEmpty then j.token fs else (.ok taken.toList, j)
        else j.token fs (taken.push b) := by
  rw [token]
  split <;> rename_i next <;> rw [next]

theorem agrees_token {i i' : Input} (agrees : i.Agrees i') (fs : Files) (taken : Array UInt8) :
    ∃ r j j', i.token fs taken = (r, j) ∧ i'.token fs taken = (r, j') ∧ j.Agrees j' := by
  obtain ⟨r, j, j', next, next', agrees'⟩ := agrees_next agrees fs
  rw [token_eq, token_eq, next, next']
  rcases r with e | none | b
  · exact ⟨_, _, _, rfl, rfl, agrees'⟩
  · exact ⟨_, _, _, rfl, rfl, agrees'⟩
  · dsimp only
    split
    · split
      · exact agrees_token agrees' fs _
      · exact ⟨_, _, _, rfl, rfl, agrees'⟩
    · exact agrees_token agrees' fs _
termination_by (i.unread fs).length
decreasing_by all_goals simp [unread_next next]

end Input

namespace Output

variable {o o' : Output}

def pending (o : Output) : List UInt8 :=
  match o.outlet with
  | none => []
  | some t => o.written.drop (o.written.length - t.waiting)

/-- Outputs that differ only in bytes that were written to them and do not wait. -/
structure Agrees (o o' : Output) : Prop where
  room : o'.room = o.room
  flushes : o'.flushes = o.flushes
  outlet : o'.outlet = o.outlet
  pending : o'.pending = o.pending

theorem pending_of_outlet {t : Outlet} (goes : o.outlet = some t) :
    o.pending = o.written.drop (o.written.length - t.waiting) := by
  rw [pending, goes]

theorem pending_append {t : Outlet} (goes : o.outlet = some t) (b : Block) :
    (o.append b).pending = o.pending ++ b.toList := by
  have goes' : (o.append b).outlet = some { t with waiting := t.waiting + b.size } := by
    simp [append, goes]
  have place : (o.written ++ b.toList).length - (t.waiting + b.size) =
      o.written.length - t.waiting := by
    rw [List.length_append, b.length_toList]
    omega
  rw [pending_of_outlet goes', pending_of_outlet goes, written_append]
  simp only [place]
  exact List.drop_append_of_le_length (Nat.sub_le ..)

theorem agrees_append (agrees : o.Agrees o') (b : Block) : (o.append b).Agrees (o'.append b) := by
  refine ⟨by simp [append, agrees.room], agrees.flushes, by simp [append, agrees.outlet], ?_⟩
  cases goes : o.outlet with
  | none => simp [pending, append, agrees.outlet, goes]
  | some t =>
    rw [pending_append goes, pending_append (agrees.outlet.trans goes), agrees.pending]

theorem pending_kept {t : Outlet} (goes : o.outlet = some t) {k : Nat} (fewer : k ≤ t.waiting)
    (h : Handle) :
    ({ o with outlet := some ⟨h, k⟩ } : Output).pending =
      o.pending.drop (o.pending.length - k) := by
  have kept : ({ o with outlet := some ⟨h, k⟩ } : Output).pending =
      o.written.drop (o.written.length - k) := rfl
  rw [kept, pending_of_outlet goes, List.drop_drop, List.length_drop]
  congr 1
  omega

theorem agrees_give (agrees : o.Agrees o') (fs : Files) (keep : Nat → Nat) :
    (∃ e, o.give fs keep = .error e ∧ o'.give fs keep = .error e) ∨
      ∃ fs' p p', o.give fs keep = .ok (fs', p) ∧ o'.give fs keep = .ok (fs', p') ∧
        p.Agrees p' := by
  unfold give
  rw [agrees.outlet]
  cases goes : o.outlet with
  | none => exact .inr ⟨fs, o, o', rfl, rfl, agrees⟩
  | some t =>
    have goes' := agrees.outlet.trans goes
    dsimp only
    split
    · exact .inr ⟨fs, o, o', rfl, rfl, agrees⟩
    · rename_i more
      -- What the file is given are the first of the bytes that wait, and those are the same.
      have given {q : Output} (goes : q.outlet = some t) :
          ((q.bytes.drop (q.bytes.size - t.waiting)).take (t.waiting - keep t.waiting)).toList =
            q.pending.take (t.waiting - keep t.waiting) := by
        rw [Block.toList_take, Block.toList_drop, ← q.bytes.length_toList, pending_of_outlet goes]
        rfl
      rw [Files.write_congr ((given goes').trans (agrees.pending ▸ (given goes).symm))]
      cases fs.write t.handle _ with
      | error e => exact .inl ⟨_, rfl, rfl⟩
      | ok r =>
        have fewer : keep t.waiting ≤ t.waiting := Nat.le_of_lt (Nat.not_le.mp more)
        refine .inr ⟨r.1, _, _, rfl, rfl, agrees.room, agrees.flushes, rfl, ?_⟩
        rw [pending_kept goes fewer, pending_kept goes' fewer, agrees.pending]

/-- Outputs that agree answer alike, do the same to the files and go on agreeing. -/
theorem agrees_write (agrees : o.Agrees o') (fs : Files) (b : Block) :
    ∃ r fs' p p', o.write fs b = (r, fs', p) ∧ o'.write fs b = (r, fs', p') ∧ p.Agrees p' := by
  have grown := agrees_append agrees (b.take (o.room.getD b.size))
  unfold write
  rw [agrees.room]
  dsimp only
  split
  · exact ⟨_, _, _, _, rfl, rfl, grown⟩
  · rcases agrees_give grown fs (Outlet.kept · b.size) with
      ⟨e, refused, refused'⟩ | ⟨fs', p, p', given, given', agrees'⟩
    · rw [refused, refused']
      exact ⟨_, _, _, _, rfl, rfl, grown⟩
    · rw [given, given']
      exact ⟨_, _, _, _, rfl, rfl, agrees'⟩

theorem flush_of_agrees (agrees : o.Agrees o') : o'.flush = o.flush := by
  rw [flush, flush, agrees.flushes]

end Output

namespace Host

structure Agrees (h h' : Host) : Prop where
  input : h.input.Agrees h'.input
  output : h.output.Agrees h'.output
  files : h'.files = h.files
  handles : h'.handles = h.handles
  nextDescriptor : h'.nextDescriptor = h.nextDescriptor

/-- Hosts that agree and have been given the same bytes to write since they were `base` and
`base'`. -/
structure Abreast (base base' h h' : Host) : Prop extends Agrees h h' where
  written : ∃ bs, h.output.written = base.output.written ++ bs ∧
    h'.output.written = base'.output.written ++ bs
  reported : ∃ bs, h.reports.written = base.reports.written ++ bs ∧
    h'.reports.written = base'.reports.written ++ bs

variable {base base' h h' : Host}

theorem Agrees.abreast (agrees : h.Agrees h') : Abreast h h' h h' :=
  ⟨agrees, ⟨[], by simp⟩, ⟨[], by simp⟩⟩

theorem Abreast.setInput (abreast : Abreast base base' h h') {i i' : Input} (agrees : i.Agrees i') :
    Abreast base base' { h with input := i } { h' with input := i' } :=
  { abreast with input := agrees }

theorem Abreast.setFiles (abreast : Abreast base base' h h') (fs : Files) :
    Abreast base base' { h with files := fs } { h' with files := fs } :=
  { abreast with files := rfl }

theorem Abreast.handle? (abreast : Abreast base base' h h') (fd : Word) :
    h'.handle? fd = h.handle? fd := by
  rw [Host.handle?, Host.handle?, abreast.handles]

theorem Abreast.setHandle (abreast : Abreast base base' h h') (fd : Word) (file : Handle) :
    Abreast base base' (h.setHandle fd file) (h'.setHandle fd file) :=
  { abreast with handles := by rw [Host.setHandle, Host.setHandle, abreast.handles] }

theorem Abreast.addHandle (abreast : Abreast base base' h h') (file : Handle) :
    (h'.addHandle file).1 = (h.addHandle file).1 ∧
      Abreast base base' (h.addHandle file).2 (h'.addHandle file).2 := by
  refine ⟨abreast.nextDescriptor, ?_⟩
  unfold Host.addHandle
  rw [abreast.nextDescriptor]
  exact { abreast.setHandle h.nextDescriptor file with nextDescriptor := rfl }

theorem Abreast.dropHandle (abreast : Abreast base base' h h') (fd : Word) :
    Abreast base base' (h.dropHandle fd) (h'.dropHandle fd) :=
  { abreast with handles := by rw [Host.dropHandle, Host.dropHandle, abreast.handles] }

theorem Abreast.report (abreast : Abreast base base' h h') (b : Block) :
    Abreast base base' { h with reports := h.reports.append b }
      { h' with reports := h'.reports.append b } := by
  obtain ⟨bs, reported, reported'⟩ := abreast.reported
  refine { abreast with reported := ⟨bs ++ b.toList, ?_, ?_⟩ }
  · rw [Output.written_append, reported, List.append_assoc]
  · rw [Output.written_append, reported', List.append_assoc]

theorem Abreast.write (abreast : Abreast base base' h h') (b : Block) :
    ∃ r fs o o', h.output.write h.files b = (r, fs, o) ∧ h'.output.write h'.files b = (r, fs, o') ∧
      Abreast base base' { h with files := fs, output := o }
        { h' with files := fs, output := o' } := by
  obtain ⟨r, fs, o, o', wrote, wrote', agrees⟩ := Output.agrees_write abreast.output h.files b
  obtain ⟨bs, written, written'⟩ := abreast.written
  have grown := h.output.written_write h.files b
  have grown' := h'.output.written_write h.files b
  rw [wrote, written, List.append_assoc] at grown
  rw [wrote', written', abreast.output.room, List.append_assoc] at grown'
  rw [abreast.files]
  exact ⟨r, fs, o, o', wrote, wrote',
    { abreast with output := agrees, files := rfl, written := ⟨_, grown, grown'⟩ }⟩

end Host
end Mips
