import Mips.Proofs.Host.Agreement
import Mips.Proofs.Host.Lines

/-!
Streams that never fail, and what is taken from an input for a token. Main statements:
`next_of_sound` and its like, an input that cannot fail gives what it is asked for; `unread_token`
and `exists_parts`, whitespace, a token and one byte of whitespace behind it are taken for a token;
`token_of_parts`, which token that is; and `write_of_sound`, an output that cannot fail takes all
that is written.
-/
namespace Mips

/-- Sources that never fail, by the file behind them, if there is one. -/
inductive Source.Sound : Option Path → Source → Prop
  | bytes (b : Block) : Sound none (.bytes b none)
  | file (path : Path) (pos : Nat) : Sound (some path) (.file (.file path .read pos))

namespace Source

variable {place : Option Path} {s : Source} {fs fs' : Files}

theorem fetch_of_sound (sound : s.Sound place) (fs : Files) (n : Nat) :
    ∃ b t, s.fetch fs n = .ok (b, t) ∧ t.Sound place := by
  cases sound with
  | bytes b => exact ⟨_, _, rfl, .bytes _⟩
  | file path pos => exact ⟨_, _, rfl, .file ..⟩

theorem rest_of_sound (sound : s.Sound place)
    (same : ∀ path ∈ place, fs'.content path = fs.content path) : s.rest fs' = s.rest fs := by
  cases sound with
  | bytes b => rfl
  | file path pos => exact congrArg (List.drop pos) (same path rfl)

end Source

namespace Input

variable {place : Option Path} {i j : Input} {fs : Files}

theorem unread_of_sound {fs' : Files} (sound : i.source.Sound place)
    (same : ∀ path ∈ place, fs'.content path = fs.content path) : i.unread fs' = i.unread fs :=
  congrArg (i.held ++ ·) (Source.rest_of_sound sound same)

theorem fill_of_sound (sound : i.source.Sound place) (fs : Files) :
    ∃ j, i.fill fs = (.ok (), j) ∧ j.source.Sound place := by
  unfold fill
  split
  · exact ⟨i, rfl, sound⟩
  · obtain ⟨b, t, fetched, kept⟩ := Source.fetch_of_sound sound fs stretch
    rw [fetched]
    exact ⟨_, rfl, kept⟩

theorem next_of_sound (sound : i.source.Sound place) (fs : Files) :
    ∃ first j, i.next fs = (.ok first, j) ∧ j.source.Sound place := by
  obtain ⟨j, filled, kept⟩ := fill_of_sound sound fs
  unfold next
  rw [filled]
  dsimp only
  split
  · exact ⟨_, _, rfl, kept⟩
  · exact ⟨_, _, rfl, kept⟩

theorem read_of_sound (sound : i.source.Sound place) (fs : Files) (n : Nat) :
    ∃ b j, i.read fs n = (.ok b, j) ∧ j.source.Sound place := by
  unfold read
  split
  · obtain ⟨b, t, fetched, kept⟩ := Source.fetch_of_sound sound fs n
    rw [fetched]
    exact ⟨_, _, rfl, kept⟩
  · obtain ⟨j, filled, kept⟩ := fill_of_sound sound fs
    rw [filled]
    exact ⟨_, _, rfl, kept⟩

theorem line_of_sound (sound : i.source.Sound place) (fs : Files) (n : Nat)
    (taken : Array UInt8) :
    ∃ bs j, i.line fs n taken = (.ok bs, j) ∧ j.source.Sound place := by
  induction n generalizing i taken with
  | zero => exact ⟨_, _, rfl, sound⟩
  | succ n ih =>
    obtain ⟨first, j, next, kept⟩ := next_of_sound sound fs
    unfold line
    rw [next]
    cases first with
    | none => exact ⟨_, _, rfl, kept⟩
    | some b =>
      dsimp only
      split
      · exact ⟨_, _, rfl, kept⟩
      · exact ih kept _

theorem token_of_sound {i : Input} (sound : i.source.Sound place) (fs : Files)
    (taken : Array UInt8) :
    ∃ bs j, i.token fs taken = (.ok bs, j) ∧ j.source.Sound place := by
  obtain ⟨first, j, next, kept⟩ := next_of_sound sound fs
  rw [token_eq, next]
  cases first with
  | none => exact ⟨_, _, rfl, kept⟩
  | some b =>
    dsimp only
    split
    · split
      · exact token_of_sound kept fs _
      · exact ⟨_, _, rfl, kept⟩
    · exact token_of_sound kept fs _
termination_by (i.unread fs).length
decreasing_by all_goals simp [unread_next next]

theorem not_mem_dropLast_lineOf (n : Nat) (bs : List UInt8) : 10 ∉ (lineOf n bs).dropLast := by
  induction n generalizing bs with
  | zero => exact List.not_mem_nil
  | succ n ih =>
    cases bs with
    | nil => exact List.not_mem_nil
    | cons b bs =>
      rw [lineOf]
      split
      · exact List.not_mem_nil
      · rename_i within
        cases rest : lineOf n bs with
        | nil => exact List.not_mem_nil
        | cons c cs =>
          have later := ih bs
          rw [rest] at later
          rw [List.dropLast_cons_cons, List.mem_cons, not_or]
          exact ⟨Ne.symm within, later⟩

def restOf (bs : List UInt8) : List UInt8 :=
  bs.takeWhile (!isSpace ·) ++ (bs.dropWhile (!isSpace ·)).take 1

/-- What is taken for a token: the whitespace in front of it, the token, and one more. -/
def tokenOf (bs : List UInt8) : List UInt8 :=
  bs.takeWhile isSpace ++ restOf (bs.dropWhile isSpace)

theorem restOf_cons (b : UInt8) (bs : List UInt8) :
    restOf (b :: bs) = if isSpace b then [b] else b :: restOf bs := by
  cases space : isSpace b <;> simp [restOf, space]

theorem tokenOf_cons (b : UInt8) (bs : List UInt8) :
    tokenOf (b :: bs) = if isSpace b then b :: tokenOf bs else b :: restOf bs := by
  cases space : isSpace b
  · simp [tokenOf, space, restOf_cons]
  · simp [tokenOf, space]

theorem unread_token {i j : Input} {taken : Array UInt8} {bs : List UInt8}
    (read : i.token fs taken = (.ok bs, j)) :
    i.unread fs =
      (if taken.isEmpty then tokenOf (i.unread fs) else restOf (i.unread fs)) ++ j.unread fs := by
  obtain ⟨r, k, next⟩ : ∃ r k, i.next fs = (r, k) := ⟨_, _, rfl⟩
  rw [token_eq, next] at read
  rcases r with e | none | b
  · cases read
  · cases read
    rw [unread_next_none next, unread_of_next_none next]
    split <;> rfl
  · dsimp only at read
    rw [unread_next next, tokenOf_cons, restOf_cons]
    split at read
    · rename_i space
      split at read
      · rename_i unbegun
        have later := unread_token read
        rw [if_pos unbegun, if_pos space, List.cons_append]
        exact congrArg (b :: ·) later
      · rename_i begun
        cases read
        rw [if_neg begun, if_pos space]
        rfl
    · rename_i within
      have later := unread_token read
      have begun : ¬(taken.push b).isEmpty = true := by simp
      rw [if_neg begun] at later
      rw [if_neg within, if_neg within, ite_self, List.cons_append]
      exact congrArg (b :: ·) later
termination_by (i.unread fs).length
decreasing_by all_goals simp [unread_next next]

def wordOf (bs : List UInt8) : List UInt8 := (bs.dropWhile isSpace).takeWhile (!isSpace ·)

theorem token_eq_ok {i j : Input} {taken : Array UInt8} {bs : List UInt8}
    (read : i.token fs taken = (.ok bs, j)) :
    bs = if taken.isEmpty then wordOf (i.unread fs)
      else taken.toList ++ (i.unread fs).takeWhile (!isSpace ·) := by
  obtain ⟨r, k, next⟩ : ∃ r k, i.next fs = (r, k) := ⟨_, _, rfl⟩
  rw [token_eq, next] at read
  rcases r with e | none | b
  · cases read
  · cases read
    rw [unread_next_none next]
    split
    · rename_i unbegun
      simpa [wordOf] using unbegun
    · simp
  · dsimp only at read
    rw [unread_next next]
    split at read
    · rename_i space
      split at read
      · rename_i unbegun
        have later : bs = wordOf (k.unread fs) := token_eq_ok read
        rw [if_pos unbegun, later, wordOf, wordOf, List.dropWhile_cons_of_pos space]
      · rename_i begun
        cases read
        rw [if_neg begun, List.takeWhile_cons, if_neg (by simp [space]), List.append_nil]
    · rename_i within
      have clean : (!isSpace b) = true := by simp [within]
      have later := token_eq_ok read
      rw [if_neg (by simp)] at later
      rw [later, wordOf, List.dropWhile_cons_of_neg within, List.takeWhile_cons, if_pos clean]
      split
      · rename_i unbegun
        have empty : taken.toList = [] := by simpa using unbegun
        simp [empty]
      · simp
termination_by (i.unread fs).length
decreasing_by all_goals simp [unread_next next]

/-- A token that stands between whitespace is read, and what is behind the byte that ends it stays
unread. -/
theorem token_of_parts (sound : i.source.Sound place) {spaces tok rest : List UInt8} {b : UInt8}
    (blank : ∀ c ∈ spaces, isSpace c = true) (filled : tok ≠ [])
    (clean : ∀ c ∈ tok, isSpace c = false) (ends : isSpace b = true)
    (unread : i.unread fs = spaces ++ (tok ++ b :: rest)) :
    ∃ j, i.token fs = (.ok tok, j) ∧ j.source.Sound place ∧ j.unread fs = rest := by
  have clean' : ∀ c ∈ tok, (!isSpace c) = true := fun c there => by simp [clean c there]
  have ends' : ¬(!isSpace b) = true := by simp [ends]
  have behind : (i.unread fs).dropWhile isSpace = tok ++ b :: rest := by
    obtain ⟨c, cs, rfl⟩ := List.exists_cons_of_ne_nil filled
    rw [unread, List.dropWhile_append_of_pos blank, List.cons_append,
      List.dropWhile_cons_of_neg (by simp [clean c List.mem_cons_self])]
  have front : (i.unread fs).takeWhile isSpace = spaces := by
    have cut := List.takeWhile_append_dropWhile (p := isSpace) (l := i.unread fs)
    rw [behind] at cut
    exact List.append_cancel_right (cut.trans unread)
  have word : wordOf (i.unread fs) = tok := by
    rw [wordOf, behind, List.takeWhile_append_of_pos clean', List.takeWhile_cons, if_neg ends',
      List.append_nil]
  have whole : tokenOf (i.unread fs) = spaces ++ (tok ++ [b]) := by
    rw [tokenOf, restOf, front, behind, List.takeWhile_append_of_pos clean',
      List.dropWhile_append_of_pos clean', List.takeWhile_cons, if_neg ends', List.dropWhile_cons,
      if_neg ends', List.append_nil]
    rfl
  obtain ⟨bs, j, read, kept⟩ := token_of_sound sound fs #[]
  have value : bs = wordOf (i.unread fs) := token_eq_ok read
  have cut : i.unread fs = tokenOf (i.unread fs) ++ j.unread fs := unread_token read
  rw [whole, unread, List.append_assoc, List.append_assoc] at cut
  have left := List.append_cancel_left (List.append_cancel_left cut)
  rw [value, word] at read
  exact ⟨j, read, kept, (List.cons.inj left).2.symm⟩

theorem exists_parts (bs : List UInt8) :
    ∃ spaces token delimiter, tokenOf bs = spaces ++ (token ++ delimiter) ∧
      (∀ b ∈ spaces, isSpace b = true) ∧ (∀ b ∈ token, isSpace b = false) ∧
      (∀ b ∈ delimiter, isSpace b = true) ∧ delimiter.length ≤ 1 ∧
      (token = [] ∨ delimiter = [] → tokenOf bs = bs) := by
  have front (p : UInt8 → Bool) (l : List UInt8) : ∀ b ∈ l.takeWhile p, p b = true :=
    List.all_eq_true.mp List.all_takeWhile
  refine ⟨_, _, _, rfl, front isSpace bs, ?_, ?_, List.length_take_le .., ?_⟩
  · intro b within
    simpa using front (!isSpace ·) _ b within
  · intro b behind
    have first := List.head?_dropWhile_not (!isSpace ·) (bs.dropWhile isSpace)
    cases rest : (bs.dropWhile isSpace).dropWhile (!isSpace ·) with
    | nil => simp [rest] at behind
    | cons c cs => simp_all
  · intro ended
    have nothing : (bs.dropWhile isSpace).dropWhile (!isSpace ·) = [] := by
      rcases ended with unbegun | unended
      · have first := List.head?_dropWhile_not isSpace bs
        cases rest : bs.dropWhile isSpace with
        | nil => rfl
        | cons c cs => simp_all
      · simpa using unended
    have cut := List.takeWhile_append_dropWhile (p := isSpace) (l := bs)
    have cut' := List.takeWhile_append_dropWhile (p := (!isSpace ·)) (l := bs.dropWhile isSpace)
    rw [nothing, List.append_nil] at cut'
    rw [tokenOf, restOf, nothing, List.take_nil, List.append_nil, cut', cut]

theorem unread_next_take {first : Option UInt8} (asked : i.next fs = (.ok first, j)) :
    i.unread fs = (i.unread fs).take 1 ++ j.unread fs := by
  cases first with
  | none => rw [unread_next_none asked, unread_of_next_none asked]; rfl
  | some b => rw [unread_next asked]; rfl

end Input

def Handle.Writable : Handle → Prop
  | .file _ access _ => access ≠ .read
  | .directory => False

theorem Files.write_of_writable {h : Handle} (writable : h.Writable) (fs : Files) (b : Block) :
    ∃ fs' h', fs.write h b = .ok (fs', h') ∧ h'.Writable := by
  unfold write
  split
  · exact ⟨_, _, rfl, writable⟩
  · cases h with
    | directory => exact writable.elim
    | file path access pos =>
      cases access with
      | read => exact absurd rfl writable
      | write | append => exact ⟨_, _, rfl, nofun⟩

/-- Outputs that never fail: they take all they are given, and so does the file behind them, if
there is one. -/
structure Output.Sound (o : Output) : Prop where
  unlimited : o.room = none
  outlet : ∀ t ∈ o.outlet, t.handle.Writable

namespace Output

variable {o : Output}

theorem give_of_sound (sound : o.Sound) (fs : Files) (keep : Nat → Nat) :
    ∃ fs' p, o.give fs keep = .ok (fs', p) ∧ p.Sound := by
  unfold give
  split
  · exact ⟨_, _, rfl, sound⟩
  · rename_i t goes
    dsimp only
    split
    · exact ⟨_, _, rfl, sound⟩
    · obtain ⟨fs', h, wrote, writable⟩ := Files.write_of_writable (sound.outlet t goes) fs
        ((o.bytes.drop (o.bytes.size - t.waiting)).take (t.waiting - keep t.waiting))
      rw [wrote]
      refine ⟨_, _, rfl, sound.unlimited, fun t' goes' => ?_⟩
      obtain rfl := Option.some.inj goes'
      exact writable

theorem sound_append (sound : o.Sound) (b : Block) : (o.append b).Sound := by
  refine ⟨by rw [append, sound.unlimited]; rfl, fun t goes => ?_⟩
  obtain ⟨t', goes', rfl⟩ := Option.map_eq_some_iff.mp goes
  exact sound.outlet t' goes'

theorem write_of_sound (sound : o.Sound) (fs : Files) (b : Block) :
    ∃ fs' p, o.write fs b = (.ok (), fs', p) ∧ p.Sound ∧ p.written = o.written ++ b.toList := by
  have all : b.take (o.room.getD b.size) = b := by
    rw [sound.unlimited, Option.getD_none, Block.take, Nat.min_self]
  obtain ⟨fs', p, given, kept⟩ := give_of_sound (sound_append sound b) fs (Outlet.kept · b.size)
  refine ⟨fs', p, ?_, kept, (written_give given).trans (written_append o b)⟩
  unfold write
  dsimp only
  rw [all, if_neg (Nat.lt_irrefl _), given]

end Output
end Mips
