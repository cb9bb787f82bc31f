import Mips.Proofs.Command.Apart
import Mips.Proofs.Program.Listing

/-!
A source that is assembled and run in one go, and the same source assembled into a listing that is
then run. Main statement: `outcome?_listing`, both ways come to the same but for the listing, which
is then a file among the others.
-/
namespace Mips.Command

/-- Command lines of which one asks for a source to be assembled and run, and two others ask for the
same in two steps, with a listing in between. -/
structure Pipelines where
  source : List Char
  listing : List Char
  simulate : List (List Char)
  assemble : List (List Char)
  run : List (List Char)
  whole : Arguments
  split : Arguments
  read_simulate : Arguments.read (grammar .simulate) simulate = .ok whole
  read_assemble :
    Arguments.read (grammar .assemble) assemble = .ok { operands := [source, listing] }
  read_run : Arguments.read (grammar .run) run = .ok split
  source_eq : whole.operands.head? = some source
  listing_eq : split.operands.head? = some listing
  input_eq : split.value? "input" = whole.operands[1]?
  output_eq : split.value? "output" = whole.operands[2]?
  config_eq : split.value? "config" = whole.value? "config"
  limit_eq : (split.value? "max-steps").bind ValueKind.number? =
    (whole.value? "max-steps").bind ValueKind.number?
  dump_eq : split.value? "dump-state" = none

def launch (env : Environment) (config : Except Failure Machine.Settings) (prog : Program)
    (input output : Option (List Char)) : Prepared :=
  match config with
  | .error f => .done (fail env.files f)
  | .ok config => prepare env config prog input output false

/-- No path that is opened leads to a place or through it: not the settings, the input or the output
that a command is given, and none that its program opens. -/
structure Clear (place : Path) (a : Arguments) (p : Prepared) : Prop where
  config : ∀ path ∈ a.value? "config", ¬Files.Passes path place
  input : ∀ path ∈ a.operands[1]?, ¬Files.Passes path place
  output : ∀ path ∈ a.operands[2]?, ¬Files.Passes path place
  program : ∀ n, ∀ path ∈ p.opens? n, ¬Files.Passes path place

variable {env : Environment} {place : Path} {g : File} {prog : Program}

theorem launch_put (env : Environment) (g : File) (config : Except Failure Machine.Settings)
    (prog : Program) {input output : Option (List Char)}
    (reads : ∀ path ∈ input, ¬Files.Passes path place)
    (writes : ∀ path ∈ output, ¬Files.Passes path place) :
    launch (env.put place g) config prog input output =
        (launch env config prog input output).put place g ∧
      (launch env config prog input output).Apart place := by
  cases config with
  | error f => exact ⟨rfl, trivial⟩
  | ok config => exact prepare_put env config prog false reads writes

theorem simulate_of_source {a : Arguments} {source src : List Char}
    (path : a.operands.head? = some source) (read : readText env.files source = .ok src)
    (assembled : Assembly.assemble src = .ok prog) :
    simulate env a = launch env (settings env.files a) prog a.operands[1]? a.operands[2]? := by
  unfold simulate launch
  dsimp only
  rw [List.headD_eq_head?_getD, path, Option.getD_some, read]
  cases settings env.files a with
  | error f => rfl
  | ok config =>
    simp only [bind, Except.bind, Except.mapError, assembled]
    rfl

theorem run_of_listing {a : Arguments} {listing : List Char}
    (path : a.operands.head? = some listing) (read : readText env.files listing = .ok prog.listing)
    (plain : a.value? "dump-state" = none) :
    run env a = launch env (settings env.files a) prog (a.value? "input") (a.value? "output") := by
  unfold run launch
  dsimp only
  rw [List.headD_eq_head?_getD, path, Option.getD_some, read, plain]
  cases settings env.files a with
  | error f => rfl
  | ok config =>
    simp only [bind, Except.bind, Except.mapError, Program.ofListing_listing]
    rfl

structure Listed (fs : Files) (listing : List Char) (prog : Program) (place : Path) (g : File) :
    Prop where
  content : g.content = Text.utf8 prog.listing
  opens : ∀ h, (fs.put place g).openRead listing = .ok h → h = .file place .read 0
  holds : (fs.put place g).content place = g.content

theorem Listed.read {fs : Files} {listing : List Char} {h : Handle}
    (listed : Listed fs listing prog place g)
    (opened : (fs.put place g).openRead listing = .ok h) :
    readText (fs.put place g) listing = .ok prog.listing := by
  obtain rfl := listed.opens h opened
  exact readText_of_content opened (listed.holds.trans listed.content)

theorem deliver_eq {listing : List Char} (wrote : (deliver env prog (some listing)).status = 0) :
    ∃ place g, deliver env prog (some listing) = ⟨0, [], [], env.files.put place g⟩ ∧
      Listed env.files listing prog place g := by
  unfold deliver at wrote ⊢
  dsimp only at wrote ⊢
  cases opened : env.files.openWrite listing false 0 with
  | error e =>
    rw [opened] at wrote
    cases wrote
  | ok r =>
    obtain ⟨h, files⟩ := r
    obtain ⟨place, f, named, rfl, rfl, leads⟩ := Files.openRead_of_openWrite opened
    refine ⟨place, .ofBytes (Text.utf8 prog.listing) f.mode, ?_, File.content_ofBytes _ _, leads _,
      Files.content_put_self named⟩
    dsimp only
    rw [Files.update, Files.file?_put _ _ named, if_pos rfl]
    dsimp only
    rw [Files.put_put]

theorem assemble_eq (env : Environment) (source listing : List Char) :
    assemble env { operands := [source, listing] } =
      match (readText env.files source).mapError (.cannotOpen source) >>= fun src =>
        (Assembly.assemble src).mapError (.badSource none) with
      | .error f => fail env.files f
      | .ok prog => deliver env prog (some listing) :=
  rfl

theorem assemble_of_source {source listing src : List Char}
    (read : readText env.files source = .ok src) (assembled : Assembly.assemble src = .ok prog) :
    assemble env { operands := [source, listing] } = deliver env prog (some listing) := by
  simp only [assemble_eq, read, Except.mapError, bind, Except.bind, assembled]

theorem assemble_eq_ok {source listing : List Char}
    (wrote : (assemble env { operands := [source, listing] }).status = 0) :
    ∃ src prog place g, readText env.files source = .ok src ∧ Assembly.assemble src = .ok prog ∧
      assemble env { operands := [source, listing] } = ⟨0, [], [], env.files.put place g⟩ ∧
      Listed env.files listing prog place g := by
  cases read : readText env.files source with
  | error e =>
    rw [assemble_eq, read] at wrote
    cases wrote
  | ok src =>
    cases assembled : Assembly.assemble src with
    | error e =>
      simp only [assemble_eq, read, Except.mapError, bind, Except.bind, assembled] at wrote
      cases wrote
    | ok prog =>
      rw [assemble_of_source read assembled] at wrote ⊢
      obtain ⟨place, g, delivered, listed⟩ := deliver_eq wrote
      exact ⟨src, prog, place, g, rfl, assembled, delivered, listed⟩

namespace Pipelines

variable (p : Pipelines)

theorem start_simulate (env : Environment) :
    start .simulate p.simulate env = Command.simulate env p.whole := by
  unfold start
  rw [p.read_simulate]

theorem start_assemble (env : Environment) :
    start .assemble p.assemble env =
      .done (Command.assemble env { operands := [p.source, p.listing] }) := by
  unfold start
  rw [p.read_assemble]

theorem start_run (env : Environment) :
    start .run p.run env = Command.run env p.split := by
  unfold start
  rw [p.read_run]

end Pipelines

def bare (listing : Char) : Pipelines where
  source := ['s']
  listing := [listing]
  simulate := [['s']]
  assemble := [['s'], [listing]]
  run := [[listing]]
  whole := { operands := [['s']] }
  split := { operands := [[listing]] }
  read_simulate := by decide
  read_assemble := by
    simp [Arguments.read, Arguments.readOnto, Arguments.looksLikeOption, Arguments.addOperand,
      grammar, Except.bind]
  read_run := by
    simp [Arguments.read, Arguments.readOnto, Arguments.looksLikeOption, Arguments.addOperand,
      grammar, Except.bind]
  source_eq := rfl
  listing_eq := rfl
  input_eq := rfl
  output_eq := rfl
  config_eq := rfl
  limit_eq := rfl
  dump_eq := rfl

def probe : Program :=
  ⟨[0x6C000000], [0x3C040050, 0x2402000D, 0x0000000C, 0x00402021, 0x24020011, 0x0000000C]⟩

def probeSource : List Char :=
  (".data\n.asciiz \"l\"\n.text\nlui $a0,0x50\naddiu $v0,$zero,13\nsyscall\n" ++
    "addu $a0,$v0,$zero\naddiu $v0,$zero,17\nsyscall\n").toList

def probeEnv : Environment where
  files := Files.put {} [['s']] (.ofBytes (Text.utf8 probeSource) Files.initialMode)
  stdin := []

theorem assemble_probeSource : Assembly.assemble probeSource = .ok probe := by decide +kernel

theorem readText_probeEnv : readText probeEnv.files ['s'] = .ok probeSource := by
  have opened : probeEnv.files.openRead ['s'] = .ok (.file [['s']] .read 0) := by decide +kernel
  exact readText_of_content opened
    ((Files.content_put_self (List.cons_ne_nil _ _)).trans (File.content_ofBytes _ _))

theorem simulate_probe (listing : Char) :
    start .simulate (bare listing).simulate probeEnv =
      launch probeEnv (.ok {}) probe none none := by
  rw [(bare listing).start_simulate]
  exact simulate_of_source rfl readText_probeEnv assemble_probeSource

theorem assemble_probe (listing : Char) :
    start .assemble (bare listing).assemble probeEnv =
      .done (deliver probeEnv probe (some [listing])) := by
  rw [(bare listing).start_assemble]
  exact congrArg _ (assemble_of_source readText_probeEnv assemble_probeSource)

def Outcome.seen (place : Path) (o : Outcome) : Nat × Bool :=
  (o.status, (o.files.file? place).isSome)

/-- A source that is assembled and run comes to the same as the listing that it is assembled into,
on the files as they were before and with the listing as one more file, unless a path that a command
or the program opens leads through the place of the listing. Where the listing is among the files
beforehand, both prepare the same machine whatever its program opens. -/
theorem outcome?_listing (p : Pipelines) {o : Outcome}
    (wrote : start .assemble p.assemble env = .done o) (accepted : o.status = 0)
    (readable : ∃ h, o.files.openRead p.listing = .ok h) :
    ∃ src prog place g, readText env.files p.source = .ok src ∧
      Assembly.assemble src = .ok prog ∧ g.content = Text.utf8 prog.listing ∧
      o.files.openRead p.listing = .ok (.file place .read 0) ∧
      o = ⟨0, [], [], env.files.put place g⟩ ∧
      (readText o.files p.source = .ok src →
        start .run p.run ⟨o.files, env.stdin⟩ = start .simulate p.simulate ⟨o.files, env.stdin⟩) ∧
      (Clear place p.whole (start .simulate p.simulate env) → ∀ n,
        (start .run p.run ⟨o.files, env.stdin⟩).outcome? n =
          ((start .simulate p.simulate env).outcome? n).map (·.put place g)) := by
  obtain rfl : _ = o := Prepared.done.inj ((p.start_assemble env).symm.trans wrote)
  obtain ⟨src, prog, place, g, read, assembled, made, listed⟩ := assemble_eq_ok accepted
  rw [made] at readable ⊢
  obtain ⟨h, opened⟩ := readable
  -- Both commands end in `launch`, and from there on they differ in the files alone.
  have second : run (env.put place g) p.split =
      launch (env.put place g) (settings (env.files.put place g) p.whole) prog
        p.whole.operands[1]? p.whole.operands[2]? := by
    rw [run_of_listing p.listing_eq (listed.read opened) p.dump_eq, p.input_eq, p.output_eq,
      ← settings_congr p.config_eq p.limit_eq]
    rfl
  obtain rfl := listed.opens h opened
  refine ⟨src, prog, place, g, read, assembled, listed.content, opened, rfl, ?_, ?_⟩
  · intro kept
    rw [p.start_run, p.start_simulate]
    exact second.trans (simulate_of_source p.source_eq kept assembled).symm
  · intro clear n
    rw [p.start_simulate, simulate_of_source p.source_eq read assembled] at clear ⊢
    obtain ⟨same, apart⟩ :=
      launch_put env g (settings env.files p.whole) prog clear.input clear.output
    rw [settings_put clear.config, same] at second
    rw [p.start_run, show Environment.mk (env.files.put place g) env.stdin = env.put place g from
      rfl, second]
    exact outcome?_put apart clear.program g n

theorem outcome?_listing_apart :
    ∃ o g, start .assemble (bare 'm').assemble probeEnv = .done o ∧ o.status = 0 ∧
      (∃ h, o.files.openRead (bare 'm').listing = .ok h) ∧
      Clear [['m']] (bare 'm').whole (start .simulate (bare 'm').simulate probeEnv) ∧
      (start .simulate (bare 'm').simulate probeEnv).opens? 2 = some ['l'] ∧
      ∃ o', (start .simulate (bare 'm').simulate probeEnv).outcome? 6 = some o' ∧ o'.status = 1 ∧
        (start .run (bare 'm').run ⟨o.files, []⟩).outcome? 6 = some (o'.put [['m']] g) := by
  have wrote := assemble_probe 'm'
  have accepted : (deliver probeEnv probe (some ['m'])).status = 0 := by decide +kernel
  have readable : (deliver probeEnv probe (some ['m'])).files.openRead ['m'] =
      .ok (.file [['m']] .read 0) := by
    decide +kernel
  have exits : ((launch probeEnv (.ok {}) probe none none).outcome? 6).map (·.status) = some 1 := by
    decide +kernel
  have opens : (launch probeEnv (.ok {}) probe none none).opens? 2 = some ['l'] := by
    decide +kernel
  have early : ∀ n < 6, ∀ path ∈ (launch probeEnv (.ok {}) probe none none).opens? n,
      ¬Files.Passes path [['m']] := by
    decide +kernel
  rw [← simulate_probe 'm'] at exits opens early
  obtain ⟨o', came, status⟩ := Option.map_eq_some_iff.mp exits
  have clear : Clear [['m']] (bare 'm').whole
      (start .simulate (bare 'm').simulate probeEnv) := by
    refine ⟨nofun, nofun, nofun, fun n path opened => ?_⟩
    by_cases later : 6 ≤ n
    · rw [opens?_of_outcome? (came ▸ rfl) later] at opened
      cases opened
    · exact early n (Nat.not_le.mp later) path opened
  obtain ⟨_, _, place, g, _, _, _, opened, _, _, same⟩ :=
    outcome?_listing (bare 'm') wrote accepted ⟨_, readable⟩
  cases readable.symm.trans opened
  refine ⟨_, g, wrote, accepted, ⟨_, readable⟩, clear, opens, o', came, status, ?_⟩
  exact (same clear 6).trans (congrArg (Option.map _) came)

/-- A program that opens the listing finds it only where its source was assembled into one. -/
theorem outcome?_listing_opened :
    ∃ o o₁ o₂, start .assemble (bare 'l').assemble probeEnv = .done o ∧ o.status = 0 ∧
      (start .simulate (bare 'l').simulate probeEnv).outcome? 6 = some o₁ ∧
      (start .run (bare 'l').run ⟨o.files, []⟩).outcome? 6 = some o₂ ∧
      o₁.seen [['l']] = (1, false) ∧ o₂.seen [['l']] = (3, true) := by
  have wrote := assemble_probe 'l'
  have accepted : (deliver probeEnv probe (some ['l'])).status = 0 := by decide +kernel
  have readable : (deliver probeEnv probe (some ['l'])).files.openRead ['l'] =
      .ok (.file [['l']] .read 0) := by
    decide +kernel
  have seen₁ : ((launch probeEnv (.ok {}) probe none none).outcome? 6).map (·.seen [['l']]) =
      some (1, false) := by
    decide +kernel
  have seen₂ : ((launch ⟨(deliver probeEnv probe (some ['l'])).files, []⟩ (.ok {}) probe none
      none).outcome? 6).map (·.seen [['l']]) = some (3, true) := by
    decide +kernel
  obtain ⟨o₁, came₁, seen₁⟩ := Option.map_eq_some_iff.mp seen₁
  obtain ⟨o₂, came₂, seen₂⟩ := Option.map_eq_some_iff.mp seen₂
  have listed : readText (deliver probeEnv probe (some ['l'])).files ['l'] = .ok probe.listing := by
    obtain ⟨place, g, made, listed⟩ := deliver_eq accepted
    rw [made] at readable ⊢
    exact listed.read readable
  have ran : start .run (bare 'l').run ⟨(deliver probeEnv probe (some ['l'])).files, []⟩ =
      launch ⟨(deliver probeEnv probe (some ['l'])).files, []⟩ (.ok {}) probe none none := by
    rw [(bare 'l').start_run]
    exact run_of_listing rfl listed rfl
  rw [← simulate_probe 'l'] at came₁
  rw [← ran] at came₂
  exact ⟨_, o₁, o₂, wrote, accepted, came₁, came₂, seen₁, seen₂⟩

end Mips.Command
