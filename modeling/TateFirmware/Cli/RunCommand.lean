import TateFirmware.Cli.Macros
import TateFirmware.Cli.ParseLine

/-!
# Running a line of commands

`run_command` of `common/main.c` cuts a line into commands, replaces the macros of
each, looks it up and calls it.  The commands of the board and what they change are
parameters.  The state also keeps what has become of each command, oldest first.  A
command whose expansion fills `finaltoken` is not followed, as `parse_line` then
reads behind the array.
-/

namespace TateFirmware.Cli

open LibGeneric Support

/-- `CFG_CBSIZE` and `CFG_MAXARGS`. -/
structure CliConfig where
  cbsize : ℕ
  maxargs : ℕ

/-- The fields of `cmd_tbl_t` that are read; `bootd` tells that the function is
`do_bootd`. -/
structure CmdTbl where
  name : List UInt8
  maxargs : ℕ
  repeatable : Bool
  bootd : Bool
deriving DecidableEq, Repr

/-- The board that commands run on. -/
structure Board (σ : Type*) where
  getenv : σ → Getenv
  findCmd : List UInt8 → Option CmdTbl
  /-- The function of a command, with `CMD_FLAG_BOOTD`, `argc` and `argv`. -/
  cmd : CmdTbl → Bool → ℕ → Argv → σ → ℤ × σ
  clearCtrlc : σ → σ
  hadCtrlc : σ → Bool

/-- What becomes of a command. -/
inductive Outcome where
  /-- There is no word in it. -/
  | blank
  | unknown
  | tooManyArgs (cmdtp : CmdTbl)
  /-- `bootd` in a command that `bootd` runs. -/
  | recursion (cmdtp : CmdTbl)
  /-- The command has returned `ret`; `stopped` tells whether a Ctrl-C has been
  typed. -/
  | ran (cmdtp : CmdTbl) (argc : ℕ) (argv : Argv) (ret : ℤ) (stopped : Bool)

/-- One pass of the loop: the command, with its macros replaced, and what becomes
of it. -/
structure Pass where
  token : List UInt8
  finaltoken : List UInt8
  outcome : Outcome

/-- The variables of `run_command`. -/
structure RunState (σ : Type*) where
  world : σ
  /-- `flag & CMD_FLAG_BOOTD`. -/
  bootd : Bool
  argv : Argv
  rc : ℤ
  repeatable : Bool
  log : List Pass

/-- A pass that ends before a command is called. -/
def RunState.skip {σ : Type*} (st : RunState σ) (pass : Pass) : RunState σ :=
  { st with rc := -1, log := st.log ++ [pass] }

/-- How a pass ends. -/
inductive PassResult (σ : Type*) where
  | overrun
  | stopped (st : RunState σ)
  | next (st : RunState σ)

section Run

variable {σ : Type*} (cfg : CliConfig) (board : Board σ)

/-- The call of a command. -/
def callCmd (token text : List UInt8) (cmdtp : CmdTbl) (argc : ℕ)
    (st : RunState σ) : PassResult σ :=
  let bootd := st.bootd || cmdtp.bootd
  let (ret, world) := board.cmd cmdtp bootd argc st.argv st.world
  let st :=
    { st with
      world := world
      bootd := bootd
      rc := if ret ≠ 0 then -1 else st.rc
      repeatable := st.repeatable && cmdtp.repeatable
      log := st.log ++ [⟨token, text, .ran cmdtp argc st.argv ret
        (board.hadCtrlc world)⟩] }
  if board.hadCtrlc world then .stopped st else .next st

/-- A pass of the loop from the arguments on. -/
def dispatch (token text : List UInt8) (argc : ℕ) (st : RunState σ) :
    PassResult σ :=
  if argc = 0 then .next (st.skip ⟨token, text, .blank⟩)
  else
    match board.findCmd ((st.argv 0).getD []) with
    | none => .next (st.skip ⟨token, text, .unknown⟩)
    | some cmdtp =>
        if cmdtp.maxargs < argc then
          .next (st.skip ⟨token, text, .tooManyArgs cmdtp⟩)
        else if cmdtp.bootd ∧ st.bootd then
          .next (st.skip ⟨token, text, .recursion cmdtp⟩)
        else callCmd board token text cmdtp argc st

/-- A pass of the loop, from the macros on. -/
def runPass (token : List UInt8) (st : RunState σ) : PassResult σ :=
  let text := macroLoop cfg.cbsize (board.getenv st.world) token .dollar 0 []
  if cfg.cbsize ≤ text.length then .overrun
  else
    let (argc, argv) := parseLine cfg.maxargs text st.argv
    dispatch board token text argc { st with argv := argv }

/-- `inquotes` after a character. -/
def quotesAfter (inquotes : Bool) (prev c : UInt8) : Bool :=
  if c = ch '\'' ∧ prev ≠ ch '\\' then !inquotes else inquotes

/-- The loop that looks for a separator: what is in front of it, and what stands
there.  `prev` is the character in front, and `start` tells that the token starts
here. -/
def findSep : Bool → UInt8 → Bool → List UInt8 → List UInt8 × List UInt8
  | _, _, _, [] => ([], [])
  | inquotes, prev, start, c :: rest =>
      let inquotes := quotesAfter inquotes prev c
      if inquotes = false ∧ c = ch ';' ∧ start = false ∧ prev ≠ ch '\\' then
        ([], c :: rest)
      else
        let (token, sep) := findSep inquotes c false rest
        (c :: token, sep)

theorem findSep_append (inquotes : Bool) (prev : UInt8) (start : Bool)
    (str : List UInt8) : (findSep inquotes prev start str).1 ++
      (findSep inquotes prev start str).2 = str := by
  induction str generalizing inquotes prev start with
  | nil => rfl
  | cons c rest ih =>
      rw [findSep]
      dsimp only
      split
      · rfl
      · rw [List.cons_append, ih]

theorem findSep_tail_length (inquotes : Bool) (prev : UInt8) (start : Bool)
    {str : List UInt8} (hne : str ≠ []) :
    (findSep inquotes prev start str).2.tail.length < str.length := by
  have hlen := congrArg List.length (findSep_append inquotes prev start str)
  have hpos := List.length_pos_iff.mpr hne
  rw [List.length_append] at hlen
  rw [List.length_tail]
  omega

/-- How a line ends. -/
inductive RunResult (σ : Type*) where
  | overrun
  | returned (ret : ℤ) (st : RunState σ)

/-- The value that is returned at the end of the line. -/
def RunState.ret (st : RunState σ) : ℤ :=
  if st.rc ≠ 0 then st.rc else if st.repeatable then 1 else 0

/-- The loop of `run_command` on what is left of the line; `prev` is the character
in front of it. -/
def runLoop (prev : UInt8) (str : List UInt8) (st : RunState σ) :
    RunResult σ :=
  if _hne : str = [] then .returned st.ret st
  else
    match runPass cfg board (findSep false prev true str).1 st with
    | .overrun => .overrun
    | .stopped st => .returned 0 st
    | .next st => runLoop 0 (findSep false prev true str).2.tail st
termination_by str.length
decreasing_by exact findSep_tail_length _ _ _ _hne

/-- The line is longer than `cmdbuf`, empty or `NULL`. -/
def rejected (cmd : Option (List UInt8)) : Prop :=
  match cmd with
  | none => True
  | some line => line = [] ∨ cfg.cbsize ≤ line.length

instance (cmd : Option (List UInt8)) : Decidable (rejected cfg cmd) :=
  match cmd with
  | none => isTrue trivial
  | some _ => inferInstanceAs (Decidable (_ ∨ _))

/-- The variables of `run_command` at its start; `argv` is not initialised. -/
def initState (bootd : Bool) (argv : Argv) (world : σ) : RunState σ where
  world := board.clearCtrlc world
  bootd := bootd
  argv := argv
  rc := 0
  repeatable := true
  log := []

/-- `run_command`; `before` is the character in front of `cmdbuf`. -/
def runCommand (before : UInt8) (cmd : Option (List UInt8)) (bootd : Bool)
    (argv : Argv) (world : σ) : RunResult σ :=
  if rejected cfg cmd then .returned (-1) (initState board bootd argv world)
  else runLoop cfg board before (cmd.getD []) (initState board bootd argv world)

theorem runLoop_nil (prev : UInt8) (st : RunState σ) :
    runLoop cfg board prev [] st = .returned st.ret st := by
  rw [runLoop, dif_pos rfl]

variable {prev : UInt8} {str : List UInt8}

theorem runLoop_of_ne (hne : str ≠ []) (st : RunState σ) :
    runLoop cfg board prev str st =
      match runPass cfg board (findSep false prev true str).1 st with
      | .overrun => .overrun
      | .stopped st => .returned 0 st
      | .next st =>
          runLoop cfg board 0 (findSep false prev true str).2.tail st := by
  rw [runLoop, dif_neg hne]

/-- Each pass that a line comes to: the command and the state before it. -/
inductive Reached : UInt8 → List UInt8 → RunState σ → List UInt8 →
    RunState σ → Prop
  | first {prev : UInt8} {str : List UInt8} {st : RunState σ} (hne : str ≠ []) :
      Reached prev str st (findSep false prev true str).1 st
  | next {prev : UInt8} {str : List UInt8} {st st' st'' : RunState σ}
      {token : List UInt8} (hne : str ≠ [])
      (hpass : runPass cfg board (findSep false prev true str).1 st = .next st')
      (hreached : Reached 0 (findSep false prev true str).2.tail st' token st'') :
      Reached prev str st token st''

end Run

/-! ## What a pass changes -/

/-- `rc` becomes -1. -/
def Outcome.fails : Outcome → Bool
  | .ran _ _ _ ret _ => ret ≠ 0
  | _ => true

/-- The command may be repeated, if one has been called. -/
def Outcome.repeats : Outcome → Bool
  | .ran cmdtp _ _ _ _ => cmdtp.repeatable
  | _ => true

/-- A Ctrl-C has been typed. -/
def Outcome.stops : Outcome → Bool
  | .ran _ _ _ _ stopped => stopped
  | _ => false

section Step

variable {σ : Type*} {cfg : CliConfig} {board : Board σ}

/-- What a pass changes. -/
structure Step (st : RunState σ) (pass : Pass) (st' : RunState σ) : Prop where
  log : st'.log = st.log ++ [pass]
  rc : st'.rc = if pass.outcome.fails then -1 else st.rc
  repeatable : st'.repeatable = (st.repeatable && pass.outcome.repeats)

/-- How the pass of a token ends. -/
def PassResult.Steps (token : List UInt8) (st : RunState σ) :
    PassResult σ → Prop
  | .overrun => True
  | .stopped st' => ∃ pass, pass.token = token ∧ Step st pass st' ∧
      pass.outcome.stops = true
  | .next st' => ∃ pass, pass.token = token ∧ Step st pass st' ∧
      pass.outcome.stops = false

theorem skip_steps (st : RunState σ) (token text : List UInt8)
    {outcome : Outcome} (hfails : outcome.fails = true)
    (hrepeats : outcome.repeats = true) (hstops : outcome.stops = false) :
    (PassResult.next (st.skip ⟨token, text, outcome⟩)).Steps token st := by
  refine ⟨_, rfl, ⟨rfl, ?_, ?_⟩, hstops⟩
  · rw [if_pos hfails]
    rfl
  · rw [hrepeats, Bool.and_true]
    rfl

theorem callCmd_steps (token text : List UInt8) (cmdtp : CmdTbl) (argc : ℕ)
    (st : RunState σ) : (callCmd board token text cmdtp argc st).Steps token st := by
  unfold callCmd
  dsimp only
  split
  · rename_i hstop
    exact ⟨_, rfl, ⟨rfl, by simp [Outcome.fails], rfl⟩, hstop⟩
  · rename_i hstop
    exact ⟨_, rfl, ⟨rfl, by simp [Outcome.fails], rfl⟩, by
      simpa [Outcome.stops] using hstop⟩

theorem dispatch_steps (token text : List UInt8) (argc : ℕ) (st : RunState σ) :
    (dispatch board token text argc st).Steps token st := by
  unfold dispatch
  split
  · exact skip_steps st token text rfl rfl rfl
  · split
    · exact skip_steps st token text rfl rfl rfl
    · split
      · exact skip_steps st token text rfl rfl rfl
      · split
        · exact skip_steps st token text rfl rfl rfl
        · exact callCmd_steps ..

theorem runPass_steps (token : List UInt8) (st : RunState σ) :
    (runPass cfg board token st).Steps token st := by
  unfold runPass
  dsimp only
  split
  · trivial
  · generalize parseLine cfg.maxargs _ st.argv = parsed
    have hsteps := @dispatch_steps σ board token
      (macroLoop cfg.cbsize (board.getenv st.world) token .dollar 0 []) parsed.1
      { st with argv := parsed.2 }
    cases hresult : dispatch board token _ parsed.1
      { st with argv := parsed.2 } with
    | overrun => trivial
    | stopped st' =>
        rw [hresult] at hsteps
        obtain ⟨pass, htoken, hstep, hstops⟩ := hsteps
        exact ⟨pass, htoken, ⟨hstep.log, hstep.rc, hstep.repeatable⟩, hstops⟩
    | next st' =>
        rw [hresult] at hsteps
        obtain ⟨pass, htoken, hstep, hstops⟩ := hsteps
        exact ⟨pass, htoken, ⟨hstep.log, hstep.rc, hstep.repeatable⟩, hstops⟩

/-- What has become of earlier commands stays in the log. -/
theorem runLoop_log {prev : UInt8} {str : List UInt8} {st st' : RunState σ}
    {ret : ℤ} (h : runLoop cfg board prev str st = .returned ret st') :
    st.log <+: st'.log := by
  induction hn : str.length using Nat.strongRecOn
    generalizing prev str st with
  | ind n ih =>
      by_cases hne : str = []
      · rw [hne, runLoop_nil] at h
        obtain ⟨-, rfl⟩ := RunResult.returned.inj h
        exact List.prefix_rfl
      · have hsteps := @runPass_steps σ cfg board
          (findSep false prev true str).1 st
        have hlen := findSep_tail_length false prev true hne
        rw [runLoop_of_ne cfg board hne] at h
        cases hresult : runPass cfg board (findSep false prev true str).1 st with
        | overrun =>
            rw [hresult] at h
            cases h
        | stopped st₁ =>
            rw [hresult] at h hsteps
            obtain ⟨pass, -, hstep, -⟩ := hsteps
            obtain ⟨-, rfl⟩ := RunResult.returned.inj h
            rw [hstep.log]
            exact List.prefix_append _ _
        | next st₁ =>
            rw [hresult] at h hsteps
            obtain ⟨pass, -, hstep, -⟩ := hsteps
            refine List.IsPrefix.trans ?_ (ih _ (hn ▸ hlen) h rfl)
            rw [hstep.log]
            exact List.prefix_append _ _

end Step

/-- A board on which every command prints its arguments. -/
def echoBoard : Board Unit where
  getenv := fun _ _ => none
  findCmd := fun name => some ⟨name, 16, true, false⟩
  cmd := fun _ _ _ _ world => (0, world)
  clearCtrlc := id
  hadCtrlc := fun _ => false

end TateFirmware.Cli
