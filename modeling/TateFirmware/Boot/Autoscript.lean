import TateFirmware.Boot.MultiImage
import TateFirmware.Support.Fields

/-!
# Scripts in images

`autoscript` of `common/cmd_autoscript.c` without the hush parser.  `run_command` is a
parameter that takes the world to the next one, and so is `malloc`.
-/

namespace TateFirmware.Boot

open LibGeneric Support

variable {σ : Type*}

/-! ## The splitter -/

/-- Lines that `run_command` has been called with; `failed` tells that it has returned
a negative number, and nothing is run behind that. -/
structure LinesRun (σ : Type*) where
  ran : List (List UInt8)
  failed : Bool
  world : σ

/-- Nothing has been run. -/
def LinesRun.none (world : σ) : LinesRun σ := ⟨[], false, world⟩

/-- Run a line, and what is behind it. -/
def LinesRun.cons (runCommand : List UInt8 → σ → ℤ × σ) (line : List UInt8) (world : σ)
    (rest : σ → LinesRun σ) : LinesRun σ :=
  let (ret, world) := runCommand line world
  if ret < 0 then ⟨[line], true, world⟩
  else
    let run := rest world
    ⟨line :: run.ran, run.failed, run.world⟩

section
variable (runCommand : List UInt8 → σ → ℤ × σ)

/-- The loop over `cmd`: `line` is what lies between `line` and `next`, and the rest of
the text is behind it, up to the byte that `autoscript` puts there. -/
def runScript (line : List UInt8) : List UInt8 → σ → LinesRun σ
  | [], world => .none world
  | c :: next, world =>
      if c = 0 then .none world
      else if c = ch '\n' then
        if 1 < line.length then .cons runCommand line world (runScript [] next)
        else runScript [] next world
      else runScript (line ++ [c]) next world

/-! ## The command -/

/-- `IH_TYPE_SCRIPT`. -/
def ihTypeScript : UInt8 := 6

/-- What `autoscript` returns and leaves, and where it has read behind the header: at
which byte of the data, and how much. -/
structure ScriptResult (σ : Type*) where
  rcode : ℕ
  ran : List (List UInt8)
  world : σ
  reads : List (ℕ × ℕ)

/-- The result of a run of lines. -/
def ScriptResult.ofRun (reads : List (ℕ × ℕ)) (run : LinesRun σ) : ScriptResult σ :=
  ⟨if run.failed then 1 else 0, run.ran, run.world, reads⟩

theorem ScriptResult.ofRun_ran (reads : List (ℕ × ℕ)) (run : LinesRun σ) :
    (ScriptResult.ofRun reads run).ran = run.ran := rfl

theorem ScriptResult.ofRun_rcode (reads : List (ℕ × ℕ)) (run : LinesRun σ) :
    (ScriptResult.ofRun reads run).rcode = 1 ↔ run.failed = true := by
  simp [ofRun]

/-- `while (*len_ptr++);` with `n` more words to look at: the index of the word behind
the zero. -/
def skipTable (mem : Memory UInt8) (table : ℕ) : ℕ → ℕ → Option ℕ
  | 0, _ => .none
  | n + 1, i =>
      if lenPtr mem table i = 0 then some (i + 1) else skipTable mem table n (i + 1)

/-- `len + 1`, the size of the copy. -/
def copySize (mem : Memory UInt8) (data : ℕ) : ℕ := (lenPtr mem data 0 + 1) % 2 ^ 32

/-- The loop over memory, which holds `2^30` words. -/
def skipAllTable (mem : Memory UInt8) (table : ℕ) : Option ℕ :=
  skipTable mem table (2 ^ 30) 0

/-- The text behind the table. -/
def scriptText (mem : Memory UInt8) (data i : ℕ) : List UInt8 :=
  mem.wrap.read (data + 4 * i) (lenPtr mem data 0)

/-- The part of `autoscript` behind its checks, which have read `reads`; nothing where
the loop over the table does not end. -/
def autoscriptData (malloc : ℕ → Bool) (mem : Memory UInt8) (data : ℕ)
    (reads : List (ℕ × ℕ)) (world : σ) : Option (ScriptResult σ) :=
  let len := lenPtr mem data 0
  if len = 0 then some ⟨1, [], world, reads ++ [(0, 4)]⟩
  else if malloc (copySize mem data) = false then some ⟨1, [], world, reads ++ [(0, 4)]⟩
  else
    match skipAllTable mem data with
    | .none => .none
    | some i =>
        some (.ofRun
          (reads ++ [(0, 4)] ++ (List.range i).map (fun k => (4 * k, 4)) ++ [(4 * i, len)])
          (runScript runCommand [] (scriptText mem data i) world))

/-- `autoscript`. -/
def autoscript (env : BootEnv) (malloc : ℕ → Bool) (mem : Memory UInt8) (addr : ℕ)
    (world : σ) : Option (ScriptResult σ) :=
  let hdr := headerAt mem addr
  if ihMagic hdr ≠ ihMagicValue then some ⟨1, [], world, []⟩
  else if headerCrc hdr ≠ ihHcrc hdr then some ⟨1, [], world, []⟩
  else
    let reads := if env.verifies then [(0, ihSize hdr)] else []
    if env.verifies ∧ dataCrc mem addr ≠ ihDcrc hdr then some ⟨1, [], world, reads⟩
    else if ihType hdr ≠ ihTypeScript then some ⟨1, [], world, reads⟩
    else
      autoscriptData runCommand malloc mem ((addr + imageHeaderSize) % 2 ^ 32) reads world

end

/-! ## What it should run -/

/-- The lines of a text that are not empty. -/
def scriptLines (text : List UInt8) : List (List UInt8) := fields (· = ch '\n') text

/-- The zero word behind the sizes. -/
structure TableEnd (mem : Memory UInt8) (table i : ℕ) : Prop where
  zero : lenPtr mem table i = 0
  before : ∀ k < i, lenPtr mem table k ≠ 0

/-- The magic number and the checksums are right, and the image is a script. -/
structure ScriptImage (mem : Memory UInt8) (addr : ℕ) : Prop where
  magic : ihMagic (headerAt mem addr) = ihMagicValue
  header : headerCrc (headerAt mem addr) = ihHcrc (headerAt mem addr)
  data : dataCrc mem addr = ihDcrc (headerAt mem addr)
  type : ihType (headerAt mem addr) = ihTypeScript

/-- The text ends with a newline, if it does not end at once. -/
def EndsLine (text : List UInt8) : Prop := ∀ c ∈ text.getLast?, c = ch '\n'

section
variable (runCommand : List UInt8 → σ → ℤ × σ)

/-- Lines run in order up to the first one that fails. -/
def runLines : List (List UInt8) → σ → LinesRun σ
  | [], world => .none world
  | line :: lines, world => .cons runCommand line world (runLines lines)

variable {runCommand} in
theorem LinesRun.cons_of_neg {line : List UInt8} {world : σ}
    (h : (runCommand line world).1 < 0) (rest : σ → LinesRun σ) :
    LinesRun.cons runCommand line world rest =
      ⟨[line], true, (runCommand line world).2⟩ := if_pos h

variable {runCommand} in
theorem LinesRun.cons_of_nonneg {line : List UInt8} {world : σ}
    (h : 0 ≤ (runCommand line world).1) (rest : σ → LinesRun σ) :
    LinesRun.cons runCommand line world rest =
      ⟨line :: (rest (runCommand line world).2).ran,
        (rest (runCommand line world).2).failed,
        (rest (runCommand line world).2).world⟩ := if_neg (not_lt.mpr h)

theorem LinesRun.ran_cons (line : List UInt8) (world : σ) (rest : σ → LinesRun σ) :
    ∃ lines, (LinesRun.cons runCommand line world rest).ran = line :: lines := by
  rcases lt_or_ge (runCommand line world).1 0 with hfail | hok
  · exact ⟨_, congrArg LinesRun.ran (LinesRun.cons_of_neg hfail rest)⟩
  · exact ⟨_, congrArg LinesRun.ran (LinesRun.cons_of_nonneg hok rest)⟩

/-- The lines of the script behind the table have been run up to the first one that
fails, inside `size` bytes of data, and 1 is returned exactly if a line has failed. -/
def RunsText (mem : Memory UInt8) (data size : ℕ) (world : σ)
    (result : ScriptResult σ) : Prop :=
  ∃ i, TableEnd mem data i ∧
    let run := runLines runCommand (scriptLines (scriptText mem data (i + 1))) world
    result.ran = run.ran ∧ (result.rcode = 1 ↔ run.failed = true) ∧
      ∀ part ∈ result.reads, part.1 + part.2 ≤ size

/-- `autoscript` returns and runs the script so. -/
def RunsScript (env : BootEnv) (malloc : ℕ → Bool) (mem : Memory UInt8) (addr : ℕ)
    (world : σ) : Prop :=
  ∃ result, autoscript runCommand env malloc mem addr world = some result ∧
    RunsText runCommand mem ((addr + imageHeaderSize) % 2 ^ 32)
      (ihSize (headerAt mem addr)) world result

/-- The lines up to the first one that fails have two characters or more and no NUL, and
if they are all the lines, the last one has a newline. -/
def LinesRunnable (text : List UInt8) (world : σ) : Prop :=
  (∀ line ∈ (runLines runCommand (scriptLines text) world).ran,
    1 < line.length ∧ 0 ∉ line) ∧
  ((runLines runCommand (scriptLines text) world).ran = scriptLines text →
    EndsLine text)

/-- There is a text and room for its copy, its table and the text lie in the `size`
bytes of the data, and its lines can be run. -/
def TextFits (malloc : ℕ → Bool) (mem : Memory UInt8) (data size : ℕ) (world : σ) :
    Prop :=
  lenPtr mem data 0 ≠ 0 ∧ malloc (copySize mem data) = true ∧
    ∃ i, TableEnd mem data i ∧ 4 * (i + 1) + lenPtr mem data 0 ≤ size ∧
      LinesRunnable runCommand (scriptText mem data (i + 1)) world

/-! ## The lines -/

variable {runCommand} {text line : List UInt8} {world : σ}

theorem endsLine_cons (text : List UInt8) :
    EndsLine (ch '\n' :: text) ↔ EndsLine text := by
  unfold EndsLine
  cases text with
  | nil => simp
  | cons c text => rw [List.getLast?_cons_cons]

theorem endsLine_append (line text : List UInt8) :
    EndsLine (line ++ ch '\n' :: text) ↔ EndsLine text := by
  rw [← endsLine_cons text]
  unfold EndsLine
  rw [List.getLast?_append_cons]

theorem linesRunnable_newline :
    LinesRunnable runCommand (ch '\n' :: text) world ↔
      LinesRunnable runCommand text world := by
  unfold LinesRunnable scriptLines
  rw [fields_separator _ (by simp), endsLine_cons]

/-- A line and what is behind it. -/
theorem linesRunnable_line (hne : line ≠ []) (hline : ∀ c ∈ line, c ≠ ch '\n') :
    LinesRunnable runCommand (line ++ ch '\n' :: text) world ↔
      (1 < line.length ∧ 0 ∉ line) ∧ (0 ≤ (runCommand line world).1 →
        LinesRunnable runCommand text (runCommand line world).2) := by
  have hlines : scriptLines (line ++ ch '\n' :: text) = line :: scriptLines text :=
    fields_cons _ hne (fun c hc => by simpa using hline c hc) (by simp) text
  unfold LinesRunnable
  rw [hlines, runLines, endsLine_append]
  rcases lt_or_ge (runCommand line world).1 0 with hfail | hok
  · simp only [LinesRun.cons_of_neg hfail, List.mem_singleton, forall_eq,
      List.cons.injEq, true_and]
    refine ⟨fun h => ⟨h.1, fun hok => absurd hfail (not_lt.mpr hok)⟩, fun h => ⟨h.1, ?_⟩⟩
    -- no line is left: the rest is newlines
    intro hnone c hc
    simpa using (fields_eq_nil_iff _ text).mp hnone.symm c (List.mem_of_getLast? hc)
  · simp only [LinesRun.cons_of_nonneg hok, List.forall_mem_cons, List.cons.injEq,
      true_and, hok, forall_const]
    rw [and_assoc]

/-- A line that is run first has to meet the conditions. -/
theorem not_linesRunnable {lines : List (List UInt8)}
    (hlines : scriptLines text = line :: lines) (h : line.length ≤ 1 ∨ 0 ∈ line) :
    ¬ LinesRunnable runCommand text world := by
  intro hrunnable
  have hran : line ∈ (runLines runCommand (scriptLines text) world).ran := by
    rw [hlines, runLines]
    obtain ⟨rest, hrest⟩ := LinesRun.ran_cons runCommand line world
      (runLines runCommand lines)
    rw [hrest]
    exact List.mem_cons_self
  obtain ⟨hlength, hnul⟩ := hrunnable.1 line hran
  rcases h with h | h
  · omega
  · exact hnul h

/-- Nor is a last line without a newline runnable. -/
theorem not_linesRunnable_last (hne : line ≠ []) (hline : ∀ c ∈ line, c ≠ ch '\n') :
    ¬ LinesRunnable runCommand line world := by
  have hlines : scriptLines line = [line] :=
    fields_field _ hne fun c hc => by simpa using hline c hc
  intro hrunnable
  have hran : (runLines runCommand (scriptLines line) world).ran = scriptLines line := by
    rw [hlines, runLines]
    rcases lt_or_ge (runCommand line world).1 0 with hfail | hok
    · rw [LinesRun.cons_of_neg hfail]
    · rw [LinesRun.cons_of_nonneg hok]
      rfl
  have hlast := hrunnable.2 hran _ (List.getLast?_eq_getLast_of_ne_nil hne)
  exact hline _ (List.getLast_mem hne) hlast

/-- The line in front of a NUL goes on behind it. -/
theorem scriptLines_nul (hline : ∀ c ∈ line, c ≠ ch '\n') (next : List UInt8) :
    ∃ first lines, scriptLines (line ++ 0 :: next) = first :: lines ∧ 0 ∈ first := by
  have hkept : ∀ c ∈ line, (!decide (c = ch '\n')) = true := fun c hc => by
    simpa using hline c hc
  have htake : (line ++ 0 :: next).takeWhile (fun c => !decide (c = ch '\n')) =
      line ++ 0 :: next.takeWhile fun c => !decide (c = ch '\n') := by
    rw [List.takeWhile_append_of_pos hkept, List.takeWhile_cons_of_pos (by decide)]
  obtain ⟨c, rest, hcons⟩ := List.exists_cons_of_ne_nil
    (show line ++ 0 :: next ≠ [] from by simp)
  have hc : decide (c = ch '\n') = false := by
    cases line with
    | nil =>
        obtain ⟨rfl, -⟩ := List.cons.inj hcons
        rfl
    | cons d line =>
        obtain ⟨rfl, -⟩ := List.cons.inj hcons
        simpa using hline d List.mem_cons_self
  have hlines := fields_of_head (fun c => decide (c = ch '\n')) hc rest
  rw [← hcons, htake] at hlines
  exact ⟨_, _, hlines, by simp⟩

/-- The splitter runs no line of fewer than two characters. -/
theorem runScript_ran (line next : List UInt8) (world : σ) :
    ∀ l ∈ (runScript runCommand line next world).ran, 1 < l.length := by
  induction next generalizing line world with
  | nil => exact nofun
  | cons c next ih =>
      unfold runScript
      by_cases hnul : c = 0
      · rw [if_pos hnul]
        exact nofun
      rw [if_neg hnul]
      by_cases hnewline : c = ch '\n'
      · rw [if_pos hnewline]
        by_cases hlength : 1 < line.length
        · rw [if_pos hlength]
          rcases lt_or_ge (runCommand line world).1 0 with hfail | hok
          · simp only [LinesRun.cons_of_neg hfail, List.mem_singleton, forall_eq]
            exact hlength
          · simp only [LinesRun.cons_of_nonneg hok, List.forall_mem_cons]
            exact ⟨hlength, ih [] _⟩
        · rw [if_neg hlength]
          exact ih [] world
      · rw [if_neg hnewline]
        exact ih _ world

/-- The splitter runs the lines that are to be run exactly if they can be, and it then
does no different. -/
theorem runScript_runs (hline : ∀ c ∈ line, c ≠ ch '\n') (hnul : 0 ∉ line)
    (next : List UInt8) (world : σ) :
    (LinesRunnable runCommand (line ++ next) world →
      runScript runCommand line next world =
        runLines runCommand (scriptLines (line ++ next)) world) ∧
    ((runScript runCommand line next world).ran =
        (runLines runCommand (scriptLines (line ++ next)) world).ran →
      LinesRunnable runCommand (line ++ next) world) := by
  induction next generalizing line world with
  | nil =>
      rw [List.append_nil]
      by_cases hne : line = []
      · subst hne
        exact ⟨fun _ => rfl, fun _ => ⟨nofun, fun _ => nofun⟩⟩
      · refine ⟨fun h => absurd h (not_linesRunnable_last hne hline), fun h => ?_⟩
        have hlines : scriptLines line = [line] :=
          fields_field _ hne fun c hc => by simpa using hline c hc
        obtain ⟨rest, hrest⟩ := LinesRun.ran_cons runCommand line world
          (runLines runCommand [])
        rw [hlines, runLines, hrest] at h
        cases h
  | cons c next ih =>
      rw [runScript]
      by_cases hend : c = 0
      · subst hend
        obtain ⟨first, lines, hlines, hfirst⟩ := scriptLines_nul hline next
        rw [if_pos rfl]
        refine ⟨fun h => absurd h (not_linesRunnable hlines (.inr hfirst)), fun h => ?_⟩
        obtain ⟨rest, hrest⟩ := LinesRun.ran_cons runCommand first world
          (runLines runCommand lines)
        rw [hlines, runLines, hrest] at h
        cases h
      rw [if_neg hend]
      by_cases hnewline : c = ch '\n'
      · subst hnewline
        rw [if_pos rfl]
        by_cases hne : line = []
        · subst hne
          have hlines : scriptLines (ch '\n' :: next) = scriptLines next :=
            fields_separator _ (by simp) next
          rw [if_neg (by simp), List.nil_append, linesRunnable_newline, hlines]
          exact ih (List.forall_mem_nil _) List.not_mem_nil world
        have hlines : scriptLines (line ++ ch '\n' :: next) = line :: scriptLines next :=
          fields_cons _ hne (fun c hc => by simpa using hline c hc) (by simp) next
        by_cases hlength : 1 < line.length
        · rw [if_pos hlength, linesRunnable_line hne hline, hlines, runLines]
          obtain ⟨hruns, hrunnable⟩ :=
            ih (List.forall_mem_nil _) List.not_mem_nil (runCommand line world).2
          rw [List.nil_append] at hruns hrunnable
          rcases lt_or_ge (runCommand line world).1 0 with hfail | hok
          · rw [LinesRun.cons_of_neg hfail, LinesRun.cons_of_neg hfail]
            exact ⟨fun _ => rfl, fun _ => ⟨⟨hlength, hnul⟩,
              fun hok => absurd hfail (not_lt.mpr hok)⟩⟩
          · rw [LinesRun.cons_of_nonneg hok, LinesRun.cons_of_nonneg hok]
            refine ⟨fun h => by rw [hruns (h.2 hok)], fun h => ⟨⟨hlength, hnul⟩, fun _ => ?_⟩⟩
            exact hrunnable (List.cons.inj h).2
        · rw [if_neg hlength]
          refine ⟨fun h => absurd h (not_linesRunnable hlines (.inl (not_lt.mp hlength))),
            fun h => absurd ?_ hlength⟩
          have hran : line ∈ (runScript runCommand [] next world).ran := by
            obtain ⟨rest, hrest⟩ := LinesRun.ran_cons runCommand line world
              (runLines runCommand (scriptLines next))
            rw [h, hlines, runLines, hrest]
            exact List.mem_cons_self
          exact runScript_ran [] next world line hran
      · rw [if_neg hnewline, List.append_cons]
        refine ih (fun d hd => ?_) (fun hd => ?_) world
        · rcases List.mem_append.mp hd with hd | hd
          · exact hline d hd
          · exact List.mem_singleton.mp hd ▸ hnewline
        · rcases List.mem_append.mp hd with hd | hd
          · exact hnul hd
          · exact hend (List.mem_singleton.mp hd).symm

/-- The splitter on a whole text. -/
theorem runScript_text (text : List UInt8) (world : σ) :
    (LinesRunnable runCommand text world →
      runScript runCommand [] text world = runLines runCommand (scriptLines text) world) ∧
    ((runScript runCommand [] text world).ran =
        (runLines runCommand (scriptLines text) world).ran →
      LinesRunnable runCommand text world) :=
  runScript_runs (List.forall_mem_nil _) List.not_mem_nil text world

/-- A line that has failed has been run. -/
theorem runLines_failed {lines : List (List UInt8)}
    (h : (runLines runCommand lines world).failed = true) :
    (runLines runCommand lines world).ran ≠ [] := by
  cases lines with
  | nil => cases h
  | cons line lines =>
      obtain ⟨rest, hrest⟩ := LinesRun.ran_cons runCommand line world
        (runLines runCommand lines)
      rw [runLines, hrest]
      exact List.cons_ne_nil _ _

/-! ## The table -/

variable {env : BootEnv} {malloc : ℕ → Bool} {mem : Memory UInt8} {addr table : ℕ}

theorem TableEnd.unique {i j : ℕ} (hi : TableEnd mem table i) (hj : TableEnd mem table j) :
    i = j := by
  rcases lt_trichotomy i j with hlt | heq | hgt
  · exact absurd hi.zero (hj.before i hlt)
  · exact heq
  · exact absurd hj.zero (hi.before j hgt)

theorem skipTable_of_end {i k n : ℕ} (h : TableEnd mem table k) (hle : i ≤ k)
    (hlt : k < i + n) : skipTable mem table n i = some (k + 1) := by
  induction n generalizing i with
  | zero => omega
  | succ n ih =>
      rw [skipTable]
      rcases hle.lt_or_eq with hbefore | rfl
      · rw [if_neg (h.before i hbefore)]
        exact ih hbefore (by omega)
      · rw [if_pos h.zero]

theorem tableEnd_of_skipTable {i j n : ℕ} (hbefore : ∀ k < i, lenPtr mem table k ≠ 0)
    (h : skipTable mem table n i = some j) : ∃ k, j = k + 1 ∧ TableEnd mem table k := by
  induction n generalizing i with
  | zero => cases h
  | succ n ih =>
      rw [skipTable] at h
      by_cases hzero : lenPtr mem table i = 0
      · rw [if_pos hzero] at h
        exact ⟨i, (Option.some.inj h).symm, hzero, hbefore⟩
      · rw [if_neg hzero] at h
        refine ih (fun k hk => ?_) h
        rcases (Nat.lt_succ_iff.mp hk).lt_or_eq with hlt | rfl
        exacts [hbefore k hlt, hzero]

theorem skipAllTable_of_end {k : ℕ} (h : TableEnd mem table k) (hlt : k < 2 ^ 30) :
    skipAllTable mem table = some (k + 1) := by
  unfold skipAllTable
  exact skipTable_of_end h (Nat.zero_le k) (by rwa [Nat.zero_add])

theorem tableEnd_of_skipAllTable {j : ℕ} (h : skipAllTable mem table = some j) :
    ∃ k, j = k + 1 ∧ TableEnd mem table k := by
  unfold skipAllTable at h
  exact tableEnd_of_skipTable (fun k hk => absurd hk (Nat.not_lt_zero k)) h

theorem textFits_of_runsText {data size : ℕ} {reads : List (ℕ × ℕ)}
    {result : ScriptResult σ}
    (hauto : autoscriptData runCommand malloc mem data reads world = some result)
    (hruns : RunsText runCommand mem data size world result) :
    TextFits runCommand malloc mem data size world := by
  obtain ⟨k, hend, hran, hrcode, hreads⟩ := hruns
  unfold autoscriptData at hauto
  by_cases hlen : lenPtr mem data 0 = 0
  · -- no text: nothing is run, and nothing has failed
    rw [if_pos hlen] at hauto
    cases hauto
    have hfailed := hrcode.mp rfl
    have hnone : scriptText mem data (k + 1) = [] := by
      rw [scriptText, hlen]
      rfl
    rw [hnone] at hfailed
    exact absurd rfl (runLines_failed hfailed)
  rw [if_neg hlen] at hauto
  by_cases hroom : malloc (copySize mem data) = false
  · rw [if_pos hroom] at hauto
    cases hauto
    exact absurd hran.symm (runLines_failed (hrcode.mp rfl))
  rw [if_neg hroom] at hauto
  cases hskip : skipAllTable mem data with
  | none =>
      rw [hskip] at hauto
      cases hauto
  | some i =>
      obtain ⟨k', rfl, hend'⟩ := tableEnd_of_skipAllTable hskip
      obtain rfl := hend.unique hend'
      rw [hskip] at hauto
      cases hauto
      rw [ScriptResult.ofRun_ran] at hran
      exact ⟨hlen, eq_true_of_ne_false hroom, k, hend,
        hreads (4 * (k + 1), _) (List.mem_append_right _ List.mem_cons_self),
        (runScript_text _ world).2 hran⟩

theorem runsText_of_textFits {data size : ℕ} {reads : List (ℕ × ℕ)}
    (hreads : ∀ part ∈ reads, part.1 + part.2 ≤ size) (hlt : size < 2 ^ 32)
    (hfits : TextFits runCommand malloc mem data size world) :
    ∃ result, autoscriptData runCommand malloc mem data reads world = some result ∧
      RunsText runCommand mem data size world result := by
  obtain ⟨hlen, hroom, k, hend, hsize, hrunnable⟩ := hfits
  have hskip := skipAllTable_of_end hend (by omega)
  unfold autoscriptData
  rw [if_neg hlen, if_neg (by simp [hroom]), hskip]
  refine ⟨_, rfl, k, hend, ?_⟩
  rw [(runScript_text _ world).1 hrunnable]
  refine ⟨ScriptResult.ofRun_ran _ _, ScriptResult.ofRun_rcode _ _, fun part hpart => ?_⟩
  simp only [ScriptResult.ofRun, List.mem_append, List.mem_map, List.mem_range, List.mem_singleton] at hpart
  rcases hpart with ((hpart | rfl) | ⟨i, hi, rfl⟩) | rfl
  · exact hreads part hpart
  · show 0 + 4 ≤ _
    omega
  · show 4 * i + 4 ≤ _
    omega
  · exact hsize

/-- What `autoscript` does with an image that passes its checks. -/
theorem autoscript_eq (env : BootEnv) (h : ScriptImage mem addr) :
    autoscript runCommand env malloc mem addr world =
      autoscriptData runCommand malloc mem ((addr + imageHeaderSize) % 2 ^ 32)
        (if env.verifies then [(0, ihSize (headerAt mem addr))] else []) world := by
  unfold autoscript
  rw [if_neg (not_not.mpr h.magic), if_neg (not_not.mpr h.header),
    if_neg (fun hbad => hbad.2 h.data), if_neg (not_not.mpr h.type)]

theorem ntohlAt_lt (bytes : List UInt8) (i : ℕ) : ntohlAt bytes i < 2 ^ 32 := by
  have h0 := UInt8.toNat_lt (bytes.getD i 0)
  have h1 := UInt8.toNat_lt (bytes.getD (i + 1) 0)
  have h2 := UInt8.toNat_lt (bytes.getD (i + 2) 0)
  have h3 := UInt8.toNat_lt (bytes.getD (i + 3) 0)
  unfold ntohlAt
  omega

/-- An accepted script image is run as it should be if and only if its table and its
text lie in the data, there is a text and room for it, every line up to the first one
that fails has two characters or more and no NUL, and the last line has a newline or is
not reached. -/
theorem autoscript_runs_iff (env : BootEnv) (h : ScriptImage mem addr) :
    RunsScript runCommand env malloc mem addr world ↔
      TextFits runCommand malloc mem ((addr + imageHeaderSize) % 2 ^ 32)
        (ihSize (headerAt mem addr)) world := by
  unfold RunsScript
  rw [autoscript_eq env h]
  constructor
  · rintro ⟨result, hauto, hruns⟩
    exact textFits_of_runsText hauto hruns
  · refine runsText_of_textFits (fun part hpart => ?_) (ntohlAt_lt _ _)
    split_ifs at hpart
    · obtain rfl := List.mem_singleton.mp hpart
      exact (Nat.zero_add _).le
    · cases hpart

end

/-- A script image with these checksums. -/
def scriptImage (hcrc dcrc : ℕ) (script : List UInt8) : Memory UInt8 := fun k =>
  (htonlBytes ihMagicValue ++ htonlBytes hcrc ++ htonlBytes 0 ++
    htonlBytes (script.length + 8) ++ htonlBytes 0 ++ htonlBytes 0 ++ htonlBytes dcrc ++
    [5, 2, ihTypeScript, 0] ++ List.replicate 32 0 ++ htonlBytes script.length ++
    htonlBytes 0 ++ script).getD k 0

/-- Two lines, and an empty one between them. -/
def bootLines : List UInt8 := text "run bootcmd\n\nreset\n"

/-- The image of the lines. -/
def bootScript : Memory UInt8 := scriptImage 3912274818 1428132627 bootLines

theorem autoscript_runs_bootLines :
    RunsScript (fun _ (ran : ℕ) => (0, ran + 1)) ⟨none, none, 0⟩ (fun _ => true)
      bootScript 0 0 := by
  have himage : ScriptImage bootScript 0 :=
    ⟨by decide +kernel, by decide +kernel, by decide +kernel, by decide⟩
  have htext : scriptText bootScript ((0 + imageHeaderSize) % 2 ^ 32) (1 + 1) =
      bootLines := by decide
  have hlast : bootLines.getLast? = some (ch '\n') := by decide
  refine (autoscript_runs_iff _ himage).mpr
    ⟨by decide, rfl, 1, ⟨by decide, by decide⟩, by decide, ?_⟩
  rw [htext]
  exact ⟨by decide, fun _ c hc => (Option.some.inj (hlast.symm.trans hc)).symm⟩

/-- A line without a newline is not run. -/
theorem not_runsScript_noNewline :
    ¬ ∀ (runCommand : List UInt8 → ℕ → ℤ × ℕ) (env : BootEnv) (malloc : ℕ → Bool)
      (mem : Memory UInt8) (addr world : ℕ), ScriptImage mem addr →
      RunsScript runCommand env malloc mem addr world := by
  intro h
  have himage : ScriptImage (scriptImage 0xf54afa07 0x4190e6bb (text "boot")) 0 :=
    ⟨by decide +kernel, by decide +kernel, by decide +kernel, by decide +kernel⟩
  have hend : TableEnd (scriptImage 0xf54afa07 0x4190e6bb (text "boot"))
      ((0 + imageHeaderSize) % 2 ^ 32) 1 := ⟨by decide, by decide⟩
  have htext : scriptText (scriptImage 0xf54afa07 0x4190e6bb (text "boot"))
      ((0 + imageHeaderSize) % 2 ^ 32) (1 + 1) = text "boot" := by decide
  obtain ⟨result, hauto, hruns⟩ := h (fun _ ran => (0, ran + 1)) ⟨none, none, 0⟩
    (fun _ => true) _ 0 0 himage
  rw [autoscript_eq _ himage] at hauto
  obtain ⟨-, -, k, hend', -, hrunnable⟩ := textFits_of_runsText hauto hruns
  obtain rfl := hend.unique hend'
  rw [htext] at hrunnable
  exact not_linesRunnable_last (by decide) (by decide +kernel) hrunnable

end TateFirmware.Boot
