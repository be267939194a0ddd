import TateFirmware.Cli.FindCmd
import TateFirmware.Env.Complete
import TateFirmware.Support.CommonPrefix

/-!
# Completing a line

`cmd_auto_complete` of `common/command.c` completes what is typed: the name of a
command, or the name of a variable behind a command that takes one.  It computes the
candidates, and puts what a single candidate, or all of them, have behind the last
argument at the end of the line.

A string that is read behind its end, and an argument in front of the first one,
lead to `overrun`.
-/

namespace TateFirmware.Cli

open LibGeneric Support

/-- The command table, with the commands whose `complete` is `var_complete`, the
environment, and the buffer of `var_complete`. -/
structure Completer where
  tbl : List CmdTbl
  complete : CmdTbl → Bool
  cfg : Env.EnvConfig
  env : Memory UInt8
  tmpBuf : Memory UInt8
  cmdv : Memory Env.CmdvEntry

/-- `sizeof(cmdv)/sizeof(cmdv[0])`. -/
def cmdvSize : ℕ := 20

/-- `sizeof(tmp_buf)` of `var_complete`. -/
def tmpBufSize : ℕ := 512

/-- `last_char == '\0' || last_char == ' ' || last_char == '\t'`. -/
def spaceBehind (lastChar : UInt8) : Bool := lastChar = 0 || isBlank lastChar

/-! ## The candidates -/

/-- The string that an entry of `cmdv` points to. -/
def entryText (buf : Memory UInt8) : Env.CmdvEntry → List UInt8
  | .null => []
  | .dots => text "..."
  | .string p => cstr (buf.read p (tmpBufSize - p))

/-- The strings listed by `env_complete`; `none` when it leaves the environment. -/
def Completer.envNames (c : Completer) (var : List UInt8) :
    Option (List (List UInt8)) :=
  match Env.envComplete c.cfg c.env ⟨cstr var, zero_notMem_cstr var⟩ cmdvSize
    ⟨c.cmdv, 0⟩ tmpBufSize ⟨c.tmpBuf, 0⟩ with
  | none => none
  | some (found, buf, cmdv) =>
      some ((List.range found).map fun j => entryText buf.cell (cmdv.cell j))

/-- `var_complete`. -/
def Completer.varComplete (c : Completer) (argv : List (List UInt8))
    (lastChar : UInt8) : Option (List (List UInt8)) :=
  if spaceBehind lastChar ∧ argv.length = 1 then c.envNames []
  else if ¬ spaceBehind lastChar ∧ argv.length = 2 then c.envNames (argv.getD 1 [])
  else some []

/-- The loops of `complete_cmdv` over the names of commands, of which `nFound` have
been listed. -/
def listNames : List (List UInt8) → ℕ → List (List UInt8)
  | [], _ => []
  | name :: names, nFound =>
      if nFound ≥ cmdvSize - 2 then [text "..."]
      else name :: listNames names (nFound + 1)

/-- `complete_cmdv`: the candidates. -/
def Completer.completeCmdv (c : Completer) (argv : List (List UInt8))
    (lastChar : UInt8) : Option (List (List UInt8)) :=
  match argv with
  | [] => some (listNames (c.tbl.map CmdTbl.name) 0)
  | cmd :: args =>
      if args ≠ [] ∨ spaceBehind lastChar then
        match findCmd c.tbl cmd with
        | none => some []
        | some cmdtp => if c.complete cmdtp then c.varComplete argv lastChar else some []
      else
        let len := wordLength cmd
        some (listNames ((c.tbl.map CmdTbl.name).filter fun name =>
          len ≤ name.length ∧ cmd.take len = name.take len) 0)

/-- `make_argv`, for `k` more arguments. -/
def makeArgv : ℕ → List UInt8 → List (List UInt8)
  | 0, _ => []
  | k + 1, s =>
      let s := s.dropWhile isBlank
      if s = [] then []
      else
        let arg := s.takeWhile (!isBlank ·)
        let s := s.dropWhile (!isBlank ·)
        if s = [] then [arg] else arg :: makeArgv k s.tail

/-- `find_common_prefix`. -/
def findCommonPrefix : List (List UInt8) → ℕ
  | [] => 0
  | anchor :: argv => sharedLength anchor argv anchor.length

/-! ## The line -/

/-- What `cmd_auto_complete` does: it returns, with the line, its length and the
column, or it reads outside its data. -/
inductive AutoComplete where
  | returned (ret : ℤ) (line : List UInt8) (n col : ℕ)
  | overrun
deriving DecidableEq

/-- Put text and separator behind the line, if it fits. -/
def insertText (cbsize : ℕ) (line : List UInt8) (n col : ℕ) (s sep : List UInt8) :
    AutoComplete :=
  let k := s.length + sep.length
  if n + k ≥ cbsize - 2 then .returned 1 line n col
  else .returned 1 (line ++ s ++ sep) (n + k) (col + k)

/-- `cmd_auto_complete`; `n` and `col` are `*np` and `*colp`.  The candidates are
`none` when they cannot be computed. -/
def Completer.cmdAutoComplete (c : Completer) (cfg : CliConfig)
    (cfgPrompt prompt line : List UInt8) (n col : ℕ) : AutoComplete :=
  if prompt ≠ cfgPrompt then .returned 0 line n col
  else
    let argv := makeArgv cfg.maxargs line
    match c.completeCmdv argv (line.getLastD 0) with
    | none => .overrun
    | some [] => if argv.length > 1 then .returned 0 line n col else .returned 1 line n col
    | some [cmdv0] =>
        match argv.getLast? with
        | none => .overrun
        | some arg =>
            if cmdv0.length < arg.length then .overrun
            else insertText cfg.cbsize line n col (cmdv0.drop arg.length) [ch ' ']
    | some (cmdv0 :: cmdv) =>
        let j := findCommonPrefix (cmdv0 :: cmdv)
        if j ≠ 0 then
          match argv.getLast? with
          | none => .overrun
          | some arg =>
              if j > arg.length then
                insertText cfg.cbsize line n col
                  ((cmdv0.drop arg.length).take (j - arg.length)) []
              else .returned 1 line n col
        else .returned 1 line n col

end TateFirmware.Cli
