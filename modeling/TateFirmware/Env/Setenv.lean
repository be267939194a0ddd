import TateFirmware.LibGeneric.CString
import TateFirmware.Support.StringList

/-!
# Setting environment variables

`_do_setenv` and `getenv` of `common/cmd_nvedit.c` on the copy of the
environment in RAM, and `fw_setenv` and `fw_getenv` of `tools/env/fw_env.c` on
what the tool has read.  The environment is memory from `env_data` on.  A loop
that leaves the environment is reported, not followed.  What `_do_setenv` does
beside the environment (console, baud rate) is given by `SetenvHooks`, and what
it does after the environment has been changed is left out.
-/

namespace TateFirmware.Env

open LibGeneric Support

/-- A C string. -/
abbrev CStr := { s : List UInt8 // (0 : UInt8) ∉ s }

/-- The size of the environment with its header. -/
structure EnvConfig where
  /-- `CFG_ENV_SIZE`. -/
  cfgEnvSize : ℕ
  /-- `CFG_REDUNDAND_ENVIRONMENT`; `HaveRedundEnv`. -/
  redundant : Bool

/-- `ENV_SIZE` of U-Boot. -/
def EnvConfig.envSize (cfg : EnvConfig) : ℕ :=
  cfg.cfgEnvSize - if cfg.redundant then 5 else 4

/-- `getenvsize` of the tool. -/
def EnvConfig.getenvsize (cfg : EnvConfig) : ℕ :=
  let rc := cfg.cfgEnvSize - 4
  if cfg.redundant then rc - 1 else rc

/-! ## Looking up -/

/-- `envmatch`: the index of the value, when the names match.  Two strings that
end without an `=` are no match; the code goes on behind them. -/
def envmatch (env : Memory UInt8) : List UInt8 → ℕ → Option ℕ
  | [], i2 => if env i2 = ch '=' then some (i2 + 1) else none
  | c :: s1, i2 =>
      if c = env i2 then
        if c = ch '=' then some (i2 + 1) else envmatch env s1 (i2 + 1)
      else none

/-- The loop of `getenv` and `fw_getenv` over `n` more strings; it gives up on
a string that goes beyond `bound`. -/
def getenvLoop (env : Memory UInt8) (bound : ℕ) (name : List UInt8) :
    ℕ → ℕ → Option ℕ
  | 0, _ => none
  | n + 1, i =>
      if env i = 0 then none
      else
        match env.stringEnd 0 (bound - i) i with
        | none => none
        | some nxt =>
            match envmatch env name i with
            | some val => some val
            | none => getenvLoop env bound name n (nxt + 1)

/-- `getenv`: the index of the value. -/
def getenv (cfg : EnvConfig) (env : Memory UInt8) (name : CStr) : Option ℕ :=
  getenvLoop env cfg.cfgEnvSize name.1 (cfg.cfgEnvSize + 2) 0

/-- `fw_getenv`. -/
def fwGetenv (cfg : EnvConfig) (env : Memory UInt8) (name : CStr) :
    Option ℕ :=
  getenvLoop env cfg.getenvsize name.1 (cfg.getenvsize + 2) 0

/-! ## Parts of both programs -/

/-- The search for a variable, among `n` strings at most: where it starts and
ends; `none` when a string is not terminated. -/
def searchLoop (env : Memory UInt8) (bound : ℕ) (name : List UInt8) :
    ℕ → ℕ → Option (Option (ℕ × ℕ))
  | 0, _ => none
  | n + 1, i =>
      if env i = 0 then some none
      else
        match env.stringEnd 0 (bound - i) i with
        | none => none
        | some nxt =>
            if (envmatch env name i).isSome then some (some (i, nxt))
            else searchLoop env bound name n (nxt + 1)

/-- `"name" + "=" + "val" + "\0\0"`. -/
def definitionLength (name : List UInt8) (words : List (List UInt8)) : ℕ :=
  name.length + 2 + (words.map fun word => word.length + 1).sum

/-- The loop that copies the words of the value, each behind a separator. -/
def writeWords : UInt8 → Memory UInt8 → ℕ → List (List UInt8) →
    Memory UInt8 × ℕ
  | _, env, i, [] => (env, i)
  | sep, env, i, word :: words =>
      writeWords (ch ' ')
        ((env.copyIn i [sep]).copyIn (i + 1) (word ++ [0]))
        (i + 1 + word.length) words

/-- The definition at `i`. -/
def writeDefinition (env : Memory UInt8) (i : ℕ) (name : List UInt8)
    (words : List (List UInt8)) : Memory UInt8 :=
  let env := env.copyIn i (name ++ [0])
  let (env, i) := writeWords (ch '=') env (i + name.length) words
  env.copyIn (i + 1) [0]

inductive SetenvResult where
  /-- A loop leaves the environment. -/
  | outOfBounds
  /-- The result of the function and the environment. -/
  | returned (rcode : ℤ) (env : Memory UInt8)

/-- From the append of the new definition on, with `size` bytes of
environment; `finish` follows the append. -/
def appendDefinition (size : ℕ) (env : Memory UInt8) (name : List UInt8)
    (words : List (List UInt8)) (overflow : ℤ)
    (finish : Memory UInt8 → SetenvResult) : SetenvResult :=
  match env.listEnd 0 size 0 with
  | none => .outOfBounds
  | some i =>
      let i := if 0 < i then i + 1 else i
      if size < i + definitionLength name words then .returned overflow env
      else finish (writeDefinition env i name words)

/-! ## U-Boot -/

/-- What `_do_setenv` takes from its board. -/
structure SetenvHooks where
  /-- `CONFIG_ENV_OVERWRITE`. -/
  envOverwrite : Bool
  /-- `console_assign` of a console to a device. -/
  consoleAssign : List UInt8 → List UInt8 → Bool
  /-- The baud rate is in the table. -/
  baudrateSupported : Option (List UInt8) → Bool

/-- Hooks that refuse nothing. -/
def freeHooks : SetenvHooks := ⟨true, fun _ _ => true, fun _ => true⟩

/-- `_do_setenv` refuses to change a variable that exists. -/
def refuses (hooks : SetenvHooks) (name : List UInt8)
    (words : List (List UInt8)) : Bool :=
  if ¬ hooks.envOverwrite ∧
      (name = text "serial#" ∨ name = text "ethaddr") then true
  else if name = text "stdin" ∨ name = text "stdout" ∨
      name = text "stderr" then
    match words with
    | [] => true
    | word :: _ => !hooks.consoleAssign name word
  else if name = text "baudrate" then !hooks.baudrateSupported words.head?
  else false

/-- The deletion of `_do_setenv` of the string from `i` up to `nxt`. -/
def deleteString (size : ℕ) (env : Memory UInt8) (i nxt : ℕ) :
    Option (Memory UInt8) :=
  let nxt := nxt + 1
  if env nxt = 0 then
    let (env, i) :=
      if 0 < i then (env, i - 1) else (env.copyIn i [0], i)
    some (env.copyIn (i + 1) [0])
  else
    match env.shiftDown 0 size i nxt with
    | none => none
    | some (env, i) => some (env.copyIn (i + 1) [0])

/-- `_do_setenv` from the decision to delete only on. -/
def setDefinition (cfg : EnvConfig) (env : Memory UInt8) (name : CStr)
    (words : List CStr) : SetenvResult :=
  if words = [] then .returned 0 env
  else
    appendDefinition cfg.envSize env name.1 (words.map Subtype.val) 1
      fun env => .returned 0 env

/-- `_do_setenv`; `words` are the arguments behind the name. -/
def doSetenv (cfg : EnvConfig) (hooks : SetenvHooks) (env : Memory UInt8)
    (name : CStr) (words : List CStr) : SetenvResult :=
  match searchLoop env cfg.envSize name.1 (cfg.envSize + 2) 0 with
  | none => .outOfBounds
  | some none => setDefinition cfg env name words
  | some (some (i, nxt)) =>
      if refuses hooks name.1 (words.map Subtype.val) then .returned 1 env
      else
        match deleteString cfg.envSize env i nxt with
        | none => .outOfBounds
        | some env => setDefinition cfg env name words

/-! ## The tool -/

/-- `EINVAL`. -/
def einval : ℤ := 22

/-- `EROFS`. -/
def erofs : ℤ := 30

/-- The deletion of `fw_setenv` of the string from `i` up to `nxt`. -/
def fwDeleteString (size : ℕ) (env : Memory UInt8) (i nxt : ℕ) :
    Option (Memory UInt8) :=
  let nxt := nxt + 1
  if env nxt = 0 then some ((env.copyIn i [0]).copyIn (i + 1) [0])
  else
    match env.shiftDown 0 size i nxt with
    | none => none
    | some (env, i) => some (env.copyIn (i + 1) [0])

/-- `fw_setenv` from `WRITE_FLASH` on; `flashIo` is whether the environment
can be written. -/
def writeFlash (flashIo : Bool) (env : Memory UInt8) : SetenvResult :=
  if flashIo then .returned 0 env else .returned (-1) env

/-- `fw_setenv` from the decision to delete only on. -/
def fwSetDefinition (cfg : EnvConfig) (flashIo : Bool) (env : Memory UInt8)
    (name : CStr) (words : List CStr) : SetenvResult :=
  if words = [] then writeFlash flashIo env
  else
    appendDefinition cfg.getenvsize env name.1 (words.map Subtype.val) (-1)
      (writeFlash flashIo)

/-- `fw_setenv`, after `env_init`; `words` are the arguments behind the
name. -/
def fwSetenv (cfg : EnvConfig) (flashIo : Bool) (env : Memory UInt8)
    (name : CStr) (words : List CStr) : SetenvResult :=
  match searchLoop env cfg.getenvsize name.1 (cfg.getenvsize + 2) 0 with
  | none => .returned einval env
  | some none => fwSetDefinition cfg flashIo env name words
  | some (some (i, nxt)) =>
      if name.1 = text "ethaddr" ∨ name.1 = text "serial#" then
        .returned erofs env
      else
        match fwDeleteString cfg.getenvsize env i nxt with
        | none => .outOfBounds
        | some env => fwSetDefinition cfg flashIo env name words

end TateFirmware.Env
