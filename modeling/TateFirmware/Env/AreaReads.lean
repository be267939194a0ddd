import TateFirmware.Env.Setenv

/-!
# Reading an environment that may be damaged

`getenv`, `getenv_r` and `printenv` on an area of `CFG_ENV_SIZE` arbitrary bytes.
The functions read it from the front to the back, so the part that is still to be
read is a list, and a function that would read behind the area is `none`.  A name
is memory of its own, as `envmatch` also reads behind the end of it.
-/

namespace TateFirmware.Env

open LibGeneric Support

/-! ## The loops -/

/-- The loop that looks for the end of a string: the index of the end and what is
behind it, or `some none` when the loop gives up at `limit`. -/
def findEnd (limit : Option ℕ) :
    List UInt8 → ℕ → Option (Option (ℕ × List UInt8))
  | [], _ => none
  | c :: rest, nxt =>
      if c = 0 then some (some (nxt, rest))
      else if limit.any (· ≤ nxt) then some none
      else findEnd limit rest (nxt + 1)

/-- `envmatch` from the `k`-th character of the name on: the index of the value and
what is there, when the names match. -/
def envmatchFrom (s1 : Memory UInt8) :
    List UInt8 → ℕ → ℕ → Option (Option (ℕ × List UInt8))
  | [], _, _ => none
  | c :: rest, k, i2 =>
      if s1 k = c then
        if s1 k = ch '=' then some (some (i2 + 1, rest))
        else envmatchFrom s1 rest (k + 1) (i2 + 1)
      else if s1 k = 0 ∧ c = ch '=' then some (some (i2 + 1, rest))
      else some none

theorem findEnd_length {limit : Option ℕ} {area rest : List UInt8}
    {i nxt : ℕ} (h : findEnd limit area i = some (some (nxt, rest))) :
    rest.length < area.length := by
  induction area generalizing i with
  | nil => cases h
  | cons c area ih =>
      rw [findEnd] at h
      split at h
      · injection h with h
        injection h with h
        injection h with _ hrest
        rw [← hrest]
        exact Nat.lt_succ_self _
      · split at h
        · cases h
        · exact (ih h).trans (Nat.lt_succ_self _)

/-- A variable that has been found: the end of its string, the index of its value,
and what is there. -/
structure Found where
  nxt : ℕ
  val : ℕ
  value : List UInt8

/-- The loop over the strings that all the functions have in common. -/
def scan (limit : Option ℕ) (name : Memory UInt8) (area : List UInt8) (i : ℕ) :
    Option (Option Found) :=
  match area with
  | [] => none
  | c :: area' =>
      if c = 0 then some none
      else
        match _hend : findEnd limit (c :: area') i with
        | none => none
        | some none => some none
        | some (some (nxt, rest)) =>
            match envmatchFrom name (c :: area') 0 i with
            | none => none
            | some (some (val, value)) => some (some ⟨nxt, val, value⟩)
            | some none => scan limit name rest (nxt + 1)
termination_by area.length
decreasing_by exact findEnd_length _hend

attribute [grind =] scan

/-! ## The functions -/

/-- `getenv`: the index of the value. -/
def getenvArea (area : List UInt8) (name : Memory UInt8) : Option (Option ℕ) :=
  (scan (some area.length) name area 0).map fun found =>
    found.map Found.val

/-- The loop of `getenv_r` that copies a value: the bytes copied. -/
def copyBytes : ℕ → List UInt8 → Option (List UInt8)
  | 0, _ => some []
  | _ + 1, [] => none
  | len + 1, c :: value =>
      if c = 0 then some [0] else (copyBytes len value).map (c :: ·)

/-- `getenv_r`: the bytes copied to the buffer. -/
def getenvRArea (area : List UInt8) (name : Memory UInt8) (len : ℕ) :
    Option (Option (List UInt8)) :=
  match scan (some area.length) name area 0 with
  | none => none
  | some none => some none
  | some (some found) => (copyBytes len found.value).map some

/-- The bytes from `k` up to `nxt`, read one by one. -/
def readUpTo (area : List UInt8) (k nxt : ℕ) : Option (List UInt8) :=
  (List.range' k (nxt - k)).mapM fun j => area[j]?

/-- `printenv` of one variable: the value printed. -/
def printOne (area : List UInt8) (name : Memory UInt8) :
    Option (Option (List UInt8)) :=
  match scan none name area 0 with
  | none => none
  | some none => some none
  | some (some found) => (readUpTo area found.val found.nxt).map some

/-- `printenv` of all variables: the strings printed; `ctrlc` tells after which of
them a Ctrl-C has been typed. -/
def printAll (area : List UInt8) (ctrlc : ℕ → Bool) (count i : ℕ)
    (left : List UInt8) : Option (List (List UInt8)) :=
  match left with
  | [] => none
  | c :: left' =>
      if c = 0 then some []
      else
        match _hend : findEnd none (c :: left') i with
        | none => none
        | some none => some []
        | some (some (nxt, rest)) =>
            match readUpTo area i nxt with
            | none => none
            | some string =>
                if ctrlc count then some [string]
                else
                  (printAll area ctrlc (count + 1) (nxt + 1) rest).map
                    (string :: ·)
termination_by left.length
decreasing_by exact findEnd_length _hend

/-- `do_printenv` with the names of its arguments: what is printed. -/
def doPrintenv (area : List UInt8) (names : List (Memory UInt8))
    (ctrlc : ℕ → Bool) : Option (List (Option (List UInt8))) :=
  if names = [] then (printAll area ctrlc 0 0 area).map (List.map some)
  else names.mapM (printOne area)

end TateFirmware.Env
