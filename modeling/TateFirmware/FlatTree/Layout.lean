import TateFirmware.FlatTree.Builder

/-!
# How a tree is laid out while it is built

The structure is the row of the tags of the calls, and the table of names holds every
name once, the latest one first.  While the tree is built, a name is known by how far
before the end of the buffer it stands; names that are added later do not change this.
-/

namespace TateFirmware.FlatTree

open LibGeneric Support

/-! ## Padding -/

/-- A value, and the zeros that `ft_put_bin` puts behind it. -/
def padded (data : List UInt8) : List UInt8 :=
  data ++ List.replicate ((4 - data.length % 4) % 4) 0

theorem padded_length (data : List UInt8) :
    (padded data).length = data.length + (4 - data.length % 4) % 4 := by
  rw [padded, List.length_append, List.length_replicate]

theorem padded_length_mod (data : List UInt8) : (padded data).length % 4 = 0 := by
  rw [padded_length]
  omega

theorem align_padded {p : ℕ} (hp : p % 4 = 0) {data : List UInt8}
    (hshort : p + data.length + 3 < 2 ^ 32) :
    align (p + data.length) 4 = p + (padded data).length := by
  rw [padded_length, align, Nat.mod_eq_of_lt (by omega)]
  omega

/-! ## The table of names -/

/-- The names, each of them with its zero. -/
def tableBytes (T : List (List UInt8)) : List UInt8 := T.flatMap (· ++ [0])

@[simp] theorem tableBytes_nil : tableBytes [] = [] := rfl

theorem tableBytes_cons (s : List UInt8) (T : List (List UInt8)) :
    tableBytes (s :: T) = (s ++ [0]) ++ tableBytes T := rfl

def tableSize (T : List (List UInt8)) : ℕ := (tableBytes T).length

@[simp] theorem tableSize_nil : tableSize [] = 0 := rfl

@[simp] theorem tableSize_cons (s : List UInt8) (T : List (List UInt8)) :
    tableSize (s :: T) = s.length + 1 + tableSize T := by
  rw [tableSize, tableBytes_cons, List.length_append, List.length_append]
  rfl

/-- How far before the end of the table a name stands. -/
def back : List (List UInt8) → List UInt8 → ℕ
  | [], _ => 0
  | s :: T, name => if s = name then tableSize (s :: T) else back T name

theorem back_le (T : List (List UInt8)) (name : List UInt8) :
    back T name ≤ tableSize T := by
  induction T with
  | nil => exact Nat.le_refl 0
  | cons s T ih =>
      rw [back]
      split
      · exact Nat.le_refl _
      · rw [tableSize_cons]
        omega

/-- A name that is added does not move the others. -/
theorem back_cons_of_mem {s name : List UInt8} {T : List (List UInt8)} (hs : s ∉ T)
    (hname : name ∈ T) : back (s :: T) name = back T name := by
  rw [back, if_neg]
  rintro rfl
  exact hs hname

/-- The names of the properties are put into the table when they are new. -/
def addName (T : List (List UInt8)) : FtCall → List (List UInt8)
  | .prop name _ => if name ∈ T then T else name :: T
  | _ => T

/-- The table after the calls. -/
def table (calls : List FtCall) : List (List UInt8) := calls.foldl addName []

theorem table_append (calls : List FtCall) (c : FtCall) :
    table (calls ++ [c]) = addName (table calls) c := by
  rw [table, List.foldl_append]
  rfl

/-! ## The structure -/

/-- What a call puts into the structure, the offset of its name being known. -/
def tokenBytes (offset : List UInt8 → ℕ) : FtCall → List UInt8
  | .beginNode name => beBytes ofDtBeginNode ++ padded (name ++ [0])
  | .prop name data =>
      beBytes ofDtProp ++ beBytes data.length ++ beBytes (offset name) ++ padded data
  | .endNode => beBytes ofDtEndNode
  | .nop => beBytes ofDtNop

def structBytes (offset : List UInt8 → ℕ) (calls : List FtCall) : List UInt8 :=
  calls.flatMap (tokenBytes offset)

@[simp] theorem structBytes_nil (offset : List UInt8 → ℕ) :
    structBytes offset [] = [] := rfl

theorem structBytes_cons (offset : List UInt8 → ℕ) (c : FtCall) (calls : List FtCall) :
    structBytes offset (c :: calls) = tokenBytes offset c ++ structBytes offset calls := rfl

theorem structBytes_append (offset : List UInt8 → ℕ) (calls calls' : List FtCall) :
    structBytes offset (calls ++ calls') =
      structBytes offset calls ++ structBytes offset calls' := List.flatMap_append

theorem structBytes_congr {f g : List UInt8 → ℕ} {calls : List FtCall}
    (h : ∀ name data, FtCall.prop name data ∈ calls → f name = g name) :
    structBytes f calls = structBytes g calls := by
  apply List.flatMap_congr
  intro c hc
  cases c with
  | beginNode name | endNode | nop => rfl
  | prop name data => rw [tokenBytes, tokenBytes, h name data hc]

/-- How long the token of a call is. -/
def tokenSize (c : FtCall) : ℕ := (tokenBytes (fun _ => 0) c).length

theorem tokenBytes_length (offset : List UInt8 → ℕ) (c : FtCall) :
    (tokenBytes offset c).length = tokenSize c := by
  cases c with
  | beginNode name | endNode | nop => rfl
  | prop name data => simp only [tokenSize, tokenBytes, List.length_append, beBytes_length]

theorem tokenSize_mod (c : FtCall) : tokenSize c % 4 = 0 := by
  cases c with
  | beginNode name =>
      have hname := padded_length_mod (name ++ [0])
      simp only [tokenSize, tokenBytes, List.length_append, beBytes_length]
      omega
  | endNode | nop => rfl
  | prop name data =>
      have hdata := padded_length_mod data
      simp only [tokenSize, tokenBytes, List.length_append, beBytes_length]
      omega

/-- How long the structure of the calls is. -/
def callsSize (calls : List FtCall) : ℕ := (structBytes (fun _ => 0) calls).length

@[simp] theorem callsSize_nil : callsSize [] = 0 := rfl

theorem callsSize_append (calls : List FtCall) (c : FtCall) :
    callsSize (calls ++ [c]) = callsSize calls + tokenSize c := by
  rw [callsSize, structBytes_append, List.length_append, structBytes_cons, structBytes_nil,
    List.append_nil]
  rfl

theorem structBytes_length (offset : List UInt8 → ℕ) (calls : List FtCall) :
    (structBytes offset calls).length = callsSize calls := by
  induction calls with
  | nil => rfl
  | cons c calls ih =>
      rw [callsSize, structBytes_cons, structBytes_cons, List.length_append,
        List.length_append, tokenBytes_length, ih]
      rfl

theorem callsSize_mod (calls : List FtCall) : callsSize calls % 4 = 0 := by
  induction calls using List.reverseRecOn with
  | nil => rfl
  | append_singleton calls c ih =>
      have hc := tokenSize_mod c
      rw [callsSize_append]
      omega

/-! ## Putting bytes -/

/-- The bytes are put behind the structure, or do not fit in front of the names. -/
def Appends (cxt : FtCxt) (bytes : List UInt8) (cxt' : FtCxt) : Prop :=
  (cxt.pstr < cxt.p + bytes.length ∧ cxt'.overflow = true ∧
    ∀ k, k < cxt.p ∨ cxt.pstr ≤ k → cxt'.mem k = cxt.mem k) ∨
  (cxt.p + bytes.length ≤ cxt.pstr ∧
    cxt' = { cxt with mem := cxt.mem.copyIn cxt.p bytes, p := cxt.p + bytes.length })

theorem appends_ftPutWord {cxt : FtCxt} (h : cxt.overflow = false)
    (hshort : cxt.p + 4 < 2 ^ 32) (v : ℕ) :
    Appends cxt (beBytes v) (ftPutWord cxt v) := by
  rw [ftPutWord, h, if_neg Bool.false_ne_true, Nat.mod_eq_of_lt hshort]
  split
  · rename_i hfull
    exact Or.inl ⟨hfull, rfl, fun _ _ => rfl⟩
  · rename_i hroom
    exact Or.inr ⟨not_lt.mp hroom, by simp only [putBe32, beBytes_length, h]⟩

theorem appends_ftPutBin {cxt : FtCxt} (h : cxt.overflow = false) (hp : cxt.p % 4 = 0)
    {data : List UInt8} (hshort : cxt.p + data.length + 3 < 2 ^ 32) :
    Appends cxt (padded data) (ftPutBin cxt data) := by
  have hmem : (if data.length % 4 ≠ 0 then
      (cxt.mem.copyIn cxt.p data).fill (cxt.p + data.length) (4 - data.length % 4) 0
        else cxt.mem.copyIn cxt.p data) = cxt.mem.copyIn cxt.p (padded data) := by
    rw [padded, ← Memory.copyIn_append, ← Memory.fill_eq_copyIn]
    split
    · rename_i hne
      rw [Nat.mod_eq_of_lt (show 4 - data.length % 4 < 4 by omega)]
    · rename_i hzero
      rw [not_not.mp hzero, Memory.fill_eq_copyIn]
      exact (Memory.copyIn_nil _ _).symm
  rw [ftPutBin, h, if_neg Bool.false_ne_true]
  dsimp only
  rw [hmem, align_padded hp hshort]
  split
  · rename_i hfull
    exact Or.inl ⟨hfull, rfl, fun _ _ => rfl⟩
  · rename_i hroom
    exact Or.inr ⟨not_lt.mp hroom, by rw [h]⟩

theorem ftPutWord_of_overflow {cxt : FtCxt} (h : cxt.overflow = true) (v : ℕ) :
    ftPutWord cxt v = cxt := by rw [ftPutWord, if_pos h]

theorem ftPutBin_of_overflow {cxt : FtCxt} (h : cxt.overflow = true) (data : List UInt8) :
    ftPutBin cxt data = cxt := by rw [ftPutBin, if_pos h]

/-- One put behind another. -/
theorem Appends.trans {cxt cxt' cxt'' : FtCxt} {xs ys : List UInt8}
    (hxs : Appends cxt xs cxt')
    (hover : cxt'.overflow = true → cxt'' = cxt')
    (hys : cxt'.overflow = cxt.overflow → cxt'.p = cxt.p + xs.length →
      Appends cxt' ys cxt'') :
    Appends cxt (xs ++ ys) cxt'' := by
  rcases hxs with ⟨hfull, hset, hframe⟩ | ⟨hroom, rfl⟩
  · refine Or.inl ⟨?_, ?_, ?_⟩
    · rw [List.length_append]
      omega
    · rw [hover hset, hset]
    · rw [hover hset]
      exact hframe
  · rcases hys rfl rfl with ⟨hfull, hset, hframe⟩ | ⟨hroom', rfl⟩
    · dsimp only at hfull hframe
      refine Or.inl ⟨?_, hset, ?_⟩
      · rw [List.length_append]
        omega
      · intro k hk
        rw [hframe k (by omega)]
        rcases hk with hlt | hge
        · exact Memory.copyIn_of_lt _ hlt
        · exact Memory.copyIn_of_ge (by omega)
    · dsimp only at hroom'
      refine Or.inr ⟨?_, ?_⟩
      · rw [List.length_append]
        omega
      · dsimp only
        rw [Memory.copyIn_append, List.length_append, Nat.add_assoc]

/-! ## One call -/

/-- How far a call may reach beyond the structure and its own words. -/
def reach : FtCall → ℕ
  | .beginNode name => name.length + 1
  | .prop name data => name.length + 1 + data.length
  | .endNode | .nop => 0

/-- No sum of addresses that a call makes in front of `top` wraps round. -/
def Short (top : ℕ) (c : FtCall) : Prop := top + 16 + reach c ≤ 2 ^ 32

theorem appends_ftBeginNode {cxt : FtCxt} (h : cxt.overflow = false)
    (hp : cxt.p % 4 = 0) (offset : List UInt8 → ℕ) {name : List UInt8}
    (hshort : Short cxt.p (.beginNode name)) :
    Appends cxt (tokenBytes offset (.beginNode name)) (ftBeginNode cxt name) := by
  rw [Short, reach] at hshort
  refine (appends_ftPutWord h (by omega) ofDtBeginNode).trans
    (fun hset => ftPutBin_of_overflow hset _) fun hset hnext => ?_
  rw [beBytes_length] at hnext
  refine appends_ftPutBin (hset.trans h) (by omega) ?_
  rw [List.length_append, List.length_singleton]
  omega

theorem appends_putProp {cxt : FtCxt} (h : cxt.overflow = false) (hp : cxt.p % 4 = 0)
    (offset : List UInt8 → ℕ) {name data : List UInt8}
    (hshort : Short cxt.p (.prop name data)) :
    Appends cxt (tokenBytes offset (.prop name data))
      (putProp cxt (offset name) data) := by
  rw [Short, reach] at hshort
  have hwords : Appends cxt
      (beBytes ofDtProp ++ beBytes data.length ++ beBytes (offset name))
      (ftPutWord (ftPutWord (ftPutWord cxt ofDtProp) data.length) (offset name)) := by
    refine Appends.trans (Appends.trans (appends_ftPutWord h (by omega) ofDtProp)
      (fun hset => ftPutWord_of_overflow hset _) fun hset hnext => ?_)
      (fun hset => ftPutWord_of_overflow hset _) fun hset hnext => ?_
    · rw [beBytes_length] at hnext
      exact appends_ftPutWord (hset.trans h) (by omega) data.length
    · simp only [List.length_append, beBytes_length] at hnext
      exact appends_ftPutWord (hset.trans h) (by omega) (offset name)
  refine hwords.trans (fun hset => ftPutBin_of_overflow hset _) fun hset hnext => ?_
  simp only [List.length_append, beBytes_length] at hnext
  exact appends_ftPutBin (hset.trans h) (by omega) (by omega)

end TateFirmware.FlatTree
