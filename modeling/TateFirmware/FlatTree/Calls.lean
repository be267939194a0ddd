import TateFirmware.FlatTree.Layout

/-!
# What calls and merged trees leave

`Tracks` says that a context is what some calls have made of the context at the start:
the tags and the names stand where the layout puts them and everything around the free
part of the buffer is as it was, or the calls did not fit.  Going back over the end of a
node takes the last call away again, and a merged tree is a row of calls.
-/

namespace TateFirmware.FlatTree

open LibGeneric Support

/-! ## Looking a name up -/

theorem lookupRound_stable (cxt : FtCxt) (name : List UInt8) (p : ℕ) :
    Stable (lookupRound cxt name p) := by
  unfold lookupRound
  split
  · exact (Memory.strAt_stable cxt.mem p).map _
  · exact stable_const _

theorem lookupString_stable (cxt : FtCxt) (name : List UInt8) :
    Stable (lookupString cxt name) :=
  fuelLoop_stable (lookupRound_stable cxt name) cxt.pstr

/-- The loop of `lookup_string`, over the part of the table that begins at `p`. -/
theorem returns_lookupLoop {cxt : FtCxt} (name : List UInt8) {T : List (List UInt8)}
    {p : ℕ} (hT : ∀ s ∈ T, (0 : UInt8) ∉ s) (hholds : Memory.Holds cxt.mem p (tableBytes T))
    (hp : p + tableSize T = cxt.pstrBegin) :
    Returns (fun fuel => fuelLoop (lookupRound cxt name) fuel p)
      (if name ∈ T then some (cxt.pstrBegin - back T name - cxt.pBegin) else none) := by
  induction T generalizing p with
  | nil =>
      refine Returns.loop_end ⟨0, ?_⟩
      rw [lookupRound, if_neg (by rw [tableSize_nil] at hp; omega), if_neg List.not_mem_nil]
  | cons s T ih =>
      rw [tableSize_cons] at hp
      rw [tableBytes_cons, Memory.holds_append] at hholds
      obtain ⟨hs, hrest⟩ := hholds
      have hread : Returns (cxt.mem.strAt p) s :=
        Memory.returns_strAt (hT s List.mem_cons_self) hs
      have hround : ∀ {next : Option ℕ ⊕ ℕ},
          (if s = name then Sum.inl (some (p - cxt.pBegin))
            else Sum.inr (p + (s.length + 1))) = next →
          Returns (lookupRound cxt name p) next := by
        intro next hnext
        unfold lookupRound
        simp only [if_pos (show p < cxt.pstrBegin by omega)]
        exact returns_map.mpr ⟨s, hread, hnext⟩
      by_cases hname : s = name
      · have hback : back (s :: T) name = s.length + 1 + tableSize T := by
          rw [back, if_pos hname, tableSize_cons]
        refine Returns.loop_end (hround ?_)
        rw [if_pos hname, if_pos (by rw [hname]; exact List.mem_cons_self), hback]
        congr 3
        omega
      · refine Returns.loop_next (lookupRound_stable cxt name) (hround (if_neg hname)) ?_
        rw [List.length_append, List.length_singleton] at hrest
        have htail := ih (fun t ht => hT t (List.mem_cons_of_mem s ht)) hrest (by omega)
        have hmem : name ∈ s :: T ↔ name ∈ T := by
          rw [List.mem_cons]
          exact or_iff_right fun h => hname h.symm
        simp only [back, if_neg hname, hmem]
        exact htail

/-! ## Where a tree is built -/

/-- A context in which a tree has just been begun. -/
structure Begun (start : FtCxt) : Prop where
  overflow : start.overflow = false
  p : start.p = start.pBegin
  pstr : start.pstr = start.pstrBegin
  aligned : start.p % 4 = 0
  header : start.bph + headerSize + 16 ≤ start.p
  last : start.pstr = start.bph + start.maxSize
  terminated : Memory.Holds start.mem (start.p - 4) (List.replicate 4 0)

/-- The offset that `ft_prop` stores for a name, with the table `T` at the end. -/
def rawOffset (start : FtCxt) (T : List (List UInt8)) (name : List UInt8) : ℕ :=
  start.pstrBegin - back T name - start.pBegin

/-- The context is what the calls have made of the start, and `T` is the table. -/
structure Built (start : FtCxt) (T : List (List UInt8)) (calls : List FtCall)
    (cxt : FtCxt) : Prop where
  same : cxt = { start with mem := cxt.mem, p := cxt.p, pstr := cxt.pstr }
  p : cxt.p = start.p + callsSize calls
  pstr : cxt.pstr + tableSize T = start.pstr
  structure_holds :
    Memory.Holds cxt.mem start.p (structBytes (rawOffset start T) calls)
  table_holds : Memory.Holds cxt.mem cxt.pstr (tableBytes T)
  room : cxt.p ≤ cxt.pstr
  frame : ∀ k, k < start.p ∨ start.pstr ≤ k → cxt.mem k = start.mem k
  names : ∀ name data, FtCall.prop name data ∈ calls → name ∈ T
  strings : ∀ s ∈ T, (0 : UInt8) ∉ s

/-- Something has not fitted. -/
def Full (start cxt : FtCxt) : Prop :=
  cxt.overflow = true ∧ ∀ k, k < start.p ∨ start.pstr ≤ k → cxt.mem k = start.mem k

/-- The context is what the calls have made of the start, if they have fitted. -/
def Tracks (start : FtCxt) (calls : List FtCall) (cxt : FtCxt) : Prop :=
  Full start cxt ∨ Built start (table calls) calls cxt

theorem Built.overflow {start cxt : FtCxt} {T : List (List UInt8)} {calls : List FtCall}
    (h : Built start T calls cxt) (hstart : Begun start) : cxt.overflow = false := by
  rw [h.same]
  exact hstart.overflow

theorem Built.pBegin {start cxt : FtCxt} {T : List (List UInt8)} {calls : List FtCall}
    (h : Built start T calls cxt) : cxt.pBegin = start.pBegin := by
  rw [h.same]

theorem Built.pstrBegin {start cxt : FtCxt} {T : List (List UInt8)}
    {calls : List FtCall} (h : Built start T calls cxt) :
    cxt.pstrBegin = start.pstrBegin := by
  rw [h.same]

theorem Built.aligned {start cxt : FtCxt} {T : List (List UInt8)} {calls : List FtCall}
    (h : Built start T calls cxt) (hstart : Begun start) : cxt.p % 4 = 0 := by
  have hstartp := hstart.aligned
  have hsize := callsSize_mod calls
  rw [h.p]
  omega

theorem tracks_start {start : FtCxt} (hroom : start.p ≤ start.pstr) :
    Tracks start [] start := by
  right
  constructor
  · rfl
  · rfl
  · rfl
  · exact Memory.holds_nil _ _
  · exact Memory.holds_nil _ _
  · exact hroom
  · exact fun _ _ => rfl
  · exact fun _ _ h => absurd h List.not_mem_nil
  · exact fun _ h => absurd h List.not_mem_nil

/-! ## One call -/

/-- A token behind the structure. -/
theorem Built.append {start cxt cxt' : FtCxt} {T : List (List UInt8)}
    {calls : List FtCall} (h : Built start T calls cxt) {c : FtCall}
    (hput : Appends cxt (tokenBytes (rawOffset start T) c) cxt')
    (hc : ∀ name data, c = .prop name data → name ∈ T) :
    Full start cxt' ∨ Built start T (calls ++ [c]) cxt' := by
  have hp := h.p
  have hpstr := h.pstr
  rw [Appends, tokenBytes_length] at hput
  rcases hput with ⟨hfull, hset, hframe⟩ | ⟨hroom, rfl⟩
  · refine Or.inl ⟨hset, fun k hk => ?_⟩
    rw [hframe k (by have := h.room; omega)]
    exact h.frame k hk
  · right
    constructor
    · rw [h.same]
    · dsimp only
      rw [callsSize_append, hp, Nat.add_assoc]
    · exact hpstr
    · dsimp only
      rw [structBytes_append, structBytes_cons, structBytes_nil, List.append_nil, hp,
        ← structBytes_length (rawOffset start T) calls]
      exact h.structure_holds.append_copyIn _
    · refine h.table_holds.congr fun k hge _ => ?_
      exact Memory.copyIn_of_ge (by rw [tokenBytes_length]; omega)
    · exact hroom
    · intro k hk
      rw [← h.frame k hk]
      rcases hk with hlt | hge
      · exact Memory.copyIn_of_lt _ (by omega)
      · exact Memory.copyIn_of_ge (by rw [tokenBytes_length]; omega)
    · intro name data hmem
      rcases List.mem_append.mp hmem with hmem | hmem
      · exact h.names name data hmem
      · exact hc name data (List.mem_singleton.mp hmem).symm
    · exact h.strings

/-- A new name in front of the table. -/
theorem Built.addString {start cxt : FtCxt} {T : List (List UInt8)}
    {calls : List FtCall} (h : Built start T calls cxt) {name : List UInt8}
    (hnew : name ∉ T) (hname : (0 : UInt8) ∉ name)
    (hroom : cxt.p + (name.length + 1) ≤ cxt.pstr) :
    Built start (name :: T) calls
      { cxt with mem := cxt.mem.copyIn (cxt.pstr - (name.length + 1)) (name ++ [0]),
                 pstr := cxt.pstr - (name.length + 1) } := by
  have hp := h.p
  have hpstr := h.pstr
  have hlen : (name ++ [(0 : UInt8)]).length = name.length + 1 := List.length_append
  have hcopy : ∀ k, k < cxt.pstr - (name.length + 1) ∨ cxt.pstr ≤ k →
      cxt.mem.copyIn (cxt.pstr - (name.length + 1)) (name ++ [0]) k = cxt.mem k := by
    rintro k (hlt | hge)
    · exact Memory.copyIn_of_lt _ hlt
    · exact Memory.copyIn_of_ge (by omega)
  have hoffset : structBytes (rawOffset start (name :: T)) calls =
      structBytes (rawOffset start T) calls := by
    refine structBytes_congr fun n data hmem => ?_
    rw [rawOffset, rawOffset, back_cons_of_mem hnew (h.names n data hmem)]
  constructor
  · rw [h.same]
  · exact hp
  · dsimp only
    rw [tableSize_cons]
    omega
  · dsimp only
    rw [hoffset]
    refine h.structure_holds.congr fun k _ hlt => hcopy k ?_
    rw [structBytes_length] at hlt
    omega
  · dsimp only
    rw [tableBytes_cons]
    have hend : cxt.pstr - (name.length + 1) + (name ++ [(0 : UInt8)]).length = cxt.pstr := by
      omega
    refine (Memory.holds_copyIn _ _ _).append ?_
    rw [hend]
    exact h.table_holds.congr fun k hge _ => hcopy k (Or.inr hge)
  · dsimp only
    omega
  · intro k hk
    rw [← h.frame k hk]
    exact hcopy k (by omega)
  · exact fun n data hmem => List.mem_cons_of_mem name (h.names n data hmem)
  · rw [List.forall_mem_cons]
    exact ⟨hname, h.strings⟩

theorem table_append_of_mem {calls : List FtCall} {name : List UInt8}
    (h : name ∈ table calls) (data : List UInt8) :
    table (calls ++ [.prop name data]) = table calls := by
  rw [table_append, addName, if_pos h]

theorem table_append_of_notMem {calls : List FtCall} {name : List UInt8}
    (h : name ∉ table calls) (data : List UInt8) :
    table (calls ++ [.prop name data]) = name :: table calls := by
  rw [table_append, addName, if_neg h]

/-- A property, its name having been looked up. -/
theorem Built.ftPropAt {start cxt : FtCxt} {calls : List FtCall}
    (h : Built start (table calls) calls cxt) (hstart : Begun start)
    {name data : List UInt8} (hname : (0 : UInt8) ∉ name)
    (hshort : Short start.pstr (.prop name data)) :
    Tracks start (calls ++ [.prop name data]) (ftPropAt cxt name data
      (if name ∈ table calls then some (rawOffset start (table calls) name)
        else none)) := by
  have hp := h.p
  have hpstr := h.pstr
  have hroom := h.room
  rw [Short, reach] at hshort
  have hput : Short cxt.p (.prop name data) := by
    rw [Short, reach]
    omega
  unfold Tracks
  by_cases hmem : name ∈ table calls
  · rw [if_pos hmem, table_append_of_mem hmem, FlatTree.ftPropAt]
    refine h.append (appends_putProp (h.overflow hstart) (h.aligned hstart)
      (rawOffset start (table calls)) hput) ?_
    rintro _ _ ⟨⟩
    exact hmem
  · rw [if_neg hmem, table_append_of_notMem hmem, FlatTree.ftPropAt]
    dsimp only
    rw [Nat.mod_eq_of_lt (by omega)]
    split
    · exact Or.inl ⟨rfl, h.frame⟩
    · have hadd := h.addString hmem hname (by omega)
      have hoffset : cxt.pstr - (name.length + 1) - cxt.pBegin =
          rawOffset start (name :: table calls) name := by
        rw [rawOffset, back, if_pos rfl, tableSize_cons, h.pBegin, ← hstart.pstr, ← hpstr]
        omega
      rw [hoffset]
      refine hadd.append (appends_putProp (hadd.overflow hstart) (hadd.aligned hstart)
        (rawOffset start (name :: table calls)) hput) ?_
      rintro _ _ ⟨⟩
      exact List.mem_cons_self

/-- A property. -/
theorem Built.ftProp {start cxt : FtCxt} {calls : List FtCall}
    (h : Built start (table calls) calls cxt) (hstart : Begun start)
    {name data : List UInt8} (hname : (0 : UInt8) ∉ name)
    (hshort : Short start.pstr (.prop name data)) :
    ∃ cxt', Returns (ftProp cxt name data) cxt' ∧
      Tracks start (calls ++ [.prop name data]) cxt' := by
  have hlookup := returns_lookupLoop name h.strings h.table_holds (by
    rw [h.pstrBegin, ← hstart.pstr, h.pstr])
  rw [h.pstrBegin, h.pBegin] at hlookup
  have hprop : FlatTree.ftProp cxt name data = fun fuel =>
      (lookupString cxt name fuel).map (FlatTree.ftPropAt cxt name data) := by
    funext fuel
    rw [FlatTree.ftProp, h.overflow hstart, if_neg Bool.false_ne_true]
  rw [hprop]
  exact ⟨_, returns_map.mpr ⟨_, hlookup, rfl⟩, h.ftPropAt hstart hname hshort⟩

/-- The names of the call are C strings. -/
def FtCall.Strings : FtCall → Prop
  | .beginNode name => (0 : UInt8) ∉ name
  | .prop name _ => (0 : UInt8) ∉ name
  | .endNode | .nop => True

theorem ftCall_stable (cxt : FtCxt) (c : FtCall) : Stable (ftCall cxt c) := by
  cases c with
  | beginNode name => exact stable_const _
  | endNode | nop => exact stable_const _
  | prop name data =>
      show Stable (ftProp cxt name data)
      unfold ftProp
      split
      · exact stable_const _
      · exact (lookupString_stable cxt name).map _

theorem ftCall_of_overflow {cxt : FtCxt} (h : cxt.overflow = true) (c : FtCall) :
    ftCall cxt c = fun _ => some cxt := by
  funext fuel
  cases c with
  | beginNode name =>
      rw [ftCall, ftBeginNode, ftPutWord_of_overflow h, ftPutBin_of_overflow h]
  | endNode => rw [ftCall, ftEndNode, ftPutWord_of_overflow h]
  | nop => rw [ftCall, ftNop, ftPutWord_of_overflow h]
  | prop name data => rw [ftCall, ftProp, if_pos h]

/-- One call returns, and tracks. -/
theorem Tracks.call {start cxt : FtCxt} {calls : List FtCall}
    (h : Tracks start calls cxt) (hstart : Begun start) {c : FtCall} (hc : c.Strings)
    (hshort : Short start.pstr c) :
    ∃ cxt', Returns (ftCall cxt c) cxt' ∧ Tracks start (calls ++ [c]) cxt' := by
  rcases h with hfull | hbuilt
  · refine ⟨cxt, ?_, Or.inl hfull⟩
    rw [ftCall_of_overflow hfull.1, returns_some]
  · have hput : Short cxt.p c := by
      have hroom := hbuilt.room
      have hpstr := hbuilt.pstr
      rw [Short] at hshort ⊢
      omega
    have hword : cxt.p + 4 < 2 ^ 32 := by
      rw [Short] at hput
      omega
    cases c with
    | beginNode name =>
        refine ⟨_, returns_some.mpr rfl, ?_⟩
        rw [Tracks, table_append]
        refine hbuilt.append (appends_ftBeginNode (hbuilt.overflow hstart)
          (hbuilt.aligned hstart) _ hput) ?_
        rintro _ _ ⟨⟩
    | endNode =>
        refine ⟨_, returns_some.mpr rfl, ?_⟩
        rw [Tracks, table_append]
        refine hbuilt.append (appends_ftPutWord (hbuilt.overflow hstart) hword _) ?_
        rintro _ _ ⟨⟩
    | nop =>
        refine ⟨_, returns_some.mpr rfl, ?_⟩
        rw [Tracks, table_append]
        refine hbuilt.append (appends_ftPutWord (hbuilt.overflow hstart) hword _) ?_
        rintro _ _ ⟨⟩
    | prop name data => exact hbuilt.ftProp hstart hc hshort

/-! ## Going back over the end of a node -/

/-- The last call ends a node. -/
def endsNode (calls : List FtCall) : Bool := calls.getLast? = some .endNode

/-- The last word of the last value is not the tag of the end of a node. -/
def LastClear (calls : List FtCall) : Prop :=
  ∀ name data, calls.getLast? = some (.prop name data) →
    (padded data).drop ((padded data).length - 4) ≠ beBytes ofDtEndNode

theorem read_of_beWord {m : Memory UInt8} {p n : ℕ} (h : m.beWord p = n) :
    m.read p 4 = beBytes n := by
  have h0 := (m p).toNat_lt
  have h1 := (m (p + 1)).toNat_lt
  have h2 := (m (p + 2)).toNat_lt
  have h3 := (m (p + 3)).toNat_lt
  have hbyte : ∀ (a : UInt8) (k : ℕ), a.toNat = k % 2 ^ 8 → a = UInt8.ofNat k := by
    intro a k ha
    apply UInt8.toNat_inj.mp
    rw [ha, UInt8.toNat_ofNat']
  rw [Memory.beWord] at h
  show [m (p + 0), m (p + 1), m (p + 2), m (p + 3)] = beBytes n
  rw [beBytes, Nat.add_zero, hbyte (m p) (n / 2 ^ 24) (by omega),
    hbyte (m (p + 1)) (n / 2 ^ 16) (by omega), hbyte (m (p + 2)) (n / 2 ^ 8) (by omega),
    hbyte (m (p + 3)) n (by omega)]

/-- The padding of a name ends with a zero. -/
theorem last_padded_name {m : Memory UInt8} {p : ℕ} {name : List UInt8}
    (h : Memory.Holds m p (padded (name ++ [0]))) :
    m (p + (padded (name ++ [0])).length - 1) = 0 := by
  rw [padded, List.append_assoc] at h
  obtain ⟨n, hn⟩ : ∃ n, n = (4 - (name ++ [(0 : UInt8)]).length % 4) % 4 := ⟨_, rfl⟩
  rw [← hn, List.singleton_append, ← List.replicate_succ, Memory.holds_append] at h
  have hlast := h.2 n (by rw [List.length_replicate]; exact Nat.lt_succ_self n)
  rw [List.getElem_replicate] at hlast
  rw [padded_length, ← hn, List.length_append, List.length_singleton,
    show p + (name.length + 1 + n) - 1 = p + name.length + n by omega, hlast]

/-- The last word that a call puts is the tag of the end of a node where it is one. -/
theorem beWord_token {mem : Memory UInt8} {p : ℕ} {offset : List UInt8 → ℕ}
    {calls : List FtCall} {c : FtCall} (hclear : LastClear (calls ++ [c]))
    (hoffset : ∀ name data, c = .prop name data →
      12 ≤ offset name ∧ offset name < 2 ^ 32)
    (h : Memory.Holds mem p (tokenBytes offset c)) :
    mem.beWord (p + tokenSize c - 4) = ofDtEndNode ↔ c = .endNode := by
  cases c with
  | beginNode name =>
      rw [tokenBytes, Memory.holds_append, beBytes_length] at h
      have hlast := last_padded_name h.2
      have hlen := padded_length_mod (name ++ [0])
      have hpos : 0 < (padded (name ++ [0])).length := by
        rw [padded_length, List.length_append, List.length_singleton]
        omega
      rw [tokenSize, tokenBytes, List.length_append, beBytes_length]
      refine iff_of_false (fun hword => ?_) (by rintro ⟨⟩)
      rw [Memory.beWord, ofDtEndNode] at hword
      rw [show p + 4 + (padded (name ++ [0])).length - 1 =
        p + (4 + (padded (name ++ [0])).length) - 4 + 3 by omega] at hlast
      rw [hlast] at hword
      simp only [UInt8.toNat_zero] at hword
      omega
  | endNode =>
      refine iff_of_true ?_ rfl
      exact h.beWord
  | nop =>
      refine iff_of_false (fun hword => ?_) (by rintro ⟨⟩)
      have htag : mem.beWord p = ofDtNop := h.beWord
      rw [show p + tokenSize .nop - 4 = p from rfl, htag] at hword
      exact absurd hword (by decide)
  | prop name data =>
      refine iff_of_false (fun hword => ?_) (by rintro ⟨⟩)
      obtain ⟨hlow, hhigh⟩ := hoffset name data rfl
      rw [tokenBytes, Memory.holds_append, Memory.holds_append] at h
      obtain ⟨⟨-, hoff⟩, hdata⟩ := h
      have hsize : tokenSize (.prop name data) = 12 + (padded data).length := by
        simp only [tokenSize, tokenBytes, List.length_append, beBytes_length]
      rw [hsize] at hword
      simp only [List.length_append, beBytes_length] at hoff hdata
      by_cases hempty : (padded data).length = 0
      · rw [hempty] at hword
        have hread := hoff.beWord
        rw [show p + (12 + 0) - 4 = p + (4 + 4) by omega, hread, Nat.mod_eq_of_lt hhigh,
          ofDtEndNode] at hword
        omega
      · have hmod := padded_length_mod data
        rw [← List.take_append_drop ((padded data).length - 4) (padded data),
          Memory.holds_append, List.length_take] at hdata
        have hread := hdata.2.read_eq
        rw [List.length_drop, show (padded data).length - ((padded data).length - 4) = 4
          by omega, min_eq_left (Nat.sub_le ..)] at hread
        refine hclear name data List.getLast?_concat ?_
        rw [← hread, ← read_of_beWord hword]
        congr 1
        omega

/-- The word in front of `p` says whether the last call has ended a node. -/
theorem Built.atNodeEnd {start cxt : FtCxt} {calls : List FtCall}
    (h : Built start (table calls) calls cxt) (hstart : Begun start)
    (hspace : start.pstr + 16 ≤ 2 ^ 32) (hclear : LastClear calls) :
    atNodeEnd cxt = endsNode calls := by
  have hp := h.p
  have hpstr := h.pstr
  have hroom := h.room
  have hheader := hstart.header
  rw [FlatTree.atNodeEnd, endsNode, decide_eq_decide]
  induction calls using List.reverseRecOn with
  | nil =>
      refine iff_of_false (fun hword => ?_) (by rintro ⟨⟩)
      have hzeros : Memory.Holds cxt.mem (cxt.p - 4) (beBytes 0) := by
        rw [hp, callsSize_nil, Nat.add_zero]
        refine hstart.terminated.congr fun k _ hlt => h.frame k (.inl ?_)
        rw [List.length_replicate] at hlt
        omega
      rw [hzeros.beWord] at hword
      exact absurd hword (by decide)
  | append_singleton calls c _ =>
      have hlast : (calls ++ [c]).getLast? = some .endNode ↔ c = .endNode := by
        rw [List.getLast?_concat, Option.some.injEq]
      have hholds := h.structure_holds
      rw [structBytes_append, Memory.holds_append, structBytes_length, structBytes_cons,
        structBytes_nil, List.append_nil] at hholds
      rw [hlast, hp, callsSize_append, ← Nat.add_assoc]
      refine beWord_token hclear (fun name data hc => ?_) hholds.2
      have hback := back_le (table (calls ++ [c])) name
      have hsize : 12 ≤ tokenSize c := by
        rw [hc]
        simp only [tokenSize, tokenBytes, List.length_append, beBytes_length]
        omega
      rw [callsSize_append] at hp
      rw [rawOffset, ← hstart.p, ← hstart.pstr]
      omega

/-- The calls without the end of the last node. -/
def openNode (calls : List FtCall) : List FtCall :=
  if endsNode calls then calls.dropLast else calls

theorem Built.pop {start cxt : FtCxt} {calls : List FtCall}
    (h : Built start (table (calls ++ [.endNode])) (calls ++ [.endNode]) cxt) :
    Built start (table calls) calls { cxt with p := cxt.p - 4 } := by
  have hp := h.p
  have hholds := h.structure_holds
  have hroom := h.room
  have htable : table (calls ++ [.endNode]) = table calls := table_append calls .endNode
  rw [structBytes_append, Memory.holds_append] at hholds
  rw [callsSize_append] at hp
  have hsize : tokenSize .endNode = 4 := rfl
  rw [htable] at h hholds
  constructor
  · rw [h.same]
  · show cxt.p - 4 = start.p + callsSize calls
    omega
  · exact h.pstr
  · exact hholds.1
  · exact h.table_holds
  · show cxt.p - 4 ≤ cxt.pstr
    omega
  · exact h.frame
  · exact fun name data hmem => h.names name data (List.mem_append_left _ hmem)
  · exact h.strings

theorem Tracks.back {start cxt : FtCxt} {calls : List FtCall}
    (h : Tracks start calls cxt) (hends : endsNode calls = true) :
    Tracks start calls.dropLast { cxt with p := cxt.p - 4 } := by
  rcases h with hfull | hbuilt
  · exact .inl hfull
  · obtain ⟨calls, rfl⟩ : ∃ calls', calls = calls' ++ [.endNode] := by
      rw [endsNode, decide_eq_true_eq] at hends
      exact ⟨_, (List.dropLast_append_getLast? _ hends).symm⟩
    rw [List.dropLast_concat]
    exact .inr hbuilt.pop

/-- Back over the end of a node. -/
theorem Tracks.backtrackNode {start cxt : FtCxt} {calls : List FtCall}
    (h : Tracks start calls cxt) (hstart : Begun start)
    (hspace : start.pstr + 16 ≤ 2 ^ 32) (hclear : LastClear calls) :
    Tracks start (openNode calls) (ftBacktrackNode cxt) := by
  rw [ftBacktrackNode]
  rcases h with hfull | hbuilt
  · left
    split
    · exact hfull
    · exact hfull
  · rw [hbuilt.atNodeEnd hstart hspace hclear, openNode]
    split
    · rename_i hends
      exact Tracks.back (.inr hbuilt) hends
    · exact .inr hbuilt

/-! ## Merged trees -/

theorem mergeStep_stable (src : Memory UInt8) (s : MergeAt) :
    Stable (mergeStep src s) := by
  unfold mergeStep
  dsimp only
  split
  · exact stable_const _
  · split
    · exact (Memory.strAt_stable src _).map _
    · split
      · exact stable_const _
      · split
        · exact stable_const _
        · split
          · exact stable_const _
          · exact (Memory.strAt_stable src _).map _

theorem mergeRound_stable (src : Memory UInt8) (s : FtCxt × MergeAt) :
    Stable (mergeRound src s) := by
  refine (mergeStep_stable src s.2).bind fun step => ?_
  refine Stable.map ?_ _
  cases step.1 with
  | some c => exact ftCall_stable s.1 c
  | none => exact stable_const _

/-- One round of merging a tree behind `calls`. -/
def callsRound (src : Memory UInt8) (s : List FtCall × MergeAt) (fuel : ℕ) :
    Option (List FtCall ⊕ (List FtCall × MergeAt)) :=
  (mergeStep src s.2 fuel).map fun step => goOn (s.1 ++ step.1.toList) step.2

/-- The calls that merging a tree makes. -/
def mergeCalls (src : Memory UInt8) (fuel : ℕ) : Option (List FtCall) :=
  fuelLoop (callsRound src) fuel ([], ⟨src.beWord offDtStructAt, 0⟩)

/-- Merging takes no call away. -/
theorem prefix_of_callsLoop {src : Memory UInt8} {calls calls' : List FtCall}
    {s : MergeAt} {fuel : ℕ}
    (h : fuelLoop (callsRound src) fuel (calls, s) = some calls') : calls <+: calls' := by
  induction fuel generalizing calls s with
  | zero => cases h
  | succ fuel ih =>
      obtain ⟨next, hround, h⟩ := Option.bind_eq_some_iff.mp h
      obtain ⟨step, -, rfl⟩ := Option.map_eq_some_iff.mp hround
      cases hgo : step.2 with
      | none =>
          rw [hgo] at h
          cases h
          exact List.prefix_append ..
      | some s' =>
          rw [hgo] at h
          exact (List.prefix_append ..).trans (ih h)

/-- The calls of a tree that is merged come behind the others. -/
theorem callsLoop_append (src : Memory UInt8) (calls more : List FtCall) (s : MergeAt)
    (fuel : ℕ) :
    fuelLoop (callsRound src) fuel (calls ++ more, s) =
      (fuelLoop (callsRound src) fuel (more, s)).map (calls ++ ·) := by
  induction fuel generalizing more s with
  | zero => rfl
  | succ fuel ih =>
      simp only [fuelLoop, callsRound]
      cases mergeStep src s fuel with
      | none => rfl
      | some step =>
          simp only [Option.map_some, Option.bind_some, List.append_assoc]
          cases step.2 with
          | none => rfl
          | some s' => exact ih (more ++ step.1.toList) s'

/-- What a call puts, or nothing. -/
theorem Tracks.maybeCall {start cxt : FtCxt} {calls : List FtCall}
    (h : Tracks start calls cxt) (hstart : Begun start) {call : Option FtCall}
    (hc : Full start cxt ∨ ∀ c ∈ call.toList, c.Strings ∧ Short start.pstr c) :
    ∃ cxt', Returns (maybeCall cxt call) cxt' ∧
      Tracks start (calls ++ call.toList) cxt' ∧ (Full start cxt → Full start cxt') := by
  cases call with
  | none =>
      rw [Option.toList_none, List.append_nil]
      exact ⟨cxt, returns_some.mpr rfl, h, id⟩
  | some c =>
      by_cases hfull : Full start cxt
      · refine ⟨cxt, ?_, .inl hfull, id⟩
        show Returns (ftCall cxt c) cxt
        rw [ftCall_of_overflow hfull.1]
        exact returns_some.mpr rfl
      · obtain ⟨hstrings, hshort⟩ := hc.resolve_left hfull c (by simp)
        obtain ⟨cxt', hcall, hnext⟩ := h.call hstart hstrings hshort
        exact ⟨cxt', hcall, hnext, fun h => absurd h hfull⟩

theorem maybeCall_stable (cxt : FtCxt) (call : Option FtCall) :
    Stable (maybeCall cxt call) := by
  cases call with
  | some c => exact ftCall_stable cxt c
  | none => exact stable_const _

/-- The rounds of a merge put the calls of the tree. -/
theorem Tracks.mergeLoop {start cxt : FtCxt} {src : Memory UInt8}
    {calls calls' : List FtCall} {s : MergeAt} {fuel : ℕ} (h : Tracks start calls cxt)
    (hstart : Begun start)
    (hcalls : fuelLoop (callsRound src) fuel (calls, s) = some calls')
    (hc : Full start cxt ∨ ∀ c ∈ calls', c.Strings ∧ Short start.pstr c) :
    ∃ cxt', Returns (fun fuel => fuelLoop (mergeRound src) fuel (cxt, s)) cxt' ∧
      Tracks start calls' cxt' ∧ (Full start cxt → Full start cxt') := by
  induction fuel generalizing calls cxt s with
  | zero => cases hcalls
  | succ fuel ih =>
      have hmade : ∀ step, mergeStep src s fuel = some step →
          calls ++ step.1.toList <+: calls' := by
        intro step hstep
        simp only [fuelLoop, callsRound, hstep, Option.map_some, Option.bind_some] at hcalls
        cases hgo : step.2 with
        | none =>
            rw [hgo] at hcalls
            cases hcalls
            exact List.prefix_refl _
        | some s' =>
            rw [hgo] at hcalls
            exact prefix_of_callsLoop hcalls
      obtain ⟨next, hround, hrest⟩ := Option.bind_eq_some_iff.mp hcalls
      obtain ⟨step, hstep, rfl⟩ := Option.map_eq_some_iff.mp hround
      have hput : ∃ cxt', Returns (FlatTree.maybeCall cxt step.1) cxt' ∧
          Tracks start (calls ++ step.1.toList) cxt' ∧ (Full start cxt → Full start cxt') :=
        h.maybeCall hstart (hc.imp_right fun hc c hmem =>
          hc c ((hmade step hstep).subset (List.mem_append_right _ hmem)))
      obtain ⟨cxt', hcall, htracks, hkeeps⟩ := hput
      have hnext : Returns (mergeRound src (cxt, s)) (goOn cxt' step.2) :=
        (returns_bind (mergeStep_stable src s) fun step =>
          (maybeCall_stable cxt step.1).map _).mpr
            ⟨step, ⟨fuel, hstep⟩, returns_map.mpr ⟨cxt', hcall, rfl⟩⟩
      cases hgo : step.2 with
      | none =>
          rw [hgo] at hnext hrest
          cases hrest
          exact ⟨cxt', hnext.loop_end, htracks, hkeeps⟩
      | some s' =>
          rw [hgo] at hnext hrest
          obtain ⟨out, hloop, hout, hstays⟩ := ih htracks hrest (hc.imp_left hkeeps)
          exact ⟨out, hnext.loop_next (mergeRound_stable src) hloop, hout,
            fun hfull => hstays (hkeeps hfull)⟩

/-- The calls behind a merge. -/
def merged (calls more : List FtCall) : List FtCall :=
  if endsNode calls then calls.dropLast ++ more else calls

/-- A merged tree. -/
theorem Tracks.mergeBlob {start cxt : FtCxt} {src : Memory UInt8}
    {calls more : List FtCall} (h : Tracks start calls cxt) (hstart : Begun start)
    (hspace : start.pstr + 16 ≤ 2 ^ 32) (hclear : LastClear calls)
    (hmore : Returns (mergeCalls src) more)
    (hc : ∀ c ∈ merged calls more, c.Strings ∧ Short start.pstr c) :
    ∃ cxt', Returns (ftMergeBlob cxt src) cxt' ∧
      Tracks start (merged calls more) cxt' := by
  obtain ⟨fuel, hloop⟩ := hmore
  unfold ftMergeBlob
  cases hat : FlatTree.atNodeEnd cxt with
  | true =>
      rcases h with hfull | hbuilt
      · obtain ⟨cxt', hret, -, hstays⟩ :=
          Tracks.mergeLoop (.inl hfull : Tracks start [] { cxt with p := cxt.p - 4 })
            hstart hloop (.inl hfull)
        exact ⟨cxt', hret, .inl (hstays hfull)⟩
      · have hends : endsNode calls = true :=
          (hbuilt.atNodeEnd hstart hspace hclear).symm.trans hat
        rw [merged, if_pos hends] at hc ⊢
        have hcalls := callsLoop_append src calls.dropLast []
          ⟨src.beWord offDtStructAt, 0⟩ fuel
        rw [mergeCalls] at hloop
        rw [List.append_nil, hloop] at hcalls
        obtain ⟨cxt', hret, htracks, -⟩ :=
          (Tracks.back (.inr hbuilt) hends).mergeLoop hstart hcalls (.inr hc)
        exact ⟨cxt', hret, htracks⟩
  | false =>
      refine ⟨cxt, returns_some.mpr rfl, ?_⟩
      rcases h with hfull | hbuilt
      · exact .inl hfull
      · have hends : endsNode calls = false :=
          (hbuilt.atNodeEnd hstart hspace hclear).symm.trans hat
        rw [merged, hends, if_neg Bool.false_ne_true]
        exact .inr hbuilt

/-! ## A run of operations -/

/-- The calls that a tree is put together by, before and after an operation. -/
def OpCalls (calls : List FtCall) : FtOp → List FtCall → Prop
  | .call c, calls' => calls' = calls ++ [c]
  | .backtrackNode, calls' => calls' = openNode calls
  | .mergeBlob src, calls' =>
      ∃ more, Returns (mergeCalls src) more ∧ calls' = merged calls more

/-- An operation that looks for the end of a node looks for it where no value ends like
one. -/
def LooksClear (calls : List FtCall) : FtOp → Prop
  | .call _ => True
  | .backtrackNode | .mergeBlob _ => LastClear calls

/-- Operations in front of `top` that make one list of calls of another. -/
inductive Ops (top : ℕ) : List FtCall → List FtOp → List FtCall → Prop
  | nil (calls : List FtCall) : Ops top calls [] calls
  | cons {calls calls' last : List FtCall} {op : FtOp} {ops : List FtOp}
      (hclear : LooksClear calls op) (hcalls : OpCalls calls op calls')
      (hc : ∀ c ∈ calls', c.Strings ∧ Short top c) (hrest : Ops top calls' ops last) :
      Ops top calls (op :: ops) last

theorem Ops.strings {top : ℕ} {calls last : List FtCall} {ops : List FtOp}
    (h : Ops top calls ops last) (hcalls : ∀ c ∈ calls, c.Strings) :
    ∀ c ∈ last, c.Strings := by
  induction h with
  | nil calls => exact hcalls
  | cons _ _ hc _ ih => exact ih fun c hmem => (hc c hmem).1

theorem ftMergeBlob_stable (cxt : FtCxt) (src : Memory UInt8) :
    Stable (ftMergeBlob cxt src) := by
  unfold ftMergeBlob
  split
  · exact fuelLoop_stable (mergeRound_stable src) _
  · exact stable_const _

theorem ftOp_stable (cxt : FtCxt) (op : FtOp) : Stable (ftOp cxt op) := by
  cases op with
  | call c => exact ftCall_stable cxt c
  | backtrackNode => exact stable_const _
  | mergeBlob src => exact ftMergeBlob_stable cxt src

theorem ftOps_stable (cxt : FtCxt) (ops : List FtOp) : Stable (ftOps cxt ops) := by
  induction ops generalizing cxt with
  | nil => exact stable_const _
  | cons op ops ih => exact (ftOp_stable cxt op).bind ih

/-- One operation returns, and tracks. -/
theorem Tracks.op {start cxt : FtCxt} {calls calls' : List FtCall} {op : FtOp}
    (h : Tracks start calls cxt) (hstart : Begun start)
    (hspace : start.pstr + 16 ≤ 2 ^ 32) (hclear : LooksClear calls op)
    (hcalls : OpCalls calls op calls')
    (hc : ∀ c ∈ calls', c.Strings ∧ Short start.pstr c) :
    ∃ cxt', Returns (ftOp cxt op) cxt' ∧ Tracks start calls' cxt' := by
  cases op with
  | call c =>
      subst hcalls
      obtain ⟨hstrings, hshort⟩ := hc c (by simp)
      exact h.call hstart hstrings hshort
  | backtrackNode =>
      subst hcalls
      exact ⟨_, returns_some.mpr rfl, h.backtrackNode hstart hspace hclear⟩
  | mergeBlob src =>
      obtain ⟨more, hmore, rfl⟩ := hcalls
      exact h.mergeBlob hstart hspace hclear hmore hc

/-- Operations return, and track. -/
theorem Tracks.ops {start cxt : FtCxt} {calls last : List FtCall} {ops : List FtOp}
    (h : Tracks start calls cxt) (hstart : Begun start)
    (hspace : start.pstr + 16 ≤ 2 ^ 32) (hops : Ops start.pstr calls ops last) :
    ∃ cxt', Returns (ftOps cxt ops) cxt' ∧ Tracks start last cxt' := by
  induction hops generalizing cxt with
  | nil calls => exact ⟨cxt, returns_some.mpr rfl, h⟩
  | cons hclear hcalls hc _ ih =>
      obtain ⟨cxt', hop, hnext⟩ := h.op hstart hspace hclear hcalls hc
      obtain ⟨out, hrun, hout⟩ := ih hnext
      exact ⟨out, (returns_bind (ftOp_stable cxt _) fun cxt => ftOps_stable cxt _).mpr
        ⟨cxt', hop, hrun⟩, hout⟩

end TateFirmware.FlatTree
