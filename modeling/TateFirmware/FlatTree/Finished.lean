import TateFirmware.FlatTree.Calls

/-!
# What a finished tree has written

From `ft_begin` to `ft_end_tree` nothing is written outside the buffer, where the map of
the reserved areas fits into it, no address wraps round, the end of a node is looked for
where no value ends like one, and the tree is not rounded up beyond the buffer.
-/

namespace TateFirmware.FlatTree

open LibGeneric Support

/-! ## The start -/

/-- Where the reserved areas begin. -/
def presBegin (blob : ℕ) : ℕ := (blob + headerSize + 7) / 8 * 8

/-- Where the map of `n` reserved areas ends, with its terminator. -/
def mapEnd (blob n : ℕ) : ℕ := presBegin blob + 16 * (n + 1)

/-- A context to which areas are added. -/
structure Reserving (mem : Memory UInt8) (blob maxSize n : ℕ) (cxt : FtCxt) : Prop where
  overflow : cxt.overflow = false
  bph : cxt.bph = blob
  maxSize : cxt.maxSize = maxSize
  pres : cxt.pres = presBegin blob + 16 * n
  anchor : cxt.pAnchor = cxt.pres + 16
  terminated : Memory.Holds cxt.mem cxt.pres (List.replicate 16 0)
  frame : ∀ k, k < blob ∨ cxt.pAnchor ≤ k → cxt.mem k = mem k

theorem le_presBegin (blob : ℕ) : blob + headerSize ≤ presBegin blob := by
  rw [presBegin]
  omega

theorem putBe32_of_outside {m : Memory UInt8} {a v k : ℕ} (h : k < a ∨ a + 4 ≤ k) :
    putBe32 m a v k = m k := by
  rcases h with hlt | hge
  · exact Memory.copyIn_of_lt _ hlt
  · exact Memory.copyIn_of_ge (by rwa [beBytes_length])

theorem fill_of_outside {m : Memory UInt8} {p n k : ℕ} (h : k < p ∨ p + n ≤ k) :
    m.fill p n 0 k = m k := if_neg (by omega)

theorem holds_fill (m : Memory UInt8) (p n : ℕ) :
    Memory.Holds (m.fill p n 0) p (List.replicate n 0) := by
  intro k hk
  rw [List.length_replicate] at hk
  rw [List.getElem_replicate]
  exact if_pos (by omega)

theorem reserving_ftBegin (mem : Memory UInt8) {blob maxSize : ℕ}
    (hspace : blob + headerSize + 7 < 2 ^ 32) :
    Reserving mem blob maxSize 0 (ftBegin mem blob maxSize) := by
  have hpres : align (blob + headerSize) 8 = presBegin blob := by
    rw [align, Nat.mod_eq_of_lt hspace, presBegin]
  have hle := le_presBegin blob
  refine ⟨rfl, rfl, rfl, hpres, rfl, holds_fill _ _ _, fun k hk => ?_⟩
  have hanchor : (ftBegin mem blob maxSize).pAnchor = presBegin blob + 16 := by
    rw [← hpres]
    rfl
  rw [hanchor] at hk
  simp only [ftBegin]
  rw [hpres]
  simp only [headerSize, versionAt, lastCompVersionAt, offMemRsvmapAt] at hle ⊢
  rw [fill_of_outside (by omega), putBe32_of_outside (by omega),
    putBe32_of_outside (by omega), putBe32_of_outside (by omega),
    putBe32_of_outside (by omega), fill_of_outside (by omega)]

theorem putBe64_of_outside {m : Memory UInt8} {a v k : ℕ} (h : k < a ∨ a + 8 ≤ k) :
    putBe64 m a v k = m k := by
  rcases h with hlt | hge
  · exact Memory.copyIn_of_lt _ hlt
  · refine Memory.copyIn_of_ge ?_
    rwa [List.length_append, beBytes_length, beBytes_length]

theorem Reserving.ftAddRsvmap {mem : Memory UInt8} {blob maxSize n : ℕ} {cxt : FtCxt}
    (h : Reserving mem blob maxSize n cxt) (physaddr size : ℕ) :
    Reserving mem blob maxSize (n + 1) (ftAddRsvmap cxt physaddr size) := by
  have hpres := h.pres
  have hanchor := h.anchor
  have hle := le_presBegin blob
  refine ⟨h.overflow, h.bph, h.maxSize, ?_, rfl, holds_fill _ _ _, fun k hk => ?_⟩
  · show cxt.pres + 16 = presBegin blob + 16 * (n + 1)
    omega
  · replace hk : k < blob ∨ cxt.pres + 16 + 16 ≤ k := hk
    simp only [FlatTree.ftAddRsvmap]
    rw [fill_of_outside (by omega), putBe64_of_outside (by omega),
      putBe64_of_outside (by omega)]
    exact h.frame k (by omega)

theorem reserving_areas {mem : Memory UInt8} {blob maxSize n : ℕ} {cxt : FtCxt}
    (h : Reserving mem blob maxSize n cxt) (areas : List (ℕ × ℕ)) :
    Reserving mem blob maxSize (n + areas.length)
      (areas.foldl (fun cxt area => FlatTree.ftAddRsvmap cxt area.1 area.2) cxt) := by
  induction areas generalizing n cxt with
  | nil => exact h
  | cons area areas ih =>
      rw [List.length_cons, Nat.add_comm areas.length, ← Nat.add_assoc]
      exact ih (h.ftAddRsvmap area.1 area.2)

/-- `ft_begin`, any `ft_add_rsvmap`, and `ft_begin_tree`. -/
theorem begun_ftStart (mem : Memory UInt8) {blob : ℕ} (maxSize : ℕ)
    (areas : List (ℕ × ℕ)) (hspace : blob + headerSize + 7 < 2 ^ 32) :
    Begun (ftStart mem blob maxSize areas) ∧
      (ftStart mem blob maxSize areas).bph = blob ∧
      (ftStart mem blob maxSize areas).p = mapEnd blob areas.length ∧
      (ftStart mem blob maxSize areas).pstr = blob + maxSize ∧
      ∀ k, k < blob ∨ mapEnd blob areas.length ≤ k →
        (ftStart mem blob maxSize areas).mem k = mem k := by
  have hbegin : Reserving mem blob maxSize 0 (ftBegin mem blob maxSize) :=
    reserving_ftBegin mem hspace
  have hareas := reserving_areas hbegin areas
  rw [Nat.zero_add] at hareas
  obtain ⟨cxt, h, hstart⟩ : ∃ cxt, Reserving mem blob maxSize areas.length cxt ∧
      ftStart mem blob maxSize areas = ftBeginTree cxt := ⟨_, hareas, rfl⟩
  rw [hstart]
  have hpres := h.pres
  have hle := le_presBegin blob
  have hp : (ftBeginTree cxt).p = mapEnd blob areas.length := by
    show cxt.pAnchor = mapEnd blob areas.length
    rw [h.anchor, hpres, mapEnd]
    omega
  have hpstr : (ftBeginTree cxt).pstr = blob + maxSize := by
    show cxt.bph + cxt.maxSize = blob + maxSize
    rw [h.bph, h.maxSize]
  have hbph : (ftBeginTree cxt).bph = blob := h.bph
  refine ⟨⟨h.overflow, rfl, rfl, ?_, ?_, rfl, ?_⟩, hbph, hp, hpstr, fun k hk => ?_⟩
  · rw [hp, mapEnd, presBegin]
    omega
  · rw [hbph, hp, mapEnd]
    omega
  · have hzeros := h.terminated
    rw [show (16 : ℕ) = 12 + 4 from rfl, List.replicate_add, Memory.holds_append,
      List.length_replicate] at hzeros
    have hlast : mapEnd blob areas.length - 4 = cxt.pres + 12 := by
      rw [hpres, mapEnd]
      omega
    rw [hp, hlast]
    exact hzeros.2
  · refine h.frame k ?_
    rw [h.anchor, hpres]
    rw [mapEnd] at hk
    omega

/-! ## The loop over the structure -/

section Tokens

variable {mem : Memory UInt8} {p : ℕ} {f : List UInt8 → ℕ}

theorem next_beginNode {name : List UInt8} (hp : p % 4 = 0)
    (hspace : p + tokenSize (.beginNode name) < 2 ^ 32) :
    align (p + 4 + (name.length + 1)) 4 = p + tokenSize (.beginNode name) := by
  have hlen : (name ++ [(0 : UInt8)]).length = name.length + 1 := List.length_append
  have hsize : tokenSize (.beginNode name) = 4 + (padded (name ++ [0])).length := by
    rw [tokenSize, tokenBytes, List.length_append, beBytes_length]
  have hpad := padded_length (name ++ [0])
  rw [hlen] at hpad
  have halign : align (p + 4 + (name ++ [(0 : UInt8)]).length) 4 =
      p + 4 + (padded (name ++ [0])).length := align_padded (by omega) (by omega)
  rw [hlen] at halign
  rw [halign, hsize, Nat.add_assoc]

theorem next_prop {name data : List UInt8} (hp : p % 4 = 0)
    (hspace : p + tokenSize (.prop name data) < 2 ^ 32) :
    align (p + 12 + data.length) 4 = p + tokenSize (.prop name data) := by
  have hsize : tokenSize (.prop name data) = 12 + (padded data).length := by
    simp only [tokenSize, tokenBytes, List.length_append, beBytes_length]
  have hpad := padded_length data
  rw [align_padded (by omega) (by omega), hsize, Nat.add_assoc]

theorem fixupRound_stable (off : ℕ) (s : Memory UInt8 × ℕ) :
    Stable (fixupRound off s) := by
  unfold fixupRound
  dsimp only
  split
  · exact stable_const _
  · split
    · exact (Memory.strAt_stable s.1 _).map _
    · split
      · exact stable_const _
      · split
        · exact stable_const _
        · exact stable_const _

/-- A round passes one token, and changes nothing around it. -/
theorem returns_fixupRound {c : FtCall} (off : ℕ) (hp : p % 4 = 0) (hc : c.Strings)
    (hspace : p + tokenSize c < 2 ^ 32) (h : Memory.Holds mem p (tokenBytes f c)) :
    ∃ mem', Returns (fixupRound off (mem, p)) (.inr (mem', p + tokenSize c)) ∧
      ∀ k, k < p ∨ p + tokenSize c ≤ k → mem' k = mem k := by
  cases c with
  | beginNode name =>
      obtain ⟨htag, hdata⟩ := Memory.holds_append.mp h
      replace htag : mem.beWord p = ofDtBeginNode := htag.beWord
      have hname : Returns (mem.strAt (p + 4)) name :=
        Memory.returns_strAt hc (Memory.holds_append.mp hdata).1
      refine ⟨mem, ?_, fun _ _ => rfl⟩
      have hround : fixupRound off (mem, p) = fun fuel => (mem.strAt (p + 4) fuel).map
          fun s => .inr (mem, align (p + 4 + (s.length + 1)) 4) := by
        funext fuel
        simp only [fixupRound, htag]
        rw [if_neg (by decide), if_pos trivial]
      rw [hround]
      exact returns_map.mpr ⟨name, hname, by rw [next_beginNode hp hspace]⟩
  | endNode =>
      have htag : mem.beWord p = ofDtEndNode := Memory.Holds.beWord h
      refine ⟨mem, ⟨0, ?_⟩, fun _ _ => rfl⟩
      simp only [fixupRound, htag]
      rw [if_neg (by decide), if_neg (by decide), if_pos (.inl trivial)]
      rfl
  | nop =>
      have htag : mem.beWord p = ofDtNop := Memory.Holds.beWord h
      refine ⟨mem, ⟨0, ?_⟩, fun _ _ => rfl⟩
      simp only [fixupRound, htag]
      rw [if_neg (by decide), if_neg (by decide), if_pos (.inr trivial)]
      rfl
  | prop name data =>
      obtain ⟨hwords, -⟩ := Memory.holds_append.mp h
      obtain ⟨hwords, -⟩ := Memory.holds_append.mp hwords
      obtain ⟨htag, hsz⟩ := Memory.holds_append.mp hwords
      have hsize : tokenSize (.prop name data) = 12 + (padded data).length := by
        simp only [tokenSize, tokenBytes, List.length_append, beBytes_length]
      have hpad := padded_length data
      replace htag : mem.beWord p = ofDtProp := htag.beWord
      replace hsz : mem.beWord (p + 4) = data.length :=
        hsz.beWord.trans (Nat.mod_eq_of_lt (by omega))
      refine ⟨putBe32 mem (p + 4 + 4)
        ((mem.beWord (p + 4 + 4) + 2 ^ 32 - off % 2 ^ 32) % 2 ^ 32), ⟨0, ?_⟩,
        fun k hk => putBe32_of_outside ?_⟩
      · simp only [fixupRound, htag, hsz]
        rw [if_neg (by decide), if_neg (by decide), if_neg (by decide), if_neg (by decide),
          show p + 4 + 8 = p + 12 from rfl, next_prop hp hspace]
      · omega

end Tokens

theorem callsSize_cons (c : FtCall) (calls : List FtCall) :
    callsSize (c :: calls) = tokenSize c + callsSize calls := by
  rw [callsSize, structBytes_cons, List.length_append]
  rfl

/-- The loop of `ft_end_tree` comes to the end of the structure. -/
theorem returns_fixupLoop {f : List UInt8 → ℕ} {calls : List FtCall} (off : ℕ)
    {mem : Memory UInt8} {p : ℕ} (hp : p % 4 = 0) (hcalls : ∀ c ∈ calls, c.Strings)
    (hspace : p + callsSize calls < 2 ^ 32)
    (h : Memory.Holds mem p (structBytes f calls ++ beBytes ofDtEnd)) :
    ∃ mem', Returns (fun fuel => fuelLoop (fixupRound off) fuel (mem, p)) (mem', true) ∧
      ∀ k, k < p ∨ p + callsSize calls ≤ k → mem' k = mem k := by
  induction calls generalizing mem p with
  | nil =>
      have htag : mem.beWord p = ofDtEnd := Memory.Holds.beWord h
      refine ⟨mem, Returns.loop_end ⟨0, ?_⟩, fun _ _ => rfl⟩
      simp only [fixupRound, htag, if_true]
  | cons c calls ih =>
      rw [List.forall_mem_cons] at hcalls
      rw [callsSize_cons] at hspace
      rw [structBytes_cons, List.append_assoc, Memory.holds_append,
        tokenBytes_length] at h
      obtain ⟨hfirst, hrest⟩ := h
      obtain ⟨mem', hround, hsame⟩ :=
        returns_fixupRound off hp hcalls.1 (by omega) hfirst
      have hnext := tokenSize_mod c
      obtain ⟨mem'', hloop, hsame'⟩ := @ih mem' (p + tokenSize c) (by omega) hcalls.2
        (by omega) (hrest.congr fun k hge _ => hsame k (.inr hge))
      refine ⟨mem'', hround.loop_next (fixupRound_stable off) hloop, fun k hk => ?_⟩
      rw [callsSize_cons] at hk
      rw [hsame' k (by omega), hsame k (by omega)]

/-! ## The end -/

/-- The size of the tree of the calls, from the header to the names. -/
def treeSize (blob n : ℕ) (calls : List FtCall) : ℕ :=
  mapEnd blob n + callsSize calls + 4 + tableSize (table calls) - blob

/-- What `ft_end_tree` stores behind its loop lies in the header and behind the names. -/
theorem ftSetSizes_frame {cxt : FtCxt} {sz k : ℕ}
    (hsz : cxt.pstrBegin + cxt.stringsSize = cxt.bph + sz) (hheader : headerSize ≤ sz)
    (hk : k < cxt.bph ∨ cxt.bph + sz ≤ k ∧ cxt.bph + align sz 16 ≤ k) :
    (ftSetSizes cxt).mem k = cxt.mem k := by
  have hsub : cxt.pstrBegin + cxt.stringsSize - cxt.bph = sz := by omega
  simp only [ftSetSizes, hsub, totalsizeAt, offDtStructAt, offDtStringsAt]
  rw [headerSize] at hheader
  rw [putBe32_of_outside (by omega), putBe32_of_outside (by omega),
    putBe32_of_outside (by omega)]
  split
  · exact fill_of_outside (by omega)
  · rfl

/-- `OF_DT_END` behind the structure, and the names moved up to it. -/
structure Moved (start cxt : FtCxt) (calls : List FtCall) : Prop where
  bph : cxt.bph = start.bph
  pBegin : cxt.pBegin = start.p
  stringsEnd : cxt.pstrBegin + cxt.stringsSize =
    start.p + callsSize calls + 4 + tableSize (table calls)
  structure_holds : Memory.Holds cxt.mem start.p
    (structBytes (rawOffset start (table calls)) calls ++ beBytes ofDtEnd)
  frame : ∀ k, k < start.p ∨ start.pstr ≤ k → cxt.mem k = start.mem k

theorem Built.moved {start cxt : FtCxt} {calls : List FtCall}
    (h : Built start (table calls) calls cxt) (hstart : Begun start)
    (hroom : cxt.p + 4 ≤ cxt.pstr) :
    Moved start (ftMoveStrings
      { cxt with mem := cxt.mem.copyIn cxt.p (beBytes ofDtEnd), p := cxt.p + 4 })
      calls := by
  have hp := h.p
  have hpstr := h.pstr
  have hpBegin := h.pBegin.trans hstart.p.symm
  have hpstrBegin := h.pstrBegin.trans hstart.pstr.symm
  have hstruct : Memory.Holds (cxt.mem.copyIn cxt.p (beBytes ofDtEnd)) start.p
      (structBytes (rawOffset start (table calls)) calls ++ beBytes ofDtEnd) := by
    rw [hp, ← structBytes_length (rawOffset start (table calls)) calls]
    exact h.structure_holds.append_copyIn _
  have hend : cxt.pBegin + (cxt.p + 4 - cxt.pBegin) = cxt.p + 4 := by omega
  constructor
  · rw [h.same]
    rfl
  · exact hpBegin
  · show cxt.pBegin + (cxt.p + 4 - cxt.pBegin) + (cxt.pstrBegin - cxt.pstr) = _
    omega
  · refine hstruct.congr fun k _ hlt => ?_
    rw [List.length_append, structBytes_length, beBytes_length] at hlt
    simp only [ftMoveStrings, hend]
    exact Memory.copyIn_of_lt _ (by omega)
  · intro k hk
    simp only [ftMoveStrings, hend]
    rw [← h.frame k hk]
    rcases hk with hlt | hge
    · rw [Memory.copyIn_of_lt _ (by omega), Memory.copyIn_of_lt _ (by omega)]
    · rw [Memory.copyIn_of_ge (by rw [Memory.read_length]; omega),
        Memory.copyIn_of_ge (by rw [beBytes_length]; omega)]

theorem ftEndTree_stable (cxt : FtCxt) : Stable (ftEndTree cxt) := by
  unfold ftEndTree
  dsimp only
  split
  · exact stable_const _
  · exact (fuelLoop_stable (fixupRound_stable _) _).map _

/-- What `ft_end_tree` makes of some calls. -/
theorem Tracks.ftEndTree {start cxt : FtCxt} {calls : List FtCall}
    (h : Tracks start calls cxt) (hstart : Begun start)
    (hcalls : ∀ c ∈ calls, c.Strings) (hspace : start.pstr + 16 ≤ 2 ^ 32) :
    ∃ out ret, Returns (ftEndTree cxt) (out, ret) ∧
      ((ret = enomem ∧ ∀ k, k < start.p ∨ start.pstr ≤ k → out.mem k = start.mem k) ∨
        ∃ sz, start.bph + sz = start.p + callsSize calls + 4 + tableSize (table calls) ∧
          ret = 0 ∧ start.bph + sz ≤ start.pstr ∧
          ∀ k, k < start.bph ∨ start.pstr ≤ k ∧ start.bph + align sz 16 ≤ k →
            out.mem k = start.mem k) := by
  rcases h with hfull | hbuilt
  · refine ⟨cxt, enomem, ⟨0, ?_⟩, .inl ⟨rfl, hfull.2⟩⟩
    simp only [FlatTree.ftEndTree, ftPutWord_of_overflow hfull.1, hfull.1, if_true]
  · have hp := hbuilt.p
    have hpstr := hbuilt.pstr
    have hroom := hbuilt.room
    have hheader := hstart.header
    have hput := appends_ftPutWord (hbuilt.overflow hstart) (by omega) ofDtEnd
    rw [Appends, beBytes_length] at hput
    rcases hput with ⟨-, hset, hframe⟩ | ⟨hmore, hput⟩
    · refine ⟨ftPutWord cxt ofDtEnd, enomem, ⟨0, ?_⟩, .inl ⟨rfl, fun k hk => ?_⟩⟩
      · simp only [FlatTree.ftEndTree, hset, if_true]
      · rw [hframe k (by omega)]
        exact hbuilt.frame k hk
    · have hmoved := hbuilt.moved hstart hmore
      obtain ⟨mem, hloop, hsame⟩ := returns_fixupLoop
        (cxt.pstrBegin - cxt.pBegin - (cxt.pstrBegin - cxt.pstr)) hstart.aligned hcalls
        (by omega) hmoved.structure_holds
      obtain ⟨sz, hsz⟩ : ∃ sz, start.bph + sz =
          start.p + callsSize calls + 4 + tableSize (table calls) :=
        ⟨start.p + callsSize calls + 4 + tableSize (table calls) - start.bph, by omega⟩
      refine ⟨ftSetSizes { ftMoveStrings (ftPutWord cxt ofDtEnd) with mem := mem }, 0,
        ?_, .inr ⟨sz, hsz, rfl, by omega, fun k hk => ?_⟩⟩
      · have hret : FlatTree.ftEndTree cxt = fun fuel =>
            (fuelLoop (fixupRound (cxt.pstrBegin - cxt.pBegin - (cxt.pstrBegin - cxt.pstr)))
              fuel ((ftMoveStrings (ftPutWord cxt ofDtEnd)).mem, cxt.pBegin)).map
                fun r =>
                  if r.2 then
                    (ftSetSizes { ftMoveStrings (ftPutWord cxt ofDtEnd) with mem := r.1 }, 0)
                  else ({ ftMoveStrings (ftPutWord cxt ofDtEnd) with mem := r.1 }, einval) := by
          funext fuel
          simp only [FlatTree.ftEndTree, hput, hbuilt.overflow hstart,
            if_neg Bool.false_ne_true]
          rfl
        rw [hstart.p, ← hbuilt.pBegin] at hloop
        rw [hret, hput]
        exact returns_map.mpr ⟨_, hloop, rfl⟩
      · rw [hput]
        have hbph := hmoved.bph
        have hends := hmoved.stringsEnd
        have hk' : k < start.p ∨ start.pstr ≤ k := by omega
        refine Eq.trans (ftSetSizes_frame (hends.trans (hbph ▸ hsz.symm)) (by omega) ?_) ?_
        · show k < FtCxt.bph _ ∨ FtCxt.bph _ + sz ≤ k ∧ FtCxt.bph _ + align sz 16 ≤ k
          rw [hbph]
          omega
        · exact (hsame k (by omega)).trans (hmoved.frame k hk')

/-! ## The whole tree -/

/-- The size that `ft_end_tree` gives the tree. -/
def totalSize (blob n : ℕ) (calls : List FtCall) : ℕ :=
  (treeSize blob n calls + 15) / 16 * 16

/-- Nothing outside the buffer is changed, and a tree that does not fit is reported. -/
def StaysWithin (mem : Memory UInt8) (blob maxSize n : ℕ) (calls : List FtCall)
    (run : FtCxt × ℤ) : Prop :=
  (∀ k, k < blob ∨ blob + maxSize ≤ k → run.1.mem k = mem k) ∧
    (maxSize < totalSize blob n calls → run.2 = enomem)

/-- A tree of any reserved areas and operations is built inside its buffer. -/
theorem ftBuild_staysWithin (mem : Memory UInt8) {blob maxSize : ℕ}
    {areas : List (ℕ × ℕ)} {ops : List FtOp} {calls : List FtCall}
    (hspace : blob + maxSize + 16 ≤ 2 ^ 32)
    (hmap : mapEnd blob areas.length ≤ blob + maxSize)
    (hops : Ops (blob + maxSize) [] ops calls)
    (hround : treeSize blob areas.length calls ≤ maxSize →
      totalSize blob areas.length calls ≤ maxSize) :
    ∃ run, Returns (ftBuild mem blob maxSize areas ops) run ∧
      StaysWithin mem blob maxSize areas.length calls run := by
  have hle := le_presBegin blob
  have hbegun : blob + headerSize + 7 < 2 ^ 32 := by
    rw [mapEnd] at hmap
    omega
  obtain ⟨hstart, hbph, hp, hpstr, hframe⟩ := begun_ftStart mem maxSize areas hbegun
  unfold ftBuild
  generalize ftStart mem blob maxSize areas = start at *
  have hheader := hstart.header
  have hstarted : Tracks start [] start := tracks_start (by omega)
  obtain ⟨cxt, hrun, htracks⟩ := hstarted.ops hstart (by omega) (hpstr ▸ hops)
  obtain ⟨out, ret, hend, hout⟩ := htracks.ftEndTree hstart
    (hops.strings (List.forall_mem_nil _)) (by omega)
  refine ⟨(out, ret), (returns_bind (ftOps_stable start ops) ftEndTree_stable).mpr
    ⟨cxt, hrun, hend⟩, ?_⟩
  rcases hout with ⟨hret, hsame⟩ | ⟨sz, hsz, hret, hfits, hsame⟩
  · refine ⟨fun k hk => ?_, fun _ => hret⟩
    rw [hsame k (by omega), hframe k (by omega)]
  · have hsize : treeSize blob areas.length calls = sz := by
      rw [treeSize]
      omega
    have htotal := hround (by omega)
    rw [totalSize, hsize] at htotal
    refine ⟨fun k hk => ?_, fun hlarge => ?_⟩
    · rw [hsame k ?_, hframe k (by omega)]
      rw [align, Nat.mod_eq_of_lt (by omega)]
      omega
    · rw [totalSize, hsize] at hlarge
      omega

/-- A node without properties, in a buffer of 128 bytes. -/
theorem ftBuild_staysWithin_node :
    ∃ run, Returns (ftBuild (fun _ => 0) 0 128 [(8, 1)]
        [.call (.beginNode [97]), .call .endNode]) run ∧
      StaysWithin (fun _ => 0) 0 128 1 [.beginNode [97], .endNode] run := by
  refine ftBuild_staysWithin (fun _ => 0) (by decide) (by decide) ?_ (by decide)
  refine .cons trivial rfl ?_ (.cons trivial rfl ?_ (.nil _))
  · simp [FtCall.Strings, Short, reach]
  · simp [FtCall.Strings, Short, reach]

/-- The header is written whether it fits or not. -/
theorem tinyBuffer_not_staysWithin :
    ∃ run, ftBuild (fun _ => 0xFF) 0 8 [] [] 1 = some run ∧
      ¬ StaysWithin (fun _ => 0xFF) 0 8 0 [] run := by
  refine ⟨_, rfl, fun h => ?_⟩
  exact absurd (h.1 12 (.inr (by decide))) (by decide)

end TateFirmware.FlatTree
