import TateFirmware.Fat.FatRead

/-!
# The contents of a file

`get_contents` copies the clusters of a chain run by run: consecutive clusters are one
transfer, and the last cluster of the file is read by itself.  Where the chain has a
cluster for each part of the file, the buffer gets the bytes of the clusters one behind
the other, up to the size that is read.
-/

namespace TateFirmware.Fat

open LibGeneric Support

section Chain

variable (v : Volume) (dev : Device)

/-- The bytes of a cluster. -/
def Volume.cluster (c : UInt32) : List UInt8 :=
  dev.contents.read (fsBlockSize * (v.startsect c).toNat) v.clustBytes

/-- A valid cluster, whose sectors have numbers of 32 bits. -/
structure Addressed (c : UInt32) : Prop where
  valid : checkClust v.fatsize c = false
  inside : (v.startsect c).toNat + v.clustSize < 2 ^ 32

/-- Clusters that the FAT links one to the other. -/
structure Chain (clusters : List UInt32) : Prop where
  linked : clusters.IsChain fun c next => v.fatent dev c = next
  addressed : ∀ c ∈ clusters, Addressed v c

/-- The bytes of a chain. -/
def Volume.bytesOf (clusters : List UInt32) : List UInt8 :=
  clusters.flatMap (v.cluster dev)

end Chain

variable {v : Volume} {dev : Device}

@[simp] theorem cluster_length (c : UInt32) : (v.cluster dev c).length = v.clustBytes :=
  Memory.read_length _ _ _

@[simp] theorem bytesOf_cons (c : UInt32) (clusters : List UInt32) :
    v.bytesOf dev (c :: clusters) = v.cluster dev c ++ v.bytesOf dev clusters := rfl

theorem bytesOf_append (xs ys : List UInt32) :
    v.bytesOf dev (xs ++ ys) = v.bytesOf dev xs ++ v.bytesOf dev ys :=
  List.flatMap_append

@[simp] theorem bytesOf_length (clusters : List UInt32) :
    (v.bytesOf dev clusters).length = clusters.length * v.clustBytes := by
  induction clusters with
  | nil => simp [Volume.bytesOf]
  | cons c clusters ih =>
      rw [bytesOf_cons, List.length_append, ih, cluster_length, List.length_cons]
      ring

theorem Chain.of_append (xs : List UInt32) {ys : List UInt32} (h : Chain v dev (xs ++ ys)) :
    Chain v dev ys where
  linked := (List.isChain_append.mp h.linked).2.1
  addressed := fun c hc => h.addressed c (List.mem_append_right _ hc)

/-! ## Consecutive clusters -/

theorem one_lt_of_addressed {c : UInt32} (h : Addressed v c) : 1 < c.toNat := by
  have hvalid := h.valid
  by_contra hle
  have hone : c ≤ 1 := UInt32.le_iff_toNat_le.mpr (Nat.le_of_not_lt hle)
  simp [checkClust, hone] at hvalid

/-- A cluster number behind a valid one does not wrap around. -/
theorem toNat_succ {c : UInt32} (h : Addressed v (c + 1)) :
    (c + 1).toNat = c.toNat + 1 := by
  have hpos := one_lt_of_addressed h
  have hlt := c.toNat_lt
  have hone : (1 : UInt32).toNat = 1 := rfl
  rw [UInt32.toNat_add, hone] at hpos ⊢
  omega

/-- The sectors of the next cluster are behind those of a cluster. -/
theorem startsect_succ {c : UInt32}
    (hc : Addressed v c) (hnext : Addressed v (c + 1)) :
    (v.startsect (c + 1)).toNat = (v.startsect c).toNat + v.clustSize := by
  have hpos : 0 < c := UInt32.lt_iff_toNat_lt.mpr
    (Nat.lt_trans Nat.zero_lt_one (one_lt_of_addressed hc))
  have hpos' : 0 < c + 1 := UInt32.lt_iff_toNat_lt.mpr
    (Nat.lt_trans Nat.zero_lt_one (one_lt_of_addressed hnext))
  have hadd : v.startsect (c + 1) = v.startsect c + UInt32.ofNat v.clustSize := by
    have hnat : UInt32.ofInt (v.clustSize : ℤ) = UInt32.ofNat v.clustSize := by
      apply UInt32.toNat_inj.mp
      rw [UInt32.ofInt, UInt32.toNat_ofNat', UInt32.toNat_ofNat']
      omega
    have hsum : v.dataBegin + ((c.toNat + 1 : ℕ) : ℤ) * v.clustSize =
        v.dataBegin + c.toNat * v.clustSize + v.clustSize := by
      push_cast
      ring
    rw [Volume.startsect, if_pos hpos', Volume.startsect, if_pos hpos,
      toNat_succ hnext, hsum, UInt32.ofInt_add, hnat]
  have hinside := hc.inside
  rw [hadd, UInt32.toNat_add, UInt32.toNat_ofNat', Nat.mod_eq_of_lt (by omega)]
  omega

/-- The sectors of consecutive clusters are one stretch of the device. -/
theorem run_read {c : UInt32} {run : List UInt32}
    (hrun : (c :: run).IsChain fun c next => next = c + 1)
    (haddressed : ∀ x ∈ c :: run, Addressed v x) :
    (v.startsect c).toNat + (run.length + 1) * v.clustSize < 2 ^ 32 ∧
      v.bytesOf dev (c :: run) =
        dev.contents.read (fsBlockSize * (v.startsect c).toNat)
          ((run.length + 1) * v.clustBytes) := by
  induction run generalizing c with
  | nil =>
      have hinside := (haddressed c List.mem_cons_self).inside
      constructor
      · simpa using hinside
      · simp [Volume.bytesOf, Volume.cluster]
  | cons d run ih =>
      obtain ⟨rfl, hrest⟩ := List.isChain_cons_cons.mp hrun
      obtain ⟨hinside, hbytes⟩ :=
        ih hrest fun x hx => haddressed x (List.mem_cons_of_mem c hx)
      have hnext := startsect_succ (haddressed c List.mem_cons_self)
        (haddressed (c + 1) (List.mem_cons_of_mem c List.mem_cons_self))
      rw [hnext] at hinside hbytes
      constructor
      · rw [List.length_cons]
        linarith
      · have hsize : (run.length + 1 + 1) * v.clustBytes =
            v.clustBytes + (run.length + 1) * v.clustBytes := by ring
        have hstart : fsBlockSize * (v.startsect c).toNat + v.clustBytes =
            fsBlockSize * ((v.startsect c).toNat + v.clustSize) := by
          rw [Volume.clustBytes]
          ring
        rw [bytesOf_cons, hbytes, List.length_cons, hsize, Memory.read_add, hstart]
        rfl

/-- A transfer of sectors with numbers of 32 bits. -/
theorem getCluster_read (hdev : dev.registered = true) (c : UInt32)
    (buffer : Memory UInt8) (p : ℕ) {size : ℕ}
    (hinside : fsBlockSize * (v.startsect c).toNat + size < fsBlockSize * 2 ^ 32) :
    v.getCluster dev c buffer p size =
      (buffer.copyIn p
        (dev.contents.read (fsBlockSize * (v.startsect c).toNat) size), true) := by
  have hsplit := Nat.div_add_mod size fsBlockSize
  have hidx : (v.startsect c).toNat + size / fsBlockSize < 2 ^ 32 := by
    simp only [fsBlockSize] at *
    omega
  unfold Volume.getCluster
  simp only [Device.read, if_pos hdev]
  by_cases hwhole : size % fsBlockSize = 0
  · rw [if_pos hwhole]
    rw [hwhole, Nat.add_zero] at hsplit
    rw [hsplit]
  · rw [if_neg hwhole]
    have hindex : (v.startsect c + UInt32.ofNat (size / fsBlockSize)).toNat =
        (v.startsect c).toNat + size / fsBlockSize := by
      rw [UInt32.toNat_add, UInt32.toNat_ofNat', Nat.add_mod_mod,
        Nat.mod_eq_of_lt hidx]
    have htail : (dev.contents.read
        (fsBlockSize * ((v.startsect c).toNat + size / fsBlockSize))
        (fsBlockSize * 1)).take (size % fsBlockSize) =
        dev.contents.read (fsBlockSize * (v.startsect c).toNat +
          fsBlockSize * (size / fsBlockSize)) (size % fsBlockSize) := by
      have hlt : size % fsBlockSize < fsBlockSize := Nat.mod_lt _ (by decide)
      rw [Memory.read_take, Nat.min_eq_left (by omega), Nat.mul_add]
    have hcopy : p + size / fsBlockSize * fsBlockSize = p +
        (dev.contents.read (fsBlockSize * (v.startsect c).toNat)
          (fsBlockSize * (size / fsBlockSize))).length := by
      rw [Memory.read_length, Nat.mul_comm]
    rw [hindex, htail, hcopy, Memory.copyIn_append, ← Memory.read_add, hsplit]

/-! ## A run of clusters -/

/-- What the search for consecutive clusters comes to: the clusters `front` and
`last` of a chain. -/
structure IsRun (clusters front : List UInt32) (last : UInt32) (rest : List UInt32) :
    Prop where
  split : clusters = front ++ last :: rest
  consecutive : (front ++ [last]).IsChain fun c next => next = c + 1

/-- Where the chain is long enough, the search ends at the last cluster of the file, or at
a cluster that the next one does not follow. -/
theorem clusterRun_spec {m c : UInt32} {clusters : List UInt32} {a : UInt32}
    (hchain : Chain v dev (c :: clusters))
    (hroom : m.toNat ≤ a.toNat + clusters.length * v.clustBytes)
    (hsmall : m.toNat + v.clustBytes < 2 ^ 32) :
    ∃ front last rest actsize, IsRun (c :: clusters) front last rest ∧
      actsize.toNat = a.toNat + front.length * v.clustBytes ∧
      (clusterRun v dev m c a = .full last actsize ∧ m.toNat ≤ actsize.toNat ∧
          (front ≠ [] → actsize.toNat < m.toNat + v.clustBytes) ∨
        clusterRun v dev m c a = .getit last actsize ∧ actsize.toNat < m.toNat ∧
          rest ≠ []) := by
  induction clusters generalizing c a with
  | nil =>
      have hfull : ¬ a < m := by
        rw [UInt32.lt_iff_toNat_lt]
        simpa using hroom
      refine ⟨[], c, [], a, ⟨rfl, List.isChain_singleton _⟩, by simp, Or.inl ⟨?_, ?_, ?_⟩⟩
      · rw [clusterRun, if_neg hfull]
      · simpa using hroom
      · exact fun h => absurd rfl h
  | cons d clusters ih =>
      by_cases hlt : a < m
      · have hlink : v.fatent dev c = d := (List.isChain_cons_cons.mp hchain.linked).1
        have hrest : Chain v dev (d :: clusters) := Chain.of_append [c] hchain
        have hvalid := (hrest.addressed d List.mem_cons_self).valid
        rw [clusterRun, if_pos hlt, hlink]
        dsimp only
        by_cases hnext : d - 1 ≠ c
        · refine ⟨[], c, d :: clusters, a, ⟨rfl, List.isChain_singleton _⟩, by simp,
            Or.inr ⟨?_, UInt32.lt_iff_toNat_lt.mp hlt, List.cons_ne_nil _ _⟩⟩
          rw [if_pos hnext]
        · have hsucc : d = c + 1 := by
            rw [← not_not.mp hnext, UInt32.sub_add_cancel]
          rw [if_neg hnext, if_neg (by simp [hvalid])]
          have hltNat := UInt32.lt_iff_toNat_lt.mp hlt
          have hadd : (a + UInt32.ofNat v.clustBytes).toNat =
              a.toNat + v.clustBytes := by
            rw [UInt32.toNat_add, UInt32.toNat_ofNat', Nat.add_mod_mod,
              Nat.mod_eq_of_lt (by omega)]
          obtain ⟨front, last, rest, actsize, ⟨hsplit, hconsecutive⟩, hactsize, hend⟩ :=
            ih hrest (a := a + UInt32.ofNat v.clustBytes) (by
              rw [hadd]
              rw [List.length_cons] at hroom
              linarith)
          refine ⟨c :: front, last, rest, actsize, ⟨by rw [hsplit]; rfl, ?_⟩, ?_, ?_⟩
          · refine List.isChain_cons.mpr ⟨?_, hconsecutive⟩
            intro y hy
            cases front with
            | nil =>
                obtain ⟨rfl, -⟩ := List.cons.inj hsplit
                rw [← Option.mem_some_iff.mp hy, hsucc]
            | cons x front =>
                obtain ⟨rfl, -⟩ := List.cons.inj hsplit
                rw [← Option.mem_some_iff.mp hy, hsucc]
          · rw [hactsize, hadd, List.length_cons]
            ring
          · rcases hend with ⟨hrun, hle, hlast⟩ | hgetit
            · refine Or.inl ⟨hrun, hle, fun _ => ?_⟩
              by_cases hnil : front = []
              · rw [hactsize, hadd, hnil]
                simp only [List.length_nil]
                omega
              · exact hlast hnil
            · exact Or.inr hgetit
      · refine ⟨[], c, d :: clusters, a, ⟨rfl, List.isChain_singleton _⟩, by simp,
          Or.inl ⟨?_, ?_, fun h => absurd rfl h⟩⟩
        · rw [clusterRun, if_neg hlt]
        · exact Nat.le_of_not_lt fun h => hlt (UInt32.lt_iff_toNat_lt.mpr h)

/-- The bytes of a run stand behind one another on the device. -/
theorem IsRun.bytes {c : UInt32}
    {clusters front rest : List UInt32} {last : UInt32}
    (hrun : IsRun (c :: clusters) front last rest)
    (hchain : Chain v dev (c :: clusters)) :
    fsBlockSize * (v.startsect c).toNat + (front.length + 1) * v.clustBytes <
        fsBlockSize * 2 ^ 32 ∧
      v.bytesOf dev front = dev.contents.read (fsBlockSize * (v.startsect c).toNat)
        (front.length * v.clustBytes) ∧
      v.bytesOf dev (front ++ [last]) =
        dev.contents.read (fsBlockSize * (v.startsect c).toNat)
          ((front.length + 1) * v.clustBytes) := by
  obtain ⟨tail, htail, hlength⟩ : ∃ tail, front ++ [last] = c :: tail ∧
      tail.length = front.length := by
    cases front with
    | nil =>
        obtain ⟨rfl, -⟩ := List.cons.inj hrun.split
        exact ⟨[], rfl, rfl⟩
    | cons x front =>
        obtain ⟨rfl, -⟩ := List.cons.inj hrun.split
        exact ⟨front ++ [last], rfl, by simp⟩
  have hmem : ∀ x ∈ c :: tail, Addressed v x := by
    intro x hx
    refine hchain.addressed x ?_
    rw [← htail] at hx
    rw [hrun.split, List.append_cons]
    exact List.mem_append_left _ hx
  have hconsecutive := hrun.consecutive
  rw [htail] at hconsecutive
  obtain ⟨hinside, hbytes⟩ := run_read hconsecutive hmem
  rw [hlength] at hinside hbytes
  rw [← htail] at hbytes
  refine ⟨?_, ?_, hbytes⟩
  · have hscaled := Nat.mul_lt_mul_of_pos_left hinside (show 0 < fsBlockSize by decide)
    rw [Volume.clustBytes]
    linarith
  · have hsize : (front.length + 1) * v.clustBytes =
        front.length * v.clustBytes + v.clustBytes := by ring
    rw [bytesOf_append, hsize, Memory.read_add] at hbytes
    exact (List.append_inj hbytes (by simp)).1

/-! ## The loop -/

/-- A round that ends the loop: what is left of the file lies in one run. -/
theorem contentsRound_full (hdev : dev.registered = true) {s : Contents}
    {clusters front rest : List UInt32} {last actsize : UInt32}
    (hchain : Chain v dev (s.curclust :: clusters))
    (hsmall : s.filesize.toNat + v.clustBytes < 2 ^ 32)
    (hrun : IsRun (s.curclust :: clusters) front last rest)
    (hactsize : actsize.toNat = (front.length + 1) * v.clustBytes)
    (hfull : clusterRun v dev s.filesize s.curclust (UInt32.ofNat v.clustBytes) =
      .full last actsize)
    (hle : s.filesize.toNat ≤ actsize.toNat)
    (hfront : front ≠ [] → actsize.toNat < s.filesize.toNat + v.clustBytes) :
    contentsRound v dev s = .inl (toLong (s.gotsize + s.filesize.toNat),
      s.buffer.copyIn s.gotsize
        ((v.bytesOf dev (s.curclust :: clusters)).take s.filesize.toNat)) := by
  obtain ⟨hinside, hbytes, -⟩ := hrun.bytes hchain
  have hsplit : (front.length + 1) * v.clustBytes =
      front.length * v.clustBytes + v.clustBytes := by ring
  have hbefore : front.length * v.clustBytes ≤ s.filesize.toNat := by
    by_cases hnil : front = []
    · simp [hnil]
    · have := hfront hnil
      omega
  have hclust : (UInt32.ofNat v.clustBytes).toNat = v.clustBytes := by
    rw [UInt32.toNat_ofNat', Nat.mod_eq_of_lt (by omega)]
  have hfirst : (actsize - UInt32.ofNat v.clustBytes).toNat =
      front.length * v.clustBytes := by
    rw [UInt32.toNat_sub_of_le _ _ (UInt32.le_iff_toNat_le.mpr (by omega)), hclust]
    omega
  have hlast : (s.filesize - (actsize - UInt32.ofNat v.clustBytes)).toNat =
      s.filesize.toNat - front.length * v.clustBytes := by
    rw [UInt32.toNat_sub_of_le _ _ (UInt32.le_iff_toNat_le.mpr (by omega)), hfirst]
  have hlastInside : fsBlockSize * (v.startsect last).toNat +
      (s.filesize.toNat - front.length * v.clustBytes) < fsBlockSize * 2 ^ 32 := by
    have haddressed := (hchain.addressed last (by rw [hrun.split]; simp)).inside
    have hscaled := Nat.mul_lt_mul_of_pos_left haddressed (show 0 < fsBlockSize by decide)
    rw [Nat.mul_add, Nat.mul_comm fsBlockSize v.clustSize] at hscaled
    rw [← Volume.clustBytes] at hscaled
    omega
  have hget := getCluster_read hdev s.curclust s.buffer s.gotsize
    (show fsBlockSize * (v.startsect s.curclust).toNat +
      front.length * v.clustBytes < fsBlockSize * 2 ^ 32 by omega)
  unfold contentsRound
  dsimp only
  rw [hfull]
  dsimp only
  rw [hfirst, hlast, hget]
  dsimp only
  rw [getCluster_read hdev _ _ _ hlastInside]
  dsimp only
  have hcount : s.gotsize + front.length * v.clustBytes +
      (s.filesize.toNat - front.length * v.clustBytes) =
      s.gotsize + s.filesize.toNat := by omega
  have hcopied : s.gotsize + front.length * v.clustBytes = s.gotsize +
      (v.bytesOf dev front).length := by rw [bytesOf_length]
  have htail : dev.contents.read (fsBlockSize * (v.startsect last).toNat)
      (s.filesize.toNat - front.length * v.clustBytes) =
      (v.cluster dev last).take
        (s.filesize.toNat - front.length * v.clustBytes) := by
    rw [Volume.cluster, Memory.read_take, Nat.min_eq_left (by omega)]
  have htake : (v.bytesOf dev (s.curclust :: clusters)).take s.filesize.toNat =
      v.bytesOf dev front ++ (v.cluster dev last).take
        (s.filesize.toNat - front.length * v.clustBytes) := by
    rw [hrun.split, bytesOf_append, bytesOf_cons, List.take_append,
      List.take_of_length_le (by rw [bytesOf_length]; exact hbefore), bytesOf_length,
      List.take_append_of_le_length (by rw [cluster_length]; omega)]
  rw [hcount, ← hbytes, hcopied, htail, Memory.copyIn_append, ← htake]

/-- A round that ends at a break in the chain: the run is copied, and the loop goes on
at the next cluster. -/
theorem contentsRound_getit (hdev : dev.registered = true) {s : Contents}
    {clusters front rest : List UInt32} {last next actsize : UInt32}
    (hchain : Chain v dev (s.curclust :: clusters))
    (hrun : IsRun (s.curclust :: clusters) front last (next :: rest))
    (hactsize : actsize.toNat = (front.length + 1) * v.clustBytes)
    (hgetit : clusterRun v dev s.filesize s.curclust (UInt32.ofNat v.clustBytes) =
      .getit last actsize) :
    contentsRound v dev s = .inr ⟨next, s.filesize - actsize,
      s.gotsize + actsize.toNat,
      s.buffer.copyIn s.gotsize (v.bytesOf dev (front ++ [last]))⟩ := by
  obtain ⟨hinside, -, hbytes⟩ := hrun.bytes hchain
  have hlink : v.fatent dev last = next := by
    have hlinked := hchain.linked
    rw [hrun.split, List.isChain_append] at hlinked
    exact (List.isChain_cons_cons.mp hlinked.2.1).1
  have hvalid := (hchain.addressed next (by rw [hrun.split]; simp)).valid
  have hget := getCluster_read hdev s.curclust s.buffer s.gotsize
    hinside
  unfold contentsRound
  dsimp only
  rw [hgetit]
  dsimp only
  rw [hactsize, hget]
  dsimp only
  rw [hlink, if_neg (by simp [hvalid]), hbytes]

/-- The loop copies what is left of the file. -/
theorem contentsLoop_returns (hdev : dev.registered = true) {s : Contents}
    {clusters : List UInt32} (hchain : Chain v dev (s.curclust :: clusters))
    (hroom : s.filesize.toNat ≤ (clusters.length + 1) * v.clustBytes)
    (hsmall : s.filesize.toNat + v.clustBytes < 2 ^ 32) :
    Returns (fun fuel => roundLoop (contentsRound v dev) fuel s)
      (toLong (s.gotsize + s.filesize.toNat), s.buffer.copyIn s.gotsize
        ((v.bytesOf dev (s.curclust :: clusters)).take s.filesize.toNat)) := by
  induction hn : clusters.length using Nat.strong_induction_on generalizing s clusters with
  | _ n ih =>
      subst hn
      have hclust : (UInt32.ofNat v.clustBytes).toNat = v.clustBytes := by
        rw [UInt32.toNat_ofNat', Nat.mod_eq_of_lt (by omega)]
      have hlength : (clusters.length + 1) * v.clustBytes =
          v.clustBytes + clusters.length * v.clustBytes := by ring
      obtain ⟨front, last, rest, actsize, hrun, hactsize, hend⟩ :=
        clusterRun_spec (a := UInt32.ofNat v.clustBytes) hchain (by omega) hsmall
      have hsize : actsize.toNat = (front.length + 1) * v.clustBytes := by
        rw [hactsize, hclust]
        ring
      rcases hend with ⟨hfull, hle, hfront⟩ | ⟨hgetit, hlt, hrest⟩
      · refine ⟨1, ?_⟩
        simp only [roundLoop_succ, contentsRound_full hdev hchain hsmall hrun hsize
          hfull hle hfront]
        rfl
      · obtain ⟨next, later, rfl⟩ := List.exists_cons_of_ne_nil hrest
        have hround := contentsRound_getit hdev hchain hrun hsize hgetit
        have hsub : (s.filesize - actsize).toNat =
            s.filesize.toNat - actsize.toNat :=
          UInt32.toNat_sub_of_le _ _ (UInt32.le_iff_toNat_le.mpr hlt.le)
        have hcount : clusters.length = front.length + 1 + later.length := by
          have := congrArg List.length hrun.split
          simp only [List.length_cons, List.length_append] at this
          omega
        have hlater : Chain v dev (next :: later) := by
          have := hchain
          rw [hrun.split, List.append_cons] at this
          exact Chain.of_append _ this
        obtain ⟨fuel, hfuel⟩ := ih later.length (by omega)
          (s := ⟨next, s.filesize - actsize, s.gotsize + actsize.toNat,
            s.buffer.copyIn s.gotsize (v.bytesOf dev (front ++ [last]))⟩) hlater
          (by
            simp only [hsub, hsize]
            rw [hcount] at hroom
            have : (front.length + 1 + later.length + 1) * v.clustBytes =
              (front.length + 1) * v.clustBytes +
                (later.length + 1) * v.clustBytes := by ring
            omega)
          (by simp only [hsub]; omega) rfl
        refine ⟨fuel + 1, ?_⟩
        simp only [roundLoop_of_next (show RoundNext _ s _ from hround)]
        have htotal : s.gotsize + actsize.toNat + (s.filesize - actsize).toNat =
            s.gotsize + s.filesize.toNat := by omega
        have hcopied : s.gotsize + actsize.toNat = s.gotsize +
            (v.bytesOf dev (front ++ [last])).length := by
          rw [bytesOf_length, List.length_append, List.length_singleton, hsize]
        have htake : (v.bytesOf dev (s.curclust :: clusters)).take s.filesize.toNat =
            v.bytesOf dev (front ++ [last]) ++
              (v.bytesOf dev (next :: later)).take (s.filesize - actsize).toNat := by
          have hlong : (v.bytesOf dev (front ++ [last])).length = actsize.toNat := by
            rw [bytesOf_length, List.length_append, List.length_singleton, hsize]
          rw [hrun.split, List.append_cons, bytesOf_append, List.take_append,
            List.take_of_length_le (by omega), hlong, hsub]
        refine hfuel.trans ?_
        dsimp only
        rw [htotal, hcopied, Memory.copyIn_append, ← htake]

/-- Nothing is copied of an empty file. -/
theorem contentsRound_empty (hdev : dev.registered = true) {s : Contents} (hempty : s.filesize = 0) :
    contentsRound v dev s = .inl (toLong s.gotsize, s.buffer) := by
  have hrun : clusterRun v dev s.filesize s.curclust (UInt32.ofNat v.clustBytes) =
      .full s.curclust (UInt32.ofNat v.clustBytes) := by
    rw [clusterRun, hempty, if_neg UInt32.not_lt_zero]
  have hget : ∀ (c : UInt32) (buffer : Memory UInt8) (p : ℕ),
      v.getCluster dev c buffer p 0 = (buffer, true) := by
    intro c buffer p
    simp [Volume.getCluster, Device.read, if_pos hdev, Memory.read]
  unfold contentsRound
  dsimp only
  rw [hrun]
  dsimp only
  rw [UInt32.sub_self, hempty, UInt32.sub_zero, UInt32.toNat_zero, hget]
  dsimp only
  rw [hget, Nat.add_zero]

/-! ## The file -/

/-- How much of a file is read: all of it where `maxsize` is zero. -/
def bytesWanted (dent : Memory UInt8) (maxsize : UInt32) : ℕ :=
  if maxsize = 0 then dent.leWord 28 else min (dent.leWord 28) maxsize.toNat

theorem leWord_lt (m : Memory UInt8) (p : ℕ) : m.leWord p < 2 ^ 32 := by
  have h0 := (m p).toNat_lt
  have h1 := (m (p + 1)).toNat_lt
  have h2 := (m (p + 2)).toNat_lt
  have h3 := (m (p + 3)).toNat_lt
  unfold Memory.leWord
  omega

theorem sizeToRead_toNat (dent : Memory UInt8) (maxsize : UInt32) :
    (sizeToRead dent maxsize).toNat = bytesWanted dent maxsize := by
  have hword : (UInt32.ofNat (dent.leWord 28)).toNat = dent.leWord 28 := by
    rw [UInt32.toNat_ofNat', Nat.mod_eq_of_lt (leWord_lt _ _)]
  unfold sizeToRead bytesWanted
  dsimp only
  by_cases hzero : maxsize = 0
  · rw [if_neg (fun h => by simp [hzero] at h), if_pos hzero, hword]
  · have hpos : 0 < maxsize := UInt32.pos_iff_ne_zero.mpr hzero
    rw [if_neg hzero]
    split_ifs with hlt
    · have hltNat := UInt32.lt_iff_toNat_lt.mp hlt.2
      rw [hword] at hltNat
      omega
    · have hge : ¬ maxsize.toNat < dent.leWord 28 := by
        rw [← hword]
        exact fun h => hlt ⟨hpos, UInt32.lt_iff_toNat_lt.mpr h⟩
      rw [hword]
      omega

/-- A chain of clusters that a directory entry starts, with room for so many bytes. -/
structure HoldsFile (v : Volume) (dev : Device) (dent : Memory UInt8)
    (clusters : List UInt32) (size : ℕ) : Prop where
  start : ∀ c ∈ clusters.head?, c = v.start dent
  chain : Chain v dev clusters
  long : size ≤ clusters.length * v.clustBytes

/-- What is returned is the size as a `long`. -/
theorem getContents_returns {dent : Memory UInt8} {clusters : List UInt32}
    {maxsize : UInt32} (hdev : dev.registered = true)
    (hfile : HoldsFile v dev dent clusters (bytesWanted dent maxsize))
    (hsmall : bytesWanted dent maxsize + v.clustBytes < 2 ^ 32)
    (buffer : Memory UInt8) :
    Returns (getContents v dev dent buffer maxsize)
      (toLong (bytesWanted dent maxsize), buffer.copyIn 0
        ((v.bytesOf dev clusters).take (bytesWanted dent maxsize))) := by
  have hsize := sizeToRead_toNat dent maxsize
  cases clusters with
  | nil =>
      have hzero : bytesWanted dent maxsize = 0 := by
        have := hfile.long
        simpa using this
      have hempty : sizeToRead dent maxsize = 0 := by
        apply UInt32.toNat_inj.mp
        rw [hsize, hzero]
        rfl
      refine ⟨1, ?_⟩
      rw [getContents, roundLoop_succ, contentsRound_empty hdev hempty, hzero]
      simp [Volume.bytesOf]
  | cons c clusters =>
      obtain rfl : c = v.start dent := hfile.start c rfl
      have hloop := contentsLoop_returns hdev
        (s := ⟨v.start dent, sizeToRead dent maxsize, 0, buffer⟩) hfile.chain
        (by rw [hsize]; exact hfile.long) (by rw [hsize]; exact hsmall)
      dsimp only at hloop
      rw [hsize, Nat.zero_add] at hloop
      exact hloop

/-- A count below `2 ^ 31` is itself as a `long`. -/
theorem toLong_of_lt {n : ℕ} (h : n < 2 ^ 31) : toLong n = n :=
  Int.bmod_eq_of_le (by omega) (by omega)

/-- `get_contents` copies the first bytes of the clusters of a file, as many as are wanted,
and returns how many they are, as a `long`. -/
theorem getContents_copies (v : Volume) (dev : Device) (dent buffer : Memory UInt8)
    (maxsize : UInt32) (clusters : List UInt32) (hdev : dev.registered = true)
    (hfile : HoldsFile v dev dent clusters (bytesWanted dent maxsize))
    (hsmall : bytesWanted dent maxsize + v.clustBytes < 2 ^ 32) :
    ∃ count : ℤ, (bytesWanted dent maxsize < 2 ^ 31 →
        count = bytesWanted dent maxsize) ∧
      Returns (getContents v dev dent buffer maxsize) (count, buffer.copyIn 0
        ((v.bytesOf dev clusters).take (bytesWanted dent maxsize))) :=
  ⟨toLong (bytesWanted dent maxsize), toLong_of_lt,
    getContents_returns hdev hfile hsmall buffer⟩

/-! ## A file in three clusters -/

/-- A device with a FAT16 at sector 1 that links the clusters 2, 3 and 5; the other
sectors are filled with their numbers. -/
def chainDevice : Device where
  contents := Memory.copyIn (fun i => UInt8.ofNat (i / fsBlockSize)) fsBlockSize
    [0, 0, 0, 0, 3, 0, 5, 0, 0, 0, 0xff, 0xff]
  registered := true

/-- An entry for a file of 1100 bytes from cluster 2 on. -/
def smallFile : Memory UInt8 := ((Memory.store (fun _ => 0) 26 2).store 28 0x4c).store 29 4

theorem smallFile_holds {size : ℕ} (hsize : size ≤ 1100) :
    HoldsFile smallVolume chainDevice smallFile [2, 3, 5] size where
  start := by
    intro c hc
    rw [← Option.mem_some_iff.mp hc]
    decide
  chain :=
    { linked := by
        refine List.isChain_cons_cons.mpr ⟨?_, List.isChain_pair.mpr ?_⟩ <;> decide +kernel
      addressed := by
        have hall : ([2, 3, 5] : List UInt32).all fun c =>
            !checkClust smallVolume.fatsize c && smallVolume.startsect c = c && c ≤ 5 := by
          decide +kernel
        intro c hc
        have hsector := List.all_eq_true.mp hall c hc
        simp only [Bool.and_eq_true, Bool.not_eq_true', decide_eq_true_eq] at hsector
        obtain ⟨⟨hvalid, hstart⟩, hle⟩ := hsector
        have hnat : c.toNat ≤ 5 := UInt32.le_iff_toNat_le.mp hle
        have hsize : smallVolume.clustSize = 1 := rfl
        exact ⟨hvalid, by rw [hstart, hsize]; omega⟩ }
  long := hsize.trans (by decide)

theorem smallVolume_clustBytes : smallVolume.clustBytes = 512 := rfl

theorem smallFile_size : smallFile.leWord 28 = 1100 := by decide

theorem smallFile_wanted : bytesWanted smallFile 1030 = 1030 := by
  have hmax : (1030 : UInt32).toNat = 1030 := rfl
  rw [bytesWanted, if_neg (by decide), smallFile_size, hmax]
  omega

theorem smallFile_wanted_all : bytesWanted smallFile 0 = 1100 := by
  rw [bytesWanted, if_pos rfl, smallFile_size]

/-- Two clusters in one transfer, and six bytes of the third one. -/
theorem getContents_copies_smallFile :
    ∃ count : ℤ,
      (bytesWanted smallFile 1030 < 2 ^ 31 → count = bytesWanted smallFile 1030) ∧
      Returns (getContents smallVolume chainDevice smallFile (fun _ => 0) 1030)
        (count, Memory.copyIn (fun _ => 0) 0
          ((smallVolume.bytesOf chainDevice [2, 3, 5]).take
            (bytesWanted smallFile 1030))) :=
  getContents_copies smallVolume chainDevice smallFile (fun _ => 0) 1030 [2, 3, 5] rfl
    (smallFile_holds (by rw [smallFile_wanted]; decide))
    (by rw [smallFile_wanted, smallVolume_clustBytes]; decide)

/-- With a `maxsize` of zero the file is read, and not none of it. -/
theorem smallFile_not_minimum :
    ¬ Returns (getContents smallVolume chainDevice smallFile (fun _ => 0) 0)
      ((min (smallFile.leWord 28) (0 : UInt32).toNat : ℕ), Memory.copyIn (fun _ => 0) 0
        ((smallVolume.bytesOf chainDevice [2, 3, 5]).take
          (min (smallFile.leWord 28) (0 : UInt32).toNat))) := by
  intro h
  have hread := getContents_returns rfl (smallFile_holds smallFile_wanted_all.le)
    (by rw [smallFile_wanted_all, smallVolume_clustBytes]; decide) fun _ => 0
  have hstable : Stable (getContents smallVolume chainDevice smallFile (fun _ => 0) 0) :=
    roundLoop_stable _ _
  have hcount := congrArg Prod.fst (h.unique hstable hread)
  rw [smallFile_wanted_all, smallFile_size] at hcount
  exact absurd hcount (by decide)

end TateFirmware.Fat
