import TateFirmware.Boot.Atags

/-!
# Walking the tags

Each setup function writes a tag whose size covers its payload, right behind
the tags that stand in memory already.  So `for_each_tag` finds the tags that
have been set up, in order.
-/

namespace TateFirmware.Boot

open LibGeneric Support

/-! ## Tags as records -/

/-- The size of a tag covers its payload, whose members do not overlap.  A
command line tag has the command line without leading blanks. -/
structure Tag.Wf (commandline : Option CommandLine) (t : Tag) : Prop where
  tag_lt : t.tag < 2 ^ 32
  size_lt : t.size < 2 ^ 32
  size_pos : 0 < t.size
  fits : (⟨4 * t.size - 8, t.payload⟩ : Record UInt8).Fits
  header : 2 ≤ t.size
  cmdline : t.tag = atagCmdline → ∃ line, commandline = some line ∧
    t.payload = [(0, eatBlanks line.1 ++ [0])]

variable {commandline : Option CommandLine}

/-- A tag as it stands in memory. -/
def Tag.record (t : Tag) : Record UInt8 where
  len := 4 * t.size
  parts := (4, leBytes t.tag) :: (0, leBytes t.size) ::
    t.payload.map fun part => (8 + part.1, part.2)

theorem Tag.Wf.record_fits {t : Tag} (h : t.Wf commandline) :
    t.record.Fits := by
  have hheader := h.header
  refine ⟨?_, ?_⟩
  · intro part hpart
    unfold Tag.record at hpart ⊢
    simp only [List.mem_cons, List.mem_map] at hpart
    rcases hpart with rfl | rfl | ⟨member, hmember, rfl⟩
    · simp only [leBytes_length]
      omega
    · simp only [leBytes_length]
      omega
    · have hwithin := h.fits.within member hmember
      dsimp only at hwithin ⊢
      omega
  · refine List.pairwise_cons.mpr ⟨?_, List.pairwise_cons.mpr ⟨?_, ?_⟩⟩
    · intro part hpart
      simp only [List.mem_cons, List.mem_map] at hpart
      rcases hpart with rfl | ⟨member, -, rfl⟩
      · exact Or.inr (by simp)
      · exact Or.inl (by simp)
    · intro part hpart
      obtain ⟨member, -, rfl⟩ := List.mem_map.mp hpart
      exact Or.inl (by simp; omega)
    · refine List.pairwise_map.mpr (h.fits.apart.imp ?_)
      intro a b hapart
      unfold Memory.Apart at hapart ⊢
      dsimp only
      omega

theorem writeParts_shift (m : Memory UInt8) (p d : ℕ)
    (parts : List (ℕ × List UInt8)) :
    m.writeParts p (parts.map fun part => (d + part.1, part.2)) =
      m.writeParts (p + d) parts := by
  induction parts generalizing m with
  | nil => rfl
  | cons part parts ih =>
      rw [List.map_cons, Memory.writeParts_cons, Memory.writeParts_cons, ih,
        Nat.add_assoc]

/-- A tag in memory. -/
structure TagAt (mem : Memory UInt8) (p : ℕ) (t : Tag) : Prop where
  size : mem.leWord p = t.size
  tag : mem.leWord (p + 4) = t.tag
  payload : mem.HoldsParts (p + 8) t.payload

theorem tagAt_of_record {mem : Memory UInt8} {p : ℕ} {t : Tag}
    (hwf : t.Wf commandline) (h : mem.HoldsParts p t.record.parts) :
    TagAt mem p t := by
  have htag := (h (4, leBytes t.tag) List.mem_cons_self).leWord
  have hsize := (h (0, leBytes t.size)
    (List.mem_cons_of_mem _ List.mem_cons_self)).leWord
  refine ⟨?_, ?_, ?_⟩
  · rw [Nat.mod_eq_of_lt hwf.size_lt] at hsize
    exact hsize
  · rw [Nat.mod_eq_of_lt hwf.tag_lt] at htag
    exact htag
  · intro part hpart
    have hmember := h (8 + part.1, part.2) (List.mem_cons_of_mem _
      (List.mem_cons_of_mem _ (List.mem_map.mpr ⟨part, hpart, rfl⟩)))
    rw [← Nat.add_assoc] at hmember
    exact hmember

/-! ## Setting up keeps the tags -/

/-- The tags set up so far stand in memory from `base` up to `params`. -/
structure Setup.Inv (commandline : Option CommandLine) (base : ℕ)
    (s : Setup) : Prop where
  wf : ∀ t ∈ s.tags, t.Wf commandline
  holds : s.mem.HoldsRecords base (s.tags.map Tag.record) s.params

theorem Setup.Inv.put {base : ℕ} {s : Setup} (h : s.Inv commandline base)
    {t : Tag} (ht : t.Wf commandline) : (s.put t).Inv commandline base := by
  have hmem : (s.put t).mem = s.mem.writeParts s.params t.record.parts := by
    unfold Tag.record
    rw [Memory.writeParts_cons, Memory.writeParts_cons, writeParts_shift]
    rfl
  have hrow := h.holds.writeParts ht.record_fits
  have hrecord := Memory.holdsParts_writeParts s.mem s.params
    ht.record_fits.apart
  have hat := tagAt_of_record ht hrecord
  have hparams : (s.put t).params = s.params + 4 * t.size := by
    change tagNext (s.put t).mem s.params = _
    rw [hmem, tagNext, hat.size]
  refine ⟨?_, ?_⟩
  · intro u hu
    rcases List.mem_append.mp hu with hu | hu
    · exact h.wf u hu
    · rw [List.mem_singleton.mp hu]
      exact ht
  · rw [hmem, hparams]
    change Memory.HoldsRecords _ _ ((s.tags ++ [t]).map Tag.record) _
    rw [List.map_append]
    exact hrow

/-- The first tag has been set up. -/
structure Setup.Started (commandline : Option CommandLine) (base : ℕ)
    (s : Setup) : Prop extends s.Inv commandline base where
  core : s.tags.head?.map Tag.tag = some atagCore

theorem Setup.Started.put {base : ℕ} {s : Setup}
    (h : s.Started commandline base) {t : Tag} (ht : t.Wf commandline) :
    (s.put t).Started commandline base := by
  refine ⟨h.toInv.put ht, ?_⟩
  have hcore := h.core
  change ((s.tags ++ [t]).head?).map Tag.tag = some atagCore
  cases htags : s.tags with
  | nil =>
      rw [htags] at hcore
      cases hcore
  | cons first rest =>
      rw [htags] at hcore
      exact hcore

theorem configured_started {base : ℕ} {s : Setup}
    (h : s.Started commandline base)
    (switch : Bool) {setup : Setup → Setup}
    (hsetup : (setup s).Started commandline base) :
    (configured switch setup s).Started commandline base := by
  unfold configured
  split
  · exact hsetup
  · exact h

/-! ## The setup functions -/

/-- A tag whose payload is one member. -/
theorem wf_single {tag size : ℕ} {bytes : List UInt8}
    (htag : tag < 2 ^ 32) (hother : tag ≠ atagCmdline) (hsize : size < 2 ^ 32)
    (hlen : 8 + bytes.length ≤ 4 * size) :
    (⟨tag, size, [(0, bytes)]⟩ : Tag).Wf commandline := by
  have hheader : 2 ≤ size := by omega
  have hpos : 0 < size := by omega
  refine ⟨htag, hsize, hpos, ⟨?_, List.pairwise_singleton _ _⟩, hheader,
    fun htag => absurd htag hother⟩
  intro part hpart
  rw [List.mem_singleton.mp hpart]
  dsimp only
  omega

/-- A tag whose payload is two members. -/
theorem wf_pair {tag size i j : ℕ} {xs ys : List UInt8}
    (htag : tag < 2 ^ 32) (hother : tag ≠ atagCmdline) (hsize : size < 2 ^ 32)
    (hheader : 2 ≤ size)
    (hxs : 8 + i + xs.length ≤ 4 * size) (hys : 8 + j + ys.length ≤ 4 * size)
    (hapart : Memory.Apart (i, xs) (j, ys)) :
    (⟨tag, size, [(i, xs), (j, ys)]⟩ : Tag).Wf commandline := by
  have hpos : 0 < size := by omega
  refine ⟨htag, hsize, hpos, ⟨?_, ?_⟩, hheader,
    fun htag => absurd htag hother⟩
  · intro part hpart
    rcases List.mem_pair.mp hpart with rfl | rfl
    · dsimp only
      omega
    · dsimp only
      omega
  · exact List.pairwise_pair.mpr hapart

/-- A tag whose payload is three members. -/
theorem wf_triple {tag size i j k : ℕ} {xs ys zs : List UInt8}
    (htag : tag < 2 ^ 32) (hother : tag ≠ atagCmdline) (hsize : size < 2 ^ 32)
    (hheader : 2 ≤ size)
    (hxs : i + xs.length ≤ j) (hys : j + ys.length ≤ k)
    (hzs : 8 + k + zs.length ≤ 4 * size) :
    (⟨tag, size, [(i, xs), (j, ys), (k, zs)]⟩ : Tag).Wf commandline := by
  have hpos : 0 < size := by omega
  refine ⟨htag, hsize, hpos, ⟨?_, ?_⟩, hheader,
    fun htag => absurd htag hother⟩
  · intro part hpart
    simp only [List.mem_cons, List.not_mem_nil, or_false] at hpart
    rcases hpart with rfl | rfl | rfl
    · dsimp only
      omega
    · dsimp only
      omega
    · dsimp only
      omega
  · refine List.pairwise_cons.mpr ⟨?_, List.pairwise_pair.mpr (Or.inl hys)⟩
    intro part hpart
    rcases List.mem_pair.mp hpart with rfl | rfl
    · exact Or.inl hxs
    · exact Or.inl (by dsimp only; omega)

theorem eatBlanks_length_le (commandline : List UInt8) :
    (eatBlanks commandline).length ≤ commandline.length :=
  (List.length_dropWhile_le _ _).trans (List.takeWhile_prefix _).length_le

section Functions

theorem setupStartTag_started (bd : BdInfo) (mem : Memory UInt8) :
    (setupStartTag bd mem).Started commandline bd.biBootParams := by
  have hempty :
      Setup.Inv commandline bd.biBootParams ⟨mem, bd.biBootParams, []⟩ :=
    ⟨fun t ht => absurd ht List.not_mem_nil, rfl⟩
  exact ⟨hempty.put (wf_triple (by decide) (by decide) (by decide)
    (by decide) (by simp) (by simp) (by simp [tagSize])), rfl⟩

variable {base : ℕ} {s : Setup} (get : Getters)
  (h : s.Started commandline base)

include h

theorem setupSerialTag_started :
    (setupSerialTag get s).Started commandline base :=
  h.put (wf_pair (by decide) (by decide) (by decide)
    (by decide) (by simp [tagSize]) (by simp [tagSize]) (Or.inl (by simp)))

theorem setupRevisionTag_started :
    (setupRevisionTag get s).Started commandline base :=
  h.put (wf_single (by decide) (by decide) (by decide) (by simp [tagSize]))

theorem setupRevision16Tag_started :
    (setupRevision16Tag get s).Started commandline base := by
  unfold setupRevision16Tag
  split
  · exact h
  · exact h.put (wf_single (by decide) (by decide) (by decide)
      (by simp [tagSize]))

theorem setupSerial16Tag_started :
    (setupSerial16Tag get s).Started commandline base := by
  unfold setupSerial16Tag
  split
  · exact h
  · exact h.put (wf_single (by decide) (by decide) (by decide)
      (by simp [tagSize]))

theorem setupMacaddrTag_started :
    (setupMacaddrTag get s).Started commandline base := by
  unfold setupMacaddrTag
  split
  · exact h.put (wf_triple (by decide) (by decide) (by decide)
      (by decide) (by simp) (by simp) (by simp [tagSize]))
  · exact h

theorem setupBootmodeTag_started :
    (setupBootmodeTag get s).Started commandline base := by
  unfold setupBootmodeTag
  split
  · exact h.put (wf_pair (by decide) (by decide) (by decide)
      (by decide) (by simp [tagSize]) (by simp [tagSize]) (Or.inl (by simp)))
  · exact h

theorem setupGyrocalTag_started :
    (setupGyrocalTag get s).Started commandline base := by
  unfold setupGyrocalTag
  split
  · exact h
  · exact h.put (wf_single (by decide) (by decide) (by decide)
      (by simp [tagSize]))

theorem setupMemoryTags_started (bd : BdInfo) :
    (setupMemoryTags bd s).Started commandline base := by
  unfold setupMemoryTags
  generalize bd.biDram = banks
  induction banks generalizing s with
  | nil => exact h
  | cons bank banks ih =>
      refine ih (h.put ?_)
      exact wf_pair (by decide) (by decide) (by decide)
        (by decide) (by simp [tagSize]) (by simp [tagSize]) (Or.inr (by simp))

theorem setupCommandlineTag_started :
    (setupCommandlineTag commandline s).Started commandline base := by
  unfold setupCommandlineTag
  split
  · exact h
  rename_i line
  dsimp only
  split
  · exact h
  · have hle := eatBlanks_length_le line.1
    have hline := line.2
    have hsize : (8 + (eatBlanks line.1).length + 1 + 4) / 4 < 2 ^ 32 := by
      omega
    have hpos : 2 ≤ (8 + (eatBlanks line.1).length + 1 + 4) / 4 := by omega
    have hpos' : 0 < (8 + (eatBlanks line.1).length + 1 + 4) / 4 := by omega
    have htag : atagCmdline < 2 ^ 32 := by decide
    refine h.put ⟨htag, hsize, hpos',
      ⟨?_, List.pairwise_singleton _ _⟩, hpos,
      fun _ => ⟨line, rfl, rfl⟩⟩
    intro part hpart
    rw [List.mem_singleton.mp hpart]
    simp only [List.length_append, List.length_singleton]
    omega

theorem setupInitrdTag_started (initrdStart initrdEnd : ℕ) :
    (setupInitrdTag initrdStart initrdEnd s).Started commandline base :=
  h.put (wf_pair (by decide) (by decide) (by decide)
    (by decide) (by simp [tagSize]) (by simp [tagSize]) (Or.inl (by simp)))

theorem setupVideolfbTag_started :
    (setupVideolfbTag get s).Started commandline base :=
  h.put (wf_pair (by decide) (by decide) (by decide)
    (by decide) (by simp [tagSize]) (by simp [tagSize]) (Or.inl (by simp)))

end Functions

theorem setupTags_started (cfg : AtagConfig) (bd : BdInfo) (get : Getters)
    (commandline : Option CommandLine) (mem : Memory UInt8) :
    (setupTags cfg bd get commandline mem).Started commandline
      bd.biBootParams := by
  have h := @setupStartTag_started commandline bd mem
  have h := configured_started h cfg.serialTag
    (setupSerialTag_started get h)
  have h := configured_started h cfg.revisionTag
    (setupRevisionTag_started get h)
  have h := configured_started h cfg.revision16Tag
    (setupRevision16Tag_started get h)
  have h := configured_started h cfg.serial16Tag
    (setupSerial16Tag_started get h)
  have h := configured_started h cfg.macaddrTag
    (setupMacaddrTag_started get h)
  have h := configured_started h cfg.bootmodeTag
    (setupBootmodeTag_started get h)
  have h := configured_started h cfg.gyrocalTag
    (setupGyrocalTag_started get h)
  exact setupCommandlineTag_started (setupMemoryTags_started h bd)

/-! ## Walking -/

/-- The walk from `base` visits the tags in order and ends in `ATAG_NONE`. -/
structure Walks (mem : Memory UInt8) (base : ℕ) (tags : List Tag) : Prop where
  visits : ∀ extra, ∃ visited last,
    forEachTag mem (tags.length + 1 + extra) base = some (visited, last) ∧
      List.Forall₂ (TagAt mem) visited tags ∧
      mem.leWord last = 0 ∧ mem.leWord (last + 4) = atagNone

theorem forEachTag_of_records {mem : Memory UInt8} {base last : ℕ}
    {tags : List Tag} (hwf : ∀ t ∈ tags, t.Wf commandline)
    (h : mem.HoldsRecords base (tags.map Tag.record) last)
    (hlast : mem.leWord last = 0) (extra : ℕ) :
    ∃ visited, forEachTag mem (tags.length + 1 + extra) base =
        some (visited, last) ∧
      List.Forall₂ (TagAt mem) visited tags := by
  induction tags generalizing base with
  | nil =>
      have hbase : base = last := h
      subst hbase
      refine ⟨[], ?_, List.Forall₂.nil⟩
      rw [List.length_nil, Nat.add_right_comm, forEachTag, if_pos hlast]
  | cons t tags ih =>
      obtain ⟨⟨-, hparts⟩, hrest⟩ := h
      have ht := hwf t List.mem_cons_self
      have hat := tagAt_of_record ht hparts
      obtain ⟨visited, hwalk, htags⟩ :=
        ih (fun u hu => hwf u (List.mem_cons_of_mem t hu)) hrest
      refine ⟨base :: visited, ?_, List.Forall₂.cons hat htags⟩
      have hsize := ht.size_pos
      have hnext : tagNext mem base = base + t.record.len := by
        rw [tagNext, hat.size]
        rfl
      rw [List.length_cons, Nat.add_right_comm, forEachTag,
        if_neg (by rw [hat.size]; omega), hnext, hwalk]
      rfl

theorem setupEndTag_walks {base : ℕ} {s : Setup}
    (h : s.Inv commandline base) :
    Walks (setupEndTag s).mem base s.tags := by
  have hmem : (setupEndTag s).mem = s.mem.writeParts s.params
      [(4, leBytes atagNone), (0, leBytes 0)] := rfl
  have hapart : List.Pairwise Memory.Apart
      [(4, leBytes atagNone), (0, leBytes 0)] :=
    List.pairwise_pair.mpr (Or.inr (by simp))
  have hend := Memory.holdsParts_writeParts s.mem s.params hapart
  have hrow : (setupEndTag s).mem.HoldsRecords base (s.tags.map Tag.record)
      s.params := by
    refine h.holds.congr ?_
    intro k _ hlt
    rw [hmem]
    apply Memory.writeParts_of_outside
    intro part _
    exact Or.inl (by omega)
  rw [← hmem] at hend
  have hnone := (hend (4, leBytes atagNone) List.mem_cons_self).leWord
  have hzero := (hend (0, leBytes 0)
    (List.mem_cons_of_mem _ List.mem_cons_self)).leWord
  refine ⟨fun extra => ?_⟩
  obtain ⟨visited, hwalk, htags⟩ :=
    forEachTag_of_records h.wf hrow hzero extra
  exact ⟨visited, s.params, hwalk, htags, hzero, hnone⟩

/-- The tags that have been set up can be walked from `ATAG_CORE` on. -/
structure Setup.Booted (commandline : Option CommandLine) (bd : BdInfo)
    (s : Setup) : Prop where
  walks : Walks s.mem bd.biBootParams s.tags
  core : s.tags.head?.map Tag.tag = some atagCore
  cmdline : ∀ t ∈ s.tags, t.tag = atagCmdline →
    ∃ line, commandline = some line ∧
      t.payload = [(0, eatBlanks line.1 ++ [0])]

theorem setupInitrd_started {base : ℕ} {s : Setup}
    (h : s.Started commandline base) (initrdStart initrdEnd : ℕ) (c : Prop)
    [Decidable c] :
    (if c then setupInitrdTag initrdStart initrdEnd s else s).Started
      commandline base := by
  split
  · exact setupInitrdTag_started h initrdStart initrdEnd
  · exact h

theorem setupEndTag_booted {bd : BdInfo} {s : Setup}
    (h : s.Started commandline bd.biBootParams) :
    (setupEndTag s).Booted commandline bd :=
  ⟨setupEndTag_walks h.toInv, h.core, fun t ht => (h.wf t ht).cmdline⟩

/-- Whatever the getters return, the kernel finds the tags that have been set
up, each with its payload. -/
theorem linuxTags_booted (cfg : AtagConfig) (bd : BdInfo) (get : Getters)
    (commandline : Option CommandLine) (data len : ℕ) (hdr : BootImgHdr)
    (mem : Memory UInt8) :
    (bootmLinuxTags cfg bd get commandline data len mem).Booted
        commandline bd ∧
      (bootiLinuxTags cfg bd get hdr mem).Booted (some hdr.cmdline) bd := by
  constructor
  · have h := setupTags_started cfg bd get commandline mem
    have hinitrd := setupInitrd_started h (if data ≠ 0 then data else 0)
      (if data ≠ 0 then (data + len) % 2 ^ 32 else 0)
      ((if data ≠ 0 then data else 0) ≠ 0 ∧
        (if data ≠ 0 then (data + len) % 2 ^ 32 else 0) ≠ 0)
    exact setupEndTag_booted (configured_started hinitrd cfg.videolfbTag
      (setupVideolfbTag_started get hinitrd))
  · have h := setupTags_started cfg bd get (some hdr.cmdline) mem
    have hinitrd := setupInitrd_started h hdr.ramdiskAddr
      ((hdr.ramdiskAddr + hdr.ramdiskSize) % 2 ^ 32) (hdr.ramdiskSize ≠ 0)
    exact setupEndTag_booted (configured_started hinitrd cfg.videolfbTag
      (setupVideolfbTag_started get hinitrd))

end TateFirmware.Boot
