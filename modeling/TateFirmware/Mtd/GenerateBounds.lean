import TateFirmware.Mtd.Generate
import TateFirmware.Support.Memory

/-!
# The buffer of `generate_mtdparts`

`generate_mtdparts` counts what is left of its buffer before each text that it puts
there.  The nine bytes of `mtdparts=` at the start are not counted, so that the texts may
end behind the buffer, and a string that does not fit is taken for one that does.
-/

namespace TateFirmware.Mtd

open LibGeneric Support

/-! ## The source -/

/-- The texts one behind the other from `p` on, as long as they are counted to fit:
the buffer, where it ends, and whether all of them have fitted. -/
def putPiecesAt (buf : TrackedMemory UInt8) (p maxlen : ℕ) :
    List (List UInt8) → TrackedMemory UInt8 × ℕ × Bool
  | [] => (buf, p, true)
  | s :: ss =>
      if maxlen < s.length then (buf, p, false)
      else putPiecesAt (buf.copyIn p s) (p + s.length) (maxlen - s.length) ss

/-- `generate_mtdparts` with its buffer: what is in the buffer afterwards, and what is
returned. -/
def generateMtdpartsAt (devices : List MtdDevice) (buf : TrackedMemory UInt8)
    (buflen : ℕ) : TrackedMemory UInt8 × ℕ :=
  if devices = [] then (buf.store 0 0, 0)
  else
    let buf := buf.copyIn 0 (text "mtdparts=" ++ [0])
    match putPiecesAt buf 9 ((buflen + (2 ^ 32 - 1)) % 2 ^ 32) (devicesPieces devices) with
    | (buf, p, true) => (buf.store p 0, 0)
    | (buf, _, false) => (buf, 1)

/-- The complete string. -/
def mtdpartsString (devices : List MtdDevice) : List UInt8 :=
  if devices = [] then [] else text "mtdparts=" ++ (devicesPieces devices).flatten

/-- Only the buffer is written, and the string is there with a zero behind it exactly if
it fits. -/
structure GeneratesInside (devices : List MtdDevice) (buflen : ℕ) : Prop where
  inside : ∀ mem, (generateMtdpartsAt devices ⟨mem, 0⟩ buflen).1.high ≤ buflen
  returns : ∀ mem, ((generateMtdpartsAt devices ⟨mem, 0⟩ buflen).2 = 0 ∧
      Memory.Holds (generateMtdpartsAt devices ⟨mem, 0⟩ buflen).1.cell 0
        (mtdpartsString devices ++ [0])) ↔
    (mtdpartsString devices).length + 1 ≤ buflen

/-! ## Putting the texts -/

/-- How many bytes of the texts are put. -/
def putLength (maxlen : ℕ) : List (List UInt8) → ℕ
  | [] => 0
  | s :: ss =>
      if maxlen < s.length then 0 else s.length + putLength (maxlen - s.length) ss

theorem putLength_le (maxlen : ℕ) (pieces : List (List UInt8)) :
    putLength maxlen pieces ≤ maxlen := by
  induction pieces generalizing maxlen with
  | nil => exact Nat.zero_le _
  | cons s ss ih =>
      have hrest := ih (maxlen - s.length)
      rw [putLength]
      split
      · exact Nat.zero_le _
      · omega

/-- The texts that are put are the first ones. -/
theorem exists_putLength (maxlen : ℕ) (pieces : List (List UInt8)) :
    ∃ k ≤ pieces.length, ((pieces.take k).flatten).length = putLength maxlen pieces := by
  induction pieces generalizing maxlen with
  | nil => exact ⟨0, Nat.le_refl 0, rfl⟩
  | cons s ss ih =>
      rw [putLength]
      split
      · exact ⟨0, Nat.zero_le _, rfl⟩
      · obtain ⟨k, hk, hlen⟩ := ih (maxlen - s.length)
        refine ⟨k + 1, Nat.succ_le_succ hk, ?_⟩
        rw [List.take_succ_cons, List.flatten_cons, List.length_append, hlen]

/-- First texts that are counted to fit are put. -/
theorem le_putLength {maxlen k : ℕ} {pieces : List (List UInt8)}
    (h : ((pieces.take k).flatten).length ≤ maxlen) :
    ((pieces.take k).flatten).length ≤ putLength maxlen pieces := by
  induction pieces generalizing maxlen k with
  | nil => rw [List.take_nil]; exact Nat.zero_le _
  | cons s ss ih =>
      cases k with
      | zero => exact Nat.zero_le _
      | succ k =>
          rw [List.take_succ_cons, List.flatten_cons, List.length_append] at h ⊢
          have hfits : ((ss.take k).flatten).length ≤ maxlen - s.length := by omega
          have hrest := ih hfits
          rw [putLength, if_neg (by omega)]
          omega

/-- What `putPiecesAt` leaves of the buffer. -/
theorem putPiecesAt_spec {buf : TrackedMemory UInt8} {p maxlen : ℕ}
    (pieces : List (List UInt8)) (hhigh : p ≤ buf.high) {before : List UInt8}
    (hbefore : Memory.Holds buf.cell 0 before) (hp : before.length = p) :
    ∃ buf', putPiecesAt buf p maxlen pieces =
        (buf', p + putLength maxlen pieces, decide (pieces.flatten.length ≤ maxlen)) ∧
      buf'.high = max buf.high (p + putLength maxlen pieces) ∧
        (pieces.flatten.length ≤ maxlen →
          putLength maxlen pieces = pieces.flatten.length ∧
            Memory.Holds buf'.cell 0 (before ++ pieces.flatten)) := by
  induction pieces generalizing buf p maxlen before with
  | nil =>
      refine ⟨buf, rfl, (max_eq_left hhigh).symm, fun _ => ⟨rfl, ?_⟩⟩
      rwa [List.flatten_nil, List.append_nil]
  | cons s ss ih =>
      rw [putPiecesAt, putLength, List.flatten_cons, List.length_append]
      by_cases hfull : maxlen < s.length
      · rw [if_pos hfull, if_pos hfull]
        have hnot : ¬ s.length + ss.flatten.length ≤ maxlen := by omega
        exact ⟨buf, by rw [decide_eq_false hnot, Nat.add_zero], (max_eq_left hhigh).symm,
          fun h => absurd h hnot⟩
      · rw [if_neg hfull, if_neg hfull]
        have hcopied : (buf.copyIn p s).high = max buf.high (p + s.length) := by
          unfold TrackedMemory.copyIn
          dsimp only
          split
          · rename_i hnil
            rw [hnil, List.length_nil, Nat.add_zero, max_eq_left hhigh]
          · rfl
        have hholds : Memory.Holds (buf.copyIn p s).cell 0 (before ++ s) := by
          rw [TrackedMemory.copyIn_cell, ← hp]
          simpa only [Nat.zero_add] using hbefore.append_copyIn s
        have hnext : p + s.length ≤ (buf.copyIn p s).high := by
          rw [hcopied]
          exact le_max_right _ _
        have hlen : (before ++ s).length = p + s.length := by
          rw [List.length_append, hp]
        obtain ⟨buf', hput, hhigh', hall⟩ := @ih _ _ (maxlen - s.length) hnext _ hholds hlen
        refine ⟨buf', ?_, ?_, fun hfits => ?_⟩
        · rw [hput, Nat.add_assoc]
          have hfits : s.length + ss.flatten.length ≤ maxlen ↔
              ss.flatten.length ≤ maxlen - s.length := by omega
          rw [decide_eq_decide.mpr hfits]
        · rw [hhigh', hcopied]
          omega
        · obtain ⟨hlen, hheld⟩ := hall (by omega)
          rw [List.append_assoc] at hheld
          exact ⟨by rw [hlen], hheld⟩

theorem mtdparts_length : (text "mtdparts=").length = 9 := by decide

/-- What `generate_mtdparts` returns, how far it writes, and the string. -/
theorem generateMtdpartsAt_spec {devices : List MtdDevice} {buflen : ℕ}
    (hdevices : devices ≠ []) (hpos : 0 < buflen) (hlt : buflen < 2 ^ 32)
    (mem : Memory UInt8) :
    ((generateMtdpartsAt devices ⟨mem, 0⟩ buflen).2 = 0 ↔
        (devicesPieces devices).flatten.length ≤ buflen - 1) ∧
      (generateMtdpartsAt devices ⟨mem, 0⟩ buflen).1.high =
        max 10 (9 + putLength (buflen - 1) (devicesPieces devices) +
          if (devicesPieces devices).flatten.length ≤ buflen - 1 then 1 else 0) ∧
      ((devicesPieces devices).flatten.length ≤ buflen - 1 →
        Memory.Holds (generateMtdpartsAt devices ⟨mem, 0⟩ buflen).1.cell 0
          (mtdpartsString devices ++ [0])) := by
  have hmaxlen : (buflen + (2 ^ 32 - 1)) % 2 ^ 32 = buflen - 1 := by omega
  have hten : (TrackedMemory.copyIn ⟨mem, 0⟩ 0 (text "mtdparts=" ++ [0])).high = 10 := rfl
  have hstart : Memory.Holds
      (TrackedMemory.copyIn ⟨mem, 0⟩ 0 (text "mtdparts=" ++ [0])).cell 0
        (text "mtdparts=") :=
    (Memory.holds_append.mp (Memory.holds_copyIn mem 0 _)).1
  obtain ⟨buf, hput, hend, hall⟩ := @putPiecesAt_spec _ _ (buflen - 1)
    (devicesPieces devices) (by rw [hten]; decide) _ hstart mtdparts_length
  rw [hten] at hend
  by_cases hfits : (devicesPieces devices).flatten.length ≤ buflen - 1
  · have heq : generateMtdpartsAt devices ⟨mem, 0⟩ buflen =
        (buf.store (9 + putLength (buflen - 1) (devicesPieces devices)) 0, 0) := by
      unfold generateMtdpartsAt
      rw [if_neg hdevices]
      dsimp only
      rw [hmaxlen, hput, decide_eq_true hfits]
    obtain ⟨hlen, hheld⟩ := hall hfits
    rw [heq, if_pos hfits]
    refine ⟨iff_of_true rfl hfits, ?_, fun _ => ?_⟩
    · rw [TrackedMemory.store, hend]
      dsimp only
      omega
    · rw [mtdpartsString, if_neg hdevices, TrackedMemory.store_cell]
      refine (hheld.congr fun k _ hk => Memory.store_of_ne _ ?_).append
        (Memory.holds_singleton.mpr ?_)
      · rw [List.length_append, mtdparts_length] at hk
        omega
      · rw [List.length_append, mtdparts_length, hlen, Nat.zero_add, Memory.store_same]
  · have heq : generateMtdpartsAt devices ⟨mem, 0⟩ buflen = (buf, 1) := by
      unfold generateMtdpartsAt
      rw [if_neg hdevices]
      dsimp only
      rw [hmaxlen, hput, decide_eq_false hfits]
    rw [heq, if_neg hfits]
    exact ⟨iff_of_false Nat.one_ne_zero hfits, hend, fun h => absurd h hfits⟩

/-! ## The result -/

/-- The texts, as far as they are put one behind the other, end where the buffer has
room for the start of the string too. -/
def EndsInside (devices : List MtdDevice) (buflen : ℕ) : Prop :=
  (∀ k ≤ (devicesPieces devices).length,
    (((devicesPieces devices).take k).flatten).length + 8 < buflen ∨
      buflen ≤ (((devicesPieces devices).take k).flatten).length) ∧
  (devicesPieces devices).flatten.length + 9 ≠ buflen

/-- Texts that are counted to fit are put as a whole. -/
theorem putLength_of_fits {maxlen : ℕ} {pieces : List (List UInt8)}
    (h : pieces.flatten.length ≤ maxlen) :
    putLength maxlen pieces = pieces.flatten.length := by
  obtain ⟨k, -, hk⟩ := exists_putLength maxlen pieces
  have hall : ((pieces.take pieces.length).flatten).length ≤ maxlen := by
    rwa [List.take_length]
  have hput := le_putLength hall
  rw [List.take_length] at hput
  have hsplit := congrArg (fun l => l.flatten.length) (List.take_append_drop k pieces)
  simp only [List.flatten_append, List.length_append] at hsplit
  omega

theorem mtdpartsString_length {devices : List MtdDevice} (h : devices ≠ []) :
    (mtdpartsString devices).length = 9 + (devicesPieces devices).flatten.length := by
  rw [mtdpartsString, if_neg h, List.length_append, mtdparts_length]

/-- Without devices the string is empty. -/
theorem generatesInside_nil {buflen : ℕ} (hlen : 10 ≤ buflen) :
    GeneratesInside [] buflen := by
  constructor
  · intro mem
    show max 0 1 ≤ buflen
    omega
  · intro mem
    refine iff_of_true ⟨rfl, ?_⟩ (show 0 + 1 ≤ buflen by omega)
    exact Memory.holds_singleton.mpr (Memory.store_same mem 0 0)

/-- The end of the row of texts, if it is counted to fit. -/
theorem EndsInside.fits {devices : List MtdDevice} {buflen : ℕ}
    (h : EndsInside devices buflen)
    (hfits : (devicesPieces devices).flatten.length ≤ buflen - 1) (hpos : 0 < buflen) :
    (devicesPieces devices).flatten.length + 10 ≤ buflen := by
  have hall := h.1 _ (Nat.le_refl (devicesPieces devices).length)
  have hwhole := h.2
  rw [List.take_length] at hall
  omega

/-- `generate_mtdparts` stays in its buffer, and returns the string exactly if it fits,
exactly if no beginning of the row of texts ends in the last bytes of the buffer. -/
theorem generatesInside_iff {devices : List MtdDevice} {buflen : ℕ} (hlen : 10 ≤ buflen)
    (hlt : buflen < 2 ^ 32) :
    GeneratesInside devices buflen ↔ EndsInside devices buflen := by
  by_cases hdevices : devices = []
  · subst hdevices
    refine iff_of_true (generatesInside_nil hlen) ⟨fun k _ => Or.inl ?_, ?_⟩
    · rw [devicesPieces, List.take_nil]
      show 0 + 8 < buflen
      omega
    · show 0 + 9 ≠ buflen
      omega
  · have hspec := fun mem => generateMtdpartsAt_spec hdevices (by omega) hlt mem
    constructor
    · intro h
      have hinside := h.inside fun _ => 0
      rw [(hspec fun _ => 0).2.1] at hinside
      refine ⟨fun k _ => ?_, fun hwhole => ?_⟩
      · by_cases hk : (((devicesPieces devices).take k).flatten).length ≤ buflen - 1
        · have hput := le_putLength hk
          exact Or.inl (by omega)
        · exact Or.inr (by omega)
      · have hfits : (devicesPieces devices).flatten.length ≤ buflen - 1 := by omega
        rw [putLength_of_fits hfits, if_pos hfits] at hinside
        omega
    · intro h
      constructor
      · intro mem
        rw [(hspec mem).2.1]
        by_cases hfits : (devicesPieces devices).flatten.length ≤ buflen - 1
        · have hend := h.fits hfits (by omega)
          rw [putLength_of_fits hfits, if_pos hfits]
          omega
        · obtain ⟨k, hk, hput⟩ := exists_putLength (buflen - 1) (devicesPieces devices)
          have hle := putLength_le (buflen - 1) (devicesPieces devices)
          have hend := h.1 k hk
          rw [if_neg hfits]
          omega
      · intro mem
        rw [mtdpartsString_length hdevices, (hspec mem).1]
        constructor
        · rintro ⟨hfits, -⟩
          have hend := h.fits hfits (by omega)
          omega
        · intro hroom
          have hfits : (devicesPieces devices).flatten.length ≤ buflen - 1 := by omega
          exact ⟨hfits, (hspec mem).2.2 hfits⟩

/-- A device with one partition, whose name fills the buffer. -/
def longName : List MtdDevice :=
  [⟨0, ⟨.nor, 0, 2 ^ 20, mebibyte_lt, text "nor0"⟩, 1,
    [⟨0, List.replicate 495 (ch 'a'), false, 2 ^ 20, 0, 0⟩]⟩]

/-- Two devices: one with a read-only partition and a partition behind a gap, one with
a partition without a name of its own. -/
def bootAndData : List MtdDevice :=
  [⟨0, ⟨.nor, 0, 2 ^ 20, mebibyte_lt, text "nor0"⟩, 2,
      [⟨0, text "boot", false, 2 ^ 18, 0, 1⟩, ⟨1, text "env", false, 2 ^ 16, 2 ^ 19, 0⟩]⟩,
    ⟨1, ⟨.nand, 0, 2 ^ 20, mebibyte_lt, text "nand0"⟩, 1,
      [⟨2, text "0x00100000@0x00000000", true, 2 ^ 20, 0, 0⟩]⟩]

/-- The texts of both devices fit a buffer of 128 bytes. -/
theorem bootAndData_endsInside : EndsInside bootAndData 128 := by
  have hlen : (devicesPieces bootAndData).flatten.length = 40 := by decide +kernel
  refine ⟨fun k _ => Or.inl ?_, by rw [hlen]; decide⟩
  have hle := (List.take_sublist k (devicesPieces bootAndData)).flatten.length_le
  omega

theorem generatesInside_iff_bootAndData : GeneratesInside bootAndData 128 :=
  (generatesInside_iff (by decide) (by decide)).mpr bootAndData_endsInside

/-- The texts end within the last bytes of the buffer. -/
theorem longName_not_generatesInside : ¬ GeneratesInside longName 512 := by
  intro h
  have hinside := h.inside fun _ => 0
  have hlen : (devicesPieces longName).flatten.length = 504 := by decide +kernel
  have hfits : (devicesPieces longName).flatten.length ≤ 512 - 1 := by
    rw [hlen]
    decide
  rw [(generateMtdpartsAt_spec (by decide) (by decide) (by decide) fun _ => 0).2.1,
    putLength_of_fits hfits, if_pos hfits, hlen] at hinside
  exact absurd hinside (by decide)

end TateFirmware.Mtd
