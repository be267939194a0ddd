import TateFirmware.Flash.Banks

/-!
# Ranges of whole sectors

A range of addresses, up to but not including `z`, is made of whole sectors of banks that
stand in a table in the order of their addresses.  Going through the table, that is a walk:
from a sector of a bank to the end of the range, or to the end of the bank, where a later
bank goes on.
-/

namespace TateFirmware.Flash

namespace FlashInfo

variable (info : FlashInfo)

/-- A sector of a known bank inside a range. -/
def SectorIn (a z i : ℕ) : Prop :=
  info.known = true ∧ i < info.sectorCount.toNat ∧ a ≤ (info.start i).toNat ∧
    info.sectorNext i ≤ z

/-- A sector starts at an address. -/
def SectorAt (a : ℕ) : Prop := ∃ i < info.sectorCount.toNat, (info.start i).toNat = a

/-- A sector ends in front of an address. -/
def SectorEnd (z : ℕ) : Prop := ∃ i < info.sectorCount.toNat, info.sectorNext i = z

/-- A known bank has an address in a range. -/
def Meets (a z : ℕ) : Prop := info.known = true ∧ ∃ x, a ≤ x ∧ x < z ∧ info.Covers x

end FlashInfo

/-- A range is a union of sectors of known banks. -/
def WholeSectors (flashInfo : List FlashInfo) (a z : ℕ) : Prop :=
  ∀ x, a ≤ x → x < z →
    ∃ info ∈ flashInfo, ∃ i, info.SectorIn a z i ∧ info.SectorCovers i x

/-- The known banks that a range meets stand in the order of their addresses. -/
def InOrder (flashInfo : List FlashInfo) (a z : ℕ) : Prop :=
  flashInfo.Pairwise fun info other =>
    info.Meets a z → other.Meets a z → info.first < other.first

/-- A walk through banks in their order, from the start of a sector to the end of one. -/
def Walks : List FlashInfo → ℕ → ℕ → Prop
  | [], _, _ => False
  | info :: rest, a, z =>
      (info.known = true ∧ info.SectorAt a ∧
        (a < z ∧ info.SectorEnd z ∨ info.next < z ∧ Walks rest info.next z)) ∨
        Walks rest a z

namespace FlashInfo

variable {info : FlashInfo} {a z i x : ℕ}

theorem SectorAt.covers (h : info.Layout) (ha : info.SectorAt a) : info.Covers a := by
  obtain ⟨i, hi, rfl⟩ := ha
  exact SectorCovers.covers h hi ⟨le_rfl, h.ascending i hi⟩

/-- The end of a sector is behind an address of the bank. -/
theorem SectorEnd.covers (h : info.Layout) (hz : info.SectorEnd z) :
    0 < z ∧ info.Covers (z - 1) := by
  obtain ⟨i, hi, rfl⟩ := hz
  have hlt := h.ascending i hi
  exact ⟨by omega, SectorCovers.covers h hi ⟨by omega, by omega⟩⟩

theorem sectorEnd_next (h : info.Layout) : info.SectorEnd info.next := by
  have hpos := h.count_pos
  exact ⟨info.sectorCount.toNat - 1, by omega, info.sectorNext_last (by omega)⟩

theorem SectorIn.covers_start (h : info.Layout) (hin : info.SectorIn a z i) :
    info.Covers (info.start i).toNat ∧ (info.start i).toNat < z :=
  ⟨SectorCovers.covers h hin.2.1 ⟨le_rfl, h.ascending i hin.2.1⟩,
    (h.ascending i hin.2.1).trans_le hin.2.2.2⟩

/-- No sector lies across the start of another one. -/
theorem le_start_of_sectorAt (h : info.Layout) (ha : info.SectorAt a)
    (hi : i < info.sectorCount.toNat) (hx : info.SectorCovers i x) (hle : a ≤ x) :
    a ≤ (info.start i).toNat := by
  obtain ⟨j, hj, rfl⟩ := ha
  rw [start_le_iff h hj hi]
  by_contra hij
  have := sectorNext_le_start h (not_le.mp hij) hj
  have := hx.2
  omega

theorem sectorNext_le_of_sectorEnd (h : info.Layout) (hz : info.SectorEnd z)
    (hi : i < info.sectorCount.toNat) (hx : info.SectorCovers i x) (hlt : x < z) :
    info.sectorNext i ≤ z := by
  obtain ⟨j, hj, rfl⟩ := hz
  rw [sectorNext_le_iff h hi hj]
  by_contra hji
  have := sectorNext_le_start h (not_le.mp hji) hi
  have := hx.1
  omega

/-- From the start of a sector to the end of one, a bank consists of whole sectors. -/
theorem exists_sectorIn (h : info.Layout) (hknown : info.known = true)
    (ha : info.SectorAt a) (hz : info.SectorEnd z) (hle : a ≤ x) (hlt : x < z) :
    ∃ i, info.SectorIn a z i ∧ info.SectorCovers i x := by
  have hlow := (ha.covers h).1
  obtain ⟨hpos, -, hhigh⟩ := hz.covers h
  obtain ⟨i, hi, hx⟩ := exists_sectorCovers h (x := x) ⟨by omega, by omega⟩
  exact ⟨i, ⟨hknown, hi, le_start_of_sectorAt h ha hi hx hle,
    sectorNext_le_of_sectorEnd h hz hi hx hlt⟩, hx⟩

/-- A bank is an interval. -/
theorem Covers.between {y w : ℕ} (hx : info.Covers x) (hy : info.Covers y) (hxw : x ≤ w)
    (hwy : w ≤ y) : info.Covers w :=
  ⟨hx.1.trans hxw, hwy.trans_lt hy.2⟩

end FlashInfo

/-! ## Banks of a range -/

section Banks

variable {info : FlashInfo} {rest flashInfo : List FlashInfo} {a z x : ℕ}

theorem LaidOut.tail (h : LaidOut (info :: rest)) : LaidOut rest :=
  ⟨fun other hmem => h.layout other (List.mem_cons_of_mem _ hmem),
    (List.pairwise_cons.mp h.apart).2⟩

theorem LaidOut.head_apart (h : LaidOut (info :: rest)) {other : FlashInfo}
    (hmem : other ∈ rest) (hknown : info.known = true) (hknown' : other.known = true)
    (hx : info.Covers x) : ¬ other.Covers x :=
  (List.pairwise_cons.mp h.apart).1 other hmem hknown hknown' x hx

/-- Each address of the range is in a known bank. -/
theorem WholeSectors.covered (h : WholeSectors flashInfo a z) (hlaid : LaidOut flashInfo)
    (hle : a ≤ x) (hlt : x < z) :
    ∃ info ∈ flashInfo, info.known = true ∧ info.Covers x := by
  obtain ⟨info, hmem, i, hin, hx⟩ := h x hle hlt
  exact ⟨info, hmem, hin.1, hx.covers (hlaid.layout info hmem hin.1) hin.2.1⟩

/-- A range that later banks make up does not meet the bank in front of them. -/
theorem WholeSectors.not_meets (h : WholeSectors rest a z) (hlaid : LaidOut (info :: rest)) :
    ¬ info.Meets a z := by
  rintro ⟨hknown, x, hle, hlt, hx⟩
  obtain ⟨other, hmem, hknown', hx'⟩ := h.covered hlaid.tail hle hlt
  exact hlaid.head_apart hmem hknown hknown' hx hx'

/-- A bank that holds all addresses of a range is the only one that the range meets. -/
theorem LaidOut.rest_not_meets (h : LaidOut (info :: rest)) (hknown : info.known = true)
    (hall : ∀ x, a ≤ x → x < z → info.Covers x) {other : FlashInfo} (hmem : other ∈ rest) :
    ¬ other.Meets a z := by
  rintro ⟨hknown', x, hle, hlt, hx⟩
  exact h.head_apart hmem hknown hknown' (hall x hle hlt) hx

theorem Walks.lt (h : Walks flashInfo a z) (hlaid : LaidOut flashInfo) : a < z := by
  induction flashInfo generalizing a with
  | nil => exact h.elim
  | cons info rest ih =>
      rcases h with ⟨hknown, hat, ⟨hlt, -⟩ | ⟨hnext, -⟩⟩ | hrest
      · exact hlt
      · exact (hat.covers (hlaid.layout info List.mem_cons_self hknown)).2.trans hnext
      · exact ih hrest hlaid.tail

/-- Behind a bank, a range meets the same later banks. -/
theorem LaidOut.meets_next (h : LaidOut (info :: rest)) (hknown : info.known = true)
    (ha : info.Covers a) {other : FlashInfo} (hmem : other ∈ rest)
    (hmeets : other.Meets a z) : other.Meets info.next z ∧ info.next ≤ other.first := by
  obtain ⟨hknown', x, hle, hlt, hx⟩ := hmeets
  have hnot : ∀ y, info.Covers y → ¬ other.Covers y :=
    fun y hy => h.head_apart hmem hknown hknown' hy
  have hhigh := ha.2
  have hnext : info.next ≤ x := by
    by_contra hlt'
    exact hnot x ⟨ha.1.trans hle, by omega⟩ hx
  have hfirst : info.next ≤ other.first := by
    by_contra hlt'
    exact hnot (info.next - 1) ⟨by have := ha.1; omega, by omega⟩
      ⟨by omega, by have := hx.2; omega⟩
  exact ⟨⟨hknown', x, hnext, hlt, hx⟩, hfirst⟩

theorem Walks.whole (h : Walks flashInfo a z) (hlaid : LaidOut flashInfo) :
    WholeSectors flashInfo a z := by
  induction flashInfo generalizing a with
  | nil => exact h.elim
  | cons info rest ih =>
      intro x hle hlt
      rcases h with ⟨hknown, hat, ⟨-, hend⟩ | ⟨hnext, hrest⟩⟩ | hrest
      · have hl := hlaid.layout info List.mem_cons_self hknown
        exact ⟨info, List.mem_cons_self,
          FlashInfo.exists_sectorIn hl hknown hat hend hle hlt⟩
      · have hl := hlaid.layout info List.mem_cons_self hknown
        have hhigh := (hat.covers hl).2
        by_cases hx : x < info.next
        · obtain ⟨i, ⟨hk, hi, hlow, hin⟩, hcovers⟩ := FlashInfo.exists_sectorIn hl hknown
            hat (FlashInfo.sectorEnd_next hl) hle hx
          exact ⟨info, List.mem_cons_self, i, ⟨hk, hi, hlow, by omega⟩, hcovers⟩
        · obtain ⟨other, hmem, i, ⟨hk, hi, hlow, hin⟩, hcovers⟩ :=
            ih hrest hlaid.tail x (not_lt.mp hx) hlt
          exact ⟨other, List.mem_cons_of_mem _ hmem, i, ⟨hk, hi, by omega, hin⟩, hcovers⟩
      · obtain ⟨other, hmem, hother⟩ := ih hrest hlaid.tail x hle hlt
        exact ⟨other, List.mem_cons_of_mem _ hmem, hother⟩

theorem Walks.inOrder (h : Walks flashInfo a z) (hlaid : LaidOut flashInfo) :
    InOrder flashInfo a z := by
  induction flashInfo generalizing a with
  | nil => exact h.elim
  | cons info rest ih =>
      refine List.pairwise_cons.mpr ?_
      rcases h with ⟨hknown, hat, ⟨-, hend⟩ | ⟨hnext, hrest⟩⟩ | hrest
      · have hl := hlaid.layout info List.mem_cons_self hknown
        have hall : ∀ x, a ≤ x → x < z → info.Covers x := by
          intro x hle hlt
          exact (hat.covers hl).between (hend.covers hl).2 hle (by omega)
        have hnone := fun other (hmem : other ∈ rest) =>
          hlaid.rest_not_meets hknown hall hmem
        refine ⟨fun other hmem _ hmeets => absurd hmeets (hnone other hmem), ?_⟩
        exact List.pairwise_of_forall_mem_list fun other hmem _ _ hmeets _ =>
          absurd hmeets (hnone other hmem)
      · have hl := hlaid.layout info List.mem_cons_self hknown
        have hmeets := fun other (hmem : other ∈ rest) (h : other.Meets a z) =>
          hlaid.meets_next hknown (hat.covers hl) hmem h
        refine ⟨fun other hmem _ h => ?_, ?_⟩
        · exact (FlashInfo.first_lt_next hl).trans_le (hmeets other hmem h).2
        · refine (ih hrest hlaid.tail).imp_of_mem fun hmem hmem' himp h h' => ?_
          exact himp (hmeets _ hmem h).1 (hmeets _ hmem' h').1
      · refine ⟨fun other hmem h _ => ?_, ih hrest hlaid.tail⟩
        exact absurd h ((hrest.whole hlaid.tail).not_meets hlaid)

/-- Later banks make up a range that the bank in front of them is not met by. -/
theorem WholeSectors.tail (h : WholeSectors (info :: rest) a z)
    (hlaid : LaidOut (info :: rest)) (hnot : ¬ info.Meets a z) : WholeSectors rest a z := by
  intro x hle hlt
  obtain ⟨other, hmem, i, hin, hx⟩ := h x hle hlt
  rcases List.mem_cons.mp hmem with rfl | hmem
  · have hl := hlaid.layout other List.mem_cons_self hin.1
    exact absurd ⟨hin.1, x, hle, hlt, hx.covers hl hin.2.1⟩ hnot
  · exact ⟨other, hmem, i, hin, hx⟩

/-- Behind the first bank, later ones make up the rest of a range. -/
theorem WholeSectors.behind (h : WholeSectors (info :: rest) a z)
    (hlaid : LaidOut (info :: rest)) (hknown : info.known = true) (ha : info.Covers a) :
    WholeSectors rest info.next z := by
  intro x hle hlt
  have hhigh := ha.2
  obtain ⟨other, hmem, i, hin, hx⟩ := h x (by omega) hlt
  have hl := hlaid.layout other hmem hin.1
  rcases List.mem_cons.mp hmem with rfl | hmem
  · exact absurd (hx.covers hl hin.2.1).2 (not_lt.mpr hle)
  · obtain ⟨hcovers, hltz⟩ := hin.covers_start hl
    have hmeets : other.Meets a z := ⟨hin.1, _, hin.2.2.1, hltz, hcovers⟩
    have hfirst := (hlaid.meets_next hknown ha hmem hmeets).2
    exact ⟨other, hmem, i, ⟨hin.1, hin.2.1, hfirst.trans hcovers.1, hin.2.2.2⟩, hx⟩

theorem walks_of_whole (hlaid : LaidOut flashInfo) (hlt : a < z)
    (hwhole : WholeSectors flashInfo a z) (horder : InOrder flashInfo a z) :
    Walks flashInfo a z := by
  induction flashInfo generalizing a with
  | nil =>
      obtain ⟨info, hmem, -⟩ := hwhole a le_rfl hlt
      exact absurd hmem List.not_mem_nil
  | cons info rest ih =>
      obtain ⟨hbefore, horder'⟩ := List.pairwise_cons.mp horder
      by_cases hmeets : info.Meets a z
      · -- the bank is the lowest one that the range meets, so that the range starts in it
        left
        obtain ⟨hknown, x, hle, hxz, hx⟩ := hmeets
        have hl := hlaid.layout info List.mem_cons_self hknown
        have hstart : info.Covers a ∧ info.SectorAt a := by
          obtain ⟨other, hmem, i, hin, hcovers⟩ := hwhole a le_rfl hlt
          have hl' := hlaid.layout other hmem hin.1
          have hcovers' := hcovers.covers hl' hin.2.1
          rcases List.mem_cons.mp hmem with rfl | hmem
          · exact ⟨hcovers', i, hin.2.1, le_antisymm hcovers.1 hin.2.2.1⟩
          · have hfirst := hbefore other hmem ⟨hknown, x, hle, hxz, hx⟩
              ⟨hin.1, a, le_rfl, hlt, hcovers'⟩
            have hcover : info.Covers a :=
              ⟨(hfirst.trans_le hcovers'.1).le, hle.trans_lt hx.2⟩
            exact absurd hcovers' (hlaid.head_apart hmem hknown hin.1 hcover)
        refine ⟨hknown, hstart.2, ?_⟩
        by_cases hnext : info.next < z
        · refine Or.inr ⟨hnext, ih hlaid.tail hnext
            (hwhole.behind hlaid hknown hstart.1) ?_⟩
          refine horder'.imp_of_mem fun hmem hmem' himp h h' => ?_
          have hback : ∀ {other : FlashInfo}, other.Meets info.next z → other.Meets a z := by
            rintro other ⟨hk, y, hy, hyz, hcy⟩
            exact ⟨hk, y, hstart.1.2.le.trans hy, hyz, hcy⟩
          exact himp (hback h) (hback h')
        · -- the last address of the range is in the bank too
          obtain ⟨other, hmem, i, hin, hcovers⟩ := hwhole (z - 1) (by omega) (by omega)
          have hl' := hlaid.layout other hmem hin.1
          have hcovers' := hcovers.covers hl' hin.2.1
          have hcover : info.Covers (z - 1) := ⟨hstart.1.1.trans (by omega), by omega⟩
          rcases List.mem_cons.mp hmem with rfl | hmem
          · have hhigh := hcovers.2
            exact Or.inl ⟨hlt, i, hin.2.1, le_antisymm hin.2.2.2 (by omega)⟩
          · exact absurd hcovers' (hlaid.head_apart hmem hknown hin.1 hcover)
      · exact Or.inr (ih hlaid.tail hlt (hwhole.tail hlaid hmeets) horder')

/-- Walks go along the ranges of whole sectors of banks in the order of their
addresses. -/
theorem walks_iff (hlaid : LaidOut flashInfo) (hlt : a < z) :
    Walks flashInfo a z ↔ WholeSectors flashInfo a z ∧ InOrder flashInfo a z :=
  ⟨fun h => ⟨h.whole hlaid, h.inOrder hlaid⟩,
    fun ⟨hwhole, horder⟩ => walks_of_whole hlaid hlt hwhole horder⟩

end Banks

end TateFirmware.Flash
