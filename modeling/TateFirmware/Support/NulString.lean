import TateFirmware.Support.Fuel
import TateFirmware.Support.Memory

/-!
# Strings in memory

A string stands in memory up to the first NUL byte.  Reading it takes as much fuel as
it is long.
-/

namespace TateFirmware.Support

namespace Memory

/-- The string at an address. -/
def strAt (m : Memory UInt8) (p : ℕ) : ℕ → Option (List UInt8)
  | 0 => none
  | fuel + 1 => if m p = 0 then some [] else (strAt m (p + 1) fuel).map (m p :: ·)

theorem strAt_stable (m : Memory UInt8) (p : ℕ) : Stable (m.strAt p) := by
  intro fuel s h
  induction fuel generalizing p s with
  | zero => cases h
  | succ fuel ih =>
      rw [strAt] at h ⊢
      split at h
      · rename_i hzero
        rw [if_pos hzero]
        exact h
      · rename_i hchar
        obtain ⟨tail, htail, rfl⟩ := Option.map_eq_some_iff.mp h
        rw [if_neg hchar, ih (p + 1) tail htail]
        rfl

/-- A string that the memory holds is read. -/
theorem returns_strAt {m : Memory UInt8} {p : ℕ} {s : List UInt8}
    (hs : (0 : UInt8) ∉ s) (h : Holds m p (s ++ [0])) : Returns (m.strAt p) s := by
  induction s generalizing p with
  | nil =>
      rw [List.nil_append, holds_singleton] at h
      exact ⟨1, by rw [strAt, if_pos h]⟩
  | cons c s ih =>
      rw [List.cons_append, holds_cons] at h
      obtain ⟨hc, hrest⟩ := h
      rw [List.mem_cons, not_or] at hs
      obtain ⟨fuel, htail⟩ := ih hs.2 hrest
      refine ⟨fuel + 1, ?_⟩
      rw [strAt, if_neg (by rw [hc]; exact fun h => hs.1 h.symm), htail, hc]
      rfl

end Memory

end TateFirmware.Support
