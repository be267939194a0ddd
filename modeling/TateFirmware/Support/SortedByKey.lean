import Mathlib.Algebra.Order.Ring.Nat
import Mathlib.Data.List.Sort
import Mathlib.Order.Defs.LinearOrder

/-!
# Lists sorted by a key

Insertion before the first element whose key is not smaller keeps a list
sorted by its keys and puts the latest of several elements with one key first.
A sorted list is determined by its elements of each key, so inserting the
elements of a sorted list one after the other gives the list back exactly when
the elements of each key read the same in both directions.
-/

namespace TateFirmware.Support

variable {α κ : Type*} [LinearOrder κ] (key : α → κ)

/-- Insert `a` before the first element whose key is not smaller. -/
def insertByKey (a : α) (l : List α) : List α :=
  l.orderedInsert (fun a b => key a ≤ key b) a

/-- Insert the elements of a list one after the other. -/
def insertAllByKey : List α → List α → List α
  | acc, [] => acc
  | acc, a :: l => insertAllByKey (insertByKey key a acc) l

/-- Sorted by the keys. -/
def SortedByKey (l : List α) : Prop := l.Pairwise fun a b => key a ≤ key b

/-- The elements of one key. -/
def ofKey (k : κ) (l : List α) : List α := l.filter fun a => key a = k

variable {key}

theorem sortedByKey_insertByKey {l : List α} (a : α) (h : SortedByKey key l) :
    SortedByKey key (insertByKey key a l) := by
  induction l with
  | nil => exact List.pairwise_singleton _ _
  | cons b l ih =>
      obtain ⟨hb, hl⟩ := List.pairwise_cons.mp h
      unfold insertByKey
      rw [List.orderedInsert_cons]
      split
      · rename_i hle
        refine List.pairwise_cons.mpr ⟨?_, h⟩
        intro c hc
        rcases List.mem_cons.mp hc with rfl | hc
        · exact hle
        · exact le_trans hle (hb c hc)
      · rename_i hlt
        refine List.pairwise_cons.mpr ⟨?_, ih hl⟩
        intro c hc
        rcases (List.mem_orderedInsert _).mp hc with rfl | hc
        · exact le_of_lt (not_le.mp hlt)
        · exact hb c hc

theorem sortedByKey_insertAllByKey {acc : List α} (l : List α)
    (h : SortedByKey key acc) : SortedByKey key (insertAllByKey key acc l) := by
  induction l generalizing acc with
  | nil => exact h
  | cons a l ih => exact ih (sortedByKey_insertByKey a h)

/-- A map that keeps the keys commutes with the insertions. -/
theorem map_insertAllByKey {β : Type*} {key' : β → κ} {f : α → β}
    (hf : ∀ a, key' (f a) = key a) (acc l : List α) :
    (insertAllByKey key acc l).map f =
      insertAllByKey key' (acc.map f) (l.map f) := by
  induction l generalizing acc with
  | nil => rfl
  | cons a l ih =>
      rw [insertAllByKey, ih, List.map_cons, insertAllByKey]
      congr 1
      unfold insertByKey
      rw [List.map_orderedInsert _ (fun a b => key' a ≤ key' b)]
      · intro b _
        rw [hf, hf]
      · intro b _
        rw [hf, hf]

/-- Among the elements of its key, the inserted element comes first. -/
theorem ofKey_insertByKey (k : κ) (a : α) (l : List α) :
    ofKey key k (insertByKey key a l) = ofKey key k (a :: l) := by
  induction l with
  | nil => rfl
  | cons b l ih =>
      unfold insertByKey at ih ⊢
      rw [List.orderedInsert_cons]
      split
      · rfl
      · rename_i hlt
        unfold ofKey at ih ⊢
        rw [List.filter_cons, ih]
        by_cases hb : key b = k
        · have ha : key a ≠ k := by
            rintro rfl
            exact hlt (le_of_eq hb.symm)
          simp [ha, hb]
        · by_cases ha : key a = k <;> simp [ha, hb]

theorem ofKey_insertAllByKey (k : κ) (acc l : List α) :
    ofKey key k (insertAllByKey key acc l) =
      (ofKey key k l).reverse ++ ofKey key k acc := by
  induction l generalizing acc with
  | nil => rfl
  | cons a l ih =>
      rw [insertAllByKey, ih, ofKey_insertByKey]
      unfold ofKey
      by_cases ha : key a = k <;> simp [ha]

/-- A sorted list is determined by its elements of each key. -/
theorem eq_of_ofKey {l l' : List α} (hl : SortedByKey key l)
    (hl' : SortedByKey key l') (h : ∀ k, ofKey key k l = ofKey key k l') :
    l = l' := by
  have hmem : ∀ {l l' : List α}, (∀ k, ofKey key k l = ofKey key k l') →
      ∀ a ∈ l, a ∈ l' := by
    intro l l' h a ha
    have : a ∈ ofKey key (key a) l := List.mem_filter.mpr ⟨ha, by simp⟩
    rw [h] at this
    exact (List.mem_filter.mp this).1
  induction l generalizing l' with
  | nil =>
      cases l' with
      | nil => rfl
      | cons b l' =>
          exact absurd (hmem (fun k => (h k).symm) b (by simp)) (by simp)
  | cons a l ih =>
      cases l' with
      | nil => exact absurd (hmem h a (by simp)) (by simp)
      | cons b l' =>
          obtain ⟨ha, htail⟩ := List.pairwise_cons.mp hl
          obtain ⟨hb, htail'⟩ := List.pairwise_cons.mp hl'
          have hkey : key a = key b := by
            apply le_antisymm
            · rcases List.mem_cons.mp
                (hmem (fun k => (h k).symm) b (by simp)) with rfl | hmem
              · exact le_refl _
              · exact ha b hmem
            · rcases List.mem_cons.mp (hmem h a (by simp)) with rfl | hmem
              · exact le_refl _
              · exact hb a hmem
          have hhead : a = b := by
            have := h (key b)
            simp only [ofKey, hkey, decide_true, List.filter_cons_of_pos]
              at this
            exact (List.cons.inj this).1
          subst hhead
          refine congrArg (a :: ·) (ih htail htail' ?_)
          intro k
          have := h k
          unfold ofKey at this ⊢
          by_cases hk : key a = k
          · simpa [hk] using this
          · simpa [hk] using this

/-- Elements of different keys are the same in both directions. -/
theorem reverse_ofKey_of_nodup {l : List α} (h : (l.map key).Nodup) (k : κ) :
    (ofKey key k l).reverse = ofKey key k l := by
  have hnodup : ((ofKey key k l).map key).Nodup :=
    h.sublist (List.filter_sublist.map key)
  have hkey : ∀ a ∈ ofKey key k l, key a = k := by
    intro a ha
    simpa using (List.mem_filter.mp ha).2
  cases hof : ofKey key k l with
  | nil => rfl
  | cons a as =>
      cases as with
      | nil => rfl
      | cons b bs =>
          rw [hof] at hnodup hkey
          have hab : key a ≠ key b := by
            simp only [List.map_cons, List.nodup_cons, List.mem_cons,
              not_or] at hnodup
            exact hnodup.1.1
          exact absurd ((hkey a (by simp)).trans (hkey b (by simp)).symm) hab

/-- Inserting the elements of a sorted list one after the other gives the list
back exactly when the elements of each key are the same in both directions. -/
theorem insertAllByKey_eq_self_iff {l : List α} (h : SortedByKey key l) :
    insertAllByKey key [] l = l ↔
      ∀ k, (ofKey key k l).reverse = ofKey key k l := by
  have hof : ∀ k, ofKey key k (insertAllByKey key [] l) =
      (ofKey key k l).reverse := by
    intro k
    rw [ofKey_insertAllByKey]
    exact List.append_nil _
  constructor
  · intro heq k
    rw [← hof k, heq]
  · intro hall
    apply eq_of_ofKey (sortedByKey_insertAllByKey l List.Pairwise.nil) h
    intro k
    rw [hof k, hall k]

end TateFirmware.Support
