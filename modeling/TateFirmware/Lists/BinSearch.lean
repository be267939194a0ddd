import Mathlib.Algebra.Order.Ring.Nat
import Mathlib.Data.Int.Order.Basic
import Mathlib.Data.List.Pairwise
import Mathlib.Order.Basic

/-!
# The binary search of `common/lists.c`

`BinSearch` halves the part of an array that may hold an item and returns the position
of an equal element, or the position at which the item belongs as a negative number.
The sum of the two ends is an `int`.
-/

namespace TateFirmware.Lists

/-! ## The source -/

/-- `memcmp` of blocks of one size. -/
def memcmp : List UInt8 → List UInt8 → ℤ
  | a :: as, b :: bs => if a = b then memcmp as bs else a.toNat - b.toNat
  | _, _ => 0

attribute [grind =] memcmp

/-- An element of `size` bytes. -/
structure Element (size : ℕ) where
  bytes : List UInt8
  length_eq : bytes.length = size

/-- `compareFunction`, or `ListMemBlockCmp` where there is none. -/
def compareWith {size : ℕ} (compareFunction : Option (Element size → Element size → ℤ))
    (a b : Element size) : ℤ :=
  match compareFunction with
  | some f => f a b
  | none => memcmp a.bytes b.bytes

/-- How the search stands: still running, about to read outside the array, or done. -/
inductive Search where
  | running
  | outside
  | returns (index : ℤ)
deriving DecidableEq

/-- What is returned behind the loop. -/
def notFound (mid cmp : ℤ) : ℤ := -(if 0 < cmp then mid + 1 else mid) - 1

/-- The loop of `BinSearch`. -/
def binSearchLoop {α : Type*} (compare : α → α → ℤ) (array : List α) (item : α) :
    ℕ → ℤ → ℤ → ℤ → ℤ → Search
  | 0, _, _, _, _ => .running
  | rounds + 1, low, high, mid, cmp =>
      if low ≤ high then
        let mid := (low + high).bmod (2 ^ 32) / 2
        match if 0 ≤ mid then array[mid.toNat]? else none with
        | none => .outside
        | some element =>
            let cmp := compare item element
            if cmp = 0 then .returns mid
            else if cmp < 0 then
              binSearchLoop compare array item rounds low (mid - 1) mid cmp
            else binSearchLoop compare array item rounds (mid + 1) high mid cmp
      else .returns (notFound mid cmp)

attribute [grind =] binSearchLoop

/-- `BinSearch`. -/
def binSearch {size : ℕ} (compareFunction : Option (Element size → Element size → ℤ))
    (array : List (Element size)) (item : Element size) (rounds : ℕ) : Search :=
  binSearchLoop (compareWith compareFunction) array item rounds 0 (array.length - 1) 0
    (-1)

/-! ## What it should return -/

section Order

variable {α : Type*}

/-- A comparison function that orders its arguments. -/
structure Compares (compare : α → α → ℤ) : Prop where
  swap : ∀ a b, 0 ≤ compare a b ↔ compare b a ≤ 0
  trans : ∀ a b c, compare a b ≤ 0 → compare b c ≤ 0 → compare a c ≤ 0

/-- No element comes in front of a smaller one. -/
def Sorted (compare : α → α → ℤ) (array : List α) : Prop :=
  array.Pairwise fun a b => compare a b ≤ 0

/-- The index of an equal element, or where there is none the position that keeps the
array sorted, as `-i - 1`. -/
def Finds (compare : α → α → ℤ) (array : List α) (item : α) (index : ℤ) : Prop :=
  (∃ (i : ℕ) (h : i < array.length), index = i ∧ compare item array[i] = 0) ∨
    (∀ element ∈ array, compare item element ≠ 0) ∧
      ∃ i ≤ array.length, index = -(i : ℤ) - 1 ∧ Sorted compare (array.take i ++ item :: array.drop i)

end Order

/-- Every search among `n` elements ends with what it should return. -/
def SearchesRight (n : ℕ) : Prop :=
  ∀ (size : ℕ) (compareFunction : Option (Element size → Element size → ℤ)),
    (∀ f, compareFunction = some f → Compares f) →
    ∀ (array : List (Element size)) (item : Element size), array.length = n →
      Sorted (compareWith compareFunction) array →
        ∃ index, Finds (compareWith compareFunction) array item index ∧
          ∀ rounds > n, binSearch compareFunction array item rounds = .returns index

/-! ## Comparing blocks -/

theorem memcmp_swap (a b : List UInt8) : memcmp a b = -memcmp b a := by
  induction a generalizing b with
  | nil =>
      cases b with
      | nil => rfl
      | cons b bs => rfl
  | cons a as ih =>
      cases b with
      | nil => rfl
      | cons b bs =>
          rw [memcmp, memcmp]
          by_cases h : a = b
          · rw [if_pos h, if_pos h.symm, ih]
          · rw [if_neg h, if_neg (Ne.symm h)]
            omega

theorem memcmp_trans {a b c : List UInt8} (hab : a.length = b.length)
    (hbc : b.length = c.length) (h : memcmp a b ≤ 0) (h' : memcmp b c ≤ 0) :
    memcmp a c ≤ 0 := by
  induction a generalizing b c with
  | nil => cases c <;> exact le_rfl
  | cons a as ih =>
      cases b with
      | nil => cases hab
      | cons b bs =>
          cases c with
          | nil => cases hbc
          | cons c cs =>
              rw [memcmp] at h h' ⊢
              have hne : ∀ {x y : UInt8}, x ≠ y → (x.toNat : ℤ) - y.toNat ≠ 0 := by
                intro x y hxy hzero
                exact hxy (UInt8.toNat_inj.mp (by omega))
              split at h
              · rename_i hab'
                split at h'
                · rename_i hbc'
                  rw [if_pos (hab'.trans hbc')]
                  exact ih (Nat.succ.inj hab) (Nat.succ.inj hbc) h h'
                · rename_i hbc'
                  rwa [hab', if_neg hbc']
              · rename_i hab'
                have hlt := hne hab'
                split at h'
                · rename_i hbc'
                  rwa [← hbc', if_neg hab']
                · rename_i hbc'
                  have hlt' := hne hbc'
                  rw [if_neg]
                  · omega
                  · rintro rfl
                    omega

/-- Every comparison of `BinSearch` orders the elements. -/
theorem compares_compareWith {size : ℕ}
    {compareFunction : Option (Element size → Element size → ℤ)}
    (h : ∀ f, compareFunction = some f → Compares f) :
    Compares (compareWith compareFunction) := by
  cases compareFunction with
  | some f => exact h f rfl
  | none =>
      refine ⟨fun a b => ?_, fun a b c hab hbc => ?_⟩
      · show 0 ≤ memcmp a.bytes b.bytes ↔ memcmp b.bytes a.bytes ≤ 0
        rw [memcmp_swap a.bytes b.bytes]
        omega
      · exact memcmp_trans (a.length_eq.trans b.length_eq.symm)
          (b.length_eq.trans c.length_eq.symm) hab hbc

/-! ## The search -/

section Loop

variable {α : Type*} {compare : α → α → ℤ} {array : List α} {item : α}

/-- The elements in front of `low` are smaller than the item, those behind `high`
greater, and the last midpoint says where the two meet once they have. -/
structure Between (compare : α → α → ℤ) (array : List α) (item : α)
    (low high mid cmp : ℤ) : Prop where
  low_nonneg : 0 ≤ low
  low_le : low ≤ high + 1
  high_lt : high < array.length
  smaller : ∀ (i : ℕ) (h : i < array.length), i < low → 0 < compare item array[i]
  greater : ∀ (i : ℕ) (h : i < array.length), high < i → compare item array[i] < 0
  met : high < low → (if 0 < cmp then mid + 1 else mid) = low

theorem between_start (compare : α → α → ℤ) (array : List α) (item : α) :
    Between compare array item 0 (array.length - 1) 0 (-1) := by
  refine ⟨le_rfl, by omega, by omega, fun i h hi => by omega, fun i h hi => by omega,
    fun h => ?_⟩
  rw [if_neg (by decide)]

/-- The item goes where the smaller elements end and the greater ones begin. -/
theorem sorted_insert (hcompare : Compares compare) (hsorted : Sorted compare array)
    {i : ℕ}
    (hsmaller : ∀ (k : ℕ) (h : k < array.length), k < i → 0 < compare item array[k])
    (hgreater : ∀ (k : ℕ) (h : k < array.length), i ≤ k → compare item array[k] < 0) :
    Sorted compare (array.take i ++ item :: array.drop i) := by
  have hwhole := hsorted
  rw [Sorted, ← List.take_append_drop i array, List.pairwise_append] at hwhole
  obtain ⟨htake, hdrop, hacross⟩ := hwhole
  have hbefore : ∀ a ∈ array.take i, compare a item ≤ 0 := by
    intro a ha
    obtain ⟨k, hk, rfl⟩ := List.getElem_of_mem ha
    rw [List.length_take] at hk
    rw [List.getElem_take]
    exact (hcompare.swap _ _).mp (Int.le_of_lt (hsmaller k (by omega) (by omega)))
  have hbehind : ∀ a ∈ array.drop i, compare item a ≤ 0 := by
    intro a ha
    obtain ⟨k, hk, rfl⟩ := List.getElem_of_mem ha
    rw [List.length_drop] at hk
    rw [List.getElem_drop]
    exact Int.le_of_lt (hgreater (i + k) (by omega) (by omega))
  rw [Sorted, List.pairwise_append, List.pairwise_cons]
  refine ⟨htake, ⟨hbehind, hdrop⟩, fun a ha b hb => ?_⟩
  rcases List.mem_cons.mp hb with rfl | hb
  · exact hbefore a ha
  · exact hacross a ha b hb

/-- Once the ends have met the item is nowhere in the array, and the last midpoint says
where it belongs. -/
theorem Between.finds {low high mid cmp : ℤ} (hcompare : Compares compare)
    (hsorted : Sorted compare array) (h : Between compare array item low high mid cmp)
    (hmet : high < low) : Finds compare array item (notFound mid cmp) := by
  have hlow := h.low_nonneg
  have hle := h.low_le
  have hhigh := h.high_lt
  have hsmaller : ∀ (k : ℕ) (hk : k < array.length), k < low.toNat →
      0 < compare item array[k] := fun k hk hlt => h.smaller k hk (by omega)
  have hgreater : ∀ (k : ℕ) (hk : k < array.length), low.toNat ≤ k →
      compare item array[k] < 0 := fun k hk hge => h.greater k hk (by omega)
  refine .inr ⟨fun element hmem => ?_, low.toNat, by omega, ?_,
    sorted_insert hcompare hsorted hsmaller hgreater⟩
  · obtain ⟨k, hk, rfl⟩ := List.getElem_of_mem hmem
    rcases Nat.lt_or_ge k low.toNat with hlt | hge
    · exact (hsmaller k hk hlt).ne'
    · exact (hgreater k hk hge).ne
  · rw [notFound, h.met hmet]
    omega

/-- The elements up to one that is smaller than the item are smaller too. -/
theorem smaller_of_le (hcompare : Compares compare) (hsorted : Sorted compare array)
    {i k : ℕ} (hi : i < array.length) (hk : k < array.length) (hik : i ≤ k)
    (h : 0 < compare item array[k]) : 0 < compare item array[i] := by
  rcases Nat.lt_or_eq_of_le hik with hlt | rfl
  · have horder := List.pairwise_iff_getElem.mp hsorted i k hi hk hlt
    by_contra hnot
    have := hcompare.trans item array[i] array[k] (by omega) horder
    omega
  · exact h

/-- The elements from one that is greater than the item on are greater too. -/
theorem greater_of_le (hcompare : Compares compare) (hsorted : Sorted compare array)
    {i k : ℕ} (hi : i < array.length) (hk : k < array.length) (hki : k ≤ i)
    (h : compare item array[k] < 0) : compare item array[i] < 0 := by
  rcases Nat.lt_or_eq_of_le hki with hlt | rfl
  · have horder := List.pairwise_iff_getElem.mp hsorted k i hk hi hlt
    by_contra hnot
    have hback := (hcompare.swap item array[i]).mp (by omega)
    have := (hcompare.swap item array[k]).mpr (hcompare.trans _ _ _ horder hback)
    omega
  · exact h

/-- A pass whose sum is an `int` reads the element between the two ends. -/
theorem binSearchLoop_read {low high : ℤ} (hlow : 0 ≤ low) (hle : low ≤ high)
    (hhigh : high < array.length) (hsum : low + high < 2 ^ 31) :
    ∃ (m : ℕ) (_ : m < array.length), (m : ℤ) = (low + high) / 2 ∧
      ∀ rounds mid cmp, binSearchLoop compare array item (rounds + 1) low high mid cmp =
        if compare item array[m] = 0 then .returns m
        else if compare item array[m] < 0 then
          binSearchLoop compare array item rounds low (m - 1) m (compare item array[m])
        else
          binSearchLoop compare array item rounds (m + 1) high m
            (compare item array[m]) := by
  obtain ⟨m, hm⟩ : ∃ m : ℕ, (m : ℤ) = (low + high) / 2 :=
    ⟨((low + high) / 2).toNat, by omega⟩
  have hmlen : m < array.length := by omega
  refine ⟨m, hmlen, hm, fun rounds mid cmp => ?_⟩
  have hmid : (low + high).bmod (2 ^ 32) / 2 = m := by
    rw [hm, Int.bmod_eq_of_le (by omega) (by omega)]
  rw [binSearchLoop, if_pos hle]
  simp only [hmid, if_pos (Int.natCast_nonneg m), Int.toNat_natCast,
    List.getElem?_eq_getElem hmlen]

/-- The search goes on in front of a greater element. -/
theorem Between.left {low high mid cmp : ℤ} (hcompare : Compares compare)
    (hsorted : Sorted compare array) (h : Between compare array item low high mid cmp)
    {m : ℕ} (hm : m < array.length) (hlow : low ≤ m)
    (hcmp : compare item array[m] < 0) :
    Between compare array item low (m - 1) m (compare item array[m]) := by
  refine ⟨h.low_nonneg, by omega, by omega, h.smaller, fun i hi hlt => ?_, fun hmet => ?_⟩
  · exact greater_of_le hcompare hsorted hi hm (by omega) hcmp
  · rw [if_neg (by omega)]
    omega

/-- The search goes on behind a smaller element. -/
theorem Between.right {low high mid cmp : ℤ} (hcompare : Compares compare)
    (hsorted : Sorted compare array) (h : Between compare array item low high mid cmp)
    {m : ℕ} (hm : m < array.length) (hhigh : (m : ℤ) ≤ high)
    (hcmp : 0 < compare item array[m]) :
    Between compare array item (m + 1) high m (compare item array[m]) := by
  refine ⟨by omega, by omega, h.high_lt, fun i hi hlt => ?_, h.greater, fun _ => ?_⟩
  · exact smaller_of_le hcompare hsorted hi hm (by omega) hcmp
  · rw [if_pos hcmp]

/-- The loop returns what it should while the sums of its ends are `int`s. -/
theorem binSearchLoop_finds (hcompare : Compares compare) (hsorted : Sorted compare array)
    (hlen : array.length ≤ 2 ^ 30) (n : ℕ) {low high mid cmp : ℤ}
    (h : Between compare array item low high mid cmp) (hn : high + 1 - low ≤ n) :
    ∃ index, Finds compare array item index ∧ ∀ rounds > n,
      binSearchLoop compare array item rounds low high mid cmp = .returns index := by
  induction n generalizing low high mid cmp with
  | zero =>
      refine ⟨notFound mid cmp, h.finds hcompare hsorted (by omega), fun rounds hr => ?_⟩
      obtain ⟨rounds, rfl⟩ := Nat.exists_eq_succ_of_ne_zero (Nat.ne_zero_of_lt hr)
      rw [binSearchLoop, if_neg (by omega)]
  | succ n ih =>
      have hhigh := h.high_lt
      by_cases hle : low ≤ high
      · obtain ⟨m, hm, hmid, hread⟩ :=
          @binSearchLoop_read α compare array item low high h.low_nonneg hle hhigh
            (by omega)
        rcases lt_trichotomy (compare item array[m]) 0 with hlt | heq | hgt
        · have hleft := h.left hcompare hsorted hm (by omega) hlt
          obtain ⟨index, hfinds, hloop⟩ := ih hleft (by omega)
          refine ⟨index, hfinds, fun rounds hr => ?_⟩
          obtain ⟨rounds, rfl⟩ := Nat.exists_eq_succ_of_ne_zero (Nat.ne_zero_of_lt hr)
          rw [hread, if_neg hlt.ne, if_pos hlt]
          exact hloop rounds (by omega)
        · refine ⟨m, .inl ⟨m, hm, rfl, heq⟩, fun rounds hr => ?_⟩
          obtain ⟨rounds, rfl⟩ := Nat.exists_eq_succ_of_ne_zero (Nat.ne_zero_of_lt hr)
          rw [hread, if_pos heq]
        · have hright := h.right hcompare hsorted hm (by omega) hgt
          obtain ⟨index, hfinds, hloop⟩ := ih hright (by omega)
          refine ⟨index, hfinds, fun rounds hr => ?_⟩
          obtain ⟨rounds, rfl⟩ := Nat.exists_eq_succ_of_ne_zero (Nat.ne_zero_of_lt hr)
          rw [hread, if_neg hgt.ne', if_neg hgt.asymm]
          exact hloop rounds (by omega)
      · refine ⟨notFound mid cmp, h.finds hcompare hsorted (by omega), fun rounds hr => ?_⟩
        obtain ⟨rounds, rfl⟩ := Nat.exists_eq_succ_of_ne_zero (Nat.ne_zero_of_lt hr)
        rw [binSearchLoop, if_neg hle]

/-- Where every element is smaller the two ends come so near to the end of a long array
that their sum is no `int`. -/
theorem binSearchLoop_outside (hlen : 2 ^ 30 < array.length) (hint : array.length < 2 ^ 31)
    (hsmaller : ∀ element ∈ array, 0 < compare item element) {low mid cmp : ℤ}
    (hlow : 0 ≤ low) (hle : low < array.length) (rounds : ℕ) (index : ℤ) :
    binSearchLoop compare array item rounds low (array.length - 1) mid cmp ≠
      .returns index := by
  induction rounds generalizing low mid cmp with
  | zero => exact nofun
  | succ rounds ih =>
      by_cases hsum : low + (array.length - 1) < 2 ^ 31
      · obtain ⟨m, hm, hmid, hread⟩ :=
          @binSearchLoop_read α compare array item low (array.length - 1) hlow (by omega)
            (by omega) hsum
        have hcmp := hsmaller array[m] (List.getElem_mem hm)
        rw [hread, if_neg hcmp.ne', if_neg hcmp.asymm]
        -- the last element is not the one read: twice its index is no `int`
        exact ih (by omega) (by omega)
      · have hmid : (low + (array.length - 1)).bmod (2 ^ 32) / 2 < 0 := by
          rw [Int.bmod]
          split
          · omega
          · omega
        rw [binSearchLoop, if_pos (by omega)]
        simp only [if_neg (not_le.mpr hmid)]
        exact nofun

end Loop

/-- An array that is too long is not searched as it should be. -/
theorem not_searchesRight {n : ℕ} (hlong : 2 ^ 30 < n) (hn : n < 2 ^ 31) :
    ¬ SearchesRight n := by
  intro hright
  have hsorted : Sorted (compareWith none) (List.replicate n (⟨[0], rfl⟩ : Element 1)) :=
    List.pairwise_replicate.mpr (.inr le_rfl)
  obtain ⟨index, -, hloop⟩ := hright 1 none nofun (List.replicate n ⟨[0], rfl⟩)
    ⟨[1], rfl⟩ List.length_replicate hsorted
  refine binSearchLoop_outside ?_ ?_ (fun element hmem => ?_) le_rfl ?_ (n + 1) index
    (hloop (n + 1) (Nat.lt_succ_self n))
  · rwa [List.length_replicate]
  · rwa [List.length_replicate]
  · rw [List.eq_of_mem_replicate hmem]
    decide
  · rw [List.length_replicate]
    omega

/-- Every sorted array of up to `2 ^ 30` elements is searched as it should be, and no
length above is. -/
theorem searchesRight_iff {n : ℕ} (hn : n < 2 ^ 31) : SearchesRight n ↔ n ≤ 2 ^ 30 := by
  constructor
  · intro hright
    by_contra hlong
    exact not_searchesRight (Nat.lt_of_not_ge hlong) hn hright
  · rintro hlen size compareFunction hcompares array item rfl hsorted
    exact binSearchLoop_finds (compares_compareWith hcompares) hsorted hlen array.length
      (between_start _ array item) (by omega)

theorem searchesRight_three : SearchesRight 3 :=
  (searchesRight_iff (by decide)).mpr (by decide)

/-- With one element more than `2 ^ 30` the sum of the two ends can wrap round. -/
theorem not_searchesRight_long : ¬ SearchesRight (2 ^ 30 + 1) :=
  not_searchesRight (by decide) (by decide)

end TateFirmware.Lists
