import TateFirmware.LibGeneric.CString
import TateFirmware.Support.Fields
import TateFirmware.Support.Memory

/-!
# The arguments of a command

`parse_line` of `common/main.c` cuts a line into words.  It stores pointers to the
words, which here are the words themselves, in an array that has been used before.
When the array is full it stops and does not store the `NULL` behind the last
argument.
-/

namespace TateFirmware.Cli

open LibGeneric Support

/-- `argv`; a `NULL` is `none`. -/
abbrev Argv := Memory (Option (List UInt8))

def isBlank (c : UInt8) : Bool := c = ch ' ' || c = ch '\t'

/-- The loop of `parse_line`, for `k` more arguments: their number and the
array. -/
def parseLineLoop : ℕ → List UInt8 → ℕ → Argv → ℕ × Argv
  | 0, _, nargs, argv => (nargs, argv)
  | k + 1, line, nargs, argv =>
      let line := line.dropWhile isBlank
      if line = [] then (nargs, argv.store nargs none)
      else
        let argv := argv.store nargs (some (line.takeWhile (!isBlank ·)))
        let line := line.dropWhile (!isBlank ·)
        if line = [] then (nargs + 1, argv.store (nargs + 1) none)
        else parseLineLoop k line.tail (nargs + 1) argv

/-- `parse_line`, with `CFG_MAXARGS`. -/
def parseLine (maxargs : ℕ) (line : List UInt8) (argv : Argv) : ℕ × Argv :=
  parseLineLoop maxargs line 0 argv

/-! ## Words -/

/-- The words between blanks. -/
def words (line : List UInt8) : List (List UInt8) :=
  (line.splitOnP isBlank).filter (· ≠ [])

@[simp] theorem words_nil : words [] = [] := rfl

theorem words_dropWhile (line : List UInt8) :
    words (line.dropWhile isBlank) = words line := fields_dropWhile isBlank line

theorem words_word {arg : List UInt8} (hne : arg ≠ [])
    (harg : ∀ c ∈ arg, isBlank c = false) : words arg = [arg] :=
  fields_field isBlank hne harg

theorem words_cons {arg : List UInt8} {c : UInt8} (hne : arg ≠ [])
    (harg : ∀ c ∈ arg, isBlank c = false) (hc : isBlank c = true)
    (line : List UInt8) : words (arg ++ c :: line) = arg :: words line :=
  fields_cons isBlank hne harg hc line

/-- The line does not end in a blank. -/
def EndsInWord (line : List UInt8) : Prop :=
  ∃ front c, line = front ++ [c] ∧ isBlank c = false

theorem endsInWord_append {line : List UInt8} (hne : line ≠ [])
    (front : List UInt8) : EndsInWord (front ++ line) ↔ EndsInWord line := by
  constructor
  · rintro ⟨before, c, heq, hc⟩
    refine ⟨line.dropLast, c, ?_, hc⟩
    have hlast := congrArg List.getLast? heq
    rw [List.getLast?_append_of_ne_nil _ hne, List.getLast?_concat] at hlast
    exact (List.dropLast_append_getLast? c hlast).symm
  · rintro ⟨before, c, rfl, hc⟩
    exact ⟨front ++ before, c, by rw [List.append_assoc], hc⟩

/-! ## What the loop stores -/

/-- A word followed by a blank, or a last word. -/
theorem line_cases (line : List UInt8) (hne : line.dropWhile isBlank ≠ []) :
    ∃ arg, (line.dropWhile isBlank).takeWhile (!isBlank ·) = arg ∧ arg ≠ [] ∧
      (∀ c ∈ arg, isBlank c = false) ∧
      (((line.dropWhile isBlank).dropWhile (!isBlank ·) = [] ∧
          line.dropWhile isBlank = arg) ∨
        ∃ c rest, (line.dropWhile isBlank).dropWhile (!isBlank ·) = c :: rest ∧
          isBlank c = true ∧ line.dropWhile isBlank = arg ++ c :: rest) := by
  have hfirst : ∃ c rest, line.dropWhile isBlank = c :: rest ∧
      isBlank c = false := by
    cases hline : line.dropWhile isBlank with
    | nil => exact absurd hline hne
    | cons c rest =>
        have hhead := List.head?_dropWhile_not isBlank line
        rw [hline] at hhead
        exact ⟨c, rest, rfl, by simpa using hhead⟩
  generalize line.dropWhile isBlank = left at *
  obtain ⟨c, rest, rfl, hc⟩ := hfirst
  have hsplit := List.takeWhile_append_dropWhile
    (p := (!isBlank ·)) (l := c :: rest)
  refine ⟨_, rfl, ?_, ?_, ?_⟩
  · rw [List.takeWhile_cons_of_pos (by simp [hc])]
    exact List.cons_ne_nil _ _
  · intro d hd
    simpa using List.mem_takeWhile_imp hd
  · cases hrest : (c :: rest).dropWhile (!isBlank ·) with
    | nil =>
        rw [hrest, List.append_nil] at hsplit
        exact Or.inl ⟨rfl, hsplit.symm⟩
    | cons d tail =>
        have hhead := List.head?_dropWhile_not (!isBlank ·) (c :: rest)
        rw [hrest] at hhead
        rw [hrest] at hsplit
        exact Or.inr ⟨d, tail, rfl, by simpa using hhead, hsplit.symm⟩

theorem endsInWord_rest {line arg rest : List UInt8} {c : UInt8}
    (hc : isBlank c = true) (hline : line.dropWhile isBlank = arg ++ c :: rest) :
    EndsInWord line ↔ EndsInWord rest := by
  have hall : line = (line.takeWhile isBlank ++ arg ++ [c]) ++ rest := by
    rw [List.append_assoc, List.append_assoc, List.singleton_append, ← hline,
      List.takeWhile_append_dropWhile]
  by_cases hrest : rest = []
  · refine iff_of_false ?_ ?_
    · rintro ⟨front, d, heq, hd⟩
      rw [hall, hrest, List.append_nil] at heq
      have hlast := List.append_inj_right' heq rfl
      rw [← List.singleton_inj.mp hlast, hc] at hd
      cases hd
    · rintro ⟨front, d, heq, -⟩
      rw [hrest] at heq
      exact absurd heq (by simp)
  · rw [hall]
    exact endsInWord_append hrest _

theorem endsInWord_last {line arg : List UInt8} (hne : arg ≠ [])
    (harg : ∀ c ∈ arg, isBlank c = false)
    (hline : line.dropWhile isBlank = arg) : EndsInWord line := by
  have hall : line = line.takeWhile isBlank ++ arg := by
    rw [← hline, List.takeWhile_append_dropWhile]
  rw [hall]
  refine (endsInWord_append hne _).mpr ⟨arg.dropLast, arg.getLast hne, ?_, ?_⟩
  · exact (List.dropLast_concat_getLast hne).symm
  · exact harg _ (List.getLast_mem hne)

theorem words_of_last {line arg : List UInt8} (hne : arg ≠ [])
    (harg : ∀ c ∈ arg, isBlank c = false)
    (hline : line.dropWhile isBlank = arg) : words line = [arg] := by
  rw [← words_dropWhile, hline, words_word hne harg]

theorem words_of_rest {line arg rest : List UInt8} {c : UInt8} (hne : arg ≠ [])
    (harg : ∀ c ∈ arg, isBlank c = false) (hc : isBlank c = true)
    (hline : line.dropWhile isBlank = arg ++ c :: rest) :
    words line = arg :: words rest := by
  rw [← words_dropWhile, hline, words_cons hne harg hc]

/-- A line without words. -/
theorem not_endsInWord {line : List UInt8} (hwords : words line = []) :
    ¬ EndsInWord line := by
  have hblank : line.dropWhile isBlank = [] := by
    by_contra hne
    obtain ⟨arg, -, hargne, harg, ⟨-, hline⟩ | ⟨c, rest, -, hc, hline⟩⟩ :=
      line_cases line hne
    · rw [words_of_last hargne harg hline] at hwords
      cases hwords
    · rw [words_of_rest hargne harg hc hline] at hwords
      cases hwords
  rintro ⟨front, c, rfl, hc⟩
  have hall := List.dropWhile_eq_nil_iff.mp hblank c (by simp)
  rw [hc] at hall
  cases hall

/-- The loop stores the words of the line one behind the other; when there are too
many for the array, what stood behind the last one stays. -/
theorem parseLineLoop_spec (k : ℕ) (line : List UInt8) (nargs : ℕ)
    (argv : Argv) :
    (parseLineLoop k line nargs argv).1 = nargs + min k (words line).length ∧
      (parseLineLoop k line nargs argv).2.Holds nargs
        (((words line).take k).map some) ∧
      (∀ j < nargs, (parseLineLoop k line nargs argv).2 j = argv j) ∧
      ((parseLineLoop k line nargs argv).2
          (parseLineLoop k line nargs argv).1 = none ↔
        (words line).length < k ∨
          (words line).length = k ∧ EndsInWord line ∨
          k ≤ (words line).length ∧ argv (nargs + k) = none) := by
  induction k generalizing line nargs argv with
  | zero =>
      refine ⟨by simp [parseLineLoop], by simp, fun _ _ => rfl, ?_⟩
      rw [parseLineLoop]
      refine ⟨fun h => Or.inr (Or.inr ⟨Nat.zero_le _, h⟩), ?_⟩
      rintro (h | ⟨hnone, hends⟩ | ⟨-, h⟩)
      · exact absurd h (Nat.not_lt_zero _)
      · exact absurd hends (not_endsInWord (List.length_eq_zero_iff.mp hnone))
      · exact h
  | succ k ih =>
      rw [parseLineLoop]
      dsimp only
      by_cases hblank : line.dropWhile isBlank = []
      · have hwords : words line = [] := by
          rw [← words_dropWhile, hblank, words_nil]
        rw [if_pos hblank, hwords]
        refine ⟨by simp, by simp, fun j hj => Memory.store_of_ne _ hj.ne, ?_⟩
        exact iff_of_true (Memory.store_same ..) (Or.inl (Nat.succ_pos k))
      · rw [if_neg hblank]
        obtain ⟨arg, htake, hargne, harg,
          ⟨hdrop, hline⟩ | ⟨c, rest, hdrop, hc, hline⟩⟩ := line_cases line hblank
        · rw [htake, if_pos hdrop, words_of_last hargne harg hline]
          refine ⟨by simp, ?_, fun j hj => ?_, ?_⟩
          · have hone : ([arg].take (k + 1)).map some = [some arg] := by simp
            dsimp only
            rw [hone, Memory.holds_singleton,
              Memory.store_of_ne _ (Nat.lt_succ_self nargs).ne,
              Memory.store_same]
          · dsimp only
            rw [Memory.store_of_ne _ (by omega), Memory.store_of_ne _ hj.ne]
          · refine iff_of_true (Memory.store_same ..) ?_
            rw [List.length_singleton]
            rcases Nat.eq_zero_or_pos k with rfl | hk
            · exact Or.inr (Or.inl ⟨rfl, endsInWord_last hargne harg hline⟩)
            · exact Or.inl (by omega)
        · obtain ⟨hcount, hholds, hbelow, hnull⟩ :=
            ih rest (nargs + 1) (argv.store nargs (some arg))
          rw [htake, if_neg (by rw [hdrop]; simp), hdrop, List.tail_cons,
            words_of_rest hargne harg hc hline, endsInWord_rest hc hline,
            hnull, List.length_cons]
          refine ⟨by omega, ?_, fun j hj => ?_, ?_⟩
          · rw [List.take_succ_cons, List.map_cons]
            refine Memory.holds_cons.mpr ⟨?_, hholds⟩
            rw [hbelow nargs (Nat.lt_succ_self nargs), Memory.store_same]
          · rw [hbelow j (by omega), Memory.store_of_ne _ hj.ne]
          · rw [Memory.store_of_ne _ (by omega), Nat.add_right_cancel_iff,
              Nat.add_lt_add_iff_right, Nat.add_le_add_iff_right,
              show nargs + 1 + k = nargs + (k + 1) by omega]

/-- All words of a line are arguments, and a `NULL` is behind the last one. -/
def AllWords (line : List UInt8) (argc : ℕ) (argv : Argv) : Prop :=
  argc = (words line).length ∧ argv.Holds 0 ((words line).map some ++ [none])

theorem parseLine_allWords_iff (maxargs : ℕ) (line : List UInt8) (argv : Argv) :
    AllWords line (parseLine maxargs line argv).1
        (parseLine maxargs line argv).2 ↔
      (words line).length < maxargs ∨ (words line).length = maxargs ∧
        (EndsInWord line ∨ argv maxargs = none) := by
  obtain ⟨hcount, hholds, -, hnull⟩ := parseLineLoop_spec maxargs line 0 argv
  simp only [Nat.zero_add] at hcount hnull
  unfold AllWords parseLine
  rcases Nat.lt_or_ge maxargs (words line).length with hmany | hfew
  · refine iff_of_false ?_ (by omega)
    rintro ⟨hall, -⟩
    omega
  · rw [min_eq_right hfew] at hcount
    rw [List.take_of_length_le hfew] at hholds
    have heq : maxargs ≤ (words line).length ↔
        (words line).length = maxargs := ⟨hfew.antisymm, Eq.ge⟩
    rw [hcount] at hnull ⊢
    rw [Memory.holds_append, Memory.holds_singleton, Nat.zero_add,
      List.length_map]
    simp only [hholds, true_and]
    rw [hnull, heq, ← and_or_left]

end TateFirmware.Cli
