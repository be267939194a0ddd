import Mathlib.Algebra.Order.Ring.Nat
import Mathlib.Data.List.Basic
import Mathlib.Data.List.Pairwise
import Mathlib.Data.List.Sublists
import Mathlib.Data.Nat.Basic

/-!
# Channels that lose and duplicate

A queue of packets in flight may lose any packet and duplicate any packet, but
keeps the order of distinct ones.  In a stop-and-wait exchange the packets in
flight are numbered and their numbers never fall: `Carries` says between which
bounds they lie, and what is left of it by sending, receiving, losing and
duplicating.
-/

namespace TateFirmware.Support

variable {α β : Type*}

/-- Packet number `i` of a queue is lost. -/
def lose (i : ℕ) (queue : List α) : List α := queue.eraseIdx i

/-- Packet number `i` of a queue is duplicated. -/
def duplicate (i : ℕ) (queue : List α) : List α :=
  queue.take (i + 1) ++ queue.drop i

theorem duplicate_cases (i : ℕ) (queue : List α) :
    duplicate i queue = queue ∨
      ∃ front x back, queue = front ++ x :: back ∧
        duplicate i queue = front ++ x :: x :: back := by
  unfold duplicate
  by_cases hi : i < queue.length
  · right
    refine ⟨queue.take i, queue[i], queue.drop (i + 1), ?_, ?_⟩
    · simp
    · rw [List.take_add_one, List.getElem?_eq_getElem hi, Option.toList_some,
        List.append_assoc, List.singleton_append,
        ← List.drop_eq_getElem_cons hi]
  · left
    rw [List.take_of_length_le (by omega), List.drop_of_length_le (by omega),
      List.append_nil]

theorem mem_of_mem_lose {i : ℕ} {queue : List α} {x : α}
    (h : x ∈ lose i queue) : x ∈ queue :=
  List.mem_of_mem_eraseIdx h

theorem mem_of_mem_duplicate {i : ℕ} {queue : List α} {x : α}
    (h : x ∈ duplicate i queue) : x ∈ queue := by
  rcases List.mem_append.1 h with h | h
  · exact List.mem_of_mem_take h
  · exact List.mem_of_mem_drop h

/-- A queue of numbered packets in order, all numbers from `lo` to `hi`. -/
def Carries (packet : ℕ → α) (lo hi : ℕ) (queue : List α) : Prop :=
  ∃ ranks : List ℕ, ranks.Pairwise (· ≤ ·) ∧
    (∀ j ∈ ranks, lo ≤ j ∧ j ≤ hi) ∧ queue = ranks.map packet

namespace Carries

variable {packet : ℕ → α} {lo hi : ℕ} {queue : List α}

theorem nil (packet : ℕ → α) (lo hi : ℕ) : Carries packet lo hi [] :=
  ⟨[], List.Pairwise.nil, by simp, rfl⟩

theorem mono {lo' hi' : ℕ} (h : Carries packet lo hi queue) (hlo : lo' ≤ lo)
    (hhi : hi ≤ hi') : Carries packet lo' hi' queue := by
  obtain ⟨ranks, hsorted, hbounds, rfl⟩ := h
  refine ⟨ranks, hsorted, ?_, rfl⟩
  intro j hj
  obtain ⟨hge, hle⟩ := hbounds j hj
  exact ⟨hlo.trans hge, hle.trans hhi⟩

/-- Receiving a packet leaves packets that are not older. -/
theorem of_cons {x : α} (h : Carries packet lo hi (x :: queue)) :
    ∃ j, lo ≤ j ∧ j ≤ hi ∧ x = packet j ∧ Carries packet j hi queue := by
  obtain ⟨ranks, hsorted, hbounds, hqueue⟩ := h
  cases ranks with
  | nil => cases hqueue
  | cons j ranks =>
      obtain ⟨hx, rfl⟩ := List.cons.inj hqueue
      obtain ⟨hfirst, hrest⟩ := List.pairwise_cons.1 hsorted
      obtain ⟨hge, hle⟩ := hbounds j List.mem_cons_self
      refine ⟨j, hge, hle, hx, ranks, hrest, ?_, rfl⟩
      intro i hi
      exact ⟨hfirst i hi, (hbounds i (List.mem_cons_of_mem _ hi)).2⟩

/-- Sending a packet with the highest number so far. -/
theorem snoc (h : Carries packet lo hi queue) (hle : lo ≤ hi) :
    Carries packet lo hi (queue ++ [packet hi]) := by
  obtain ⟨ranks, hsorted, hbounds, rfl⟩ := h
  refine ⟨ranks ++ [hi], ?_, ?_, ?_⟩
  · rw [List.pairwise_append]
    refine ⟨hsorted, List.pairwise_singleton _ _, ?_⟩
    intro j hj k hk
    rw [List.mem_singleton.1 hk]
    exact (hbounds j hj).2
  · intro j hj
    rcases List.mem_append.1 hj with hj | hj
    · exact hbounds j hj
    · rw [List.mem_singleton.1 hj]
      exact ⟨hle, le_refl _⟩
  · rw [List.map_append, List.map_singleton]

/-- Losing packets. -/
theorem sublist {queue' : List α} (h : Carries packet lo hi queue)
    (hsub : queue'.Sublist queue) : Carries packet lo hi queue' := by
  obtain ⟨ranks, hsorted, hbounds, rfl⟩ := h
  obtain ⟨ranks', hranks, rfl⟩ := List.sublist_map_iff.1 hsub
  exact ⟨ranks', hsorted.sublist hranks,
    fun j hj => hbounds j (hranks.subset hj), rfl⟩

/-- Duplicating a packet. -/
theorem twice {front back : List α} {x : α}
    (h : Carries packet lo hi (front ++ x :: back)) :
    Carries packet lo hi (front ++ x :: x :: back) := by
  obtain ⟨ranks, hsorted, hbounds, hqueue⟩ := h
  obtain ⟨js, ks, rfl, hfront, hks⟩ := List.append_eq_map_iff.1 hqueue
  obtain ⟨j, ks, rfl, hx, hback⟩ := List.map_eq_cons_iff.1 hks
  refine ⟨js ++ j :: j :: ks, ?_, ?_, ?_⟩
  · rw [List.pairwise_append] at hsorted ⊢
    obtain ⟨hjs, hrest, hcross⟩ := hsorted
    refine ⟨hjs, ?_, ?_⟩
    · refine List.pairwise_cons.2 ⟨?_, hrest⟩
      intro k hk
      rcases List.mem_cons.1 hk with rfl | hk
      · exact le_refl _
      · exact (List.pairwise_cons.1 hrest).1 k hk
    · intro i hi k hk
      rcases List.mem_cons.1 hk with rfl | hk
      · exact hcross i hi k List.mem_cons_self
      · exact hcross i hi k hk
  · intro i hi
    apply hbounds
    rw [List.mem_append, List.mem_cons, List.mem_cons] at hi
    rw [List.mem_append, List.mem_cons]
    rcases hi with hi | hi | hi
    · exact Or.inl hi
    · exact Or.inr (Or.inl hi)
    · exact Or.inr hi
  · rw [List.map_append, List.map_cons, List.map_cons, hfront, hx, hback]

/-- A part of a queue that loses a packet. -/
theorem filterMap_lose {queue : List β} {f : β → Option α}
    (h : Carries packet lo hi (queue.filterMap f)) (i : ℕ) :
    Carries packet lo hi ((lose i queue).filterMap f) :=
  h.sublist ((List.eraseIdx_sublist queue i).filterMap f)

/-- A part of a queue that duplicates a packet. -/
theorem filterMap_duplicate {queue : List β} {f : β → Option α}
    (h : Carries packet lo hi (queue.filterMap f)) (i : ℕ) :
    Carries packet lo hi ((duplicate i queue).filterMap f) := by
  rcases duplicate_cases i queue with heq | ⟨front, x, back, hqueue, heq⟩
  · rw [heq]
    exact h
  · rw [heq]
    rw [hqueue] at h
    rw [List.filterMap_append] at h ⊢
    cases hx : f x with
    | none =>
        rw [List.filterMap_cons_none hx] at h
        rw [List.filterMap_cons_none hx, List.filterMap_cons_none hx]
        exact h
    | some y =>
        rw [List.filterMap_cons_some hx] at h
        rw [List.filterMap_cons_some hx, List.filterMap_cons_some hx]
        exact h.twice

end Carries

end TateFirmware.Support
