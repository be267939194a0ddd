import TateFirmware.Lists.Blocks

/-!
# Lists as sequences

A list stands for the sequence of its items.  Calls on a number of lists, each of
which finds memory or does not, are compared with the same insertions and removals on
the sequences.
-/

namespace TateFirmware.Lists

open Support Memory

/-! ## Sequences -/

/-- Items of one size. -/
structure Sequence where
  itemSize : ℕ
  items : List (List UInt8)

/-- The index in front of which a position inserts. -/
def insertIndex (firstItemPosition : ℤ) (numItems : ℕ) : ℕ :=
  if firstItemPosition = listStart then 0
  else if firstItemPosition = listEnd then numItems
  else (firstItemPosition - 1).toNat

/-- The items behind a pointer, or items of zeros for a null pointer. -/
def newItems (ptrToItems : Option (Memory UInt8)) (itemSize n : ℕ) : List (List UInt8) :=
  (ptrToItems.getD fun _ => 0).items itemSize n

def Sequence.insert (s : Sequence) (ptrToItems : Option (Memory UInt8))
    (firstItemPosition : ℤ) (n : ℕ) : Sequence :=
  let index := insertIndex firstItemPosition s.items.length
  { s with items :=
      s.items.take index ++ newItems ptrToItems s.itemSize n ++ s.items.drop index }

def Sequence.remove (s : Sequence) (firstItemPosition : ℤ) (n : ℕ) : Sequence :=
  let index := removeIndex firstItemPosition s.items.length
  { s with items := s.items.take index ++ s.items.drop (index + n) }

/-- The items that a removal takes out, one behind the other. -/
def Sequence.removed (s : Sequence) (firstItemPosition : ℤ) (n : ℕ) : List UInt8 :=
  ((s.items.drop (removeIndex firstItemPosition s.items.length)).take n).flatten

/-- The sequence that a list stands for. -/
def ListStruct.sequence (list : ListStruct) : Sequence where
  itemSize := list.itemSize
  items := list.itemList.items list.itemSize list.numItems

/-! ## Calls on lists -/

/-- The calls; a list is named by its index, and `none` is a null pointer. -/
inductive ListOp where
  | insertItems (list : ℕ) (ptrToItems : Option (Memory UInt8)) (firstItemPosition : ℤ)
      (numItemsToInsert : ℕ)
  | removeItems (list : ℕ) (firstItemPosition : ℤ) (numItemsToRemove : ℕ)
  | append (list1 list2 : Option ℕ)
  | copy (originalList : Option ℕ) (junk : Memory UInt8)
  | compact (list : ℕ)
  | preAllocate (list : ℕ) (numItems : ℤ)

/-- What a call returns, the list it wrote to with the end of what it wrote, and what it
copied out. -/
structure Done where
  ret : Bool
  wrote : Option (ℕ × ℕ) := none
  out : List UInt8 := []

/-- The lists behind a call on one of them. -/
def update (lists : List ListStruct) (i : ℕ) (call : Call) (out : List UInt8) :
    Done × List ListStruct :=
  ({ ret := call.ret, wrote := some (i, call.high), out := out }, lists.set i call.list)

/-- A call that finds memory or does not; a list that is not there is left alone. -/
def ListOp.exec (op : ListOp) (room : Bool) (lists : List ListStruct) :
    Done × List ListStruct :=
  match op with
  | .insertItems i ptrToItems firstItemPosition n =>
      match lists[i]? with
      | none => ({ ret := false }, lists)
      | some list =>
          update lists i (listInsertItems room list ptrToItems firstItemPosition n) []
  | .removeItems i firstItemPosition n =>
      match lists[i]? with
      | none => ({ ret := false }, lists)
      | some list =>
          let (call, out) := listRemoveItems list firstItemPosition n
          update lists i call out
  | .append _ none => ({ ret := true }, lists)
  | .append none (some _) => ({ ret := false }, lists)
  | .append (some i) (some j) =>
      match lists[i]?, lists[j]? with
      | some list1, some list2 =>
          if list1.itemSize ≠ list2.itemSize then ({ ret := false }, lists)
          else if list2.numItems = 0 then ({ ret := true }, lists)
          else update lists i (listAppend room (i == j) list1 list2) []
      | _, _ => ({ ret := false }, lists)
  | .copy none _ => ({ ret := false }, lists)
  | .copy (some i) junk =>
      match lists[i]? with
      | none => ({ ret := false }, lists)
      | some list =>
          match listCopy room junk list with
          | none => ({ ret := false }, lists)
          | some call =>
              ({ ret := true, wrote := some (lists.length, call.high) },
                lists ++ [call.list])
  | .compact i =>
      match lists[i]? with
      | none => ({ ret := false }, lists)
      | some list => update lists i (listCompact room list) []
  | .preAllocate i numItems =>
      match lists[i]? with
      | none => ({ ret := false }, lists)
      | some list => update lists i (listPreAllocate room list numItems) []

/-- The same call on sequences. -/
def ListOp.apply (op : ListOp) (seqs : List Sequence) : List Sequence :=
  match op with
  | .insertItems i ptrToItems firstItemPosition n =>
      seqs.modify i fun s => s.insert ptrToItems firstItemPosition n
  | .removeItems i firstItemPosition n => seqs.modify i fun s => s.remove firstItemPosition n
  | .append (some i) (some j) =>
      match seqs[j]? with
      | some s => seqs.modify i fun s' => { s' with items := s'.items ++ s.items }
      | none => seqs
  | .append _ _ => seqs
  | .copy (some i) _ =>
      match seqs[i]? with
      | some s => seqs ++ [s]
      | none => seqs
  | .copy none _ => seqs
  | .compact _ => seqs
  | .preAllocate _ _ => seqs

/-- What a call copies out of the sequences. -/
def ListOp.removed (op : ListOp) (seqs : List Sequence) : List UInt8 :=
  match op with
  | .removeItems i firstItemPosition n =>
      match seqs[i]? with
      | some s => s.removed firstItemPosition n
      | none => []
  | _ => []

/-- One call after the other, each with whether it finds memory. -/
def listStep (lists : List ListStruct) (call : ListOp × Bool) : List ListStruct × List Done :=
  ((call.1.exec call.2 lists).2, [(call.1.exec call.2 lists).1])

/-- The positions of a call are places of its list. -/
def ListOp.Valid (op : ListOp) (lists : List ListStruct) : Prop :=
  match op with
  | .insertItems _ _ firstItemPosition _ => -1 ≤ firstItemPosition
  | .removeItems i firstItemPosition n =>
      ∀ list, lists[i]? = some list →
        (firstItemPosition = listStart ∨ (firstItemPosition = listEnd ∧ 0 < list.numItems) ∨
          0 < firstItemPosition) ∧
        removeIndex firstItemPosition list.numItems + n ≤ list.numItems
  | _ => True

/-- A call keeps every list inside its block and does to the sequences what it says; a
call that reports a failure leaves the lists as they were. -/
structure StepRefines (lists : List ListStruct) (call : ListOp × Bool) : Prop where
  capacity : ∀ list ∈ (call.1.exec call.2 lists).2, list.numItems ≤ list.listSize
  inside : ∀ i high list, (call.1.exec call.2 lists).1.wrote = some (i, high) →
    (call.1.exec call.2 lists).2[i]? = some list → itemListOffset + high ≤ list.size
  items : (call.1.exec call.2 lists).2.map ListStruct.sequence =
    if (call.1.exec call.2 lists).1.ret = true
      then call.1.apply (lists.map ListStruct.sequence)
      else lists.map ListStruct.sequence
  out : (call.1.exec call.2 lists).1.out = call.1.removed (lists.map ListStruct.sequence)
  unchanged : (call.1.exec call.2 lists).1.ret = false → (call.1.exec call.2 lists).2 = lists

/-- A number of items is an `int`, and the size of a block for them an `unsigned int`. -/
def Sized (itemSize n : ℕ) : Prop :=
  n < 2 ^ 31 ∧ sizeofListStruct + n * itemSize < 2 ^ 32

instance (itemSize n : ℕ) : Decidable (Sized itemSize n) := inferInstanceAs (Decidable (_ ∧ _))

/-- An insertion finds its list full or with room for all its items, or is refused for
its position; and the sizes that a call computes are sizes. -/
def ListOp.HasRoom (op : ListOp) (lists : List ListStruct) : Prop :=
  match op with
  | .insertItems i _ firstItemPosition n =>
      ∀ list, lists[i]? = some list → firstItemPosition > list.numItems + 1 ∨
        (list.numItems < list.listSize ∧ list.numItems + n ≤ list.listSize) ∨
        (list.numItems = list.listSize ∧
          Sized list.itemSize (list.listSize + (n + numItemsPerAlloc list)))
  | .append (some i) (some j) =>
      ∀ list1 list2, lists[i]? = some list1 → lists[j]? = some list2 →
        Sized list1.itemSize (list1.numItems + list2.numItems)
  | .preAllocate i numItems =>
      ∀ list, lists[i]? = some list → Sized list.itemSize (list.numItems + numItems.toNat)
  | _ => True

/-- A list whose block has room for `listSize` items, and no more items than that. -/
structure ListStruct.Fits (list : ListStruct) : Prop where
  capacity : list.numItems ≤ list.listSize
  sized : Sized list.itemSize list.listSize
  size_eq : list.size = sizeofListStruct + list.listSize * list.itemSize

/-! ## Sizes -/

theorem Sized.mono {itemSize m n : ℕ} (h : Sized itemSize n) (hm : m ≤ n) :
    Sized itemSize m := by
  have hcells := Nat.mul_le_mul_right itemSize hm
  exact ⟨lt_of_le_of_lt hm h.1, lt_of_le_of_lt (Nat.add_le_add_left hcells _) h.2⟩

theorem blockSize_eq {itemSize n : ℕ} (h : Sized itemSize n) :
    blockSize itemSize n = sizeofListStruct + n * itemSize := Nat.mod_eq_of_lt h.2

theorem bytes_eq {list : ListStruct} {n : ℕ} (h : Sized list.itemSize n) :
    list.bytes n = n * list.itemSize := by
  have hlt := h.2
  rw [ListStruct.bytes, Nat.mul_comm, Nat.mod_eq_of_lt (by omega)]

theorem setHandleSize_of_false {room : Bool} {newSize : ℕ} {list list' : ListStruct}
    (h : setHandleSize room newSize list = (false, list')) : list' = list := by
  unfold setHandleSize at h
  split_ifs at h
  · simp at h
  · simp at h
  · exact (Prod.mk.inj h).2.symm

/-- The items stay in a block that gets another size. -/
theorem setHandleSize_of_true {room : Bool} {newSize : ℕ} {list list' : ListStruct}
    (h : setHandleSize room newSize list = (true, list')) :
    ∃ data, list' = { list with size := newSize, itemList := data } ∧
      ∀ k < list.size - itemListOffset, data k = list.itemList k := by
  unfold setHandleSize at h
  split_ifs at h with hsame hroom
  · obtain ⟨-, rfl⟩ := Prod.mk.inj h
    exact ⟨_, by rw [← hsame], fun _ _ => rfl⟩
  · obtain ⟨-, rfl⟩ := Prod.mk.inj h
    refine ⟨_, rfl, fun k hk => ?_⟩
    exact if_neg (by omega)
  · simp at h

theorem expandListSpace_of_false {room : Bool} {n : ℤ} {list list' : ListStruct}
    (h : expandListSpace room n list = (false, list')) : list' = list := by
  unfold expandListSpace at h
  dsimp only at h
  split at h
  · rename_i heq
    rw [← (Prod.mk.inj h).2]
    exact setHandleSize_of_false heq
  · simp at h

theorem expandListSpace_of_true {room : Bool} {n : ℤ} {list list' : ListStruct}
    (h : expandListSpace room n list = (true, list')) :
    ∃ data, list' = { list with
        listSize := list.listSize + growth list n
        size := blockSize list.itemSize (list.listSize + growth list n)
        itemList := data } ∧
      ∀ k < list.size - itemListOffset, data k = list.itemList k := by
  unfold expandListSpace at h
  dsimp only at h
  split at h
  · simp at h
  · rename_i heq
    obtain ⟨data, rfl, hdata⟩ := setHandleSize_of_true heq
    obtain ⟨-, rfl⟩ := Prod.mk.inj h
    exact ⟨data, rfl, hdata⟩

/-! ## One list -/

/-- The items of a list lie in front of the end of its block. -/
theorem ListStruct.Fits.items_lt {list : ListStruct} (h : list.Fits) :
    list.numItems * list.itemSize ≤ list.size - itemListOffset := by
  have hcells := Nat.mul_le_mul_right list.itemSize h.capacity
  rw [h.size_eq, sizeofListStruct, itemListOffset]
  omega

/-- What a list stands for depends on its items only. -/
theorem sequence_congr {list list' : ListStruct} (hsize : list'.itemSize = list.itemSize)
    (hnum : list'.numItems = list.numItems)
    (h : ∀ k < list.numItems * list.itemSize, list'.itemList k = list.itemList k) :
    list'.sequence = list.sequence := by
  rw [ListStruct.sequence, ListStruct.sequence, hsize, hnum]
  congr 1
  apply List.map_congr_left
  intro i hi
  have hin := Nat.mul_le_mul_right list.itemSize (Nat.succ_le_of_lt (List.mem_range.mp hi))
  rw [Nat.succ_mul] at hin
  exact read_congr fun k hk => h _ (by omega)

/-- A list stands for the items whose bytes it holds. -/
theorem sequence_of_holds {list : ListStruct} {xs : List (List UInt8)}
    (hsize : ∀ x ∈ xs, x.length = list.itemSize) (hnum : list.numItems = xs.length)
    (h : Holds list.itemList 0 xs.flatten) : list.sequence = ⟨list.itemSize, xs⟩ := by
  rw [ListStruct.sequence, hnum, items_eq_of_holds hsize h]

theorem newItems_size {ptrToItems : Option (Memory UInt8)} {itemSize n : ℕ} {x : List UInt8}
    (hx : x ∈ newItems ptrToItems itemSize n) : x.length = itemSize := items_size hx

theorem newItems_length (ptrToItems : Option (Memory UInt8)) (itemSize n : ℕ) :
    (newItems ptrToItems itemSize n).length = n := items_length _ itemSize n

theorem sourceBytes_eq (ptrToItems : Option (Memory UInt8)) (itemSize n : ℕ) :
    sourceBytes ptrToItems (n * itemSize) = (newItems ptrToItems itemSize n).flatten := by
  rw [newItems, items_flatten]
  cases ptrToItems with
  | some src => rfl
  | none => simp [sourceBytes, Memory.read]

/-- A call that has done to a list what makes it stand for `s`. -/
structure Call.Keeps (call : Call) (s : Sequence) : Prop where
  ret : call.ret = true
  fits : call.list.Fits
  inside : itemListOffset + call.high ≤ call.list.size
  sequence : call.list.sequence = s

/-- The bytes of the items in front of an index and of those behind it. -/
theorem holds_split (list : ListStruct) {index : ℕ} (hindex : index ≤ list.numItems) :
    Holds list.itemList 0
        ((list.sequence.items.take index).flatten ++ (list.sequence.items.drop index).flatten) ∧
      (list.sequence.items.take index).flatten.length = index * list.itemSize ∧
      (list.sequence.items.drop index).flatten.length =
        (list.numItems - index) * list.itemSize := by
  have hsize : ∀ x ∈ list.sequence.items, x.length = list.itemSize := fun x hx => items_size hx
  have hnum : list.sequence.items.length = list.numItems := items_length _ _ _
  refine ⟨?_, ?_, ?_⟩
  · rw [← List.flatten_append, List.take_append_drop]
    exact holds_items list.itemList list.itemSize list.numItems
  · rw [flatten_length fun x hx => hsize x (List.mem_of_mem_take hx), List.length_take, hnum,
      Nat.min_eq_left hindex]
  · rw [flatten_length fun x hx => hsize x (List.mem_of_mem_drop hx), List.length_drop, hnum]

/-- Items put in front of an index. -/
theorem sequence_of_inserted {list list' : ListStruct} (ptrToItems : Option (Memory UInt8))
    {index n : ℕ} (hindex : index ≤ list.numItems) (hsize : list'.itemSize = list.itemSize)
    (hnum : list'.numItems = list.numItems + n)
    (h : Holds list'.itemList 0 ((list.sequence.items.take index).flatten ++
      (newItems ptrToItems list.itemSize n).flatten ++
        (list.sequence.items.drop index).flatten)) :
    list'.sequence = ⟨list.itemSize, list.sequence.items.take index ++
      newItems ptrToItems list.itemSize n ++ list.sequence.items.drop index⟩ := by
  have hlen : list.sequence.items.length = list.numItems := items_length _ _ _
  rw [← hsize]
  apply sequence_of_holds
  · intro x hx
    rw [hsize] at hx ⊢
    rcases List.mem_append.mp hx with hx | hx
    · rcases List.mem_append.mp hx with hx | hx
      · exact items_size (List.mem_of_mem_take hx)
      · exact newItems_size hx
    · exact items_size (List.mem_of_mem_drop hx)
  · rw [List.length_append, List.length_append, List.length_take, List.length_drop,
      newItems_length, hlen, hnum]
    omega
  · rwa [List.flatten_append, List.flatten_append, hsize]

/-- With room for them the items are inserted. -/
theorem insertInto_keeps {list : ListStruct} (hfits : list.Fits)
    (ptrToItems : Option (Memory UInt8)) {firstItemPosition : ℤ} {n : ℕ}
    (hroom : list.numItems + n ≤ list.listSize) (hend : firstItemPosition ≤ list.numItems) :
    (insertInto list ptrToItems firstItemPosition n).Keeps
      (list.sequence.insert ptrToItems firstItemPosition n) := by
  have hlen : list.sequence.items.length = list.numItems := items_length _ _ _
  have hbytes : ∀ m ≤ list.listSize, list.bytes m = m * list.itemSize :=
    fun m hm => bytes_eq (hfits.sized.mono hm)
  have hcells : ∀ m ≤ list.listSize, m * list.itemSize ≤ list.listSize * list.itemSize :=
    fun m hm => Nat.mul_le_mul_right _ hm
  have hsize := hfits.size_eq
  have hnew : sourceBytes ptrToItems (list.bytes n) =
      (newItems ptrToItems list.itemSize n).flatten := by
    rw [hbytes n (by omega), sourceBytes_eq]
  have hnewlen : (newItems ptrToItems list.itemSize n).flatten.length = n * list.itemSize := by
    rw [← sourceBytes_eq]
    cases ptrToItems <;> simp [sourceBytes]
  have hall := hcells (list.numItems + n) hroom
  rw [Nat.add_mul] at hall
  obtain ⟨index, hindex, hinsert⟩ : ∃ index,
      index = insertIndex firstItemPosition list.sequence.items.length ∧
        list.sequence.insert ptrToItems firstItemPosition n =
          ⟨list.itemSize, list.sequence.items.take index ++
            newItems ptrToItems list.itemSize n ++ list.sequence.items.drop index⟩ :=
    ⟨_, rfl, rfl⟩
  rw [hinsert]
  rw [hlen] at hindex
  have hle : index ≤ list.numItems := by
    rw [hindex, insertIndex]
    split_ifs <;> omega
  obtain ⟨hholds, hfront, hback⟩ := holds_split list hle
  unfold insertInto
  by_cases hatend : (if firstItemPosition = listStart then
      if list.numItems = 0 then listEnd else 1 else firstItemPosition) = listEnd
  · simp only [if_pos hatend, hnew]
    have hall' : index = list.numItems := by
      rw [hindex, insertIndex]
      split_ifs at hatend ⊢ <;> simp_all [listStart, listEnd]
    refine ⟨rfl, ⟨hroom, hfits.sized, hsize⟩, ?_, ?_⟩
    · simp only [hnewlen, hsize, sizeofListStruct, itemListOffset,
        Nat.mul_comm list.itemSize]
      omega
    · refine sequence_of_inserted ptrToItems hle rfl rfl ?_
      have hdrop : (list.sequence.items.drop index).flatten = [] := by
        rw [List.drop_of_length_le (by omega), List.flatten_nil]
      rw [hdrop, List.append_nil] at hholds ⊢
      have hput := hholds.append_copyIn (newItems ptrToItems list.itemSize n).flatten
      rw [hfront, Nat.zero_add, hall', Nat.mul_comm] at hput
      rw [hall']
      exact hput
  · have hplace : ((if firstItemPosition = listStart then
        if list.numItems = 0 then listEnd else 1 else firstItemPosition) - 1).toNat = index := by
      rw [hindex, insertIndex]
      split_ifs at hatend ⊢ <;> simp_all [listStart, listEnd]
    have hmoved : list.itemList.read (list.itemSize * index)
        (list.bytes (list.numItems - index)) =
          (list.sequence.items.drop index).flatten := by
      have hread := (holds_append.mp hholds).2.read_eq
      rwa [hfront, hback, Nat.zero_add, Nat.mul_comm index,
        ← hbytes (list.numItems - index) (by omega)] at hread
    have hgap : (index + n) * list.itemSize + (list.numItems - index) * list.itemSize =
        (list.numItems + n) * list.itemSize := by
      rw [← Nat.add_mul]
      congr 1
      omega
    have hput : index * list.itemSize + n * list.itemSize ≤
        (list.numItems + n) * list.itemSize := by
      rw [← Nat.add_mul]
      exact Nat.mul_le_mul_right _ (by omega)
    simp only [if_neg hatend, hplace, hnew, hmoved]
    refine ⟨rfl, ⟨hroom, hfits.sized, hsize⟩, ?_, ?_⟩
    · simp only [hnewlen, hback, hsize, sizeofListStruct, itemListOffset,
        Nat.mul_comm list.itemSize]
      have hfit := hcells (list.numItems + n) hroom
      omega
    · refine sequence_of_inserted ptrToItems hle rfl rfl ?_
      have hinserted := hholds.insert_middle (newItems ptrToItems list.itemSize n).flatten
      rwa [hfront, hnewlen, Nat.zero_add, ← Nat.add_mul, Nat.mul_comm index,
        Nat.mul_comm (index + n)] at hinserted

/-- The position behind the last item is the end. -/
theorem insert_end (list : ListStruct) (ptrToItems : Option (Memory UInt8)) (n : ℕ) :
    list.sequence.insert ptrToItems (list.numItems + 1) n =
      list.sequence.insert ptrToItems listEnd n := by
  have hlen : list.sequence.items.length = list.numItems := items_length _ _ _
  have hindex : insertIndex (list.numItems + 1) list.numItems =
      insertIndex listEnd list.numItems := by
    have hstart : ¬ (list.numItems : ℤ) + 1 = listStart := by
      rw [listStart]
      omega
    have hend : ¬ (list.numItems : ℤ) + 1 = listEnd := by
      rw [listEnd]
      omega
    rw [insertIndex, if_neg hstart, if_neg hend]
    simp [insertIndex, listEnd, listStart]
  simp only [Sequence.insert, hlen, hindex]

theorem growth_insert (list : ListStruct) (n : ℕ) :
    growth list (-n) = n + numItemsPerAlloc list := by
  rw [growth]
  split_ifs <;> omega

/-- An expanded list fits and stands for the same sequence. -/
theorem expandListSpace_keeps {room : Bool} {n : ℤ} {list list' : ListStruct}
    (hfits : list.Fits) (hsized : Sized list.itemSize (list.listSize + growth list n))
    (h : expandListSpace room n list = (true, list')) :
    list'.Fits ∧ list'.sequence = list.sequence ∧ list'.numItems = list.numItems ∧
      list'.listSize = list.listSize + growth list n := by
  obtain ⟨data, rfl, hdata⟩ := expandListSpace_of_true h
  refine ⟨⟨?_, hsized, blockSize_eq hsized⟩, ?_, rfl, rfl⟩
  · exact le_trans hfits.capacity (Nat.le_add_right _ _)
  · refine sequence_congr ?_ ?_ fun k hk => hdata k (lt_of_lt_of_le hk hfits.items_lt)
    · rfl
    · rfl

/-- What a call does that may fail: it leaves its list, or keeps it for `s`. -/
def Call.Does (call : Call) (list : ListStruct) (s : Sequence) : Prop :=
  (call.ret = false ∧ call.list = list ∧ call.high = 0) ∨ call.Keeps s

theorem listInsertItems_does {list : ListStruct} (hfits : list.Fits) (room : Bool)
    (ptrToItems : Option (Memory UInt8)) {firstItemPosition : ℤ} {n : ℕ}
    (hroom : firstItemPosition > list.numItems + 1 ∨
      (list.numItems < list.listSize ∧ list.numItems + n ≤ list.listSize) ∨
      (list.numItems = list.listSize ∧
        Sized list.itemSize (list.listSize + (n + numItemsPerAlloc list)))) :
    (listInsertItems room list ptrToItems firstItemPosition n).Does list
      (list.sequence.insert ptrToItems firstItemPosition n) := by
  unfold listInsertItems
  by_cases hrefused : firstItemPosition > list.numItems + 1
  · rw [if_pos hrefused]
    exact Or.inl ⟨rfl, rfl, rfl⟩
  rw [if_neg hrefused]
  have hfull := hroom.resolve_left hrefused
  have hinsert : list.sequence.insert ptrToItems (if firstItemPosition = list.numItems + 1
      then listEnd else firstItemPosition) n =
        list.sequence.insert ptrToItems firstItemPosition n := by
    split_ifs with hend
    · rw [hend, insert_end]
    · rfl
  have hle : (if firstItemPosition = list.numItems + 1 then listEnd else firstItemPosition) ≤
      list.numItems := by
    simp only [listEnd]
    split_ifs <;> omega
  dsimp only
  generalize (if firstItemPosition = (list.numItems : ℤ) + 1 then listEnd
    else firstItemPosition) = position at hinsert hle ⊢
  rw [← hinsert]
  split
  · rename_i hgrow
    split
    · rename_i heq
      exact Or.inl ⟨rfl, expandListSpace_of_false heq, rfl⟩
    · rename_i list' heq
      have hsized : Sized list.itemSize (list.listSize + (n + numItemsPerAlloc list)) :=
        (hfull.resolve_left fun hspace => absurd hspace.1 (Nat.not_lt.mpr hgrow)).2
      rw [← growth_insert] at hsized
      obtain ⟨hfits', hsequence, hnum, hsize⟩ := expandListSpace_keeps hfits hsized heq
      right
      rw [← hsequence]
      rw [growth_insert] at hsize
      refine insertInto_keeps hfits' ptrToItems ?_ ?_
      · have hcapacity := hfits.capacity
        omega
      · rw [hnum]
        exact hle
  · right
    exact insertInto_keeps hfits ptrToItems (by omega) hle

theorem listRemoveItems_keeps {list : ListStruct} (hfits : list.Fits)
    {firstItemPosition : ℤ} {n : ℕ}
    (hvalid : removeIndex firstItemPosition list.numItems + n ≤ list.numItems) :
    (listRemoveItems list firstItemPosition n).1.Keeps
        (list.sequence.remove firstItemPosition n) ∧
      (listRemoveItems list firstItemPosition n).2 =
        list.sequence.removed firstItemPosition n := by
  have hlen : list.sequence.items.length = list.numItems := items_length _ _ _
  have hcapacity := hfits.capacity
  have hbytes : ∀ m ≤ list.listSize, list.bytes m = m * list.itemSize :=
    fun m hm => bytes_eq (hfits.sized.mono hm)
  obtain ⟨index, hindex⟩ : ∃ index, removeIndex firstItemPosition list.numItems = index :=
    ⟨_, rfl⟩
  have hsequence : ∀ x ∈ list.sequence.items, x.length = list.itemSize :=
    fun x hx => items_size hx
  rw [hindex] at hvalid
  have hle : index ≤ list.numItems := by omega
  obtain ⟨hholds, hfront, -⟩ := holds_split list hle
  have hdrop : list.sequence.items.drop index =
      (list.sequence.items.drop index).take n ++ list.sequence.items.drop (index + n) := by
    rw [← List.drop_drop, List.take_append_drop]
  have hmid : ((list.sequence.items.drop index).take n).flatten.length = n * list.itemSize := by
    rw [flatten_length fun x hx => hsequence x (List.mem_of_mem_drop (List.mem_of_mem_take hx)),
      List.length_take, List.length_drop, hlen, Nat.min_eq_left (by omega)]
  have hback : (list.sequence.items.drop (index + n)).flatten.length =
      (list.numItems - (index + n)) * list.itemSize := by
    rw [flatten_length fun x hx => hsequence x (List.mem_of_mem_drop hx), List.length_drop, hlen]
  rw [hdrop, List.flatten_append, ← List.append_assoc] at hholds
  have hmoved : list.itemList.read (list.itemSize * (index + n))
      (list.bytes (list.numItems - (index + n))) =
        (list.sequence.items.drop (index + n)).flatten := by
    have hread := (holds_append.mp hholds).2.read_eq
    rwa [List.length_append, hfront, hmid, hback, Nat.zero_add, ← Nat.add_mul,
      Nat.mul_comm (index + n), ← hbytes (list.numItems - (index + n)) (by omega)] at hread
  have hout : list.itemList.read (list.itemSize * index) (list.bytes n) =
      ((list.sequence.items.drop index).take n).flatten := by
    have hread := (holds_append.mp (holds_append.mp hholds).1).2.read_eq
    rwa [hfront, hmid, Nat.zero_add, Nat.mul_comm index, ← hbytes n (by omega)] at hread
  have hcells := Nat.mul_le_mul_right list.itemSize hcapacity
  have hrest : index * list.itemSize + (list.numItems - (index + n)) * list.itemSize ≤
      list.numItems * list.itemSize := by
    rw [← Nat.add_mul]
    exact Nat.mul_le_mul_right _ (by omega)
  have hsize := hfits.size_eq
  simp only [listRemoveItems, Sequence.remove, Sequence.removed, hlen, hindex, hmoved, hout,
    and_true]
  refine ⟨rfl, ⟨?_, hfits.sized, hsize⟩, ?_, ?_⟩
  · exact le_trans (Nat.sub_le _ _) hcapacity
  · simp only [hback, hsize, sizeofListStruct, itemListOffset, Nat.mul_comm list.itemSize]
    omega
  · refine sequence_of_holds ?_ ?_ ?_
    · intro x hx
      rcases List.mem_append.mp hx with hx | hx
      · exact items_size (List.mem_of_mem_take hx)
      · exact items_size (List.mem_of_mem_drop hx)
    · rw [List.length_append, List.length_take, List.length_drop, hlen]
      dsimp only
      omega
    · have hclosed := hholds.remove_middle
      rwa [hfront, Nat.zero_add, Nat.mul_comm, ← List.flatten_append] at hclosed

/-- The bytes of the items of a list, in its memory or in one that agrees with it on its
block. -/
theorem holds_of_agree {list : ListStruct} (hfits : list.Fits) {data : Memory UInt8}
    (h : ∀ k < list.size - itemListOffset, data k = list.itemList k) :
    Holds data 0 list.sequence.items.flatten ∧
      list.sequence.items.flatten.length = list.numItems * list.itemSize := by
  have hitems : ∀ x ∈ list.sequence.items, x.length = list.itemSize := fun x hx => items_size hx
  have hlen : list.sequence.items.flatten.length = list.numItems * list.itemSize := by
    rw [flatten_length hitems]
    exact congrArg (· * list.itemSize) (items_length _ _ _)
  refine ⟨(holds_items list.itemList list.itemSize list.numItems).congr ?_, hlen⟩
  intro k _ hk
  refine h k (lt_of_lt_of_le ?_ hfits.items_lt)
  rw [← hlen]
  rwa [Nat.zero_add] at hk

theorem listAppend_does {list1 list2 : ListStruct} (hfits1 : list1.Fits) (hfits2 : list2.Fits)
    (room same : Bool) (hsame : same = true → list1 = list2)
    (hitem : list1.itemSize = list2.itemSize)
    (hroom : Sized list1.itemSize (list1.numItems + list2.numItems)) :
    (listAppend room same list1 list2).Does list1
      ⟨list1.itemSize, list1.sequence.items ++ list2.sequence.items⟩ := by
  unfold listAppend
  dsimp only
  split
  · rename_i heq
    exact Or.inl ⟨rfl, setHandleSize_of_false heq, rfl⟩
  · rename_i list heq
    obtain ⟨data, rfl, hdata⟩ := setHandleSize_of_true heq
    obtain ⟨hholds1, hlen1⟩ := holds_of_agree hfits1 hdata
    have hnew : (if same = true then data else list2.itemList).read 0
        (list2.bytes list2.numItems) = list2.sequence.items.flatten := by
      have hagree : ∀ k < list2.size - itemListOffset,
          (if same = true then data else list2.itemList) k = list2.itemList k := by
        intro k hk
        split_ifs with hone
        · rw [← hsame hone] at hk ⊢
          exact hdata k hk
        · rfl
      obtain ⟨hholds2, hlen2⟩ := holds_of_agree hfits2 hagree
      rw [bytes_eq (hfits2.sized.mono hfits2.capacity), ← hlen2]
      exact hholds2.read_eq
    have hlen2 := (holds_of_agree hfits2 fun _ _ => rfl).2
    right
    refine ⟨rfl, ⟨le_refl _, hroom, blockSize_eq hroom⟩, ?_, ?_⟩
    · simp only [apply_ite ListStruct.itemList, hnew, hlen2, blockSize_eq hroom,
        sizeofListStruct, itemListOffset, Nat.mul_comm list1.itemSize, ← hitem, Nat.add_mul]
      omega
    · refine sequence_of_holds ?_ ?_ ?_
      · intro x hx
        rcases List.mem_append.mp hx with hx | hx
        · exact items_size hx
        · exact (items_size hx).trans hitem.symm
      · rw [List.length_append]
        exact congrArg₂ (· + ·) (items_length _ _ _).symm (items_length _ _ _).symm
      · rw [List.flatten_append]
        simp only [apply_ite ListStruct.itemList, hnew]
        have hput := hholds1.append_copyIn list2.sequence.items.flatten
        rwa [Nat.zero_add, hlen1, Nat.mul_comm] at hput

theorem listCopy_keeps {list : ListStruct} (hfits : list.Fits) {room : Bool}
    {junk : Memory UInt8} {call : Call} (h : listCopy room junk list = some call) :
    call.Keeps list.sequence := by
  have hsized := hfits.sized.mono hfits.capacity
  have hlen := (holds_of_agree hfits fun _ _ => rfl).2
  have hnew : list.itemList.read 0 (list.bytes list.numItems) =
      list.sequence.items.flatten := by
    rw [bytes_eq hsized, ← hlen]
    exact (holds_of_agree hfits fun _ _ => rfl).1.read_eq
  unfold listCopy at h
  split at h
  · simp at h
  · split at h
    · simp at h
    · rename_i tempList heq
      obtain ⟨data, rfl, -⟩ := setHandleSize_of_true heq
      obtain rfl := Option.some.inj h
      refine ⟨rfl, ⟨le_refl _, hsized, blockSize_eq hsized⟩, ?_, ?_⟩
      · simp only [hnew, hlen, blockSize_eq hsized, sizeofListStruct, itemListOffset]
        omega
      · refine sequence_of_holds (fun x hx => items_size hx) (items_length _ _ _).symm ?_
        rw [hnew]
        exact holds_copyIn data 0 list.sequence.items.flatten

theorem listCompact_does {list : ListStruct} (hfits : list.Fits) (room : Bool) :
    (listCompact room list).Does list list.sequence := by
  have hsized := hfits.sized.mono hfits.capacity
  unfold listCompact
  split
  · rename_i heq
    exact Or.inl ⟨rfl, setHandleSize_of_false heq, rfl⟩
  · rename_i list' heq
    obtain ⟨data, rfl, hdata⟩ := setHandleSize_of_true heq
    right
    refine ⟨rfl, ⟨le_refl _, hsized, blockSize_eq hsized⟩, ?_, ?_⟩
    · simp only [blockSize_eq hsized, sizeofListStruct, itemListOffset]
      omega
    · refine sequence_congr ?_ ?_ fun k hk => hdata k (lt_of_lt_of_le hk hfits.items_lt)
      · rfl
      · rfl

theorem listPreAllocate_does {list : ListStruct} (hfits : list.Fits) (room : Bool)
    {numItems : ℤ} (hroom : Sized list.itemSize (list.numItems + numItems.toNat)) :
    (listPreAllocate room list numItems).Does list list.sequence := by
  have hcapacity := hfits.capacity
  have hsize := hfits.size_eq
  have hkeeps : ∀ list' : ListStruct, list'.Fits → list'.sequence = list.sequence →
      Call.Keeps ⟨true, list', 0⟩ list.sequence := by
    intro list' hfits' hsequence
    refine ⟨rfl, hfits', ?_, hsequence⟩
    simp only [hfits'.size_eq, sizeofListStruct, itemListOffset]
    omega
  unfold listPreAllocate
  split_ifs with hmore
  · have hgrow : list.listSize + growth list (numItems - (list.listSize - list.numItems)) =
        list.numItems + numItems.toNat := by
      rw [growth, if_neg (by omega), if_neg (by omega)]
      omega
    split
    rename_i ok list' heq
    cases ok with
    | false => exact Or.inl ⟨rfl, expandListSpace_of_false heq, rfl⟩
    | true =>
        obtain ⟨hfits', hsequence, -⟩ :=
          expandListSpace_keeps hfits (by rw [hgrow]; exact hroom) heq
        exact Or.inr (hkeeps list' hfits' hsequence)
  · exact Or.inr (hkeeps list hfits rfl)

/-! ## Calls -/

/-- The next lists fit, as every list of a call does. -/
def NextFits (lists : List ListStruct) (call : ListOp × Bool) : Prop :=
  ∀ list ∈ (call.1.exec call.2 lists).2, list.Fits

/-- A call that does to one list what `s` says. -/
theorem stepRefines_of_update {lists : List ListStruct} {op : ListOp} {room : Bool} {i : ℕ}
    {list : ListStruct} {call : Call} {s : Sequence} {out : List UInt8}
    (hfits : ∀ list ∈ lists, list.Fits) (hi : lists[i]? = some list)
    (hexec : op.exec room lists = update lists i call out) (hdoes : call.Does list s)
    (happly : call.ret = true → op.apply (lists.map ListStruct.sequence) =
      (lists.map ListStruct.sequence).set i s)
    (hout : out = op.removed (lists.map ListStruct.sequence)) :
    StepRefines lists (op, room) ∧ NextFits lists (op, room) := by
  obtain ⟨hlt, hget⟩ := List.getElem?_eq_some_iff.mp hi
  have hlist : list.Fits := hfits list (List.mem_of_getElem? hi)
  have hcall : call.list.Fits ∧ itemListOffset + call.high ≤ call.list.size := by
    rcases hdoes with ⟨-, hsame, hhigh⟩ | hkeeps
    · rw [hsame, hhigh]
      refine ⟨hlist, ?_⟩
      simp only [hlist.size_eq, sizeofListStruct, itemListOffset]
      omega
    · exact ⟨hkeeps.fits, hkeeps.inside⟩
  have hnext : NextFits lists (op, room) := by
    intro list' hlist'
    rw [hexec] at hlist'
    rcases List.mem_or_eq_of_mem_set hlist' with hold | rfl
    · exact hfits list' hold
    · exact hcall.1
  have hunchanged : call.ret = false → lists.set i call.list = lists := by
    intro hret
    rcases hdoes with ⟨-, hsame, -⟩ | hkeeps
    · rw [hsame, ← hget, List.set_getElem_self]
    · rw [hkeeps.ret] at hret
      cases hret
  refine ⟨⟨fun list' hlist' => (hnext list' hlist').capacity, ?_, ?_, ?_, ?_⟩, hnext⟩
  · intro j high list' hwrote hlist'
    simp only [hexec, update, Option.some.injEq, Prod.mk.injEq] at hwrote hlist'
    obtain ⟨rfl, rfl⟩ := hwrote
    rw [List.getElem?_set_self hlt, Option.some.injEq] at hlist'
    rw [← hlist']
    exact hcall.2
  · simp only [hexec, update]
    split_ifs with hret
    · rcases hdoes with ⟨hfalse, -⟩ | hkeeps
      · rw [hret] at hfalse
        cases hfalse
      · rw [happly hret, List.map_set, hkeeps.sequence]
    · rw [hunchanged (by simpa using hret)]
  · simpa only [hexec, update] using hout
  · simpa only [hexec, update] using hunchanged

/-- A call that leaves the lists alone. -/
theorem stepRefines_of_unchanged {lists : List ListStruct} {op : ListOp} {room ret : Bool}
    (hfits : ∀ list ∈ lists, list.Fits) (hexec : op.exec room lists = ({ ret := ret }, lists))
    (happly : ret = true → op.apply (lists.map ListStruct.sequence) =
      lists.map ListStruct.sequence)
    (hout : op.removed (lists.map ListStruct.sequence) = []) :
    StepRefines lists (op, room) ∧ NextFits lists (op, room) := by
  refine ⟨⟨?_, ?_, ?_, ?_, ?_⟩, ?_⟩
  · simp only [hexec]
    exact fun list hlist => (hfits list hlist).capacity
  · simp [hexec]
  · simp only [hexec]
    split_ifs with hret
    · exact (happly hret).symm
    · rfl
  · simp only [hexec, hout]
  · simp [hexec]
  · simpa only [NextFits, hexec] using hfits

theorem stepRefines_of_refused {lists : List ListStruct} {op : ListOp} {room : Bool}
    (hfits : ∀ list ∈ lists, list.Fits) (hexec : op.exec room lists = ({ ret := false }, lists))
    (hout : op.removed (lists.map ListStruct.sequence) = []) :
    StepRefines lists (op, room) ∧ NextFits lists (op, room) :=
  stepRefines_of_unchanged hfits hexec (by simp) hout

theorem modify_sequence {lists : List ListStruct} {i : ℕ} {list : ListStruct}
    (hi : lists[i]? = some list) (f : Sequence → Sequence) :
    (lists.map ListStruct.sequence).modify i f =
      (lists.map ListStruct.sequence).set i (f list.sequence) := by
  rw [List.modify_eq_set_getElem?, List.getElem?_map, hi]
  rfl

theorem set_sequence {lists : List ListStruct} {i : ℕ} {list : ListStruct}
    (hi : lists[i]? = some list) :
    (lists.map ListStruct.sequence).set i list.sequence = lists.map ListStruct.sequence := by
  obtain ⟨hlt, rfl⟩ := List.getElem?_eq_some_iff.mp hi
  rw [← List.map_set, List.set_getElem_self]

theorem append_refines {lists : List ListStruct} (hfits : ∀ list ∈ lists, list.Fits)
    (room : Bool) {i j : ℕ} (hroom : (ListOp.append (some i) (some j)).HasRoom lists) :
    StepRefines lists (.append (some i) (some j), room) ∧
      NextFits lists (.append (some i) (some j), room) := by
  cases hi : lists[i]? with
  | none =>
      refine stepRefines_of_refused hfits ?_ rfl
      simp only [ListOp.exec, hi]
  | some list1 =>
      cases hj : lists[j]? with
      | none =>
          refine stepRefines_of_refused hfits ?_ rfl
          simp only [ListOp.exec, hi, hj]
      | some list2 =>
          have hget : (lists.map ListStruct.sequence)[j]? = some list2.sequence := by
            rw [List.getElem?_map, hj]
            rfl
          by_cases hitem : list1.itemSize = list2.itemSize
          · by_cases hempty : list2.numItems = 0
            · have hexec : (ListOp.append (some i) (some j)).exec room lists =
                  ({ ret := true }, lists) := by
                simp only [ListOp.exec, hi, hj, if_neg (not_not.mpr hitem), if_pos hempty]
              refine stepRefines_of_unchanged hfits hexec ?_ rfl
              · intro _
                have hnone : list2.sequence.items = [] := by
                  rw [← List.length_eq_zero_iff, ← hempty]
                  exact items_length _ _ _
                simp only [ListOp.apply, hget, hnone, List.append_nil]
                exact (modify_sequence hi _).trans (set_sequence hi)
            · refine stepRefines_of_update hfits hi ?_
                (listAppend_does (hfits _ (List.mem_of_getElem? hi))
                  (hfits _ (List.mem_of_getElem? hj)) room (i == j) ?_ hitem
                  (hroom list1 list2 hi hj)) ?_ (Eq.refl [])
              · simp only [ListOp.exec, hi, hj, if_neg (not_not.mpr hitem), if_neg hempty]
              · intro hsame
                rw [beq_iff_eq] at hsame
                rw [hsame, hj] at hi
                exact (Option.some.inj hi).symm
              · intro _
                simp only [ListOp.apply, hget]
                exact modify_sequence hi _
          · refine stepRefines_of_refused hfits ?_ rfl
            simp only [ListOp.exec, hi, hj, if_pos (show list1.itemSize ≠ list2.itemSize from hitem)]

theorem copy_refines {lists : List ListStruct} (hfits : ∀ list ∈ lists, list.Fits)
    (room : Bool) (i : ℕ) (junk : Memory UInt8) :
    StepRefines lists (.copy (some i) junk, room) ∧
      NextFits lists (.copy (some i) junk, room) := by
  cases hi : lists[i]? with
  | none =>
      refine stepRefines_of_refused hfits ?_ rfl
      simp only [ListOp.exec, hi]
  | some list =>
      cases hcopy : listCopy room junk list with
      | none =>
          refine stepRefines_of_refused hfits ?_ rfl
          simp only [ListOp.exec, hi, hcopy]
      | some call =>
          have hkeeps := listCopy_keeps (hfits _ (List.mem_of_getElem? hi)) hcopy
          have hget : (lists.map ListStruct.sequence)[i]? = some list.sequence := by
            rw [List.getElem?_map, hi]
            rfl
          have hexec : (ListOp.copy (some i) junk).exec room lists =
              ({ ret := true, wrote := some (lists.length, call.high) },
                lists ++ [call.list]) := by
            simp only [ListOp.exec, hi, hcopy]
          have hnext : NextFits lists (.copy (some i) junk, room) := by
            intro list' hlist'
            rw [hexec] at hlist'
            rcases List.mem_append.mp hlist' with hold | hnew
            · exact hfits list' hold
            · rw [List.mem_singleton.mp hnew]
              exact hkeeps.fits
          refine ⟨⟨fun list' hlist' => (hnext list' hlist').capacity, ?_, ?_, ?_, ?_⟩, hnext⟩
          · intro k high list' hwrote hlist'
            simp only [hexec, Option.some.injEq, Prod.mk.injEq] at hwrote hlist'
            obtain ⟨rfl, rfl⟩ := hwrote
            rw [List.getElem?_concat_length, Option.some.injEq] at hlist'
            rw [← hlist']
            exact hkeeps.inside
          · simp only [hexec, ListOp.apply, hget, List.map_append, List.map_cons, List.map_nil,
              hkeeps.sequence, if_true]
          · simp only [hexec, ListOp.removed]
          · simp [hexec]

/-- A call with valid positions and room keeps the lists inside their blocks and does to
the sequences what it says. -/
theorem stepRefines {lists : List ListStruct} {call : ListOp × Bool}
    (hfits : ∀ list ∈ lists, list.Fits) (hvalid : call.1.Valid lists)
    (hroom : call.1.HasRoom lists) : StepRefines lists call ∧ NextFits lists call := by
  obtain ⟨op, room⟩ := call
  cases op with
  | insertItems i ptrToItems firstItemPosition n =>
      cases hi : lists[i]? with
      | none =>
          refine stepRefines_of_refused hfits ?_ rfl
          simp only [ListOp.exec, hi]
      | some list =>
          refine stepRefines_of_update hfits hi ?_
            (listInsertItems_does (hfits _ (List.mem_of_getElem? hi)) room ptrToItems
              (hroom list hi)) ?_ (Eq.refl [])
          · simp only [ListOp.exec, hi]
          · exact fun _ => modify_sequence hi _
  | removeItems i firstItemPosition n =>
      cases hi : lists[i]? with
      | none =>
          refine stepRefines_of_refused hfits ?_ ?_
          · simp only [ListOp.exec, hi]
          · simp only [ListOp.removed, List.getElem?_map, hi, Option.map_none]
      | some list =>
          obtain ⟨hkeeps, hout⟩ := listRemoveItems_keeps (hfits _ (List.mem_of_getElem? hi))
            (hvalid list hi).2
          have hremoved : (listRemoveItems list firstItemPosition n).2 =
              (ListOp.removeItems i firstItemPosition n).removed
                (lists.map ListStruct.sequence) := by
            simp only [ListOp.removed, List.getElem?_map, hi, Option.map_some, hout]
          refine stepRefines_of_update hfits hi ?_ (Or.inr hkeeps) ?_ hremoved
          · simp only [ListOp.exec, hi]
          · exact fun _ => modify_sequence hi _
  | append list1 list2 =>
      cases list2 with
      | none => exact stepRefines_of_unchanged hfits rfl (fun _ => by cases list1 <;> rfl) rfl
      | some j =>
          cases list1 with
          | none => exact stepRefines_of_unchanged hfits rfl (fun _ => rfl) rfl
          | some i => exact append_refines hfits room hroom
  | copy originalList junk =>
      cases originalList with
      | none => exact stepRefines_of_unchanged hfits rfl (fun _ => rfl) rfl
      | some i => exact copy_refines hfits room i junk
  | compact i =>
      cases hi : lists[i]? with
      | none =>
          refine stepRefines_of_refused hfits ?_ rfl
          simp only [ListOp.exec, hi]
      | some list =>
          refine stepRefines_of_update hfits hi ?_
            (listCompact_does (hfits _ (List.mem_of_getElem? hi)) room) ?_ (Eq.refl [])
          · simp only [ListOp.exec, hi]
          · exact fun _ => (set_sequence hi).symm
  | preAllocate i numItems =>
      cases hi : lists[i]? with
      | none =>
          refine stepRefines_of_refused hfits ?_ rfl
          simp only [ListOp.exec, hi]
      | some list =>
          refine stepRefines_of_update hfits hi ?_
            (listPreAllocate_does (hfits _ (List.mem_of_getElem? hi)) room
              (hroom list hi)) ?_ (Eq.refl [])
          · simp only [ListOp.exec, hi]
          · exact fun _ => (set_sequence hi).symm

/-! ## Runs -/

/-- The calls on sequences alone, those that report a failure left out. -/
def applyAll (seqs : List Sequence) : List (ListOp × Done) → List Sequence
  | [] => seqs
  | (op, done) :: rest =>
      applyAll (if done.ret = true then op.apply seqs else seqs) rest

/-- A run whose steps do to the sequences what they say. -/
theorem run_sequence {lists : List ListStruct} {calls : List (ListOp × Bool)}
    (h : StepsMeet listStep StepRefines lists calls) :
    (run listStep lists calls).1.map ListStruct.sequence =
      applyAll (lists.map ListStruct.sequence)
        ((calls.map Prod.fst).zip (run listStep lists calls).2) := by
  induction calls generalizing lists with
  | nil => rfl
  | cons call calls ih =>
      obtain ⟨hstep, hrest⟩ := h
      rw [run_cons, List.map_cons, listStep, List.singleton_append, List.zip_cons_cons,
        applyAll, ← hstep.items]
      exact ih hrest

/-- Every run of calls that find room, on lists that fit, keeps the lists inside their
blocks and does to their sequences what its calls say. -/
theorem listRun_refines {lists : List ListStruct} {calls : List (ListOp × Bool)}
    (hfits : ∀ list ∈ lists, list.Fits)
    (hmeet : StepsMeet listStep
      (fun lists call => call.1.Valid lists ∧ call.1.HasRoom lists) lists calls) :
    StepsMeet listStep StepRefines lists calls ∧
      (run listStep lists calls).1.map ListStruct.sequence =
        applyAll (lists.map ListStruct.sequence)
          ((calls.map Prod.fst).zip (run listStep lists calls).2) := by
  have hsteps : StepsMeet listStep StepRefines lists calls := by
    refine hmeet.imp_of_invariant (P := fun lists => ∀ list ∈ lists, list.Fits) ?_ hfits
    rintro lists call ⟨hvalid, hroom⟩ hlists
    exact stepRefines hlists hvalid hroom
  exact ⟨hsteps, run_sequence hsteps⟩

theorem listCreate_fits (junk : Memory UInt8) {elementSize : ℕ} :
    (listCreate junk elementSize).Fits := by
  refine ⟨le_refl 0, ⟨?_, ?_⟩, ?_⟩
  · simp [listCreate]
  · simp [listCreate, sizeofListStruct]
  · simp [listCreate]

/-- A new list of items of four bytes. -/
def newList : List ListStruct := [listCreate (fun _ => 0) 4]

/-- One item, and ten more at the end of it. -/
def tenBehindOne : List (ListOp × Bool) :=
  [(.insertItems 0 none listEnd 1, true), (.insertItems 0 none listEnd 10, true)]

theorem newList_fits : ∀ list ∈ newList, list.Fits := by
  intro list hlist
  rw [List.mem_singleton.mp hlist]
  exact listCreate_fits _

/-- One item, three in front of it, and two of the four out again. -/
def insertAndRemove : List (ListOp × Bool) :=
  [(.insertItems 0 none listEnd 1, true),
    (.insertItems 0 (some fun k => .ofNat k) 1 3, true),
    (.removeItems 0 2 2, true)]

/-- The counts of each list, and its item size. -/
def counts (lists : List ListStruct) : List (ℕ × ℕ × ℕ) :=
  lists.map fun list => (list.numItems, list.listSize, list.itemSize)

theorem counts_of_getElem? {lists : List ListStruct} {list : ListStruct} {n room size : ℕ}
    (hcounts : counts lists = [(n, room, size)]) (hlist : lists[0]? = some list) :
    list.numItems = n ∧ list.listSize = room ∧ list.itemSize = size := by
  have hget : (counts lists)[0]? = some (list.numItems, list.listSize, list.itemSize) := by
    rw [counts, List.getElem?_map, hlist, Option.map_some]
  rw [hcounts] at hget
  simpa [eq_comm] using hget

theorem listRun_refines_insertAndRemove :
    StepsMeet listStep StepRefines newList insertAndRemove ∧
      (run listStep newList insertAndRemove).1.map ListStruct.sequence =
        applyAll (newList.map ListStruct.sequence)
          ((insertAndRemove.map Prod.fst).zip (run listStep newList insertAndRemove).2) := by
  refine listRun_refines newList_fits ⟨⟨?_, ?_⟩, ⟨?_, ?_⟩, ⟨?_, trivial⟩, trivial⟩
  · exact show -1 ≤ listEnd by decide
  · intro list hlist
    rw [← Option.some.inj hlist]
    exact Or.inr (Or.inr ⟨rfl, by decide⟩)
  · exact show (-1 : ℤ) ≤ 1 by decide
  · intro list hlist
    have hcounts : counts (listStep newList (.insertItems 0 none listEnd 1, true)).1 =
        [(1, 5, 4)] := by decide
    obtain ⟨hnum, hsize, -⟩ := counts_of_getElem? hcounts hlist
    exact Or.inr (Or.inl (by omega))
  · intro list hlist
    have hcounts : counts (run listStep newList (insertAndRemove.take 2)).1 =
        [(4, 5, 4)] := by decide
    obtain ⟨hnum, -, -⟩ := counts_of_getElem? hcounts hlist
    rw [hnum]
    exact ⟨Or.inr (Or.inr (by decide)), by decide⟩

/-- The second insertion of the run finds the list with room, for four items. -/
theorem tenBehindOne_not_stepRefines :
    ¬ ∀ (lists : List ListStruct) (calls : List (ListOp × Bool)),
      (∀ list ∈ lists, list.Fits) →
      StepsMeet listStep (fun lists call => call.1.Valid lists) lists calls →
        StepsMeet listStep StepRefines lists calls := by
  intro h
  have hend : -1 ≤ listEnd := by decide
  obtain ⟨-, hstep, -⟩ := h newList tenBehindOne newList_fits ⟨hend, hend, trivial⟩
  have hcapacity := hstep.capacity
  have hcounts : ((ListOp.insertItems 0 none listEnd 10).exec true
      (listStep newList (.insertItems 0 none listEnd 1, true)).1).2.map
        (fun list => (list.numItems, list.listSize)) = [(11, 5)] := by decide
  obtain ⟨list, hlist, hcount⟩ := List.mem_map.mp
    (show (11, 5) ∈ ((ListOp.insertItems 0 none listEnd 10).exec true
      (listStep newList (.insertItems 0 none listEnd 1, true)).1).2.map
        (fun list => (list.numItems, list.listSize)) by rw [hcounts]; exact List.mem_singleton_self _)
  have hle := hcapacity list hlist
  obtain ⟨hnum, hsize⟩ := Prod.mk.inj hcount
  rw [hnum, hsize] at hle
  exact absurd hle (by decide)

end TateFirmware.Lists
