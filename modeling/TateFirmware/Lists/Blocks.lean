import TateFirmware.Support.Items
import TateFirmware.Support.Run

/-!
# The lists of `common/lists.c`

A list is a block behind a handle: a header, and items of one size from `itemList`
on.  `listSize` is the number of items that the block has room for, and grows by a
policy when the list is full.  The block is modeled as the memory from `itemList`
on together with its size, so that a write behind its end has an effect.

Positions count from `1`; a position in front of the first item is not followed, and
what a call writes is recorded by where it ends.
-/

namespace TateFirmware.Lists

open Support

/-! ## The source -/

/-- `sizeof (ListStruct)`. -/
def sizeofListStruct : ℕ := 28

/-- The offset of `itemList`. -/
def itemListOffset : ℕ := 24

/-- `LIST_START`. -/
def listStart : ℤ := -1

/-- `LIST_END`. -/
def listEnd : ℤ := 0

/-- `ListStruct` and the `HandleRecord` in front of it. -/
structure ListStruct where
  percentIncrease : ℕ
  minNumItemsIncrease : ℕ
  listSize : ℕ
  itemSize : ℕ
  numItems : ℕ
  itemList : Memory UInt8
  /-- `size` of the handle, an `unsigned int`. -/
  size : ℕ

/-- The size of a block with room for `n` items, an `unsigned int`. -/
def blockSize (itemSize n : ℕ) : ℕ := (sizeofListStruct + n * itemSize) % 2 ^ 32

/-- The size of `n` items as a `size_t`. -/
def ListStruct.bytes (list : ListStruct) (n : ℕ) : ℕ := list.itemSize * n % 2 ^ 32

/-- `SetHandleSize`; `room` says whether `realloc` finds the memory. -/
def setHandleSize (room : Bool) (newSize : ℕ) (list : ListStruct) : Bool × ListStruct :=
  if list.size = newSize then (true, list)
  else if room = true ∨ newSize = 0 then
    (true, { list with
      size := newSize
      itemList := list.itemList.fill (list.size - itemListOffset) (newSize - list.size) 0 })
  else (false, list)

/-- `NUMITEMSPERALLOC`, with the product of two `int`s. -/
def numItemsPerAlloc (list : ListStruct) : ℕ :=
  (max ((((list.listSize * (list.percentIncrease + 100) : ℕ) : ℤ).bmod (2 ^ 32)).tdiv 100)
    list.minNumItemsIncrease).toNat

/-- The number of items by which `ExpandListSpace` expands a list. -/
def growth (list : ListStruct) (numNewItems : ℤ) : ℕ :=
  if numNewItems = 0 then numItemsPerAlloc list
  else if numNewItems < 0 then numNewItems.natAbs + numItemsPerAlloc list
  else numNewItems.toNat

/-- `ExpandListSpace`. -/
def expandListSpace (room : Bool) (numNewItems : ℤ) (list : ListStruct) :
    Bool × ListStruct :=
  let grow := growth list numNewItems
  match setHandleSize room (blockSize list.itemSize (list.listSize + grow)) list with
  | (false, list) => (false, list)
  | (true, list) => (true, { list with listSize := list.listSize + grow })

/-- `ListCreate`, in a block of the contents `junk`. -/
def listCreate (junk : Memory UInt8) (elementSize : ℕ) : ListStruct where
  percentIncrease := 10
  minNumItemsIncrease := 4
  listSize := 0
  itemSize := elementSize
  numItems := 0
  itemList := junk
  size := sizeofListStruct

/-- What a call does: the value it returns, the list behind it, and where the bytes it
wrote to the items end. -/
structure Call where
  ret : Bool
  list : ListStruct
  high : ℕ := 0

/-- The bytes that are copied in, or zeros for a null pointer. -/
def sourceBytes (ptrToItems : Option (Memory UInt8)) (n : ℕ) : List UInt8 :=
  match ptrToItems with
  | some src => src.read 0 n
  | none => List.replicate n 0

/-- `ListInsertItems` behind the look at the space. -/
def insertInto (list : ListStruct) (ptrToItems : Option (Memory UInt8))
    (firstItemPosition : ℤ) (numItemsToInsert : ℕ) : Call :=
  let firstItemPosition :=
    if firstItemPosition = listStart then
      if list.numItems = 0 then listEnd else 1
    else firstItemPosition
  let new := sourceBytes ptrToItems (list.bytes numItemsToInsert)
  if firstItemPosition = listEnd then
    let place := list.itemSize * list.numItems
    { ret := true
      list := { list with
        itemList := list.itemList.copyIn place new
        numItems := list.numItems + numItemsToInsert }
      high := place + new.length }
  else
    let index := (firstItemPosition - 1).toNat
    let place := list.itemSize * index
    let moved := list.itemList.read place (list.bytes (list.numItems - index))
    let target := list.itemSize * (index + numItemsToInsert)
    { ret := true
      list := { list with
        itemList := (list.itemList.copyIn target moved).copyIn place new
        numItems := list.numItems + numItemsToInsert }
      high := max (target + moved.length) (place + new.length) }

/-- `ListInsertItems`. -/
def listInsertItems (room : Bool) (list : ListStruct) (ptrToItems : Option (Memory UInt8))
    (firstItemPosition : ℤ) (numItemsToInsert : ℕ) : Call :=
  if firstItemPosition > list.numItems + 1 then { ret := false, list := list }
  else
    let firstItemPosition :=
      if firstItemPosition = list.numItems + 1 then listEnd else firstItemPosition
    if list.numItems ≥ list.listSize then
      match expandListSpace room (-numItemsToInsert) list with
      | (false, list) => { ret := false, list := list }
      | (true, list) => insertInto list ptrToItems firstItemPosition numItemsToInsert
    else insertInto list ptrToItems firstItemPosition numItemsToInsert

/-- The index of the first item that `ListRemoveItems` removes. -/
def removeIndex (firstItemPosition : ℤ) (numItems : ℕ) : ℕ :=
  if firstItemPosition = listStart then 0
  else if firstItemPosition = listEnd then numItems - 1
  else (firstItemPosition - 1).toNat

/-- `ListRemoveItems`, and what it copies to `itemsDestination`. -/
def listRemoveItems (list : ListStruct) (firstItemPosition : ℤ) (numItemsToRemove : ℕ) :
    Call × List UInt8 :=
  let index := removeIndex firstItemPosition list.numItems
  let place := list.itemSize * index
  let moved := list.itemList.read (list.itemSize * (index + numItemsToRemove))
    (list.bytes (list.numItems - (index + numItemsToRemove)))
  ({ ret := true
     list := { list with
       itemList := list.itemList.copyIn place moved
       numItems := list.numItems - numItemsToRemove }
     high := place + moved.length },
    list.itemList.read place (list.bytes numItemsToRemove))

/-- `ListAppend` of two lists of items of one size, the second with items; `same` says
that the two handles are one. -/
def listAppend (room same : Bool) (list1 list2 : ListStruct) : Call :=
  let numItems := list1.numItems + list2.numItems
  match setHandleSize room (blockSize list1.itemSize numItems) list1 with
  | (false, list1) => { ret := false, list := list1 }
  | (true, list) =>
      let new := (if same then list else list2).itemList.read 0 (list2.bytes list2.numItems)
      let place := list.itemSize * list1.numItems
      { ret := true
        list := { list with
          listSize := numItems
          numItems := numItems
          itemList := list.itemList.copyIn place new }
        high := place + new.length }

/-- `ListCopy`, in a block of the contents `junk`; `none` is a null pointer. -/
def listCopy (room : Bool) (junk : Memory UInt8) (originalList : ListStruct) :
    Option Call :=
  if room = false then none
  else
    match setHandleSize room (blockSize originalList.itemSize originalList.numItems)
        (listCreate junk originalList.itemSize) with
    | (false, _) => none
    | (true, tempList) =>
        let new := originalList.itemList.read 0 (originalList.bytes originalList.numItems)
        some
          { ret := true
            list :=
              { percentIncrease := originalList.percentIncrease
                minNumItemsIncrease := originalList.minNumItemsIncrease
                listSize := originalList.numItems
                itemSize := originalList.itemSize
                numItems := originalList.numItems
                itemList := tempList.itemList.copyIn 0 new
                size := tempList.size }
            high := new.length }

/-- `ListCompact`; it returns nothing, and leaves the list when `SetHandleSize` fails. -/
def listCompact (room : Bool) (list : ListStruct) : Call :=
  match setHandleSize room (blockSize list.itemSize list.numItems) list with
  | (false, list) => { ret := false, list := list }
  | (true, list) => { ret := true, list := { list with listSize := list.numItems } }

/-- `ListPreAllocate`. -/
def listPreAllocate (room : Bool) (list : ListStruct) (numItems : ℤ) : Call :=
  if (list.listSize : ℤ) - list.numItems < numItems then
    match expandListSpace room (numItems - (list.listSize - list.numItems)) list with
    | (ok, list) => { ret := ok, list := list }
  else { ret := true, list := list }

end TateFirmware.Lists
