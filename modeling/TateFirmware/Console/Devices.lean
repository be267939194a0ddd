import TateFirmware.LibGeneric.CString
import TateFirmware.Support.Memory

/-!
# Console devices

`device_register` and `device_deregister` of `common/devices.c` with the list
functions of `common/lists.c` they use, and the assignment of
`console_setfile`.  The list is a growable array: its items stand behind a
header at `base`, and `stdio_devices` points to items.  Where a name is read
through a pointer that is not an item, memory elsewhere is read.
-/

namespace TateFirmware.Console

open LibGeneric Support

/-! ## Devices -/

/-- `device_t`: the name field, which holds a string, and the other fields. -/
structure Device where
  nameField : List UInt8
  nameField_length : nameField.length = 16
  terminated : (0 : UInt8) ∈ nameField
  fields : List UInt8
deriving DecidableEq

/-- The name of a device. -/
def Device.name (d : Device) : List UInt8 := cstr d.nameField

/-- `MAX_FILES`. -/
abbrev maxFiles : ℕ := 3

/-- `sizeof(device_t)`, the `itemSize` of the list. -/
def itemSize : ℕ := 52

/-- `devlist` and `stdio_devices`. -/
structure Devices where
  base : ℕ
  listSize : ℕ
  items : List Device
  stdio : Fin maxFiles → ℕ

/-- `ITEMPTR`; the items stand behind six words. -/
def itemPtr (base i : ℕ) : ℕ := base + 24 + itemSize * i

/-! ## Registering -/

/-- `NUMITEMSPERALLOC`. -/
def numItemsPerAlloc (listSize : ℕ) : ℕ := max (listSize * 110 / 100) 4

/-- `ExpandListSpace(list, -1)`; `realloc` is where the list goes, and `none`
when there is no memory. -/
def expandListSpace (realloc : Option ℕ) (s : Devices) : Option Devices :=
  realloc.map fun base =>
    { s with
      base := base
      listSize := s.listSize + (1 + numItemsPerAlloc s.listSize) }

/-- `ListInsertItem` at the end of the list. -/
def listInsertItem (d : Device) (realloc : Option ℕ) (s : Devices) : Devices :=
  if s.listSize ≤ s.items.length then
    match expandListSpace realloc s with
    | none => s
    | some s => { s with items := s.items ++ [d] }
  else { s with items := s.items ++ [d] }

/-- `device_register`, which returns 0. -/
def deviceRegister (d : Device) (realloc : Option ℕ) (s : Devices) : Devices :=
  listInsertItem d realloc s

/-! ## Deregistering -/

/-- `stdio_devices[l]->name`. -/
def stdioName (s : Devices) (elsewhere : Memory UInt8) (l : Fin maxFiles) :
    List UInt8 :=
  match (List.range s.items.length).find?
      (fun i => s.stdio l = itemPtr s.base i) with
  | none => elsewhere.read (s.stdio l + 8) 16
  | some i => (s.items.map Device.nameField).getD i []

/-- The loop that saves the names of the assigned devices in `temp_names`, from
entry `l` on; `true` when the device at `dev` is assigned. -/
def saveNames (s : Devices) (elsewhere : Memory UInt8) (dev : ℕ) :
    List (Fin maxFiles) → TrackedMemory UInt8 → Bool × TrackedMemory UInt8
  | [], temp => (false, temp)
  | l :: ls, temp =>
      if s.stdio l = dev then (true, temp)
      else
        saveNames s elsewhere dev ls
          (temp.copyIn (8 * l.1) (stdioName s elsewhere l))

/-- `strcmp(name, p) == 0`. -/
def strcmpEq (name : List UInt8) (m : Memory UInt8) (p : ℕ) : Bool :=
  m.read p (name.length + 1) == name ++ [0]

/-- The loop that reassigns `stdio_devices`, from item `i` on. -/
def reassign (temp : Memory UInt8) (base : ℕ) :
    ℕ → List Device → (Fin maxFiles → ℕ) → Fin maxFiles → ℕ
  | _, [], stdio => stdio
  | i, d :: ds, stdio =>
      reassign temp base (i + 1) ds fun l =>
        if strcmpEq d.name temp (8 * l.1) then itemPtr base i else stdio l

/-- `sizeof(temp_names)`. -/
def tempNamesSize : ℕ := 3 * 8

/-- What a call of `device_deregister` returns, and how far it has written
into `temp_names`. -/
structure Deregistered where
  rcode : ℤ
  high : ℕ
deriving DecidableEq

/-- `device_deregister`; `stack` is the memory from `temp_names` on. -/
def deviceDeregister (devname : List UInt8) (elsewhere stack : Memory UInt8)
    (s : Devices) : Deregistered × Devices :=
  match s.items.findIdx? fun d => d.name = devname with
  | none => (⟨0, 0⟩, s)
  | some i =>
      match saveNames s elsewhere (itemPtr s.base i)
          (List.finRange maxFiles) ⟨stack, 0⟩ with
      | (true, temp) => (⟨-1, temp.high⟩, s)
      | (false, temp) =>
          let items := s.items.eraseIdx i
          (⟨0, temp.high⟩,
            { s with
              items := items
              stdio := reassign temp.cell s.base 0 items s.stdio })

/-! ## Runs -/

inductive Event where
  /-- `device_register`, with the outcome of `realloc` if it is called. -/
  | register (d : Device) (realloc : Option ℕ)
  /-- `device_deregister`. -/
  | deregister (devname : List UInt8) (elsewhere stack : Memory UInt8)
  /-- `console_setfile` assigns item `i` to a file. -/
  | assign (file : Fin maxFiles) (i : ℕ)

/-- The devices; the devices registered and not deregistered; and the names
that have been assigned. -/
structure World where
  dev : Devices
  registered : List Device
  assigned : Fin maxFiles → Option (List UInt8)

/-- One event, and what a deregistration reports. -/
def step (w : World) : Event → World × List Deregistered
  | .register d realloc =>
      ({ w with
        dev := deviceRegister d realloc w.dev
        registered := w.registered ++ [d] }, [])
  | .deregister devname elsewhere stack =>
      let result := deviceDeregister devname elsewhere stack w.dev
      ({ w with
        dev := result.2
        registered :=
          if result.1.rcode = 0 then
            w.registered.eraseP fun d => d.name = devname
          else w.registered }, [result.1])
  | .assign file i =>
      match w.dev.items[i]? with
      | none => (w, [])
      | some d =>
          ({ w with
            dev := { w.dev with
              stdio := Function.update w.dev.stdio file
                (itemPtr w.dev.base i) }
            assigned := Function.update w.assigned file (some d.name) }, [])

end TateFirmware.Console
