import TateFirmware.LibGeneric.CString
import TateFirmware.Support.CutRecords
import TateFirmware.Support.Memory

/-!
# Descriptors on the control endpoint

`doUsbReqGetDescriptor` of `drivers/fastboot.c` answers the request for a descriptor.
It builds the descriptor in `fastboot_fifo`, a buffer of 64 bytes, and writes the
buffer to the endpoint byte by byte.  The buffer is a tracked memory, since the
strings are not compared with its size.
-/

namespace TateFirmware.Fastboot

open LibGeneric Support

/-! ## The descriptors -/

/-- `MUSB_EP0_FIFOSIZE`. -/
def musbEp0Fifosize : ℕ := 64

/-- `USB_DT_DEVICE`. -/
def usbDtDevice : ℕ := 0x01

/-- `USB_DT_CONFIG`. -/
def usbDtConfig : ℕ := 0x02

/-- `USB_DT_STRING`. -/
def usbDtString : ℕ := 0x03

/-- `USB_DT_INTERFACE`. -/
def usbDtInterface : ℕ := 0x04

/-- `USB_DT_ENDPOINT`. -/
def usbDtEndpoint : ℕ := 0x05

/-- `USB_DT_DEVICE_QUALIFIER`. -/
def usbDtDeviceQualifier : ℕ := 0x06

/-- `DEVICE_STRING_MAX_INDEX`. -/
def deviceStringMaxIndex : ℕ := 8

/-- `DEVICE_STRING_LANGUAGE_ID`. -/
def deviceStringLanguageId : ℕ := 0x0409

/-- The bytes of a `u8` and a `u16` field. -/
def u8Bytes (n : ℕ) : List UInt8 := [UInt8.ofNat n]

def u16Bytes (n : ℕ) : List UInt8 := [UInt8.ofNat n, UInt8.ofNat (n / 2 ^ 8)]

/-- `struct usb_device_descriptor`. -/
structure UsbDeviceDescriptor where
  bLength : ℕ
  bDescriptorType : ℕ
  bcdUSB : ℕ
  bDeviceClass : ℕ
  bDeviceSubClass : ℕ
  bDeviceProtocol : ℕ
  bMaxPacketSize0 : ℕ
  idVendor : ℕ
  idProduct : ℕ
  bcdDevice : ℕ
  iManufacturer : ℕ
  iProduct : ℕ
  iSerialNumber : ℕ
  bNumConfigurations : ℕ

/-- The packed structure in memory. -/
def UsbDeviceDescriptor.bytes (d : UsbDeviceDescriptor) : List UInt8 :=
  u8Bytes d.bLength ++ u8Bytes d.bDescriptorType ++ u16Bytes d.bcdUSB ++
    u8Bytes d.bDeviceClass ++ u8Bytes d.bDeviceSubClass ++
    u8Bytes d.bDeviceProtocol ++ u8Bytes d.bMaxPacketSize0 ++
    u16Bytes d.idVendor ++ u16Bytes d.idProduct ++ u16Bytes d.bcdDevice ++
    u8Bytes d.iManufacturer ++ u8Bytes d.iProduct ++ u8Bytes d.iSerialNumber ++
    u8Bytes d.bNumConfigurations

/-- `struct usb_configuration_descriptor`. -/
structure UsbConfigurationDescriptor where
  bLength : ℕ
  bDescriptorType : ℕ
  wTotalLength : ℕ
  bNumInterfaces : ℕ
  bConfigurationValue : ℕ
  iConfiguration : ℕ
  bmAttributes : ℕ
  bMaxPower : ℕ

/-- The packed structure in memory. -/
def UsbConfigurationDescriptor.bytes (c : UsbConfigurationDescriptor) : List UInt8 :=
  u8Bytes c.bLength ++ u8Bytes c.bDescriptorType ++ u16Bytes c.wTotalLength ++
    u8Bytes c.bNumInterfaces ++ u8Bytes c.bConfigurationValue ++
    u8Bytes c.iConfiguration ++ u8Bytes c.bmAttributes ++ u8Bytes c.bMaxPower

/-- `struct usb_interface_descriptor`. -/
structure UsbInterfaceDescriptor where
  bLength : ℕ
  bDescriptorType : ℕ
  bInterfaceNumber : ℕ
  bAlternateSetting : ℕ
  bNumEndpoints : ℕ
  bInterfaceClass : ℕ
  bInterfaceSubClass : ℕ
  bInterfaceProtocol : ℕ
  iInterface : ℕ

/-- The packed structure in memory. -/
def UsbInterfaceDescriptor.bytes (i : UsbInterfaceDescriptor) : List UInt8 :=
  u8Bytes i.bLength ++ u8Bytes i.bDescriptorType ++ u8Bytes i.bInterfaceNumber ++
    u8Bytes i.bAlternateSetting ++ u8Bytes i.bNumEndpoints ++
    u8Bytes i.bInterfaceClass ++ u8Bytes i.bInterfaceSubClass ++
    u8Bytes i.bInterfaceProtocol ++ u8Bytes i.iInterface

/-- `struct usb_endpoint_descriptor`. -/
structure UsbEndpointDescriptor where
  bLength : ℕ
  bDescriptorType : ℕ
  bEndpointAddress : ℕ
  bmAttributes : ℕ
  wMaxPacketSize : ℕ
  bInterval : ℕ

/-- The packed structure in memory. -/
def UsbEndpointDescriptor.bytes (e : UsbEndpointDescriptor) : List UInt8 :=
  u8Bytes e.bLength ++ u8Bytes e.bDescriptorType ++ u8Bytes e.bEndpointAddress ++
    u8Bytes e.bmAttributes ++ u16Bytes e.wMaxPacketSize ++ u8Bytes e.bInterval

/-- `struct usb_qualifier_descriptor`. -/
structure UsbQualifierDescriptor where
  bLength : ℕ
  bDescriptorType : ℕ
  bcdUSB : ℕ
  bDeviceClass : ℕ
  bDeviceSubClass : ℕ
  bDeviceProtocol : ℕ
  bMaxPacketSize0 : ℕ
  bNumConfigurations : ℕ
  bRESERVED : ℕ

/-- The packed structure in memory. -/
def UsbQualifierDescriptor.bytes (d : UsbQualifierDescriptor) : List UInt8 :=
  u8Bytes d.bLength ++ u8Bytes d.bDescriptorType ++ u16Bytes d.bcdUSB ++
    u8Bytes d.bDeviceClass ++ u8Bytes d.bDeviceSubClass ++
    u8Bytes d.bDeviceProtocol ++ u8Bytes d.bMaxPacketSize0 ++
    u8Bytes d.bNumConfigurations ++ u8Bytes d.bRESERVED

/-- `d` of the device request. -/
def deviceDescriptor (bLength : ℕ) : UsbDeviceDescriptor where
  bLength := bLength
  bDescriptorType := usbDtDevice
  bcdUSB := 0x200
  bDeviceClass := 0x00
  bDeviceSubClass := 0x00
  bDeviceProtocol := 0x00
  bMaxPacketSize0 := 0x40
  idVendor := 0x1949
  idProduct := 0x0007
  bcdDevice := 0x0100
  iManufacturer := 5
  iProduct := 1
  iSerialNumber := 2
  bNumConfigurations := 1

/-- `c` of the configuration request. -/
def configDescriptor (bLength : ℕ) : UsbConfigurationDescriptor where
  bLength := bLength
  bDescriptorType := usbDtConfig
  wTotalLength := 9 + 9 + 7 + 7
  bNumInterfaces := 1
  bConfigurationValue := 1
  iConfiguration := 3
  bmAttributes := 0xc0
  bMaxPower := 0x32

/-- `i` of the configuration request. -/
def interfaceDescriptor (bLength : ℕ) : UsbInterfaceDescriptor where
  bLength := bLength
  bDescriptorType := usbDtInterface
  bInterfaceNumber := 0x00
  bAlternateSetting := 0x00
  bNumEndpoints := 0x02
  bInterfaceClass := 0xff
  bInterfaceSubClass := 0x42
  bInterfaceProtocol := 0x03
  iInterface := 4

/-- `e1` of the configuration request. -/
def inEndpointDescriptor (bLength : ℕ) : UsbEndpointDescriptor where
  bLength := bLength
  bDescriptorType := usbDtEndpoint
  bEndpointAddress := 0x80 + 1
  bmAttributes := 0x02
  wMaxPacketSize := 0x0200
  bInterval := 0x00

/-- `e2` of the configuration request. -/
def outEndpointDescriptor (highSpeed : Bool) (bLength : ℕ) :
    UsbEndpointDescriptor where
  bLength := bLength
  bDescriptorType := usbDtEndpoint
  bEndpointAddress := 1
  bmAttributes := 0x02
  wMaxPacketSize := if highSpeed then 0x0200 else 0x0040
  bInterval := 0x00

/-- `d` of the qualifier request. -/
def qualifierDescriptor (bLength : ℕ) : UsbQualifierDescriptor where
  bLength := bLength
  bDescriptorType := usbDtDeviceQualifier
  bcdUSB := 0x200
  bDeviceClass := 0xff
  bDeviceSubClass := 0xff
  bDeviceProtocol := 0xff
  bMaxPacketSize0 := 0x40
  bNumConfigurations := 1
  bRESERVED := 0

/-! ## The request -/

/-- The fields of `struct usb_device_request` that are read. -/
structure UsbDeviceRequest where
  wValue : UInt16
  wLength : UInt16

/-- What is stored into `csr0` last. -/
inductive Csr0 where
  /-- `ACK_REQ`. -/
  | ack
  /-- `NAK_REQ`. -/
  | nak
  /-- `TX_LAST`. -/
  | txLast
  | unchanged
deriving DecidableEq, Repr

/-- The bytes written to the endpoint, `fastboot_fifo` and the last store to
`csr0`. -/
structure Ep0 where
  sent : List UInt8
  fifo : TrackedMemory UInt8
  csr0 : Csr0

/-- The loops over `byteLoop`. -/
def writeFifo (fifo : TrackedMemory UInt8) (n : ℕ) : Ep0 :=
  ⟨fifo.cell.read 0 n, fifo, .txLast⟩

/-- The device request and the qualifier request: `size` is `sizeof (d)`. -/
def getSingle (size : ℕ) (bytes : ℕ → List UInt8) (wLength : ℕ)
    (fifo : TrackedMemory UInt8) : Ep0 :=
  let bLength := min wLength size
  writeFifo (fifo.copyIn 0 ((bytes bLength).take bLength)) bLength

/-- The locals of the configuration request. -/
structure Loading where
  bytesRemaining : ℕ
  bytesTotal : ℕ
  fifo : TrackedMemory UInt8

/-- One of the four descriptors of the configuration request. -/
def loadDescriptor (size : ℕ) (bytes : ℕ → List UInt8) (l : Loading) : Loading :=
  let bLength := min l.bytesRemaining size
  { bytesRemaining := l.bytesRemaining - bLength
    bytesTotal := l.bytesTotal + bLength
    fifo := l.fifo.copyIn l.bytesTotal ((bytes bLength).take bLength) }

/-- The configuration request.  `bytes_remaining` is an `unsigned char`. -/
def getConfig (highSpeed : Bool) (wLength : ℕ) (fifo : TrackedMemory UInt8) : Ep0 :=
  let l : Loading := ⟨wLength % 2 ^ 8, 0, fifo⟩
  let l := loadDescriptor 9 (fun n => (configDescriptor n).bytes) l
  let l := loadDescriptor 9 (fun n => (interfaceDescriptor n).bytes) l
  let l := loadDescriptor 7 (fun n => (inEndpointDescriptor n).bytes) l
  let l := loadDescriptor 7 (fun n => (outEndpointDescriptor highSpeed n).bytes) l
  writeFifo l.fifo l.bytesTotal

/-- The language ids. -/
def getLanguage (wLength : ℕ) (fifo : TrackedMemory UInt8) : Ep0 :=
  let bLength := min 4 wLength
  let fifo := fifo.store 0 (UInt8.ofNat bLength)
  let fifo := fifo.store 1 (UInt8.ofNat usbDtString)
  let fifo := fifo.store 2 (UInt8.ofNat deviceStringLanguageId)
  let fifo := fifo.store 3 (UInt8.ofNat (deviceStringLanguageId / 2 ^ 8))
  writeFifo fifo bLength

/-- The loop that copies the first `sl` characters of a string. -/
def copyString (str : List UInt8) (sl : ℕ) (fifo : TrackedMemory UInt8) :
    TrackedMemory UInt8 :=
  (List.range sl).foldl (fun fifo s =>
    (fifo.store (2 + 2 * s) (str.getD s 0)).store (2 + 2 * s + 1) 0) fifo

/-- A device string.  `sl` and `bLength` are of type `unsigned char`. -/
def getString (str : List UInt8) (wLength : ℕ) (fifo : TrackedMemory UInt8) : Ep0 :=
  let sl := str.length % 2 ^ 8
  let bLength := (2 + 2 * sl) % 2 ^ 8
  let numbytesToSend := min bLength wLength
  let fifo := fifo.store 0 (UInt8.ofNat bLength)
  let fifo := fifo.store 1 (UInt8.ofNat usbDtString)
  writeFifo (copyString str sl fifo) numbytesToSend

/-- `do_usb_req_get_descriptor`.  `device_strings` are the characters in front of the
NUL of each string. -/
def doUsbReqGetDescriptor (deviceStrings : ℕ → List UInt8) (highSpeed : Bool)
    (req : UsbDeviceRequest) (fifo : Memory UInt8) : Ep0 :=
  let fifo : TrackedMemory UInt8 := ⟨fifo, 0⟩
  let wLength := req.wLength.toNat
  let type := req.wValue.toNat / 2 ^ 8
  let stringIndex := req.wValue.toNat % 2 ^ 8
  if wLength = 0 then ⟨[], fifo, .ack⟩
  else if type = usbDtDevice then
    getSingle 18 (fun n => (deviceDescriptor n).bytes) wLength fifo
  else if type = usbDtConfig then getConfig highSpeed wLength fifo
  else if type = usbDtString then
    if stringIndex > deviceStringMaxIndex then ⟨[], fifo, .unchanged⟩
    else if stringIndex = 0 then getLanguage wLength fifo
    else getString (deviceStrings stringIndex) wLength fifo
  else if type = usbDtDeviceQualifier then
    getSingle 10 (fun n => (qualifierDescriptor n).bytes) wLength fifo
  else ⟨[], fifo, .nak⟩

/-! ## What a request is for -/

/-- A string in 16-bit characters. -/
def wideString (str : List UInt8) : List UInt8 := str.flatMap fun c => [c, 0]

/-- The descriptor asked for; nothing if there is none. -/
def fullDescriptor (deviceStrings : ℕ → List UInt8) (highSpeed : Bool)
    (wValue : UInt16) : List UInt8 :=
  let type := wValue.toNat / 2 ^ 8
  let stringIndex := wValue.toNat % 2 ^ 8
  if type = usbDtDevice then (deviceDescriptor 18).bytes
  else if type = usbDtConfig then
    (configDescriptor 9).bytes ++ (interfaceDescriptor 9).bytes ++
      (inEndpointDescriptor 7).bytes ++ (outEndpointDescriptor highSpeed 7).bytes
  else if type = usbDtString then
    if stringIndex > deviceStringMaxIndex then []
    else if stringIndex = 0 then
      u8Bytes 4 ++ u8Bytes usbDtString ++ u16Bytes deviceStringLanguageId
    else
      u8Bytes (2 + 2 * (deviceStrings stringIndex).length) ++ u8Bytes usbDtString ++
        wideString (deviceStrings stringIndex)
  else if type = usbDtDeviceQualifier then (qualifierDescriptor 10).bytes
  else []

/-- As many bytes as asked for or there are are sent, they are the first of the
descriptor, and nothing is stored behind the end of `fastboot_fifo`. -/
structure Transmits (full : List UInt8) (wLength : ℕ) (r : Ep0) : Prop where
  count : r.sent.length = min wLength full.length
  start : r.sent <+: full
  inside : r.fifo.high ≤ musbEp0Fifosize

/-- The requests that are answered as they should. -/
def Answered (deviceStrings : ℕ → List UInt8) (req : UsbDeviceRequest) : Prop :=
  let wLength := req.wLength.toNat
  let type := req.wValue.toNat / 2 ^ 8
  let stringIndex := req.wValue.toNat % 2 ^ 8
  let length := (deviceStrings stringIndex).length
  wLength = 0 ∨
    if type = usbDtDevice then 18 ≤ wLength
    else if type = usbDtConfig then
      wLength = 9 ∨ wLength = 18 ∨ wLength = 25 ∨ 32 ≤ wLength % 2 ^ 8
    else if type = usbDtString then
      if stringIndex > deviceStringMaxIndex then True
      else if stringIndex = 0 then 4 ≤ wLength
      else
        length % 2 ^ 8 ≤ 31 ∧ (length < 2 ^ 8 ∨ wLength ≤ 2 + 2 * (length % 2 ^ 8))
    else if type = usbDtDeviceQualifier then 10 ≤ wLength
    else True

/-! ## Descriptors as records -/

theorem transmits_iff {full : List UInt8} {n : ℕ} {r : Ep0}
    (hcount : r.sent.length = min n full.length)
    (hinside : r.fifo.high ≤ musbEp0Fifosize) :
    Transmits full n r ↔ r.sent = full.take n := by
  constructor
  · intro h
    have htake := List.prefix_iff_eq_take.mp h.start
    rw [htake, hcount]
    exact List.take_eq_take_iff.mpr (by omega)
  · intro h
    exact ⟨hcount, h ▸ List.take_prefix n full, hinside⟩

/-- Where a request sends a cut chain, it does so as it should exactly behind a
record. -/
theorem transmits_chain_iff {bodies : List (List UInt8)} {r : Ep0} {n : ℕ}
    (hbyte : ∀ body ∈ bodies, recordLength body < 256)
    (hsent : r.sent = cutChain bodies n) (hinside : r.fifo.high ≤ musbEp0Fifosize) :
    Transmits (wholeChain bodies) n r ↔ Boundary bodies n := by
  rw [transmits_iff (by rw [hsent, cutChain_length]) hinside, hsent,
    cutChain_eq_take_iff hbyte]

/-- The bytes behind the length of a descriptor. -/
def bodyOf (bytes : ℕ → List UInt8) : List UInt8 := (bytes 0).tail

/-- A single descriptor is sent as it should unless it is cut. -/
theorem getSingle_transmits_iff (size : ℕ) (bytes : ℕ → List UInt8)
    (hbytes : ∀ n, bytes n = announce n (bodyOf bytes))
    (hsize : recordLength (bodyOf bytes) = size) (hbound : size ≤ musbEp0Fifosize)
    (n : ℕ) {fifo : TrackedMemory UInt8} (hfifo : fifo.high ≤ musbEp0Fifosize) :
    Transmits (bytes size) n (getSingle size bytes n fifo) ↔ n = 0 ∨ size ≤ n := by
  have hfull : bytes size = wholeChain [bodyOf bytes] := by
    rw [hbytes, wholeChain_cons, wholeChain_nil, List.append_nil, wholeRecord, hsize]
  have hcut : (bytes (min n size)).take (min n size) = cutRecord n (bodyOf bytes) := by
    rw [cutRecord, hsize, hbytes]
  have hlen : (cutRecord n (bodyOf bytes)).length = min n size := by
    rw [cutRecord_length, hsize]
  have hholds := Memory.holds_copyIn fifo.cell 0 (cutRecord n (bodyOf bytes))
  have hsent : (getSingle size bytes n fifo).sent = cutChain [bodyOf bytes] n := by
    have hread := hholds.read_eq
    rw [hlen] at hread
    rw [cutChain, cutChain, List.append_nil]
    simp only [getSingle, writeFifo, hcut, TrackedMemory.copyIn_cell]
    exact hread
  have hinside : (getSingle size bytes n fifo).fifo.high ≤ musbEp0Fifosize := by
    simp only [getSingle, writeFifo, hcut]
    exact TrackedMemory.copyIn_high_le hfifo (by omega)
  have hbyte : ∀ body ∈ [bodyOf bytes], recordLength body < 256 := by
    have hfit : musbEp0Fifosize < 256 := by decide
    intro body hbody
    rw [List.mem_singleton.mp hbody]
    omega
  rw [hfull, transmits_chain_iff hbyte hsent hinside]
  simp only [Boundary, hsize, and_true]

theorem deviceDescriptor_bytes (n : ℕ) : (deviceDescriptor n).bytes =
    announce n (bodyOf fun n => (deviceDescriptor n).bytes) := rfl

theorem qualifierDescriptor_bytes (n : ℕ) : (qualifierDescriptor n).bytes =
    announce n (bodyOf fun n => (qualifierDescriptor n).bytes) := rfl

theorem getDevice_transmits_iff (n : ℕ) {fifo : TrackedMemory UInt8}
    (hfifo : fifo.high ≤ musbEp0Fifosize) :
    Transmits (deviceDescriptor 18).bytes n
        (getSingle 18 (fun n => (deviceDescriptor n).bytes) n fifo) ↔
      n = 0 ∨ 18 ≤ n :=
  getSingle_transmits_iff 18 (fun n => (deviceDescriptor n).bytes)
    deviceDescriptor_bytes (by decide) (by decide) n hfifo

theorem getQualifier_transmits_iff (n : ℕ) {fifo : TrackedMemory UInt8}
    (hfifo : fifo.high ≤ musbEp0Fifosize) :
    Transmits (qualifierDescriptor 10).bytes n
        (getSingle 10 (fun n => (qualifierDescriptor n).bytes) n fifo) ↔
      n = 0 ∨ 10 ≤ n :=
  getSingle_transmits_iff 10 (fun n => (qualifierDescriptor n).bytes)
    qualifierDescriptor_bytes (by decide) (by decide) n hfifo

/-! ## The configuration -/

/-- With the descriptors still to be loaded, the buffer will hold `whole`. -/
def Towards (whole : List UInt8) (bodies : List (List UInt8)) (l : Loading) : Prop :=
  ∃ loaded, loaded ++ cutChain bodies l.bytesRemaining = whole ∧
    Memory.Holds l.fifo.cell 0 loaded ∧ l.bytesTotal = loaded.length ∧
    l.fifo.high ≤ loaded.length

theorem Towards.load {whole : List UInt8} {bytes : ℕ → List UInt8}
    {bodies : List (List UInt8)} {l : Loading} {size : ℕ}
    (h : Towards whole (bodyOf bytes :: bodies) l)
    (hbytes : ∀ n, bytes n = announce n (bodyOf bytes))
    (hsize : recordLength (bodyOf bytes) = size) :
    Towards whole bodies (loadDescriptor size bytes l) := by
  obtain ⟨loaded, hwhole, hholds, htotal, hhigh⟩ := h
  have hcut : (bytes (min l.bytesRemaining size)).take (min l.bytesRemaining size) =
      cutRecord l.bytesRemaining (bodyOf bytes) := by rw [cutRecord, hsize, hbytes]
  have happend := hholds.append_copyIn (cutRecord l.bytesRemaining (bodyOf bytes))
  rw [Nat.zero_add] at happend
  unfold loadDescriptor
  dsimp only
  rw [hcut, htotal]
  refine ⟨loaded ++ cutRecord l.bytesRemaining (bodyOf bytes), ?_, happend, ?_, ?_⟩
  · rw [cutChain, hsize] at hwhole
    rw [List.append_assoc]
    exact hwhole
  · rw [List.length_append, cutRecord_length, hsize]
  · rw [List.length_append]
    exact TrackedMemory.copyIn_high_le (by omega) (by omega)

/-- The bodies of the four descriptors. -/
def configBodies (highSpeed : Bool) : List (List UInt8) :=
  [bodyOf fun n => (configDescriptor n).bytes,
    bodyOf fun n => (interfaceDescriptor n).bytes,
    bodyOf fun n => (inEndpointDescriptor n).bytes,
    bodyOf fun n => (outEndpointDescriptor highSpeed n).bytes]

theorem wholeChain_configBodies (highSpeed : Bool) :
    wholeChain (configBodies highSpeed) =
      (configDescriptor 9).bytes ++ (interfaceDescriptor 9).bytes ++
        (inEndpointDescriptor 7).bytes ++ (outEndpointDescriptor highSpeed 7).bytes :=
  rfl

/-- The configuration request sends the chain of the four descriptors, cut to what
is left of the length in eight bits. -/
theorem getConfig_sent (highSpeed : Bool) (wLength : ℕ) (fifo : Memory UInt8) :
    (getConfig highSpeed wLength ⟨fifo, 0⟩).sent =
        cutChain (configBodies highSpeed) (wLength % 2 ^ 8) ∧
      (getConfig highSpeed wLength ⟨fifo, 0⟩).fifo.high ≤ musbEp0Fifosize := by
  have hstart : Towards (cutChain (configBodies highSpeed) (wLength % 2 ^ 8))
      (configBodies highSpeed) ⟨wLength % 2 ^ 8, 0, ⟨fifo, 0⟩⟩ :=
    ⟨[], rfl, Memory.holds_nil _ _, rfl, le_rfl⟩
  have hconfig : Towards _ _ (loadDescriptor 9 (fun n => (configDescriptor n).bytes) _) :=
    hstart.load (fun _ => rfl) rfl
  have hinterface :
      Towards _ _ (loadDescriptor 9 (fun n => (interfaceDescriptor n).bytes) _) :=
    hconfig.load (fun _ => rfl) rfl
  have hin : Towards _ _ (loadDescriptor 7 (fun n => (inEndpointDescriptor n).bytes) _) :=
    hinterface.load (fun _ => rfl) rfl
  have hout :
      Towards _ _
        (loadDescriptor 7 (fun n => (outEndpointDescriptor highSpeed n).bytes) _) :=
    hin.load (fun _ => rfl) rfl
  obtain ⟨loaded, hwhole, hholds, htotal, hhigh⟩ := hout
  rw [cutChain, List.append_nil] at hwhole
  subst hwhole
  have hlen := cutChain_length (configBodies highSpeed) (wLength % 2 ^ 8)
  have hfull : (wholeChain (configBodies highSpeed)).length ≤ musbEp0Fifosize := by
    cases highSpeed <;> decide
  unfold getConfig writeFifo
  dsimp only
  refine ⟨?_, by omega⟩
  rw [htotal]
  exact hholds.read_eq

theorem boundary_configBodies (highSpeed : Bool) (n : ℕ) :
    Boundary (configBodies highSpeed) n ↔
      n = 0 ∨ n = 9 ∨ n = 18 ∨ n = 25 ∨ 32 ≤ n := by
  have hconfig : recordLength (bodyOf fun n => (configDescriptor n).bytes) = 9 := rfl
  have hinterface :
      recordLength (bodyOf fun n => (interfaceDescriptor n).bytes) = 9 := rfl
  have hin : recordLength (bodyOf fun n => (inEndpointDescriptor n).bytes) = 7 := rfl
  have hout :
      recordLength (bodyOf fun n => (outEndpointDescriptor highSpeed n).bytes) = 7 := rfl
  simp only [configBodies, Boundary, hconfig, hinterface, hin, hout, and_true]
  omega

/-- A configuration is sent as it should if it is cut behind a descriptor, or not
cut, in spite of the eight bits of the length. -/
theorem getConfig_transmits_iff (highSpeed : Bool) (n : ℕ) (fifo : Memory UInt8) :
    Transmits (wholeChain (configBodies highSpeed)) n
        (getConfig highSpeed n ⟨fifo, 0⟩) ↔
      n = 0 ∨ n = 9 ∨ n = 18 ∨ n = 25 ∨ 32 ≤ n % 2 ^ 8 := by
  obtain ⟨hsent, hinside⟩ := getConfig_sent highSpeed n fifo
  have hbyte : ∀ body ∈ configBodies highSpeed, recordLength body < 256 := by
    cases highSpeed <;> decide
  have hfull : (wholeChain (configBodies highSpeed)).length = 32 := by
    cases highSpeed <;> rfl
  rcases Nat.lt_or_ge n 256 with hlt | hge
  · have hmod : n % 2 ^ 8 = n := Nat.mod_eq_of_lt hlt
    rw [hmod] at hsent ⊢
    rw [transmits_chain_iff hbyte hsent hinside, boundary_configBodies]
  · constructor
    · intro h
      have hcount := h.count
      rw [hsent, cutChain_length, hfull] at hcount
      omega
    · intro h
      have hrest : 32 ≤ n % 2 ^ 8 := by omega
      have hwhole := (cutChain_eq_take_iff hbyte (n % 2 ^ 8)).mpr
        ((boundary_configBodies highSpeed _).mpr (by omega))
      rw [List.take_of_length_le (by omega)] at hwhole
      rw [hwhole] at hsent
      exact ⟨by rw [hsent, hfull]; omega, hsent ▸ List.prefix_refl _, hinside⟩

/-! ## The strings -/

/-- The language ids behind their length. -/
def languageBody : List UInt8 := u8Bytes usbDtString ++ u16Bytes deviceStringLanguageId

/-- The language ids are sent as they should unless they are cut. -/
theorem getLanguage_transmits_iff (n : ℕ) (fifo : Memory UInt8) :
    Transmits (wholeChain [languageBody]) n (getLanguage n ⟨fifo, 0⟩) ↔
      n = 0 ∨ 4 ≤ n := by
  have hlen : recordLength languageBody = 4 := rfl
  have hholds : Memory.Holds (getLanguage n ⟨fifo, 0⟩).fifo.cell 0
      (announce (min 4 n) languageBody) := by
    apply Memory.holds_iff_read.mpr
    simp [Memory.read, List.range_succ, getLanguage, writeFifo, TrackedMemory.store,
      Memory.store, announce, languageBody, u8Bytes, u16Bytes]
  have hsent : (getLanguage n ⟨fifo, 0⟩).sent = cutChain [languageBody] n := by
    have hread : (getLanguage n ⟨fifo, 0⟩).sent =
        (announce (min 4 n) languageBody).take (min 4 n) :=
      hholds.read_take (by rw [announce_length, hlen]; exact Nat.min_le_left _ _)
    rw [hread, cutChain, cutChain, List.append_nil, cutRecord, hlen, Nat.min_comm]
  have hinside : (getLanguage n ⟨fifo, 0⟩).fifo.high ≤ musbEp0Fifosize := by
    simp [getLanguage, writeFifo, TrackedMemory.store, musbEp0Fifosize]
  rw [transmits_chain_iff (by decide) hsent hinside]
  simp only [Boundary, hlen, and_true]

theorem wideString_length (str : List UInt8) :
    (wideString str).length = 2 * str.length := by
  induction str with
  | nil => rfl
  | cons c str ih =>
      rw [wideString, List.flatMap_cons, List.length_append, ← wideString, ih,
        List.length_cons, List.length_cons, List.length_cons, List.length_nil]
      omega

theorem wideString_append (xs ys : List UInt8) :
    wideString (xs ++ ys) = wideString xs ++ wideString ys := List.flatMap_append

/-- What the copy loop leaves behind the two bytes in front of the characters. -/
theorem copyString_spec (str head : List UInt8) (fifo : TrackedMemory UInt8)
    (hhead : Memory.Holds fifo.cell 0 head) (hlen : head.length = 2)
    (hhigh : fifo.high = 2) {sl : ℕ} (hsl : sl ≤ str.length) :
    Memory.Holds (copyString str sl fifo).cell 0 (head ++ wideString (str.take sl)) ∧
      (copyString str sl fifo).high = 2 + 2 * sl := by
  induction sl with
  | zero =>
      rw [List.take_zero]
      refine ⟨?_, hhigh⟩
      simpa [copyString, wideString] using hhead
  | succ sl ih =>
      obtain ⟨hholds, hreach⟩ := ih (by omega)
      have hstep : copyString str (sl + 1) fifo =
          ((copyString str sl fifo).store (2 + 2 * sl) (str.getD sl 0)).store
            (2 + 2 * sl + 1) 0 := by
        rw [copyString, List.range_succ, List.foldl_append]
        rfl
      have hcount : (head ++ wideString (str.take sl)).length = 2 + 2 * sl := by
        rw [List.length_append, wideString_length, List.length_take, hlen]
        omega
      have htake : str.take (sl + 1) = str.take sl ++ [str.getD sl 0] := by
        rw [List.take_succ_eq_append_getElem (by omega),
          List.getD_eq_getElem _ _ (by omega)]
      rw [hstep, htake, wideString_append, ← List.append_assoc]
      refine ⟨Memory.Holds.append ?_ ?_, ?_⟩
      · refine hholds.congr ?_
        intro k _ hk
        simp only [TrackedMemory.store_cell]
        rw [Memory.store_of_ne _ (by omega), Memory.store_of_ne _ (by omega)]
      · rw [hcount, Nat.zero_add]
        simp only [TrackedMemory.store_cell]
        refine Memory.holds_cons.mpr ⟨?_, Memory.holds_singleton.mpr ?_⟩
        · rw [Memory.store_of_ne _ (by omega), Memory.store_same]
        · rw [Memory.store_same]
      · simp only [TrackedMemory.store, hreach]
        omega

/-- The descriptor of a string. -/
def stringDescriptor (str : List UInt8) : List UInt8 :=
  u8Bytes (2 + 2 * str.length) ++ u8Bytes usbDtString ++ wideString str

/-- What is sent of a string, and how far the buffer is written. -/
theorem getString_sent (str : List UInt8) (n : ℕ) (fifo : Memory UInt8) :
    let sl := str.length % 2 ^ 8
    (getString str n ⟨fifo, 0⟩).fifo.high = 2 + 2 * sl ∧
      (2 + 2 * sl < 2 ^ 8 → (getString str n ⟨fifo, 0⟩).sent =
        (stringDescriptor str).take (min (2 + 2 * sl) n)) := by
  intro sl
  have hsl : sl ≤ str.length := Nat.mod_le _ _
  let bLength := (2 + 2 * sl) % 2 ^ 8
  let start := ((⟨fifo, 0⟩ : TrackedMemory UInt8).store 0 (UInt8.ofNat bLength)).store 1
    (UInt8.ofNat usbDtString)
  have hstart : Memory.Holds start.cell 0
      [UInt8.ofNat bLength, UInt8.ofNat usbDtString] := by
    refine Memory.holds_cons.mpr ⟨?_, Memory.holds_singleton.mpr ?_⟩
    · simp only [start, TrackedMemory.store_cell]
      rw [Memory.store_of_ne _ (by omega), Memory.store_same]
    · simp only [start, TrackedMemory.store_cell]
      rw [Memory.store_same]
  obtain ⟨hholds, hhigh⟩ := copyString_spec str _ start hstart rfl rfl hsl
  refine ⟨hhigh, ?_⟩
  intro hfit
  have hlength : bLength = 2 + 2 * sl := Nat.mod_eq_of_lt hfit
  -- the length byte is that of the whole string, which has the same length in eight bits
  have hbyte : UInt8.ofNat bLength = UInt8.ofNat (2 + 2 * str.length) := by
    apply UInt8.toNat_inj.mp
    rw [UInt8.toNat_ofNat', UInt8.toNat_ofNat']
    omega
  have hcount : ([UInt8.ofNat bLength, UInt8.ofNat usbDtString] ++
      wideString (str.take sl)).length = 2 + 2 * sl := by
    rw [List.length_append, wideString_length, List.length_take, Nat.min_eq_left hsl]
    rfl
  have hdescriptor : stringDescriptor str =
      ([UInt8.ofNat bLength, UInt8.ofNat usbDtString] ++ wideString (str.take sl)) ++
        wideString (str.drop sl) := by
    rw [List.append_assoc, ← wideString_append, List.take_append_drop, hbyte]
    rfl
  have hsent : (getString str n ⟨fifo, 0⟩).sent =
      (copyString str sl start).cell.read 0 (min bLength n) := rfl
  rw [hsent, hdescriptor, List.take_append_of_le_length (by omega), ← hlength]
  exact hholds.read_take (by omega)

/-- A string is sent as it should if its length in eight bits fits the buffer, and no
more is asked for than is sent of a string that is longer. -/
theorem getString_transmits_iff (str : List UInt8) (n : ℕ) (fifo : Memory UInt8) :
    Transmits (stringDescriptor str) n (getString str n ⟨fifo, 0⟩) ↔
      str.length % 2 ^ 8 ≤ 31 ∧
        (str.length < 2 ^ 8 ∨ n ≤ 2 + 2 * (str.length % 2 ^ 8)) := by
  obtain ⟨hhigh, hsent⟩ := getString_sent str n fifo
  have hfull : (stringDescriptor str).length = 2 + 2 * str.length := by
    rw [stringDescriptor, List.length_append, wideString_length]
    rfl
  have hsize : musbEp0Fifosize = 64 := rfl
  have hmod := Nat.mod_le str.length (2 ^ 8)
  constructor
  · intro h
    have hinside := h.inside
    have hcount := h.count
    rw [hsent (by omega), List.length_take, hfull] at hcount
    omega
  · rintro ⟨hshort, hwhole⟩
    refine ⟨?_, ?_, by omega⟩
    · rw [hsent (by omega), List.length_take, hfull]
      have hsmall : str.length < 2 ^ 8 → str.length % 2 ^ 8 = str.length :=
        Nat.mod_eq_of_lt
      omega
    · rw [hsent (by omega)]
      exact List.take_prefix _ _

/-! ## All requests -/

theorem transmits_zero (full : List UInt8) (fifo : Memory UInt8) (csr0 : Csr0) :
    Transmits full 0 ⟨[], ⟨fifo, 0⟩, csr0⟩ :=
  ⟨(Nat.zero_min _).symm, List.nil_prefix, Nat.zero_le _⟩

theorem transmits_nil (n : ℕ) (fifo : Memory UInt8) (csr0 : Csr0) :
    Transmits [] n ⟨[], ⟨fifo, 0⟩, csr0⟩ :=
  ⟨(Nat.min_zero _).symm, List.nil_prefix, Nat.zero_le _⟩

/-- A request is answered with the first bytes of its descriptor, as many as asked
for, inside the buffer, exactly under the conditions of its type. -/
theorem doUsbReqGetDescriptor_transmits_iff (deviceStrings : ℕ → List UInt8)
    (highSpeed : Bool) (req : UsbDeviceRequest) (fifo : Memory UInt8) :
    Transmits (fullDescriptor deviceStrings highSpeed req.wValue) req.wLength.toNat
        (doUsbReqGetDescriptor deviceStrings highSpeed req fifo) ↔
      Answered deviceStrings req := by
  unfold doUsbReqGetDescriptor Answered fullDescriptor
  dsimp only
  generalize req.wLength.toNat = n
  generalize req.wValue.toNat / 2 ^ 8 = type
  generalize req.wValue.toNat % 2 ^ 8 = stringIndex
  by_cases hzero : n = 0
  · subst hzero
    rw [if_pos rfl]
    exact iff_of_true (transmits_zero _ _ _) (Or.inl rfl)
  · have hfifo : (⟨fifo, 0⟩ : TrackedMemory UInt8).high ≤ musbEp0Fifosize :=
      Nat.zero_le _
    have hdevice := getDevice_transmits_iff n hfifo
    have hqualifier := getQualifier_transmits_iff n hfifo
    have hconfig := getConfig_transmits_iff highSpeed n fifo
    have hlanguage := getLanguage_transmits_iff n fifo
    have hstring := getString_transmits_iff (deviceStrings stringIndex) n fifo
    rw [wholeChain_configBodies] at hconfig
    rw [if_neg hzero, or_iff_right hzero]
    rw [or_iff_right hzero] at hdevice hqualifier hconfig hlanguage
    split
    · exact hdevice
    · split
      · exact hconfig
      · split
        · split
          · exact iff_of_true (transmits_nil _ _ _) trivial
          · split
            · exact hlanguage
            · exact hstring
        · split
          · exact hqualifier
          · exact iff_of_true (transmits_nil _ _ _) trivial

/-- The same string at every index. -/
def someStrings : ℕ → List UInt8 := fun _ => text "Android Fastboot"

/-- The first eight bytes of the device descriptor, which a host asks for first,
announce a descriptor of eight bytes. -/
theorem firstBytes_not_transmitted :
    ¬ Transmits (fullDescriptor someStrings true 0x0100) 8
      (doUsbReqGetDescriptor someStrings true ⟨0x0100, 8⟩ (fun _ => 0)) := by
  intro h
  have hwhole : 8 = 0 ∨ 18 ≤ 8 :=
    (getDevice_transmits_iff 8 (Nat.zero_le _)).mp h
  omega

end TateFirmware.Fastboot
