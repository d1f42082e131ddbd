import UfsFuse.Reader

/-!
# Inspecting a disk image

`svr4-disk`: the MBR, the pdinfo sector and the VTOC of an image file, and the chain of
`inspect_disk_image` without slice probing. A failed assertion or slice index is a panic.
-/
namespace UfsFuse

@[simp, reducible] def unixwarePartitionType : UInt8 := 0x63
@[simp, reducible] def hdpdloc : ℕ := 29
@[simp, reducible] def validPd : ℕ := 0xCA5E600D
@[simp, reducible] def vtocSane : ℕ := 0x600DDEEE
@[simp, reducible] def vtocPartitionCount : ℕ := 16
@[simp, reducible] def partitionStructOffset : ℕ := 60
@[simp, reducible] def partitionStructSize : ℕ := 12

/-- Errors of the operating system; reading an existing file gives none. -/
inductive IoError where
  | os
  deriving DecidableEq, Repr

/-- The result of an operation on `usize`, which must not overflow. -/
def usize {ε : Type} (n : ℕ) : Outcome ε ℕ := do
  Outcome.guard (n < 2 ^ 64)
  pure n

theorem usize_eq {ε : Type} {n : ℕ} (h : n < 2 ^ 64) : (usize n : Outcome ε ℕ) = .ok n := by
  rw [usize, Outcome.guard_true h]
  rfl

theorem usize_eq_ok {ε : Type} {n m : ℕ} : (usize n : Outcome ε ℕ) = .ok m ↔ n < 2 ^ 64 ∧ n = m := by
  constructor
  · intro h
    obtain ⟨_, hguard, hn⟩ := Outcome.bind_eq_ok.mp h
    exact ⟨Outcome.guard_eq_ok.mp hguard, Outcome.ok.inj hn⟩
  · rintro ⟨h, rfl⟩
    exact usize_eq h

/-! ## Checked little-endian reads -/
namespace Codec
variable {ε : Type}

def u8 (buf : Bytes) (offset : ℕ) : Outcome ε UInt8 := do
  Outcome.guard (offset < buf.length)
  pure (buf.byte offset)

def u16 (buf : Bytes) (offset : ℕ) : Outcome ε ℕ := do
  Outcome.guard (offset + 2 ≤ buf.length)
  pure (buf.u16 offset)

def u32 (buf : Bytes) (offset : ℕ) : Outcome ε ℕ := do
  Outcome.guard (offset + 4 ≤ buf.length)
  pure (buf.u32 offset)

def i32 (buf : Bytes) (offset : ℕ) : Outcome ε ℤ := do
  Outcome.guard (offset + 4 ≤ buf.length)
  pure (buf.i32 offset)

/-- `&buf[offset..offset + len]`. -/
def range (buf : Bytes) (offset len : ℕ) : Outcome ε Bytes := do
  Outcome.guard (offset + len ≤ buf.length)
  pure (buf.slice offset len)

section Inside
variable {buf : Bytes} {offset len : ℕ}

theorem u8_eq (h : offset < buf.length) : (u8 buf offset : Outcome ε UInt8) = .ok (buf.byte offset) := by
  rw [u8, Outcome.guard_true h]
  rfl

theorem u16_eq (h : offset + 2 ≤ buf.length) :
    (u16 buf offset : Outcome ε ℕ) = .ok (buf.u16 offset) := by
  rw [u16, Outcome.guard_true h]
  rfl

theorem u32_eq (h : offset + 4 ≤ buf.length) :
    (u32 buf offset : Outcome ε ℕ) = .ok (buf.u32 offset) := by
  rw [u32, Outcome.guard_true h]
  rfl

theorem i32_eq (h : offset + 4 ≤ buf.length) :
    (i32 buf offset : Outcome ε ℤ) = .ok (buf.i32 offset) := by
  rw [i32, Outcome.guard_true h]
  rfl

theorem range_eq (h : offset + len ≤ buf.length) :
    (range buf offset len : Outcome ε Bytes) = .ok (buf.slice offset len) := by
  rw [range, Outcome.guard_true h]
  rfl

end Inside
end Codec

/-- `(0..n).map(f).collect()` for a body that may panic. -/
def Outcome.collect {ε α β : Type} (f : α → Outcome ε β) : List α → Outcome ε (List β)
  | [] => .ok []
  | a :: as => do
      let b ← f a
      let bs ← Outcome.collect f as
      pure (b :: bs)

theorem Outcome.collect_eq {ε α β : Type} {f : α → Outcome ε β} {g : α → β} {as : List α}
    (h : ∀ a ∈ as, f a = .ok (g a)) : Outcome.collect f as = .ok (as.map g) := by
  induction as with
  | nil => rfl
  | cons a as ih =>
    rw [Outcome.collect, h a (by simp), Outcome.ok_bind, ih fun x hx => h x (by simp [hx])]
    rfl

/-! ## The master boot record -/

structure PartitionEntry where
  index : ℕ
  bootable : Bool
  partitionType : UInt8
  startLba : ℕ
  sectorCount : ℕ
  startChs : ℕ × ℕ × ℕ
  endChs : ℕ × ℕ × ℕ
  deriving DecidableEq, Repr

structure MbrInfo where
  signature : ℕ
  partitions : List PartitionEntry
  deriving DecidableEq, Repr

/-- Cylinder, head and sector of a 3-byte field. -/
def decodeChs {ε : Type} (raw : Bytes) : Outcome ε (ℕ × ℕ × ℕ) := do
  let b0 ← Codec.u8 raw 0
  let b1 ← Codec.u8 raw 1
  let b2 ← Codec.u8 raw 2
  pure ((b1 &&& 0xC0).toNat <<< 2 ||| b2.toNat, b0.toNat, (b1 &&& 0x3F).toNat)

def parsePartitionEntry {ε : Type} (index : ℕ) (raw : Bytes) : Outcome ε PartitionEntry := do
  Outcome.guard (raw.length = 16)
  let flag ← Codec.u8 raw 0
  let start ← Codec.range raw 1 3
  let startChs ← decodeChs start
  let partitionType ← Codec.u8 raw 4
  let stop ← Codec.range raw 5 3
  let endChs ← decodeChs stop
  let startLba ← Codec.u32 raw 8
  let sectorCount ← Codec.u32 raw 12
  pure { index, bootable := flag == 0x80, partitionType, startLba, sectorCount, startChs, endChs }

def parseMbrSector {ε : Type} (sector : Bytes) : Outcome ε MbrInfo := do
  Outcome.guard (sector.length = sectorSize)
  let partitions ← Outcome.collect
    (fun index => do
      let raw ← Codec.range sector (446 + index * 16) 16
      parsePartitionEntry (index + 1) raw)
    (List.range 4)
  let signature ← Codec.u16 sector 510
  pure { signature, partitions }

/-- The bootable UNIX partition, or else the first UNIX partition. -/
def findActiveUnixPartition (mbr : MbrInfo) : Option PartitionEntry :=
  (mbr.partitions.find? fun p => p.bootable && p.partitionType == unixwarePartitionType).or
    (mbr.partitions.find? fun p => p.partitionType == unixwarePartitionType)

/-! ## pdinfo and VTOC -/

/-- A NUL-terminated ASCII field. -/
def decodeAsciiField (raw : Bytes) : Str := decodeAsciiReplace (raw.takeWhile (· ≠ 0))

structure PdInfo where
  driveId : ℕ
  sanity : ℕ
  version : ℕ
  serial : Str
  cylinders : ℕ
  tracks : ℕ
  sectors : ℕ
  bytesPerSector : ℕ
  logicalSector0 : ℕ
  vtocPtr : ℕ
  vtocLen : ℕ
  altPtr : ℕ
  altLen : ℕ
  deriving DecidableEq, Repr

def parsePdinfo {ε : Type} (raw : Bytes) : Outcome ε PdInfo := do
  Outcome.guard (98 ≤ raw.length)
  let driveId ← Codec.u32 raw 0
  let sanity ← Codec.u32 raw 4
  let version ← Codec.u32 raw 8
  let serial ← Codec.range raw 12 12
  let cylinders ← Codec.u32 raw 24
  let tracks ← Codec.u32 raw 28
  let sectors ← Codec.u32 raw 32
  let bytesPerSector ← Codec.u32 raw 36
  let logicalSector0 ← Codec.u32 raw 40
  let vtocPtr ← Codec.u32 raw 84
  let vtocLen ← Codec.u16 raw 88
  let altPtr ← Codec.u32 raw 92
  let altLen ← Codec.u16 raw 96
  pure
    { driveId, sanity, version, cylinders, tracks, sectors, bytesPerSector, logicalSector0
      vtocPtr, vtocLen, altPtr, altLen
      serial := decodeAsciiField serial }

def isValidPdinfo (pdinfo : PdInfo) : Bool := pdinfo.sanity == validPd

structure VtocPartition where
  index : ℕ
  tag : ℕ
  flag : ℕ
  startSector : ℤ
  sectorCount : ℤ
  deriving DecidableEq, Repr

structure VtocInfo where
  sanity : ℕ
  version : ℕ
  volume : Str
  partitionCount : ℕ
  partitions : List VtocPartition
  deriving DecidableEq, Repr

def parseVtocPartition {ε : Type} (view : Bytes) (index : ℕ) : Outcome ε VtocPartition := do
  let base := partitionStructOffset + index * partitionStructSize
  let tag ← Codec.u16 view base
  let flag ← Codec.u16 view (base + 2)
  let startSector ← Codec.i32 view (base + 4)
  let sectorCount ← Codec.i32 view (base + 8)
  pure { index, tag, flag, startSector, sectorCount }

def parseVtoc {ε : Type} (raw : Bytes) (offset : ℕ) : Outcome ε VtocInfo := do
  Outcome.guard (offset ≤ raw.length)
  let view := raw.drop offset
  Outcome.guard (partitionStructOffset + vtocPartitionCount * partitionStructSize ≤ view.length)
  let partitions ← Outcome.collect (parseVtocPartition view) (List.range vtocPartitionCount)
  let sanity ← Codec.u32 view 0
  let version ← Codec.u32 view 4
  let volume ← Codec.range view 8 8
  let partitionCount ← Codec.u16 view 16
  pure { sanity, version, volume := decodeAsciiField volume, partitionCount, partitions }

def isValidVtoc (vtoc : VtocInfo) : Bool := vtoc.sanity == vtocSane

/-! ## The chain -/

/-- `read_sector`: short at the end of the file. -/
def readSector (file : Bytes) (sectorNumber sectorCount : ℕ) : Bytes :=
  file.slice (sectorNumber * sectorSize) (sectorCount * sectorSize)

def readPdinfo (file : Bytes) (partitionStart : ℕ) : Outcome IoError PdInfo :=
  parsePdinfo (readSector file (partitionStart + hdpdloc) 1)

def readVtoc (file : Bytes) (partitionStart : ℕ) (pdinfo : PdInfo) : Outcome IoError VtocInfo :=
  let vtocSector := partitionStart + pdinfo.vtocPtr / sectorSize
  let vtocOffset := pdinfo.vtocPtr % sectorSize
  let vtocSpan := max pdinfo.vtocLen sectorSize
  let sectorCount := max 1 ((vtocOffset + vtocSpan + sectorSize - 1) / sectorSize)
  parseVtoc (readSector file vtocSector sectorCount) vtocOffset

inductive InspectNote where
  /-- Unexpected MBR signature 0x{signature:04x}; image may be unpartitioned or use a non-MBR boot
  sector. -/
  | unexpectedSignature (signature : ℕ)
  /-- No UNIX partition (type 0x63) was found in the MBR. -/
  | noUnixPartition
  /-- Invalid pdinfo sanity 0x{sanity:08x} at sector {sector}; expected 0xca5e600d. -/
  | invalidPdinfo (sanity sector : ℕ)
  /-- Invalid VTOC sanity 0x{sanity:08x}; expected 0x600ddeee. -/
  | invalidVtoc (sanity : ℕ)
  deriving DecidableEq, Repr

/-- A slice in the report; without probing it has no filesystem. -/
structure SliceFilesystem where
  sliceIndex : ℕ
  tag : ℕ
  startSector : ℤ
  absoluteStartSector : ℤ
  sectorCount : ℤ
  deriving DecidableEq, Repr

structure DiskImageReport where
  fileSize : ℕ
  mbr : MbrInfo
  activeUnixPartition : Option PartitionEntry
  pdinfo : Option PdInfo
  vtoc : Option VtocInfo
  sliceFilesystems : List SliceFilesystem
  notes : List InspectNote
  deriving DecidableEq, Repr

def listSlices (vtoc : VtocInfo) : List SliceFilesystem :=
  (vtoc.partitions.filter fun p => ¬(p.tag = 0 ∨ p.sectorCount ≤ 0)).map fun p =>
    ⟨p.index, p.tag, p.startSector, p.startSector, p.sectorCount⟩

/-- `inspect_disk_image` with the detector that finds nothing. -/
def inspectDiskImage (file : Bytes) : Outcome IoError DiskImageReport := do
  let mbr ← parseMbrSector (readSector file 0 1)
  let notes := if mbr.signature ≠ 0xAA55 then [.unexpectedSignature mbr.signature] else []
  let active := findActiveUnixPartition mbr
  let report : DiskImageReport := ⟨file.length, mbr, active, none, none, [], notes⟩
  match active with
  | none => pure { report with notes := notes ++ [.noUnixPartition] }
  | some partition => do
    let pd ← readPdinfo file partition.startLba
    if ¬isValidPdinfo pd then
      pure { report with
        pdinfo := some pd
        notes := notes ++ [.invalidPdinfo pd.sanity (partition.startLba + hdpdloc)] }
    else do
      let vt ← readVtoc file partition.startLba pd
      if ¬isValidVtoc vt then
        pure { report with
          pdinfo := some pd, vtoc := some vt, notes := notes ++ [.invalidVtoc vt.sanity] }
      else
        pure { report with
          pdinfo := some pd, vtoc := some vt, sliceFilesystems := listSlices vt }

/-! ## When the chain ends in a report -/
section Parsers
variable {ε : Type}

/-- The fields of entry `i`. -/
def entryAt (sector : Bytes) (i : ℕ) : PartitionEntry :=
  let raw := sector.slice (446 + i * 16) 16
  let chs (field : Bytes) : ℕ × ℕ × ℕ :=
    ((field.byte 1 &&& 0xC0).toNat <<< 2 ||| (field.byte 2).toNat, (field.byte 0).toNat,
      (field.byte 1 &&& 0x3F).toNat)
  ⟨i + 1, raw.byte 0 == 0x80, raw.byte 4, raw.u32 8, raw.u32 12, chs (raw.slice 1 3),
    chs (raw.slice 5 3)⟩

theorem parseMbrSector_eq {sector : Bytes} (h : sector.length = sectorSize) :
    (parseMbrSector sector : Outcome ε MbrInfo) =
      .ok ⟨sector.u16 510, (List.range 4).map (entryAt sector)⟩ := by
  have hentry : ∀ i ∈ List.range 4, (do
      let raw ← Codec.range sector (446 + i * 16) 16
      parsePartitionEntry (i + 1) raw : Outcome ε PartitionEntry) = .ok (entryAt sector i) := by
    intro i hi
    have hlt := List.mem_range.mp hi
    simp only [sectorSize] at h
    have hl : (sector.slice (446 + i * 16) 16).length = 16 := Bytes.slice_length (by omega)
    have h1 : ((sector.slice (446 + i * 16) 16).slice 1 3).length = 3 := Bytes.slice_length (by omega)
    have h5 : ((sector.slice (446 + i * 16) 16).slice 5 3).length = 3 := Bytes.slice_length (by omega)
    rw [Codec.range_eq (by omega), Outcome.ok_bind, parsePartitionEntry, Outcome.guard_true hl]
    simp (disch := omega) only [Codec.u8_eq, Codec.u32_eq, Codec.range_eq, decodeChs,
      Outcome.ok_bind, Outcome.pure_def, entryAt]
  rw [parseMbrSector, Outcome.guard_true h, Outcome.ok_bind, Outcome.collect_eq hentry,
    Outcome.ok_bind, Codec.u16_eq (by simp only [sectorSize] at h; omega)]
  rfl

/-- The fields of a pdinfo sector. -/
def pdinfoAt (raw : Bytes) : PdInfo where
  driveId := raw.u32 0
  sanity := raw.u32 4
  version := raw.u32 8
  serial := decodeAsciiField (raw.slice 12 12)
  cylinders := raw.u32 24
  tracks := raw.u32 28
  sectors := raw.u32 32
  bytesPerSector := raw.u32 36
  logicalSector0 := raw.u32 40
  vtocPtr := raw.u32 84
  vtocLen := raw.u16 88
  altPtr := raw.u32 92
  altLen := raw.u16 96

theorem parsePdinfo_eq {raw : Bytes} (h : 98 ≤ raw.length) :
    (parsePdinfo raw : Outcome ε PdInfo) = .ok (pdinfoAt raw) := by
  rw [parsePdinfo, Outcome.guard_true h]
  simp (disch := omega) only [Codec.u16_eq, Codec.u32_eq, Codec.range_eq, Outcome.ok_bind,
    Outcome.pure_def, pdinfoAt]

/-- Only the first 98 bytes of the sector count. -/
theorem pdinfoAt_slice (raw : Bytes) : pdinfoAt (raw.slice 0 98) = pdinfoAt raw := by
  simp (disch := omega) only [pdinfoAt, Bytes.u16_slice, Bytes.u32_slice, Bytes.slice_slice,
    Nat.zero_add]

theorem parsePdinfo_short {raw : Bytes} (h : ¬98 ≤ raw.length) :
    (parsePdinfo raw : Outcome ε PdInfo) = .panic := by
  rw [parsePdinfo, Outcome.guard, if_neg h]
  rfl

/-- The fields of slice `i` of the VTOC at `offset`. -/
def vtocPartitionAt (raw : Bytes) (offset i : ℕ) : VtocPartition :=
  let base := offset + (partitionStructOffset + i * partitionStructSize)
  ⟨i, raw.u16 base, raw.u16 (base + 2), raw.i32 (base + 4), raw.i32 (base + 8)⟩

/-- The fields of the VTOC at `offset`. -/
def vtocAt (raw : Bytes) (offset : ℕ) : VtocInfo where
  sanity := raw.u32 offset
  version := raw.u32 (offset + 4)
  volume := decodeAsciiField (raw.slice (offset + 8) 8)
  partitionCount := raw.u16 (offset + 16)
  partitions := (List.range vtocPartitionCount).map (vtocPartitionAt raw offset)

theorem parseVtocPartition_eq {raw : Bytes} {offset i : ℕ} (h : offset + 252 ≤ raw.length)
    (hi : i ∈ List.range vtocPartitionCount) :
    (parseVtocPartition (raw.drop offset) i : Outcome ε VtocPartition) =
      .ok (vtocPartitionAt raw offset i) := by
  have hl : (raw.drop offset).length = raw.length - offset := List.length_drop
  have hlt := List.mem_range.mp hi
  simp only [vtocPartitionCount] at hlt
  simp only [parseVtocPartition, partitionStructOffset, partitionStructSize]
  simp (disch := omega) only [Codec.u16_eq, Codec.i32_eq, Outcome.ok_bind, Outcome.pure_def,
    Bytes.u16_drop, Bytes.i32_drop, vtocPartitionAt, partitionStructOffset, partitionStructSize,
    Nat.add_assoc]

theorem parseVtoc_eq {raw : Bytes} {offset : ℕ} (h : offset + 252 ≤ raw.length) :
    (parseVtoc raw offset : Outcome ε VtocInfo) = .ok (vtocAt raw offset) := by
  have hl : (raw.drop offset).length = raw.length - offset := List.length_drop
  have hview : partitionStructOffset + vtocPartitionCount * partitionStructSize ≤
      (raw.drop offset).length := by
    simp only [partitionStructOffset, vtocPartitionCount, partitionStructSize]
    omega
  rw [parseVtoc, Outcome.guard_true (by omega), Outcome.ok_bind]
  dsimp only
  rw [Outcome.guard_true hview, Outcome.ok_bind,
    Outcome.collect_eq fun i hi => parseVtocPartition_eq h hi]
  simp (disch := omega) only [Codec.u16_eq, Codec.u32_eq, Codec.range_eq, Outcome.ok_bind,
    Outcome.pure_def, Bytes.u16_drop, Bytes.u32_drop, Bytes.slice_drop, vtocAt, Nat.add_zero]

/-- Only the 252 bytes from the offset on count. -/
theorem vtocAt_slice (raw : Bytes) (offset : ℕ) :
    vtocAt (raw.slice offset 252) 0 = vtocAt raw offset := by
  have hpart : ∀ i ∈ List.range vtocPartitionCount,
      vtocPartitionAt (raw.slice offset 252) 0 i = vtocPartitionAt raw offset i := by
    intro i hi
    have hlt := List.mem_range.mp hi
    simp only [vtocPartitionCount] at hlt
    simp only [vtocPartitionAt, partitionStructOffset, partitionStructSize]
    simp (disch := omega) only [Bytes.u16_slice, Bytes.i32_slice, Nat.zero_add, Nat.add_assoc]
  rw [vtocAt, vtocAt, List.map_congr_left hpart]
  simp (disch := omega) only [Bytes.u16_slice, Bytes.u32_slice, Bytes.slice_slice, Nat.add_zero,
    Nat.zero_add]

theorem parseVtoc_short {raw : Bytes} {offset : ℕ} (h : ¬offset + 252 ≤ raw.length) :
    (parseVtoc raw offset : Outcome ε VtocInfo) = .panic := by
  have hl : (raw.drop offset).length = raw.length - offset := List.length_drop
  rw [parseVtoc]
  by_cases ho : offset ≤ raw.length
  · rw [Outcome.guard_true ho, Outcome.ok_bind]
    dsimp only
    rw [Outcome.guard, if_neg (by
      simp only [partitionStructOffset, vtocPartitionCount, partitionStructSize]
      omega)]
    rfl
  · rw [Outcome.guard, if_neg ho]
    rfl

end Parsers

/-- The type byte of MBR entry `i` names UNIX. -/
def IsUnixEntry (file : Bytes) (i : ℕ) : Prop := file.byte (446 + i * 16 + 4) = unixwarePartitionType

instance (file : Bytes) : DecidablePred (IsUnixEntry file) := fun i =>
  inferInstanceAs (Decidable (file.byte (446 + i * 16 + 4) = unixwarePartitionType))

/-- The entry that the chain follows: the first bootable UNIX one, else the first UNIX one. -/
def unixEntry (file : Bytes) : Option ℕ :=
  ((List.range 4).find? fun i => file.byte (446 + i * 16) = 0x80 ∧ IsUnixEntry file i).or
    ((List.range 4).find? fun i => IsUnixEntry file i)

/-- The bytes that the chain reads are in the file: the MBR, the pdinfo sector up to its last field
and, when that one is valid, the VTOC. -/
def Inspectable (file : Bytes) : Prop :=
  sectorSize ≤ file.length ∧ ∀ i, unixEntry file = some i →
    let start := file.u32 (446 + i * 16 + 8)
    (start + hdpdloc) * sectorSize + 98 ≤ file.length ∧
      (file.u32 ((start + hdpdloc) * sectorSize + 4) = validPd →
        start * sectorSize + file.u32 ((start + hdpdloc) * sectorSize + 84) + 252 ≤ file.length)

section Chain
variable {file : Bytes}

theorem readSector_length (file : Bytes) (n count : ℕ) :
    (readSector file n count).length = min (count * sectorSize) (file.length - n * sectorSize) := by
  rw [readSector, Bytes.slice, List.length_take, List.length_drop]

theorem readSector_u32 {n count o : ℕ} (h : o + 4 ≤ count * sectorSize) :
    (readSector file n count).u32 o = file.u32 (n * sectorSize + o) := Bytes.u32_slice h

theorem entryAt_u32 {i : ℕ} (hi : i < 4) :
    (entryAt (readSector file 0 1) i).startLba = file.u32 (446 + i * 16 + 8) := by
  change Bytes.u32 ((readSector file 0 1).slice (446 + i * 16) 16) 8 = _
  rw [readSector, Bytes.slice_slice (by simp only [sectorSize]; omega), Bytes.u32,
    Bytes.slice_slice (by omega), Bytes.u32, Nat.zero_mul, Nat.zero_add]

theorem entryAt_byte (file : Bytes) {i o : ℕ} (hi : i < 4) (ho : o < 16) :
    ((readSector file 0 1).slice (446 + i * 16) 16).byte o = file.byte (446 + i * 16 + o) := by
  rw [readSector, Bytes.slice_slice (by simp only [sectorSize]; omega), Bytes.byte_slice ho,
    Nat.zero_mul, Nat.zero_add]

theorem findActiveUnixPartition_eq (signature : ℕ) :
    findActiveUnixPartition ⟨signature, (List.range 4).map (entryAt (readSector file 0 1))⟩ =
      (unixEntry file).map (entryAt (readSector file 0 1)) := by
  rw [findActiveUnixPartition, unixEntry, Option.map_or, List.find?_map, List.find?_map]
  congr 2
  · refine List.find?_congr fun i hi => ?_
    have hlt := List.mem_range.mp hi
    have h0 := entryAt_byte file hlt (show 0 < 16 by norm_num)
    have h4 := entryAt_byte file hlt (show 4 < 16 by norm_num)
    simp only [Function.comp_apply, entryAt, h0, h4, IsUnixEntry, Nat.add_zero]
    rw [Bool.eq_iff_iff]
    simp only [Bool.and_eq_true, beq_iff_eq]
    exact decide_eq_true_iff.symm
  · refine List.find?_congr fun i hi => ?_
    have h4 := entryAt_byte file (List.mem_range.mp hi) (show 4 < 16 by norm_num)
    simp only [Function.comp_apply, entryAt, h4, IsUnixEntry]
    rw [Bool.eq_iff_iff, beq_iff_eq]
    exact decide_eq_true_iff.symm

theorem readPdinfo_eq {start : ℕ} (h : (start + hdpdloc) * sectorSize + 98 ≤ file.length) :
    readPdinfo file start = .ok (pdinfoAt (readSector file (start + hdpdloc) 1)) := by
  have hl := readSector_length file (start + hdpdloc) 1
  simp only [sectorSize] at hl h
  exact parsePdinfo_eq (by omega)

theorem pdinfoAt_sanity (file : Bytes) (n : ℕ) :
    (pdinfoAt (readSector file n 1)).sanity = file.u32 (n * sectorSize + 4) :=
  readSector_u32 (by simp only [sectorSize]; omega)

theorem pdinfoAt_vtocPtr (file : Bytes) (n : ℕ) :
    (pdinfoAt (readSector file n 1)).vtocPtr = file.u32 (n * sectorSize + 84) :=
  readSector_u32 (by simp only [sectorSize]; omega)

theorem readPdinfo_short {start : ℕ} (h : ¬(start + hdpdloc) * sectorSize + 98 ≤ file.length) :
    readPdinfo file start = .panic := by
  refine parsePdinfo_short ?_
  rw [readSector_length]
  simp only [sectorSize] at h ⊢
  omega

/-- The sectors read for the VTOC reach to its end, or to the end of the file. -/
theorem readVtoc_iff (file : Bytes) (start : ℕ) (pd : PdInfo) :
    if start * sectorSize + pd.vtocPtr + 252 ≤ file.length then
      ∃ vt, readVtoc file start pd = .ok vt
    else readVtoc file start pd = .panic := by
  have hdm := Nat.div_add_mod' pd.vtocPtr sectorSize
  have hlt := Nat.mod_lt pd.vtocPtr (show 0 < sectorSize by norm_num)
  unfold readVtoc
  dsimp only
  generalize hcount : max 1 ((pd.vtocPtr % sectorSize + max pd.vtocLen sectorSize + sectorSize - 1) /
    sectorSize) = count
  have hspan : pd.vtocPtr % sectorSize + 512 ≤ count * sectorSize := by
    have hd := Nat.div_add_mod' (pd.vtocPtr % sectorSize + max pd.vtocLen sectorSize + sectorSize - 1)
      sectorSize
    simp only [sectorSize] at hd hcount hlt ⊢
    omega
  have hl := readSector_length file (start + pd.vtocPtr / sectorSize) count
  simp only [sectorSize] at hl hdm hspan hlt ⊢
  split_ifs with h
  · exact ⟨_, parseVtoc_eq (by omega)⟩
  · exact parseVtoc_short (by omega)

/-- The inspection ends in a report or an error exactly when the bytes it needs are in the file. -/
theorem inspectDiskImage_returns_iff (file : Bytes) :
    inspectDiskImage file ≠ .panic ↔ Inspectable file := by
  have hl := readSector_length file 0 1
  rw [inspectDiskImage, Inspectable]
  by_cases hlen : sectorSize ≤ file.length
  · have hs : (readSector file 0 1).length = sectorSize := by
      simp only [sectorSize] at hl hlen ⊢
      omega
    rw [parseMbrSector_eq hs, Outcome.ok_bind]
    dsimp only
    rw [findActiveUnixPartition_eq]
    simp only [hlen, true_and]
    cases hu : unixEntry file with
    | none => simp
    | some i =>
      have hi : i < 4 := by
        have hm : i ∈ List.range 4 := by
          rw [unixEntry, Option.or_eq_some_iff] at hu
          rcases hu with hu | ⟨-, hu⟩
          · exact List.mem_of_find?_eq_some hu
          · exact List.mem_of_find?_eq_some hu
        exact List.mem_range.mp hm
      simp only [Option.map_some, entryAt_u32 hi, Option.some.injEq, forall_eq']
      by_cases hp : (file.u32 (446 + i * 16 + 8) + hdpdloc) * sectorSize + 98 ≤ file.length
      · have hpd := readPdinfo_eq hp
        rw [hpd, Outcome.ok_bind, ← pdinfoAt_sanity, ← pdinfoAt_vtocPtr]
        generalize pdinfoAt (readSector file (file.u32 (446 + i * 16 + 8) + hdpdloc) 1) = pd
        have hv : isValidPdinfo pd = true ↔ pd.sanity = validPd := by
          rw [isValidPdinfo, beq_iff_eq]
        by_cases hval : isValidPdinfo pd = true
        · rw [if_neg (not_not.mpr hval)]
          have hr := readVtoc_iff file (file.u32 (446 + i * 16 + 8)) pd
          split_ifs at hr with hfit
          · obtain ⟨vt, hvt⟩ := hr
            rw [hvt, Outcome.ok_bind]
            refine iff_of_true ?_ ⟨hp, fun _ => hfit⟩
            split_ifs <;> simp
          · rw [hr]
            exact iff_of_false (fun hne => hne rfl) fun hc => hfit (hc.2 (hv.mp hval))
        · rw [if_pos hval]
          exact iff_of_true (by simp) ⟨hp, fun hc => absurd (hv.mpr hc) hval⟩
      · rw [readPdinfo_short hp]
        exact iff_of_false (fun hne => hne rfl) fun hc => hp hc.1
  · have hpanic : (parseMbrSector (readSector file 0 1) : Outcome IoError MbrInfo) = .panic := by
      rw [parseMbrSector, Outcome.guard, if_neg]
      · rfl
      · simp only [sectorSize] at hl hlen ⊢
        omega
    rw [hpanic]
    exact iff_of_false (fun hne => hne rfl) fun hc => hlen hc.1

/-- The empty file has no MBR to parse. -/
theorem inspectDiskImage_empty_panics : ¬∀ file : Bytes, inspectDiskImage file ≠ .panic :=
  fun h => h [] rfl

end Chain
end UfsFuse
