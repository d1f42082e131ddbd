import UfsFuse.Alternates

/-!
# Creating a disk image

`create.rs` of `svr4-disk`: the MBR, pdinfo, VTOC and alternates blocks of a blank image and the
standard slice layout. Unsigned machine arithmetic wraps around, as in a release build; the errors
of the operating system are left out.
-/
namespace UfsFuse

@[simp, reducible] def maxChsCylinders : ℕ := 1024
@[simp, reducible] def maxKernelChsHeads : ℕ := 16
@[simp, reducible] def maxChsSectorsPerTrack : ℕ := 63
@[simp, reducible] def vBackup : ℕ := 5
@[simp, reducible] def layoutTagRoot : ℕ := 2
@[simp, reducible] def layoutTagSwap : ℕ := 3
@[simp, reducible] def layoutTagStand : ℕ := 9
@[simp, reducible] def layoutFlagFs : ℕ := 0x200
@[simp, reducible] def layoutFlagRaw : ℕ := 0x201

/-- `chs` -/
def diskAddressingChs : Str := [0x63, 0x68, 0x73]
/-- `lba28` -/
def diskAddressingLba28 : Str := [0x6C, 0x62, 0x61, 0x32, 0x38]

/-- The messages of the builders, without their `error: `. -/
inductive BuildError where
  /-- disk geometry values must all be positive -/
  | geometryNotPositive
  /-- unsupported disk addressing mode '{mode}' -/
  | unsupportedAddressing (mode : Str)
  /-- disk geometry exceeds CHS cylinder limit ({cylinders} > 1024) -/
  | cylinderLimit (cylinders : ℕ)
  /-- disk geometry exceeds kernel head limit ({heads} > 16) -/
  | headLimit (heads : ℕ)
  /-- disk geometry exceeds CHS sector-per-track limit ({sectorsPerTrack} > 63) -/
  | sectorLimit (sectorsPerTrack : ℕ)
  /-- CHS geometry exceeds current kernel head limit ({heads} > 16) -/
  | chsHeadLimit (heads : ℕ)
  /-- CHS geometry exceeds sector-per-track limit ({sectorsPerTrack} > 63) -/
  | chsSectorLimit (sectorsPerTrack : ℕ)
  /-- requested image size needs {cylinders} cylinders, which exceeds the CHS limit of 1024; reduce
  --size or change geometry -/
  | sizeNeedsCylinders (cylinders : ℕ)
  /-- stand slice size must be positive -/
  | standNotPositive
  /-- swap slice size must be positive -/
  | swapNotPositive
  /-- stand slice starts before the UNIX partition -/
  | standBeforePartition
  /-- root slice would start beyond the end of the disk image -/
  | rootBeyondEnd
  /-- root slice would be empty -/
  | rootEmpty
  /-- UNIX partition must start at or after sector 1 -/
  | partitionStart
  /-- UNIX partition size must be positive -/
  | partitionNotPositive
  /-- UNIX partition exceeds the declared disk geometry -/
  | partitionExceedsGeometry
  /-- slice index {index} is outside the supported VTOC range 0..15 -/
  | sliceIndex (index : ℕ)
  /-- duplicate slice index {index} -/
  | duplicateSlice (index : ℕ)
  /-- slice {index} has a negative start sector -/
  | negativeStart (index : ℕ)
  /-- slice {index} has a negative size -/
  | negativeSize (index : ℕ)
  /-- slice {index} starts before the UNIX partition -/
  | sliceBeforePartition (index : ℕ)
  /-- slice {index} exceeds the UNIX partition bounds -/
  | sliceExceedsPartition (index : ℕ)
  /-- LBA {lba} is outside the CHS-addressable disk geometry -/
  | lbaOutsideGeometry (lba : ℕ)
  /-- MBR boot code is too large ({length} > 446 bytes) -/
  | bootCodeTooLarge (length : ℕ)
  /-- VTOC metadata does not fit inside the declared disk geometry -/
  | vtocDoesNotFit
  /-- alternates metadata does not fit inside the declared disk geometry -/
  | alternatesDoNotFit
  deriving DecidableEq, Repr

/-! ## Geometry -/

structure RawDiskGeometry where
  cylinders : UInt32
  heads : UInt32
  sectorsPerTrack : UInt32
  deriving DecidableEq, Repr

namespace RawDiskGeometry

def totalSectors (geometry : RawDiskGeometry) : UInt64 :=
  geometry.cylinders.toUInt64 * geometry.heads.toUInt64 * geometry.sectorsPerTrack.toUInt64

/-- Heads times sectors per track, as every function of `create.rs` computes it. -/
def sectorsPerCylinder (geometry : RawDiskGeometry) : UInt64 :=
  geometry.heads.toUInt64 * geometry.sectorsPerTrack.toUInt64

end RawDiskGeometry

def validateGeometry (geometry : RawDiskGeometry) (diskAddressing : Str) :
    Outcome BuildError Unit :=
  if geometry.cylinders = 0 ∨ geometry.heads = 0 ∨ geometry.sectorsPerTrack = 0 then
    .err .geometryNotPositive
  else if diskAddressing ≠ diskAddressingChs ∧ diskAddressing ≠ diskAddressingLba28 then
    .err (.unsupportedAddressing diskAddressing)
  else if diskAddressing = diskAddressingChs ∧ geometry.cylinders.toNat > maxChsCylinders then
    .err (.cylinderLimit geometry.cylinders.toNat)
  else if geometry.heads.toNat > maxKernelChsHeads then .err (.headLimit geometry.heads.toNat)
  else if geometry.sectorsPerTrack.toNat > maxChsSectorsPerTrack then
    .err (.sectorLimit geometry.sectorsPerTrack.toNat)
  else .ok ()

def maxChsLba (geometry : RawDiskGeometry) : UInt64 := geometry.totalSectors - 1

/-- `div_ceil` on sector counts. -/
def Sectors.divCeil (value divisor : UInt64) : UInt64 :=
  if 0 < value % divisor then value / divisor + 1 else value / divisor

/-- `align_up` on sector counts. -/
def Sectors.alignUp (value alignment : UInt64) : UInt64 :=
  if alignment = 0 then value else Sectors.divCeil value alignment * alignment

/-- The sectors of a size in mebibytes. -/
def sectorsOfMb (sizeMb : UInt64) : UInt64 := sizeMb * 1024 * 1024 / 512

def buildGeometry (sizeMb : UInt64) (heads sectorsPerTrack : UInt32) (diskAddressing : Str) :
    Outcome BuildError RawDiskGeometry :=
  if heads = 0 ∨ sectorsPerTrack = 0 then .err .geometryNotPositive
  else
    let sectorsPerCylinder := heads.toUInt64 * sectorsPerTrack.toUInt64
    let totalSectors := Sectors.alignUp (sectorsOfMb sizeMb) sectorsPerCylinder
    let cylinders := totalSectors / sectorsPerCylinder
    if heads.toNat > maxKernelChsHeads then .err (.chsHeadLimit heads.toNat)
    else if sectorsPerTrack.toNat > maxChsSectorsPerTrack then
      .err (.chsSectorLimit sectorsPerTrack.toNat)
    else if diskAddressing = diskAddressingChs ∧ cylinders.toNat > maxChsCylinders then
      .err (.sizeNeedsCylinders cylinders.toNat)
    else .ok ⟨cylinders.toUInt32, heads, sectorsPerTrack⟩

/-! ## The standard slice layout -/

structure SliceLayoutOptions where
  standStartSector : UInt64
  standSizeMb : UInt64
  swapSizeMb : UInt64
  rootAlignSectors : UInt64
  deriving DecidableEq, Repr

structure DiskLayout where
  unixPartitionStart : UInt32
  unixPartitionSize : UInt32
  slices : List VtocPartition
  deriving DecidableEq, Repr

/-- `as i64` -/
def asI64 (value : UInt64) : ℤ := value.toInt64.toInt

def buildSliceLayout (geometry : RawDiskGeometry) (opts : SliceLayoutOptions) :
    Outcome BuildError DiskLayout := do
  let spc := geometry.sectorsPerCylinder
  let total := geometry.totalSectors
  let unixPartitionStart : UInt64 := 1
  let unixPartitionSize := total - unixPartitionStart
  let standStart := Sectors.alignUp opts.standStartSector spc
  let standCount := Sectors.alignUp (sectorsOfMb opts.standSizeMb) spc
  let swapCount := Sectors.alignUp (sectorsOfMb opts.swapSizeMb) spc
  if standCount = 0 then .err .standNotPositive
  else if swapCount = 0 then .err .swapNotPositive
  else
    let standEnd := standStart + standCount
    let swapStart := Sectors.alignUp (Sectors.alignUp standEnd opts.rootAlignSectors) spc
    let swapEnd := swapStart + swapCount
    let rootStart := Sectors.alignUp (Sectors.alignUp swapEnd opts.rootAlignSectors) spc
    if standStart < unixPartitionStart then .err .standBeforePartition
    else if total ≤ rootStart then .err .rootBeyondEnd
    else do
      Outcome.guard (spc ≠ 0)
      let rootCount := (total - rootStart) / spc * spc
      if rootCount = 0 then .err .rootEmpty
      else
        .ok
          { unixPartitionStart := unixPartitionStart.toUInt32
            unixPartitionSize := unixPartitionSize.toUInt32
            slices :=
              [⟨0, vBackup, layoutFlagRaw, asI64 unixPartitionStart, asI64 unixPartitionSize⟩,
                ⟨1, layoutTagRoot, layoutFlagFs, asI64 rootStart, asI64 rootCount⟩,
                ⟨2, layoutTagSwap, layoutFlagRaw, asI64 swapStart, asI64 swapCount⟩,
                ⟨10, layoutTagStand, layoutFlagFs, asI64 standStart, asI64 standCount⟩] }

/-! ## Validation -/

def validateUnixPartition (totalSectors unixPartitionStart unixPartitionSize : UInt64) :
    Outcome BuildError Unit :=
  if unixPartitionStart < 1 then .err .partitionStart
  else if unixPartitionSize = 0 then .err .partitionNotPositive
  else if unixPartitionStart + unixPartitionSize > totalSectors then .err .partitionExceedsGeometry
  else .ok ()

/-- The sum of two `i64`. -/
def addI64 (a b : ℤ) : ℤ := (a + b).bmod (2 ^ 64)

/-- The loop over the slices; `seen` holds the indices so far. -/
def validateVtocLoop (unixPartitionStart unixPartitionEnd : ℤ) :
    List ℕ → List VtocPartition → Outcome BuildError Unit
  | _, [] => .ok ()
  | seen, partition :: rest =>
      if 16 ≤ partition.index then .err (.sliceIndex partition.index)
      else if partition.index ∈ seen then .err (.duplicateSlice partition.index)
      else if partition.startSector < 0 then .err (.negativeStart partition.index)
      else if partition.sectorCount < 0 then .err (.negativeSize partition.index)
      else if partition.startSector < unixPartitionStart then
        .err (.sliceBeforePartition partition.index)
      else if addI64 partition.startSector partition.sectorCount > unixPartitionEnd then
        .err (.sliceExceedsPartition partition.index)
      else validateVtocLoop unixPartitionStart unixPartitionEnd (partition.index :: seen) rest

def validateVtocPartitions (unixPartitionStart unixPartitionSize : ℤ)
    (partitions : List VtocPartition) : Outcome BuildError Unit :=
  validateVtocLoop unixPartitionStart (addI64 unixPartitionStart unixPartitionSize) [] partitions

/-! ## The four blocks -/

/-- The three bytes of a CHS field. -/
def encodeChs (lba : UInt64) (geometry : RawDiskGeometry) (saturate : Bool) :
    Outcome BuildError Bytes :=
  if lba = 0 then .ok [0, 0, 0]
  else if maxChsLba geometry < lba ∧ saturate = false then .err (.lbaOutsideGeometry lba.toNat)
  else do
    let lba := if maxChsLba geometry < lba then maxChsLba geometry else lba
    let cap := 1024 * geometry.heads.toUInt64 * geometry.sectorsPerTrack.toUInt64 - 1
    let lba := if saturate then min lba cap else lba
    let sectorsPerCylinder := geometry.sectorsPerCylinder
    Outcome.guard (sectorsPerCylinder ≠ 0)
    let cylinder : UInt64 := lba / sectorsPerCylinder
    let temp : UInt64 := lba % sectorsPerCylinder
    let head : UInt64 := temp / geometry.sectorsPerTrack.toUInt64
    let sector : UInt64 := temp % geometry.sectorsPerTrack.toUInt64 + 1
    let sectorByte : UInt64 := (sector &&& (0x3F : UInt64)) ||| ((cylinder >>> 2) &&& (0xC0 : UInt64))
    pure [(head &&& (0xFF : UInt64)).toUInt8, (sectorByte &&& (0xFF : UInt64)).toUInt8,
      (cylinder &&& (0xFF : UInt64)).toUInt8]

def serializePartitionEntry (partition : PartitionEntry) (geometry : RawDiskGeometry)
    (saturateChs : Bool) : Outcome BuildError Bytes := do
  let startChs ← encodeChs (UInt64.ofNat partition.startLba) geometry saturateChs
  let last := UInt64.ofNat (partition.startLba + (partition.sectorCount - 1))
  let endChs ← encodeChs last geometry saturateChs
  let out := (Bytes.zeros 16).overlay 0 [if partition.bootable then 0x80 else 0]
  let out := (out.overlay 1 startChs).overlay 4 [partition.partitionType]
  let out := out.overlay 5 endChs
  pure ((out.putU32 8 partition.startLba).putU32 12 partition.sectorCount)

/-- The partition table entry of a new image. -/
def unixPartitionEntry (unixPartitionStart unixPartitionSize : UInt32) : PartitionEntry where
  index := 1
  bootable := true
  partitionType := unixwarePartitionType
  startLba := unixPartitionStart.toNat
  sectorCount := unixPartitionSize.toNat
  startChs := (0, 0, 0)
  endChs := (0, 0, 0)

/-- The first sector with the boot code in it. -/
def bootCodeSector : Option Bytes → Outcome BuildError Bytes
  | some bootCode =>
      if bootCode.length > 446 then .err (.bootCodeTooLarge bootCode.length)
      else .ok ((Bytes.zeros sectorSize).overlay 0 bootCode)
  | none => .ok (Bytes.zeros sectorSize)

def buildMbr (geometry : RawDiskGeometry) (unixPartitionStart unixPartitionSize : UInt32)
    (bootCode : Option Bytes) (diskAddressing : Str) : Outcome BuildError Bytes := do
  let sector ← bootCodeSector bootCode
  let entry ← serializePartitionEntry (unixPartitionEntry unixPartitionStart unixPartitionSize)
    geometry (diskAddressing == diskAddressingLba28)
  pure ((sector.overlay 446 entry).putU16 510 0xAA55)

def buildPdinfo (geometry : RawDiskGeometry) (logicalSector0 vtocPtr vtocLen altPtr altLen : ℕ) :
    Bytes :=
  let sector := (Bytes.zeros sectorSize).putU32 0 0
  let sector := (sector.putU32 4 validPd).putU32 8 1
  let sector := sector.putU32 24 geometry.cylinders.toNat
  let sector := sector.putU32 28 geometry.heads.toNat
  let sector := sector.putU32 32 geometry.sectorsPerTrack.toNat
  let sector := (sector.putU32 36 sectorSize).putU32 40 logicalSector0
  let sector := (sector.putU32 84 vtocPtr).putU16 88 vtocLen
  (sector.putU32 92 altPtr).putU16 96 altLen

/-- `put_i32` of a truncated `i64`. -/
def Bytes.putI32 (b : Bytes) (off : ℕ) (v : ℤ) : Bytes := b.putU32 off (v % 2 ^ 32).toNat

/-- The twelve bytes of one slice. -/
def putVtocPartition (block : Bytes) (partition : VtocPartition) : Outcome BuildError Bytes := do
  let base := partitionStructOffset + partition.index * partitionStructSize
  Outcome.guard (base + partitionStructSize ≤ block.length)
  let block := (block.putU16 base partition.tag).putU16 (base + 2) partition.flag
  pure ((block.putI32 (base + 4) partition.startSector).putI32 (base + 8) partition.sectorCount)

def buildVtoc (volume : Str) (partitions : List VtocPartition) : Outcome BuildError Bytes :=
  let block := ((Bytes.zeros sectorSize).putU32 0 vtocSane).putU32 4 1
  let block := block.overlay 8 (volume.take 8)
  let partitionCount := ((partitions.map (·.index)).max?.map (· + 1)).getD 0
  let block := block.putU16 16 partitionCount
  Outcome.foldM putVtocPartition block partitions

def buildEmptyAltInfo : Bytes :=
  let block := ((Bytes.zeros 2048).putU32 0 altSanity).putU16 4 altVersion
  let block := block.putU16 6 0
  let trackTableOffset := 8
  let sectorTableOffset := trackTableOffset + 8 + maxAltents * 4
  let block := (block.putU16 trackTableOffset 0).putU16 (trackTableOffset + 2) 0
  let block := block.putI32 (trackTableOffset + 4) 0
  let block := (block.putU16 sectorTableOffset 0).putU16 (sectorTableOffset + 2) 0
  block.putI32 (sectorTableOffset + 4) 0

/-! ## The image file -/

/-- Seek and write all: the file grows when the range ends beyond it. -/
def writeAt (offset : ℕ) (data : Bytes) : Act BuildError Bytes Unit :=
  Act.update fun file =>
    .ok ((file.resize (max file.length (offset + data.length))).overlay offset data)

@[simp, reducible] def skeletonVtocPtr : ℕ := hdpdloc * sectorSize + 100
@[simp, reducible] def skeletonVtocLen : ℕ := 316
@[simp, reducible] def skeletonAltPtr : ℕ := 30 * sectorSize

/-- `create_raw_image_skeleton` on the bytes of the output file. -/
def createRawImageSkeleton (geometry : RawDiskGeometry)
    (unixPartitionStart unixPartitionSize : UInt32) (volume : Str) (slices : List VtocPartition)
    (mbrBootCode : Option Bytes) (diskAddressing : Str) : Act BuildError Bytes Unit := do
  Act.lift (validateGeometry geometry diskAddressing)
  Act.lift (validateUnixPartition geometry.totalSectors unixPartitionStart.toUInt64
    unixPartitionSize.toUInt64)
  Act.lift (validateVtocPartitions unixPartitionStart.toNat unixPartitionSize.toNat slices)
  let totalBytes := (geometry.totalSectors * 512).toNat
  Act.update fun _ => .ok (Bytes.zeros totalBytes)
  let mbr ← Act.lift (buildMbr geometry unixPartitionStart unixPartitionSize mbrBootCode
    diskAddressing)
  writeAt 0 mbr
  let altInfo := buildEmptyAltInfo
  let pdinfoSector := unixPartitionStart.toNat + hdpdloc
  let pdinfo := buildPdinfo geometry unixPartitionStart.toNat skeletonVtocPtr skeletonVtocLen
    skeletonAltPtr (altInfo.length % 2 ^ 16)
  writeAt (pdinfoSector * sectorSize) pdinfo
  let vtocSector := unixPartitionStart.toNat + skeletonVtocPtr / sectorSize
  let vtocOffset := skeletonVtocPtr % sectorSize
  let vtocBlock ← Act.lift (buildVtoc volume slices)
  let imageOffset := vtocSector * sectorSize + vtocOffset
  if imageOffset + vtocBlock.length > totalBytes then Act.fail .vtocDoesNotFit
  else do
    writeAt imageOffset vtocBlock
    let altSector := unixPartitionStart.toNat + skeletonAltPtr / sectorSize
    let altOffset := skeletonAltPtr % sectorSize
    let altImageOffset := altSector * sectorSize + altOffset
    if altImageOffset + altInfo.length > totalBytes then Act.fail .alternatesDoNotFit
    else writeAt altImageOffset altInfo

end UfsFuse
