import UfsFuse.Inspect

/-!
# The alternates table

`parse_alt_info` and `read_alt_info` of `svr4-disk`: the tables of replaced tracks and sectors. The
second table starts where the reserved entries of the first one end.
-/
namespace UfsFuse

@[simp, reducible] def altSanity : ℕ := 0xDEADBEEF
@[simp, reducible] def altVersion : ℕ := 2
@[simp, reducible] def maxAltents : ℕ := 253

structure AltTableInfo where
  used : ℕ
  reserved : ℕ
  baseSector : ℤ
  badEntries : List ℤ
  deriving DecidableEq, Repr

structure AltInfo where
  sanity : ℕ
  version : ℕ
  trackTable : AltTableInfo
  sectorTable : AltTableInfo
  deriving DecidableEq, Repr

/-- The table at `offset` and the offset after it. -/
def parseAltTable {ε : Type} (raw : Bytes) (offset entryCount : ℕ) :
    Outcome ε (AltTableInfo × ℕ) := do
  let endOffset := offset + 8 + entryCount * 4
  Outcome.guard (endOffset ≤ raw.length)
  let badEntries ← Outcome.collect (fun i => Codec.i32 raw (offset + 8 + i * 4))
    (List.range entryCount)
  let used ← Codec.u16 raw offset
  let baseSector ← Codec.i32 raw (offset + 4)
  pure (⟨used, entryCount % 2 ^ 16, baseSector, badEntries⟩, endOffset)

def parseAltInfo {ε : Type} (raw : Bytes) (offset : ℕ) : Outcome ε AltInfo := do
  Outcome.guard (offset ≤ raw.length)
  let view := raw.drop offset
  Outcome.guard (16 ≤ view.length)
  let sanity ← Codec.u32 view 0
  let version ← Codec.u16 view 4
  let trackReserved ← Codec.u16 view 10
  let (trackTable, nextOffset) ← parseAltTable view 8 trackReserved
  Outcome.guard (nextOffset + 4 ≤ view.length)
  let sectorReserved ← Codec.u16 view (nextOffset + 2)
  let (sectorTable, _) ← parseAltTable view nextOffset sectorReserved
  pure { sanity, version, trackTable, sectorTable }

def isValidAltInfo (altInfo : AltInfo) : Bool :=
  altInfo.sanity == altSanity && altInfo.version == altVersion

def readAltInfo (file : Bytes) (partitionStart : ℕ) (pdinfo : PdInfo) :
    Outcome IoError (Option AltInfo) :=
  if pdinfo.altLen = 0 then pure none
  else do
    let altSector := partitionStart + pdinfo.altPtr / sectorSize
    let altOffset := pdinfo.altPtr % sectorSize
    let altSpan := max pdinfo.altLen sectorSize
    let sectorCount := max 1 ((altOffset + altSpan + sectorSize - 1) / sectorSize)
    let altInfo ← parseAltInfo (readSector file altSector sectorCount) altOffset
    if ¬isValidAltInfo altInfo then pure none else pure (some altInfo)

end UfsFuse
