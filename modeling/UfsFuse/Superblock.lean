import UfsFuse.Bytes
import Mathlib.Data.Nat.Bitwise

/-!
# Superblock and address arithmetic

The parsed superblock (`superblock.rs`) with the `ufs_*` address macros. Fields are `u32` values
held as naturals; `fragshift` is the one signed field. Block addresses are fragment numbers
relative to the slice, byte addresses are absolute in the image.
-/
namespace UfsFuse

@[simp, reducible] def sectorSize : ℕ := 512
@[simp, reducible] def ufsMagic : ℕ := 0x00011954
@[simp, reducible] def ufsCgMagic : ℕ := 0x00090255
@[simp, reducible] def ufsEftMagic : ℕ := 0x90909090
@[simp, reducible] def ufsFsOkay : ℕ := 0x7C269D38
@[simp, reducible] def ufsRootInode : ℕ := 2
@[simp, reducible] def ufsSbOffset : ℕ := 8192
@[simp, reducible] def ufsSbSize : ℕ := 8192
@[simp, reducible] def ufsDirblksiz : ℕ := 512
@[simp, reducible] def ufsDinodeSize : ℕ := 128
@[simp, reducible] def ufsNdaddr : ℕ := 12
@[simp, reducible] def ufsNiaddr : ℕ := 3
@[simp, reducible] def ufsCsumSize : ℕ := 16
@[simp, reducible] def nbby : ℕ := 8
@[simp, reducible] def maxfrag : ℕ := 8
@[simp, reducible] def maxcpg : ℕ := 32
@[simp, reducible] def maxipg : ℕ := 2048
@[simp, reducible] def nrpos : ℕ := 8

/-! Offsets of `struct fs` fields. -/
namespace FsOff
@[simp, reducible] def sblkno : ℕ := 8
@[simp, reducible] def cblkno : ℕ := 12
@[simp, reducible] def iblkno : ℕ := 16
@[simp, reducible] def dblkno : ℕ := 20
@[simp, reducible] def cgoffset : ℕ := 24
@[simp, reducible] def cgmask : ℕ := 28
@[simp, reducible] def time : ℕ := 32
@[simp, reducible] def size : ℕ := 36
@[simp, reducible] def dsize : ℕ := 40
@[simp, reducible] def ncg : ℕ := 44
@[simp, reducible] def bsize : ℕ := 48
@[simp, reducible] def fsize : ℕ := 52
@[simp, reducible] def frag : ℕ := 56
@[simp, reducible] def minfree : ℕ := 60
@[simp, reducible] def rotdly : ℕ := 64
@[simp, reducible] def rps : ℕ := 68
@[simp, reducible] def bmask : ℕ := 72
@[simp, reducible] def fmask : ℕ := 76
@[simp, reducible] def bshift : ℕ := 80
@[simp, reducible] def fshift : ℕ := 84
@[simp, reducible] def maxcontig : ℕ := 88
@[simp, reducible] def maxbpg : ℕ := 92
@[simp, reducible] def fragshift : ℕ := 96
@[simp, reducible] def fsbtodb : ℕ := 100
@[simp, reducible] def sbsize : ℕ := 104
@[simp, reducible] def csmask : ℕ := 108
@[simp, reducible] def csshift : ℕ := 112
@[simp, reducible] def nindir : ℕ := 116
@[simp, reducible] def inopb : ℕ := 120
@[simp, reducible] def nspf : ℕ := 124
@[simp, reducible] def optim : ℕ := 128
@[simp, reducible] def state : ℕ := 132
@[simp, reducible] def csaddr : ℕ := 152
@[simp, reducible] def cssize : ℕ := 156
@[simp, reducible] def cgsize : ℕ := 160
@[simp, reducible] def ntrak : ℕ := 164
@[simp, reducible] def nsect : ℕ := 168
@[simp, reducible] def spc : ℕ := 172
@[simp, reducible] def ncyl : ℕ := 176
@[simp, reducible] def cpg : ℕ := 180
@[simp, reducible] def ipg : ℕ := 184
@[simp, reducible] def fpg : ℕ := 188
@[simp, reducible] def cstotalNdir : ℕ := 192
@[simp, reducible] def cstotalNbfree : ℕ := 196
@[simp, reducible] def cstotalNifree : ℕ := 200
@[simp, reducible] def cstotalNffree : ℕ := 204
@[simp, reducible] def fmod : ℕ := 208
@[simp, reducible] def clean : ℕ := 209
@[simp, reducible] def ronly : ℕ := 210
@[simp, reducible] def magic : ℕ := 1372
end FsOff

structure Superblock where
  bsize : ℕ
  fsize : ℕ
  frag : ℕ
  dsize : ℕ
  ipg : ℕ
  fpg : ℕ
  inopb : ℕ
  fsbtodb : ℕ
  cgoffset : ℕ
  cgmask : ℕ
  cblkno : ℕ
  iblkno : ℕ
  dblkno : ℕ
  ncg : ℕ
  minfree : ℕ
  fragshift : ℤ
  nindir : ℕ
  nspf : ℕ
  csaddr : ℕ
  cssize : ℕ
  nsect : ℕ
  spc : ℕ
  ncyl : ℕ
  cpg : ℕ
  deriving DecidableEq, Repr

/-- A detected filesystem: where its slice starts and its superblock. -/
structure Ufs where
  startOffset : ℕ
  superOffset : ℕ
  sb : Superblock
  deriving DecidableEq, Repr

namespace Superblock
variable (sb : Superblock)

/-- Read the superblock at `superOffset`, or nothing if the magic or the geometry is implausible. -/
def parse (image : Bytes) (superOffset : ℕ) : Option Superblock :=
  if superOffset + ufsSbSize > image.length then none
  else if image.u32 (superOffset + FsOff.magic) ≠ ufsMagic then none
  else
    let field := fun off => image.u32 (superOffset + off)
    let bsize := field FsOff.bsize
    let fsize := field FsOff.fsize
    let inopb := field FsOff.inopb
    let ipg := field FsOff.ipg
    let fpg := field FsOff.fpg
    if bsize < 4096 ∨ bsize > ufsSbSize then none
    else if fsize < sectorSize ∨ fsize > bsize then none
    else if inopb = 0 ∨ ipg = 0 ∨ fpg = 0 then none
    else some
      { bsize, fsize, ipg, fpg, inopb
        frag := field FsOff.frag
        dsize := field FsOff.dsize
        fsbtodb := field FsOff.fsbtodb
        cgoffset := field FsOff.cgoffset
        cgmask := field FsOff.cgmask
        cblkno := field FsOff.cblkno
        iblkno := field FsOff.iblkno
        dblkno := field FsOff.dblkno
        ncg := field FsOff.ncg
        minfree := field FsOff.minfree
        fragshift := image.i32 (superOffset + FsOff.fragshift)
        nindir := field FsOff.nindir
        nspf := field FsOff.nspf
        csaddr := field FsOff.csaddr
        cssize := field FsOff.cssize
        nsect := field FsOff.nsect
        spc := field FsOff.spc
        ncyl := field FsOff.ncyl
        cpg := field FsOff.cpg }

def fsbtobytes (fsBlock : ℕ) : ℕ := (fsBlock <<< sb.fsbtodb) * sectorSize
def itoo (inodeNumber : ℕ) : ℕ := inodeNumber % sb.inopb
def itog (inodeNumber : ℕ) : ℕ := inodeNumber / sb.ipg
def blkstofrags (blocks : ℕ) : ℕ := blocks <<< sb.fragshift.toNat
def cgbase (cg : ℕ) : ℕ := sb.fpg * cg

/-- `cg & !cgmask` clears the mask's bits in `cg`. -/
def cgstart (cg : ℕ) : ℕ := sb.cgbase cg + sb.cgoffset * Nat.ldiff cg sb.cgmask

def cgimin (cg : ℕ) : ℕ := sb.cgstart cg + sb.iblkno
def cgtod (cg : ℕ) : ℕ := sb.cgstart cg + sb.cblkno
def cgdmin (cg : ℕ) : ℕ := sb.cgstart cg + sb.dblkno

def itod (inodeNumber : ℕ) : ℕ :=
  sb.cgimin (sb.itog inodeNumber) + sb.blkstofrags ((inodeNumber % sb.ipg) / sb.inopb)

def inodeByteOffset (fsStart inodeNumber : ℕ) : ℕ :=
  fsStart + sb.fsbtobytes (sb.itod inodeNumber) + sb.itoo inodeNumber * ufsDinodeSize

def dataBlockOffset (fsStart fsBlock : ℕ) : ℕ := fsStart + sb.fsbtobytes fsBlock

/-- Round `size` up to a whole fragment. -/
def fragroundup (size : ℕ) : ℕ := (size + sb.fsize - 1) / sb.fsize * sb.fsize

/-- The `while remaining > 0` loop of `allocation_byte_sizes`; `needed` is the block count. -/
def allocationByteSizesLoop (needed : ℕ) : ℕ → ℕ → List ℕ
  | 0, _ => []
  | fuel + 1, remaining =>
      if remaining = 0 then []
      else
        let logicalBytes := min sb.bsize remaining
        let bytes := if logicalBytes = sb.bsize ∨ needed > ufsNdaddr then sb.bsize
          else sb.fragroundup logicalBytes
        bytes :: allocationByteSizesLoop needed fuel (remaining - sb.bsize)

/-- Allocation sizes of a file of `size` bytes, block by block: full blocks, and a fragment tail
while the direct pointers suffice. The argument is an `i64`, so sizes from `2^63` on are
negative and need nothing. One round for each block is enough fuel. -/
def allocationByteSizes (size : ℕ) : List ℕ :=
  if size = 0 ∨ 2 ^ 63 ≤ size then []
  else
    let needed := (size + sb.bsize - 1) / sb.bsize
    sb.allocationByteSizesLoop needed needed size

end Superblock

/-- Detect a filesystem whose superblock is at `fsStart + ufsSbOffset`. -/
def detectUfsAtStart (image : Bytes) (fsStart : ℕ) : Option Ufs :=
  let superOffset := fsStart + ufsSbOffset
  (Superblock.parse image superOffset).map fun sb => { startOffset := fsStart, superOffset, sb }

end UfsFuse
