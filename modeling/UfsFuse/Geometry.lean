import UfsFuse.Alloc

/-!
# Geometry of a formatted slice

What the formatter guarantees about the superblock, and where the regions of a slice lie. Every
address is a group number and an offset inside that group, so two regions are apart when their
groups differ or their offsets are apart.
-/
namespace UfsFuse

namespace Superblock

/-- Fragments of group `cg`: a full group, or what is left of the slice. -/
def groupFrags (sb : Superblock) (cg : ℕ) : ℕ := min sb.fpg (sb.dsize - cg * sb.fpg)

/-- Number of inodes. -/
def inodes (sb : Superblock) : ℕ := sb.ncg * sb.ipg

/-- The last group holds its own metadata: header and inode area fit in its fragments. -/
def LastGroupHolds (sb : Superblock) : Prop := sb.dblkno ≤ sb.dsize - (sb.ncg - 1) * sb.fpg

instance (sb : Superblock) : Decidable sb.LastGroupHolds := inferInstanceAs (Decidable (_ ≤ _))

/-- Pointer blocks are full of pointers, as the formatter has them; so the pointers of one inode
reach every block of a slice. -/
def PointersFill (sb : Superblock) : Prop := sb.nindir * 4 = sb.bsize

instance (sb : Superblock) : Decidable sb.PointersFill := inferInstanceAs (Decidable (_ = _))

/-- The shape of a superblock written by the formatter, with any number of pointers that fit a
block. -/
structure Geometry (sb : Superblock) : Prop where
  frag_pos : 8 ≤ sb.frag
  frag_le : sb.frag ≤ 16
  frag_dvd : sb.frag ∣ 16
  bsize_eq : sb.bsize = sb.frag * 512
  fsize_eq : sb.fsize = 512
  fsbtodb_eq : sb.fsbtodb = 0
  fragshift_eq : 2 ^ sb.fragshift.toNat = sb.frag
  cgoffset_eq : sb.cgoffset = 0
  inopb_eq : sb.inopb = sb.frag * 4
  nindir_le : sb.nindir * 4 ≤ sb.bsize
  ipg_pos : 0 < sb.ipg
  ipg_le : sb.ipg ≤ 2048
  inopb_dvd : sb.inopb ∣ sb.ipg
  cblkno_ge : 32 ≤ sb.cblkno
  iblkno_ge : sb.cblkno + sb.frag ≤ sb.iblkno
  dblkno_eq : sb.dblkno = sb.iblkno + sb.ipg / sb.inopb * sb.frag
  dblkno_dvd : sb.frag ∣ sb.dblkno
  room : sb.dblkno + sb.frag ≤ sb.fpg
  bitmap : sb.fpg ≤ (sb.bsize - CgOff.free) * 8
  ncg_pos : 0 < sb.ncg
  last : (sb.ncg - 1) * sb.fpg + sb.dblkno ≤ sb.dsize
  dsize_le : sb.dsize ≤ sb.ncg * sb.fpg
  dsize_lt : sb.dsize < 2 ^ 32
  csaddr_ge : 32 ≤ sb.csaddr
  cssize_ge : sb.ncg * ufsCsumSize ≤ sb.cssize
  summary : sb.csaddr * 512 + sb.cssize ≤ sb.cblkno * 512
  inodes_lt : sb.ncg * sb.ipg < 2 ^ 32

/-- The slice cut down to one group with all its fragments: no address of a group changes. -/
def oneGroup (sb : Superblock) : Superblock := { sb with ncg := 1, dsize := sb.fpg }

/-- What a slice with more groups needs besides the shape of each. -/
theorem Geometry.of_oneGroup {sb : Superblock} (g : sb.oneGroup.Geometry) (ncg_pos : 0 < sb.ncg)
    (last : (sb.ncg - 1) * sb.fpg + sb.dblkno ≤ sb.dsize) (dsize_le : sb.dsize ≤ sb.ncg * sb.fpg)
    (dsize_lt : sb.dsize < 2 ^ 32) (cssize_ge : sb.ncg * ufsCsumSize ≤ sb.cssize)
    (inodes_lt : sb.ncg * sb.ipg < 2 ^ 32) : sb.Geometry :=
  ⟨g.frag_pos, g.frag_le, g.frag_dvd, g.bsize_eq, g.fsize_eq, g.fsbtodb_eq, g.fragshift_eq,
    g.cgoffset_eq, g.inopb_eq, g.nindir_le, g.ipg_pos, g.ipg_le, g.inopb_dvd, g.cblkno_ge,
    g.iblkno_ge, g.dblkno_eq, g.dblkno_dvd, g.room, g.bitmap, ncg_pos, last, dsize_le, dsize_lt,
    g.csaddr_ge, cssize_ge, g.summary, inodes_lt⟩

/-- A slice cut down to one group keeps its geometry. -/
theorem Geometry.oneGroup {sb : Superblock} (g : sb.Geometry) : sb.oneGroup.Geometry := by
  have hncg := g.ncg_pos
  have hbits := g.bitmap
  have hbsize := g.bsize_eq
  have hfrag := g.frag_le
  have hipg := g.ipg_le
  have hroom := g.room
  have hcssize := g.cssize_ge
  refine ⟨g.frag_pos, g.frag_le, g.frag_dvd, g.bsize_eq, g.fsize_eq, g.fsbtodb_eq, g.fragshift_eq,
    g.cgoffset_eq, g.inopb_eq, g.nindir_le, g.ipg_pos, g.ipg_le, g.inopb_dvd, g.cblkno_ge,
    g.iblkno_ge, g.dblkno_eq, g.dblkno_dvd, g.room, g.bitmap, ?_, ?_, ?_, ?_, g.csaddr_ge, ?_,
    g.summary, ?_⟩ <;> simp only [Superblock.oneGroup, ufsCsumSize] at * <;> omega

/-- Fragment `f` belongs to the data area of its group. -/
def IsData (sb : Superblock) (f : ℕ) : Prop :=
  f / sb.fpg < sb.ncg ∧ sb.dblkno ≤ f % sb.fpg ∧ f % sb.fpg < sb.groupFrags (f / sb.fpg)

instance (sb : Superblock) (f : ℕ) : Decidable (sb.IsData f) :=
  inferInstanceAs (Decidable (_ ∧ _ ∧ _))

/-- The `count` fragments from `f` on lie in one block of one data area. -/
def IsRun (sb : Superblock) (f count : ℕ) : Prop :=
  f / sb.fpg < sb.ncg ∧ sb.dblkno ≤ f % sb.fpg ∧ 0 < count ∧
    f % sb.fpg + count ≤ sb.groupFrags (f / sb.fpg) ∧
    f % sb.fpg % sb.frag + count ≤ sb.frag

theorem groupFrags_le (sb : Superblock) (c : ℕ) : sb.groupFrags c ≤ sb.fpg := min_le_left _ _

/-- Two offset ranges of one group, or ranges of different groups, do not meet. -/
theorem apart {sb : Superblock} {c c' lo hi lo' hi' : ℕ} (h : hi ≤ sb.fpg) (h' : hi' ≤ sb.fpg)
    (hd : c ≠ c' ∨ hi ≤ lo' ∨ hi' ≤ lo) :
    c * sb.fpg + hi ≤ c' * sb.fpg + lo' ∨ c' * sb.fpg + hi' ≤ c * sb.fpg + lo := by
  rcases Nat.lt_trichotomy c c' with hlt | rfl | hlt
  · have hm : (c + 1) * sb.fpg ≤ c' * sb.fpg := Nat.mul_le_mul_right _ hlt
    rw [Nat.add_mul, Nat.one_mul] at hm
    omega
  · omega
  · have hm : (c' + 1) * sb.fpg ≤ c * sb.fpg := Nat.mul_le_mul_right _ hlt
    rw [Nat.add_mul, Nat.one_mul] at hm
    omega

theorem div_ipg_lt {sb : Superblock} {n : ℕ} (hn : n < sb.inodes) : n / sb.ipg < sb.ncg :=
  Nat.div_lt_of_lt_mul (by rwa [inodes, Nat.mul_comm] at hn)

end Superblock

/-- A slice of an image: a formatted geometry, with the whole slice inside the image. -/
structure Ufs.Fits (ufs : Ufs) (image : Bytes) : Prop where
  geom : ufs.sb.Geometry
  super : ufs.superOffset = ufs.startOffset + ufsSbOffset
  inside : ufs.startOffset + ufs.sb.dsize * 512 ≤ image.length

namespace Superblock.Geometry
variable {sb : Superblock} (g : sb.Geometry)
include g

theorem fpg_pos : 0 < sb.fpg := by
  have := g.room
  have := g.frag_pos
  omega

theorem frag_cases : sb.frag = 8 ∨ sb.frag = 16 := by
  have h1 := g.frag_pos
  have h2 := g.frag_le
  obtain ⟨k, hk⟩ := g.frag_dvd
  have hk' : k = 1 ∨ k = 2 := by
    rcases Nat.lt_or_ge k 3 with h | h
    · rcases Nat.lt_or_ge k 1 with h0 | h0
      · have : k = 0 := by omega
        subst this
        omega
      · omega
    · have := Nat.mul_le_mul h1 h
      omega
  rcases hk' with rfl | rfl <;> omega

theorem bsize_pos : 0 < sb.bsize := by
  have := g.bsize_eq
  have := g.frag_pos
  omega

theorem group_end {c : ℕ} (hc : c < sb.ncg) : c * sb.fpg + sb.groupFrags c ≤ sb.dsize := by
  have hl := g.last
  have hm : c * sb.fpg ≤ (sb.ncg - 1) * sb.fpg := Nat.mul_le_mul_right _ (by omega)
  unfold groupFrags
  omega

theorem groupFrags_ge {c : ℕ} (hc : c < sb.ncg) : sb.dblkno ≤ sb.groupFrags c := by
  have hl := g.last
  have hr := g.room
  have hm : c * sb.fpg ≤ (sb.ncg - 1) * sb.fpg := Nat.mul_le_mul_right _ (by omega)
  unfold groupFrags
  omega

theorem cgstart_eq (c : ℕ) : sb.cgstart c = c * sb.fpg := by
  simp [cgstart, cgbase, g.cgoffset_eq, Nat.mul_comm]

theorem fsbtobytes_eq (b : ℕ) : sb.fsbtobytes b = b * 512 := by
  simp [fsbtobytes, g.fsbtodb_eq]

theorem dataBlockOffset_eq (s b : ℕ) : sb.dataBlockOffset s b = s + b * 512 := by
  rw [dataBlockOffset, g.fsbtobytes_eq]

theorem inopb_pos : 0 < sb.inopb := by
  have := g.inopb_eq
  have := g.frag_pos
  omega

/-- The inode area of a group is an array of 128-byte slots. -/
theorem inodeByteOffset_eq (s n : ℕ) :
    sb.inodeByteOffset s n = s + (n / sb.ipg * sb.fpg + sb.iblkno) * 512 + n % sb.ipg * 128 := by
  obtain ⟨k, hk⟩ := g.inopb_dvd
  have hmod : n % sb.inopb = n % sb.ipg % sb.inopb := by
    rw [hk, Nat.mod_mul_right_mod]
  have hdm := Nat.div_add_mod (n % sb.ipg) sb.inopb
  have hshift : sb.blkstofrags (n % sb.ipg / sb.inopb) = n % sb.ipg / sb.inopb * sb.frag := by
    rw [blkstofrags, Nat.shiftLeft_eq, g.fragshift_eq]
  have hblk : n % sb.ipg / sb.inopb * sb.frag * 512 =
      sb.inopb * (n % sb.ipg / sb.inopb) * 128 := by
    rw [g.inopb_eq]
    ring
  rw [inodeByteOffset, g.fsbtobytes_eq, itod, cgimin, g.cgstart_eq, itog, itoo, hshift, hmod]
  simp only [ufsDinodeSize]
  rw [Nat.add_mul, hblk]
  nlinarith [hdm]

/-- The inode area ends where the data area starts. -/
theorem ipg_bytes : sb.iblkno * 512 + sb.ipg * 128 = sb.dblkno * 512 := by
  obtain ⟨k, hk⟩ := g.inopb_dvd
  have hp := g.inopb_pos
  have hdiv : sb.ipg / sb.inopb = k := by rw [hk, Nat.mul_div_cancel_left _ hp]
  rw [g.dblkno_eq, hdiv, hk, g.inopb_eq]
  ring

theorem mod_ipg_lt (n : ℕ) : n % sb.ipg < sb.ipg := Nat.mod_lt _ g.ipg_pos

theorem cgtod_eq (c : ℕ) : sb.cgtod c = c * sb.fpg + sb.cblkno := by rw [cgtod, g.cgstart_eq]

theorem cgdmin_eq (c : ℕ) : sb.cgdmin c = c * sb.fpg + sb.dblkno := by rw [cgdmin, g.cgstart_eq]

theorem cgdmin_mod (c : ℕ) : sb.cgdmin c % sb.fpg = sb.dblkno := by
  have := g.room
  have := g.frag_pos
  rw [g.cgdmin_eq, Nat.add_comm, Nat.add_mul_mod_self_right, Nat.mod_eq_of_lt (by omega)]

/-- The summary area, which holds 16 bytes for each group, lies in the first group. -/
theorem ncg_lt : sb.ncg < 2 ^ 19 := by
  have hcs := g.cssize_ge
  have hsum := g.summary
  have hroom := g.room
  have hi := g.iblkno_ge
  have hdb := g.dblkno_eq
  have hlast := g.last
  have hd := g.dsize_lt
  have hfpg : sb.ncg ≤ 32 * sb.fpg := by
    simp only [ufsCsumSize] at hcs
    omega
  by_contra hge
  have hm := Nat.mul_le_mul (show 2 ^ 18 ≤ sb.ncg - 1 by omega) (show 2 ^ 14 ≤ sb.fpg by omega)
  omega

theorem inodes_lt_i32 : sb.inodes < 2 ^ 31 := by
  have hm := Nat.mul_le_mul (show sb.ncg ≤ 2 ^ 19 - 1 from Nat.le_sub_one_of_lt g.ncg_lt) g.ipg_le
  rw [Superblock.inodes]
  omega

theorem dsize_ne : sb.dsize ≠ 0 := by
  have := g.last
  have := g.iblkno_ge
  have := g.cblkno_ge
  have := g.dblkno_eq
  omega

end Superblock.Geometry

theorem cgDataFragCount_le (ufs : Ufs) (c : ℕ) : cgDataFragCount ufs c ≤ ufs.sb.fpg :=
  min_le_left _ _

theorem cgDataFragCount_eq {ufs : Ufs} (g : ufs.sb.Geometry) (c : ℕ) :
    cgDataFragCount ufs c = ufs.sb.groupFrags c := by
  simp [cgDataFragCount, g.dsize_ne, Superblock.groupFrags]

end UfsFuse
