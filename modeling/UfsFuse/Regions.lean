import UfsFuse.Formatted
import Mathlib

/-!
# The regions of a formatted slice

Every region is a group number and a range of offsets inside that group. Two regions of one group
have ranges that do not meet, and groups do not meet, so no two regions do.
-/
namespace UfsFuse

/-- The superblock, the summary area, and the header, the inode area and the data area of a group. -/
inductive Region where
  | superblock
  | summary
  | header (cg : ℕ)
  | inodes (cg : ℕ)
  | data (cg : ℕ)
  deriving DecidableEq, Repr

namespace Region

/-- First byte of a region, as the code computes it. -/
def start (ufs : Ufs) : Region → ℕ
  | superblock => ufs.superOffset
  | summary => ufs.sb.dataBlockOffset ufs.startOffset ufs.sb.csaddr
  | header cg => cgBlockOffset ufs cg
  | inodes cg => ufs.sb.dataBlockOffset ufs.startOffset (ufs.sb.cgimin cg)
  | data cg => ufs.sb.dataBlockOffset ufs.startOffset (ufs.sb.cgdmin cg)

/-- The byte behind a region. -/
def stop (ufs : Ufs) : Region → ℕ
  | superblock => ufs.superOffset + ufsSbSize
  | summary => ufs.sb.dataBlockOffset ufs.startOffset ufs.sb.csaddr + ufs.sb.cssize
  | header cg => cgBlockOffset ufs cg + ufs.sb.bsize
  | inodes cg => ufs.sb.dataBlockOffset ufs.startOffset (ufs.sb.cgdmin cg)
  | data cg => ufs.sb.dataBlockOffset ufs.startOffset (ufs.sb.cgbase cg + ufs.sb.fpg)

def bytes (ufs : Ufs) (r : Region) : Set ℕ := Set.Ico (r.start ufs) (r.stop ufs)

/-- The group of the region, if it has one, has all its fragments in the slice. -/
def Whole (ufs : Ufs) (size : ℕ) : Region → Prop
  | superblock => True
  | summary => True
  | header cg => cg < ufs.sb.ncg ∧ (cg + 1) * ufs.sb.fpg * 512 ≤ size
  | inodes cg => cg < ufs.sb.ncg ∧ (cg + 1) * ufs.sb.fpg * 512 ≤ size
  | data cg => cg < ufs.sb.ncg ∧ (cg + 1) * ufs.sb.fpg * 512 ≤ size

end Region

/-- The 128 bytes of inode `n`. -/
def inodeSlot (ufs : Ufs) (n : ℕ) : Set ℕ :=
  Set.Ico (ufs.sb.inodeByteOffset ufs.startOffset n)
    (ufs.sb.inodeByteOffset ufs.startOffset n + ufsDinodeSize)

/-- The bytes of the fragments from `f` on. -/
def fragmentBytes (ufs : Ufs) (f count : ℕ) : Set ℕ :=
  Set.Ico (ufs.sb.dataBlockOffset ufs.startOffset f)
    (ufs.sb.dataBlockOffset ufs.startOffset f + count * ufs.sb.fsize)

/-- The regions of a slice of `size` bytes from `fsStart` on do not overlap. -/
structure RegionsApart (ufs : Ufs) (fsStart size : ℕ) : Prop where
  inside : ∀ r : Region, r.Whole ufs size → r.bytes ufs ⊆ Set.Ico fsStart (fsStart + size)
  apart : ∀ r r' : Region, r.Whole ufs size → r'.Whole ufs size → r ≠ r' →
    Disjoint (r.bytes ufs) (r'.bytes ufs)
  slot_inside : ∀ n < ufs.sb.ncg * ufs.sb.ipg,
    inodeSlot ufs n ⊆ (Region.inodes (ufs.sb.itog n)).bytes ufs
  slots_apart : ∀ n < ufs.sb.ncg * ufs.sb.ipg, ∀ m < ufs.sb.ncg * ufs.sb.ipg, n ≠ m →
    Disjoint (inodeSlot ufs n) (inodeSlot ufs m)
  fragments_apart : ∀ f f' : ℕ, f ≠ f' → Disjoint (fragmentBytes ufs f 1) (fragmentBytes ufs f' 1)
  block : ∀ cg, (Region.data cg).Whole ufs size →
    fragmentBytes ufs (ufs.sb.cgdmin cg) ufs.sb.frag ⊆ (Region.data cg).bytes ufs

/-! ## Places inside groups -/

/-- The group of a region and its range of bytes there. -/
def Region.place (sb : Superblock) : Region → ℕ × ℕ × ℕ
  | superblock => (0, 8192, 16384)
  | summary => (0, sb.csaddr * 512, sb.csaddr * 512 + sb.cssize)
  | header cg => (cg, sb.cblkno * 512, sb.cblkno * 512 + sb.bsize)
  | inodes cg => (cg, sb.iblkno * 512, sb.dblkno * 512)
  | data cg => (cg, sb.dblkno * 512, sb.fpg * 512)

section Places
variable {ufs : Ufs} (g : ufs.sb.oneGroup.Geometry)
  (hsuper : ufs.superOffset = ufs.startOffset + ufsSbOffset)
include g

theorem fragmentOffset_eq (f : ℕ) :
    ufs.sb.dataBlockOffset ufs.startOffset f = ufs.startOffset + f * 512 :=
  g.dataBlockOffset_eq ufs.startOffset f

include hsuper

/-- The bytes of a region, from the start of its group. -/
theorem Region.range_eq (r : Region) :
    r.start ufs =
        ufs.startOffset + ((r.place ufs.sb).1 * (ufs.sb.fpg * 512) + (r.place ufs.sb).2.1) ∧
      r.stop ufs =
        ufs.startOffset + ((r.place ufs.sb).1 * (ufs.sb.fpg * 512) + (r.place ufs.sb).2.2) := by
  have hoff := fragmentOffset_eq g
  have hstart : ∀ cg, ufs.sb.cgstart cg = cg * ufs.sb.fpg := g.cgstart_eq
  have hcg : ∀ cg, cgBlockOffset ufs cg = ufs.sb.dataBlockOffset ufs.startOffset (ufs.sb.cgtod cg) :=
    fun _ => rfl
  have hbase : ∀ cg, ufs.sb.cgbase cg = cg * ufs.sb.fpg := fun cg => Nat.mul_comm _ _
  cases r <;>
    simp only [start, stop, place, hsuper, hcg, hoff, Superblock.cgtod, Superblock.cgimin,
      Superblock.cgdmin, hstart, hbase, ufsSbOffset, ufsSbSize] <;>
    constructor <;> ring

omit hsuper in
/-- A region does not leave its group. -/
theorem Region.place_le (r : Region) : (r.place ufs.sb).2.2 ≤ ufs.sb.fpg * 512 := by
  have h1 : ufs.sb.csaddr * 512 + ufs.sb.cssize ≤ ufs.sb.cblkno * 512 := g.summary
  have h2 : 32 ≤ ufs.sb.cblkno := g.cblkno_ge
  have h3 : ufs.sb.cblkno + ufs.sb.frag ≤ ufs.sb.iblkno := g.iblkno_ge
  have h4 : ufs.sb.dblkno = ufs.sb.iblkno + ufs.sb.ipg / ufs.sb.inopb * ufs.sb.frag := g.dblkno_eq
  have h5 : ufs.sb.dblkno + ufs.sb.frag ≤ ufs.sb.fpg := g.room
  have h6 : ufs.sb.bsize = ufs.sb.frag * 512 := g.bsize_eq
  cases r <;> simp only [place] <;> lia

omit hsuper in
/-- Two regions of one group do not meet. -/
theorem Region.place_apart {r r' : Region} (hne : r ≠ r') :
    (r.place ufs.sb).1 ≠ (r'.place ufs.sb).1 ∨
      (r.place ufs.sb).2.2 ≤ (r'.place ufs.sb).2.1 ∨
        (r'.place ufs.sb).2.2 ≤ (r.place ufs.sb).2.1 := by
  have h0 : 32 ≤ ufs.sb.csaddr := g.csaddr_ge
  have h1 : ufs.sb.csaddr * 512 + ufs.sb.cssize ≤ ufs.sb.cblkno * 512 := g.summary
  have h3 : ufs.sb.cblkno + ufs.sb.frag ≤ ufs.sb.iblkno := g.iblkno_ge
  have h4 : ufs.sb.dblkno = ufs.sb.iblkno + ufs.sb.ipg / ufs.sb.inopb * ufs.sb.frag := g.dblkno_eq
  have h6 : ufs.sb.bsize = ufs.sb.frag * 512 := g.bsize_eq
  cases r <;> cases r' <;>
    simp only [place, ne_eq, not_true_eq_false, Region.header.injEq, Region.inodes.injEq,
      Region.data.injEq] at hne ⊢ <;> omega

/-- Different regions do not meet. -/
theorem Region.disjoint {r r' : Region} (hne : r ≠ r') :
    Disjoint (r.bytes ufs) (r'.bytes ufs) := by
  obtain ⟨hstart, hstop⟩ := r.range_eq g hsuper
  obtain ⟨hstart', hstop'⟩ := r'.range_eq g hsuper
  have hle := r.place_le g
  have hle' := r'.place_le g
  have hapart := Region.place_apart g hne
  rw [bytes, bytes, Set.Ico_disjoint_Ico, hstart, hstop, hstart', hstop']
  generalize (r.place ufs.sb).1 = c at *
  generalize (r'.place ufs.sb).1 = c' at *
  rcases Nat.lt_trichotomy c c' with hlt | heq | hlt
  · have hmul : (c + 1) * (ufs.sb.fpg * 512) ≤ c' * (ufs.sb.fpg * 512) :=
      Nat.mul_le_mul_right _ hlt
    rw [Nat.add_mul, Nat.one_mul] at hmul
    omega
  · subst heq
    omega
  · have hmul : (c' + 1) * (ufs.sb.fpg * 512) ≤ c * (ufs.sb.fpg * 512) :=
      Nat.mul_le_mul_right _ hlt
    rw [Nat.add_mul, Nat.one_mul] at hmul
    omega

/-- The slots of the inodes fill the inode area of their group. -/
theorem inodeSlot_inside (n : ℕ) :
    inodeSlot ufs n ⊆ (Region.inodes (ufs.sb.itog n)).bytes ufs := by
  obtain ⟨hstart, hstop⟩ := (Region.inodes (ufs.sb.itog n)).range_eq g hsuper
  have hoff : ufs.sb.inodeByteOffset ufs.startOffset n = ufs.startOffset +
      (n / ufs.sb.ipg * ufs.sb.fpg + ufs.sb.iblkno) * 512 + n % ufs.sb.ipg * 128 :=
    g.inodeByteOffset_eq ufs.startOffset n
  have harea : ufs.sb.iblkno * 512 + ufs.sb.ipg * 128 = ufs.sb.dblkno * 512 := g.ipg_bytes
  have hlt : n % ufs.sb.ipg < ufs.sb.ipg := g.mod_ipg_lt n
  unfold inodeSlot Region.bytes
  rw [hstart, hstop, hoff]
  simp only [Region.place, Superblock.itog, ufsDinodeSize]
  generalize n / ufs.sb.ipg = c
  have hmul : c * (ufs.sb.fpg * 512) = c * ufs.sb.fpg * 512 := (Nat.mul_assoc _ _ _).symm
  rw [hmul]
  exact Set.Ico_subset_Ico (by omega) (by omega)

theorem inodeSlot_disjoint {n m : ℕ} (hne : n ≠ m) :
    Disjoint (inodeSlot ufs n) (inodeSlot ufs m) := by
  by_cases hgroup : ufs.sb.itog n = ufs.sb.itog m
  · have hmod : n % ufs.sb.ipg ≠ m % ufs.sb.ipg := by
      intro heq
      have hn := Nat.div_add_mod n ufs.sb.ipg
      have hm := Nat.div_add_mod m ufs.sb.ipg
      unfold Superblock.itog at hgroup
      rw [hgroup, heq, hm] at hn
      exact hne hn.symm
    have hoff : ∀ k, ufs.sb.inodeByteOffset ufs.startOffset k = ufs.startOffset +
        (k / ufs.sb.ipg * ufs.sb.fpg + ufs.sb.iblkno) * 512 + k % ufs.sb.ipg * 128 :=
      g.inodeByteOffset_eq ufs.startOffset
    unfold Superblock.itog at hgroup
    rw [inodeSlot, inodeSlot, Set.Ico_disjoint_Ico, hoff, hoff, hgroup]
    simp only [ufsDinodeSize]
    omega
  · have hregions : Region.inodes (ufs.sb.itog n) ≠ Region.inodes (ufs.sb.itog m) := by
      intro heq
      exact hgroup (Region.inodes.inj heq)
    exact (Region.disjoint g hsuper hregions).mono (inodeSlot_inside g hsuper n)
      (inodeSlot_inside g hsuper m)

/-- The shape of one group is all that the regions need, with a first group inside the slice. -/
theorem RegionsApart.of_oneGroup {size : ℕ}
    (hfirst : (ufs.sb.dblkno + ufs.sb.frag) * 512 ≤ size) :
    RegionsApart ufs ufs.startOffset size := by
  have hfsize : ufs.sb.fsize = 512 := g.fsize_eq
  have hoff := fragmentOffset_eq g
  have hdata : ∀ cg, ufs.sb.cgdmin cg = cg * ufs.sb.fpg + ufs.sb.dblkno := g.cgdmin_eq
  have hroom : ufs.sb.dblkno + ufs.sb.frag ≤ ufs.sb.fpg := g.room
  constructor
  · intro r hwhole
    obtain ⟨hstart, hstop⟩ := r.range_eq g hsuper
    have hle := r.place_le g
    rw [Region.bytes, hstart, hstop]
    refine Set.Ico_subset_Ico (Nat.le_add_right _ _) (Nat.add_le_add_left ?_ _)
    have hgroup : ∀ cg, (cg + 1) * ufs.sb.fpg * 512 ≤ size → (r.place ufs.sb).1 = cg →
        (r.place ufs.sb).1 * (ufs.sb.fpg * 512) + (r.place ufs.sb).2.2 ≤ size := by
      intro cg hcg hr
      have hmul : (cg + 1) * ufs.sb.fpg * 512 = cg * (ufs.sb.fpg * 512) + ufs.sb.fpg * 512 := by ring
      rw [hr]
      omega
    have h1 : ufs.sb.csaddr * 512 + ufs.sb.cssize ≤ ufs.sb.cblkno * 512 := g.summary
    have h2 : 32 ≤ ufs.sb.cblkno := g.cblkno_ge
    have h3 : ufs.sb.cblkno + ufs.sb.frag ≤ ufs.sb.iblkno := g.iblkno_ge
    have h4 : ufs.sb.dblkno = ufs.sb.iblkno + ufs.sb.ipg / ufs.sb.inopb * ufs.sb.frag := g.dblkno_eq
    cases r with
    | superblock =>
      simp only [Region.place, Nat.zero_mul, Nat.zero_add]
      lia
    | summary =>
      simp only [Region.place, Nat.zero_mul, Nat.zero_add]
      lia
    | header cg => exact hgroup cg hwhole.2 rfl
    | inodes cg => exact hgroup cg hwhole.2 rfl
    | data cg => exact hgroup cg hwhole.2 rfl
  · intro r r' _ _ hne
    exact Region.disjoint g hsuper hne
  · intro n _
    exact inodeSlot_inside g hsuper n
  · intro n _ m _ hne
    exact inodeSlot_disjoint g hsuper hne
  · intro f f' hne
    rw [fragmentBytes, fragmentBytes, Set.Ico_disjoint_Ico, hoff, hoff, hfsize]
    omega
  · intro cg _
    unfold fragmentBytes Region.bytes
    simp only [Region.start, Region.stop]
    rw [hoff, hoff, hfsize, hdata, Superblock.cgbase, Nat.mul_comm ufs.sb.fpg]
    exact Set.Ico_subset_Ico_right (by omega)

end Places

end UfsFuse
