import UfsFuse.Disk
import UfsFuse.Triple

/-!
# Reads and writes on the view

One rule for each access the program makes to the image, stated on the view.
-/
namespace UfsFuse

/-- The image holds a slice with this view. -/
def Ufs.Holds (ufs : Ufs) (image : Bytes) (D : Disk) : Prop :=
  ufs.Fits image ∧ view ufs image = D

variable {ufs : Ufs} {image : Bytes} {D : Disk}

theorem Ufs.Holds.readInode (h : ufs.Holds image D) {n : ℕ} (hn : n < ufs.sb.inodes) :
    readInode image ufs n = some (D.ino n).toInode := by
  obtain ⟨hf, rfl⟩ := h
  have hin := hf.geom.inoOff_inside hn
  have hinside := hf.inside
  have hoff := inodeOffset_eq hf.geom n
  rw [inodeOffset] at hoff
  rw [UfsFuse.readInode, if_neg (by simp only [ufsDinodeSize]; omega)]
  simp [view, hn, inodeOffset, Dinode.decode]

theorem Superblock.InData.inside {sb : Superblock} (g : sb.Geometry) {addr len : ℕ}
    (h : sb.InData addr len) (hl : 0 < len) : addr + len ≤ sb.dsize * 512 := by
  have := g.isData_inside (h (addr + len - 1) (by omega) (by omega))
  omega

theorem Superblock.InData.mono {sb : Superblock} {addr len addr' len' : ℕ} (h : sb.InData addr len)
    (ha : addr ≤ addr') (hl : addr' + len' ≤ addr + len) : sb.InData addr' len' :=
  fun a h1 h2 => h a (by omega) (by omega)

theorem Ufs.Holds.getSlice (h : ufs.Holds image D) {addr len : ℕ} (ha : ufs.sb.InData addr len)
    (hl : 0 < len) :
    getSlice image (ufs.startOffset + addr) len = .ok (D.bytes addr len) := by
  obtain ⟨hf, rfl⟩ := h
  have hin := ha.inside hf.geom hl
  have hinside := hf.inside
  have hle : ufs.startOffset + addr + len ≤ image.length := by omega
  simp only [UfsFuse.getSlice, Outcome.guard_true hle, Outcome.ok_bind, Outcome.pure_def,
    Outcome.ok.injEq]
  apply Bytes.ext_byte
  · rw [Bytes.slice_length hle, Disk.bytes_length]
  · intro i hi
    rw [Bytes.slice_length hle] at hi
    rw [Bytes.byte_slice hi]
    simp only [Bytes.byte, Disk.bytes, view, List.getD_eq_getElem?_getD, List.getElem?_map,
      List.getElem?_range hi, Option.map_some, Option.getD_some]
    rw [if_pos (ha _ (by omega) (by omega)), Nat.add_assoc]

namespace Disk

/-- Change a count of the superblock. -/
def setTotal (D : Disk) (t : Csum) : Disk := { D with total := t }

@[simp] theorem setTotal_cg (D : Disk) (t : Csum) : (D.setTotal t).cg = D.cg := rfl
@[simp] theorem setTotal_ino (D : Disk) (t : Csum) : (D.setTotal t).ino = D.ino := rfl
@[simp] theorem setTotal_data (D : Disk) (t : Csum) : (D.setTotal t).data = D.data := rfl
@[simp] theorem setTotal_total (D : Disk) (t : Csum) : (D.setTotal t).total = t := rfl

end Disk

theorem view_super (h : ufs.Fits image) {o : ℕ} {src : Bytes} (ho : o + src.length ≤ 8192) :
    view ufs (image.overlay (ufs.superOffset + o) src) = (view ufs image).setTotal
      (view ufs (image.overlay (ufs.superOffset + o) src)).total := by
  have g := h.geom
  have hs := h.super
  simp only [ufsSbOffset] at hs
  have hl : ufs.superOffset + o + src.length ≤ image.length := by
    have := g.cgOff_ge 0
    have := g.cgOff_inside g.ncg_pos
    have := h.inside
    omega
  apply Disk.ext
  · funext c
    simp only [view, Disk.setTotal]
    split_ifs with hc
    · rw [Bytes.slice_overlay_disjoint hl]
      rw [cgBlockOffset_eq g]
      have := g.cgOff_ge c
      omega
    · rfl
  · rfl
  · funext n
    simp only [view, Disk.setTotal]
    split_ifs with hn
    · rw [Bytes.slice_overlay_disjoint hl]
      rw [inodeOffset_eq g]
      have := g.inoOff_ge n
      omega
    · rfl
  · funext a
    simp only [view, Disk.setTotal]
    split_ifs with ha
    · rw [Bytes.byte_overlay hl, if_neg]
      have := g.isData_ge ha
      omega
    · rfl

section Rules
variable {E : Fault → Bytes → Prop}

theorem Ufs.Holds.readCgBlock {image : Bytes} (h : ufs.Holds image D) {c : ℕ} (hc : c < ufs.sb.ncg) :
    ∃ b, UfsFuse.readCgBlock image ufs c = .ok b ∧ b.length = ufs.sb.bsize ∧
      CgView.decode b = D.cg c := by
  obtain ⟨hf, rfl⟩ := h
  have hin := hf.geom.cgOff_inside hc
  have hinside := hf.inside
  have hoff := cgBlockOffset_eq hf.geom c
  have hle : cgBlockOffset ufs c + ufs.sb.bsize ≤ image.length := by omega
  refine ⟨image.slice (cgBlockOffset ufs c) ufs.sb.bsize, ?_, Bytes.slice_length hle, ?_⟩
  · simp [UfsFuse.readCgBlock, UfsFuse.getSlice, Outcome.guard_true hle]
  · simp [view, hc]

theorem readCgBlock_hoare {c : ℕ} (hc : c < ufs.sb.ncg) :
    (Act.read fun image => readCgBlock image ufs c : Write Bytes).hoare ufs.Holds D
      (fun b D' => D' = D ∧ b.length = ufs.sb.bsize ∧ CgView.decode b = D.cg c) E := by
  apply Act.hoare_read
  intro image hi
  obtain ⟨b, hb, hlen, hdec⟩ := hi.readCgBlock hc
  exact ⟨b, hb, rfl, hlen, hdec⟩

/-- A group whose magic is there is read as it is. -/
theorem readAllocatableCgBlock_hoare {c : ℕ} (hc : c < ufs.sb.ncg)
    (hm : (D.cg c).magic = ufsCgMagic) :
    (readAllocatableCgBlock ufs c).hoare ufs.Holds D
      (fun b D' => D' = D ∧ b.length = ufs.sb.bsize ∧ CgView.decode b = D.cg c) E := by
  refine (readCgBlock_hoare hc).bind ?_
  rintro b D' ⟨rfl, hl, hd⟩
  have hmagic : b.u32 CgOff.magic = ufsCgMagic := by
    rw [← hm, ← hd]
    rfl
  rw [if_pos hmagic]
  exact Act.hoare_pure ⟨rfl, hl, hd⟩

theorem writeCgBlock_hoare {c : ℕ} {b : Bytes} {Q : Unit → Disk → Prop} (hc : c < ufs.sb.ncg)
    (hb : b.length = ufs.sb.bsize) (h : Q () (D.setCg c (CgView.decode b))) :
    (writeCgBlock ufs c b).hoare ufs.Holds D Q E := by
  refine @Act.hoare_update _ _ _ _ _ _ _ _ (D.setCg c (CgView.decode b)) ?_ h
  rintro image ⟨hf, rfl⟩
  have hin := hf.geom.cgOff_inside hc
  have hinside := hf.inside
  have hoff := cgBlockOffset_eq hf.geom c
  have hle : cgBlockOffset ufs c + b.length ≤ image.length := by omega
  refine ⟨image.overlay (cgBlockOffset ufs c) b, ?_, hf.overlay hle, view_cgBlock hf hc hb⟩
  simp [Outcome.guard_true hle]

theorem putData_hoare {addr : ℕ} {src : Bytes} {Q : Unit → Disk → Prop}
    (ha : ufs.sb.InData addr src.length) (hl : addr + src.length ≤ ufs.sb.dsize * 512)
    (h : Q () (D.write addr src)) :
    (putSlice (ufs.startOffset + addr) src).hoare ufs.Holds D Q E := by
  refine @Act.hoare_update _ _ _ _ _ _ _ _ (D.write addr src) ?_ h
  rintro image ⟨hf, rfl⟩
  have hinside := hf.inside
  have hle : ufs.startOffset + addr + src.length ≤ image.length := by omega
  refine ⟨image.overlay (ufs.startOffset + addr) src, ?_, hf.overlay hle, view_data hf ha hle⟩
  simp [Outcome.guard_true hle]

/-- Any bytes stored in a dinode; `field` says what they do to the decoded inode. -/
theorem putInodeField_hoare {n off : ℕ} {src : Bytes} {Q : Unit → Disk → Prop} {i : Dinode}
    (hn : n < ufs.sb.inodes) (ho : off + src.length ≤ 128)
    (field : ∀ raw : Bytes, raw.length = 128 → Dinode.decode raw = D.ino n →
      Dinode.decode (raw.overlay off src) = i)
    (h : Q () (D.setIno n i)) :
    (putInodeField ufs n off src).hoare ufs.Holds D Q E := by
  refine @Act.hoare_update _ _ _ _ _ _ _ _ (D.setIno n i) ?_ h
  rintro image ⟨hf, rfl⟩
  have hin := hf.geom.inoOff_inside hn
  have hinside := hf.inside
  have hoff := inodeOffset_eq hf.geom n
  have hle : inodeOffset ufs n + off + src.length ≤ image.length := by omega
  refine ⟨image.overlay (inodeOffset ufs n + off) src, ?_, hf.overlay hle, ?_⟩
  · simp [Outcome.guard_true hle]
  · rw [view_inode hf hn ho, field]
    · exact Bytes.slice_length (by simp only [ufsDinodeSize]; omega)
    · simp [view, hn]

theorem adjustSuperblock_total (h : ufs.Fits image) {o : ℕ} {delta : ℤ} (ho : o + 4 ≤ 8192) :
    (adjustSuperblock ufs o delta) image =
      (.ok (), image.overlay (ufs.superOffset + o)
        (Bytes.le 4 (bump (image.u32 (ufs.superOffset + o)) delta))) := by
  have g := h.geom
  have hle : ufs.superOffset + o + 4 ≤ image.length := by
    have hs := h.super
    simp only [ufsSbOffset] at hs
    have := g.cgOff_ge 0
    have := g.cgOff_inside g.ncg_pos
    have := h.inside
    omega
  simp [adjustSuperblock, Act.update, Outcome.guard_true hle, adjustU32At, Bytes.putU32, bump]

/-- Adding to one `cstotal` field. -/
theorem adjustSuperblock_hoare {o : ℕ} {delta : ℤ} {Q : Unit → Disk → Prop} {t : Csum}
    (ho : o + 4 ≤ 8192)
    (field : ∀ v : ℕ → ℕ, D.total = ⟨v FsOff.cstotalNdir, v FsOff.cstotalNbfree,
        v FsOff.cstotalNifree, v FsOff.cstotalNffree⟩ →
      (let w := fun k => if k = o then bump (v o) delta else v k
       t = ⟨w FsOff.cstotalNdir, w FsOff.cstotalNbfree, w FsOff.cstotalNifree,
        w FsOff.cstotalNffree⟩))
    (hal : o % 4 = 0) (h : Q () (D.setTotal t)) :
    (adjustSuperblock ufs o delta).hoare ufs.Holds D Q E := by
  constructor
  rintro image ⟨hf, rfl⟩
  have g := hf.geom
  have hle : ufs.superOffset + o + 4 ≤ image.length := by
    have hs := hf.super
    simp only [ufsSbOffset] at hs
    have := g.cgOff_ge 0
    have := g.cgOff_inside g.ncg_pos
    have := hf.inside
    omega
  have hlen : ∀ v, (Bytes.le 4 v).length = 4 := fun v => Bytes.le_length 4 v
  simp only [Act.wp, adjustSuperblock_total hf ho]
  refine ⟨_, ⟨hf.overlay (by rw [hlen]; omega), rfl⟩, ?_⟩
  rw [view_super hf (by rw [hlen]; exact ho)]
  have ht := field (fun k => image.u32 (ufs.superOffset + k)) rfl
  convert h using 2
  rw [ht]
  simp only [view]
  have hread : ∀ k, k % 4 = 0 → (image.overlay (ufs.superOffset + o)
      (Bytes.le 4 (bump (image.u32 (ufs.superOffset + o)) delta))).u32 (ufs.superOffset + k) =
      if k = o then bump (image.u32 (ufs.superOffset + o)) delta
      else image.u32 (ufs.superOffset + k) := by
    intro k hk
    split_ifs with hko
    · subst hko
      exact (Bytes.u32_putU32_same hle).trans (Nat.mod_eq_of_lt (bump_lt _ _))
    · exact Bytes.u32_overlay_of_disjoint (by rw [hlen]; exact hle) (by rw [hlen]; omega)
  rw [hread _ (by norm_num), hread _ (by norm_num), hread _ (by norm_num), hread _ (by norm_num)]

theorem adjustSuperblockFreeBlocks_hoare {delta : ℤ} {Q : Unit → Disk → Prop}
    (h : Q () (D.setTotal { D.total with nbfree := bump D.total.nbfree delta })) :
    (adjustSuperblockFreeBlocks ufs delta).hoare ufs.Holds D Q E := by
  refine adjustSuperblock_hoare (by norm_num) ?_ (by norm_num) h
  intro v hv
  simp [hv]

theorem adjustSuperblockFreeInodes_hoare {delta : ℤ} {Q : Unit → Disk → Prop}
    (h : Q () (D.setTotal { D.total with nifree := bump D.total.nifree delta })) :
    (adjustSuperblockFreeInodes ufs delta).hoare ufs.Holds D Q E := by
  refine adjustSuperblock_hoare (by norm_num) ?_ (by norm_num) h
  intro v hv
  simp [hv]

theorem adjustSuperblockDirectoryCount_hoare {delta : ℤ} {Q : Unit → Disk → Prop}
    (h : Q () (D.setTotal { D.total with ndir := bump D.total.ndir delta })) :
    (adjustSuperblockDirectoryCount ufs delta).hoare ufs.Holds D Q E := by
  refine adjustSuperblock_hoare (by norm_num) ?_ (by norm_num) h
  intro v hv
  simp [hv]

end Rules
end UfsFuse
