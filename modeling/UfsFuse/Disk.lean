import UfsFuse.Group
import UfsFuse.Write

/-!
# What a slice holds

The view of a slice: its group headers, its counts, its inodes and the bytes of its data areas.
Every write of the program changes one of these and leaves the others as they were.
-/
namespace UfsFuse

/-! ## Regions -/
namespace Superblock

/-- Byte offset of a group header in the slice. -/
def cgOff (sb : Superblock) (c : ℕ) : ℕ := (c * sb.fpg + sb.cblkno) * 512

/-- Byte offset of an inode in the slice. -/
def inoOff (sb : Superblock) (n : ℕ) : ℕ :=
  (n / sb.ipg * sb.fpg + sb.iblkno) * 512 + n % sb.ipg * 128

namespace Geometry
variable {sb : Superblock} (g : sb.Geometry)
include g

theorem dblkno_le_fpg : sb.dblkno ≤ sb.fpg := by
  have := g.room
  omega

theorem iblkno_le_dblkno : sb.iblkno ≤ sb.dblkno := by
  have := g.dblkno_eq
  omega

theorem cg_end : sb.cblkno + sb.frag ≤ sb.iblkno := g.iblkno_ge

theorem cgOff_ge (c : ℕ) : 16384 ≤ sb.cgOff c := by
  have := g.cblkno_ge
  unfold cgOff
  omega

theorem inoOff_ge (n : ℕ) : 16384 ≤ sb.inoOff n := by
  have := g.cblkno_ge
  have := g.iblkno_ge
  unfold inoOff
  omega

theorem cgOff_inside {c : ℕ} (hc : c < sb.ncg) : sb.cgOff c + sb.bsize ≤ sb.dsize * 512 := by
  have := g.group_end hc
  have := g.groupFrags_ge hc
  have := g.iblkno_ge
  have := g.iblkno_le_dblkno
  have := g.bsize_eq
  unfold cgOff
  omega

/-- An inode lies in the inode area of its group. -/
theorem inoOff_area (n : ℕ) :
    (n / sb.ipg * sb.fpg + sb.iblkno) * 512 ≤ sb.inoOff n ∧
      sb.inoOff n + 128 ≤ (n / sb.ipg * sb.fpg + sb.dblkno) * 512 := by
  have := g.ipg_bytes
  have := g.mod_ipg_lt n
  unfold inoOff
  omega

theorem inoOff_inside {n : ℕ} (hn : n < sb.inodes) : sb.inoOff n + 128 ≤ sb.dsize * 512 := by
  have hc := div_ipg_lt hn
  have hend := g.group_end hc
  have hge := g.groupFrags_ge hc
  have hle : n / sb.ipg * sb.fpg + sb.dblkno ≤ sb.dsize := by omega
  exact (g.inoOff_area n).2.trans (Nat.mul_le_mul_right _ hle)

theorem isData_inside {f : ℕ} (hf : sb.IsData f) : f * 512 + 512 ≤ sb.dsize * 512 := by
  obtain ⟨hc, -, hhi⟩ := hf
  have := g.group_end hc
  have := Nat.div_add_mod' f sb.fpg
  omega

theorem isData_ge {f : ℕ} (hf : sb.IsData f) : 16384 ≤ f * 512 := by
  obtain ⟨-, hlo, -⟩ := hf
  have := g.cblkno_ge
  have := g.iblkno_ge
  have := g.iblkno_le_dblkno
  have := Nat.mod_le f sb.fpg
  omega

theorem cg_cg {c c' : ℕ} (h : c ≠ c') :
    sb.cgOff c + sb.bsize ≤ sb.cgOff c' ∨ sb.cgOff c' + sb.bsize ≤ sb.cgOff c := by
  have hb := g.bsize_eq
  have he : sb.cblkno + sb.frag ≤ sb.fpg :=
    g.iblkno_ge.trans (g.iblkno_le_dblkno.trans g.dblkno_le_fpg)
  have ha := @apart sb c c' sb.cblkno _ sb.cblkno _ he he (.inl h)
  unfold cgOff
  omega

theorem cg_ino (c n : ℕ) :
    sb.cgOff c + sb.bsize ≤ sb.inoOff n ∨ sb.inoOff n + 128 ≤ sb.cgOff c := by
  have hb := g.bsize_eq
  have hi := g.inoOff_area n
  have he : sb.cblkno + sb.frag ≤ sb.fpg :=
    g.iblkno_ge.trans (g.iblkno_le_dblkno.trans g.dblkno_le_fpg)
  have ha := @apart sb c (n / sb.ipg) sb.cblkno _ sb.iblkno _ he
    g.dblkno_le_fpg (.inr (.inl g.iblkno_ge))
  unfold cgOff
  omega

/-- A data fragment is apart from every metadata range `[lo, hi)` of every group. -/
theorem data_apart {f c lo hi : ℕ} (hf : sb.IsData f) (h : hi ≤ sb.dblkno) :
    c * sb.fpg + hi ≤ f ∨ f + 1 ≤ c * sb.fpg + lo := by
  obtain ⟨-, hlo, hhi⟩ := hf
  have hfp : f % sb.fpg + 1 ≤ sb.fpg := hhi.trans_le (groupFrags_le _ _)
  have ha := @apart sb c (f / sb.fpg) lo _ (f % sb.fpg) _
    (h.trans g.dblkno_le_fpg) hfp (.inr (.inl (h.trans hlo)))
  have := Nat.div_add_mod' f sb.fpg
  omega

theorem cg_data (c : ℕ) {f : ℕ} (hf : sb.IsData f) :
    sb.cgOff c + sb.bsize ≤ f * 512 ∨ f * 512 + 512 ≤ sb.cgOff c := by
  have hb := g.bsize_eq
  have ha := @data_apart _ g f c sb.cblkno _ hf (g.iblkno_ge.trans g.iblkno_le_dblkno)
  unfold cgOff
  omega

theorem ino_data (n : ℕ) {f : ℕ} (hf : sb.IsData f) :
    sb.inoOff n + 128 ≤ f * 512 ∨ f * 512 + 512 ≤ sb.inoOff n := by
  have hi := g.inoOff_area n
  have ha := @data_apart _ g f (n / sb.ipg) sb.iblkno _ hf le_rfl
  omega

theorem ino_ino {n n' : ℕ} (h : n ≠ n') :
    sb.inoOff n + 128 ≤ sb.inoOff n' ∨ sb.inoOff n' + 128 ≤ sb.inoOff n := by
  by_cases hc : n / sb.ipg = n' / sb.ipg
  · have hm : n % sb.ipg ≠ n' % sb.ipg := by
      intro hm
      apply h
      rw [← Nat.div_add_mod n sb.ipg, ← Nat.div_add_mod n' sb.ipg, hc, hm]
    unfold inoOff
    rw [hc]
    omega
  · have hi := g.inoOff_area n
    have hi' := g.inoOff_area n'
    have ha := @apart sb (n / sb.ipg) (n' / sb.ipg) sb.iblkno _ sb.iblkno _
      g.dblkno_le_fpg g.dblkno_le_fpg (.inl hc)
    omega

end Geometry
end Superblock

theorem cgBlockOffset_eq {ufs : Ufs} (g : ufs.sb.Geometry) (c : ℕ) :
    cgBlockOffset ufs c = ufs.startOffset + ufs.sb.cgOff c := by
  rw [cgBlockOffset, g.fsbtobytes_eq, g.cgtod_eq, Superblock.cgOff]

theorem inodeOffset_eq {ufs : Ufs} (g : ufs.sb.Geometry) (n : ℕ) :
    inodeOffset ufs n = ufs.startOffset + ufs.sb.inoOff n := by
  rw [inodeOffset, g.inodeByteOffset_eq, Superblock.inoOff, Nat.add_assoc]

/-! ## The view -/

/-- All that an inode stores: what the reader decodes, the 16-bit mode, owner and group with the
cookie of the extended fields, which only an older kernel reads, and five words that nothing here
reads. -/
structure Dinode extends Inode where
  smode : ℕ
  suid : ℕ
  sgid : ℕ
  eftflag : ℕ
  atimeMicros : ℕ
  mtimeMicros : ℕ
  ctimeMicros : ℕ
  flags : ℕ
  gen : ℕ

instance : Coe Dinode Inode := ⟨Dinode.toInode⟩

theorem Dinode.ext_old {i j : Dinode} (toInode : i.toInode = j.toInode) (smode : i.smode = j.smode)
    (suid : i.suid = j.suid) (sgid : i.sgid = j.sgid) (eftflag : i.eftflag = j.eftflag)
    (atimeMicros : i.atimeMicros = j.atimeMicros) (mtimeMicros : i.mtimeMicros = j.mtimeMicros)
    (ctimeMicros : i.ctimeMicros = j.ctimeMicros) (flags : i.flags = j.flags) (gen : i.gen = j.gen) :
    i = j := by
  cases i
  cases j
  simp_all

/-- Decode all 128 bytes of a dinode. -/
def Dinode.decode (raw : Bytes) : Dinode where
  toInode := Inode.decode raw
  smode := raw.u16 DiOff.smode
  suid := raw.u16 DiOff.suid
  sgid := raw.u16 DiOff.sgid
  eftflag := raw.u32 DiOff.eftflag
  atimeMicros := raw.u32 (DiOff.atime + 4)
  mtimeMicros := raw.u32 (DiOff.mtime + 4)
  ctimeMicros := raw.u32 (DiOff.ctime + 4)
  flags := raw.u32 100
  gen := raw.u32 108

@[ext] structure Disk where
  cg : ℕ → CgView
  total : Csum
  ino : ℕ → Dinode
  data : ℕ → UInt8

/-- The view of a slice; data addresses are relative to the slice. -/
def view (ufs : Ufs) (image : Bytes) : Disk where
  cg c := if c < ufs.sb.ncg then
    CgView.decode (image.slice (cgBlockOffset ufs c) ufs.sb.bsize) else CgView.decode []
  total :=
    ⟨image.u32 (ufs.superOffset + FsOff.cstotalNdir),
      image.u32 (ufs.superOffset + FsOff.cstotalNbfree),
      image.u32 (ufs.superOffset + FsOff.cstotalNifree),
      image.u32 (ufs.superOffset + FsOff.cstotalNffree)⟩
  ino n := if n < ufs.sb.inodes then
    Dinode.decode (image.slice (inodeOffset ufs n) ufsDinodeSize) else Dinode.decode []
  data a := if ufs.sb.IsData (a / 512) then image.byte (ufs.startOffset + a) else 0

namespace Disk

def setCg (D : Disk) (c : ℕ) (v : CgView) : Disk := { D with cg := Function.update D.cg c v }
def setIno (D : Disk) (n : ℕ) (i : Dinode) : Disk := { D with ino := Function.update D.ino n i }

/-- Overwrite the data bytes from `addr` on. -/
def write (D : Disk) (addr : ℕ) (src : Bytes) : Disk :=
  { D with data := fun a => if addr ≤ a ∧ a < addr + src.length then src.byte (a - addr) else D.data a }

/-- The `len` data bytes from `addr` on. -/
def bytes (D : Disk) (addr len : ℕ) : Bytes := (List.range len).map fun i => D.data (addr + i)

@[simp] theorem setCg_cg (D : Disk) (c : ℕ) (v : CgView) :
    (D.setCg c v).cg = Function.update D.cg c v := rfl
@[simp] theorem setCg_ino (D : Disk) (c : ℕ) (v : CgView) : (D.setCg c v).ino = D.ino := rfl
@[simp] theorem setCg_data (D : Disk) (c : ℕ) (v : CgView) : (D.setCg c v).data = D.data := rfl
@[simp] theorem setCg_total (D : Disk) (c : ℕ) (v : CgView) : (D.setCg c v).total = D.total := rfl
@[simp] theorem setIno_cg (D : Disk) (n : ℕ) (i : Dinode) : (D.setIno n i).cg = D.cg := rfl
@[simp] theorem setIno_ino (D : Disk) (n : ℕ) (i : Dinode) :
    (D.setIno n i).ino = Function.update D.ino n i := rfl
@[simp] theorem setIno_data (D : Disk) (n : ℕ) (i : Dinode) : (D.setIno n i).data = D.data := rfl
@[simp] theorem setIno_total (D : Disk) (n : ℕ) (i : Dinode) : (D.setIno n i).total = D.total := rfl
@[simp] theorem write_cg (D : Disk) (a : ℕ) (b : Bytes) : (D.write a b).cg = D.cg := rfl
@[simp] theorem write_ino (D : Disk) (a : ℕ) (b : Bytes) : (D.write a b).ino = D.ino := rfl
@[simp] theorem write_total (D : Disk) (a : ℕ) (b : Bytes) : (D.write a b).total = D.total := rfl

@[simp] theorem bytes_length (D : Disk) (addr len : ℕ) : (D.bytes addr len).length = len := by
  simp [bytes]

end Disk

/-- The bytes `[addr, addr + len)` of the slice all lie in data areas. -/
def Superblock.InData (sb : Superblock) (addr len : ℕ) : Prop :=
  ∀ a, addr ≤ a → a < addr + len → sb.IsData (a / 512)

/-! ## One write, one change of the view -/
section Write
variable {ufs : Ufs} {image : Bytes}

theorem Ufs.Fits.of_length (h : ufs.Fits image) {t : Bytes} (hl : t.length = image.length) :
    ufs.Fits t := ⟨h.geom, h.super, hl ▸ h.inside⟩

theorem Ufs.Fits.overlay (h : ufs.Fits image) {off : ℕ} {src : Bytes}
    (hl : off + src.length ≤ image.length) : ufs.Fits (image.overlay off src) :=
  h.of_length (Bytes.overlay_length hl)

theorem view_cgBlock (h : ufs.Fits image) {c : ℕ} {b : Bytes} (hc : c < ufs.sb.ncg)
    (hb : b.length = ufs.sb.bsize) :
    view ufs (image.overlay (cgBlockOffset ufs c) b) =
      (view ufs image).setCg c (CgView.decode b) := by
  have g := h.geom
  have hin := g.cgOff_inside hc
  have hinside := h.inside
  have hl : cgBlockOffset ufs c + b.length ≤ image.length := by
    rw [cgBlockOffset_eq g]
    omega
  apply Disk.ext
  · funext c'
    simp only [view, Disk.setCg, Function.update_apply]
    by_cases hcc : c' = c
    · subst hcc
      rw [if_pos hc, if_pos rfl, ← hb, Bytes.slice_overlay_same hl]
    · rw [if_neg hcc]
      split_ifs with hc'
      · rw [Bytes.slice_overlay_disjoint hl]
        rw [cgBlockOffset_eq g, cgBlockOffset_eq g, hb]
        have := g.cg_cg hcc
        omega
      · rfl
  · simp only [view, Disk.setCg]
    have := g.cgOff_ge c
    have := h.super
    have hk : ∀ o, o + 4 ≤ 16384 - 8192 →
        (image.overlay (cgBlockOffset ufs c) b).u32 (ufs.superOffset + o) =
          image.u32 (ufs.superOffset + o) := by
      intro o ho
      apply Bytes.u32_overlay_of_disjoint hl
      left
      rw [cgBlockOffset_eq g, h.super]
      simp only [ufsSbOffset]
      omega
    rw [hk _ (by norm_num), hk _ (by norm_num), hk _ (by norm_num), hk _ (by norm_num)]
  · funext n
    simp only [view, Disk.setCg]
    split_ifs with hn
    · rw [Bytes.slice_overlay_disjoint hl]
      rw [cgBlockOffset_eq g, inodeOffset_eq g, hb]
      have := g.cg_ino c n
      simp only [ufsDinodeSize]
      omega
    · rfl
  · funext a
    simp only [view, Disk.setCg]
    split_ifs with ha
    · rw [Bytes.byte_overlay hl, if_neg]
      rw [cgBlockOffset_eq g, hb]
      have := g.cg_data c ha
      omega
    · rfl

theorem view_inode (h : ufs.Fits image) {n off : ℕ} {src : Bytes} (hn : n < ufs.sb.inodes)
    (ho : off + src.length ≤ 128) :
    view ufs (image.overlay (inodeOffset ufs n + off) src) =
      (view ufs image).setIno n
        (Dinode.decode ((image.slice (inodeOffset ufs n) ufsDinodeSize).overlay off src)) := by
  have g := h.geom
  have hin := g.inoOff_inside hn
  have hinside := h.inside
  have hoff := inodeOffset_eq g n
  have hl : inodeOffset ufs n + off + src.length ≤ image.length := by omega
  apply Disk.ext
  · funext c
    simp only [view, Disk.setIno]
    split_ifs with hc
    · rw [Bytes.slice_overlay_disjoint hl]
      rw [cgBlockOffset_eq g, hoff]
      have := g.cg_ino c n
      omega
    · rfl
  · simp only [view, Disk.setIno]
    have := g.inoOff_ge n
    have hk : ∀ o, o + 4 ≤ 16384 - 8192 →
        (image.overlay (inodeOffset ufs n + off) src).u32 (ufs.superOffset + o) =
          image.u32 (ufs.superOffset + o) := by
      intro o ho
      apply Bytes.u32_overlay_of_disjoint hl
      left
      rw [hoff, h.super]
      simp only [ufsSbOffset]
      omega
    rw [hk _ (by norm_num), hk _ (by norm_num), hk _ (by norm_num), hk _ (by norm_num)]
  · funext n'
    simp only [view, Disk.setIno, Function.update_apply]
    by_cases hnn : n' = n
    · subst hnn
      rw [if_pos hn, if_pos rfl, Bytes.slice_overlay_around]
      · rw [Nat.add_sub_cancel_left]
      · simp only [ufsDinodeSize]
        omega
      · omega
      · simp only [ufsDinodeSize]
        omega
    · rw [if_neg hnn]
      split_ifs with hn'
      · rw [Bytes.slice_overlay_disjoint hl]
        rw [hoff, inodeOffset_eq g n']
        have := g.ino_ino hnn
        simp only [ufsDinodeSize]
        omega
      · rfl
  · funext a
    simp only [view, Disk.setIno]
    split_ifs with ha
    · rw [Bytes.byte_overlay hl, if_neg]
      rw [hoff]
      have := g.ino_data n ha
      omega
    · rfl

theorem view_data (h : ufs.Fits image) {addr : ℕ} {src : Bytes}
    (ha : ufs.sb.InData addr src.length) (hl : ufs.startOffset + addr + src.length ≤ image.length) :
    view ufs (image.overlay (ufs.startOffset + addr) src) = (view ufs image).write addr src := by
  have g := h.geom
  apply Disk.ext
  · funext c
    simp only [view, Disk.write]
    split_ifs with hc
    · congr 1
      apply Bytes.ext_byte
      · simp only [Bytes.slice, List.length_take, List.length_drop, Bytes.overlay_length hl]
      · intro i hi
        have hi' : i < ufs.sb.bsize := hi.trans_le (Bytes.slice_length_le _ _ _)
        rw [Bytes.byte_slice hi', Bytes.byte_slice hi', Bytes.byte_overlay hl, if_neg]
        rintro ⟨h1, h2⟩
        rw [cgBlockOffset_eq g] at h1 h2
        have hd := ha (ufs.sb.cgOff c + i) (by omega) (by omega)
        have := g.cg_data c hd
        omega
    · rfl
  · simp only [view, Disk.write]
    have hk : ∀ o, o + 4 ≤ 16384 - 8192 →
        (image.overlay (ufs.startOffset + addr) src).u32 (ufs.superOffset + o) =
          image.u32 (ufs.superOffset + o) := by
      intro o ho
      rcases List.eq_nil_or_concat src with rfl | ⟨front, last, rfl⟩
      · rw [Bytes.overlay_nil]
      · have := g.isData_ge (ha addr le_rfl (by simp))
        apply Bytes.u32_overlay_of_disjoint hl
        left
        rw [h.super]
        simp only [ufsSbOffset]
        omega
    rw [hk _ (by norm_num), hk _ (by norm_num), hk _ (by norm_num), hk _ (by norm_num)]
  · funext n
    simp only [view, Disk.write]
    split_ifs with hn
    · congr 1
      apply Bytes.ext_byte
      · simp only [Bytes.slice, List.length_take, List.length_drop, Bytes.overlay_length hl]
      · intro i hi
        have hi' : i < 128 := hi.trans_le (Bytes.slice_length_le _ _ _)
        rw [Bytes.byte_slice hi', Bytes.byte_slice hi', Bytes.byte_overlay hl, if_neg]
        rintro ⟨h1, h2⟩
        rw [inodeOffset_eq g] at h1 h2
        have hd := ha (ufs.sb.inoOff n + i) (by omega) (by omega)
        have := g.ino_data n hd
        omega
    · rfl
  · funext a
    simp only [view, Disk.write]
    split_ifs with hd hr hr
    · rw [Bytes.byte_overlay hl, if_pos (by omega)]
      congr 1
      omega
    · rw [Bytes.byte_overlay hl, if_neg (by omega)]
    · exact absurd (ha a hr.1 hr.2) hd
    · rfl

end Write
end UfsFuse
