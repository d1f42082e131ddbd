import UfsFuse.Access

/-!
# Inode fields on the view

What storing each field of a dinode does to the decoded inode.
-/
namespace UfsFuse

namespace Bytes

theorem u64_overlay_of_disjoint {b src : Bytes} {off o : ℕ}
    (h : off + src.length ≤ b.length) (hd : o + 8 ≤ off ∨ off + src.length ≤ o) :
    (b.overlay off src).u64 o = b.u64 o := by
  rw [u64, slice_overlay_disjoint h hd, u64]

end Bytes

theorem pointerSlots_eq (count : ℕ) (values : List ℕ) :
    pointerSlots count values = Bytes.words ((List.range count).map fun i => values.getD i 0) := by
  rw [pointerSlots, Bytes.words, List.flatMap_map]

section Decode
variable {raw : Bytes}

/-- Bytes stored apart from every decoded field. -/
theorem decode_overlay {off : ℕ} {src : Bytes} {i : Inode}
    (mode : (raw.overlay off src).u32 DiOff.mode = i.mode)
    (nlink : (raw.overlay off src).u16 DiOff.nlink = i.nlink)
    (uid : (raw.overlay off src).u32 DiOff.uid = i.uid)
    (gid : (raw.overlay off src).u32 DiOff.gid = i.gid)
    (atime : (raw.overlay off src).u32 DiOff.atime = i.atime)
    (mtime : (raw.overlay off src).u32 DiOff.mtime = i.mtime)
    (ctime : (raw.overlay off src).u32 DiOff.ctime = i.ctime)
    (size : (raw.overlay off src).u64 DiOff.size = i.size)
    (direct : ((List.range ufsNdaddr).map fun k => (raw.overlay off src).u32 (DiOff.db + k * 4)) =
      i.directBlocks)
    (indirect : ((List.range ufsNiaddr).map fun k => (raw.overlay off src).u32 (DiOff.ib + k * 4)) =
      i.indirectBlocks)
    (blocks : (raw.overlay off src).u32 DiOff.blocks = i.blocks) :
    Inode.decode (raw.overlay off src) = i := by
  cases i
  simp only [Inode.decode, Inode.mk.injEq]
  exact ⟨mode, nlink, uid, gid, atime, mtime, ctime, size, direct, indirect, blocks⟩

theorem direct_overlay {off : ℕ} {src : Bytes} (h : off + src.length ≤ raw.length)
    (hd : off + src.length ≤ DiOff.db ∨ DiOff.db + 48 ≤ off) :
    ((List.range ufsNdaddr).map fun k => (raw.overlay off src).u32 (DiOff.db + k * 4)) =
      (Inode.decode raw).directBlocks := by
  simp only [Inode.decode]
  refine List.map_congr_left ?_
  intro k hk
  have hk' := List.mem_range.mp hk
  simp only [DiOff.db, ufsNdaddr] at hd hk' ⊢
  exact Bytes.u32_overlay_of_disjoint h (by omega)

theorem indirect_overlay {off : ℕ} {src : Bytes} (h : off + src.length ≤ raw.length)
    (hd : off + src.length ≤ DiOff.ib ∨ DiOff.ib + 12 ≤ off) :
    ((List.range ufsNiaddr).map fun k => (raw.overlay off src).u32 (DiOff.ib + k * 4)) =
      (Inode.decode raw).indirectBlocks := by
  simp only [Inode.decode]
  refine List.map_congr_left ?_
  intro k hk
  have hk' := List.mem_range.mp hk
  simp only [DiOff.ib, ufsNiaddr] at hd hk' ⊢
  exact Bytes.u32_overlay_of_disjoint h (by omega)

/-- One of the 32-bit fields, the rest of the inode untouched. -/
theorem decode_putU32_field {off v : ℕ} {i : Inode} (hl : raw.length = 128) (ho : off + 4 ≤ 128)
    (hoff : off % 4 = 0) (hdb : off + 4 ≤ DiOff.db ∨ DiOff.db + 48 ≤ off)
    (hib : off + 4 ≤ DiOff.ib ∨ DiOff.ib + 12 ≤ off) (hnl : DiOff.nlink + 2 ≤ off)
    (hsz : off ≠ 8 ∧ off ≠ 12)
    (hi : i = { Inode.decode raw with
      mode := if off = DiOff.mode then v % 2 ^ 32 else (Inode.decode raw).mode
      uid := if off = DiOff.uid then v % 2 ^ 32 else (Inode.decode raw).uid
      gid := if off = DiOff.gid then v % 2 ^ 32 else (Inode.decode raw).gid
      atime := if off = DiOff.atime then v % 2 ^ 32 else (Inode.decode raw).atime
      mtime := if off = DiOff.mtime then v % 2 ^ 32 else (Inode.decode raw).mtime
      ctime := if off = DiOff.ctime then v % 2 ^ 32 else (Inode.decode raw).ctime
      blocks := if off = DiOff.blocks then v % 2 ^ 32 else (Inode.decode raw).blocks }) :
    Inode.decode (raw.overlay off (Bytes.le 4 v)) = i := by
  have h : off + (Bytes.le 4 v).length ≤ raw.length := by
    rw [Bytes.le_length]
    omega
  have hread : ∀ k, k % 4 = 0 →
      (raw.overlay off (Bytes.le 4 v)).u32 k = if off = k then v % 2 ^ 32 else raw.u32 k := by
    intro k hk
    split_ifs with he
    · subst he
      exact Bytes.u32_putU32_same (by omega)
    · exact Bytes.u32_overlay_of_disjoint h (by rw [Bytes.le_length]; omega)
  subst hi
  apply decode_overlay
  · exact hread _ (by norm_num)
  · exact Bytes.u16_overlay_of_disjoint h (.inl hnl)
  · exact hread _ (by norm_num)
  · exact hread _ (by norm_num)
  · exact hread _ (by norm_num)
  · exact hread _ (by norm_num)
  · exact hread _ (by norm_num)
  · refine Bytes.u64_overlay_of_disjoint h ?_
    rw [Bytes.le_length]
    simp only [DiOff.size, DiOff.nlink] at hnl ⊢
    omega
  · exact direct_overlay h (by rw [Bytes.le_length]; exact hdb)
  · exact indirect_overlay h (by rw [Bytes.le_length]; exact hib)
  · exact hread _ (by norm_num)

/-- Bytes that no decoded field covers. -/
theorem decode_hidden {off : ℕ} {src : Bytes} (hl : raw.length = 128)
    (hout : (off = 0 ∧ src.length = 2) ∨ (off = 4 ∧ src.length = 2) ∨ (off = 6 ∧ src.length = 2) ∨
      (off = 20 ∧ src.length = 4) ∨ (off = 28 ∧ src.length = 4) ∨ (off = 36 ∧ src.length = 4) ∨
      (off = 124 ∧ src.length = 4)) :
    Inode.decode (raw.overlay off src) = Inode.decode raw := by
  have h : off + src.length ≤ raw.length := by omega
  apply decode_overlay
  · exact Bytes.u32_overlay_of_disjoint h (by simp only [DiOff.mode]; omega)
  · exact Bytes.u16_overlay_of_disjoint h (by simp only [DiOff.nlink]; omega)
  · exact Bytes.u32_overlay_of_disjoint h (by simp only [DiOff.uid]; omega)
  · exact Bytes.u32_overlay_of_disjoint h (by simp only [DiOff.gid]; omega)
  · exact Bytes.u32_overlay_of_disjoint h (by simp only [DiOff.atime]; omega)
  · exact Bytes.u32_overlay_of_disjoint h (by simp only [DiOff.mtime]; omega)
  · exact Bytes.u32_overlay_of_disjoint h (by simp only [DiOff.ctime]; omega)
  · exact Bytes.u64_overlay_of_disjoint h (by simp only [DiOff.size]; omega)
  · exact direct_overlay h (by simp only [DiOff.db]; omega)
  · exact indirect_overlay h (by simp only [DiOff.ib]; omega)
  · exact Bytes.u32_overlay_of_disjoint h (by simp only [DiOff.blocks]; omega)

theorem decode_nlink {v : ℕ} (hl : raw.length = 128) :
    Inode.decode (raw.overlay DiOff.nlink (Bytes.le 2 v)) =
      { Inode.decode raw with nlink := v % 2 ^ 16 } := by
  have h : DiOff.nlink + (Bytes.le 2 v).length ≤ raw.length := by
    rw [Bytes.le_length, hl]
    norm_num
  have hd : ∀ k, 4 ≤ k → k + 4 ≤ DiOff.nlink ∨ DiOff.nlink + (Bytes.le 2 v).length ≤ k := by
    intro k hk
    rw [Bytes.le_length]
    exact .inr hk
  apply decode_overlay
  · exact Bytes.u32_overlay_of_disjoint h (hd _ (by norm_num))
  · exact Bytes.u16_putU16_same (by rw [hl]; norm_num)
  · exact Bytes.u32_overlay_of_disjoint h (hd _ (by norm_num))
  · exact Bytes.u32_overlay_of_disjoint h (hd _ (by norm_num))
  · exact Bytes.u32_overlay_of_disjoint h (hd _ (by norm_num))
  · exact Bytes.u32_overlay_of_disjoint h (hd _ (by norm_num))
  · exact Bytes.u32_overlay_of_disjoint h (hd _ (by norm_num))
  · exact Bytes.u64_overlay_of_disjoint h (by rw [Bytes.le_length]; norm_num)
  · exact direct_overlay h (by rw [Bytes.le_length]; norm_num)
  · exact indirect_overlay h (by rw [Bytes.le_length]; norm_num)
  · exact Bytes.u32_overlay_of_disjoint h (hd _ (by norm_num))

theorem decode_size {v : ℕ} (hl : raw.length = 128) :
    Inode.decode (raw.overlay DiOff.size (Bytes.le 8 v)) =
      { Inode.decode raw with size := v % 2 ^ 64 } := by
  have h : DiOff.size + (Bytes.le 8 v).length ≤ raw.length := by
    rw [Bytes.le_length, hl]
    norm_num
  have hd : ∀ k, 16 ≤ k → k + 4 ≤ DiOff.size ∨ DiOff.size + (Bytes.le 8 v).length ≤ k := by
    intro k hk
    rw [Bytes.le_length]
    exact .inr hk
  apply decode_overlay
  · exact Bytes.u32_overlay_of_disjoint h (hd _ (by norm_num))
  · exact Bytes.u16_overlay_of_disjoint h (.inl (by norm_num))
  · exact Bytes.u32_overlay_of_disjoint h (hd _ (by norm_num))
  · exact Bytes.u32_overlay_of_disjoint h (hd _ (by norm_num))
  · exact Bytes.u32_overlay_of_disjoint h (hd _ (by norm_num))
  · exact Bytes.u32_overlay_of_disjoint h (hd _ (by norm_num))
  · exact Bytes.u32_overlay_of_disjoint h (hd _ (by norm_num))
  · exact Bytes.u64_putU64_same (by rw [hl]; norm_num)
  · exact direct_overlay h (by rw [Bytes.le_length]; norm_num)
  · exact indirect_overlay h (by rw [Bytes.le_length]; norm_num)
  · exact Bytes.u32_overlay_of_disjoint h (hd _ (by norm_num))

/-- Twelve words stored over the direct pointers. -/
theorem decode_direct {vs : List ℕ} (hl : raw.length = 128) (hv : vs.length = ufsNdaddr)
    (h32 : ∀ v ∈ vs, v < 2 ^ 32) :
    Inode.decode (raw.overlay DiOff.db (Bytes.words vs)) =
      { Inode.decode raw with directBlocks := vs } := by
  have hwl : (Bytes.words vs).length = 48 := by
    rw [Bytes.words_length, hv]
    norm_num
  have h : DiOff.db + (Bytes.words vs).length ≤ raw.length := by
    rw [hwl, hl]
    norm_num
  have hd : ∀ k, k + 4 ≤ 40 ∨ 88 ≤ k →
      k + 4 ≤ DiOff.db ∨ DiOff.db + (Bytes.words vs).length ≤ k := by
    intro k hk
    rw [hwl]
    exact hk
  apply decode_overlay
  · exact Bytes.u32_overlay_of_disjoint h (hd _ (by norm_num))
  · exact Bytes.u16_overlay_of_disjoint h (.inl (by norm_num))
  · exact Bytes.u32_overlay_of_disjoint h (hd _ (by norm_num))
  · exact Bytes.u32_overlay_of_disjoint h (hd _ (by norm_num))
  · exact Bytes.u32_overlay_of_disjoint h (hd _ (by norm_num))
  · exact Bytes.u32_overlay_of_disjoint h (hd _ (by norm_num))
  · exact Bytes.u32_overlay_of_disjoint h (hd _ (by norm_num))
  · exact Bytes.u64_overlay_of_disjoint h (.inl (by norm_num))
  · apply List.ext_getElem
    · simp [hv]
    · intro k h1 h2
      simp only [List.getElem_map, List.getElem_range]
      rw [Bytes.u32_overlay_words (by rw [hv, hl]; norm_num) h2, List.getD_eq_getElem _ _ h2,
        Nat.mod_eq_of_lt (h32 _ (List.getElem_mem h2))]
  · exact indirect_overlay h (by rw [hwl]; norm_num)
  · exact Bytes.u32_overlay_of_disjoint h (hd _ (by norm_num))

theorem decode_indirect {vs : List ℕ} (hl : raw.length = 128) (hv : vs.length = ufsNiaddr)
    (h32 : ∀ v ∈ vs, v < 2 ^ 32) :
    Inode.decode (raw.overlay DiOff.ib (Bytes.words vs)) =
      { Inode.decode raw with indirectBlocks := vs } := by
  have hwl : (Bytes.words vs).length = 12 := by
    rw [Bytes.words_length, hv]
    norm_num
  have h : DiOff.ib + (Bytes.words vs).length ≤ raw.length := by
    rw [hwl, hl]
    norm_num
  have hd : ∀ k, k + 4 ≤ 88 ∨ 100 ≤ k →
      k + 4 ≤ DiOff.ib ∨ DiOff.ib + (Bytes.words vs).length ≤ k := by
    intro k hk
    rw [hwl]
    exact hk
  apply decode_overlay
  · exact Bytes.u32_overlay_of_disjoint h (hd _ (by norm_num))
  · exact Bytes.u16_overlay_of_disjoint h (.inl (by norm_num))
  · exact Bytes.u32_overlay_of_disjoint h (hd _ (by norm_num))
  · exact Bytes.u32_overlay_of_disjoint h (hd _ (by norm_num))
  · exact Bytes.u32_overlay_of_disjoint h (hd _ (by norm_num))
  · exact Bytes.u32_overlay_of_disjoint h (hd _ (by norm_num))
  · exact Bytes.u32_overlay_of_disjoint h (hd _ (by norm_num))
  · exact Bytes.u64_overlay_of_disjoint h (.inl (by norm_num))
  · exact direct_overlay h (by rw [hwl]; norm_num)
  · apply List.ext_getElem
    · simp [hv]
    · intro k h1 h2
      simp only [List.getElem_map, List.getElem_range]
      rw [Bytes.u32_overlay_words (by rw [hv, hl]; norm_num) h2, List.getD_eq_getElem _ _ h2,
        Nat.mod_eq_of_lt (h32 _ (List.getElem_mem h2))]
  · exact Bytes.u32_overlay_of_disjoint h (hd _ (by norm_num))

/-- The bytes that the reader decodes, in spans. -/
def InodeSpan (off len : ℕ) : Prop :=
  (2 ≤ off ∧ off + len ≤ 4) ∨ (8 ≤ off ∧ off + len ≤ 20) ∨ (24 ≤ off ∧ off + len ≤ 28) ∨
    (32 ≤ off ∧ off + len ≤ 36) ∨ (40 ≤ off ∧ off + len ≤ 100) ∨ (104 ≤ off ∧ off + len ≤ 108) ∨
      (112 ≤ off ∧ off + len ≤ 124)

/-- Bytes stored apart from the fields that the reader skips. -/
theorem Dinode.decode_overlay {off : ℕ} {src : Bytes} {i : Inode} (hl : raw.length = 128)
    (hd : InodeSpan off src.length)
    (hi : Inode.decode (raw.overlay off src) = i) :
    Dinode.decode (raw.overlay off src) = { Dinode.decode raw with toInode := i } := by
  unfold InodeSpan at hd
  have h : off + src.length ≤ raw.length := by omega
  apply Dinode.ext_old
  · exact hi
  · exact Bytes.u16_overlay_of_disjoint h (by simp only [DiOff.smode]; omega)
  · exact Bytes.u16_overlay_of_disjoint h (by simp only [DiOff.suid]; omega)
  · exact Bytes.u16_overlay_of_disjoint h (by simp only [DiOff.sgid]; omega)
  · exact Bytes.u32_overlay_of_disjoint h (by simp only [DiOff.eftflag]; omega)
  · exact Bytes.u32_overlay_of_disjoint h (by simp only [DiOff.atime]; omega)
  · exact Bytes.u32_overlay_of_disjoint h (by simp only [DiOff.mtime]; omega)
  · exact Bytes.u32_overlay_of_disjoint h (by simp only [DiOff.ctime]; omega)
  · exact Bytes.u32_overlay_of_disjoint h (by omega)
  · exact Bytes.u32_overlay_of_disjoint h (by omega)

/-- One of the 16-bit fields. -/
theorem decode_putU16_field {off v : ℕ} (hl : raw.length = 128)
    (hoff : off = DiOff.smode ∨ off = DiOff.suid ∨ off = DiOff.sgid) :
    Dinode.decode (raw.overlay off (Bytes.le 2 v)) =
      { Dinode.decode raw with
        smode := if off = DiOff.smode then v % 2 ^ 16 else (Dinode.decode raw).smode
        suid := if off = DiOff.suid then v % 2 ^ 16 else (Dinode.decode raw).suid
        sgid := if off = DiOff.sgid then v % 2 ^ 16 else (Dinode.decode raw).sgid } := by
  have hlen : (Bytes.le 2 v).length = 2 := Bytes.le_length ..
  have h : off + (Bytes.le 2 v).length ≤ raw.length := by
    simp only [DiOff.smode, DiOff.suid, DiOff.sgid] at hoff
    omega
  have hread : ∀ k, (k = 0 ∨ k = 4 ∨ k = 6) →
      (raw.overlay off (Bytes.le 2 v)).u16 k = if off = k then v % 2 ^ 16 else raw.u16 k := by
    intro k hk
    simp only [DiOff.smode, DiOff.suid, DiOff.sgid] at hoff
    split_ifs with he
    · subst he
      exact Bytes.u16_putU16_same (by omega)
    · exact Bytes.u16_overlay_of_disjoint h (by omega)
  apply Dinode.ext_old
  · exact decode_hidden hl (by simp only [DiOff.smode, DiOff.suid, DiOff.sgid] at hoff; omega)
  · exact hread _ (by simp)
  · exact hread _ (by simp)
  · exact hread _ (by simp)
  all_goals
    refine Bytes.u32_overlay_of_disjoint h ?_
    simp only [DiOff.smode, DiOff.suid, DiOff.sgid, DiOff.eftflag, DiOff.atime, DiOff.mtime,
      DiOff.ctime] at hoff ⊢
    omega

theorem decode_micros {field : ℕ} (hl : raw.length = 128)
    (hf : field = DiOff.atime ∨ field = DiOff.mtime ∨ field = DiOff.ctime) :
    Dinode.decode (raw.overlay (field + 4) (Bytes.le 4 0)) =
      { Dinode.decode raw with
        atimeMicros := if field = DiOff.atime then 0 else (Dinode.decode raw).atimeMicros
        mtimeMicros := if field = DiOff.mtime then 0 else (Dinode.decode raw).mtimeMicros
        ctimeMicros := if field = DiOff.ctime then 0 else (Dinode.decode raw).ctimeMicros } := by
  have hlen : (Bytes.le 4 0).length = 4 := Bytes.le_length ..
  simp only [DiOff.atime, DiOff.mtime, DiOff.ctime] at hf
  have h : field + 4 + (Bytes.le 4 0).length ≤ raw.length := by omega
  have hread : ∀ k, (k = 16 ∨ k = 24 ∨ k = 32) →
      (raw.overlay (field + 4) (Bytes.le 4 0)).u32 (k + 4) =
        if field = k then 0 else raw.u32 (k + 4) := by
    intro k hk
    split_ifs with he
    · subst he
      exact Bytes.u32_putU32_same (by omega)
    · exact Bytes.u32_overlay_of_disjoint h (by omega)
  apply Dinode.ext_old
  · exact decode_hidden hl (by omega)
  · exact Bytes.u16_overlay_of_disjoint h (by simp only [DiOff.smode]; omega)
  · exact Bytes.u16_overlay_of_disjoint h (by simp only [DiOff.suid]; omega)
  · exact Bytes.u16_overlay_of_disjoint h (by simp only [DiOff.sgid]; omega)
  · exact Bytes.u32_overlay_of_disjoint h (by simp only [DiOff.eftflag]; omega)
  · exact hread _ (by simp)
  · exact hread _ (by simp)
  · exact hread _ (by simp)
  · exact Bytes.u32_overlay_of_disjoint h (by omega)
  · exact Bytes.u32_overlay_of_disjoint h (by omega)

theorem decode_eftflag {v : ℕ} (hl : raw.length = 128) :
    Dinode.decode (raw.overlay DiOff.eftflag (Bytes.le 4 v)) =
      { Dinode.decode raw with eftflag := v % 2 ^ 32 } := by
  have h : DiOff.eftflag + (Bytes.le 4 v).length ≤ raw.length := by
    rw [Bytes.le_length, hl]
  apply Dinode.ext_old
  · exact decode_hidden hl (by simp)
  · exact Bytes.u16_overlay_of_disjoint h (by norm_num)
  · exact Bytes.u16_overlay_of_disjoint h (by norm_num)
  · exact Bytes.u16_overlay_of_disjoint h (by norm_num)
  · exact Bytes.u32_putU32_same (by rw [hl])
  all_goals exact Bytes.u32_overlay_of_disjoint h (by norm_num)

/-- A dinode of zeros. -/
def Dinode.blank : Dinode :=
  ⟨⟨0, 0, 0, 0, 0, 0, 0, 0, List.replicate ufsNdaddr 0, List.replicate ufsNiaddr 0, 0⟩, 0, 0, 0, 0,
    0, 0, 0, 0, 0⟩

theorem decode_zeros : Dinode.decode (Bytes.zeros ufsDinodeSize) = Dinode.blank := by
  have h32 : ∀ off, off + 4 ≤ 128 → (Bytes.zeros 128).u32 off = 0 := fun off ho => by
    rw [Bytes.u32, Bytes.slice_zeros ho, Bytes.leNat_zeros]
  have h16 : ∀ off, off + 2 ≤ 128 → (Bytes.zeros 128).u16 off = 0 := fun off ho => by
    rw [Bytes.u16, Bytes.slice_zeros ho, Bytes.leNat_zeros]
  have h64 : (Bytes.zeros 128).u64 DiOff.size = 0 := by
    rw [Bytes.u64, Bytes.slice_zeros (by norm_num), Bytes.leNat_zeros]
  have hlist : ∀ base count, base + count * 4 ≤ 128 →
      ((List.range count).map fun k => (Bytes.zeros 128).u32 (base + k * 4)) =
        List.replicate count 0 := by
    intro base count hb
    rw [List.eq_replicate_iff]
    refine ⟨by simp, fun v hv => ?_⟩
    obtain ⟨k, hk, rfl⟩ := List.mem_map.mp hv
    have := List.mem_range.mp hk
    exact h32 _ (by omega)
  have hinode : Inode.decode (Bytes.zeros ufsDinodeSize) = Dinode.blank.toInode := by
    simp only [Inode.decode, Dinode.blank, ufsDinodeSize, h16 DiOff.nlink (by norm_num), h64,
      Inode.mk.injEq, true_and]
    exact ⟨h32 _ (by norm_num), h32 _ (by norm_num), h32 _ (by norm_num), h32 _ (by norm_num),
      h32 _ (by norm_num), h32 _ (by norm_num), hlist _ _ (by norm_num), hlist _ _ (by norm_num),
      h32 _ (by norm_num)⟩
  exact Dinode.ext_old hinode (h16 _ (by norm_num)) (h16 _ (by norm_num)) (h16 _ (by norm_num))
    (h32 _ (by norm_num)) (h32 _ (by norm_num)) (h32 _ (by norm_num)) (h32 _ (by norm_num))
    (h32 _ (by norm_num)) (h32 _ (by norm_num))

end Decode

/-! ## The whole dinode is decoded -/

theorem Bytes.leNat_injective : ∀ {a b : Bytes}, a.length = b.length →
    Bytes.leNat a = Bytes.leNat b → a = b := by
  intro a
  induction a with
  | nil =>
    intro b hl _
    exact (List.length_eq_zero_iff.mp hl.symm).symm
  | cons x xs ih =>
    intro b hl h
    cases b with
    | nil => cases hl
    | cons y ys =>
      have hx : x.toNat < 256 := x.toNat_lt
      have hy : y.toNat < 256 := y.toNat_lt
      simp only [Bytes.leNat] at h
      have hxy : x.toNat = y.toNat := by omega
      have hrest : Bytes.leNat xs = Bytes.leNat ys := by omega
      rw [UInt8.toNat_inj.mp hxy, ih (Nat.succ.inj hl) hrest]

/-- Equal words have equal bytes. -/
theorem Bytes.byte_eq_of_word {a b : Bytes} {off w k : ℕ} (ha : off + w ≤ a.length)
    (hb : off + w ≤ b.length)
    (h : Bytes.leNat (a.slice off w) = Bytes.leNat (b.slice off w)) (hk : off ≤ k ∧ k < off + w) :
    a.byte k = b.byte k := by
  have hs : a.slice off w = b.slice off w := by
    apply Bytes.leNat_injective
    · rw [Bytes.slice_length ha, Bytes.slice_length hb]
    · exact h
  have hbyte : (a.slice off w).byte (k - off) = (b.slice off w).byte (k - off) := by rw [hs]
  rw [Bytes.byte_slice (by omega), Bytes.byte_slice (by omega)] at hbyte
  rwa [Nat.add_sub_cancel' hk.1] at hbyte

theorem Dinode.decode_injective {a b : Bytes} (ha : a.length = 128) (hb : b.length = 128)
    (h : Dinode.decode a = Dinode.decode b) : a = b := by
  have hpointers : ∀ {base count : ℕ}, base + count * 4 ≤ 128 →
      ((List.range count).map fun i => a.u32 (base + i * 4)) =
        ((List.range count).map fun i => b.u32 (base + i * 4)) →
      ∀ k, base ≤ k → k < base + count * 4 → a.byte k = b.byte k := by
    intro base count hin hmap k h1 h2
    have hi : (k - base) / 4 < count := by omega
    have hword := List.map_inj_left.mp hmap _ (List.mem_range.mpr hi)
    exact Bytes.byte_eq_of_word (by omega) (by omega) hword (by omega)
  have hword : ∀ {off w : ℕ}, off + w ≤ 128 →
      Bytes.leNat (a.slice off w) = Bytes.leNat (b.slice off w) →
      ∀ k, off ≤ k → k < off + w → a.byte k = b.byte k := fun hin he k h1 h2 =>
    Bytes.byte_eq_of_word (by omega) (by omega) he ⟨h1, h2⟩
  have smode := hword (by decide) (congrArg Dinode.smode h)
  have nlink := hword (by decide) (congrArg (fun d : Dinode => d.nlink) h)
  have suid := hword (by decide) (congrArg Dinode.suid h)
  have sgid := hword (by decide) (congrArg Dinode.sgid h)
  have size := hword (by decide) (congrArg (fun d : Dinode => d.size) h)
  have atime := hword (by decide) (congrArg (fun d : Dinode => d.atime) h)
  have atimeMicros := hword (by decide) (congrArg Dinode.atimeMicros h)
  have mtime := hword (by decide) (congrArg (fun d : Dinode => d.mtime) h)
  have mtimeMicros := hword (by decide) (congrArg Dinode.mtimeMicros h)
  have ctime := hword (by decide) (congrArg (fun d : Dinode => d.ctime) h)
  have ctimeMicros := hword (by decide) (congrArg Dinode.ctimeMicros h)
  have direct := hpointers (by decide) (congrArg (fun d : Dinode => d.directBlocks) h)
  have indirect := hpointers (by decide) (congrArg (fun d : Dinode => d.indirectBlocks) h)
  have flags := hword (by decide) (congrArg Dinode.flags h)
  have blocks := hword (by decide) (congrArg (fun d : Dinode => d.blocks) h)
  have gen := hword (by decide) (congrArg Dinode.gen h)
  have mode := hword (by decide) (congrArg (fun d : Dinode => d.mode) h)
  have uid := hword (by decide) (congrArg (fun d : Dinode => d.uid) h)
  have gid := hword (by decide) (congrArg (fun d : Dinode => d.gid) h)
  have eftflag := hword (by decide) (congrArg Dinode.eftflag h)
  refine Bytes.ext_byte (by omega) fun k hk => ?_
  grind

/-! ## The writers -/
section Writers
variable {ufs : Ufs} {D : Disk} {n : ℕ} {E : Fault → Bytes → Prop} {Q : Unit → Disk → Prop}

@[simp] theorem Disk.setIno_setIno (D : Disk) (n : ℕ) (i j : Dinode) :
    (D.setIno n i).setIno n j = D.setIno n j := by
  simp [Disk.setIno]

@[simp] theorem Disk.setIno_self (D : Disk) (n : ℕ) : D.setIno n (D.ino n) = D := by
  simp [Disk.setIno]

@[simp] theorem Disk.setIno_at (D : Disk) (n : ℕ) (i : Dinode) : (D.setIno n i).ino n = i := by
  simp [Disk.setIno]

/-- Any bytes stored where the reader decodes them. -/
theorem putField_hoare (hn : n < ufs.sb.inodes) {off : ℕ} {src : Bytes} {i : Inode}
    (hd : InodeSpan off src.length)
    (field : ∀ raw : Bytes, raw.length = 128 → Inode.decode raw = (D.ino n).toInode →
      Inode.decode (raw.overlay off src) = i)
    (h : Q () (D.setIno n { D.ino n with toInode := i })) :
    (putInodeField ufs n off src).hoare ufs.Holds D Q E := by
  refine putInodeField_hoare hn (by unfold InodeSpan at hd; omega) (fun raw hl hraw => ?_) h
  rw [Dinode.decode_overlay hl hd (field raw hl (congrArg Dinode.toInode hraw)), hraw]

theorem writeInodeSize_hoare (hn : n < ufs.sb.inodes) {size : ℕ}
    (h : Q () (D.setIno n { D.ino n with size := size % 2 ^ 64 })) :
    (writeInodeSize ufs n size).hoare ufs.Holds D Q E :=
  putField_hoare hn (by rw [Bytes.le_length]; norm_num [InodeSpan])
    (fun _ hl hd => by rw [decode_size hl, hd]) h

theorem writeInodeNlink_hoare (hn : n < ufs.sb.inodes) {nlink : ℕ}
    (h : Q () (D.setIno n { D.ino n with nlink := nlink % 2 ^ 16 })) :
    (writeInodeNlink ufs n nlink).hoare ufs.Holds D Q E :=
  putField_hoare hn (by rw [Bytes.le_length]; norm_num [InodeSpan])
    (fun _ hl hd => by rw [decode_nlink hl, hd]) h

theorem writeInodeBlocks_hoare (hn : n < ufs.sb.inodes) {sectors : ℕ}
    (h : Q () (D.setIno n { D.ino n with blocks := sectors % 2 ^ 32 })) :
    (writeInodeBlocks ufs n sectors).hoare ufs.Holds D Q E := by
  refine putField_hoare hn (by rw [Bytes.le_length]; norm_num [InodeSpan]) (fun raw hl hd => ?_) h
  apply decode_putU32_field hl (by norm_num) (by norm_num) (by norm_num) (by norm_num)
    (by norm_num) (by norm_num)
  simp [hd]

theorem getD_range_map (count : ℕ) (values : List ℕ) (h : values.length ≤ count) :
    ((List.range count).map fun i => values.getD i 0) =
      values ++ List.replicate (count - values.length) 0 := by
  apply List.ext_getElem
  · simp only [List.length_map, List.length_range, List.length_append, List.length_replicate]
    omega
  · intro k h1 h2
    simp only [List.getElem_map, List.getElem_range]
    by_cases hk : k < values.length
    · rw [List.getElem_append_left hk, List.getD_eq_getElem _ _ hk]
    · rw [List.getElem_append_right (by omega), List.getElem_replicate, List.getD_eq_default _ _
        (by omega)]

theorem writeBlockLists_hoare (hn : n < ufs.sb.inodes) {direct indirect : List ℕ}
    (hd : direct.length ≤ ufsNdaddr) (hi : indirect.length = ufsNiaddr)
    (hd32 : ∀ v ∈ direct, v < 2 ^ 32) (hi32 : ∀ v ∈ indirect, v < 2 ^ 32)
    (h : Q () (D.setIno n { D.ino n with
      directBlocks := direct ++ List.replicate (ufsNdaddr - direct.length) 0
      indirectBlocks := indirect })) :
    (writeBlockLists ufs n direct indirect).hoare ufs.Holds D Q E := by
  have hrep : indirect ++ List.replicate (ufsNiaddr - indirect.length) 0 = indirect := by
    rw [hi, Nat.sub_self, List.replicate_zero, List.append_nil]
  rw [writeBlockLists, pointerSlots_eq, pointerSlots_eq, getD_range_map _ _ hd,
    getD_range_map _ _ hi.le, hrep]
  have hlen : (direct ++ List.replicate (ufsNdaddr - direct.length) 0).length = ufsNdaddr := by
    rw [List.length_append, List.length_replicate]
    omega
  refine (putField_hoare (i := { (D.ino n).toInode with
    directBlocks := direct ++ List.replicate (ufsNdaddr - direct.length) 0 }) hn ?_ ?_ rfl).seq ?_
  · rw [Bytes.words_length, hlen]
    norm_num [InodeSpan]
  · intro raw hl hdec
    rw [decode_direct hl hlen, hdec]
    intro v hv
    rcases List.mem_append.mp hv with hv | hv
    · exact hd32 v hv
    · rw [(List.mem_replicate.mp hv).2]
      norm_num
  · refine putField_hoare (i := { (D.ino n).toInode with
      directBlocks := direct ++ List.replicate (ufsNdaddr - direct.length) 0
      indirectBlocks := indirect }) hn ?_ ?_ ?_
    · rw [Bytes.words_length, hi]
      norm_num [InodeSpan]
    · intro raw hl hdec
      rw [decode_indirect hl hi hi32, hdec, Disk.setIno_at]
    · rw [Disk.setIno_setIno, Disk.setIno_at]
      exact h

theorem clearInode_hoare (hn : n < ufs.sb.inodes) (h : Q () (D.setIno n Dinode.blank)) :
    (clearInode ufs n).hoare ufs.Holds D Q E := by
  have hput : clearInode ufs n = putInodeField ufs n 0 (Bytes.zeros ufsDinodeSize) := by
    rw [clearInode, putInodeField, Nat.add_zero]
  have hdec : ∀ raw : Bytes, raw.length = 128 →
      Dinode.decode (raw.overlay 0 (Bytes.zeros ufsDinodeSize)) = Dinode.blank := by
    intro raw hl
    have he : raw.overlay 0 (Bytes.zeros ufsDinodeSize) = Bytes.zeros ufsDinodeSize := by
      simp [Bytes.overlay, List.drop_eq_nil_of_le hl.le]
    rw [he, decode_zeros]
  have hlen : (Bytes.zeros ufsDinodeSize).length = 128 := Bytes.zeros_length _
  rw [hput]
  generalize Bytes.zeros ufsDinodeSize = z at hdec hlen ⊢
  exact putInodeField_hoare hn (by omega) (fun raw hl _ => hdec raw hl) h

/-- The microseconds of a time are cleared. -/
theorem putMicros_hoare (hn : n < ufs.sb.inodes) {field : ℕ}
    (hf : field ∈ [DiOff.atime, DiOff.mtime, DiOff.ctime])
    (h : Q () (D.setIno n { D.ino n with
      atimeMicros := if field = DiOff.atime then 0 else (D.ino n).atimeMicros
      mtimeMicros := if field = DiOff.mtime then 0 else (D.ino n).mtimeMicros
      ctimeMicros := if field = DiOff.ctime then 0 else (D.ino n).ctimeMicros })) :
    (putInodeField ufs n (field + 4) (Bytes.le 4 0)).hoare ufs.Holds D Q E := by
  have hcases : field = 16 ∨ field = 24 ∨ field = 32 := by simpa using hf
  refine putInodeField_hoare hn (by rw [Bytes.le_length]; omega) (fun raw hl hd => ?_) h
  rw [decode_micros hl hcases, hd]

/-- One of the 16-bit fields that an older kernel reads. -/
theorem putOld_hoare (hn : n < ufs.sb.inodes) {off v : ℕ}
    (hoff : off ∈ [DiOff.smode, DiOff.suid, DiOff.sgid])
    (h : Q () (D.setIno n { D.ino n with
      smode := if off = DiOff.smode then v % 2 ^ 16 else (D.ino n).smode
      suid := if off = DiOff.suid then v % 2 ^ 16 else (D.ino n).suid
      sgid := if off = DiOff.sgid then v % 2 ^ 16 else (D.ino n).sgid })) :
    (putInodeField ufs n off (Bytes.le 2 v)).hoare ufs.Holds D Q E := by
  have hcases : off = 0 ∨ off = 4 ∨ off = 6 := by
    simpa using hoff
  refine putInodeField_hoare hn (by rw [Bytes.le_length]; omega) (fun raw hl hd => ?_) h
  rw [decode_putU16_field hl hcases, hd]

theorem putEftflag_hoare (hn : n < ufs.sb.inodes) {v : ℕ}
    (h : Q () (D.setIno n { D.ino n with eftflag := v % 2 ^ 32 })) :
    (putInodeField ufs n DiOff.eftflag (Bytes.le 4 v)).hoare ufs.Holds D Q E := by
  refine putInodeField_hoare hn (by rw [Bytes.le_length]) (fun raw hl hd => ?_) h
  rw [decode_eftflag hl, hd]

/-- One of the 32-bit fields. -/
theorem putWord_hoare (hn : n < ufs.sb.inodes) {off v : ℕ}
    (hoff : off ∈ [DiOff.atime, DiOff.mtime, DiOff.ctime, DiOff.mode, DiOff.uid, DiOff.gid])
    (h : Q () (D.setIno n { D.ino n with
      mode := if off = DiOff.mode then v % 2 ^ 32 else (D.ino n).mode
      uid := if off = DiOff.uid then v % 2 ^ 32 else (D.ino n).uid
      gid := if off = DiOff.gid then v % 2 ^ 32 else (D.ino n).gid
      atime := if off = DiOff.atime then v % 2 ^ 32 else (D.ino n).atime
      mtime := if off = DiOff.mtime then v % 2 ^ 32 else (D.ino n).mtime
      ctime := if off = DiOff.ctime then v % 2 ^ 32 else (D.ino n).ctime })) :
    (putInodeField ufs n off (Bytes.le 4 v)).hoare ufs.Holds D Q E := by
  have hcases : off = 16 ∨ off = 24 ∨ off = 32 ∨ off = 112 ∨ off = 116 ∨ off = 120 := by
    simpa using hoff
  refine putField_hoare hn (by rw [Bytes.le_length, InodeSpan]; omega) (fun raw hl hd => ?_) h
  apply decode_putU32_field hl (by omega) (by omega) (by simp only [DiOff.db]; omega)
    (by simp only [DiOff.ib]; omega) (by simp only [DiOff.nlink]; omega) (by omega)
  have hb : off ≠ DiOff.blocks := by
    simp only [DiOff.blocks]
    omega
  rw [hd, if_neg hb]

/-- A freshly initialised inode. -/
def Dinode.fresh (mode uid gid nlink timestamp : ℕ) : Dinode :=
  { Dinode.blank with
    mode := mode % 2 ^ 32
    nlink := nlink % 2 ^ 16
    uid := uid % 2 ^ 32
    gid := gid % 2 ^ 32
    atime := timestamp % 2 ^ 32
    mtime := timestamp % 2 ^ 32
    ctime := timestamp % 2 ^ 32
    smode := mode % 2 ^ 16
    suid := uid % 2 ^ 16
    sgid := gid % 2 ^ 16
    eftflag := ufsEftMagic }

theorem initializeInode_hoare (hn : n < ufs.sb.inodes) {mode uid gid nlink timestamp : ℕ}
    (h : Q () (D.setIno n (Dinode.fresh mode uid gid nlink timestamp))) :
    (initializeInode ufs n mode uid gid nlink timestamp).hoare ufs.Holds D Q E := by
  unfold initializeInode writeInodeTime
  have hclear : (clearInode ufs n).hoare ufs.Holds D (fun _ d => d = D.setIno n Dinode.blank) E :=
    clearInode_hoare (Q := fun _ d => d = D.setIno n Dinode.blank) hn rfl
  refine hclear.seq ?_
  refine (putOld_hoare hn (by simp) rfl).seq ?_
  refine (writeInodeNlink_hoare hn rfl).seq ?_
  refine (putOld_hoare hn (by simp) rfl).seq ?_
  refine (putOld_hoare hn (by simp) rfl).seq ?_
  refine Act.hoare.seq (Act.hoare.seq (putWord_hoare hn (by simp) rfl)
    (putMicros_hoare hn (by simp) rfl)) ?_
  refine Act.hoare.seq (Act.hoare.seq (putWord_hoare hn (by simp) rfl)
    (putMicros_hoare hn (by simp) rfl)) ?_
  refine Act.hoare.seq (Act.hoare.seq (putWord_hoare hn (by simp) rfl)
    (putMicros_hoare hn (by simp) rfl)) ?_
  refine (putWord_hoare hn (by simp) rfl).seq ?_
  refine (putWord_hoare hn (by simp) rfl).seq ?_
  refine (putWord_hoare hn (by simp) rfl).seq ?_
  refine putEftflag_hoare hn ?_
  have hmicros : Dinode.blank.atimeMicros = 0 ∧ Dinode.blank.mtimeMicros = 0 ∧
      Dinode.blank.ctimeMicros = 0 := ⟨rfl, rfl, rfl⟩
  simpa [Dinode.fresh, hmicros] using h

/-! ## The setters -/

theorem setInodeMode_hoare (hn : n < ufs.sb.inodes) {mode : ℕ}
    (h : Q () (D.setIno n { D.ino n with mode := mode % 2 ^ 32 })) :
    (setInodeMode ufs n mode).hoare ufs.Holds D Q E := by
  unfold setInodeMode
  refine putWord_hoare hn (by simp) ?_
  simpa using h

theorem setInodeOwner_hoare (hn : n < ufs.sb.inodes) {uid gid : ℕ}
    (h : Q () (D.setIno n { D.ino n with
      uid := uid % 2 ^ 32
      gid := gid % 2 ^ 32
      suid := uid % 2 ^ 16
      sgid := gid % 2 ^ 16 })) :
    (setInodeOwner ufs n uid gid).hoare ufs.Holds D Q E := by
  unfold setInodeOwner
  refine (putOld_hoare hn (by simp) rfl).seq ?_
  refine (putOld_hoare hn (by simp) rfl).seq ?_
  refine (putWord_hoare hn (by simp) rfl).seq ?_
  refine putWord_hoare hn (by simp) ?_
  simpa using h

/-- An optional timestamp, the old one where none is given. -/
def timeOr (t : Option ℕ) (old : ℕ) : ℕ :=
  match t with
  | some t => t % 2 ^ 32
  | none => old

/-- The microseconds beside an optional timestamp. -/
def microsOr (t : Option ℕ) (old : ℕ) : ℕ :=
  match t with
  | some _ => 0
  | none => old

/-- An optional timestamp is stored or left alone. -/
theorem putTime_hoare (hn : n < ufs.sb.inodes) (field : ℕ) (t : Option ℕ) :
    field ∈ [DiOff.atime, DiOff.mtime, DiOff.ctime] →
    Q () (D.setIno n { D.ino n with
      atime := if field = DiOff.atime then timeOr t (D.ino n).atime else (D.ino n).atime
      mtime := if field = DiOff.mtime then timeOr t (D.ino n).mtime else (D.ino n).mtime
      ctime := if field = DiOff.ctime then timeOr t (D.ino n).ctime else (D.ino n).ctime
      atimeMicros := if field = DiOff.atime then microsOr t (D.ino n).atimeMicros
        else (D.ino n).atimeMicros
      mtimeMicros := if field = DiOff.mtime then microsOr t (D.ino n).mtimeMicros
        else (D.ino n).mtimeMicros
      ctimeMicros := if field = DiOff.ctime then microsOr t (D.ino n).ctimeMicros
        else (D.ino n).ctimeMicros }) →
    (match t with
      | some t => writeInodeTime ufs n field t
      | none => pure () : Write Unit).hoare ufs.Holds D Q E := by
  intro hf h
  cases t with
  | none =>
    refine Act.hoare_pure ?_
    have hsame : D.setIno n (D.ino n) = D := D.setIno_self n
    simpa [timeOr, microsOr, hsame] using h
  | some t =>
    have hcases : field = 16 ∨ field = 24 ∨ field = 32 := by simpa using hf
    unfold writeInodeTime
    refine (putWord_hoare hn (by simp; omega) rfl).seq (putMicros_hoare hn hf ?_)
    rcases hcases with rfl | rfl | rfl
    · simpa [timeOr, microsOr] using h
    · simpa [timeOr, microsOr] using h
    · simpa [timeOr, microsOr] using h

theorem setInodeTimes_hoare (hn : n < ufs.sb.inodes) {atime mtime ctime : Option ℕ}
    (h : Q () (D.setIno n { D.ino n with
      atime := timeOr atime (D.ino n).atime
      mtime := timeOr mtime (D.ino n).mtime
      ctime := timeOr ctime (D.ino n).ctime
      atimeMicros := microsOr atime (D.ino n).atimeMicros
      mtimeMicros := microsOr mtime (D.ino n).mtimeMicros
      ctimeMicros := microsOr ctime (D.ino n).ctimeMicros })) :
    (setInodeTimes ufs n atime mtime ctime).hoare ufs.Holds D Q E := by
  unfold setInodeTimes
  dsimp only
  refine (putTime_hoare hn DiOff.atime atime (by simp) rfl).seq ?_
  refine (putTime_hoare hn DiOff.mtime mtime (by simp) rfl).seq ?_
  refine putTime_hoare hn DiOff.ctime ctime (by simp) ?_
  simpa using h

end Writers
end UfsFuse
