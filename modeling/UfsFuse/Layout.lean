import UfsFuse.Format
import UfsFuse.Recount

/-!
# The layout of a formatted slice

What the checks of the formatter say about its layout, and the geometry that follows: everything
but the room for the metadata of the last group and for the bits of a group without cylinders.
-/
namespace UfsFuse

theorem powerOfTwoShift_cases {k : ℕ} (h1 : 8 ≤ k) (h2 : k ≤ 16) {s : ℕ}
    (h : powerOfTwoShift k = .ok s) : k = 8 ∧ s = 3 ∨ k = 16 ∧ s = 4 := by
  have hall : ∀ k ∈ List.range' 8 9, (powerOfTwoShift k = .ok 3 ∧ k = 8 ∨
      powerOfTwoShift k = .ok 4 ∧ k = 16) ∨ powerOfTwoShift k = .err (.formatPowerOfTwo k) := by
    decide
  rcases hall k (List.mem_range'_1.mpr ⟨h1, by omega⟩) with (⟨he, hk⟩ | ⟨he, hk⟩) | he
  · rw [he] at h
    exact .inl ⟨hk, (Outcome.ok.inj h).symm⟩
  · rw [he] at h
    exact .inr ⟨hk, (Outcome.ok.inj h).symm⟩
  · rw [he] at h
    cases h

/-- The cylinders of a layout: whole groups, the last one possibly short. -/
theorem formatCylinders_facts {blockSize total : ℕ} {tracks sectors : Option ℕ} {cyl : Cylinders}
    (h : formatCylinders blockSize total tracks sectors = .ok cyl) :
    0 < cyl.cylinderGroups ∧ total ≤ cyl.cylinderGroups * cyl.fragmentsPerGroup ∧
      (0 < total → cyl.cylinderGroups ≤ total) ∧
      (tracks.isSome ∧ sectors.isSome → cyl.fragmentsPerGroup ≤ (blockSize - CgOff.free) * nbby) := by
  unfold formatCylinders at h
  split at h
  · rename_i t s
    dsimp only at h
    split_ifs at h with h0 hmod hz hbig
    simp only [Outcome.ok.injEq] at h
    subst h
    have hpos : 0 < t * s := Nat.mul_pos (by omega) (by omega)
    set c := min (min (total / (t * s)) maxcpg) ((blockSize - CgOff.free) * nbby / (t * s)) with hc
    have hcpos : 0 < c :=
      lt_min (lt_min (Nat.pos_of_ne_zero hz) (by decide)) (Nat.pos_of_ne_zero hbig)
    have hle : c ≤ total / (t * s) := (min_le_left _ _).trans (min_le_left _ _)
    have hceil : total / (t * s) ≤ divCeil (total / (t * s)) c * c := by
      have h1 := Nat.div_add_mod' (total / (t * s) + c - 1) c
      have h2 := Nat.mod_lt (total / (t * s) + c - 1) hcpos
      unfold divCeil
      omega
    refine ⟨Nat.div_pos (by omega) hcpos, ?_, fun _ => ?_, fun _ => ?_⟩
    · have h1 := Nat.div_mul_cancel (Nat.dvd_of_mod_eq_zero (not_not.mp hmod))
      calc total = total / (t * s) * (t * s) := h1.symm
        _ ≤ divCeil (total / (t * s)) c * c * (t * s) := Nat.mul_le_mul_right _ hceil
        _ = _ := Nat.mul_assoc _ _ _
    · have hcyl : divCeil (total / (t * s)) c ≤ total / (t * s) := by
        refine Nat.div_le_of_le_mul ?_
        obtain ⟨a, ha⟩ : ∃ a, total / (t * s) = a + 1 := ⟨total / (t * s) - 1, by omega⟩
        obtain ⟨b, hb⟩ : ∃ b, c = b + 1 := ⟨c - 1, by omega⟩
        rw [ha, hb, Nat.add_mul, Nat.mul_add]
        omega
      exact hcyl.trans (Nat.div_le_self _ _)
    · calc c * (t * s) ≤ (blockSize - CgOff.free) * nbby / (t * s) * (t * s) :=
            Nat.mul_le_mul_right _ (min_le_right _ _)
        _ ≤ _ := Nat.div_mul_le_self _ _
  · simp only [Outcome.ok.injEq] at h
    subst h
    refine ⟨Nat.zero_lt_one, (Nat.one_mul _).ge, fun hpos => hpos, fun hsome => ?_⟩
    rename_i hne
    obtain ⟨t, ht⟩ := Option.isSome_iff_exists.mp hsome.1
    obtain ⟨s, hs⟩ := Option.isSome_iff_exists.mp hsome.2
    exact absurd hs (hne t s ht)

/-- The inode blocks of a group: at least one, and a block of data is left behind them. -/
theorem computeInodeBlockCount_facts {size fr groups fpg first per count : ℕ}
    (h : computeInodeBlockCount size (fr * 512) groups fpg first per = .ok count) :
    0 < count ∧ count * (fr * 4) ≤ maxipg ∧ (first + count + 1) * fr ≤ fpg := by
  have hipb : fr * 512 / ufsDinodeSize = fr * 4 := by
    simp only [ufsDinodeSize]
    omega
  have hdiv : fr * 512 / sectorSize = fr := by
    simp only [sectorSize]
    omega
  unfold computeInodeBlockCount at h
  dsimp only at h
  rw [hipb, hdiv] at h
  split_ifs at h with h1 h2 h3 h4 h5
  · simp only [Outcome.ok.injEq] at h
    subst h
    have hm := Nat.div_mul_le_self maxipg (fr * 4)
    have hle : maxipg / (fr * 4) ≤ fpg / fr - (first + 1) := by
      refine (Nat.div_le_of_le_mul ?_).trans (min_le_right (max (divCeil (max (divCeil
        (max (divCeil size per) 1) groups) 1) (fr * 4)) 1) _)
      rw [Nat.mul_comm]
      exact h3.le
    refine ⟨Nat.pos_of_ne_zero fun hz => h4 (.inl hz), hm, ?_⟩
    calc (first + maxipg / (fr * 4) + 1) * fr ≤ fpg / fr * fr :=
          Nat.mul_le_mul_right _ (by omega)
      _ ≤ fpg := Nat.div_mul_le_self _ _
  · simp only [Outcome.ok.injEq] at h
    subst h
    have hle := min_le_right (max (divCeil (max (divCeil (max (divCeil size per) 1) groups) 1)
      (fr * 4)) 1) (fpg / fr - (first + 1))
    refine ⟨Nat.pos_of_ne_zero fun hz => h5 (.inl hz), not_lt.mp h3, ?_⟩
    refine (Nat.mul_le_mul_right fr ?_).trans (Nat.div_mul_le_self fpg fr)
    omega

/-- The choices of the formatter, as its checks leave them. -/
structure Layout.Checked (len fsStart size : ℕ) (opts : FormatOptions) (l : Layout) (fr sh count : ℕ) :
    Prop where
  frag : fr = 8 ∧ sh = 3 ∨ fr = 16 ∧ sh = 4
  blockSize : opts.blockSize = fr * 512
  inside : fsStart + size ≤ len
  whole : size = l.totalFragments * 512
  cylinders : formatCylinders (fr * 512) l.totalFragments opts.tracksPerCylinder opts.sectorsPerTrack =
    .ok l.cyl
  together : opts.tracksPerCylinder.isSome = opts.sectorsPerTrack.isSome
  fragmentsPerBlock : l.fragmentsPerBlock = fr
  fragshift : l.fragshift = sh
  fsbtodb : l.fsbtodb = 0
  summaryFrag : l.summaryFragNumber = 4 * fr
  summaryArea : l.summaryAreaBytes = alignUp (l.cyl.cylinderGroups * ufsCsumSize) 512
  summaryEnd : l.summaryFragNumber + l.summaryAreaBytes / 512 ≤ l.cylinderGroupFragNumber
  cylinderGroup : 5 * fr ≤ l.cylinderGroupFragNumber ∧ fr ∣ l.cylinderGroupFragNumber
  inodeFrag : l.inodeFragNumber = l.cylinderGroupFragNumber + fr
  dataFrag : l.dataFragNumber = l.inodeFragNumber + count * fr
  inodesPerBlock : l.inodesPerBlock = fr * 4
  inodesPerGroup : l.inodesPerGroup = count * (fr * 4)
  count_pos : 0 < count
  count_le : count * (fr * 4) ≤ maxipg
  group : l.dataFragNumber + fr ≤ l.cyl.fragmentsPerGroup
  root : l.dataFragNumber + fr ≤ l.totalFragments

theorem formatLayout_checked {len fsStart size : ℕ} {opts : FormatOptions} {l : Layout}
    (h : formatLayout len fsStart size opts = .ok l) :
    ∃ fr sh count, l.Checked len fsStart size opts fr sh count := by
  unfold formatLayout at h
  dsimp only at h
  have hno : ∀ x : ℕ, ¬6 + x ≤ 5 + x := fun x => by omega
  simp only [hno, if_false] at h
  split_ifs at h with h1 h2 h3 h4 h5
  obtain ⟨sh, hsh, h⟩ := Outcome.bind_eq_ok.mp h
  obtain ⟨db, hdb, h⟩ := Outcome.bind_eq_ok.mp h
  obtain ⟨bs, -, h⟩ := Outcome.bind_eq_ok.mp h
  obtain ⟨fs, -, h⟩ := Outcome.bind_eq_ok.mp h
  obtain ⟨cyl, hcyl, h⟩ := Outcome.bind_eq_ok.mp h
  obtain ⟨count, hcount, h⟩ := Outcome.bind_eq_ok.mp h
  simp only [sectorSize, ufsSbSize, gt_iff_lt] at h1 h2 h3
  set fr := opts.blockSize / 512 with hfr
  have hbs : opts.blockSize = fr * 512 := by omega
  have hcases := powerOfTwoShift_cases (by omega) (by omega) hsh
  have hfrpos : 0 < fr := by omega
  have hshift : ∀ x, x <<< sh = x * fr := by
    intro x
    rw [Nat.shiftLeft_eq]
    rcases hcases with ⟨hk, rfl⟩ | ⟨hk, rfl⟩
    · rw [hk]
    · rw [hk]
  simp only [hshift, sectorSize] at h hcount
  split_ifs at h with h6 h7
  · obtain ⟨cs, -, h⟩ := Outcome.bind_eq_ok.mp h
    cases h
  obtain ⟨cs, -, h⟩ := Outcome.bind_eq_ok.mp h
  simp only [Outcome.ok.injEq] at h
  rw [hbs] at hcount hcyl
  obtain ⟨c1, c2, c3⟩ := computeInodeBlockCount_facts hcount
  obtain ⟨g1, -, -, -⟩ := formatCylinders_facts hcyl
  -- the group header comes right behind the summary area
  set summary := alignUp (cyl.cylinderGroups * ufsCsumSize) 512 / 512 with hsummary
  set first := alignUp (4 * fr + summary) fr / fr with hfirst
  have hsum1 : 1 ≤ summary := by
    rw [hsummary, alignUp, if_neg (by decide), Nat.mul_div_cancel _ (by decide), divCeil]
    simp only [ufsCsumSize]
    omega
  have hfirst5 : 5 ≤ first := by
    rw [hfirst, alignUp, if_neg hfrpos.ne', Nat.mul_div_cancel _ hfrpos, divCeil,
      Nat.le_div_iff_mul_le hfrpos]
    omega
  have hcg : 5 + (first - 5) = first := by omega
  have hino : 6 + (first - 5) = first + 1 := by omega
  rw [hcg, hino] at h
  rw [hino] at h6 c3 hcount
  rw [hcg] at h7
  subst h
  refine ⟨fr, sh, count, ⟨hcases, hbs, not_lt.mp h5, ?_, hcyl, ?_, rfl, rfl, ?_, rfl, rfl,
    not_lt.mp h7, ⟨?_, dvd_mul_left _ _⟩, ?_, ?_, ?_, ?_, c1, c2, ?_, ?_⟩⟩
  · change size = size / 512 * 512
    omega
  · have h4 := not_not.mp h4
    rw [← Option.not_isNone, ← Option.not_isNone, h4]
  · change db = 0
    have hone : powerOfTwoShift (sectorSize / sectorSize) = .ok 0 := by decide
    rw [hone] at hdb
    exact (Outcome.ok.inj hdb).symm
  · exact Nat.mul_le_mul_right _ hfirst5
  · exact Nat.succ_mul _ _
  · exact Nat.add_mul _ _ _
  · change opts.blockSize / ufsDinodeSize = fr * 4
    simp only [ufsDinodeSize]
    omega
  · change count * (opts.blockSize / ufsDinodeSize) = count * (fr * 4)
    congr 1
    simp only [ufsDinodeSize]
    omega
  · calc (first + 1 + count) * fr + fr = (first + 1 + count + 1) * fr := (Nat.succ_mul _ _).symm
      _ ≤ cyl.fragmentsPerGroup := c3
  · change (first + 1 + count) * fr + fr ≤ size / 512
    omega

/-! ## The superblock of a layout -/

/-- A signed 32-bit field. -/
def toI32 (v : ℕ) : ℤ := if v % 2 ^ 32 < 2 ^ 31 then (v % 2 ^ 32 : ℕ) else (v % 2 ^ 32 : ℕ) - 2 ^ 32

/-- The superblock that is read back after `superblockFields` were written. -/
def Layout.superblock (l : Layout) (opts : FormatOptions) : Superblock where
  bsize := opts.blockSize % 2 ^ 32
  fsize := sectorSize
  frag := l.fragmentsPerBlock % 2 ^ 32
  dsize := l.totalFragments % 2 ^ 32
  ipg := l.inodesPerGroup % 2 ^ 32
  fpg := l.cyl.fragmentsPerGroup % 2 ^ 32
  inopb := l.inodesPerBlock % 2 ^ 32
  fsbtodb := l.fsbtodb % 2 ^ 32
  cgoffset := 0
  cgmask := 0
  cblkno := l.cylinderGroupFragNumber % 2 ^ 32
  iblkno := l.inodeFragNumber % 2 ^ 32
  dblkno := l.dataFragNumber % 2 ^ 32
  ncg := l.cyl.cylinderGroups % 2 ^ 32
  minfree := 0
  fragshift := toI32 l.fragshift
  nindir := opts.blockSize / 4 % 2 ^ 32
  nspf := 1
  csaddr := l.summaryFragNumber % 2 ^ 32
  cssize := l.summaryAreaBytes % 2 ^ 32
  nsect := l.cyl.sectorsPerTrack % 2 ^ 32
  spc := l.cyl.tracksPerCylinder * l.cyl.sectorsPerTrack % 2 ^ 32
  ncyl := l.cyl.totalCylinders % 2 ^ 32
  cpg := l.cyl.cylindersPerGroup % 2 ^ 32

/-- What the formatter does not check: the length of the slice and, without cylinders, the bits of
the one group. The room for the metadata of the last group is left to `LastGroupHolds`. -/
structure Layout.Sized (l : Layout) (opts : FormatOptions) : Prop where
  total : l.totalFragments < 2 ^ 32
  bits : l.cyl.fragmentsPerGroup ≤ (opts.blockSize - CgOff.free) * nbby

section Geometry
variable {len fsStart size fr sh count : ℕ} {opts : FormatOptions} {l : Layout}

/-- A group whose bits fit its block is short, so nothing but the length of the slice is cut. -/
theorem Layout.Checked.superblock_cut (h : l.Checked len fsStart size opts fr sh count)
    (hbits : l.cyl.fragmentsPerGroup ≤ (opts.blockSize - CgOff.free) * nbby) : l.superblock opts =
      { l.superblock opts with
        bsize := fr * 512, frag := fr, ipg := count * (fr * 4)
        fpg := l.cyl.fragmentsPerGroup, inopb := fr * 4, fsbtodb := 0
        cblkno := l.cylinderGroupFragNumber, iblkno := l.cylinderGroupFragNumber + fr
        dblkno := l.cylinderGroupFragNumber + fr + count * fr, ncg := l.cyl.cylinderGroups
        fragshift := sh, nindir := fr * 128, csaddr := 4 * fr, cssize := l.summaryAreaBytes } := by
  have hgroup := h.group
  have hend := h.summaryEnd
  have harea := h.summaryArea
  have hcount := h.count_le
  have hfr : 8 ≤ fr ∧ fr ≤ 16 := by
    have := h.frag
    omega
  rw [h.dataFrag, h.inodeFrag] at hgroup
  rw [h.blockSize] at hbits
  rw [h.summaryFrag] at hend
  rw [alignUp, if_neg (by decide), divCeil] at harea
  simp only [CgOff.free, nbby, maxipg, ufsCsumSize] at hbits hcount harea
  have hsh : toI32 l.fragshift = sh := by
    rw [h.fragshift]
    rcases h.frag with ⟨-, rfl⟩ | ⟨-, rfl⟩
    · rfl
    · rfl
  have hcs : l.summaryAreaBytes < 2 ^ 32 := by omega
  have hncg : l.cyl.cylinderGroups < 2 ^ 32 := by omega
  unfold Layout.superblock
  rw [hsh, h.blockSize, h.fragmentsPerBlock, h.inodesPerGroup, h.inodesPerBlock, h.fsbtodb,
    h.dataFrag, h.inodeFrag, h.summaryFrag]
  have hind : fr * 512 / 4 = fr * 128 := by omega
  rw [hind, Nat.mod_eq_of_lt hcs, Nat.mod_eq_of_lt (by omega : fr * 512 < 2 ^ 32),
    Nat.mod_eq_of_lt (by omega : fr < 2 ^ 32),
    Nat.mod_eq_of_lt (by omega : count * (fr * 4) < 2 ^ 32),
    Nat.mod_eq_of_lt (by omega : l.cyl.fragmentsPerGroup < 2 ^ 32),
    Nat.mod_eq_of_lt (by omega : fr * 4 < 2 ^ 32),
    Nat.mod_eq_of_lt (by omega : l.cylinderGroupFragNumber < 2 ^ 32),
    Nat.mod_eq_of_lt (by omega : l.cylinderGroupFragNumber + fr < 2 ^ 32),
    Nat.mod_eq_of_lt (by omega : l.cylinderGroupFragNumber + fr + count * fr < 2 ^ 32),
    Nat.mod_eq_of_lt hncg,
    Nat.mod_eq_of_lt (by omega : fr * 128 < 2 ^ 32),
    Nat.mod_eq_of_lt (by omega : 4 * fr < 2 ^ 32)]
  rfl

/-- The geometry of each group. -/
theorem Layout.Checked.oneGroup (h : l.Checked len fsStart size opts fr sh count)
    (hbits : l.cyl.fragmentsPerGroup ≤ (opts.blockSize - CgOff.free) * nbby) :
    (l.superblock opts).oneGroup.Geometry ∧
      (l.superblock opts).ncg * ufsCsumSize ≤ (l.superblock opts).cssize ∧
      (l.superblock opts).ncg * (l.superblock opts).ipg < 2 ^ 32 := by
  have hsb := h.superblock_cut hbits
  have hfr : 8 ≤ fr ∧ fr ≤ 16 := by
    have := h.frag
    omega
  have hpow : fr ∣ 16 ∧ 2 ^ sh = fr := by
    rcases h.frag with ⟨rfl, rfl⟩ | ⟨rfl, rfl⟩
    · exact ⟨by decide, rfl⟩
    · exact ⟨by decide, rfl⟩
  obtain ⟨hg1, hg2⟩ := h.cylinderGroup
  have hgroup := h.group
  have hend := h.summaryEnd
  have harea := h.summaryArea
  obtain ⟨hncg_pos, -, -, -⟩ := formatCylinders_facts h.cylinders
  rw [h.dataFrag, h.inodeFrag] at hgroup
  rw [h.summaryFrag] at hend
  rw [h.blockSize] at hbits
  rw [alignUp, if_neg (by decide), divCeil] at harea
  simp only [ufsCsumSize] at harea
  have hdiv : count * (fr * 4) / (fr * 4) = count :=
    Nat.mul_div_cancel _ (Nat.mul_pos (by omega) (by decide))
  have hoff : (l.superblock opts).cgoffset = 0 := rfl
  have hfsize : (l.superblock opts).fsize = 512 := rfl
  generalize l.superblock opts = sb at hsb hoff hfsize ⊢
  have ebsize : sb.bsize = fr * 512 := congrArg Superblock.bsize hsb
  have efrag : sb.frag = fr := congrArg Superblock.frag hsb
  have eipg : sb.ipg = count * (fr * 4) := congrArg Superblock.ipg hsb
  have efpg : sb.fpg = l.cyl.fragmentsPerGroup := congrArg Superblock.fpg hsb
  have einopb : sb.inopb = fr * 4 := congrArg Superblock.inopb hsb
  have efsbtodb : sb.fsbtodb = 0 := congrArg Superblock.fsbtodb hsb
  have ecblkno : sb.cblkno = l.cylinderGroupFragNumber := congrArg Superblock.cblkno hsb
  have eiblkno : sb.iblkno = l.cylinderGroupFragNumber + fr := congrArg Superblock.iblkno hsb
  have edblkno : sb.dblkno = l.cylinderGroupFragNumber + fr + count * fr :=
    congrArg Superblock.dblkno hsb
  have encg : sb.ncg = l.cyl.cylinderGroups := congrArg Superblock.ncg hsb
  have eshift : sb.fragshift = sh := congrArg Superblock.fragshift hsb
  have enindir : sb.nindir = fr * 128 := congrArg Superblock.nindir hsb
  have ecsaddr : sb.csaddr = 4 * fr := congrArg Superblock.csaddr hsb
  have ecssize : sb.cssize = l.summaryAreaBytes := congrArg Superblock.cssize hsb
  have hcount := h.count_pos
  have hcount_le := h.count_le
  -- the summary area of all groups fits each group
  have hncg : l.cyl.cylinderGroups ≤ 1845248 := by
    simp only [CgOff.free, nbby] at hbits
    omega
  refine ⟨⟨efrag ▸ hfr.1, efrag ▸ hfr.2, efrag ▸ hpow.1, ?_, hfsize, efsbtodb, ?_, hoff, ?_, ?_, ?_, ?_,
    ?_, ?_, ?_, ?_, ?_, ?_, ?_, Nat.one_pos, ?_, (Nat.one_mul _).ge, ?_, ?_, ?_, ?_, ?_⟩, ?_, ?_⟩
  · change sb.bsize = sb.frag * 512
    rw [ebsize, efrag]
  · change 2 ^ sb.fragshift.toNat = sb.frag
    rw [eshift, efrag]
    exact hpow.2
  · change sb.inopb = sb.frag * 4
    rw [einopb, efrag]
  · change sb.nindir * 4 ≤ sb.bsize
    rw [enindir, ebsize]
    omega
  · change 0 < sb.ipg
    rw [eipg]
    exact Nat.mul_pos hcount (by omega)
  · change sb.ipg ≤ 2048
    rw [eipg]
    exact hcount_le
  · change sb.inopb ∣ sb.ipg
    rw [eipg, einopb]
    exact Nat.dvd_mul_left _ _
  · change 32 ≤ sb.cblkno
    omega
  · change sb.cblkno + sb.frag ≤ sb.iblkno
    omega
  · change sb.dblkno = sb.iblkno + sb.ipg / sb.inopb * sb.frag
    rw [edblkno, eiblkno, eipg, einopb, efrag, hdiv]
  · change sb.frag ∣ sb.dblkno
    rw [edblkno, efrag]
    exact Nat.dvd_add (Nat.dvd_add hg2 dvd_rfl) (Nat.dvd_mul_left _ _)
  · change sb.dblkno + sb.frag ≤ sb.fpg
    rw [edblkno, efrag, efpg]
    exact hgroup
  · change sb.fpg ≤ (sb.bsize - CgOff.free) * 8
    rw [efpg, ebsize]
    exact hbits
  · change (1 - 1) * sb.fpg + sb.dblkno ≤ sb.fpg
    rw [edblkno, efpg]
    omega
  · change sb.fpg < 2 ^ 32
    rw [efpg]
    simp only [CgOff.free, nbby] at hbits
    omega
  · change 32 ≤ sb.csaddr
    omega
  · change 1 * 16 ≤ sb.cssize
    rw [ecssize]
    omega
  · change sb.csaddr * 512 + sb.cssize ≤ sb.cblkno * 512
    rw [ecsaddr, ecssize, ecblkno]
    omega
  · change 1 * sb.ipg < 2 ^ 32
    rw [eipg]
    simp only [maxipg] at hcount_le
    omega
  · rw [ecssize, encg]
    simp only [ufsCsumSize]
    omega
  · rw [encg, eipg]
    exact (Nat.mul_le_mul hncg hcount_le).trans_lt (by decide)

/-- No field of a sized layout is cut. -/
theorem Layout.Checked.superblock_eq (h : l.Checked len fsStart size opts fr sh count)
    (hs : l.Sized opts) : l.superblock opts =
      { l.superblock opts with
        bsize := fr * 512, frag := fr, dsize := l.totalFragments, ipg := count * (fr * 4)
        fpg := l.cyl.fragmentsPerGroup, inopb := fr * 4, fsbtodb := 0
        cblkno := l.cylinderGroupFragNumber, iblkno := l.cylinderGroupFragNumber + fr
        dblkno := l.cylinderGroupFragNumber + fr + count * fr, ncg := l.cyl.cylinderGroups
        fragshift := sh, nindir := fr * 128, csaddr := 4 * fr, cssize := l.summaryAreaBytes } := by
  have hcut := h.superblock_cut hs.bits
  have hdsize : (l.superblock opts).dsize = l.totalFragments := Nat.mod_eq_of_lt hs.total
  rw [← hdsize]
  exact hcut

/-- The geometry of a formatted slice whose last group holds its metadata. -/
theorem Layout.Checked.geometry (h : l.Checked len fsStart size opts fr sh count)
    (hs : l.Sized opts) (hlast : (l.superblock opts).LastGroupHolds) :
    (l.superblock opts).Geometry ∧ (l.superblock opts).PointersFill ∧
      l.dataFragNumber + fr = (l.superblock opts).dblkno + (l.superblock opts).frag := by
  have hsb := h.superblock_eq hs
  obtain ⟨hone, hcssize, hinodes⟩ := h.oneGroup hs.bits
  obtain ⟨hncg, htotal, -, -⟩ := formatCylinders_facts h.cylinders
  have hfirst := h.cylinderGroup
  have hfr := h.frag
  have hdata := h.dataFrag
  have hinode := h.inodeFrag
  have hsize := hs.total
  generalize l.superblock opts = sb at hsb hlast hone hcssize hinodes ⊢
  have ebsize : sb.bsize = fr * 512 := congrArg Superblock.bsize hsb
  have efrag : sb.frag = fr := congrArg Superblock.frag hsb
  have edsize : sb.dsize = l.totalFragments := congrArg Superblock.dsize hsb
  have efpg : sb.fpg = l.cyl.fragmentsPerGroup := congrArg Superblock.fpg hsb
  have edblkno : sb.dblkno = l.cylinderGroupFragNumber + fr + count * fr :=
    congrArg Superblock.dblkno hsb
  have encg : sb.ncg = l.cyl.cylinderGroups := congrArg Superblock.ncg hsb
  have enindir : sb.nindir = fr * 128 := congrArg Superblock.nindir hsb
  unfold Superblock.LastGroupHolds at hlast
  refine ⟨hone.of_oneGroup (by rw [encg]; exact hncg) (by omega) ?_ (by rw [edsize]; exact hsize)
    hcssize hinodes, ?_, ?_⟩
  · rw [edsize, encg, efpg]
    exact htotal
  · rw [Superblock.PointersFill, enindir, ebsize]
    omega
  · rw [edblkno, efrag, hdata, hinode]

end Geometry

end UfsFuse
