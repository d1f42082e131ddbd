import UfsFuse.Fresh
import UfsFuse.Layout
import UfsFuse.Steps

/-!
# Fresh file systems

A slice that the formatter accepts, with room for the metadata of its last group, becomes a
consistent file system with nothing in it but the root.
-/
namespace UfsFuse

/-- The fields of the superblock and its three flag bytes, from its start on. -/
def superblockBytes (l : Layout) (opts : FormatOptions) : List (ℕ × Bytes) :=
  (superblockFields l opts).map (fun field => (field.1, Bytes.le 4 field.2)) ++
    [(FsOff.fmod, [0]), (FsOff.clean, [1]), (FsOff.ronly, [0])]

theorem superblockBytes_ranges (l : Layout) (opts : FormatOptions) :
    (superblockBytes l opts).map (fun f => (f.1, f.2.length)) =
      [(8, 4), (12, 4), (16, 4), (20, 4), (24, 4), (28, 4), (32, 4), (36, 4), (40, 4), (44, 4),
        (48, 4), (52, 4), (56, 4), (60, 4), (64, 4), (68, 4), (72, 4), (76, 4), (80, 4), (84, 4),
        (88, 4), (92, 4), (96, 4), (100, 4), (104, 4), (108, 4), (112, 4), (116, 4), (120, 4),
        (124, 4), (128, 4), (132, 4), (152, 4), (156, 4), (160, 4), (164, 4), (168, 4), (172, 4),
        (176, 4), (180, 4), (184, 4), (188, 4), (1372, 4), (208, 1), (209, 1), (210, 1)] := rfl

theorem Bytes.FieldsApart.shift {f f' : ℕ × Bytes} (h : Bytes.FieldsApart f f') (so : ℕ) :
    Bytes.FieldsApart (so + f.1, f.2) (so + f'.1, f'.2) := by
  unfold Bytes.FieldsApart at h ⊢
  dsimp only
  omega

theorem putSlice_eq {off : ℕ} {src image : Bytes} (h : off + src.length ≤ image.length) :
    putSlice off src image = (.ok (), image.overlay off src) := by
  simp [putSlice, Act.update, Outcome.guard_true h]

/-- Fields are written one after the other. -/
theorem putEach_eq {α : Type} {field : α → ℕ × Bytes} {as : List α} : ∀ {image : Bytes},
    (∀ a ∈ as, (field a).1 + (field a).2.length ≤ image.length) →
    Act.each (fun a => putSlice (field a).1 (field a).2) as image =
      (.ok (), image.overlays (as.map field)) := by
  induction as with
  | nil => exact fun _ => rfl
  | cons a as ih =>
    intro image h
    have ha := h a (by simp)
    have hrest := @ih (image.overlay (field a).1 (field a).2) fun b hb => by
      rw [Bytes.overlay_length ha]
      exact h b (by simp [hb])
    exact Act.bind_eq_ok.mpr ⟨(), _, putSlice_eq ha, hrest⟩

section Superblock
variable {image : Bytes} {fsStart : ℕ} {l : Layout} {opts : FormatOptions}

/-- The image after the superblock is written. -/
def withSuperblock (image : Bytes) (fsStart : ℕ) (l : Layout) (opts : FormatOptions) : Bytes :=
  image.overlays ((superblockBytes l opts).map fun f => (fsStart + ufsSbOffset + f.1, f.2))

theorem superblockBytes_inside (h : fsStart + ufsSbOffset + ufsSbSize ≤ image.length) :
    ∀ f ∈ (superblockBytes l opts).map fun f => (fsStart + ufsSbOffset + f.1, f.2),
      f.1 + f.2.length ≤ image.length := by
  intro f hf
  obtain ⟨f, hm, rfl⟩ := List.mem_map.mp hf
  have hin := @Bytes.fields_inside _ _ 1376 (superblockBytes_ranges l opts) (by decide) f hm
  simp only [ufsSbSize] at h
  dsimp only
  omega

theorem withSuperblock_length (h : fsStart + ufsSbOffset + ufsSbSize ≤ image.length) :
    (withSuperblock image fsStart l opts).length = image.length :=
  Bytes.overlays_length (superblockBytes_inside h)

theorem withSuperblock_u32 (h : fsStart + ufsSbOffset + ufsSbSize ≤ image.length) {o v : ℕ}
    (hm : (o, v) ∈ superblockFields l opts) :
    (withSuperblock image fsStart l opts).u32 (fsStart + ufsSbOffset + o) = v % 2 ^ 32 := by
  refine Bytes.overlays_u32 (superblockBytes_inside h) ?_ ?_
  · rw [List.pairwise_map]
    exact (Bytes.pairwise_fieldsApart (superblockBytes_ranges l opts) (by decide)).imp
      fun hap => hap.shift _
  · exact List.mem_map.mpr ⟨(o, Bytes.le 4 v),
      List.mem_append_left _ (List.mem_map.mpr ⟨(o, v), hm, rfl⟩), rfl⟩

theorem writeSuperblock_eq (h : fsStart + ufsSbOffset + ufsSbSize ≤ image.length) :
    writeSuperblock fsStart l opts image = (.ok (), withSuperblock image fsStart l opts) := by
  have hin := @superblockBytes_inside image fsStart l opts h
  rw [superblockBytes, List.map_append, List.map_map] at hin
  set field : ℕ × ℕ → ℕ × Bytes := fun f => (fsStart + ufsSbOffset + f.1, Bytes.le 4 f.2) with hfield
  have hfirst : ∀ f ∈ superblockFields l opts, (field f).1 + (field f).2.length ≤ image.length :=
    fun f hf => hin _ (List.mem_append_left _ (List.mem_map.mpr ⟨f, hf, rfl⟩))
  have hl₁ : (image.overlays ((superblockFields l opts).map field)).length = image.length :=
    Bytes.overlays_length fun f hf => by
      obtain ⟨f, hm, rfl⟩ := List.mem_map.mp hf
      exact hfirst f hm
  have hlast := @putEach_eq (ℕ × Bytes) (fun f => (fsStart + ufsSbOffset + f.1, f.2))
    [(FsOff.fmod, [0]), (FsOff.clean, [1]), (FsOff.ronly, [0])]
    (image.overlays ((superblockFields l opts).map field)) fun f hf => by
      rw [hl₁]
      exact hin _ (List.mem_append_right _ (List.mem_map.mpr ⟨f, hf, rfl⟩))
  refine Act.bind_eq_ok.mpr ⟨(), _, putEach_eq hfirst, ?_⟩
  have hwith : withSuperblock image fsStart l opts =
      (image.overlays ((superblockFields l opts).map field)).overlays
        ([(FsOff.fmod, [0]), (FsOff.clean, [1]), (FsOff.ronly, [0])].map
          fun f => (fsStart + ufsSbOffset + f.1, f.2)) := by
    rw [withSuperblock, superblockBytes, List.map_append, List.map_map]
    exact List.foldl_append ..
  rw [hwith, ← hlast, Act.each, Act.each, Act.each, Act.each, Act.bind_pure_unit]

/-- The superblock that the formatter reads back. -/
theorem detect_withSuperblock (h : fsStart + ufsSbOffset + ufsSbSize ≤ image.length)
    {len size fr sh count : ℕ} (hc : l.Checked len fsStart size opts fr sh count)
    (hfpg : l.cyl.fragmentsPerGroup < 2 ^ 32) :
    detectUfsAtStart (withSuperblock image fsStart l opts) fsStart =
      some ⟨fsStart, fsStart + ufsSbOffset, l.superblock opts⟩ := by
  have hall : ∀ f ∈ superblockFields l opts, (withSuperblock image fsStart l opts).u32
      (fsStart + ufsSbOffset + f.1) = f.2 % 2 ^ 32 := fun f hf => withSuperblock_u32 h hf
  have hlen := @withSuperblock_length image fsStart l opts h
  generalize withSuperblock image fsStart l opts = t at hall hlen ⊢
  generalize hso : fsStart + ufsSbOffset = so at h hall ⊢
  simp only [superblockFields, List.forall_mem_cons] at hall
  obtain ⟨-, hcblkno, hiblkno, hdblkno, hcgoffset, hcgmask, -, -, hdsize, hncg, hbsize, hfsize, hfrag,
    hminfree, -, -, -, -, -, -, -, -, hfragshift, hfsbtodb, -, -, -, hnindir, hinopb, hnspf, -, -,
    hcsaddr, hcssize, -, -, hnsect, hspc, hncyl, hcpg, hipg, hgroup, hmagic, -⟩ := hall
  have hfr := hc.frag
  have hb : opts.blockSize % 2 ^ 32 = fr * 512 := by
    rw [hc.blockSize]
    exact Nat.mod_eq_of_lt (by omega)
  have hi : 0 < l.inodesPerGroup % 2 ^ 32 := by
    have h1 := hc.count_le
    have h2 : 0 < count * (fr * 4) := Nat.mul_pos hc.count_pos (by omega)
    simp only [maxipg] at h1
    rw [hc.inodesPerGroup, Nat.mod_eq_of_lt (by omega)]
    exact h2
  have hg : 0 < l.cyl.fragmentsPerGroup % 2 ^ 32 := by
    have := hc.group
    rw [Nat.mod_eq_of_lt hfpg]
    omega
  have ho : 0 < l.inodesPerBlock % 2 ^ 32 := by
    rw [hc.inodesPerBlock, Nat.mod_eq_of_lt (by omega)]
    omega
  have hshift : t.i32 (so + FsOff.fragshift) = toI32 l.fragshift := by
    rw [Bytes.i32, toI32, hfragshift]
  have hparse : Superblock.parse t so = some (l.superblock opts) := by
    have hlong : ¬so + ufsSbSize > t.length := by omega
    have hmag : ¬t.u32 (so + FsOff.magic) ≠ ufsMagic := fun hne => hne hmagic
    have hblock : ¬(t.u32 (so + FsOff.bsize) < 4096 ∨ t.u32 (so + FsOff.bsize) > ufsSbSize) := by
      rw [hbsize]
      simp only [ufsSbSize]
      omega
    have hfragment : ¬(t.u32 (so + FsOff.fsize) < sectorSize ∨
        t.u32 (so + FsOff.fsize) > t.u32 (so + FsOff.bsize)) := by
      rw [hfsize, hbsize]
      simp only [sectorSize]
      omega
    have hzero : ¬(t.u32 (so + FsOff.inopb) = 0 ∨ t.u32 (so + FsOff.ipg) = 0 ∨
        t.u32 (so + FsOff.fpg) = 0) := by
      rw [hinopb, hipg, hgroup]
      omega
    unfold Superblock.parse
    dsimp only
    rw [if_neg hlong, if_neg hmag, if_neg hblock, if_neg hfragment, if_neg hzero]
    simp only [hbsize, hfsize, hinopb, hipg, hgroup, hfrag, hdsize, hfsbtodb, hcgoffset, hcgmask,
      hcblkno, hiblkno, hdblkno, hncg, hminfree, hshift, hnindir, hnspf, hcsaddr, hcssize, hnsect,
      hspc, hncyl, hcpg]
    rfl
  rw [detectUfsAtStart, hso, hparse]
  rfl

end Superblock

/-! ## The bits of a group without cylinders -/
section Bits

/-- A run that was set lies in the buffer. -/
theorem setFragRun_inside {base : ℕ} {free : Bool} {os : List ℕ} : ∀ {b b' : Bytes},
    Outcome.foldM (fun cg o => setFragState cg (base + o) free) b os = .ok b' →
    ∀ o ∈ os, CgOff.free + (base + o) / 8 < b.length := by
  induction os with
  | nil => exact fun _ o ho => absurd ho List.not_mem_nil
  | cons o os ih =>
    intro b b' h p hp
    obtain ⟨x, hx, h⟩ := Outcome.bind_eq_ok.mp h
    obtain ⟨_, hguard, hset⟩ := Outcome.bind_eq_ok.mp hx
    have hin := Outcome.guard_eq_ok.mp hguard
    have hl : x.length = b.length := by
      rw [← Outcome.ok.inj hset]
      exact setBitAt_length hin
    cases List.mem_cons.mp hp with
    | inl he => rw [he]; exact hin
    | inr hm => exact hl ▸ ih h p hm

theorem setInodeState_length {b b' : Bytes} {i : ℕ} {u : Bool} (h : setInodeState b i u = .ok b') :
    b'.length = b.length := by
  obtain ⟨_, hguard, hset⟩ := Outcome.bind_eq_ok.mp h
  rw [← Outcome.ok.inj hset]
  exact setBitAt_length (Outcome.guard_eq_ok.mp hguard)

/-- Laying out the first group succeeds only if the bits of its fragments fit its block. -/
theorem initializePristineCg_bits {ufs : Ufs} {s t b : Bytes} (hb : 984 ≤ ufs.sb.bsize)
    (h : initializePristineCg ufs 0 s = (.ok b, t)) :
    ∀ o < cgDataFragCount ufs 0 - ufs.sb.cgdmin 0 % ufs.sb.fpg,
      CgOff.free + (ufs.sb.cgdmin 0 % ufs.sb.fpg + o) / 8 < ufs.sb.bsize := by
  obtain ⟨x, u, hx, h⟩ := Act.bind_eq_ok.mp h
  obtain ⟨y, _, hy, _⟩ := Act.bind_eq_ok.mp h
  have hxo := (Act.lift_eq_ok.mp hx).1
  have hyo := (Act.lift_eq_ok.mp hy).1
  have hlen : x.length = ufs.sb.bsize := by
    have hin : ∀ f ∈ headerFields ufs 0, f.1 + f.2.length ≤ (Bytes.zeros ufs.sb.bsize).length := by
      intro f hf
      rw [Bytes.zeros_length]
      have h := headerFields_cases hf
      simp only [CgOff.iused, CgOff.free] at h
      omega
    have hl := Bytes.overlays_length hin
    rw [Bytes.zeros_length] at hl
    obtain ⟨z, hz, hx'⟩ := Outcome.bind_eq_ok.mp hxo
    rw [setInodeState_length hx', setInodeState_length hz]
    exact hl
  intro o ho
  have hin := setFragRun_inside hyo o (List.mem_range.mpr ho)
  rwa [hlen] at hin

end Bits

/-! ## Formatting -/

/-- The volume of a fresh file system. -/
def FreshVolume (ufs : Ufs) (image : Bytes) : Prop :=
  ∃ T, ufs.Stores image T ∧ Carries T NameTree.fresh NameTree.fresh.links ∧ T.packed = true ∧
    (T.file ufsRootInode).inode.size = ufsDirblksiz

theorem FreshTable.volume {ufs : Ufs} {image : Bytes} {timestamp f : ℕ} {body : Bytes}
    (h : FreshTable ufs image timestamp f body) : FreshVolume ufs image :=
  ⟨_, h.1, Table.fresh_carries h.2, rfl, rfl⟩

theorem FreshVolume.consistent {ufs : Ufs} {image : Bytes} (h : FreshVolume ufs image) :
    Consistent image ufs := by
  obtain ⟨T, hi, hc, -⟩ := h
  exact ⟨T, NameTree.fresh, hi, hc, NameTree.fresh_sound⟩

section Format
variable {image : Bytes} {fsStart size : ℕ} {l : Layout} {opts : FormatOptions}

/-- Past the superblock, the formatter runs on a slice with room for all groups. -/
theorem format_runs (hl : formatLayout image.length fsStart size opts = .ok l) (hs : l.Sized opts)
    (hlast : (l.superblock opts).LastGroupHolds) {ufs : Ufs}
    (hufs : ufs = ⟨fsStart, fsStart + ufsSbOffset, l.superblock opts⟩) :
    ∃ t, t = withSuperblock image fsStart l opts ∧ ufs.Fits t ∧ ufs.sb.PointersFill ∧
      ufs.sb.RootFits ∧ format fsStart size opts image = (do
        Act.each (formatGroup ufs) (List.range ufs.sb.ncg)
        formatRoot ufs opts.timestamp
        recomputeSummaryCounts ufs
        pure ufs : Write Ufs) t := by
  obtain ⟨fr, sh, count, hc⟩ := formatLayout_checked hl
  obtain ⟨g, hfill, hdb⟩ := hc.geometry hs hlast
  have hsb := hc.superblock_eq hs
  have hncg : (l.superblock opts).ncg = l.cyl.cylinderGroups := congrArg Superblock.ncg hsb
  have hdsize : (l.superblock opts).dsize = l.totalFragments := congrArg Superblock.dsize hsb
  have hinside := hc.inside
  have hwhole := hc.whole
  have hroot := hc.root
  have hlong : fsStart + ufsSbOffset + ufsSbSize ≤ image.length := by
    have h1 := g.cgOff_ge 0
    have h2 := g.cgOff_inside g.ncg_pos
    simp only [ufsSbOffset, ufsSbSize]
    omega
  have hfits : ufs.Fits (withSuperblock image fsStart l opts) := by
    rw [hufs]
    refine ⟨g, rfl, ?_⟩
    rw [withSuperblock_length hlong]
    dsimp only
    omega
  have hroom : ufs.sb.RootFits := by
    rw [hufs]
    simp only [Superblock.RootFits]
    omega
  have hfr := hc.frag
  have hbits := hs.bits
  rw [hc.blockSize] at hbits
  simp only [CgOff.free, nbby] at hbits
  have hdetect := detect_withSuperblock hlong hc (by omega)
  rw [← hufs] at hdetect
  refine ⟨withSuperblock image fsStart l opts, rfl, hfits, by rw [hufs]; exact hfill, hroom, ?_⟩
  have hwrite : writeSuperblock fsStart l opts image = (.ok (), withSuperblock image fsStart l opts) :=
    writeSuperblock_eq hlong
  generalize withSuperblock image fsStart l opts = t at hwrite hdetect ⊢
  have hcount : ufs.sb.ncg = l.cyl.cylinderGroups := by
    rw [hufs]
    exact hncg
  have hlayout : (Act.read fun image : Bytes => formatLayout image.length fsStart size opts :
      Write Layout) image = (.ok l, image) := Act.read_eq_ok.mpr ⟨hl, rfl⟩
  have hparse : (Act.read fun image : Bytes => .ok (detectUfsAtStart image fsStart) :
      Write (Option Ufs)) t = (.ok (some ufs), t) :=
    Act.read_eq_ok.mpr ⟨congrArg Outcome.ok hdetect, rfl⟩
  refine (Act.bind_of_ok hlayout).trans ?_
  refine (Act.bind_of_ok hwrite).trans ?_
  refine (Act.bind_of_ok hparse).trans ?_
  rw [hcount]

theorem format_fresh (hl : formatLayout image.length fsStart size opts = .ok l) (hs : l.Sized opts)
    (hlast : (l.superblock opts).LastGroupHolds) :
    (format fsStart size opts).wp image (fun ufs t =>
      ufs = ⟨fsStart, fsStart + ufsSbOffset, l.superblock opts⟩ ∧
        ∃ f body, FreshTable ufs t opts.timestamp f body) fun _ _ => False := by
  obtain ⟨t, -, hfits, hfill, hroom, hrun⟩ := format_runs hl hs hlast rfl
  rw [Act.wp, hrun]
  refine ((formatBody_hoare hfits.geom hfill hroom).run t ⟨hfits, rfl⟩).mono ?_ fun _ _ h => h
  rintro u t ⟨D, hD, rfl, own, f, body, hv, hdir⟩
  exact ⟨rfl, f, body, ⟨D, own, hD, hv⟩, hdir⟩

/-- Without cylinders the one group has bits for its fragments, or its layout panics. -/
theorem formatted_bits {ufs : Ufs} {s t b : Bytes} {fr : ℕ} (hfr : 8 ≤ fr)
    (hb : ufs.sb.bsize = fr * 512) (hoff : ufs.sb.cgoffset = 0) (hd : ufs.sb.dsize = ufs.sb.fpg)
    (hroom : ufs.sb.dblkno + fr ≤ ufs.sb.fpg)
    (h : initializePristineCg ufs 0 s = (.ok b, t)) :
    ufs.sb.fpg ≤ (ufs.sb.bsize - CgOff.free) * nbby := by
  have hmin : ufs.sb.cgdmin 0 % ufs.sb.fpg = ufs.sb.dblkno := by
    rw [Superblock.cgdmin, Superblock.cgstart, Superblock.cgbase, hoff, Nat.mul_zero, Nat.zero_mul,
      Nat.zero_add, Nat.mod_eq_of_lt (by omega)]
  have hcount : cgDataFragCount ufs 0 = ufs.sb.fpg := by
    unfold cgDataFragCount
    dsimp only
    rw [if_pos (by omega), hd]
    omega
  have hin := initializePristineCg_bits (by omega) h (ufs.sb.fpg - ufs.sb.dblkno - 1)
    (by rw [hmin, hcount]; omega)
  rw [hmin] at hin
  simp only [CgOff.free, nbby] at hin ⊢
  omega

/-- Formatting goes on with the superblock that it reads back. -/
theorem format_reads_back {ufs : Ufs} {t : Bytes}
    (hl : formatLayout image.length fsStart size opts = .ok l)
    (hfpg : l.cyl.fragmentsPerGroup < 2 ^ 32) (h : format fsStart size opts image = (.ok ufs, t)) :
    ufs = ⟨fsStart, fsStart + ufsSbOffset, l.superblock opts⟩ ∧
      ∃ s u, Act.each (formatGroup ufs) (List.range l.cyl.cylinderGroups) s = (.ok (), u) := by
  obtain ⟨l', u, hread, h⟩ := Act.bind_eq_ok.mp h
  obtain ⟨hl', rfl⟩ := Act.read_eq_ok.mp hread
  cases hl'.symm.trans hl
  obtain ⟨fr, sh, count, hc⟩ := formatLayout_checked hl
  have hlong : fsStart + ufsSbOffset + ufsSbSize ≤ image.length := by
    have hfr := hc.frag
    have hroot := hc.root
    have hfirst := hc.cylinderGroup
    have hinside := hc.inside
    have hwhole := hc.whole
    have hdata := hc.dataFrag
    have hinode := hc.inodeFrag
    simp only [ufsSbOffset, ufsSbSize]
    omega
  obtain ⟨_, u, hwrite, h⟩ := Act.bind_eq_ok.mp h
  obtain ⟨found, v, hread, h⟩ := Act.bind_eq_ok.mp h
  obtain ⟨hdetect, rfl⟩ := Act.read_eq_ok.mp hread
  have hwritten : writeSuperblock fsStart l opts image = (.ok (), withSuperblock image fsStart l opts) :=
    writeSuperblock_eq hlong
  have hparse := detect_withSuperblock hlong hc hfpg
  generalize writeSuperblock fsStart l opts = write at hwrite hwritten
  generalize withSuperblock image fsStart l opts = w at hwritten hparse
  rw [hwritten] at hwrite
  obtain rfl : w = u := congrArg Prod.snd hwrite
  have hfound : found = some ⟨fsStart, fsStart + ufsSbOffset, l.superblock opts⟩ :=
    (Outcome.ok.inj hdetect).symm.trans hparse
  subst hfound
  obtain ⟨_, v, hgroups, h⟩ := Act.bind_eq_ok.mp h
  obtain ⟨_, w, -, h⟩ := Act.bind_eq_ok.mp h
  obtain ⟨_, x, -, h⟩ := Act.bind_eq_ok.mp h
  have hufs : (⟨fsStart, fsStart + ufsSbOffset, l.superblock opts⟩ : Ufs) = ufs :=
    Outcome.ok.inj (congrArg Prod.fst h)
  subst hufs
  exact ⟨rfl, _, _, hgroups⟩

/-- With cylinders, or below `2 ^ 32` sectors, the bits of a group fit its block. -/
theorem format_bits {ufs : Ufs} {t : Bytes}
    (hsize : opts.tracksPerCylinder.isSome = true ∨ size < 2 ^ 41)
    (h : format fsStart size opts image = (.ok ufs, t)) :
    ∃ l, formatLayout image.length fsStart size opts = .ok l ∧
      l.cyl.fragmentsPerGroup ≤ (opts.blockSize - CgOff.free) * nbby ∧
      ufs = ⟨fsStart, fsStart + ufsSbOffset, l.superblock opts⟩ := by
  obtain ⟨l, u, hread, -⟩ := Act.bind_eq_ok.mp h
  obtain ⟨hl, rfl⟩ := Act.read_eq_ok.mp hread
  obtain ⟨fr, sh, count, hc⟩ := formatLayout_checked hl
  obtain ⟨-, -, -, hcyl⟩ := formatCylinders_facts hc.cylinders
  have hfr := hc.frag
  cases ht : opts.tracksPerCylinder with
  | some tracks =>
    have hsome : opts.tracksPerCylinder.isSome = true := by rw [ht, Option.isSome_some]
    have hbits := hcyl ⟨hsome, hc.together ▸ hsome⟩
    have hfpg : l.cyl.fragmentsPerGroup < 2 ^ 32 := by
      simp only [CgOff.free, nbby] at hbits
      omega
    refine ⟨l, hl, ?_, (format_reads_back hl hfpg h).1⟩
    rw [hc.blockSize]
    exact hbits
  | none =>
    -- one group holds the slice, and its first step sets the bits of all its data
    have hshort : size < 2 ^ 41 := hsize.resolve_left (by rw [ht]; simp)
    have htotal : l.totalFragments < 2 ^ 32 := by
      have := hc.whole
      omega
    have hone := hc.cylinders
    rw [ht] at hone
    have hcyl : l.cyl = ⟨1, fr * 512 / sectorSize, 1, 1, 1, l.totalFragments⟩ :=
      (Outcome.ok.inj hone).symm
    obtain ⟨hufs, s, v, hgroups⟩ := format_reads_back hl (by rw [hcyl]; exact htotal) h
    refine ⟨l, hl, ?_, hufs⟩
    rw [hcyl, hufs] at hgroups
    obtain ⟨_, y, hfirst, -⟩ := Act.bind_eq_ok.mp hgroups
    obtain ⟨b, z, hpristine, -⟩ := Act.bind_eq_ok.mp hfirst
    have hfpg : (l.superblock opts).fpg = l.totalFragments := by
      simp only [Layout.superblock, hcyl, Nat.mod_eq_of_lt htotal]
    have hdsize : (l.superblock opts).dsize = l.totalFragments := by
      simp only [Layout.superblock, Nat.mod_eq_of_lt htotal]
    have hbsize : (l.superblock opts).bsize = fr * 512 := by
      simp only [Layout.superblock, hc.blockSize]
      omega
    have hroot := hc.root
    have hdblkno : (l.superblock opts).dblkno = l.dataFragNumber := by
      simp only [Layout.superblock]
      omega
    have hbits := formatted_bits (by omega) hbsize rfl (by rw [hdsize, hfpg])
      (by rw [hfpg, hdblkno]; exact hroot) hpristine
    rw [hfpg, hbsize] at hbits
    rw [hcyl, hc.blockSize]
    exact hbits

/-- A slice of at most `2 ^ 32` sectors that was formatted has a sized layout. -/
theorem format_sized {ufs : Ufs} {t : Bytes} (hsize : size < 2 ^ 41)
    (h : format fsStart size opts image = (.ok ufs, t)) :
    ∃ l, formatLayout image.length fsStart size opts = .ok l ∧ l.Sized opts ∧
      ufs.sb = l.superblock opts := by
  obtain ⟨l, hl, hbits, hufs⟩ := format_bits (.inr hsize) h
  obtain ⟨fr, sh, count, hc⟩ := formatLayout_checked hl
  have htotal : l.totalFragments < 2 ^ 32 := by
    have := hc.whole
    omega
  exact ⟨l, hl, ⟨htotal, hbits⟩, by rw [hufs]⟩

/-- A file system as the formatter leaves it. Slices have at most `2 ^ 32` sectors, since the callers
take their lengths from 32-bit table entries; the last group holds its own metadata. -/
def Formatted (ufs : Ufs) (image : Bytes) : Prop :=
  ∃ image₀ fsStart size opts, format fsStart size opts image₀ = (.ok ufs, image) ∧
    size < 2 ^ 41 ∧ ufs.sb.LastGroupHolds

theorem Formatted.intro {ufs : Ufs} {t : Bytes} (h : format fsStart size opts image = (.ok ufs, t))
    (hsize : size < 2 ^ 41) (hlast : ufs.sb.LastGroupHolds) : Formatted ufs t :=
  ⟨image, fsStart, size, opts, h, hsize, hlast⟩

/-- All that a fresh file system stores is its root directory. -/
theorem Formatted.table {ufs : Ufs} (h : Formatted ufs image) :
    ∃ timestamp f body, FreshTable ufs image timestamp f body := by
  obtain ⟨image₀, fsStart, size, opts, h, hsize, hlast⟩ := h
  obtain ⟨l, hl, hs, hsb⟩ := format_sized hsize h
  exact ⟨_, ((format_fresh hl hs (hsb ▸ hlast)).ok h).2⟩

theorem Formatted.fresh {ufs : Ufs} (h : Formatted ufs image) : FreshVolume ufs image := by
  obtain ⟨_, _, _, h⟩ := h.table
  exact h.volume

end Format

/-! ## A small slice -/

/-- A slice of 128 sectors: one group with one inode block. -/
def blankOptions : FormatOptions := ⟨0, 4096, 8192, none, none⟩

def blankLayout : Layout where
  cyl := ⟨1, 8, 1, 1, 1, 128⟩
  totalFragments := 128
  fragmentsPerBlock := 8
  fragshift := 3
  fsbtodb := 0
  bshift := 12
  fshift := 9
  summaryFragNumber := 32
  summaryAreaBytes := 512
  cylinderGroupFragNumber := 40
  inodeFragNumber := 48
  dataFragNumber := 56
  inodesPerBlock := 32
  inodesPerGroup := 32
  csshift := 8
  csmask := 2 ^ 32 - 256

def blankUfs : Ufs := ⟨0, ufsSbOffset, blankLayout.superblock blankOptions⟩

/-- What formatting makes of a slice of that length. -/
def formatBlank (image : Bytes) : Bytes := (format 0 65536 blankOptions image).2

def blankImage : Bytes := formatBlank (Bytes.zeros 65536)

theorem formatLayout_blank : formatLayout 65536 0 65536 blankOptions = .ok blankLayout := by
  unfold blankOptions blankLayout
  rfl

theorem format_blank {image : Bytes} (h : image.length = 65536) :
    (format 0 65536 blankOptions : Write Ufs).wp image
      (fun ufs t => ufs = blankUfs ∧ FreshVolume ufs t) fun _ _ => False := by
  have hl : formatLayout image.length 0 65536 blankOptions = .ok blankLayout := by
    rw [h]
    exact formatLayout_blank
  refine (format_fresh hl ⟨by decide, by decide⟩ (by decide)).mono ?_ fun _ _ h => h
  rintro ufs t ⟨hu, f, body, h⟩
  exact ⟨hu, h.volume⟩

theorem formatBlank_formatted {image : Bytes} (h : image.length = 65536) :
    Formatted blankUfs (formatBlank image) := by
  have hsize : 65536 < 2 ^ 41 := by decide
  have hlast : blankUfs.sb.LastGroupHolds := by decide
  obtain ⟨ufs, t, hf, hu, -⟩ | ⟨_, _, -, hf⟩ := (format_blank h).ok_or_err
  · rw [hu] at hf
    have hformatted := Formatted.intro hf hsize hlast
    rw [formatBlank, hf]
    exact hformatted
  · exact hf.elim

theorem blankImage_formatted : Formatted blankUfs blankImage :=
  formatBlank_formatted (Bytes.zeros_length _)

/-- Its nine data blocks. -/
theorem spare_blank : spare blankUfs.sb [] = 9 := by
  decide +kernel

/-- With the block of its root given back, the blank slice has nine free blocks. -/
theorem blank_room {image : Bytes} {T : Table} (hi : blankUfs.Stores image T)
    (hlive : T.live = {ufsRootInode}) : T.room ufsRootInode = 9 := by
  obtain ⟨D, own, -, hv⟩ := hi
  have hroom := hv.room ufsRootInode
  rw [hlive, Finset.erase_singleton, ledger, Finset.toList_empty, List.flatMap_nil,
    spare_blank] at hroom
  exact hroom.symm

/-- The root has one of them. -/
theorem blank_room_zero {image : Bytes} {T : Table} (hi : blankUfs.Stores image T)
    (hlive : T.live = {ufsRootInode}) (hsize : (T.file ufsRootInode).inode.size = ufsDirblksiz) :
    8 ≤ T.room 0 := by
  have g := hi.geom
  have hnine := blank_room hi hlive
  obtain ⟨D, own, -, hv⟩ := hi
  have hn : ufsRootInode ∈ T.live := by
    rw [hlive]
    exact Finset.mem_singleton_self _
  have hl := hv.laid _ hn
  rw [← hv.inode _ hn] at hsize
  have hone : blankUfs.sb.blocksFor ufsDirblksiz = 1 := by decide
  have hdata : (own ufsRootInode).data.length = 1 := by
    rw [hl.count, hsize, hone]
  have hptrs : (own ufsRootInode).ptrs.length = 0 := by
    rw [hl.filled, hdata, blankUfs.sb.pointerBlocks_direct (by decide)]
  have hruns := Owned.runs_length (hl.sizes_length g)
  have hroom := hv.room 0
  have hz : 0 ∉ T.live := Finset.disjoint_left.mp hv.apart hv.reserved_zero
  have hle := @spare_append_le _ (ledger blankUfs.sb D own (T.live.erase ufsRootInode)) g _
    (hv.isRun hn)
  rw [Finset.erase_eq_of_notMem hz, spare_perm (ledger_split hn)] at hroom
  rw [hroom, hruns, hdata, hptrs, hv.room, hnine] at hle
  omega

end UfsFuse
