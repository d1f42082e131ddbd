import UfsFuse.Detected
import UfsFuse.ToolRuns

/-!
# What the tool reports

From its creation on, a disk is reported as its history says: each slice shows what the last successful
command made of it, and a slice that was not formatted shows nothing.
-/
namespace UfsFuse

/-! ## What a slice shows -/

/-- What the detector finds in a slice after the command has filled it. -/
def ToolCommand.shows : ToolCommand → Option DetectedFs
  | .formatUfs _ _ _ _ => some ⟨.ufs, 0, [⟨dotName, ufsRootInode, some ufsDirblksiz⟩,
      ⟨dotdotName, ufsRootInode, some ufsDirblksiz⟩]⟩
  | .formatBfs _ files _ => some ⟨.bfs, 0,
      files.zipIdx.map fun f => ⟨f.1.1, f.2 + 3, some f.1.2.length⟩⟩
  | .installBoot _ => none

/-- The last successful command that named the slice. -/
def DiskPlan.lastMade (plan : DiskPlan) (p : VtocPartition)
    (cs : List (ToolCommand × Outcome ToolError Unit)) : Option ToolCommand :=
  ((cs.filter fun c => c.2 = .ok () ∧ c.1.named plan = .ok p).getLast?).map Prod.fst

/-- A bootstrap without the magic of a file system where the detectors look for it, in the partition or on
the whole disk. -/
structure Unmarked (bootstrap : Bytes) : Prop where
  bfs : bootstrap.u32 0 ≠ BootFs.bfsMagic
  ufs : bootstrap.u32 (ufsSbOffset + FsOff.magic) ≠ ufsMagic
  bare : bootstrap.u32 (ufsSbOffset + FsOff.magic - sectorSize) ≠ ufsMagic

/-- A command for slices of the plan whose files and bootstraps are not taken for something else: no name
ends early, no boot file system shows a superblock, and it has inode numbers for all its files. -/
def ToolCommand.Plain (plan : DiskPlan) : ToolCommand → Prop
  | .formatUfs selector blockSize bytesPerInode timestamp =>
      (ToolCommand.formatUfs selector blockSize bytesPerInode timestamp).Stays plan
  | .formatBfs selector files timestamp =>
      files.length ≤ 65533 ∧ (∀ f ∈ files, 0 ∉ f.1) ∧
        ∀ p, getVtocPartitionBySelector plan.report selector = .ok p → p.size ≠ 0 →
          p ∈ plan.slices ∧ p.size ≤ 2 ^ 32 ∧
            ∀ img, BootFs.contents p.size files none timestamp = .ok img → detectUfsAtStart img 0 = none
  | .installBoot hdboot => ∀ bootstrap, flattenHdbootBootstrap hdboot = .ok bootstrap → Unmarked bootstrap

/-- The bytes of a slice that the last command of its history left. -/
def DiskPlan.Left (plan : DiskPlan) (p : VtocPartition) : Option ToolCommand → Bytes → Prop
  | none, b => b = Bytes.zeros p.size
  | some (.formatUfs _ blockSize bytesPerInode timestamp), b => ∃ old ufs, old.length = p.size ∧
      format 0 p.size (plan.options blockSize bytesPerInode timestamp) old = (.ok ufs, b) ∧
        ufs.sb.LastGroupHolds
  | some (.formatBfs _ files timestamp), b => files.length ≤ 65533 ∧ (∀ f ∈ files, 0 ∉ f.1) ∧
      p.size ≤ 2 ^ 32 ∧ BootFs.contents p.size files none timestamp = .ok b ∧ detectUfsAtStart b 0 = none
  | some (.installBoot _), _ => False

section Slice
variable {plan : DiskPlan} {p : VtocPartition} {last : Option ToolCommand} {b : Bytes}

theorem detectUfsAtStart_zeros (n fsStart : ℕ) : detectUfsAtStart (Bytes.zeros n) fsStart = none := by
  refine detectUfsAtStart_none fun hroom => ?_
  rw [Bytes.zeros_length] at hroom
  simp only [ufsSbSize] at hroom
  rw [Bytes.u32, Bytes.slice_zeros (by simp only [FsOff.magic]; omega), Bytes.leNat_zeros]
  norm_num

/-- The boot file system's detector needs its magic too. -/
theorem BootFs.detectAtStart_none {image : Bytes} {fsStart : ℕ}
    (h : fsStart + bfsSuperSize ≤ image.length → image.u32 fsStart ≠ bfsMagic) :
    detectAtStart image fsStart = none := by
  unfold detectAtStart
  by_cases hroom : fsStart + bfsSuperSize > image.length
  · rw [if_pos hroom]
  · rw [if_neg hroom, if_pos (h (not_lt.mp hroom))]

/-- No file system is found without its magic. -/
theorem anyDetector_none (hufs : detectUfsAtStart b 0 = none)
    (hbfs : BootFs.detectAtStart b 0 = none) : anyDetector b = .ok none := by
  unfold anyDetector ufsDetector bfsDetector
  rw [hufs]
  dsimp only
  rw [Outcome.ok_bind]
  dsimp only
  rw [hbfs]

/-- The detectors show the last command. -/
theorem DiskPlan.Left.probe (h : plan.Left p last b) (hsize : p.size < 2 ^ 41) :
    anyDetector b = .ok (last.bind ToolCommand.shows) ∧
      ufsDetector b = .ok ((last.bind ToolCommand.shows).filter fun d => d.filesystem = .ufs) := by
  cases last with
  | none =>
    obtain rfl : b = Bytes.zeros p.size := h
    have hufs := detectUfsAtStart_zeros p.size 0
    refine ⟨anyDetector_none hufs (BootFs.detectAtStart_none fun hroom => ?_), ?_⟩
    · rw [Bytes.zeros_length] at hroom
      simp only [BootFs.bfsSuperSize] at hroom
      rw [Bytes.u32, Bytes.slice_zeros (by omega), Bytes.leNat_zeros]
      norm_num
    · rw [ufsDetector, hufs]
      rfl
  | some c =>
    cases c with
    | formatUfs selector blockSize bytesPerInode timestamp =>
      obtain ⟨old, ufs, hold, hrun, hlast⟩ := h
      obtain ⟨l, hl, hs, hsb⟩ := format_sized hsize hrun
      obtain ⟨hufs, f, body, htable⟩ := (format_fresh hl hs (hsb ▸ hlast)).ok hrun
      have hprobe : ufsDetector b = .ok (some ⟨.ufs, 0, [⟨dotName, ufsRootInode, some ufsDirblksiz⟩,
          ⟨dotdotName, ufsRootInode, some ufsDirblksiz⟩]⟩) := by
        rw [ufsDetector, format_detected hrun hsize]
        dsimp only
        rw [htable.listRoot, hufs]
        rfl
      refine ⟨?_, hprobe⟩
      rw [anyDetector, hprobe]
      rfl
    | formatBfs selector files timestamp =>
      obtain ⟨hcount, hnul, hsmall, hcontents, hufs⟩ := h
      have hprobe : ufsDetector b = .ok none := by
        rw [ufsDetector, hufs]
      refine ⟨?_, hprobe⟩
      obtain ⟨e, he⟩ | ⟨img, bfs, himg, hstart, hdetect, hlist⟩ :=
        @BootFs.contents_listed p.size files none timestamp hsmall hcount hnul
      · exact absurd (he.symm.trans hcontents) (by simp)
      obtain rfl := Outcome.ok.inj (himg.symm.trans hcontents)
      rw [anyDetector, hprobe, Outcome.ok_bind, bfsDetector, hdetect]
      dsimp only
      rw [hlist, hstart, List.map_map]
      rfl
    | installBoot hdboot => exact h.elim

end Slice

/-! ## What the history leaves -/

/-- Every slice is as the last command made it, and the bootstrap shows no file system. -/
structure DiskPlan.Recorded (plan : DiskPlan) (cs : List (ToolCommand × Outcome ToolError Unit))
    (state : SliceDisk) : Prop where
  left : ∀ p ∈ plan.slices, plan.Left p (plan.lastMade p cs) (state.slice p)
  unmarked : Unmarked state.bootstrap

section History
variable {plan : DiskPlan} {p : VtocPartition} {state state' : SliceDisk}
variable {c : ToolCommand} {o : Outcome ToolError Unit}
variable {cs : List (ToolCommand × Outcome ToolError Unit)}

theorem DiskPlan.lastMade_append_made (hnamed : c.named plan = .ok p) :
    plan.lastMade p (cs ++ [(c, .ok ())]) = some c := by
  simp [lastMade, List.filter_append, hnamed]

/-- A failed command makes nothing, and neither does one that names another slice. -/
theorem DiskPlan.lastMade_append_other (h : o ≠ .ok () ∨ c.named plan ≠ .ok p) :
    plan.lastMade p (cs ++ [(c, o)]) = plan.lastMade p cs := by
  have hskip : ¬(o = .ok () ∧ c.named plan = .ok p) := by tauto
  simp [lastMade, List.filter_append, hskip]

theorem DiskPlan.Recorded.failed (hr : plan.Recorded cs state) {e : ToolError} :
    plan.Recorded (cs ++ [(c, .err e)]) state := by
  refine ⟨fun p hp => ?_, hr.unmarked⟩
  rw [DiskPlan.lastMade_append_other (.inl (by simp))]
  exact hr.left p hp

theorem getVtocPartitionBySelector_ne_panic (report : DiskImageReport) (selector : Str) :
    getVtocPartitionBySelector report selector ≠ .panic := by
  unfold getVtocPartitionBySelector
  split
  · exact fun h => by cases h
  · split
    · exact fun h => by cases h
    · split <;> exact fun h => by cases h

/-- A command on the slice with that selector either makes something of it or leaves it alone. -/
theorem DiskPlan.Recorded.onSelected {selector : Str} {e : ToolError}
    {x : VtocPartition → Act ToolError Bytes Unit} (hr : plan.Recorded cs state)
    (hnamed : c.named plan = getVtocPartitionBySelector plan.report selector)
    (hx : ∀ p, getVtocPartitionBySelector plan.report selector = .ok p → p.size ≠ 0 →
      p ∈ plan.slices ∧
        ((∃ e, x p (state.slice p) = (.err e, state.slice p)) ∨
          ∃ part, x p (state.slice p) = (.ok (), part) ∧ plan.Left p (some c) part))
    (hdo : (do
      let q ← Act.lift (getVtocPartitionBySelector plan.report selector)
      if q.size = 0 then Act.fail e else SliceDisk.onSlice q (x q) :
        Act ToolError SliceDisk Unit) state = (o, state')) :
    o ≠ .panic ∧ plan.Recorded (cs ++ [(c, o)]) state' := by
  cases hsel : getVtocPartitionBySelector plan.report selector with
  | panic => exact absurd hsel (getVtocPartitionBySelector_ne_panic _ _)
  | err e' =>
    rw [hsel] at hdo
    obtain ⟨rfl, rfl⟩ := Prod.mk.inj hdo
    exact ⟨by simp, hr.failed⟩
  | ok p =>
    rw [hsel, Act.lift_ok_bind] at hdo
    by_cases hzero : p.size = 0
    · rw [if_pos hzero] at hdo
      obtain ⟨rfl, rfl⟩ := Prod.mk.inj hdo
      exact ⟨by simp, hr.failed⟩
    rw [if_neg hzero, SliceDisk.onSlice] at hdo
    obtain ⟨hp, ⟨e', hrun⟩ | ⟨part, hrun, hleft⟩⟩ := hx p hsel hzero
    · rw [hrun, Function.update_eq_self] at hdo
      obtain ⟨rfl, rfl⟩ := Prod.mk.inj hdo
      exact ⟨by simp, hr.failed⟩
    · rw [hrun] at hdo
      obtain ⟨rfl, rfl⟩ := Prod.mk.inj hdo
      refine ⟨by simp, fun q hq => ?_, hr.unmarked⟩
      by_cases hpq : q = p
      · subst hpq
        rw [DiskPlan.lastMade_append_made (hnamed.trans hsel)]
        dsimp only
        rw [Function.update_self]
        exact hleft
      · rw [DiskPlan.lastMade_append_other
          (.inr fun h => hpq (Outcome.ok.inj (h.symm.trans (hnamed.trans hsel))))]
        dsimp only
        rw [Function.update_of_ne hpq]
        exact hr.left q hq

/-- No command panics, and each leaves what its history says. -/
theorem ToolCommand.onSlices_records {base : Bytes} (hl : plan.Lays base) (hplain : c.Plain plan)
    (hr : plan.Recorded cs state) (hlen : ∀ p ∈ plan.slices, (state.slice p).length = p.size)
    (hdo : c.onSlices plan state = (o, state')) :
    o ≠ .panic ∧ plan.Recorded (cs ++ [(c, o)]) state' := by
  cases c with
  | formatUfs selector blockSize bytesPerInode timestamp =>
    refine hr.onSelected rfl (fun p hsel hzero => ?_) hdo
    obtain ⟨hp, hlast⟩ := hplain p hsel hzero
    obtain ⟨-, -, hsmall, -⟩ := hl.bounds hp
    have hwhole : (state.slice p).slice 0 p.size = state.slice p := by
      rw [← hlen p hp, Bytes.slice_full]
    have hin : 0 + p.size ≤ (state.slice p).length := by rw [hlen p hp, Nat.zero_add]
    refine ⟨hp, ?_⟩
    obtain ⟨e, -, -, halone⟩ | ⟨l, part, hlayout, -, halone, -⟩ :=
      @format_slice (state.slice p) 0 p.size (plan.options blockSize bytesPerInode timestamp) hin hsmall
        rfl hlast
    · rw [hwhole] at halone
      exact .inl ⟨_, Act.err_bind (Act.mapErr_err halone)⟩
    · rw [hwhole] at halone
      exact .inr ⟨part, Act.bind_of_ok (f := fun _ => pure ()) (Act.mapErr_ok halone), state.slice p, _,
        hlen p hp, halone, hlast l hlayout⟩
  | formatBfs selector files timestamp =>
    obtain ⟨hcount, hnul, hslices⟩ := hplain
    refine hr.onSelected rfl (fun p hsel hzero => ?_) hdo
    obtain ⟨hp, hsmall, hdetect⟩ := hslices p hsel hzero
    have hin : 0 + p.size ≤ (state.slice p).length := by rw [hlen p hp, Nat.zero_add]
    refine ⟨hp, ?_⟩
    obtain ⟨e, he⟩ | ⟨img, -, himg, -, -, -⟩ :=
      @BootFs.contents_listed p.size files none timestamp hsmall hcount hnul
    · exact .inl ⟨_, Act.mapErr_err (BootFs.format_err hin he)⟩
    · have halone := BootFs.format_ok hin himg
      rw [Bytes.overlay_whole ((BootFs.contents_length himg).trans (hlen p hp).symm)] at halone
      exact .inr ⟨img, Act.mapErr_ok halone, hcount, hnul, hsmall, himg, hdetect img himg⟩
  | installBoot hdboot =>
    dsimp only [onSlices] at hdo
    by_cases hboot : Bootable hdboot
    · obtain ⟨bootstrap, hflat, -, -⟩ := flattenHdbootBootstrap_ok hboot
      rw [hflat] at hdo
      obtain ⟨rfl, rfl⟩ := Prod.mk.inj hdo
      refine ⟨by simp, fun p hp => ?_, hplain bootstrap hflat⟩
      rw [DiskPlan.lastMade_append_other (.inr (by simp [named]))]
      exact hr.left p hp
    · obtain ⟨e, he⟩ := flattenHdbootBootstrap_err hboot
      rw [he] at hdo
      obtain ⟨rfl, rfl⟩ := Prod.mk.inj hdo
      exact ⟨by simp, hr.failed⟩

/-- What is not taken for something else stays within the plan. -/
theorem ToolCommand.Plain.stays (h : c.Plain plan) : c.Stays plan := by
  cases c with
  | formatUfs selector blockSize bytesPerInode timestamp => exact h
  | formatBfs selector files timestamp => exact fun p hsel hzero => (h.2.2 p hsel hzero).1
  | installBoot hdboot => trivial

end History

/-! ## Probing every slice -/

theorem asU64_eq {v : ℤ} (hpos : 0 ≤ v) (hlt : v < 2 ^ 63) : asU64 v = v.toNat := by
  rw [asU64, Int.emod_eq_of_lt hpos (by omega)]

theorem Outcome.collect_map {ε α β γ : Type} (f : β → Outcome ε γ) (g : α → β) (as : List α) :
    Outcome.collect f (as.map g) = Outcome.collect (fun a => f (g a)) as := by
  induction as with
  | nil => rfl
  | cons a as ih => rw [List.map_cons, Outcome.collect, Outcome.collect, ih]

namespace DiskPlan
variable {plan : DiskPlan} {geometry : RawDiskGeometry} {layout : DiskLayout}
variable {base disk : Bytes} {state : SliceDisk} {p : VtocPartition}

/-- The slices of a created disk lie on it. -/
theorem Created.bounds (h : plan.Created geometry layout base) (hp : p ∈ layout.slices) :
    1 ≤ p.startSector ∧ 0 < p.sectorCount ∧ p.offset + p.size ≤ base.length := by
  have hcount := h.positive p hp
  obtain ⟨hlow, hhigh⟩ := VtocPartition.bounds_of_subset (h.subset p hp) hcount
  have hpartition := h.partition
  have hstart := h.starts
  simp only [VtocPartition.offset, VtocPartition.size, sectorSize] at hpartition ⊢
  omega

/-- The report of a disk with the metadata of a created one, probed with any detector. -/
theorem Created.inspectWith (h : plan.Created geometry layout base) (hlen : disk.length = base.length)
    (hinspect : inspectDiskImage disk = .ok plan.report) {detector : FsDetector}
    {found : VtocPartition → Option DetectedFs}
    (hfound : ∀ p ∈ layout.slices, detector (disk.slice p.offset p.size) = .ok (found p)) :
    UfsFuse.inspectWith detector disk =
      .ok ⟨plan.report, layout.slices.map fun p => ⟨p.entry, found p⟩⟩ := by
  have hprobe : ∀ p ∈ layout.slices, probeSlice detector disk p.entry = .ok ⟨p.entry, found p⟩ := by
    intro p hp
    obtain ⟨hstart, hcount, hinside⟩ := h.bounds hp
    have hsmall := h.small
    have hends : p.startSector.toNat * sectorSize + p.sectorCount.toNat * sectorSize ≤ 2 ^ 40 :=
      hinside.trans hsmall
    have hoffset : asU64 p.startSector * sectorSize = p.offset := by
      rw [asU64_eq (by omega) (by simp only [sectorSize] at hends; omega), VtocPartition.offset]
    have hsize : asU64 p.sectorCount * sectorSize = p.size := by
      rw [asU64_eq (by omega) (by simp only [sectorSize] at hends; omega), VtocPartition.size]
    have hpos : 0 < p.size := by
      simp only [VtocPartition.size, sectorSize]
      omega
    have hsat : ∀ n, n ≤ 2 ^ 40 → saturate n = n := fun n hn =>
      min_eq_left (hn.trans (by norm_num))
    unfold probeSlice
    dsimp only [VtocPartition.entry]
    rw [hoffset, hsize, hsat p.offset (by omega), hsat p.size (by omega), hsat _ (by omega), hlen,
      min_eq_left hinside, if_neg (by omega), Nat.add_sub_cancel_left, hfound p hp]
    rfl
  unfold UfsFuse.inspectWith
  rw [hinspect, Outcome.mapErr, Outcome.ok_bind, h.entries]
  rw [Outcome.collect_map, Outcome.collect_eq hprobe]
  rfl

/-- The slice of the whole partition shows the bootstrap, so no file system. -/
theorem Created.backup_probe (h : plan.Created geometry layout base) (hs : plan.Shows base disk state)
    (hunmarked : Unmarked state.bootstrap) (hp : p ∈ layout.slices) (htag : p.tag = vBackup) :
    anyDetector (disk.slice p.offset p.size) = .ok none ∧
      ufsDetector (disk.slice p.offset p.size) = .ok none := by
  obtain ⟨-, -, hinside⟩ := h.bounds hp
  have hoffset : p.offset = plan.start := by
    rw [VtocPartition.offset, h.backup p hp htag, DiskPlan.start, h.startLba]
    rfl
  have hlength : (disk.slice p.offset p.size).length = p.size :=
    Bytes.slice_length (by rw [hs.length]; exact hinside)
  have hword : ∀ o, o + 4 ≤ p.size → o + 4 ≤ bootstrapLimit →
      (disk.slice p.offset p.size).u32 o = state.bootstrap.u32 o := by
    intro o hsize hboot
    rw [Bytes.u32_slice hsize, ← hs.bootstrap, Bytes.u32_slice hboot, hoffset]
  have hufs : detectUfsAtStart (disk.slice p.offset p.size) 0 = none := by
    refine detectUfsAtStart_none fun hroom => ?_
    rw [hlength] at hroom
    simp only [ufsSbOffset, ufsSbSize] at hroom
    rw [Nat.zero_add, hword _ (by simp only [ufsSbOffset, FsOff.magic]; omega) (by decide)]
    exact hunmarked.ufs
  refine ⟨anyDetector_none hufs (BootFs.detectAtStart_none fun hroom => ?_), by rw [ufsDetector, hufs]⟩
  rw [hlength] at hroom
  simp only [BootFs.bfsSuperSize] at hroom
  rw [hword 0 (by omega) (by decide)]
  exact hunmarked.bfs

/-- What the detectors find in the slices of the layout. -/
theorem Created.probes {cs : List (ToolCommand × Outcome ToolError Unit)}
    (h : plan.Created geometry layout base) (hs : plan.Shows base disk state)
    (hr : plan.Recorded cs state) (hp : p ∈ layout.slices) :
    anyDetector (disk.slice p.offset p.size) =
        .ok (if p.tag = vBackup then none else (plan.lastMade p cs).bind ToolCommand.shows) ∧
      ufsDetector (disk.slice p.offset p.size) = .ok (if p.tag = vBackup then none
        else ((plan.lastMade p cs).bind ToolCommand.shows).filter fun d => d.filesystem = .ufs) := by
  by_cases htag : p.tag = vBackup
  · rw [if_pos htag, if_pos htag]
    exact h.backup_probe hs hr.unmarked hp htag
  · have hown : p ∈ plan.slices := by
      rw [h.own, DiskLayout.own, List.mem_filter]
      exact ⟨hp, by simpa using htag⟩
    obtain ⟨-, -, hsmall, -⟩ := h.toLays.bounds hown
    rw [if_neg htag, if_neg htag, hs.slice p hown]
    exact (hr.left p hown).probe hsmall

/-- A created disk has no history. -/
theorem Created.recorded (h : plan.Created geometry layout base) : plan.Recorded [] (plan.state base) := by
  have hstart : plan.start = sectorSize := by rw [DiskPlan.start, h.startLba, Nat.one_mul]
  have hzero : ∀ o n, sectorSize ≤ o → o + n ≤ base.length →
      o + n ≤ plan.start + bootstrapLimit ∨ plan.start + 34 * sectorSize ≤ o →
        base.slice o n = Bytes.zeros n := by
    intro o n hlow hin hout
    refine Bytes.ext_byte ((Bytes.slice_length hin).trans (Bytes.zeros_length n).symm) fun i hi => ?_
    rw [Bytes.slice_length hin] at hi
    rw [Bytes.byte_slice hi, h.blank (o + i) (by omega) (by omega), Bytes.byte_zeros]
  refine ⟨fun p hp => ?_, ?_⟩
  · obtain ⟨hlow, -, -, hclear⟩ := h.toLays.bounds hp
    refine hzero p.offset p.size hlow (h.inside p hp) ?_
    obtain hbefore | hbehind := hclear
    · exact .inl (by omega)
    · exact .inr hbehind
  · have hboot : (plan.state base).bootstrap = Bytes.zeros bootstrapLimit :=
      hzero plan.start bootstrapLimit hstart.ge h.bootInside (.inl le_rfl)
    rw [hboot]
    constructor <;> decide +kernel

/-- A run on a created disk, with its history. -/
theorem Created.runs {cs : List (ToolCommand × Outcome ToolError Unit)}
    (h : plan.Created geometry layout base)
    (hrun : StepRun (fun c s o t => c.Plain plan ∧ c.perform s = (o, t)) base cs disk) :
    (∀ c ∈ cs, c.2 ≠ .panic) ∧ ∃ state, plan.Shows base disk state ∧ plan.Recorded cs state := by
  refine hrun.keeps (I := fun done s => (∀ c ∈ done, c.2 ≠ .panic) ∧
    ∃ state, plan.Shows base s state ∧ plan.Recorded done state) ?_ []
    ⟨by simp, _, plan.shows_state base, h.recorded⟩
  rintro done c o s t ⟨hdone, state, hs, hr⟩ ⟨hplain, hdo⟩
  obtain ⟨o', disk', state', hdo', hpanic | hslices, hs'⟩ :=
    ToolCommand.refines h.toLays hs hplain.stays
  · have hinspect := h.inspectWith hs.length (hs.inspects h.toLays) fun p hp => (h.probes hs hr hp).1
    exact absurd (hinspect.symm.trans hpanic.2.2) (by simp)
  · obtain ⟨rfl, rfl⟩ := Prod.mk.inj (hdo.symm.trans hdo')
    have hlen : ∀ p ∈ plan.slices, (state.slice p).length = p.size := fun p hp => by
      rw [← hs.slice p hp]
      exact Bytes.slice_length (hs.length ▸ h.inside p hp)
    obtain ⟨hok, hr'⟩ := ToolCommand.onSlices_records h.toLays hplain hr hlen hslices
    rw [List.forall_mem_append, List.forall_mem_singleton]
    exact ⟨⟨hdone, hok⟩, state', hs', hr'⟩

end DiskPlan

/-! ## The report after a run -/
section Report
variable {size : Option UInt64} {cylinders heads sectors : UInt32} {volume addressing : Str}
  {opts : SliceLayoutOptions} {geometry : RawDiskGeometry} {layout : DiskLayout} {file disk : Bytes}

/-- On a created disk a command comes out as on the slices. -/
theorem DiskPlan.Created.performs {plan : DiskPlan} {c : ToolCommand} {o : Outcome ToolError Unit}
    (h : plan.Created geometry layout disk) (hplain : c.Plain plan)
    (hdo : (c.onSlices plan (plan.state disk)).1 = o) :
    ∃ disk', StepRun (fun c s o t => ToolCommand.Plain plan c ∧ c.perform s = (o, t)) disk
      [(c, o)] disk' := by
  have hs := plan.shows_state disk
  obtain ⟨o', disk', state', hdo', hpanic | hslices, -⟩ := ToolCommand.refines h.toLays hs hplain.stays
  · have hinspect := h.inspectWith rfl h.inspects fun p hp => (h.probes hs h.recorded hp).1
    exact absurd (hinspect.symm.trans hpanic.2.2) (by simp)
  · obtain rfl : o = o' := hdo.symm.trans (congrArg Prod.fst hslices)
    exact ⟨disk', .cons ⟨hplain, hdo'⟩ (.nil _)⟩

/-- The root slice of the default disk can be formatted. -/
theorem defaultRoot_formats {plan : DiskPlan}
    (hplan : plan.Created ⟨659, 16, 63⟩ defaultLayout disk) :
    ∃ disk', StepRun (fun c s o t => ToolCommand.Plain plan c ∧ c.perform s = (o, t)) disk
      [(.formatUfs [0x72, 0x6F, 0x6F, 0x74] 8192 8192 0, .ok ())] disk' := by
  have hstays := defaultRoot_stays hplan
  have hsel : getVtocPartitionBySelector plan.report [0x72, 0x6F, 0x6F, 0x74] = .ok defaultRoot :=
    (defaultLayout_selects hplan).1
  have hzero : defaultRoot.size ≠ 0 := by decide
  obtain ⟨hp, hlast⟩ := hstays defaultRoot hsel hzero
  have hlen : ((plan.state disk).slice defaultRoot).length = defaultRoot.size :=
    Bytes.slice_length (hplan.inside _ hp)
  have hwhole : ((plan.state disk).slice defaultRoot).slice 0 defaultRoot.size =
      (plan.state disk).slice defaultRoot := by rw [← hlen, Bytes.slice_full]
  obtain ⟨e, he, -, -⟩ | ⟨l, part, -, -, halone, -⟩ :=
    @format_slice ((plan.state disk).slice defaultRoot) 0 defaultRoot.size (plan.options 8192 8192 0)
      (by rw [hlen, Nat.zero_add]) (by decide) rfl hlast
  · exact absurd ((defaultRoot_layout hplan).symm.trans he) (by simp)
  · rw [hwhole] at halone
    refine hplan.performs hstays ?_
    dsimp only [ToolCommand.onSlices]
    rw [hsel, Act.lift_ok_bind, if_neg hzero, SliceDisk.onSlice,
      Act.bind_of_ok (f := fun _ => pure ()) (Act.mapErr_ok (f := ToolError.ufs) halone)]
    rfl

end Report
end UfsFuse
