import UfsFuse.BfsSlice
import UfsFuse.CreatedDisk
import UfsFuse.PlacedCalls

/-!
# The disk tool works on one slice at a time

The commands refine the independent slices of `SliceDisk`: what a command does to the disk is what it
does to the slice that it names, or to the boot area, and every later command finds the same metadata.
-/
namespace UfsFuse

/-! ## Calls that hand on -/
section Calls
variable {ε ε' σ α β : Type} {s t : σ}

theorem Act.read_panic_bind {f : σ → Outcome ε α} {g : α → Act ε σ β} (h : f s = .panic) :
    (read f >>= g) s = (.panic, s) := by
  change Act.bind (read f) g s = _
  rw [Act.bind, read, h]

theorem Act.mapErr_ok {f : ε → ε'} {x : Act ε σ α} {a : α} (h : x s = (.ok a, t)) :
    x.mapErr f s = (.ok a, t) := by
  rw [mapErr, h]
  rfl

theorem Act.mapErr_err {f : ε → ε'} {x : Act ε σ α} {e : ε} (h : x s = (.err e, t)) :
    x.mapErr f s = (.err (f e), t) := by
  rw [mapErr, h]
  rfl

theorem Act.mapErr_panic {f : ε → ε'} {x : Act ε σ α} (h : x s = (.panic, t)) :
    x.mapErr f s = (.panic, t) := by
  rw [mapErr, h]
  rfl

theorem Act.err_bind {x : Act ε σ α} {g : α → Act ε σ β} {e : ε} (h : x s = (.err e, t)) :
    (x >>= g) s = (.err e, t) := by
  change Act.bind x g s = _
  rw [Act.bind, h]

/-- A call that has no errors. -/
def Outcome.Errless (x : Outcome ε α) : Prop := ∀ e, x ≠ .err e

theorem Outcome.noErr_errless (x : Outcome ε α) : (x.noErr : Outcome ε' α).Errless := by
  cases x <;> exact fun e h => by cases h

theorem Outcome.Errless.bind {x : Outcome ε α} {f : α → Outcome ε β} (hx : x.Errless)
    (hf : ∀ a, (f a).Errless) : (x >>= f).Errless := by
  cases x with
  | ok a => exact hf a
  | err e => exact absurd rfl (hx e)
  | panic => exact fun e h => by cases h

theorem Outcome.collect_errless {f : α → Outcome ε β} (hf : ∀ a, (f a).Errless) (as : List α) :
    (Outcome.collect f as).Errless := by
  induction as with
  | nil => exact fun e h => by cases h
  | cons a as ih => exact (hf a).bind fun _ => ih.bind fun _ => fun e h => by cases h

end Calls

theorem anyDetector_errless (sliceBytes : Bytes) : (anyDetector sliceBytes).Errless := by
  have hufs : (ufsDetector sliceBytes).Errless := by
    unfold ufsDetector
    cases detectUfsAtStart sliceBytes 0 with
    | none => exact fun e h => by cases h
    | some ufs => exact (Outcome.noErr_errless _).bind fun _ => fun e h => by cases h
  refine hufs.bind fun found => ?_
  cases found with
  | some detected => exact fun e h => by cases h
  | none =>
    change (bfsDetector sliceBytes).Errless
    unfold bfsDetector
    cases BootFs.detectAtStart sliceBytes 0 <;> exact fun e h => by cases h

/-- Probing either ends in the report or panics. -/
theorem inspectWith_cases {disk : Bytes} {report : DiskImageReport}
    (h : inspectDiskImage disk = .ok report) :
    (∃ slices, inspectWith anyDetector disk = .ok ⟨report, slices⟩) ∨
      inspectWith anyDetector disk = .panic := by
  have hprobe : ∀ slice, (probeSlice anyDetector disk slice).Errless := by
    intro slice
    unfold probeSlice
    dsimp only
    split_ifs
    · exact fun e h => by cases h
    · exact (anyDetector_errless _).bind fun _ => fun e h => by cases h
  have hall := Outcome.collect_errless hprobe report.sliceFilesystems
  unfold inspectWith
  rw [h, Outcome.mapErr, Outcome.ok_bind]
  cases hc : Outcome.collect (probeSlice anyDetector disk) report.sliceFilesystems with
  | ok slices => exact .inl ⟨slices, rfl⟩
  | err e => exact absurd hc (hall e)
  | panic => exact .inr rfl

/-! ## Formatting a slice -/

theorem Outcome.bind_ne_panic {ε α β : Type} {x : Outcome ε α} {f : α → Outcome ε β}
    (hx : x ≠ .panic) (hf : ∀ a, f a ≠ .panic) : (x >>= f) ≠ .panic := by
  cases x with
  | ok a => exact hf a
  | err e => exact fun h => by cases h
  | panic => exact absurd rfl hx

/-- The layout is computed or refused. -/
theorem formatLayout_ne_panic (len fsStart size : ℕ) (opts : FormatOptions) :
    formatLayout len fsStart size opts ≠ .panic := by
  have hshift : ∀ v, powerOfTwoShift v ≠ .panic := by
    intro v
    unfold powerOfTwoShift
    split_ifs <;> exact fun h => by cases h
  have hcylinders : ∀ blockSize total, formatCylinders blockSize total opts.tracksPerCylinder
      opts.sectorsPerTrack ≠ .panic := by
    intro blockSize total
    unfold formatCylinders
    split
    · dsimp only
      split_ifs <;> exact fun h => by cases h
    · exact fun h => by cases h
  have hinodes : ∀ imageSize blockSize groups fragments inodeBlock,
      computeInodeBlockCount imageSize blockSize groups fragments inodeBlock opts.bytesPerInode ≠
        .panic := by
    intro imageSize blockSize groups fragments inodeBlock
    unfold computeInodeBlockCount
    dsimp only
    split_ifs <;> exact fun h => by cases h
  unfold formatLayout
  dsimp only
  split_ifs <;> try exact fun h => by cases h
  refine Outcome.bind_ne_panic (hshift _) fun _ => Outcome.bind_ne_panic (hshift _) fun _ =>
    Outcome.bind_ne_panic (hshift _) fun _ => Outcome.bind_ne_panic (hshift _) fun _ =>
    Outcome.bind_ne_panic (hcylinders _ _) fun _ => Outcome.bind_ne_panic (hinodes _ _ _ _ _) fun _ => ?_
  split_ifs <;> first
    | exact fun h => by cases h
    | exact Outcome.bind_ne_panic (hshift _) fun _ h => by cases h

theorem Bytes.overlay_whole {b src : Bytes} (h : src.length = b.length) : b.overlay 0 src = src := by
  rw [Bytes.overlay, List.take_zero, List.nil_append, Nat.zero_add, h, List.drop_length, List.append_nil]

section Slice
variable {disk : Bytes} {off size : ℕ} {opts : FormatOptions}

/-- A slice as the bytes between those before and those behind it. -/
theorem Placed.of_slice (h : off + size ≤ disk.length) :
    Placed (disk.take off) (disk.drop (off + size)) size disk (disk.slice off size) := by
  refine ⟨?_, Bytes.slice_length h⟩
  rw [Bytes.slice, List.append_assoc, ← List.drop_drop, List.take_append_drop, List.take_append_drop]

/-- The formatter refuses and writes nothing, or it makes of the slice in its place what it makes of it
alone. -/
theorem format_slice (h : off + size ≤ disk.length) (hsize : size < 2 ^ 41)
    (htracks : opts.tracksPerCylinder.isSome = true)
    (hlast : ∀ l, formatLayout size 0 size opts = .ok l → (l.superblock opts).LastGroupHolds) :
    (∃ e, formatLayout size 0 size opts = .err e ∧ format off size opts disk = (.err e, disk) ∧
      format 0 size opts (disk.slice off size) = (.err e, disk.slice off size)) ∨
    ∃ l part, formatLayout size 0 size opts = .ok l ∧ part.length = size ∧
      format 0 size opts (disk.slice off size) =
        (.ok ⟨0, ufsSbOffset, l.superblock opts⟩, part) ∧
      format off size opts disk =
        (.ok ⟨off, off + ufsSbOffset, l.superblock opts⟩, disk.overlay off part) := by
  have hp := Placed.of_slice h
  have hpre : (disk.take off).length = off := List.length_take_of_le (by omega)
  have hwhole : formatLayout disk.length off size opts = formatLayout size 0 size opts :=
    formatLayout_inside h (Nat.zero_add size).le
  cases hl : formatLayout size 0 size opts with
  | panic => exact absurd hl (formatLayout_ne_panic _ _ _ _)
  | err e =>
    refine .inl ⟨e, rfl, ?_, ?_⟩
    · refine Act.err_bind ?_
      rw [Act.read, hwhole, hl]
    · refine Act.err_bind ?_
      rw [Act.read, hp.length, hl]
  | ok l =>
    refine .inr ?_
    obtain ⟨fr, sh, count, hc⟩ := formatLayout_checked hl
    obtain ⟨-, -, -, hcyl⟩ := formatCylinders_facts hc.cylinders
    have hsized : l.Sized opts := by
      refine ⟨?_, ?_⟩
      · have htotal := hc.whole
        omega
      · rw [hc.blockSize]
        exact hcyl ⟨htracks, hc.together ▸ htracks⟩
    have hl' : formatLayout (disk.slice off size).length 0 size opts = .ok l := by
      rw [hp.length]
      exact hl
    obtain ⟨whole', part, hrun, halone, hp'⟩ := format_placed hp hl' hsized (hlast l hl) rfl
    refine ⟨l, part, rfl, hp'.length, ?_, ?_⟩
    · rw [halone, Nat.zero_add]
    · rw [hpre, Nat.add_zero] at hrun
      rw [hrun, hp'.eq, Bytes.overlay, hp'.length, Ufs.behind, hpre, Nat.add_zero, Nat.zero_add]

end Slice

/-! ## Where the slices lie -/
namespace DiskPlan
variable {plan : DiskPlan} {base disk part : Bytes} {state : SliceDisk} {p q : VtocPartition}

namespace Lays

/-- A slice is behind the first sector, and before or behind the head of the partition. -/
theorem bounds (h : plan.Lays base) (hp : p ∈ plan.slices) :
    sectorSize ≤ p.offset ∧ 0 < p.size ∧ p.size < 2 ^ 41 ∧
      (p.offset + p.size ≤ plan.start ∨ plan.start + 34 * sectorSize ≤ p.offset) := by
  obtain ⟨hstart, hcount, hsmall⟩ := h.nonempty p hp
  have hclear := h.clear p hp
  rw [headSectors_eq, VtocPartition.sectors, Set.Ico_disjoint_Ico] at hclear
  simp only [VtocPartition.offset, VtocPartition.size, start, sectorSize]
  omega

theorem apart_bytes (h : plan.Lays base) (hp : p ∈ plan.slices) (hq : q ∈ plan.slices) (hne : q ≠ p) :
    q.offset + q.size ≤ p.offset ∨ p.offset + p.size ≤ q.offset := by
  obtain ⟨hstart, hcount, -⟩ := h.nonempty p hp
  obtain ⟨hstart', hcount', -⟩ := h.nonempty q hq
  have hdisj := h.apart q hq p hp hne
  rw [VtocPartition.sectors, VtocPartition.sectors, Set.Ico_disjoint_Ico] at hdisj
  simp only [VtocPartition.offset, VtocPartition.size, sectorSize]
  omega

theorem start_ge (h : plan.Lays base) : sectorSize ≤ plan.start := by
  have hone := h.behindMbr
  simp only [start, sectorSize]
  omega

end Lays

namespace Shows

/-- The metadata is as it was. -/
theorem metadata (h : plan.Shows base disk state) (hl : plan.Lays base) {i : ℕ}
    (hi : 446 ≤ i ∧ i < sectorSize ∨
      plan.start + bootstrapLimit ≤ i ∧ i < plan.start + 34 * sectorSize) :
    disk.byte i = base.byte i := by
  have hstart := hl.start_ge
  simp only [bootstrapLimit, hdpdloc, sectorSize] at hi hstart
  refine h.rest i (by omega) ?_ fun p hp => ?_
  · simp only [bootBytes, Set.mem_Ico, bootstrapLimit, hdpdloc, sectorSize]
    omega
  · obtain ⟨hbehind, -, -, hclear⟩ := hl.bounds hp
    simp only [sectorSize] at hbehind hclear
    simp only [VtocPartition.bytes, Set.mem_Ico]
    omega

theorem inspects (h : plan.Shows base disk state) (hl : plan.Lays base) :
    inspectDiskImage disk = .ok plan.report := by
  have hslice : ∀ o n, 446 ≤ o ∧ o + n ≤ sectorSize ∨
      plan.start + bootstrapLimit ≤ o ∧ o + n ≤ plan.start + 34 * sectorSize →
        disk.slice o n = base.slice o n :=
    fun o n hon => Bytes.slice_congr h.length fun i hlow hhigh => h.metadata hl (by omega)
  obtain ⟨hvtoc, hvtocEnd⟩ := hl.vtoc
  refine inspectDiskImage_congr hl.inspects h.length (hslice _ _ (.inl (by norm_num))) ?_ ?_
  · intro active hactive
    obtain rfl := Option.some.inj (hl.active.symm.trans hactive)
    refine hslice _ _ (.inr ?_)
    simp only [start, bootstrapLimit, hdpdloc, sectorSize]
    omega
  · intro active hactive pd hpd
    obtain rfl := Option.some.inj (hl.active.symm.trans hactive)
    obtain rfl := Option.some.inj (hl.pdinfo.symm.trans hpd)
    refine hslice _ _ (.inr ?_)
    change _ ≤ plan.start + _ ∧ plan.start + _ + _ ≤ _
    omega

/-- Writing a slice changes that slice. -/
theorem writeSlice (h : plan.Shows base disk state) (hl : plan.Lays base) (hp : p ∈ plan.slices)
    (hlen : part.length = p.size) : plan.Shows base (disk.overlay p.offset part)
      { state with slice := Function.update state.slice p part } := by
  have hin := hl.inside p hp
  have hstart := hl.start_ge
  obtain ⟨hbehind, hpos, -, hclear⟩ := hl.bounds hp
  simp only [sectorSize] at hbehind hclear hstart
  have hroom : p.offset + part.length ≤ disk.length := by
    rw [hlen, h.length]
    exact hin
  refine ⟨?_, ?_, ?_, ?_, ?_⟩
  · rw [Bytes.overlay_length hroom, h.length]
  · rw [Bytes.slice_overlay_disjoint hroom (by omega), h.loader]
  · rw [Bytes.slice_overlay_disjoint hroom, h.bootstrap]
    simp only [bootstrapLimit, hdpdloc, sectorSize]
    omega
  · intro q hq
    by_cases hqp : q = p
    · subst hqp
      dsimp only
      rw [Function.update_self, ← hlen, Bytes.slice_overlay_same hroom]
    · dsimp only
      rw [Function.update_of_ne hqp, Bytes.slice_overlay_disjoint hroom, h.slice q hq]
      have hapart := hl.apart_bytes hp hq hqp
      omega
  · intro i hi hboot hout
    have hoff := hout p hp
    simp only [VtocPartition.bytes, Set.mem_Ico] at hoff
    rw [Bytes.byte_overlay hroom, if_neg (by omega), h.rest i hi hboot hout]

/-- Writing the boot area changes the boot area. -/
theorem writeBoot (h : plan.Shows base disk state) (hl : plan.Lays base) {loader bootstrap : Bytes}
    (hloader : loader.length ≤ 446) (hboot : bootstrap.length = bootstrapLimit) :
    plan.Shows base ((disk.overlay 0 loader).overlay plan.start bootstrap)
      { state with loader := state.loader.overlay 0 loader, bootstrap } := by
  have hstart := hl.start_ge
  have hinside := hl.bootInside
  simp only [bootstrapLimit, hdpdloc, sectorSize] at hstart hinside hboot
  have hlen := h.length
  have hroom₁ : 0 + loader.length ≤ disk.length := by omega
  have hlen₁ := Bytes.overlay_length hroom₁
  have hroom₂ : plan.start + bootstrap.length ≤ (disk.overlay 0 loader).length := by omega
  refine ⟨?_, ?_, ?_, ?_, ?_⟩
  · rw [Bytes.overlay_length hroom₂, hlen₁, hlen]
  · rw [Bytes.slice_overlay_disjoint hroom₂ (by omega),
      Bytes.slice_overlay_around (by omega) le_rfl (by omega), h.loader]
  · have hsame := Bytes.slice_overlay_same hroom₂
    rwa [hboot] at hsame
  · intro q hq
    obtain ⟨hbehind, -, -, hclear⟩ := hl.bounds hq
    simp only [sectorSize] at hbehind hclear
    rw [Bytes.slice_overlay_disjoint hroom₂ (by omega),
      Bytes.slice_overlay_disjoint hroom₁ (by omega), h.slice q hq]
  · intro i hi hout hslices
    have hnot := hout
    simp only [bootBytes, Set.mem_Ico, bootstrapLimit, hdpdloc, sectorSize] at hnot
    rw [Bytes.byte_overlay hroom₂, if_neg (by omega), Bytes.byte_overlay hroom₁, if_neg (by omega),
      h.rest i hi hout hslices]

end Shows
end DiskPlan

/-! ## The commands -/

/-- The command names slices of the plan only, and makes no last group that is too short for its own
metadata. -/
def ToolCommand.Stays (plan : DiskPlan) : ToolCommand → Prop
  | .formatUfs selector blockSize bytesPerInode timestamp => ∀ p,
      getVtocPartitionBySelector plan.report selector = .ok p → p.size ≠ 0 → p ∈ plan.slices ∧
        ∀ l, formatLayout p.size 0 p.size (plan.options blockSize bytesPerInode timestamp) = .ok l →
          (l.superblock (plan.options blockSize bytesPerInode timestamp)).LastGroupHolds
  | .formatBfs selector _ _ => ∀ p,
      getVtocPartitionBySelector plan.report selector = .ok p → p.size ≠ 0 → p ∈ plan.slices
  | .installBoot _ => True

/-- On the disk the command panics while it probes, or comes out as on the slices. -/
def ToolCommand.Refines (plan : DiskPlan) (base : Bytes) (c : ToolCommand) (disk : Bytes)
    (state : SliceDisk) : Prop :=
  ∃ o disk' state', c.perform disk = (o, disk') ∧
    (o = .panic ∧ state' = state ∧ inspectWith anyDetector disk = .panic ∨
      c.onSlices plan state = (o, state')) ∧ plan.Shows base disk' state'

section Commands
variable {plan : DiskPlan} {base disk : Bytes} {state : SliceDisk}

/-- A slice of the plan, named and filled anew or left alone. -/
theorem DiskPlan.Shows.onSlice {p : VtocPartition} (hs : plan.Shows base disk state)
    (hl : plan.Lays base) (hp : p ∈ plan.slices) {x : Act ToolError Bytes Unit}
    {o : Outcome ToolError Unit} {part : Bytes} (hx : x (disk.slice p.offset p.size) = (o, part))
    (hlen : part.length = p.size) :
    ∃ state', SliceDisk.onSlice p x state = (o, state') ∧
      plan.Shows base (disk.overlay p.offset part) state' := by
  refine ⟨_, ?_, hs.writeSlice hl hp hlen⟩
  rw [SliceDisk.onSlice, ← hs.slice p hp, hx]

/-- Every command probes the disk first; what it does then has to come out as on the slices. -/
theorem ToolCommand.refines_of_probed {c : ToolCommand} {x : Inspection → Act ToolError Bytes Unit}
    (hl : plan.Lays base) (hs : plan.Shows base disk state)
    (hperform : c.perform = (Act.read (inspectWith anyDetector) >>= x))
    (hrest : ∀ slices, ∃ o disk' state', x ⟨plan.report, slices⟩ disk = (o, disk') ∧
      c.onSlices plan state = (o, state') ∧ plan.Shows base disk' state') :
    c.Refines plan base disk state := by
  unfold ToolCommand.Refines
  rw [hperform]
  obtain ⟨slices, hprobe⟩ | hprobe := inspectWith_cases (hs.inspects hl)
  · obtain ⟨o, disk', state', hx, hdo, hs'⟩ := hrest slices
    exact ⟨o, disk', state', (Act.read_ok_bind hprobe).trans hx, .inr hdo, hs'⟩
  · exact ⟨_, _, state, Act.read_panic_bind hprobe, .inl ⟨rfl, rfl, hprobe⟩, hs⟩

theorem formatUfs_refines {selector : Str} {blockSize bytesPerInode timestamp : ℕ}
    (hl : plan.Lays base) (hs : plan.Shows base disk state)
    (hc : (ToolCommand.formatUfs selector blockSize bytesPerInode timestamp).Stays plan) :
    (ToolCommand.formatUfs selector blockSize bytesPerInode timestamp).Refines plan base disk state := by
  refine ToolCommand.refines_of_probed hl hs rfl fun slices => ?_
  dsimp only [ToolCommand.onSlices]
  cases hsel : getVtocPartitionBySelector plan.report selector with
  | err e => exact ⟨_, _, state, rfl, rfl, hs⟩
  | panic => exact ⟨_, _, state, rfl, rfl, hs⟩
  | ok p =>
    rw [Act.lift_ok_bind, Act.lift_ok_bind, hl.pdinfo]
    dsimp only
    by_cases hzero : p.size = 0
    · rw [if_pos hzero, if_pos hzero]
      exact ⟨_, _, state, rfl, rfl, hs⟩
    rw [if_neg hzero, if_neg hzero]
    obtain ⟨hp, hlast⟩ := hc p hsel hzero
    obtain ⟨-, -, hsmall, -⟩ := hl.bounds hp
    have hin : p.offset + p.size ≤ disk.length := hs.length ▸ hl.inside p hp
    obtain ⟨e, -, hwhole, halone⟩ | ⟨l, part, -, hlen, halone, hwhole⟩ :=
      @format_slice disk p.offset p.size (plan.options blockSize bytesPerInode timestamp) hin hsmall rfl
        hlast
    · obtain ⟨state', hdo, hs'⟩ := hs.onSlice hl hp
        (Act.err_bind (g := fun _ => pure ()) (Act.mapErr_err (f := ToolError.ufs) halone))
        (Bytes.slice_length hin)
      rw [Bytes.overlay_slice_self hin] at hs'
      exact ⟨_, _, state', Act.err_bind (Act.mapErr_err hwhole), hdo, hs'⟩
    · obtain ⟨state', hdo, hs'⟩ := hs.onSlice hl hp
        (Act.bind_of_ok (f := fun _ => pure ()) (Act.mapErr_ok (f := ToolError.ufs) halone)) hlen
      exact ⟨_, _, state', Act.bind_of_ok (Act.mapErr_ok hwhole), hdo, hs'⟩

theorem formatBfs_refines {selector : Str} {files : List (Str × Bytes)} {timestamp : ℤ}
    (hl : plan.Lays base) (hs : plan.Shows base disk state)
    (hc : (ToolCommand.formatBfs selector files timestamp).Stays plan) :
    (ToolCommand.formatBfs selector files timestamp).Refines plan base disk state := by
  refine ToolCommand.refines_of_probed hl hs rfl fun slices => ?_
  dsimp only [ToolCommand.onSlices]
  cases hsel : getVtocPartitionBySelector plan.report selector with
  | err e => exact ⟨_, _, state, rfl, rfl, hs⟩
  | panic => exact ⟨_, _, state, rfl, rfl, hs⟩
  | ok p =>
    rw [Act.lift_ok_bind, Act.lift_ok_bind]
    by_cases hzero : p.size = 0
    · rw [if_pos hzero, if_pos hzero]
      exact ⟨_, _, state, rfl, rfl, hs⟩
    rw [if_neg hzero, if_neg hzero]
    have hp := hc p hsel hzero
    have hin : p.offset + p.size ≤ disk.length := hs.length ▸ hl.inside p hp
    have hlen : (disk.slice p.offset p.size).length = p.size := Bytes.slice_length hin
    have hpart : 0 + p.size ≤ (disk.slice p.offset p.size).length := by omega
    cases hc : BootFs.contents p.size files none timestamp with
    | ok part =>
      have hlen' := BootFs.contents_length hc
      have halone := BootFs.format_ok hpart hc
      rw [Bytes.overlay_whole (hlen'.trans hlen.symm)] at halone
      obtain ⟨state', hdo, hs'⟩ := hs.onSlice hl hp (Act.mapErr_ok (f := ToolError.bfs) halone) hlen'
      exact ⟨_, _, state', Act.mapErr_ok (BootFs.format_ok hin hc), hdo, hs'⟩
    | err e =>
      obtain ⟨state', hdo, hs'⟩ := hs.onSlice hl hp
        (Act.mapErr_err (f := ToolError.bfs) (BootFs.format_err hpart hc)) hlen
      rw [Bytes.overlay_slice_self hin] at hs'
      exact ⟨_, _, state', Act.mapErr_err (BootFs.format_err hin hc), hdo, hs'⟩
    | panic =>
      obtain ⟨state', hdo, hs'⟩ := hs.onSlice hl hp
        (Act.mapErr_panic (f := ToolError.bfs) (BootFs.format_panic hpart hc)) hlen
      rw [Bytes.overlay_slice_self hin] at hs'
      exact ⟨_, _, state', Act.mapErr_panic (BootFs.format_panic hin hc), hdo, hs'⟩

theorem copyInto_ok {off : ℕ} {src buf : Bytes} (h : off + src.length ≤ buf.length) :
    copyInto off src buf = (.ok (), buf.overlay off src) := by
  refine Act.update_eq_ok.mpr ?_
  rw [Outcome.guard_true h]
  rfl

theorem installBoot_refines {hdboot : Bytes} (hl : plan.Lays base) (hs : plan.Shows base disk state) :
    (ToolCommand.installBoot hdboot).Refines plan base disk state := by
  refine ToolCommand.refines_of_probed hl hs rfl fun slices => ?_
  dsimp only [ToolCommand.onSlices]
  rw [hl.active]
  dsimp only
  by_cases hboot : Bootable hdboot
  swap
  · obtain ⟨e, he⟩ := flattenHdbootBootstrap_err hboot
    rw [he]
    exact ⟨_, _, state, rfl, rfl, hs⟩
  obtain ⟨bootstrap, hflat, hlength, -⟩ := flattenHdbootBootstrap_ok hboot
  rw [hflat]
  have hstart := hl.start_ge
  have hinside := hl.bootInside
  have hlen := hs.length
  have hcode := activePartitionChainloaderMbr_length
  rw [Outcome.mapErr, Act.lift_ok_bind, Act.lift_ok_bind]
  simp only [sectorSize] at hstart
  have hfirst := @copyInto_ok 0 activePartitionChainloaderMbr disk (by omega)
  have hlen' : (disk.overlay 0 activePartitionChainloaderMbr).length = disk.length :=
    Bytes.overlay_length (by omega)
  have hfits : ¬plan.active.startLba * sectorSize + bootstrap.length >
      (disk.overlay 0 activePartitionChainloaderMbr).length := by
    rw [hlen', hlen, hlength]
    exact Nat.not_lt.mpr hinside
  have hshown := @DiskPlan.Shows.writeBoot plan base disk state hs hl activePartitionChainloaderMbr
    bootstrap (by omega) hlength
  refine ⟨_, _, _, ?_, rfl, hshown⟩
  rw [Act.bind_of_ok hfirst]
  refine (Act.read_ok_bind (f := fun buf : Bytes => .ok buf.length) rfl).trans ?_
  rw [if_neg hfits]
  exact copyInto_ok (Nat.not_lt.mp hfits)

theorem ToolCommand.refines {c : ToolCommand} (hl : plan.Lays base) (hs : plan.Shows base disk state)
    (hc : c.Stays plan) : c.Refines plan base disk state := by
  cases c with
  | formatUfs => exact formatUfs_refines hl hs hc
  | formatBfs => exact formatBfs_refines hl hs hc
  | installBoot => exact installBoot_refines hl hs

end Commands

/-! ## Runs of commands -/

/-- A command that stays within the plan, with what came out. -/
def ToolCommand.Does (plan : DiskPlan) (c : ToolCommand) (disk : Bytes)
    (o : Outcome ToolError Unit) (disk' : Bytes) : Prop :=
  c.Stays plan ∧ c.perform disk = (o, disk')

/-- The same on the slices; a command that panics while it probes does nothing. -/
def ToolCommand.DoesOnSlices (plan : DiskPlan) (c : ToolCommand) (state : SliceDisk)
    (o : Outcome ToolError Unit) (state' : SliceDisk) : Prop :=
  o = .panic ∧ state' = state ∨ c.onSlices plan state = (o, state')

/-- The slice that a command names. -/
def ToolCommand.named (plan : DiskPlan) : ToolCommand → Outcome ToolError VtocPartition
  | .formatUfs selector _ _ _ => getVtocPartitionBySelector plan.report selector
  | .formatBfs selector _ _ => getVtocPartitionBySelector plan.report selector
  | .installBoot _ => .err .noVtoc

/-- The slices that a disk shows. -/
def DiskPlan.state (plan : DiskPlan) (disk : Bytes) : SliceDisk :=
  ⟨disk.slice 0 446, disk.slice plan.start bootstrapLimit, fun p => disk.slice p.offset p.size⟩

theorem DiskPlan.shows_state (plan : DiskPlan) (disk : Bytes) :
    plan.Shows disk disk (plan.state disk) :=
  ⟨rfl, rfl, rfl, fun _ _ => rfl, fun _ _ _ _ => rfl⟩

section Runs
variable {plan : DiskPlan} {base disk : Bytes} {state state' : SliceDisk} {c : ToolCommand}
  {o : Outcome ToolError Unit} {p : VtocPartition}

/-- A disk that shows slices of a plan is laid out after the plan. -/
theorem DiskPlan.Shows.lays (hs : plan.Shows base disk state) (hl : plan.Lays base) :
    plan.Lays disk :=
  { hl with
    inspects := hs.inspects hl
    bootInside := hs.length ▸ hl.bootInside
    inside := fun p hp => hs.length ▸ hl.inside p hp }

theorem SliceDisk.onSlice_other {ε α : Type} {q : VtocPartition} {x : Act ε Bytes α}
    (hne : p ≠ q) (state : SliceDisk) : (SliceDisk.onSlice q x state).2.slice p = state.slice p :=
  Function.update_of_ne hne _ _

/-- Selecting another slice. -/
theorem SliceDisk.onSelected_other {selected : Outcome ToolError VtocPartition} {e : ToolError}
    {x : VtocPartition → Act ToolError Bytes Unit} (hother : selected ≠ .ok p) (state : SliceDisk) :
    ((do
      let q ← Act.lift selected
      if q.size = 0 then Act.fail e else SliceDisk.onSlice q (x q) :
        Act ToolError SliceDisk Unit) state).2.slice p = state.slice p := by
  cases selected with
  | err e => rfl
  | panic => rfl
  | ok q =>
    rw [Act.lift_ok_bind]
    by_cases hzero : q.size = 0
    · rw [if_pos hzero]
      rfl
    · rw [if_neg hzero]
      exact SliceDisk.onSlice_other (fun heq : p = q => hother (congrArg _ heq.symm)) state

/-- A command works on the slice that it names. -/
theorem ToolCommand.onSlices_keeps (hdo : c.onSlices plan state = (o, state'))
    (hother : c.named plan ≠ .ok p) : state'.slice p = state.slice p := by
  have hstate : state' = (c.onSlices plan state).2 := by rw [hdo]
  subst hstate
  cases c with
  | formatUfs selector blockSize bytesPerInode timestamp => exact SliceDisk.onSelected_other hother state
  | formatBfs selector files timestamp => exact SliceDisk.onSelected_other hother state
  | installBoot hdboot =>
    dsimp only [onSlices]
    cases (flattenHdbootBootstrap hdboot).mapErr ToolError.bootstrap with
    | ok bootstrap => rfl
    | err e => rfl
    | panic => rfl

/-- Slices that no command of a run names keep their bytes. -/
theorem ToolCommand.run_keeps {cs : List (ToolCommand × Outcome ToolError Unit)}
    (h : StepRun (ToolCommand.DoesOnSlices plan) state cs state')
    (hother : ∀ c ∈ cs, c.1.named plan ≠ .ok p) : state'.slice p = state.slice p := by
  have hkeeps := @StepRun.keeps _ _ _ _ _ _ _
    (fun done s => (∀ c ∈ done, c.1.named plan ≠ .ok p) → s.slice p = state.slice p)
    (fun done c o s t hdone hdo hall => by
      rw [List.forall_mem_append, List.forall_mem_singleton] at hall
      obtain ⟨-, rfl⟩ | hdo := hdo
      · exact hdone hall.1
      · exact (ToolCommand.onSlices_keeps hdo hall.2).trans (hdone hall.1)) h [] fun _ => rfl
  exact hkeeps hother

/-- Any run of commands on a disk is, with the same outcomes, a run on its slices one by one. The disk
shows where it ends, the metadata is as before, and so is every slice that no command names. -/
theorem tool_refines {disk' : Bytes} {cs : List (ToolCommand × Outcome ToolError Unit)}
    (hl : plan.Lays disk) (h : StepRun (ToolCommand.Does plan) disk cs disk') :
    ∃ state, StepRun (ToolCommand.DoesOnSlices plan) (plan.state disk) cs state ∧
      plan.Shows disk disk' state ∧ plan.Lays disk' ∧
      ∀ p ∈ plan.slices, (∀ c ∈ cs, c.1.named plan ≠ .ok p) →
        disk'.slice p.offset p.size = disk.slice p.offset p.size := by
  have hstep : ∀ c s o s' t, ToolCommand.Does plan c s o s' → plan.Shows disk s t →
      ∃ t', ToolCommand.DoesOnSlices plan c t o t' ∧ plan.Shows disk s' t' := by
    rintro c s o s' t ⟨hstays, hdo⟩ hs
    obtain ⟨o', disk', t', hdo', halso, hs'⟩ := ToolCommand.refines hl hs hstays
    obtain ⟨rfl, rfl⟩ := Prod.mk.inj (hdo.symm.trans hdo')
    exact ⟨t', halso.imp (fun hpanic => ⟨hpanic.1, hpanic.2.1⟩) id, hs'⟩
  obtain ⟨state, hrun, hs⟩ := h.simulates hstep (plan.state disk) (plan.shows_state disk)
  refine ⟨state, hrun, hs, hs.lays hl, fun p hp hother => ?_⟩
  rw [hs.slice p hp, ToolCommand.run_keeps hrun hother]
  rfl

/-- The layout of a file system in the root slice of the default disk. -/
def defaultRootLayout : Layout where
  cyl := ⟨16, 63, 492, 32, 16, 32256⟩
  totalFragments := 495936
  fragmentsPerBlock := 16
  fragshift := 4
  fsbtodb := 0
  bshift := 13
  fshift := 9
  summaryFragNumber := 64
  summaryAreaBytes := 512
  cylinderGroupFragNumber := 80
  inodeFragNumber := 96
  dataFragNumber := 592
  inodesPerBlock := 64
  inodesPerGroup := 1984
  csshift := 9
  csmask := 4294966784

/-- The root slice of the default disk. -/
def defaultRoot : VtocPartition := ⟨1, 2, 0x200, 168336, 495936⟩

theorem defaultRoot_layout (hplan : plan.Created ⟨659, 16, 63⟩ defaultLayout disk) :
    formatLayout defaultRoot.size 0 defaultRoot.size (plan.options 8192 8192 0) =
      .ok defaultRootLayout := by
  obtain ⟨htracks, hsectors⟩ := hplan.geometry
  have hroot : formatLayout 253919232 0 253919232 ⟨0, 8192, 8192, some 16, some 63⟩ =
      .ok defaultRootLayout := by decide +kernel
  rw [DiskPlan.options, htracks, hsectors]
  exact hroot

theorem defaultRoot_stays (hplan : plan.Created ⟨659, 16, 63⟩ defaultLayout disk) :
    (ToolCommand.formatUfs [0x72, 0x6F, 0x6F, 0x74] 8192 8192 0).Stays plan := by
  intro p hsel hsize
  have hroot := defaultRoot_layout hplan
  rw [(defaultLayout_selects hplan).1] at hsel
  obtain rfl := Outcome.ok.inj hsel
  refine ⟨?_, fun l hl => ?_⟩
  · rw [hplan.own]
    decide +kernel
  · obtain ⟨htracks, hsectors⟩ := hplan.geometry
    obtain rfl := Outcome.ok.inj (hl.symm.trans hroot)
    rw [DiskPlan.options, htracks, hsectors]
    decide +kernel

/-- The default disk: its root is formatted, then a bootstrap is refused. -/
theorem tool_refines_default : ∃ disk disk' plan o o' state,
    createLayout none 659 16 63 ⟨64, 16, 64, 2048⟩ [] diskAddressingChs [] = (.ok defaultLayout, disk) ∧
      StepRun (ToolCommand.Does plan) disk
        [(.formatUfs [0x72, 0x6F, 0x6F, 0x74] 8192 8192 0, o), (.installBoot [], o')] disk' ∧
      plan.Shows disk disk' state ∧
      disk'.slice (1008 * 512) (33264 * 512) = disk.slice (1008 * 512) (33264 * 512) := by
  obtain ⟨disk, plan, hcreate, hplan⟩ := defaultLayout_created
  have hrun : StepRun (ToolCommand.Does plan) disk
      [(.formatUfs [0x72, 0x6F, 0x6F, 0x74] 8192 8192 0, _), (.installBoot [], _)] _ :=
    .cons ⟨defaultRoot_stays hplan, rfl⟩ (.cons ⟨trivial, rfl⟩ (.nil _))
  obtain ⟨state, -, hs, -, hkeeps⟩ := tool_refines hplan.toLays hrun
  have hstand := hkeeps ⟨10, 9, 0x200, 1008, 33264⟩ (by rw [hplan.own]; decide +kernel) (by
    simp only [List.forall_mem_cons, List.not_mem_nil, IsEmpty.forall_iff, implies_true, and_true,
      ToolCommand.named, (defaultLayout_selects hplan).1]
    decide)
  exact ⟨disk, _, plan, _, _, state, hcreate, hrun, hs, hstand⟩

end Runs
end UfsFuse
