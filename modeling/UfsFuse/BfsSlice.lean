import UfsFuse.BfsRoundTrip

/-!
# A boot file system in its slice

The formatter builds the whole slice in a buffer of its own, which does not depend on where the slice
lies or on what was there. `contents` is that buffer.
-/
namespace UfsFuse

theorem Act.update_congr {ε σ : Type} {f g : σ → Outcome ε σ} {s : σ} (h : f s = g s) :
    update f s = update g s := by
  unfold update
  rw [h]

theorem Act.update_err {ε σ : Type} {f : σ → Outcome ε σ} {s : σ} {e : ε} (h : f s = .err e) :
    update f s = (.err e, s) := by
  rw [update, h]

theorem Act.update_panic {ε σ : Type} {f : σ → Outcome ε σ} {s : σ} (h : f s = .panic) :
    update f s = (.panic, s) := by
  rw [update, h]

namespace BootFs

variable {fsStart sizeBytes : ℕ} {files : List (Str × Bytes)} {direntSlots : Option ℕ} {timestamp : ℤ}
variable {image img buf buf' src : Bytes} {off : ℕ}

/-- Where the data area begins: behind the superblock and the inode table. -/
def dataStartOf (files : List (Str × Bytes)) (direntSlots : Option ℕ) : ℕ :=
  let requiredSlots := files.length + 1
  let totalSlots := max requiredSlots (direntSlots.getD (max 16 requiredSlots))
  roundUp (bfsSuperSize + totalSlots * bfsDirentSize) sectorSize

/-- The sectors of the root directory, in bytes. -/
def rootAllocOf (files : List (Str × Bytes)) : ℕ :=
  max sectorSize (roundUp (max (files.length * bfsLdirSize) 1) sectorSize)

theorem dataStartOf_spec (files : List (Str × Bytes)) (direntSlots : Option ℕ) :
    bfsSuperSize + (files.length + 1) * bfsDirentSize ≤ dataStartOf files direntSlots ∧
      bfsSuperSize + sectorSize ≤ dataStartOf files direntSlots ∧
      sectorSize ∣ dataStartOf files direntSlots := by
  unfold dataStartOf
  dsimp only
  have hslots := le_max_left (files.length + 1) (direntSlots.getD (max 16 (files.length + 1)))
  generalize max (files.length + 1) (direntSlots.getD (max 16 (files.length + 1))) = slots at hslots ⊢
  obtain ⟨hge, hdvd, -⟩ := @roundUp_spec (bfsSuperSize + slots * bfsDirentSize)
    (by simp only [bfsSuperSize]; omega)
  generalize roundUp (bfsSuperSize + slots * bfsDirentSize) sectorSize = start at hge hdvd ⊢
  have hmul := Nat.mul_le_mul_right bfsDirentSize hslots
  refine ⟨by omega, ?_, hdvd⟩
  -- a multiple of the sector that is past the first sector
  obtain ⟨k, rfl⟩ := hdvd
  simp only [bfsSuperSize, bfsDirentSize, sectorSize] at hge hmul ⊢
  omega

theorem rootAllocOf_spec (files : List (Str × Bytes)) :
    files.length * bfsLdirSize ≤ rootAllocOf files ∧ 0 < rootAllocOf files ∧
      sectorSize ∣ rootAllocOf files := by
  obtain ⟨hge, hdvd, -⟩ := @roundUp_spec (max (files.length * bfsLdirSize) 1) (by omega)
  unfold rootAllocOf
  generalize roundUp (max (files.length * bfsLdirSize) 1) sectorSize = size at hge hdvd ⊢
  refine ⟨by omega, by simp only [sectorSize]; omega, ?_⟩
  obtain h | h := max_choice sectorSize size
  · rw [h]
  · rw [h]
    exact hdvd

/-- The bytes of a slice of that size with these files. -/
def contents (sizeBytes : ℕ) (files : List (Str × Bytes)) (direntSlots : Option ℕ) (timestamp : ℤ) :
    Outcome BfsError Bytes :=
  if sizeBytes < bfsSuperSize + sectorSize then .err .tooSmall
  else do
    checkNames [] files
    let dataStart := dataStartOf files direntSlots
    if dataStart + rootAllocOf files > sizeBytes then .err .tableTooLarge
    else do
      let layouts ← layoutFiles sizeBytes 0 (dataStart + rootAllocOf files) files
      let image ← writeSuper sizeBytes dataStart (files.length * bfsLdirSize) (rootAllocOf files)
        timestamp
      writeFiles timestamp 0 dataStart layouts image

/-- Formatting puts the contents into the slice, or leaves the image alone. -/
theorem format_eq (h : fsStart + sizeBytes ≤ image.length) :
    format fsStart sizeBytes files direntSlots timestamp image =
      Act.update (fun out => do
        let slice ← contents sizeBytes files direntSlots timestamp
        pure (out.overlay fsStart slice)) image := by
  unfold format contents
  by_cases hsmall : sizeBytes < bfsSuperSize + sectorSize
  · rw [if_pos hsmall, if_pos hsmall]
    rfl
  rw [if_neg hsmall, if_neg hsmall]
  cases checkNames [] files with
  | err e => rfl
  | panic => rfl
  | ok _ =>
    rw [Act.lift_ok_bind, Outcome.ok_bind]
    dsimp only
    have hstart : roundUp (bfsSuperSize + max (files.length + 1)
      (direntSlots.getD (max 16 (files.length + 1))) * bfsDirentSize) sectorSize =
        dataStartOf files direntSlots := rfl
    have halloc : max sectorSize (roundUp (max (files.length * bfsLdirSize) 1) sectorSize) =
        rootAllocOf files := rfl
    rw [hstart, halloc]
    by_cases hbig : dataStartOf files direntSlots + rootAllocOf files > sizeBytes
    · rw [if_pos hbig, if_pos hbig]
      rfl
    rw [if_neg hbig, if_neg hbig]
    cases layoutFiles sizeBytes 0 (dataStartOf files direntSlots + rootAllocOf files) files with
    | err e => rfl
    | panic => rfl
    | ok layouts =>
      rw [Act.lift_ok_bind, Outcome.ok_bind]
      refine Act.update_congr ?_
      rw [Outcome.guard_true h, Outcome.ok_bind]
      cases writeSuper sizeBytes (dataStartOf files direntSlots) (files.length * bfsLdirSize)
        (rootAllocOf files) timestamp <;> rfl

theorem format_ok (h : fsStart + sizeBytes ≤ image.length)
    (hc : contents sizeBytes files direntSlots timestamp = .ok img) :
    format fsStart sizeBytes files direntSlots timestamp image = (.ok (), image.overlay fsStart img) := by
  rw [format_eq h, Act.update_eq_ok, hc]
  rfl

theorem format_err {e : BfsError} (h : fsStart + sizeBytes ≤ image.length)
    (hc : contents sizeBytes files direntSlots timestamp = .err e) :
    format fsStart sizeBytes files direntSlots timestamp image = (.err e, image) := by
  rw [format_eq h, Act.update_err]
  rw [hc]
  rfl

theorem format_panic (h : fsStart + sizeBytes ≤ image.length)
    (hc : contents sizeBytes files direntSlots timestamp = .panic) :
    format fsStart sizeBytes files direntSlots timestamp image = (.panic, image) := by
  rw [format_eq h, Act.update_panic]
  rw [hc]
  rfl

/-! ## The length of the contents -/

theorem put_length (h : put buf off src = .ok buf') : buf'.length = buf.length := by
  obtain ⟨_, hguard, hput⟩ := Outcome.bind_eq_ok.mp h
  rw [← Outcome.ok.inj hput]
  exact Bytes.overlay_length (Outcome.guard_eq_ok.mp hguard)

theorem putAll_length (fields : List (ℕ × Bytes)) : ∀ {buf : Bytes}, putAll fields buf = .ok buf' →
    buf'.length = buf.length := by
  induction fields with
  | nil =>
    intro buf h
    rw [Outcome.ok.inj h]
  | cons f rest ih =>
    intro buf h
    obtain ⟨b, hput, hrest⟩ := Outcome.bind_eq_ok.mp h
    exact (ih hrest).trans (put_length hput)

theorem writeFile_length {index directoryOffset : ℕ} {layout : Layout}
    (h : writeFile timestamp buf index directoryOffset layout = .ok buf') :
    buf'.length = buf.length := by
  unfold writeFile at h
  dsimp only at h
  split_ifs at h with hdata
  · obtain ⟨b, hdirent, hentry⟩ := Outcome.bind_eq_ok.mp h
    exact (putAll_length _ hentry).trans (putAll_length _ hdirent)
  · obtain ⟨b, hput, h⟩ := Outcome.bind_eq_ok.mp h
    obtain ⟨c, hdirent, hentry⟩ := Outcome.bind_eq_ok.mp h
    exact (putAll_length _ hentry).trans ((putAll_length _ hdirent).trans (put_length hput))

theorem writeFiles_length (layouts : List Layout) : ∀ {index directoryOffset : ℕ} {buf : Bytes},
    writeFiles timestamp index directoryOffset layouts buf = .ok buf' → buf'.length = buf.length := by
  induction layouts with
  | nil =>
    intro _ _ buf h
    rw [Outcome.ok.inj h]
  | cons layout rest ih =>
    intro _ _ buf h
    obtain ⟨b, hfile, hrest⟩ := Outcome.bind_eq_ok.mp h
    exact (ih hrest).trans (writeFile_length hfile)

theorem writeSuper_length {dataStart rootDirBytes rootDirAlloc : ℕ}
    (h : writeSuper sizeBytes dataStart rootDirBytes rootDirAlloc timestamp = .ok buf') :
    buf'.length = sizeBytes := by
  obtain ⟨b, hsuper, hroot⟩ := Outcome.bind_eq_ok.mp h
  exact (putAll_length _ hroot).trans ((putAll_length _ hsuper).trans (Bytes.zeros_length _))

theorem contents_length (h : contents sizeBytes files direntSlots timestamp = .ok img) :
    img.length = sizeBytes := by
  unfold contents at h
  split_ifs at h
  obtain ⟨_, -, h⟩ := Outcome.bind_eq_ok.mp h
  dsimp only at h
  split_ifs at h
  obtain ⟨layouts, -, h⟩ := Outcome.bind_eq_ok.mp h
  obtain ⟨b, hsuper, hfiles⟩ := Outcome.bind_eq_ok.mp h
  exact (writeFiles_length _ hfiles).trans (writeSuper_length hsuper)

/-! ## What the readers find -/

/-- The files, in their order and with their data, and no others. -/
structure Holds (out : Bytes) (bfs : Bfs) (files : List (Str × Bytes)) : Prop where
  listRoot : listRoot out bfs = files.zipIdx.map listed
  readFile : ∀ f ∈ files, readFile out bfs f.1 = some f.2
  others : ∀ name, name ∉ files.map Prod.fst → BootFs.readFile out bfs name = none

/-- The formatter refuses, or the readers find the files wherever the contents are. -/
theorem contents_shown (hsize : sizeBytes ≤ 2 ^ 32) (hcount : files.length ≤ 65533)
    (hnul : ∀ f ∈ files, 0 ∉ f.1) :
    (∃ e, contents sizeBytes files direntSlots timestamp = .err e) ∨
      ∃ img dataStart, contents sizeBytes files direntSlots timestamp = .ok img ∧
        ∀ out fsStart, Shows out img fsStart →
          detectAtStart out fsStart = some ⟨fsStart, dataStart, sizeBytes - 1⟩ ∧
            Holds out ⟨fsStart, dataStart, sizeBytes - 1⟩ files := by
  unfold contents
  by_cases hsmall : sizeBytes < bfsSuperSize + sectorSize
  · rw [if_pos hsmall]
    exact .inl ⟨_, rfl⟩
  rw [if_neg hsmall]
  obtain ⟨hok, hgood, hnodup, -⟩ | ⟨e, he⟩ := @checkNames_eq files []
  swap
  · rw [he]
    exact .inl ⟨e, rfl⟩
  rw [hok, Outcome.ok_bind]
  dsimp only
  by_cases hbig : dataStartOf files direntSlots + rootAllocOf files > sizeBytes
  · rw [if_pos hbig]
    exact .inl ⟨_, rfl⟩
  rw [if_neg hbig]
  obtain ⟨htable, hds, hdvd⟩ := dataStartOf_spec files direntSlots
  obtain ⟨hdir, hpos, hadvd⟩ := rootAllocOf_spec files
  obtain ⟨hlay, hfits⟩ | ⟨e, he⟩ := @layoutFiles_eq sizeBytes hsize files 0
    (dataStartOf files direntSlots + rootAllocOf files) (by omega) (by omega)
  swap
  · rw [he]
    exact .inl ⟨e, rfl⟩
  obtain ⟨base, extent, hsuper, hbase, hmagic, hstart, hend, hroot, hrootStart, hrootSize⟩ :=
    @writeSuper_eq (dataStartOf files direntSlots) sizeBytes timestamp (files.length * bfsLdirSize)
      (rootAllocOf files) hsize hds hdvd (by omega) hdir hpos
  obtain ⟨img, hfiles, hlen, hkeep, hstored⟩ :=
    @writeFiles_eq (dataStartOf files direntSlots) (dataStartOf files direntSlots + rootAllocOf files)
      sizeBytes timestamp hsize files 0 (dataStartOf files direntSlots)
      (dataStartOf files direntSlots + rootAllocOf files) base hbase (fun f hf => (hgood f hf).short)
      (by omega) (by rw [Nat.zero_add, Nat.add_comm 1]; exact htable) le_rfl (by omega) le_rfl hfits
      (Dvd.dvd.add hdvd hadvd)
  rw [hlay, Outcome.ok_bind, hsuper, Outcome.ok_bind, hfiles]
  have hlength := hlen.trans hbase
  have hword : ∀ o, o + 4 ≤ 512 → img.u32 o = base.u32 o := by
    intro o ho
    rw [Bytes.u32, Bytes.slice_congr hlen fun i _ h2 => hkeep i (.inl ?_), Bytes.u32]
    simp only [bfsSuperSize, bfsDirentSize]
    omega
  have hslot : SlotIs img 0 bfsRootInode extent := hroot.congr hlen fun i _ h2 => hkeep i (.inl h2)
  simp only [bfsSuperSize, bfsDirentSize, sectorSize] at htable hds
  refine .inr ⟨img, dataStartOf files direntSlots, rfl, fun out fsStart hshow => ?_⟩
  have hinside := hshow.inside
  have hread : readInode out ⟨fsStart, dataStartOf files direntSlots, sizeBytes - 1⟩ bfsRootInode =
      some extent :=
    readInode_eq hshow hslot rfl (by simp only [bfsSuperSize, bfsDirentSize]; omega)
  have hlist : listRoot out ⟨fsStart, dataStartOf files direntSlots, sizeBytes - 1⟩ =
      files.zipIdx.map listed := by
    rw [listRoot, hread]
    dsimp only
    rw [hrootStart, hrootSize, Nat.mul_div_cancel _ (by norm_num)]
    refine @listFrom_eq _ img fsStart (dataStartOf files direntSlots) (sizeBytes - 1) hshow files 0 0 ?_
      (fun f hf => ⟨hgood f hf, hnul f hf⟩) ?_ ?_ (by omega)
    · rw [Nat.add_zero]
      exact hstored
    · omega
    · simp only [bfsSuperSize, bfsDirentSize]
      omega
  refine ⟨?_, hlist, ?_, fun name hname => ?_⟩
  · have h0 := hshow.u32 (o := 0) (by omega)
    have h4 := hshow.u32 (o := 4) (by omega)
    have h8 := hshow.u32 (o := 8) (by omega)
    rw [hword 0 (by norm_num), hmagic, Nat.add_zero] at h0
    rw [hword 4 (by norm_num), hstart] at h4
    rw [hword 8 (by norm_num), hend] at h8
    rw [detectAtStart, if_neg (by simp only [bfsSuperSize]; omega), h0, if_neg (by simp)]
    dsimp only
    rw [h4, h8, if_neg (by simp only [bfsSuperSize]; omega)]
  · rintro ⟨name, data⟩ hf
    obtain ⟨k, ext, -, hk, hfile, hfind⟩ := find_stored hstored hnodup hf
    have hinode : readInode out ⟨fsStart, dataStartOf files direntSlots, sizeBytes - 1⟩ (k + 3) =
        some ext := by
      refine readInode_eq hshow hfile.slot_is rfl ?_
      simp only [bfsSuperSize, bfsDirentSize]
      lia
    have hfin := hfile.inside
    rw [BootFs.readFile, hlist, hfind, Option.bind_eq_bind, Option.bind_some]
    dsimp only
    rw [hinode, Option.bind_eq_bind, Option.bind_some, hfile.size_eq, Nat.add_assoc, if_neg (by omega),
      hshow.slice_eq _ _ hfin, hfile.data_eq]
  · rw [BootFs.readFile, hlist, find_listed hname]
    rfl

/-- On the contents alone the detector finds the files in their order. -/
theorem contents_listed (hsize : sizeBytes ≤ 2 ^ 32) (hcount : files.length ≤ 65533)
    (hnul : ∀ f ∈ files, 0 ∉ f.1) :
    (∃ e, contents sizeBytes files direntSlots timestamp = .err e) ∨
      ∃ img bfs, contents sizeBytes files direntSlots timestamp = .ok img ∧ bfs.startOffset = 0 ∧
        detectAtStart img 0 = some bfs ∧ listRoot img bfs = files.zipIdx.map listed := by
  obtain he | ⟨img, dataStart, hc, hshown⟩ :=
    @contents_shown sizeBytes files direntSlots timestamp hsize hcount hnul
  · exact .inl he
  · obtain ⟨hdetect, hholds⟩ := hshown img 0 ⟨(Nat.zero_add _).le, fun o n _ => by rw [Nat.zero_add]⟩
    exact .inr ⟨img, _, hc, rfl, hdetect, hholds.listRoot⟩

end BootFs
end UfsFuse
