import UfsFuse.Runs

/-!
# Counters

The counts of directories, free blocks and free inodes that the operations keep up to date, against
those that a recount finds in the bitmaps and the inodes.
-/
namespace UfsFuse

/-- The counts that the operations keep up to date. -/
def Csum.kept (t : Csum) : ℕ × ℕ × ℕ := (t.ndir, t.nbfree, t.nifree)

section Stored
variable {ufs : Ufs} {image : Bytes} {D : Disk} {T : Table} {N : NameTree} {c : ℕ}

theorem Ufs.Holds.decode_header (h : ufs.Holds image D) (hc : c < ufs.sb.ncg) :
    CgView.decode (cgHeader image ufs c) = D.cg c := by
  rw [← h.2]
  exact (if_pos hc).symm

/-- The counts in the header of a group. -/
theorem Ufs.Holds.csumAt_group (h : ufs.Holds image D) (hc : c < ufs.sb.ncg) :
    csumAt image (cgBlockOffset ufs c + CgOff.ndir) = (D.cg c).counts := by
  have g := h.1.geom
  have hfree := g.free_le_bsize
  have hread : ∀ o, o + 4 ≤ 984 →
      (cgHeader image ufs c).u32 o = image.u32 (cgBlockOffset ufs c + o) := fun o ho =>
    Bytes.u32_slice (by simp only [CgOff.free] at hfree; omega)
  rw [← h.decode_header hc, csumAt, CgView.decode, Csum.mk.injEq]
  refine ⟨?_, ?_, ?_, ?_⟩ <;> rw [hread _ (by decide)] <;> rfl

/-- The counts in the superblock. -/
theorem Ufs.Holds.csumAt_total (h : ufs.Holds image D) :
    csumAt image (ufs.superOffset + FsOff.cstotalNdir) = D.total := by
  rw [← h.2]
  rfl

theorem Ufs.Holds.groupCounts (h : ufs.Holds image D) (hc : c < ufs.sb.ncg) :
    UfsFuse.groupCounts image ufs c = D.derived ufs.sb c := by
  rw [UfsFuse.groupCounts, h.decode_header hc, h.direct hc]

theorem Ufs.Holds.totalCounts (h : ufs.Holds image D) :
    UfsFuse.totalCounts image ufs = D.derivedTotal ufs.sb := by
  have hg := fun c hc => h.groupCounts (c := c) (Finset.mem_range.mp hc)
  rw [UfsFuse.totalCounts, Disk.derivedTotal, Csum.mk.injEq]
  refine ⟨?_, ?_, ?_, ?_⟩ <;> exact Finset.sum_congr rfl fun c hc => by rw [hg c hc]

/-- The kept counts of a volume are those of its bitmaps and inodes. -/
theorem Volume.kept_eq {sb : Superblock} {own : ℕ → Owned} (g : sb.Geometry) (hv : Volume sb D own T)
    (hc : Carries T N N.links) (hs : N.Sound) (hlt : c < sb.ncg) :
    (D.cg c).counts.kept = (D.derived sb c).kept := by
  have hmap := hv.map
  have hsp := hv.space
  have hused : ∀ n ∈ T.used, 2 ≤ n → n ∈ T.live := by
    intro n hn h2
    cases Finset.mem_union.mp hn with
    | inl h =>
      rw [hc.reserved] at h
      simp only [Finset.mem_insert, Finset.mem_singleton] at h
      omega
    | inr h => exact h
  have hnifree := derived_nifree g hmap.mem (Finset.mem_union_left _ hv.reserved_zero)
    (Finset.mem_union_left _ hv.reserved_one) hlt
  have hdirs : ∀ n ∈ T.dirs, n ∈ T.used ∧ 2 ≤ n := by
    intro n hn
    have hlive : n ∈ T.live := by
      rw [hc.live]
      exact hs.dirs_live (hc.dirs ▸ hn)
    exact ⟨Finset.mem_union_right _ hlive, hv.live_ge hlive⟩
  have hdir : ∀ n ∈ T.used, 2 ≤ n → ((D.ino n).isDirectory = true ↔ n ∈ T.dirs) := by
    intro n hn h2
    have hlive := hused n hn h2
    rw [hv.inode n hlive, hc.dirs]
    exact hc.isDir n (hc.live ▸ hlive)
  have hndir := derived_ndir g hmap.mem hdirs hdir hlt
  have hfrag : 0 < sb.frag := by
    have := g.frag_pos
    omega
  have hblocks : (D.cg c).blockCount sb.frag = ((D.cg c).wholeBlocks sb).card := by
    refine CgView.blockCount_eq hfrag ?_ fun i hi => ?_
    · rw [hsp.ndblk c hlt]
      exact sb.groupFrags_le c
    · rw [hsp.ndblk c hlt]
      exact (hsp.free_data c hlt i hi).2
  have h1 := hmap.nifree c hlt
  have h2 : (D.derived sb c).nbfree = (D.cg c).counts.nbfree := hblocks.trans (hsp.nbfree c hlt).symm
  rw [Csum.kept, Csum.kept, hndir, hmap.ndir c hlt, h2, Prod.mk.injEq, Prod.mk.injEq]
  exact ⟨rfl, rfl, by omega⟩

theorem Csum.kept_eq_iff {a b : Csum} :
    a.kept = b.kept ↔ a.ndir = b.ndir ∧ a.nbfree = b.nbfree ∧ a.nifree = b.nifree := by
  rw [Csum.kept, Csum.kept, Prod.mk.injEq, Prod.mk.injEq]

/-- So are the sums in the superblock. -/
theorem Volume.kept_total {sb : Superblock} {own : ℕ → Owned} (g : sb.Geometry)
    (hv : Volume sb D own T) (hc : Carries T N N.links) (hs : N.Sound) :
    D.total.kept = (D.derivedTotal sb).kept := by
  have hgroup := fun c hlt => Csum.kept_eq_iff.mp (hv.kept_eq (c := c) g hc hs (Finset.mem_range.mp hlt))
  have h1 := Finset.sum_congr rfl fun c hlt => (hgroup c hlt).1
  have h2 := Finset.sum_congr rfl fun c hlt => (hgroup c hlt).2.1
  have h3 := Finset.sum_congr rfl fun c hlt => (hgroup c hlt).2.2
  obtain ⟨t1, t2, t3⟩ := hv.total_sums
  rw [Csum.kept_eq_iff]
  exact ⟨t1.symm.trans h1, t2.symm.trans h2, t3.symm.trans h3⟩

end Stored

/-- The kept counts in the headers and in the superblock are what the bitmaps and the inodes give, and
a recount leaves them. -/
structure CountsExact (image : Bytes) (ufs : Ufs) : Prop where
  group : ∀ c < ufs.sb.ncg,
    (csumAt image (cgBlockOffset ufs c + CgOff.ndir)).kept = (groupCounts image ufs c).kept
  total : (csumAt image (ufs.superOffset + FsOff.cstotalNdir)).kept = (totalCounts image ufs).kept
  recount : ∃ after, recomputeSummaryCounts ufs image = (.ok (), after) ∧
    (∀ c < ufs.sb.ncg, (csumAt after (cgBlockOffset ufs c + CgOff.ndir)).kept =
      (csumAt image (cgBlockOffset ufs c + CgOff.ndir)).kept) ∧
    (csumAt after (ufs.superOffset + FsOff.cstotalNdir)).kept =
      (csumAt image (ufs.superOffset + FsOff.cstotalNdir)).kept

theorem Consistent.countsExact {image : Bytes} {ufs : Ufs} (h : Consistent image ufs) :
    CountsExact image ufs := by
  obtain ⟨T, N, hi, hc, hs⟩ := h
  have g := hi.geom
  obtain ⟨D, own, hh, hv⟩ := hi
  have hgroup := fun c hlt => hv.kept_eq (c := c) g hc hs hlt
  have htotal := hv.kept_total g hc hs
  refine ⟨fun c hlt => ?_, ?_, ?_⟩
  · rw [hh.csumAt_group hlt, hh.groupCounts hlt]
    exact hgroup c hlt
  · rw [hh.csumAt_total, hh.totalCounts]
    exact htotal
  · have hrun := @recomputeSummaryCounts_hoare ufs D (fun _ _ => False) g hv.space.magic hv.space.ndblk
    obtain ⟨_, after, hok, D', hh', rfl⟩ | ⟨_, _, -, hno⟩ := (hrun.run image hh).ok_or_err
    · refine ⟨after, hok, fun c hlt => ?_, ?_⟩
      · rw [hh'.csumAt_group hlt, hh.csumAt_group hlt, recounted_cg g hv.space.ndblk hlt]
        exact (hgroup c hlt).symm
      · rw [hh'.csumAt_total, hh.csumAt_total, recounted_total g hv.space.ndblk]
        exact htotal.symm
    · exact hno.elim

/-- In every state of a run of valid calls on a formatted slice the kept counts are exact. -/
theorem runs_countsExact {image t : Bytes} {ufs : Ufs} (hf : Formatted ufs image)
    (h : Runs (fun s c r => c.Valid s ufs ∧ r = .ok ()) ufs image t) : CountsExact t ufs :=
  (h.valid hf).consistent.countsExact

theorem runs_countsExact_blank :
    ∃ t, Call.makeA.perform blankUfs blankImage = (.ok (), t) ∧ CountsExact t blankUfs := by
  have hformatted := blankImage_formatted
  generalize blankImage = image at hformatted ⊢
  obtain ⟨hvalid, t, hdo⟩ := hformatted.fresh.makeA
  exact ⟨t, hdo, runs_countsExact hformatted (.single ⟨_, _, ⟨hvalid, rfl⟩, hdo⟩)⟩

end UfsFuse
