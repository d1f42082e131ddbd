import UfsFuse.Waste

/-!
# What the formatter leaves

Formatting overwrites metadata only. Whatever the slice held, nothing of it is read as live, and the
recount at the end stores the counts of the bitmaps and inodes that are there.
-/
namespace UfsFuse

/-- A file system with an empty root directory and nothing else. All stored counts are those that a
recount finds, so that it changes no byte. -/
structure EmptyVolume (image : Bytes) (ufs : Ufs) : Prop where
  check : checkFilesystem image ufs = .ok []
  root : ∃ inode, readInode image ufs ufsRootInode = some inode ∧ inode.isDirectory = true ∧
    inode.nlink = 2
  listing : listRoot image ufs = .ok [⟨dotName, ufsRootInode, some ufsDirblksiz⟩,
    ⟨dotdotName, ufsRootInode, some ufsDirblksiz⟩]
  used : ∀ n < ufs.sb.inodes, markedUsed image ufs n = true ↔ n ≤ ufsRootInode
  group : ∀ c < ufs.sb.ncg, csumAt image (cgBlockOffset ufs c + CgOff.ndir) = groupCounts image ufs c
  summary : ∀ c < ufs.sb.ncg, csumAt image (csumPlace ufs c) = groupCounts image ufs c
  total : csumAt image (ufs.superOffset + FsOff.cstotalNdir) = totalCounts image ufs
  recount : recomputeSummaryCounts ufs image = (.ok (), image)

/-! ## Counts after a recount -/

/-- All stored counts are those of the bitmaps and inodes, and a recount changes no byte. -/
structure CountsTally (image : Bytes) (ufs : Ufs) : Prop where
  group : ∀ c < ufs.sb.ncg, csumAt image (cgBlockOffset ufs c + CgOff.ndir) = groupCounts image ufs c
  summary : ∀ c < ufs.sb.ncg, csumAt image (csumPlace ufs c) = groupCounts image ufs c
  total : csumAt image (ufs.superOffset + FsOff.cstotalNdir) = totalCounts image ufs
  again : recomputeSummaryCounts ufs image = (.ok (), image)

section Recount
variable {ufs : Ufs} {before after : Bytes}

/-- Every group is settled after the totals have been written, which lie in no group. -/
theorem recount_settled (h : ufs.Shaped)
    (hv : ∀ c < ufs.sb.ncg, HeaderValid before ufs c ∨ HeaderZero before ufs c)
    (hrun : recomputeSummaryCounts ufs before = (.ok (), after)) :
    (∀ c < ufs.sb.ncg, Settled after ufs c (groupCounts after ufs c)) ∧
      ufs.superOffset + FsOff.cstotalNdir + ufsCsumSize ≤ after.length ∧
      after.slice (ufs.superOffset + FsOff.cstotalNdir) ufsCsumSize =
        csumBytes (totalCounts after ufs) := by
  rw [recomputeSummaryCounts_eq] at hrun
  obtain ⟨ts, u, hcollect, hput⟩ := Act.bind_eq_ok.mp hrun
  obtain ⟨-, rfl, hsettled⟩ := collect_settles h List.nodup_range
    (fun c hc => List.mem_range.mp hc) (fun c hc => hv c (List.mem_range.mp hc)) hcollect
  rw [sumCounts_groups] at hput
  obtain ⟨hle, hafter⟩ := putSlice_eq_ok.mp hput
  have hslot := SameOutside.overlay hle
  rw [hafter] at hslot
  change SameOutside (totalSlot ufs) u after at hslot
  rw [csumBytes_length] at hle
  have hapart : ∀ r : Region, r ≠ Region.superblock → Disjoint (r.bytes ufs) (totalSlot ufs) :=
    fun r hr => (Region.disjoint h.group h.super hr).mono_right totalSlot_subset
  have hend : ∀ c < ufs.sb.ncg, Settled after ufs c (groupCounts u ufs c) := fun c hc =>
    (hsettled c (List.mem_range.mpr hc)).1.elsewhere hslot (hapart _ Region.noConfusion)
      ((hapart _ Region.noConfusion).mono_left (h.csumSlot_subset hc))
      fun n => (hapart _ Region.noConfusion).mono_left (inodeSlot_inside h.group h.super n)
  have hcounts : ∀ c < ufs.sb.ncg, groupCounts u ufs c = groupCounts after ufs c := fun c hc =>
    ((hend c hc).canonical h).1
  have htotal : totalCounts u ufs = totalCounts after ufs := by
    unfold totalCounts
    congr 1 <;> exact Finset.sum_congr rfl fun c hc => by rw [hcounts c (Finset.mem_range.mp hc)]
  refine ⟨fun c hc => hcounts c hc ▸ hend c hc, ?_, ?_⟩
  · rw [hslot.length]
    exact hle
  · have hs := @Bytes.slice_overlay_same u (csumBytes (totalCounts after ufs))
      (ufs.superOffset + FsOff.cstotalNdir) (by rw [csumBytes_length]; exact hle)
    rw [htotal] at hafter
    rwa [hafter, csumBytes_length] at hs

/-- So the counts are right wherever they are stored. -/
theorem recount_tallies (h : ufs.Shaped)
    (hv : ∀ c < ufs.sb.ncg, HeaderValid before ufs c ∨ HeaderZero before ufs c)
    (hrun : recomputeSummaryCounts ufs before = (.ok (), after)) : CountsTally after ufs := by
  obtain ⟨hall, hroom, hslice⟩ := recount_settled h hv hrun
  refine ⟨fun c hc => ((hall c hc).header h hc).1, fun c hc => ?_, ?_, ?_⟩
  · rw [csumAt_of_slice (hall c hc).place (hall c hc).stored,
      groupCounts_stored h hc (hall c hc).valid.ndblk]
  · rw [csumAt_of_slice hroom hslice, totalCounts_stored h fun c hc => (hall c hc).valid.ndblk]
  · rw [recomputeSummaryCounts_eq]
    refine Act.bind_eq_ok.mpr ⟨_, after, collect_again h (fun c hc => List.mem_range.mp hc)
      (fun c hc => hall c (List.mem_range.mp hc)), ?_⟩
    rw [sumCounts_groups]
    refine putSlice_eq_ok.mpr ⟨by rw [csumBytes_length]; exact hroom, ?_⟩
    rw [← hslice]
    exact Bytes.overlay_slice_self hroom

end Recount

section Fresh
variable {ufs : Ufs} {image : Bytes} {timestamp f n : ℕ} {body : Bytes} {T : Table}

theorem Ufs.Stores.markedUsed (h : ufs.Stores image T) (hn : n < ufs.sb.inodes) :
    UfsFuse.markedUsed image ufs n = true ↔ n ∈ T.used := by
  have g := h.geom
  obtain ⟨D, own, hi, hv⟩ := h
  obtain ⟨b, hb, hlen, hdec⟩ := hi.readCgBlock (Superblock.div_ipg_lt hn)
  have hu := isInodeUsed_eq ((g.mod_ipg_lt n).trans_le g.ipg_le) (hlen ▸ g.free_le_bsize)
  rw [UfsFuse.markedUsed, Superblock.itog, hb, Outcome.ok_bind, hu, hdec]
  exact hv.map.mem n hn

theorem FreshTable.root (h : FreshTable ufs image timestamp f body) :
    ∃ inode, readInode image ufs ufsRootInode = some inode ∧ inode.isDirectory = true ∧
      inode.nlink = 2 ∧ inode.size = ufsDirblksiz := by
  have hlive : ufsRootInode ∈ (Table.fresh ufs.sb timestamp f body).live :=
    Finset.mem_singleton_self _
  exact ⟨_, h.1.readInode hlive, Dinode.freshRoot_isDirectory _ _, rfl, rfl⟩

/-- The reader lists the two dots, each with the size of the root. -/
theorem FreshTable.listRoot (h : FreshTable ufs image timestamp f body) :
    UfsFuse.listRoot image ufs = .ok [⟨dotName, ufsRootInode, some ufsDirblksiz⟩,
      ⟨dotdotName, ufsRootInode, some ufsDirblksiz⟩] := by
  have hlive : ufsRootInode ∈ (Table.fresh ufs.sb timestamp f body).live :=
    Finset.mem_singleton_self _
  obtain ⟨inode, hread, -, -, hsize⟩ := h.root
  have hstored := h.1.readInode hlive
  obtain ⟨records, rs, hrecords, hlists, hentries, hfits⟩ := h.1.iterInodeDirectoryRecords hlive h.2
  have hshown := hlists.shown hfits
  rw [hentries] at hshown
  rw [UfsFuse.listRoot, hstored]
  dsimp only
  rw [iterDirectoryEntries, hrecords, Outcome.ok_bind]
  -- the names that are listed decide the listing, since all entries have the size of the root
  have hall : ∀ live : List DirEntry,
      live.map (fun r => (r.name, r.inode)) = [(dotName, ufsRootInode), (dotdotName, ufsRootInode)] →
      live.map (fun r => (⟨r.name, r.inode, (readInode image ufs r.inode).map Inode.size⟩ :
        DirListEntry)) = [⟨dotName, ufsRootInode, some ufsDirblksiz⟩,
          ⟨dotdotName, ufsRootInode, some ufsDirblksiz⟩] := by
    intro live hlive
    have hmap : live.map (fun r => (⟨r.name, r.inode, (readInode image ufs r.inode).map Inode.size⟩ :
        DirListEntry)) = (live.map fun r => (r.name, r.inode)).map fun x =>
          ⟨x.1, x.2, (readInode image ufs x.2).map Inode.size⟩ := by
      rw [List.map_map]
      rfl
    rw [hmap, hlive, List.map_cons, List.map_cons, List.map_nil, hread, Option.map_some, hsize]
  dsimp only
  rw [hall _ hshown, List.mergeSort_of_pairwise]
  · rfl
  · decide

end Fresh

section Format
variable {image t : Bytes} {fsStart size : ℕ} {opts : FormatOptions} {ufs : Ufs}

/-- The last step of the formatter is a recount over groups that it has laid out. -/
theorem format_tallies (h : format fsStart size opts image = (.ok ufs, t)) (hsize : size < 2 ^ 41)
    (hlast : ufs.sb.LastGroupHolds) : CountsTally t ufs := by
  obtain ⟨l, hl, hs, hsb⟩ := format_sized hsize h
  have hlast' : (l.superblock opts).LastGroupHolds := hsb ▸ hlast
  have hufs := ((format_fresh hl hs hlast').ok h).1
  obtain ⟨w, -, hfits, -, hroom, hrun⟩ := format_runs hl hs hlast' hufs
  have g := hfits.geom
  have hshaped := format_shaped hsize h
  rw [hrun] at h
  obtain ⟨_, v, hgroups, h⟩ := Act.bind_eq_ok.mp h
  obtain ⟨_, before, hroot, h⟩ := Act.bind_eq_ok.mp h
  obtain ⟨_, t', hcount, h⟩ := Act.bind_eq_ok.mp h
  obtain rfl : t' = t := congrArg Prod.snd h
  have hw : ufs.Holds w (view ufs w) := ⟨hfits, rfl⟩
  obtain ⟨D₁, hv, hp, -⟩ := (@formatGroups_hoare ufs _ (fun _ _ => False) g).ok hw hgroups
  obtain ⟨D₂, hb, f, body, hroot, -⟩ :=
    (@formatRoot_hoare ufs D₁ (fun _ _ => False) g hroom opts.timestamp hp).ok hv hroot
  refine recount_tallies hshaped (fun c hc => .inl ?_) hcount
  obtain ⟨v, hv, hm, hn, -⟩ := hroot.group c hc
  exact hb.headerValid hc (hm.trans hv.magic) (hn.trans hv.ndblk)

/-- Formatting succeeds on any bytes with an empty file system, if the last group holds its own
metadata. Slices have at most `2 ^ 32` sectors. -/
theorem format_empties (h : format fsStart size opts image = (.ok ufs, t)) (hsize : size < 2 ^ 41)
    (hlast : ufs.sb.LastGroupHolds) : EmptyVolume t ufs := by
  obtain ⟨timestamp, f, body, htable⟩ := (Formatted.intro h hsize hlast).table
  have htally := format_tallies h hsize hlast
  obtain ⟨inode, hread, hdir, hnlink, -⟩ := htable.root
  refine ⟨htable.volume.consistent.check, ⟨inode, hread, hdir, hnlink⟩, htable.listRoot, fun n hn => ?_,
    htally.group, htally.summary, htally.total, htally.again⟩
  rw [htable.1.markedUsed hn]
  simp only [Table.fresh, Table.used, Finset.mem_union, Finset.mem_insert, Finset.mem_singleton,
    ufsRootInode]
  omega

/-- A slice full of ones. -/
theorem format_empties_ones : ∃ ufs t,
    format 0 65536 blankOptions (List.replicate 65536 255) = (.ok ufs, t) ∧ EmptyVolume t ufs := by
  have hlen : (List.replicate 65536 255 : Bytes).length = 65536 := List.length_replicate
  generalize (List.replicate 65536 255 : Bytes) = image at hlen ⊢
  obtain ⟨ufs, t, hf, hu, -⟩ | ⟨_, _, -, hno⟩ := (format_blank hlen).ok_or_err
  · refine ⟨ufs, t, hf, format_empties hf (by decide) ?_⟩
    rw [hu]
    decide
  · exact hno.elim

end Format

end UfsFuse
