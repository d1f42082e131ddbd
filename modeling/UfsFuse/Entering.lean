import UfsFuse.Replacement
import UfsFuse.WellFormed

/-!
# Entering a name in a directory

Whichever way an entry goes in (into the last block, into another block, or into one block more), the
directory has its old entries and the new one, and everything else on the image is as before.
-/
namespace UfsFuse

section Entering
variable {ufs : Ufs} {image image' : Bytes} {T : Table} {p child : ℕ} {name : Str}

theorem WellFormed.directory {body : Bytes} {live : List (ℕ × Entry)} (h : WellFormed body live) :
    Directory body (live.map Prod.snd) := by
  obtain ⟨blocks, hc, hne, rfl, -⟩ := h
  exact ⟨blocks, hc, hne, (liveAt_entries _ _).symm⟩

theorem Directory.wellFormed {body : Bytes} {es : List Entry} (h : Directory body es)
    (hn : (es.map Entry.name).Nodup) : ∃ live, WellFormed body live ∧ live.map Prod.snd = es := by
  obtain ⟨blocks, hc, hne, rfl⟩ := h
  rw [← liveAt_entries blocks.flatten 0, List.map_map] at hn
  exact ⟨_, ⟨blocks, hc, hne, rfl, hn⟩, liveAt_entries _ _⟩

/-- A directory of a consistent file system is well formed. -/
theorem Consistent.wellFormed (h : Consistent image ufs) (hp : isDir image ufs p = true) :
    ∃ body live, contentsAt image ufs p = some body ∧ WellFormed body live := by
  obtain ⟨T, N, hst, hc, hs⟩ := h
  have hd := (hc.shows hs hst).isDir.mp hp
  obtain ⟨es, hdir, hes⟩ := hc.body p hd
  have hnames := hs.names p hd
  rw [← hes, Multiset.map_coe, Multiset.coe_nodup] at hnames
  obtain ⟨live, hw, -⟩ := hdir.wellFormed hnames
  exact ⟨_, live, hst.contentsAt (hc.live ▸ hs.dirs_live hd), hw⟩

theorem entryCost_le (sb : Superblock) (body : Bytes) (name : Str) :
    entryCost sb body name ≤ sb.blocksNeeded (body.length + ufsDirblksiz) := by
  unfold entryCost
  split
  · exact Nat.zero_le _
  · split_ifs
    · exact Nat.zero_le _
    · exact le_rfl

end Entering
end UfsFuse
