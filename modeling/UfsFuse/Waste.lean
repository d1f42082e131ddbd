import UfsFuse.Counters
import UfsFuse.Symlinks

/-!
# Free space as it is reported

`statfs` adds up free blocks and the free fragments of other blocks, as the superblock counts them.
The second count is that of the last recount: taking the head of a block for a tail of a file, or
giving it back, leaves it.
-/
namespace UfsFuse

/-! ## Counting fragments -/
section Counting
variable {sb : Superblock} {runs : List Run}

/-- The fragments of all data areas. -/
def Superblock.dataFrags (sb : Superblock) : Finset ℕ :=
  (Finset.range (sb.ncg * sb.fpg)).filter sb.IsData

/-- Those that no run covers. -/
def Superblock.uncovered (sb : Superblock) (runs : List Run) : Finset ℕ :=
  sb.dataFrags.filter fun f => ¬Covered runs f

theorem mem_dataFrags {f : ℕ} : f ∈ sb.dataFrags ↔ sb.IsData f := by
  rw [Superblock.dataFrags, Finset.mem_filter, Finset.mem_range, and_iff_right_of_imp]
  rintro ⟨hc, -, hi⟩
  have hlt := hi.trans_le (sb.groupFrags_le _)
  have hdm := Nat.div_add_mod' f sb.fpg
  have hmul := Nat.mul_le_mul_right sb.fpg (Nat.succ_le_of_lt hc)
  rw [Nat.succ_mul] at hmul
  omega

/-- Runs that are apart cover as many fragments as they have. -/
theorem uncovered_card (g : sb.Geometry) (hrun : ∀ r ∈ runs, sb.IsRun r.1 r.2)
    (hapart : runs.Pairwise Run.Apart) :
    (sb.uncovered runs).card + (runs.map Prod.snd).sum = sb.dataFrags.card := by
  induction runs with
  | nil =>
    rw [Superblock.uncovered, Finset.filter_true_of_mem fun f _ => by rintro ⟨r, hr, -⟩; cases hr]
    rfl
  | cons r runs ih =>
    obtain ⟨hr, hrest⟩ := List.pairwise_cons.mp hapart
    have h1 := ih (fun q hq => hrun q (List.mem_cons_of_mem _ hq)) hrest
    have hmem : ∀ f, f ∈ Finset.Ico r.1 (r.1 + r.2) ↔ Run.Mem r f := fun f => Finset.mem_Ico
    have hsub : Finset.Ico r.1 (r.1 + r.2) ⊆ sb.uncovered runs := by
      intro f hf
      have hf := (hmem f).mp hf
      refine Finset.mem_filter.mpr ⟨mem_dataFrags.mpr ?_, ?_⟩
      · exact ((hrun r (List.mem_cons_self ..)).isData g hf).1
      · rintro ⟨q, hq, hfq⟩
        exact hr q hq f hf hfq
    have hcut : sb.uncovered (r :: runs) = sb.uncovered runs \ Finset.Ico r.1 (r.1 + r.2) := by
      ext f
      rw [Finset.mem_sdiff, hmem, Superblock.uncovered, Superblock.uncovered, Finset.mem_filter,
        Finset.mem_filter, covered_cons, not_or]
      tauto
    have h2 := Finset.card_sdiff_add_card_eq_card hsub
    rw [← hcut, Nat.card_Ico, Nat.add_sub_cancel_left] at h2
    rw [List.map_cons, List.sum_cons]
    omega

/-- Runs that start blocks and are apart touch different blocks. -/
theorem head_not_covered (g : sb.Geometry) {r : Run} (hr : sb.IsRun r.1 r.2) (hh : sb.AtHead r.1)
    (hrun : ∀ q ∈ runs, sb.IsRun q.1 q.2) (hheads : Heads sb runs) (hapart : ∀ q ∈ runs, Run.Apart r q)
    {o : ℕ} (ho : o < sb.frag) : ¬Covered runs (r.1 + o) := by
  rintro ⟨q, hq, hm⟩
  obtain ⟨hc, hlo, hpos, hhi, hin⟩ := hr
  obtain ⟨hc', hlo', hpos', hhi', hin'⟩ := hrun q hq
  obtain ⟨⟨a, ha⟩, hb⟩ := hh
  obtain ⟨⟨a', ha'⟩, hb'⟩ := hheads q hq
  obtain ⟨h1, h2⟩ := hm
  have hfpg := sb.groupFrags_le (r.1 / sb.fpg)
  have hfpg' := sb.groupFrags_le (q.1 / sb.fpg)
  have hdm := Nat.div_add_mod' r.1 sb.fpg
  have hdm' := Nat.div_add_mod' q.1 sb.fpg
  have hle : q.2 ≤ sb.frag := by omega
  -- both blocks lie in one group
  have hgroup : r.1 / sb.fpg = q.1 / sb.fpg := by
    have hr : (r.1 + o) / sb.fpg = r.1 / sb.fpg := by
      have heq : r.1 + o = r.1 / sb.fpg * sb.fpg + (r.1 % sb.fpg + o) := by omega
      rw [heq]
      exact g.frag_div (by omega)
    have hq : (r.1 + o) / sb.fpg = q.1 / sb.fpg := by
      have heq : r.1 + o = q.1 / sb.fpg * sb.fpg + (q.1 % sb.fpg + (r.1 + o - q.1)) := by omega
      rw [heq]
      exact g.frag_div (by omega)
    exact hr.symm.trans hq
  have hstart : r.1 = q.1 := by
    rw [hgroup] at hdm
    have hmul : ∀ x y : ℕ, x < y → sb.frag * x + sb.frag ≤ sb.frag * y := fun x y hxy => by
      rw [← Nat.mul_succ]
      exact Nat.mul_le_mul_left _ hxy
    rcases Nat.lt_trichotomy a a' with h | h | h
    · have := hmul _ _ h
      omega
    · subst h
      omega
    · have := hmul _ _ h
      omega
  exact hapart q hq r.1 ⟨le_rfl, by omega⟩ ⟨hstart.ge, by omega⟩

/-- A run at the head of an untouched block takes that block. -/
theorem spare_cons_head (g : sb.Geometry) {r : Run} (hr : sb.IsRun r.1 r.2) (hh : sb.AtHead r.1)
    (hfree : ∀ o < sb.frag, ¬Covered runs (r.1 + o)) : spare sb (r :: runs) + 1 = spare sb runs := by
  have hle := @spare_cons_le _ runs g r hr
  have hsub : ∀ c, spareBlocks sb (r :: runs) c ⊆ spareBlocks sb runs c := by
    intro c k hk
    simp only [spareBlocks, Finset.mem_filter] at hk ⊢
    obtain ⟨h1, h2, h3, h4⟩ := hk
    exact ⟨h1, h2, h3, fun o ho hcov => h4 o ho (covered_cons.mpr (.inr hcov))⟩
  have hlt : spare sb (r :: runs) < spare sb runs := by
    obtain ⟨hc, hlo, hpos, hhi, hin⟩ := hr
    obtain ⟨hdvd, hblock⟩ := hh
    have hfrag := g.frag_pos
    have hdm := Nat.div_add_mod' r.1 sb.fpg
    have hk := Nat.div_mul_cancel hdvd
    have hgl := sb.groupFrags_le (r.1 / sb.fpg)
    refine Finset.sum_lt_sum (fun c _ => Finset.card_le_card (hsub c))
      ⟨r.1 / sb.fpg, Finset.mem_range.mpr hc, Finset.card_lt_card ?_⟩
    refine Finset.ssubset_iff_subset_ne.mpr ⟨hsub _, fun heq => ?_⟩
    have hmem : r.1 % sb.fpg / sb.frag ∈ spareBlocks sb runs (r.1 / sb.fpg) := by
      simp only [spareBlocks, Finset.mem_filter, Finset.mem_range, hk]
      refine ⟨(Nat.div_le_self _ _).trans_lt (by omega), hlo, hblock, fun o ho => ?_⟩
      rw [← Nat.add_assoc, hdm]
      exact hfree o ho
    rw [← heq] at hmem
    simp only [spareBlocks, Finset.mem_filter, hk] at hmem
    refine hmem.2.2.2 0 (by omega) (covered_cons.mpr (.inl ⟨?_, ?_⟩)) <;> omega
  omega

theorem spare_heads (g : sb.Geometry) (hrun : ∀ r ∈ runs, sb.IsRun r.1 r.2)
    (hapart : runs.Pairwise Run.Apart) (hheads : Heads sb runs) :
    spare sb runs + runs.length = spare sb [] := by
  induction runs with
  | nil => rfl
  | cons r runs ih =>
    obtain ⟨hr, hrest⟩ := List.pairwise_cons.mp hapart
    have hrun' := fun q hq => hrun q (List.mem_cons_of_mem _ hq)
    have hheads' : Heads sb runs := fun q hq => hheads q (List.mem_cons_of_mem _ hq)
    have h1 := ih hrun' hrest hheads'
    have h2 := spare_cons_head g (hrun r (List.mem_cons_self ..)) (hheads r (List.mem_cons_self ..))
      fun o ho => head_not_covered g (hrun r (List.mem_cons_self ..))
        (hheads r (List.mem_cons_self ..)) hrun' hheads' hr ho
    rw [List.length_cons]
    omega

/-- The blocks of one group, and the cut block at its end. -/
theorem spareBlocks_nil_card (g : sb.Geometry) {c : ℕ} (hc : c < sb.ncg) :
    (spareBlocks sb [] c).card * sb.frag + sb.groupFrags c % sb.frag = sb.groupFrags c - sb.dblkno := by
  have hfrag : 0 < sb.frag := by
    have := g.frag_pos
    omega
  have hge := g.groupFrags_ge hc
  have hle := sb.groupFrags_le c
  have hset : spareBlocks sb [] c =
      Finset.Ico (sb.dblkno / sb.frag) (sb.groupFrags c / sb.frag) := by
    ext k
    have hlt : k < sb.groupFrags c / sb.frag ↔ k * sb.frag + sb.frag ≤ sb.groupFrags c := by
      rw [← Nat.succ_le_iff, Nat.le_div_iff_mul_le hfrag, Nat.succ_mul]
    simp only [spareBlocks, Finset.mem_filter, Finset.mem_range, Finset.mem_Ico]
    rw [Nat.div_le_iff_le_mul_of_dvd hfrag.ne' g.dblkno_dvd, hlt]
    have hk := Nat.le_mul_of_pos_right k hfrag
    constructor
    · rintro ⟨-, h1, h2, -⟩
      exact ⟨h1, h2⟩
    · rintro ⟨h1, h2⟩
      refine ⟨by omega, h1, h2, fun o _ hcov => ?_⟩
      exact not_covered_nil hcov
  rw [hset, Nat.card_Ico, Nat.sub_mul, Nat.div_mul_cancel g.dblkno_dvd]
  have hdm := Nat.div_add_mod' (sb.groupFrags c) sb.frag
  have hmono := Nat.div_le_div_right (c := sb.frag) hge
  have hmul := Nat.mul_le_mul_right sb.frag hmono
  rw [Nat.div_mul_cancel g.dblkno_dvd] at hmul
  omega

/-- All data fragments are those of whole blocks and of cut ones. -/
theorem dataFrags_card (g : sb.Geometry) : sb.dataFrags.card =
    spare sb [] * sb.frag + ∑ c ∈ Finset.range sb.ncg, sb.groupFrags c % sb.frag := by
  have hfiber := Finset.card_eq_sum_card_fiberwise (s := sb.dataFrags) (t := Finset.range sb.ncg)
    (f := fun f => f / sb.fpg) fun f hf => Finset.mem_coe.mpr (Finset.mem_range.mpr
      (mem_dataFrags.mp hf).1)
  rw [hfiber, spare, Finset.sum_mul, ← Finset.sum_add_distrib]
  refine Finset.sum_congr rfl fun c hc => ?_
  have hcn := Finset.mem_range.mp hc
  rw [spareBlocks_nil_card g hcn, ← Nat.card_Ico]
  refine Finset.card_nbij' (· % sb.fpg) (c * sb.fpg + ·) ?_ ?_ ?_ ?_
  · intro f hf
    obtain ⟨hf, hfc⟩ := Finset.mem_filter.mp hf
    obtain ⟨-, h1, h2⟩ := mem_dataFrags.mp hf
    rw [hfc] at h2
    exact Finset.mem_coe.mpr (Finset.mem_Ico.mpr ⟨h1, h2⟩)
  · intro i hi
    obtain ⟨h1, h2⟩ := Finset.mem_Ico.mp (Finset.mem_coe.mp hi)
    have hlt := h2.trans_le (sb.groupFrags_le c)
    have hdiv := g.frag_div (c := c) hlt
    have hmod := Superblock.frag_mod (c := c) hlt
    refine Finset.mem_coe.mpr (Finset.mem_filter.mpr ⟨mem_dataFrags.mpr ?_, hdiv⟩)
    exact ⟨by rwa [hdiv], by rwa [hmod], by rwa [hmod, hdiv]⟩
  · intro f hf
    obtain ⟨-, hfc⟩ := Finset.mem_filter.mp hf
    have hdm := Nat.div_add_mod' f sb.fpg
    simp only at hfc ⊢
    rw [← hfc]
    exact hdm
  · intro i hi
    obtain ⟨-, h2⟩ := Finset.mem_Ico.mp (Finset.mem_coe.mp hi)
    exact Superblock.frag_mod (h2.trans_le (sb.groupFrags_le c))

end Counting

/-! ## What is reported -/
section Reported
variable (image : Bytes) (ufs : Ufs)

/-- The bit of inode `n`, the reserved inodes included. -/
def markedUsed (n : ℕ) : Bool :=
  match readCgBlock image ufs (ufs.sb.itog n) >>= fun cg => isInodeUsed cg (n % ufs.sb.ipg) with
  | .ok used => used
  | _ => false

/-- Fragments that the bitmaps mark free. -/
def freeFragments : ℕ :=
  ((Finset.range (ufs.sb.ncg * ufs.sb.fpg)).filter fun f => fragIsFree image ufs f = true).card

/-- Inodes that the bitmaps do not mark used. -/
def freeInodes : ℕ :=
  ((Finset.range ufs.sb.inodes).filter fun n => markedUsed image ufs n = false).card

/-- Fragments of its blocks that a body of this size leaves unused. -/
def Superblock.waste (sb : Superblock) (size : ℕ) : ℕ :=
  ((sb.allocationByteSizes size).map fun bytes => sb.frag - bytes / sb.fsize).sum

/-- The fragments that all bodies leave unused. -/
def totalWaste : ℕ :=
  ∑ n ∈ (Finset.range ufs.sb.inodes).filter fun n => inUse image ufs n = true,
    ufs.sb.waste (((readInode image ufs n).map Inode.size).getD 0)

end Reported

/-- `statfs` answers with the free fragments and the free inodes of the bitmaps. -/
def StatfsTrue (st : Daemon) : Prop :=
  ∃ reply, Handler.statfs st = (.ok (.statfs reply), st) ∧ reply.bfree = freeFragments st.img st.ufs ∧
    reply.bavail = freeFragments st.img st.ufs ∧ reply.ffree = freeInodes st.img st.ufs

section Waste
variable {image t : Bytes} {ufs : Ufs} {D : Disk} {own : ℕ → Owned} {T : Table} {N : NameTree}

theorem sum_map_flatMap {α : Type} (f : Run → ℕ) (runs : α → List Run) (L : List α) :
    ((L.flatMap runs).map f).sum = (L.map fun a => ((runs a).map f).sum).sum := by
  induction L with
  | nil => rfl
  | cons a L ih => rw [List.flatMap_cons, List.map_append, List.sum_append, ih, List.map_cons,
      List.sum_cons]

/-- Only the data runs of an inode leave fragments of their blocks unused. -/
theorem Owned.waste_eq {sb : Superblock} (g : sb.Geometry) {i : Inode} {o : Owned}
    (hl : o.data.length = (sb.allocationByteSizes i.size).length) :
    ((o.runs sb i).map fun r => sb.frag - r.2).sum = sb.waste i.size := by
  have hdata : ∀ data sizes : List ℕ, data.length = sizes.length →
      ((dataRuns data sizes).map fun r => sb.frag - r.2).sum =
        (sizes.map fun bytes => sb.frag - bytes / 512).sum := by
    intro data
    induction data with
    | nil =>
      intro sizes h
      rw [List.eq_nil_of_length_eq_zero h.symm]
      rfl
    | cons b data ih =>
      intro sizes h
      cases sizes with
      | nil => cases h
      | cons s sizes =>
        rw [dataRuns_cons, List.map_cons, List.sum_cons, ih sizes (Nat.succ.inj h), List.map_cons,
          List.sum_cons]
  have hptrs : ((blockRuns sb o.ptrs).map fun r => sb.frag - r.2).sum = 0 := by
    refine List.sum_eq_zero fun w hw => ?_
    obtain ⟨r, hr, rfl⟩ := List.mem_map.mp hw
    obtain ⟨b, -, rfl⟩ := List.mem_map.mp hr
    exact Nat.sub_self _
  rw [Owned.runs_eq, List.map_append, List.sum_append, hdata _ _ hl, hptrs, Nat.add_zero,
    Superblock.waste, g.fsize_eq]

theorem Volume.waste_eq (g : ufs.sb.Geometry) (hi : ufs.Holds image D) (hv : Volume ufs.sb D own T)
    (hlive : ∀ n, inUse image ufs n = true ↔ n ∈ T.live) :
    ((ledger ufs.sb D own T.live).map fun r => ufs.sb.frag - r.2).sum = totalWaste image ufs := by
  have hset : (Finset.range ufs.sb.inodes).filter (fun n => inUse image ufs n = true) = T.live := by
    ext n
    rw [Finset.mem_filter, Finset.mem_range, hlive, and_iff_right_of_imp fun hn => hv.live_lt hn]
  rw [ledger, sum_map_flatMap, Finset.sum_map_toList, totalWaste, hset]
  refine Finset.sum_congr rfl fun n hn => ?_
  rw [Owned.waste_eq g ((hv.laid n hn).sizes_length g), hi.readInode (hv.live_lt hn)]
  rfl

/-- The bitmaps mark those fragments free that no inode owns. -/
theorem Volume.freeFragments_eq (hi : ufs.Holds image D) (hv : Volume ufs.sb D own T) :
    freeFragments image ufs = (ufs.sb.uncovered (ledger ufs.sb D own T.live)).card := by
  have g := hi.geom
  have hsp := hv.space
  rw [freeFragments]
  congr 1
  ext f
  rw [Superblock.uncovered, Finset.mem_filter, Finset.mem_filter, Finset.mem_range, mem_dataFrags]
  constructor
  · rintro ⟨hlt, hfree⟩
    have hc : f / ufs.sb.fpg < ufs.sb.ncg := Nat.div_lt_of_lt_mul (by rwa [Nat.mul_comm])
    rw [hi.fragIsFree_group hc] at hfree
    have hdata : ufs.sb.IsData f := ⟨hc, hsp.free_data _ hc _ hfree⟩
    refine ⟨hdata, fun hcov => ?_⟩
    rw [(hsp.owned f hdata).mpr hcov] at hfree
    cases hfree
  · rintro ⟨hdata, hno⟩
    have hlt := (Finset.mem_filter.mp (mem_dataFrags.mpr hdata)).1
    refine ⟨Finset.mem_range.mp hlt, ?_⟩
    rw [hi.fragIsFree hdata, ← Bool.not_eq_false]
    exact fun h => hno ((hsp.owned f hdata).mp h)

theorem Volume.freeInodes_eq (hi : ufs.Holds image D) (hv : Volume ufs.sb D own T) :
    freeInodes image ufs = D.total.nifree := by
  have g := hi.geom
  have hmap := hv.map
  have hmark : ∀ n < ufs.sb.inodes, (markedUsed image ufs n = true ↔ n ∈ T.used) := by
    intro n hn
    obtain ⟨b, hb, hlen, hdec⟩ := hi.readCgBlock (Superblock.div_ipg_lt hn)
    have hu := isInodeUsed_eq ((g.mod_ipg_lt n).trans_le g.ipg_le) (hlen ▸ g.free_le_bsize)
    rw [markedUsed, Superblock.itog, hb, Outcome.ok_bind, hu, hdec]
    exact hmap.mem n hn
  have hset : (Finset.range ufs.sb.inodes).filter (fun n => markedUsed image ufs n = false) =
      Finset.range ufs.sb.inodes \ T.used := by
    ext n
    rw [Finset.mem_filter, Finset.mem_sdiff, Finset.mem_range]
    exact and_congr_right fun hn => by rw [← hmark n hn, Bool.not_eq_true]
  have hsub : T.used ⊆ Finset.range ufs.sb.inodes := fun n hn =>
    Finset.mem_range.mpr (hmap.inRange n hn)
  have hcard := Finset.card_sdiff_add_card_eq_card hsub
  have htotal := hmap.total_nifree
  rw [freeInodes, hset]
  rw [Finset.card_range] at hcard
  omega

/-- The stored counts give the free fragments exactly when bodies leave as many fragments unused as
the root directory of a fresh file system. -/
theorem Volume.fragments_iff (hi : ufs.Holds image D) (hv : Volume ufs.sb D own T)
    (hlive : ∀ n, inUse image ufs n = true ↔ n ∈ T.live) (hpacked : T.packed = true)
    (hslack : T.slack = ufs.sb.freshSlack) :
    D.total.nbfree * ufs.sb.frag + D.total.nffree = freeFragments image ufs ↔
      totalWaste image ufs = ufs.sb.frag - 1 := by
  have g := hi.geom
  have hsp := hv.space
  have hfrag := g.frag_pos
  have hcovered := uncovered_card g hsp.isRun hsp.apart
  have hblocks := spare_heads g hsp.isRun hsp.apart (hv.heads hpacked)
  have hall := dataFrags_card g
  have htotal := hsp.total_spare g
  have hffree := hv.slack.total.trans hslack
  rw [Superblock.freshSlack] at hffree
  have hwaste := hv.waste_eq g hi hlive
  have hlen : ∀ runs : List Run, (∀ r ∈ runs, r.2 ≤ ufs.sb.frag) →
      (runs.map fun r => ufs.sb.frag - r.2).sum + (runs.map Prod.snd).sum =
        runs.length * ufs.sb.frag := by
    intro runs h
    induction runs with
    | nil => simp
    | cons r runs ih =>
      have h1 := ih fun q hq => h q (List.mem_cons_of_mem _ hq)
      have h2 := h r (List.mem_cons_self ..)
      rw [List.map_cons, List.map_cons, List.sum_cons, List.sum_cons, List.length_cons, Nat.succ_mul]
      omega
  have hsum := hlen _ fun r hr => by
    have := (hsp.isRun r hr).2.2.2.2
    omega
  rw [hv.freeFragments_eq hi, ← hwaste, htotal, hffree]
  rw [hall, ← hblocks, Nat.add_mul] at hcovered
  omega

/-- What `statfs` answers over a volume. -/
theorem Volume.statfs_eq {st : Daemon} (hi : st.ufs.Holds st.img D) (hv : Volume st.ufs.sb D own T) :
    ∃ reply, Handler.statfs st = (.ok (.statfs reply), st) ∧
      reply.bfree = D.total.nbfree * st.ufs.sb.frag + D.total.nffree ∧
      reply.bavail = reply.bfree ∧ reply.ffree = D.total.nifree := by
  obtain ⟨h1, h2, h3⟩ := hv.total_lt hi.geom
  have hview := hi.2
  have hword : ∀ {o v : ℕ}, st.img.u32 (st.ufs.superOffset + o) = v → v < 2 ^ 31 →
      st.img.i32 (st.ufs.superOffset + o) = (v : ℤ) := by
    intro o v hv hlt
    rw [Bytes.i32, hv, if_pos hlt]
  have hb := hword (congrArg (fun d : Disk => d.total.nbfree) hview) h1
  have hi' := hword (congrArg (fun d : Disk => d.total.nifree) hview) h2
  have hf := hword (congrArg (fun d : Disk => d.total.nffree) hview) h3
  refine ⟨_, rfl, ?_, rfl, ?_⟩
  · dsimp only
    rw [hb, hf]
    omega
  · dsimp only
    rw [hi']
    omega

/-- In a file system as valid calls leave it, `statfs` is right exactly when bodies leave as many
fragments unused as in a fresh one. The count of free inodes is right in any case. -/
theorem Kept.statfs_iff {st : Daemon} {P : Dinode → Prop} (h : Kept P st.ufs st.img) :
    StatfsTrue st ↔ totalWaste st.img st.ufs = st.ufs.sb.frag - 1 := by
  obtain ⟨T, N, hst, hc, hs, hpacked, hslack, -⟩ := h
  have hsh := hc.shows hs hst
  have hlive : ∀ n, inUse st.img st.ufs n = true ↔ n ∈ T.live := fun n => by
    rw [hsh.live, hc.live]
  obtain ⟨D, own, hi, hv⟩ := hst
  obtain ⟨reply, hreply, hb, ha, hf⟩ := hv.statfs_eq hi
  have hiff := hv.fragments_iff hi hlive hpacked hslack
  have hinodes := hv.freeInodes_eq hi
  constructor
  · rintro ⟨reply', hreply', hb', -, -⟩
    have hsame := (Prod.mk.inj (hreply.symm.trans hreply')).1
    cases hsame
    exact hiff.mp (hb.symm.trans hb')
  · intro hwaste
    have htrue := hiff.mpr hwaste
    exact ⟨reply, hreply, hb.trans htrue, ha.trans (hb.trans htrue), hf.trans hinodes.symm⟩

/-- What `statfs` answers after a run of valid calls. -/
theorem runs_statfsTrue_iff {st : Daemon} (hf : Formatted st.ufs image)
    (h : Runs (fun s c r => c.Valid s st.ufs ∧ r = .ok ()) st.ufs image st.img) :
    StatfsTrue st ↔ totalWaste st.img st.ufs = st.ufs.sb.frag - 1 :=
  (h.valid hf).statfs_iff

/-- A daemon without open files. -/
def Daemon.idle (image : Bytes) (ufs : Ufs) : Daemon := ⟨image, ufs, false, 1, [], fun _ => none⟩

theorem runs_statfsTrue_iff_blank : ∃ t, Call.makeA.perform blankUfs blankImage = (.ok (), t) ∧
    (StatfsTrue (Daemon.idle t blankUfs) ↔
      totalWaste (Daemon.idle t blankUfs).img (Daemon.idle t blankUfs).ufs =
        (Daemon.idle t blankUfs).ufs.sb.frag - 1) := by
  have hformatted := blankImage_formatted
  generalize blankImage = image at hformatted ⊢
  obtain ⟨hvalid, t, hdo⟩ := hformatted.fresh.makeA
  refine ⟨t, hdo, @runs_statfsTrue_iff image (Daemon.idle t blankUfs) hformatted ?_⟩
  exact .single ⟨_, _, ⟨hvalid, rfl⟩, hdo⟩

/-- A link leaves its directory as long as it was, or one block longer. -/
theorem symlinkInParent_grown {p : ℕ} {es : List Entry} {name target : Str} (hp : p ∈ T.live)
    (hbody : Directory (T.file p).body es) (hname : name.length ≤ 255)
    (hlen : target.length < 2 ^ 63) {mode uid gid timestamp : ℕ} :
    (symlinkInParent ufs p name target mode uid gid timestamp).hoare ufs.Stores T
      (fun m T' => m ≠ p ∧ m ∈ T'.live ∧ p ∈ T'.live ∧ (T'.file m).body = target ∧
        ((T'.file p).body.length = (T.file p).body.length ∨
          (T'.file p).body.length = (T.file p).body.length + ufsDirblksiz))
      (fun _ _ => True) := by
  rw [symlinkInParent]
  refine (readInodeOr_stores hp _).step fun i hi => ?_
  subst hi
  refine newInode_stores (fun _ _ _ _ => trivial) fun m hm hm2 _ _ => ?_
  have hmp : m ≠ p := fun h => hm (Finset.mem_union_right _ (h ▸ hp))
  obtain ⟨hlive, hused, -, -, hold, -⟩ := @create_facts T m false
    (Dinode.fresh (ufsIflnk ||| permissionsOf mode) uid gid 1 timestamp) hm
  have hpl : p ∈ ((T.reserve m false).create m
      (Dinode.fresh (ufsIflnk ||| permissionsOf mode) uid gid 1 timestamp)).live :=
    Finset.mem_insert_of_mem hp
  have hparent := hold p hp
  generalize (T.reserve m false).create m
    (Dinode.fresh (ufsIflnk ||| permissionsOf mode) uid gid 1 timestamp) = T₁ at *
  refine ((setInodeContents_stores hlive hlen).mono (fun _ _ h => h) fun _ _ _ => trivial).bind ?_
  rintro - T₂ ⟨j, room, rfl, -⟩
  have hkept := (T₁.setFile_of_ne (Ne.symm hmp) ⟨j, target⟩ room).trans hparent
  refine hoare_stored fun image hst => ?_
  have hadd := @addDirectoryEntry_stores ufs (T₁.setFile m ⟨j, target⟩ room) p es hpl
    (by rw [hkept]; exact hbody) name m hname (by omega) (hst.used_lt hused).2
  rw [hkept] at hadd
  refine (hadd.mono (fun _ _ h => h) fun _ _ _ => trivial).bind ?_
  rintro - T' ⟨i, body, es', room', rfl, -, -, -, hgrown, -⟩
  refine Act.hoare_pure ⟨hmp, hlive, hpl, ?_, ?_⟩
  · rw [Table.setFile_of_ne _ hmp, Table.setFile_self]
  · rw [hkept] at hgrown
    rw [Table.setFile_self]
    exact hgrown

/-- Two bodies leave no more fragments unused than all bodies. -/
theorem Ufs.Stores.waste_add_le (h : ufs.Stores image T) {n m : ℕ} (hn : n ∈ T.live) (hm : m ∈ T.live)
    (hne : n ≠ m) : ufs.sb.waste (T.file n).body.length + ufs.sb.waste (T.file m).body.length ≤
      totalWaste image ufs := by
  have hsize : ∀ {x}, x ∈ T.live →
      ((UfsFuse.readInode image ufs x).map Inode.size).getD 0 = (T.file x).body.length := by
    intro x hx
    rw [h.readInode hx, h.body_length hx]
    rfl
  have hmem : ∀ {x}, x ∈ T.live →
      x ∈ (Finset.range ufs.sb.inodes).filter fun n => UfsFuse.inUse image ufs n = true := by
    intro x hx
    have hlt : 2 ≤ x ∧ x < ufs.sb.inodes := by
      obtain ⟨D, own, -, hv⟩ := h
      exact ⟨hv.live_ge hx, hv.live_lt hx⟩
    exact Finset.mem_filter.mpr ⟨Finset.mem_range.mpr hlt.2,
      h.inUse.mpr ⟨hlt.1, Finset.mem_union_right _ hx⟩⟩
  have hsub : {n, m} ⊆ (Finset.range ufs.sb.inodes).filter
      fun n => UfsFuse.inUse image ufs n = true := by
    intro x hx
    rcases Finset.mem_insert.mp hx with rfl | hx
    · exact hmem hn
    · rw [Finset.mem_singleton.mp hx]
      exact hmem hm
  have hle := Finset.sum_le_sum_of_subset hsub
    (f := fun x => ufs.sb.waste (((UfsFuse.readInode image ufs x).map Inode.size).getD 0))
  rw [Finset.sum_pair hne, hsize hn, hsize hm] at hle
  exact hle

theorem Ufs.Stores.symlink_waste (h : ufs.Stores image T) {p m : ℕ} {es : List Entry}
    {name target : Str} (hp : p ∈ T.live) (hbody : Directory (T.file p).body es)
    (hname : name.length ≤ 255) (hlen : target.length < 2 ^ 63) {mode uid gid timestamp : ℕ}
    (hrun : symlinkInParent ufs p name target mode uid gid timestamp image = (.ok m, t)) :
    ∃ len, (len = (T.file p).body.length ∨ len = (T.file p).body.length + ufsDirblksiz) ∧
      ufs.sb.waste target.length + ufs.sb.waste len ≤ totalWaste t ufs := by
  obtain ⟨T', hst', hmp, hml, hpl, htarget, hlong⟩ :=
    (symlinkInParent_grown hp hbody hname hlen).ok h hrun
  have hle := hst'.waste_add_le hml hpl hmp
  rw [htarget] at hle
  exact ⟨_, hlong, hle⟩

/-- The call that makes a link "l" to "ab" in the root directory. -/
def Call.linkAb : Call := .symlinkInParent ufsRootInode [108] [97, 98] 0o777 0 0 0

/-- On a blank slice it is valid and succeeds; its block and that of the root then have 13 fragments
unused, or more. -/
theorem FreshVolume.linkAb {image : Bytes} (h : FreshVolume blankUfs image) :
    Call.linkAb.Valid image blankUfs ∧ ∃ t, Call.linkAb.perform blankUfs image = (.ok (), t) ∧
      totalWaste t blankUfs ≠ blankUfs.sb.frag - 1 := by
  obtain ⟨hdir, m, t, hrun⟩ := @blank_symlink image [97, 98] h rfl 0o777 0 0 0
  obtain ⟨-, hnew, -⟩ := @blank_createEmpty image [108] h (by decide) (by decide) (by decide) 0 0 0 0
  obtain ⟨T, hst, hc, -, hsize⟩ := h
  have hroot : ufsRootInode ∈ NameTree.fresh.dirs := Finset.mem_singleton_self _
  have hn : ufsRootInode ∈ T.live := hc.live ▸ NameTree.fresh_sound.dirs_live hroot
  have hlen : (T.file ufsRootInode).body.length = 512 := (hst.body_length hn).trans hsize
  obtain ⟨es, hbody, -⟩ := hc.body ufsRootInode hroot
  have hgood : GoodName [108] :=
    ⟨List.cons_ne_nil _ _, by decide, by decide, by decide, by decide, by decide⟩
  refine ⟨⟨hdir, by decide, hgood, hnew⟩, t, Act.discard_ok hrun, ?_⟩
  obtain ⟨len, hlong, hle⟩ := hst.symlink_waste hn hbody (by decide) (by decide) hrun
  have htwo : blankUfs.sb.waste [97, 98].length = 7 := by decide
  rw [hlen] at hlong
  have hpos : 6 ≤ blankUfs.sb.waste len := by
    rcases hlong with rfl | rfl <;> decide
  rw [show blankUfs.sb.frag - 1 = 7 from rfl]
  omega

/-- With the link, `statfs` counts the rest of its block neither as a free block nor as free
fragments. -/
theorem symlink_statfs_short : Formatted blankUfs blankImage ∧
    ∃ t, Call.linkAb.Valid blankImage blankUfs ∧
      Call.linkAb.perform blankUfs blankImage = (.ok (), t) ∧ ¬StatfsTrue (Daemon.idle t blankUfs) := by
  have hformatted := blankImage_formatted
  generalize blankImage = image at hformatted ⊢
  obtain ⟨hvalid, t, hdo, hwaste⟩ := hformatted.fresh.linkAb
  have hrun : Runs (fun s c r => c.Valid s blankUfs ∧ r = .ok ()) blankUfs image t :=
    .single ⟨_, _, ⟨hvalid, rfl⟩, hdo⟩
  have hkept := hrun.valid hformatted
  have hiff := @Kept.statfs_iff (Daemon.idle t blankUfs) _ hkept
  exact ⟨hformatted, t, hvalid, hdo, fun htrue => hwaste (hiff.mp htrue)⟩

end Waste
end UfsFuse
