import UfsFuse.Check
import UfsFuse.Loops
import UfsFuse.NameRoundTrip

/-!
# What a clean check means

The four passes of the checker against the image: `checkFilesystem` finds no problem exactly when
`Clean` holds. Every consistent file system is clean.
-/
namespace UfsFuse

/-! ## Claims -/
namespace Run

/-- The fragments of a run, in the order they are claimed. -/
def frags (r : Run) : List ℕ := (List.range r.2).map (r.1 + ·)

theorem mem_frags {r : Run} {f : ℕ} : f ∈ r.frags ↔ r.Mem f := by
  simp only [frags, Mem, List.mem_map, List.mem_range]
  constructor
  · rintro ⟨i, hi, rfl⟩
    omega
  · rintro ⟨h1, h2⟩
    exact ⟨f - r.1, by omega, by omega⟩

theorem nodup_frags (r : Run) : r.frags.Nodup :=
  List.nodup_range.map fun _ _ hij => Nat.add_left_cancel hij

end Run

theorem mem_flatMap_frags {runs : List Run} {f : ℕ} :
    f ∈ runs.flatMap Run.frags ↔ Covered runs f := by
  simp only [List.mem_flatMap, Run.mem_frags, Covered]

theorem nodup_flatMap_frags {runs : List Run} :
    (runs.flatMap Run.frags).Nodup ↔ runs.Pairwise Run.Apart := by
  rw [List.nodup_flatMap]
  constructor
  · rintro ⟨-, h⟩
    refine h.imp ?_
    intro r r' hd f hf hf'
    exact hd (Run.mem_frags.mpr hf) (Run.mem_frags.mpr hf')
  · intro h
    refine ⟨fun r _ => r.nodup_frags, h.imp ?_⟩
    intro r r' ha f hf hf'
    exact ha f (Run.mem_frags.mp hf) (Run.mem_frags.mp hf')

section Claims
variable {total n : ℕ} {c : Claims}

theorem claimRuns_eq (runs : List Run) (c : Claims) :
    runs.foldl (fun c r => claimRun total n c r.1 r.2) c =
      (runs.flatMap Run.frags).foldl (claimFragment total n) c := by
  rw [List.foldl_flatMap]
  rfl

theorem claimFragment_clean {f : ℕ} : (claimFragment total n c f).problems = [] ↔
    c.problems = [] ∧ f < total ∧ c.owner.lookup f = none := by
  unfold claimFragment
  split_ifs with h
  · simp [h]
  · cases hl : c.owner.lookup f with
    | some m => simp
    | none => simp [Nat.lt_of_not_le h]

theorem claimFragment_lookup {f : ℕ} (h : (claimFragment total n c f).problems = []) (x : ℕ) :
    (claimFragment total n c f).owner.lookup x = if x = f then some n else c.owner.lookup x := by
  obtain ⟨-, hf, hl⟩ := claimFragment_clean.mp h
  rw [claimFragment, if_neg (not_le.mpr hf), hl]
  dsimp only
  rw [List.lookup_cons]
  by_cases hx : x = f
  · simp [hx]
  · rw [beq_false_of_ne hx, if_neg hx]

/-- Claims go through exactly when all fragments are in range, new, and named once. -/
theorem claimFragments_clean (fs : List ℕ) : ∀ c : Claims,
    (fs.foldl (claimFragment total n) c).problems = [] ↔
      c.problems = [] ∧ fs.Nodup ∧ ∀ f ∈ fs, f < total ∧ c.owner.lookup f = none := by
  induction fs with
  | nil => simp
  | cons f fs ih =>
    intro c
    rw [List.foldl_cons, ih]
    constructor
    · rintro ⟨hc, hn, hall⟩
      obtain ⟨h1, h2, h3⟩ := claimFragment_clean.mp hc
      have hlook := claimFragment_lookup hc
      have hf : f ∉ fs := by
        intro hmem
        have hno := (hall f hmem).2
        rw [hlook, if_pos rfl] at hno
        exact Option.some_ne_none n hno
      refine ⟨h1, List.nodup_cons.mpr ⟨hf, hn⟩, List.forall_mem_cons.mpr ⟨⟨h2, h3⟩, ?_⟩⟩
      intro x hx
      obtain ⟨hlt, hno⟩ := hall x hx
      have hxf : x ≠ f := fun he => hf (he ▸ hx)
      rw [hlook, if_neg hxf] at hno
      exact ⟨hlt, hno⟩
    · rintro ⟨hc, hn, hall⟩
      obtain ⟨hf, hn⟩ := List.nodup_cons.mp hn
      obtain ⟨⟨h2, h3⟩, hall⟩ := List.forall_mem_cons.mp hall
      have hc' : (claimFragment total n c f).problems = [] := claimFragment_clean.mpr ⟨hc, h2, h3⟩
      refine ⟨hc', hn, fun x hx => ⟨(hall x hx).1, ?_⟩⟩
      have hxf : x ≠ f := fun he => hf (he ▸ hx)
      rw [claimFragment_lookup hc', if_neg hxf]
      exact (hall x hx).2

theorem claimFragments_lookup (fs : List ℕ) : ∀ c : Claims,
    (fs.foldl (claimFragment total n) c).problems = [] → ∀ x,
      (fs.foldl (claimFragment total n) c).owner.lookup x =
        if x ∈ fs then some n else c.owner.lookup x := by
  induction fs with
  | nil => simp
  | cons f fs ih =>
    intro c h x
    rw [List.foldl_cons] at h ⊢
    have hc := ((claimFragments_clean fs _).mp h).1
    rw [ih _ h x, claimFragment_lookup hc]
    by_cases hx : x ∈ fs
    · rw [if_pos hx, if_pos (List.mem_cons_of_mem _ hx)]
    · rw [if_neg hx]
      by_cases hxf : x = f
      · rw [if_pos hxf, if_pos (hxf ▸ List.mem_cons_self ..)]
      · rw [if_neg hxf, if_neg (by simp [hx, hxf])]

end Claims

/-! ## One inode -/

/-- Inode `n` by itself: its pointers can be followed, they are as many as its size asks for, its
block count is right, and its runs lie in the slice and do not overlap. -/
structure Tallied (image : Bytes) (ufs : Ufs) (n : ℕ) (inode : Inode) (data ptrs : List ℕ) : Prop where
  stored : readInode image ufs n = some inode
  dataBlocks : inodeDataBlocks image ufs inode = .ok data
  pointerBlocks : inodePointerBlocks image ufs inode = .ok ptrs
  count : data.length = (ufs.sb.allocationByteSizes inode.size).length
  sectors : inode.blocks = Owned.sectors ufs.sb inode ⟨data, ptrs⟩
  inside : ∀ f, Covered (claimedRuns image ufs n) f → f < ufs.sb.dsize
  apart : (claimedRuns image ufs n).Pairwise Run.Apart

section Inode
variable {image : Bytes} {ufs : Ufs} {n : ℕ} {inode : Inode} {data ptrs : List ℕ} {c : Claims}

/-- The runs of the data blocks, as pass 1 pairs them with the allocation sizes. -/
theorem zipIdx_runs {sizes : List ℕ} {bsize : ℕ} (h : data.length = sizes.length) :
    (data.zipIdx.map fun b => (b.1, sizes.getD b.2 bsize / 512)) = dataRuns data sizes := by
  refine List.ext_getElem ?_ fun k hk hk' => ?_
  · simp [dataRuns, h]
  · have hd : k < data.length := by simpa using hk
    have hs : k < sizes.length := h ▸ hd
    simp [dataRuns, List.getD_eq_getElem?_getD, List.getElem?_eq_getElem hs]

theorem claimedRuns_eq (hr : readInode image ufs n = some inode)
    (hd : inodeDataBlocks image ufs inode = .ok data)
    (hp : inodePointerBlocks image ufs inode = .ok ptrs) :
    claimedRuns image ufs n = Owned.runs ufs.sb inode ⟨data, ptrs⟩ := by
  rw [claimedRuns, hr]
  dsimp only
  rw [hd, hp]

/-- Pass 1 on one inode goes through exactly when the inode tallies by itself and its fragments
are new. -/
theorem checkInode_clean (g : ufs.sb.Geometry) (hr : readInode image ufs n = some inode)
    (hd : inodeDataBlocks image ufs inode = .ok data)
    (hp : inodePointerBlocks image ufs inode = .ok ptrs) :
    ∃ c', checkInode image ufs n inode c = .ok c' ∧
      (c'.problems = [] ↔ c.problems = [] ∧ Tallied image ufs n inode data ptrs ∧
        ∀ f, Covered (claimedRuns image ufs n) f → c.owner.lookup f = none) ∧
      (c'.problems = [] → ∀ f, c'.owner.lookup f =
        if Covered (claimedRuns image ufs n) f then some n else c.owner.lookup f) := by
  have hclaims := claimedRuns_eq hr hd hp
  have hf := g.fsize_eq
  rw [checkInode, hd, Outcome.ok_bind, hp]
  simp only [hf, Outcome.ok_bind]
  by_cases hlen : data.length = (ufs.sb.allocationByteSizes inode.size).length
  · rw [if_neg (not_not.mpr hlen), zipIdx_runs hlen, claimRuns_eq]
    have hptrs : ∀ c : Claims,
        ptrs.foldl (fun c pointer => claimRun ufs.sb.dsize n c pointer ufs.sb.frag) c =
          ((blockRuns ufs.sb ptrs).flatMap Run.frags).foldl (claimFragment ufs.sb.dsize n) c := by
      intro c
      rw [← claimRuns_eq, blockRuns, List.foldl_map]
    have hfrags : (dataRuns data (ufs.sb.allocationByteSizes inode.size)).flatMap Run.frags ++
        (blockRuns ufs.sb ptrs).flatMap Run.frags = (claimedRuns image ufs n).flatMap Run.frags := by
      rw [hclaims, Owned.runs_eq, List.flatMap_append]
    rw [hptrs, ← List.foldl_append, hfrags]
    have hsum : ((dataRuns data (ufs.sb.allocationByteSizes inode.size)).map Prod.snd).sum +
        ptrs.length * ufs.sb.frag = Owned.sectors ufs.sb inode ⟨data, ptrs⟩ := by
      rw [Owned.sectors, Owned.runs_eq, List.map_append, List.sum_append, blockRuns, List.map_map]
      simp [Function.comp_def]
    rw [hsum, show 512 / sectorSize = 1 from rfl, Nat.mul_one]
    have hclean := @claimFragments_clean ufs.sb.dsize n ((claimedRuns image ufs n).flatMap Run.frags) c
    have hlook := @claimFragments_lookup ufs.sb.dsize n ((claimedRuns image ufs n).flatMap Run.frags) c
    simp only [nodup_flatMap_frags, mem_flatMap_frags] at hclean hlook
    by_cases hsec : inode.blocks = Owned.sectors ufs.sb inode ⟨data, ptrs⟩
    · rw [if_neg (not_not.mpr hsec)]
      refine ⟨_, rfl, hclean.trans ?_, hlook⟩
      constructor
      · rintro ⟨hc, ha, hall⟩
        exact ⟨hc, ⟨hr, hd, hp, hlen, hsec, fun f hf => (hall f hf).1, ha⟩, fun f hf => (hall f hf).2⟩
      · rintro ⟨hc, ht, hnew⟩
        exact ⟨hc, ht.apart, fun f hf => ⟨ht.inside f hf, hnew f hf⟩⟩
    · rw [if_pos hsec]
      refine ⟨_, rfl, iff_of_false (by simp) fun h => hsec h.2.1.sectors, fun h => ?_⟩
      simp at h
  · rw [if_pos hlen]
    have hno : ∀ (runs : List Run) (c : Claims), c.problems ≠ [] →
        (runs.foldl (fun c r => claimRun ufs.sb.dsize n c r.1 r.2) c).problems ≠ [] := by
      intro runs c hc h
      rw [claimRuns_eq] at h
      exact hc ((claimFragments_clean _ _).mp h).1
    have hptrs : ∀ c : Claims,
        ptrs.foldl (fun c pointer => claimRun ufs.sb.dsize n c pointer ufs.sb.frag) c =
          (blockRuns ufs.sb ptrs).foldl (fun c r => claimRun ufs.sb.dsize n c r.1 r.2) c := by
      intro c
      rw [blockRuns, List.foldl_map]
    have hbad := hno (blockRuns ufs.sb ptrs) _ (hno (data.zipIdx.map fun b =>
      (b.1, (ufs.sb.allocationByteSizes inode.size).getD b.2 ufs.sb.bsize / 512))
      { c with problems := c.problems ++
        [.blockCount n data.length (ufs.sb.allocationByteSizes inode.size).length] } (by simp))
    rw [hptrs]
    have hfalse : ∀ c' : Claims, c'.problems ≠ [] →
        (c'.problems = [] ↔ c.problems = [] ∧ Tallied image ufs n inode data ptrs ∧
          ∀ f, Covered (claimedRuns image ufs n) f → c.owner.lookup f = none) ∧
        (c'.problems = [] → ∀ f, c'.owner.lookup f =
          if Covered (claimedRuns image ufs n) f then some n else c.owner.lookup f) :=
      fun c' hc' => ⟨iff_of_false hc' fun h => hlen h.2.1.count, fun h => absurd h hc'⟩
    split_ifs with hsec
    · exact ⟨_, rfl, hfalse _ (by simp)⟩
    · exact ⟨_, rfl, hfalse _ hbad⟩

end Inode

/-! ## Pass 1 -/

/-- The group headers that the checker reads first. -/
def Groups (image : Bytes) (ufs : Ufs) (k : ℕ) (cgs : List Bytes) : Prop :=
  cgs.length = k ∧ ∀ c < k, readCgBlock image ufs c = .ok (cgs.getD c [])

/-- The inodes in use, in the order of their numbers. -/
def usedList (image : Bytes) (ufs : Ufs) : List ℕ :=
  (List.range ufs.sb.inodes).filter (inUse image ufs)

theorem mem_usedList {image : Bytes} {ufs : Ufs} {n : ℕ} :
    n ∈ usedList image ufs ↔ inUse image ufs n = true := by
  rw [usedList, List.mem_filter, List.mem_range, and_iff_right_iff_imp]
  intro h
  unfold inUse at h
  simp only [Bool.and_eq_true, decide_eq_true_iff] at h
  exact h.1.2

/-- Pass 1 on an inode in use. -/
def sweepInode (image : Bytes) (ufs : Ufs) (acc : PassOne) (n : ℕ) : Outcome Fault PassOne :=
  match readInode image ufs n with
  | none =>
    let c := acc.claims
    .ok { acc with claims := { c with problems := c.problems ++ [.unreadable n] } }
  | some inode => do
    let claims ← checkInode image ufs n inode acc.claims
    pure { claims, usedInodes := acc.usedInodes ++ [n] }

section PassOne
variable {image : Bytes} {ufs : Ufs} {cgs : List Bytes}

theorem readGroups_eq_ok (k : ℕ) : ∀ cgs : List Bytes, Outcome.foldM (fun cgs cg => do
    let cgBytes ← readCgBlock image ufs cg
    pure (cgs ++ [cgBytes])) [] (List.range k) = .ok cgs ↔ Groups image ufs k cgs := by
  induction k with
  | zero =>
    intro cgs
    simp [Outcome.foldM, Groups, eq_comm]
  | succ k ih =>
    intro cgs
    rw [List.range_succ, Outcome.foldM_append, Outcome.bind_eq_ok]
    constructor
    · rintro ⟨ds, hds, h⟩
      obtain ⟨hl, hall⟩ := (ih ds).mp hds
      obtain ⟨es, he, h⟩ := Outcome.bind_eq_ok.mp h
      obtain ⟨b, hb, he⟩ := Outcome.bind_eq_ok.mp he
      cases he
      cases h
      refine ⟨by rw [List.length_append, hl]; rfl, fun c hc => ?_⟩
      rw [List.getD_eq_getElem?_getD]
      rcases Nat.lt_succ_iff_lt_or_eq.mp hc with hlt | rfl
      · rw [List.getElem?_append_left (hl.symm ▸ hlt), ← List.getD_eq_getElem?_getD]
        exact hall c hlt
      · rw [← hl, List.getElem?_concat_length, hl]
        exact hb
    · rintro ⟨hl, hall⟩
      rcases List.eq_nil_or_concat' cgs with rfl | ⟨ds, b, rfl⟩
      · cases hl
      · have hlen : ds.length = k := by simpa using hl
        refine ⟨ds, (ih ds).mpr ⟨hlen, fun c hc => ?_⟩, ?_⟩
        · have h := hall c (Nat.lt_succ_of_lt hc)
          rwa [List.getD_eq_getElem?_getD, List.getElem?_append_left (hlen.symm ▸ hc),
            ← List.getD_eq_getElem?_getD] at h
        · have h := hall k (Nat.lt_succ_self k)
          rw [List.getD_eq_getElem?_getD, ← hlen, List.getElem?_concat_length] at h
          rw [← hlen, Outcome.foldM, h]
          rfl

theorem Groups.length_eq {k c : ℕ} (h : Groups image ufs k cgs) (hc : c < k) :
    (cgs.getD c []).length = ufs.sb.bsize := by
  obtain ⟨_, hin, hb⟩ := Outcome.bind_eq_ok.mp (h.2 c hc)
  rw [← Outcome.ok.inj hb, Bytes.slice_length (Outcome.guard_eq_ok.mp hin)]

/-- The used bits as the checker reads them. -/
theorem Groups.inUse (g : ufs.sb.Geometry) (h : Groups image ufs ufs.sb.ncg cgs) {n : ℕ}
    (hn : n < ufs.sb.inodes) (h2 : 2 ≤ n) :
    isInodeUsed (cgs.getD (n / ufs.sb.ipg) []) (n % ufs.sb.ipg) = .ok (UfsFuse.inUse image ufs n) := by
  have hc := Superblock.div_ipg_lt hn
  have hlen := h.length_eq hc
  have hb := g.used_byte (g.mod_ipg_lt n)
  have hu : isInodeUsed (cgs.getD (n / ufs.sb.ipg) []) (n % ufs.sb.ipg) =
      .ok (bitAt (cgs.getD (n / ufs.sb.ipg) []) CgOff.iused (n % ufs.sb.ipg)) := by
    rw [isInodeUsed, Outcome.guard_true (by rw [hlen]; exact hb)]
    rfl
  rw [UfsFuse.inUse, decide_eq_true (show 2 ≤ n ∧ n < ufs.sb.inodes from ⟨h2, hn⟩), Bool.true_and,
    Superblock.itog, h.2 _ hc, Outcome.ok_bind, hu]

theorem passOneStep_eq (g : ufs.sb.Geometry) (h : Groups image ufs ufs.sb.ncg cgs) {n : ℕ}
    (hn : n < ufs.sb.inodes) (acc : PassOne) :
    passOneStep image ufs (cgs.getD (n / ufs.sb.ipg) []) (n / ufs.sb.ipg) acc (n % ufs.sb.ipg) =
      if UfsFuse.inUse image ufs n = true then sweepInode image ufs acc n else .ok acc := by
  have hdm := Nat.div_add_mod' n ufs.sb.ipg
  have hipg := g.two_le_ipg
  rw [passOneStep]
  simp only [hdm]
  by_cases h2 : 2 ≤ n
  · have hskip : ¬(n / ufs.sb.ipg = 0 ∧ n < ufsRootInode) := fun hs => absurd hs.2 (not_lt.mpr h2)
    rw [if_neg hskip, h.inUse g hn h2, Outcome.ok_bind]
    cases UfsFuse.inUse image ufs n with
    | true => rfl
    | false => rfl
  · have hno : UfsFuse.inUse image ufs n = false := by
      rw [UfsFuse.inUse, decide_eq_false fun hs => h2 hs.1, Bool.false_and]
    have hskip : n / ufs.sb.ipg = 0 ∧ n < ufsRootInode :=
      ⟨Nat.div_eq_of_lt (by omega), by simp only [ufsRootInode]; omega⟩
    rw [if_pos hskip, hno]
    rfl

/-- Pass 1 goes over the inodes in use. -/
theorem passOne_eq (g : ufs.sb.Geometry) (h : Groups image ufs ufs.sb.ncg cgs) :
    passOne image ufs cgs =
      Outcome.foldM (sweepInode image ufs) ⟨⟨[], []⟩, []⟩ (usedList image ufs) := by
  rw [passOne, @Outcome.foldM_groups _ _ _
    (fun acc b c i => passOneStep image ufs b c acc i) _ g.ipg_pos [] cgs, h.1]
  have hstep : ∀ n ∈ List.range (ufs.sb.ncg * ufs.sb.ipg), ∀ acc : PassOne,
      passOneStep image ufs (cgs.getD (n / ufs.sb.ipg) []) (n / ufs.sb.ipg) acc (n % ufs.sb.ipg) =
        if UfsFuse.inUse image ufs n = true then sweepInode image ufs acc n else .ok acc :=
    fun n hn acc => passOneStep_eq g h (List.mem_range.mp hn) acc
  rw [Outcome.foldM_congr hstep, @Outcome.foldM_filter _ _ _ _ (UfsFuse.inUse image ufs)]
  · refine Outcome.foldM_congr fun n hn acc => if_pos ?_
    exact (List.mem_filter.mp hn).2
  · intro n _ hno acc
    rw [hno]
    rfl

/-- Pass 1 goes through exactly when every inode tallies by itself and no fragment is claimed
twice. -/
theorem sweep_clean (g : ufs.sb.Geometry) (L : List ℕ) : ∀ acc : PassOne,
    (∃ one, Outcome.foldM (sweepInode image ufs) acc L = .ok one ∧ one.claims.problems = []) ↔
      acc.claims.problems = [] ∧
        (∀ n ∈ L, ∃ inode data ptrs, Tallied image ufs n inode data ptrs) ∧
        L.Pairwise (fun n m => ∀ f, Covered (claimedRuns image ufs n) f →
          ¬Covered (claimedRuns image ufs m) f) ∧
        ∀ n ∈ L, ∀ f, Covered (claimedRuns image ufs n) f → acc.claims.owner.lookup f = none := by
  induction L with
  | nil =>
    intro acc
    simp [Outcome.foldM]
  | cons n L ih =>
    intro acc
    rw [Outcome.foldM]
    simp only [Outcome.bind_eq_ok, List.forall_mem_cons, List.pairwise_cons]
    cases hr : readInode image ufs n with
    | none =>
      refine iff_of_false ?_ ?_
      · rintro ⟨one, ⟨acc', hstep, hrest⟩, hclean⟩
        have hacc := ((ih acc').mp ⟨one, hrest, hclean⟩).1
        rw [sweepInode, hr] at hstep
        cases hstep
        simp at hacc
      · rintro ⟨-, ⟨⟨inode, data, ptrs, ht⟩, -⟩, -⟩
        rw [ht.stored] at hr
        cases hr
    | some inode =>
      have hsweep : ∀ {data ptrs}, inodeDataBlocks image ufs inode = .ok data →
          inodePointerBlocks image ufs inode = .ok ptrs → ∃ acc',
            sweepInode image ufs acc n = .ok acc' ∧
            (acc'.claims.problems = [] ↔ acc.claims.problems = [] ∧
              Tallied image ufs n inode data ptrs ∧
              ∀ f, Covered (claimedRuns image ufs n) f → acc.claims.owner.lookup f = none) ∧
            (acc'.claims.problems = [] → ∀ f, acc'.claims.owner.lookup f =
              if Covered (claimedRuns image ufs n) f then some n
              else acc.claims.owner.lookup f) := by
        intro data ptrs hd hp
        obtain ⟨c', hc', hclean⟩ := checkInode_clean (c := acc.claims) g hr hd hp
        refine ⟨⟨c', acc.usedInodes ++ [n]⟩, ?_, hclean⟩
        rw [sweepInode, hr]
        dsimp only
        rw [hc']
        rfl
      constructor
      · rintro ⟨one, ⟨acc', hstep, hrest⟩, hclean⟩
        obtain ⟨hacc, hall, hpair, hnew⟩ := (ih acc').mp ⟨one, hrest, hclean⟩
        have hstep' := hstep
        rw [sweepInode, hr] at hstep'
        obtain ⟨claims, hcheck, -⟩ := Outcome.bind_eq_ok.mp hstep'
        rw [checkInode] at hcheck
        obtain ⟨data, hd, hcheck⟩ := Outcome.bind_eq_ok.mp hcheck
        obtain ⟨ptrs, hp, -⟩ := Outcome.bind_eq_ok.mp hcheck
        obtain ⟨acc'', hsame, hiff, hlook⟩ := hsweep hd hp
        rw [hstep] at hsame
        cases hsame
        obtain ⟨h1, h2, h3⟩ := hiff.mp hacc
        have hsee := hlook hacc
        have hapart : ∀ m ∈ L, ∀ f, Covered (claimedRuns image ufs m) f →
            ¬Covered (claimedRuns image ufs n) f ∧ acc.claims.owner.lookup f = none := by
          intro m hm f hf
          have hno := hnew m hm f hf
          rw [hsee] at hno
          split_ifs at hno with hcov
          exact ⟨hcov, hno⟩
        exact ⟨h1, ⟨⟨inode, data, ptrs, h2⟩, hall⟩,
          ⟨fun m hm f hf hf' => (hapart m hm f hf').1 hf, hpair⟩, h3,
          fun m hm f hf => (hapart m hm f hf).2⟩
      · rintro ⟨hacc, ⟨⟨inode', data, ptrs, ht⟩, hall⟩, ⟨hapart, hpair⟩, hn, hrest⟩
        obtain rfl : inode' = inode := Option.some.inj (ht.stored.symm.trans hr)
        obtain ⟨acc', hstep, hiff, hlook⟩ := hsweep ht.dataBlocks ht.pointerBlocks
        have hacc' := hiff.mpr ⟨hacc, ht, hn⟩
        have hnew : ∀ m ∈ L, ∀ f, Covered (claimedRuns image ufs m) f →
            acc'.claims.owner.lookup f = none := by
          intro m hm f hf
          rw [hlook hacc', if_neg fun hf' => hapart m hm f hf' hf]
          exact hrest m hm f hf
        obtain ⟨one, hone, hclean⟩ := (ih acc').mpr ⟨hacc', hall, hpair, hnew⟩
        exact ⟨one, ⟨acc', hstep, hone⟩, hclean⟩

/-- What pass 1 hands on: the inodes seen, and the fragments that have an owner. -/
theorem sweep_result (g : ufs.sb.Geometry) (L : List ℕ) : ∀ acc one : PassOne,
    Outcome.foldM (sweepInode image ufs) acc L = .ok one → one.claims.problems = [] →
      one.usedInodes = acc.usedInodes ++ L ∧
        ∀ f, one.claims.owner.lookup f = none ↔ acc.claims.owner.lookup f = none ∧
          ∀ n ∈ L, ¬Covered (claimedRuns image ufs n) f := by
  induction L with
  | nil =>
    rintro acc one h -
    cases h
    simp
  | cons n L ih =>
    intro acc one h hclean
    obtain ⟨hacc, hall, -, hnew⟩ := (sweep_clean g (n :: L) acc).mp ⟨one, h, hclean⟩
    obtain ⟨inode, data, ptrs, ht⟩ := hall n (List.mem_cons_self ..)
    obtain ⟨acc', hstep, hrest⟩ := Outcome.bind_eq_ok.mp h
    obtain ⟨c', hc', hiff, hlook⟩ :=
      checkInode_clean (c := acc.claims) g ht.stored ht.dataBlocks ht.pointerBlocks
    have hsame : acc' = ⟨c', acc.usedInodes ++ [n]⟩ := by
      rw [sweepInode, ht.stored] at hstep
      dsimp only at hstep
      rw [hc'] at hstep
      exact (Outcome.ok.inj hstep).symm
    obtain ⟨hused, hown⟩ := ih acc' one hrest hclean
    have hsee := hlook (hiff.mpr ⟨hacc, ht, hnew n (List.mem_cons_self ..)⟩)
    rw [hsame] at hused hown
    refine ⟨by rw [hused]; simp, fun f => ?_⟩
    rw [hown, hsee, List.forall_mem_cons]
    split_ifs with hcov
    · simp [hcov]
    · simp [hcov]

end PassOne

/-! ## Pass 2 -/
section PassTwo
variable {image : Bytes} {ufs : Ufs} {cgs : List Bytes} {owner : List (ℕ × ℕ)}

theorem passTwoStep_eq_nil (b : Bytes) (c : ℕ) (ps : List Problem) (i : ℕ) :
    passTwoStep ufs owner b c ps i = .ok [] ↔ ps = [] ∧ ∃ free, isFragFree b i = .ok free ∧
      (free = true ↔ owner.lookup (ufs.sb.cgbase c + i) = none) := by
  rw [passTwoStep, Outcome.bind_eq_ok]
  constructor
  · rintro ⟨free, hfree, h⟩
    cases hl : owner.lookup (ufs.sb.cgbase c + i) with
    | none =>
      rw [hl] at h
      cases free with
      | true => exact ⟨Outcome.ok.inj h, true, hfree, by simp⟩
      | false => simp at h
    | some n =>
      rw [hl] at h
      cases free with
      | true => simp at h
      | false => exact ⟨Outcome.ok.inj h, false, hfree, by simp⟩
  · rintro ⟨rfl, free, hfree, h⟩
    refine ⟨free, hfree, ?_⟩
    cases hl : owner.lookup (ufs.sb.cgbase c + i) with
    | none =>
      rw [h.mpr hl]
      rfl
    | some n =>
      have hno : free = false := by
        rw [← Bool.not_eq_true, h, hl]
        exact Option.some_ne_none n
      rw [hno]
      rfl

theorem mem_zipIdx_getD {b : Bytes} {c k : ℕ} (hl : cgs.length = k) :
    (b, c) ∈ cgs.zipIdx ↔ c < k ∧ b = cgs.getD c [] := by
  rw [List.mem_zipIdx_iff_getElem?, List.getD_eq_getElem?_getD, ← hl]
  by_cases hc : c < cgs.length
  · simp [hc, eq_comm]
  · simp [hc]

/-- Pass 2 finds nothing exactly when the bitmaps mark the fragments without an owner as free. -/
theorem passTwo_eq_nil (g : ufs.sb.Geometry) (hl : cgs.length = ufs.sb.ncg) :
    passTwo ufs owner cgs = .ok [] ↔ ∀ c < ufs.sb.ncg, ∀ i, ufs.sb.dblkno ≤ i →
      i < (cgs.getD c []).u32 CgOff.ndblk → ∃ free, isFragFree (cgs.getD c []) i = .ok free ∧
        (free = true ↔ owner.lookup (c * ufs.sb.fpg + i) = none) := by
  have hbase : ∀ c, ufs.sb.cgbase c = c * ufs.sb.fpg := fun c => Nat.mul_comm ..
  have hstart : ∀ c, ufs.sb.cgdmin c - ufs.sb.cgbase c = ufs.sb.dblkno := by
    intro c
    rw [g.cgdmin_eq, hbase, Nat.add_sub_cancel_left]
  have hgroup : ∀ (ps : List Problem) (x : Bytes × ℕ),
      Outcome.foldM (passTwoStep ufs owner x.1 x.2) ps
        ((List.range (x.1.u32 CgOff.ndblk - (ufs.sb.cgdmin x.2 - ufs.sb.cgbase x.2))).map
          (ufs.sb.cgdmin x.2 - ufs.sb.cgbase x.2 + ·)) = .ok [] ↔
      ps = [] ∧ ∀ i, ufs.sb.dblkno ≤ i → i < x.1.u32 CgOff.ndblk →
        ∃ free, isFragFree x.1 i = .ok free ∧
          (free = true ↔ owner.lookup (x.2 * ufs.sb.fpg + i) = none) := by
    intro ps x
    rw [Outcome.foldM_eq_nil (passTwoStep_eq_nil x.1 x.2), hstart, hbase]
    refine and_congr_right fun _ => ?_
    constructor
    · intro h i h1 h2
      exact h i (List.mem_map.mpr ⟨i - ufs.sb.dblkno, List.mem_range.mpr (by omega), by omega⟩)
    · intro h i hi
      obtain ⟨j, hj, rfl⟩ := List.mem_map.mp hi
      have hj := List.mem_range.mp hj
      exact h _ (by omega) (by omega)
  rw [passTwo, Outcome.foldM_eq_nil hgroup, and_iff_right rfl]
  constructor
  · intro h c hc
    exact h (cgs.getD c [], c) ((mem_zipIdx_getD hl).mpr ⟨hc, rfl⟩)
  · rintro h ⟨b, c⟩ hx
    obtain ⟨hc, rfl⟩ := (mem_zipIdx_getD hl).mp hx
    exact h c hc

end PassTwo

/-! ## Pass 3 -/

/-- A directory lists "." for itself, lists "..", and otherwise names inodes in use. -/
structure WellListed (image : Bytes) (ufs : Ufs) (d : ℕ) : Prop where
  readable : ∃ inode entries, readInode image ufs d = some inode ∧
    iterDirectoryEntries image ufs inode = .ok entries
  dot : (dotName, d) ∈ namesAt image ufs d
  dot_only : ∀ m, (dotName, m) ∈ namesAt image ufs d → m = d
  dotdot : ∃ m, (dotdotName, m) ∈ namesAt image ufs d
  target : ∀ x ∈ namesAt image ufs d, x.1 ≠ dotName → x.1 ≠ dotdotName →
    inUse image ufs x.2 = true

/-- How many listed names stand for inode `n`. -/
def listedLinks (image : Bytes) (ufs : Ufs) (n : ℕ) : ℕ :=
  ∑ d ∈ usedDirs image ufs, (namesAt image ufs d).countP (·.2 = n)

/-- The inode numbers that pass 3 counts for inode `n`. -/
def refsOf (image : Bytes) (ufs : Ufs) (n : ℕ) : List ℕ :=
  if isDir image ufs n = true then (namesAt image ufs n).map Prod.snd else []

/-- The directory half of pass 3 on one inode. -/
def sweepDirectory (image : Bytes) (ufs : Ufs) (used : List ℕ) (acc : List ℕ × List Problem)
    (ino : ℕ) : Outcome Fault (List ℕ × List Problem) :=
  match readInode image ufs ino with
  | none => .ok acc
  | some inode =>
    if ¬inode.isDirectory then .ok acc
    else do
      let entries ← iterDirectoryEntries image ufs inode
      let found := checkEntries used ino entries
      pure (acc.1 ++ found.1, acc.2 ++ found.2)

section PassThree
variable {image : Bytes} {ufs : Ufs}

theorem passThreeDirs_eq (used : List ℕ) : passThreeDirs image ufs used =
    Outcome.foldM (sweepDirectory image ufs used) ([], []) used := rfl

theorem checkEntries_clean {used : List ℕ} (hused : ∀ n, n ∈ used ↔ inUse image ufs n = true) {d : ℕ}
    {inode : Inode} (hr : readInode image ufs d = some inode) {entries : List DirListEntry}
    (he : iterDirectoryEntries image ufs inode = .ok entries) :
    (checkEntries used d entries).1 = (namesAt image ufs d).map Prod.snd ∧
      ((checkEntries used d entries).2 = [] ↔ WellListed image ufs d) := by
  have hnames : namesAt image ufs d = entries.map fun entry => (entry.name, entry.inode) := by
    rw [namesAt, hr]
    dsimp only
    rw [he]
  have hmem : ∀ x, x ∈ namesAt image ufs d ↔ ∃ e ∈ entries, (e.name, e.inode) = x := by
    intro x
    rw [hnames, List.mem_map]
  have hdot : checkEntries.dotEntry = dotName := rfl
  have hdotdot : checkEntries.dotdotEntry = dotdotName := rfl
  have hne : dotdotName ≠ dotName := by decide
  refine ⟨by rw [hnames, List.map_map]; rfl, ?_⟩
  rw [checkEntries, hdot, hdotdot]
  simp only [List.append_eq_nil_iff, List.flatMap_eq_nil_iff, ite_eq_left_iff,
    List.cons_ne_nil, imp_false, not_not, List.any_eq_true, beq_iff_eq]
  constructor
  · rintro ⟨⟨hall, e, he1, he2⟩, e', he1', he2'⟩
    have hself : ∀ x ∈ entries, x.name = dotName → x.inode = d := by
      intro x hx hxn
      have h := hall x hx
      rw [if_pos hxn] at h
      by_contra hno
      rw [if_pos hno] at h
      exact List.cons_ne_nil _ _ h
    refine ⟨⟨inode, entries, hr, he⟩, (hmem _).mpr ⟨e, he1, Prod.ext he2 (hself e he1 he2)⟩, ?_,
      ⟨_, (hmem _).mpr ⟨e', he1', Prod.ext he2' rfl⟩⟩, ?_⟩
    · intro m hm
      obtain ⟨x, hx, hxm⟩ := (hmem _).mp hm
      obtain ⟨h1, h2⟩ := Prod.mk.inj hxm
      rw [← h2]
      exact hself x hx h1
    · intro x hx h1 h2
      obtain ⟨y, hy, rfl⟩ := (hmem _).mp hx
      have h := hall y hy
      rw [if_neg h1, if_neg h2] at h
      by_contra hno
      rw [if_neg (by simpa [hused] using hno)] at h
      exact List.cons_ne_nil _ _ h
  · intro h
    obtain ⟨e, he1, he2⟩ := (hmem _).mp h.dot
    obtain ⟨m, hm⟩ := h.dotdot
    obtain ⟨e', he1', he2'⟩ := (hmem _).mp hm
    refine ⟨⟨fun x hx => ?_, e, he1, (Prod.mk.inj he2).1⟩, e', he1', (Prod.mk.inj he2').1⟩
    have hxm := (hmem _).mpr ⟨x, hx, rfl⟩
    by_cases h1 : x.name = dotName
    · rw [if_pos h1, if_neg]
      rw [not_not]
      exact h.dot_only _ (h1 ▸ hxm)
    · rw [if_neg h1]
      by_cases h2 : x.name = dotdotName
      · rw [if_pos h2]
      · rw [if_neg h2, if_pos]
        rw [List.contains_iff_mem, hused]
        exact h.target _ hxm h1 h2

/-- The directory half of pass 3 on the inodes of `L`. -/
theorem sweepDirectories_clean {used : List ℕ} (hused : ∀ n, n ∈ used ↔ inUse image ufs n = true)
    (L : List ℕ) (hL : ∀ n ∈ L, inUse image ufs n = true ∧ ∃ inode, readInode image ufs n = some inode) :
    ∀ (acc : List ℕ × List Problem) (refs : List ℕ),
      Outcome.foldM (sweepDirectory image ufs used) acc L = .ok (refs, []) ↔
      acc.2 = [] ∧ refs = acc.1 ++ L.flatMap (refsOf image ufs) ∧
        ∀ n ∈ L, isDir image ufs n = true → WellListed image ufs n := by
  induction L with
  | nil =>
    intro acc refs
    rw [Outcome.foldM, Outcome.ok.injEq, Prod.ext_iff, List.flatMap_nil, List.append_nil]
    constructor
    · rintro ⟨h1, h2⟩
      exact ⟨h2, h1.symm, fun n hn => absurd hn List.not_mem_nil⟩
    · rintro ⟨h2, h1, -⟩
      exact ⟨h1.symm, h2⟩
  | cons n L ih =>
    intro acc refs
    have ih := ih fun m hm => hL m (List.mem_cons_of_mem _ hm)
    obtain ⟨hu, inode, hr⟩ := hL n (List.mem_cons_self ..)
    have hdir : isDir image ufs n = inode.isDirectory := by
      rw [isDir, hu, hr]
      rfl
    rw [Outcome.foldM, sweepDirectory, hr, List.forall_mem_cons, List.flatMap_cons, refsOf, hdir]
    dsimp only
    cases hd : inode.isDirectory with
    | false =>
      rw [if_pos Bool.false_ne_true, if_neg Bool.false_ne_true, Outcome.ok_bind, ih,
        List.nil_append, and_iff_right fun h => absurd h Bool.false_ne_true]
    | true =>
      rw [if_neg (not_not.mpr rfl), if_pos rfl, Outcome.bind_eq_ok]
      constructor
      · rintro ⟨acc', hstep, hrest⟩
        obtain ⟨entries, he, hacc'⟩ := Outcome.bind_eq_ok.mp hstep
        obtain ⟨hrefs, hclean⟩ := checkEntries_clean hused hr he
        obtain ⟨h1, h2, h3⟩ := (ih acc' refs).mp hrest
        obtain rfl := Outcome.ok.inj hacc'
        obtain ⟨h4, h5⟩ := List.append_eq_nil_iff.mp h1
        refine ⟨h4, ?_, fun _ => hclean.mp h5, h3⟩
        rw [h2, hrefs, List.append_assoc]
      · rintro ⟨h1, h2, h3, h4⟩
        have hlist := h3 rfl
        obtain ⟨inode', entries, hr', he⟩ := hlist.readable
        obtain rfl : inode' = inode := Option.some.inj (hr'.symm.trans hr)
        obtain ⟨hrefs, hclean⟩ := checkEntries_clean hused hr he
        refine ⟨(acc.1 ++ (checkEntries used n entries).1, acc.2 ++ (checkEntries used n entries).2),
          ?_, (ih _ refs).mpr ⟨?_, ?_, h4⟩⟩
        · rw [he]
          rfl
        · rw [h1, hclean.mpr hlist]
          rfl
        · rw [h2, hrefs, List.append_assoc]

/-- The link-count half of pass 3. -/
theorem passThreeLinks_eq_nil {used refs : List ℕ}
    (hread : ∀ n ∈ used, ∃ inode, readInode image ufs n = some inode) :
    passThreeLinks image ufs used refs = [] ↔ ∀ n ∈ used, nlinkOf image ufs n = refs.count n ∧
      (n = ufsRootInode ∨ 0 < refs.count n) := by
  rw [passThreeLinks, List.flatMap_eq_nil_iff]
  refine forall₂_congr fun n hn => ?_
  obtain ⟨inode, hr⟩ := hread n hn
  rw [nlinkOf, hr]
  simp only [List.append_eq_nil_iff, ite_eq_right_iff, List.cons_ne_nil, imp_false, not_and,
    not_not, Option.map_some, Option.getD_some]
  constructor
  · rintro ⟨h1, h2⟩
    refine ⟨h2.symm, ?_⟩
    by_cases hroot : n = ufsRootInode
    · exact .inl hroot
    · exact .inr (Nat.pos_of_ne_zero (h1 hroot))
  · rintro ⟨h1, h2⟩
    exact ⟨fun hroot => (h2.resolve_left hroot).ne', h1.symm⟩

theorem sum_range_filter {p : ℕ → Bool} {f : ℕ → ℕ} (h : ∀ n, p n = false → f n = 0) (m : ℕ) :
    (((List.range m).filter p).map f).sum = ∑ n ∈ Finset.range m, f n := by
  induction m with
  | zero => rfl
  | succ m ih =>
    rw [List.range_succ, List.filter_append, List.map_append, List.sum_append, ih,
      Finset.sum_range_succ]
    congr 1
    cases hp : p m with
    | false => simp [hp, h m hp]
    | true => simp [hp]

/-- The references that pass 3 counts are the listed links. -/
theorem count_refs (n : ℕ) :
    ((usedList image ufs).flatMap (refsOf image ufs)).count n = listedLinks image ufs n := by
  have hzero : ∀ d, inUse image ufs d = false → (refsOf image ufs d).count n = 0 := by
    intro d hd
    rw [refsOf, isDir, hd]
    rfl
  rw [List.count_flatMap, usedList]
  refine (sum_range_filter (f := List.count n ∘ refsOf image ufs) hzero _).trans ?_
  rw [listedLinks, usedDirs, Finset.sum_filter]
  refine Finset.sum_congr rfl fun d _ => ?_
  rw [Function.comp_apply, refsOf]
  split_ifs with hd
  · rw [List.count, List.countP_map]
    rfl
  · rfl

end PassThree

/-! ## All passes -/

/-- A count in the header of group `c`. -/
def groupCount (image : Bytes) (ufs : Ufs) (c field : ℕ) : ℕ :=
  match readCgBlock image ufs c with
  | .ok cgBytes => cgBytes.u32 field
  | _ => 0

/-- The counts that groups and superblock both keep, with their places. -/
def summaryFields : List (ℕ × ℕ) :=
  [(CgOff.ndir, FsOff.cstotalNdir), (CgOff.nbfree, FsOff.cstotalNbfree),
    (CgOff.nifree, FsOff.cstotalNifree), (CgOff.nffree, FsOff.cstotalNffree)]

/-- An image on which the checker finds nothing: every inode in use tallies, no fragment has two
owners, between the start of the data area and the end that a header gives the bitmap marks the
owned fragments, directories are well listed, link counts are right and totals are sums. -/
structure Clean (image : Bytes) (ufs : Ufs) : Prop where
  headers : ∀ c < ufs.sb.ncg, ∃ cgBytes, readCgBlock image ufs c = .ok cgBytes
  inodes : ∀ n, inUse image ufs n = true → ∃ inode data ptrs, Tallied image ufs n inode data ptrs
  apart : ∀ n m, inUse image ufs n = true → inUse image ufs m = true → n ≠ m → ∀ f,
    Covered (claimedRuns image ufs n) f → ¬Covered (claimedRuns image ufs m) f
  bitmap : ∀ c < ufs.sb.ncg, ∀ cgBytes, readCgBlock image ufs c = .ok cgBytes → ∀ i,
    ufs.sb.dblkno ≤ i → i < cgBytes.u32 CgOff.ndblk → ∃ free, isFragFree cgBytes i = .ok free ∧
      (free = false ↔ ∃ n, inUse image ufs n = true ∧
        Covered (claimedRuns image ufs n) (c * ufs.sb.fpg + i))
  listings : ∀ d ∈ usedDirs image ufs, WellListed image ufs d
  links : ∀ n, inUse image ufs n = true → nlinkOf image ufs n = listedLinks image ufs n ∧
    (n = ufsRootInode ∨ 0 < listedLinks image ufs n)
  totals : ∀ field ∈ summaryFields, image.i32 (ufs.superOffset + field.2) =
    ((∑ c ∈ Finset.range ufs.sb.ncg, groupCount image ufs c field.1 : ℕ) : ℤ)

section AllPasses
variable {image : Bytes} {ufs : Ufs} {cgs : List Bytes}

theorem passFour_eq_nil (hg : Groups image ufs ufs.sb.ncg cgs) :
    passFour image ufs cgs = [] ↔ ∀ field ∈ summaryFields, image.i32 (ufs.superOffset + field.2) =
      ((∑ c ∈ Finset.range ufs.sb.ncg, groupCount image ufs c field.1 : ℕ) : ℤ) := by
  have hlist : cgs = (List.range ufs.sb.ncg).map fun c => cgs.getD c [] := by
    refine List.ext_getElem (by simp [hg.1]) fun k hk hk' => ?_
    simp [List.getD_eq_getElem?_getD, List.getElem?_eq_getElem hk]
  have hsum : ∀ field, (cgs.map (·.u32 field)).sum =
      ∑ c ∈ Finset.range ufs.sb.ncg, groupCount image ufs c field := by
    intro field
    rw [hlist, List.map_map]
    have h := @sum_range_filter (fun _ => true)
      ((fun b : Bytes => b.u32 field) ∘ fun c => cgs.getD c []) (fun _ h => by cases h) ufs.sb.ncg
    rw [List.filter_true] at h
    rw [h]
    refine Finset.sum_congr rfl fun c hc => ?_
    rw [groupCount, hg.2 c (Finset.mem_range.mp hc)]
    rfl
  rw [passFour, ← summaryFields, List.flatMap_eq_nil_iff]
  refine forall₂_congr fun field _ => ?_
  rw [hsum]
  simp

theorem mem_usedDirs_use {d : ℕ} (hd : d ∈ usedDirs image ufs) : inUse image ufs d = true := by
  have h := (Finset.mem_filter.mp hd).2
  rw [isDir, Bool.and_eq_true] at h
  exact h.1

/-- No fragment belongs to both inodes. -/
theorem pairwise_apart {L : List ℕ} (hL : L.Nodup) : (L.Pairwise fun n m => ∀ f,
    Covered (claimedRuns image ufs n) f → ¬Covered (claimedRuns image ufs m) f) ↔
      ∀ n m, n ∈ L → m ∈ L → n ≠ m → ∀ f, Covered (claimedRuns image ufs n) f →
        ¬Covered (claimedRuns image ufs m) f := by
  constructor
  · intro h n m hn hm hne
    have hsymm : Std.Symm fun n m => ∀ f, Covered (claimedRuns image ufs n) f →
        ¬Covered (claimedRuns image ufs m) f := ⟨fun n m h f hm hn => h f hn hm⟩
    exact h.forall hn hm hne
  · intro h
    exact hL.pairwise_of_forall_ne fun n hn m hm hne => h n m hn hm hne

/-- The checker finds nothing exactly on a clean image. -/
theorem checkFilesystem_eq_nil (g : ufs.sb.Geometry) :
    checkFilesystem image ufs = .ok [] ↔ Clean image ufs := by
  have hused : ∀ n, n ∈ usedList image ufs ↔ inUse image ufs n = true := fun n => mem_usedList
  have hnodup : (usedList image ufs).Nodup := List.nodup_range.filter _
  have hdirs : ∀ n, n ∈ usedDirs image ufs ↔ n ∈ usedList image ufs ∧ isDir image ufs n = true := by
    intro n
    rw [mem_usedDirs, hused, and_iff_right_of_imp]
    exact fun h => mem_usedDirs_use (mem_usedDirs.mpr h)
  -- an owner that pass 1 leaves is an inode in use
  have hown : ∀ one, Outcome.foldM (sweepInode image ufs) ⟨⟨[], []⟩, []⟩ (usedList image ufs) =
      .ok one → one.claims.problems = [] → ∀ f, one.claims.owner.lookup f = none ↔
        ¬∃ n, inUse image ufs n = true ∧ Covered (claimedRuns image ufs n) f := by
    intro one hone hclean f
    rw [(sweep_result g _ _ _ hone hclean).2 f, and_iff_right List.lookup_nil]
    simp only [hused, not_exists, not_and]
  have hfree : ∀ {free : Bool} {P Q : Prop}, (Q ↔ ¬P) → ((free = true ↔ Q) ↔ (free = false ↔ P)) := by
    intro free P Q h
    rw [h]
    cases free <;> simp
  rw [checkFilesystem, Outcome.bind_eq_ok]
  constructor
  · rintro ⟨cgs, hread, h⟩
    have hg := (readGroups_eq_ok ufs.sb.ncg cgs).mp hread
    obtain ⟨one, hone, h⟩ := Outcome.bind_eq_ok.mp h
    obtain ⟨two, htwo, h⟩ := Outcome.bind_eq_ok.mp h
    obtain ⟨⟨refs, three⟩, hthree, h⟩ := Outcome.bind_eq_ok.mp h
    have h := Outcome.ok.inj h
    simp only [List.append_eq_nil_iff] at h
    obtain ⟨⟨⟨⟨h1, rfl⟩, rfl⟩, hlinks⟩, htotals⟩ := h
    rw [passOne_eq g hg] at hone
    obtain ⟨-, htally, hapart, -⟩ := (sweep_clean g _ _).mp ⟨one, hone, h1⟩
    have hres := (sweep_result g _ _ _ hone h1).1
    rw [List.nil_append] at hres
    rw [passTwo_eq_nil g hg.1] at htwo
    rw [hres, passThreeDirs_eq] at hthree
    rw [hres] at hlinks
    have hread' : ∀ n ∈ usedList image ufs, ∃ inode, readInode image ufs n = some inode := by
      intro n hn
      obtain ⟨inode, _, _, ht⟩ := htally n hn
      exact ⟨inode, ht.stored⟩
    obtain ⟨-, hrefs, hlist⟩ := (sweepDirectories_clean hused _
      (fun n hn => ⟨(hused n).mp hn, hread' n hn⟩) ([], []) refs).mp hthree
    rw [List.nil_append] at hrefs
    rw [passThreeLinks_eq_nil hread', hrefs] at hlinks
    simp only [count_refs] at hlinks
    refine ⟨fun c hc => ⟨_, hg.2 c hc⟩, fun n hn => htally n ((hused n).mpr hn),
      fun n m hn hm => (pairwise_apart hnodup).mp hapart n m ((hused n).mpr hn) ((hused m).mpr hm),
      fun c hc b hb i h1' h2' => ?_, fun d hd => ?_, fun n hn => hlinks n ((hused n).mpr hn),
      (passFour_eq_nil hg).mp htotals⟩
    · obtain rfl := Outcome.ok.inj ((hg.2 c hc).symm.trans hb)
      obtain ⟨free, hf, hiff⟩ := htwo c hc i h1' h2'
      exact ⟨free, hf, (hfree (hown one hone h1 _)).mp hiff⟩
    · obtain ⟨hd1, hd2⟩ := (hdirs d).mp hd
      exact hlist d hd1 hd2
  · intro h
    obtain ⟨cgs, hg⟩ : ∃ cgs, Groups image ufs ufs.sb.ncg cgs := by
      refine ⟨(List.range ufs.sb.ncg).map fun c =>
        match readCgBlock image ufs c with
        | .ok cgBytes => cgBytes
        | _ => [], by simp, fun c hc => ?_⟩
      obtain ⟨b, hb⟩ := h.headers c hc
      rw [List.getD_eq_getElem?_getD, List.getElem?_map, List.getElem?_range hc, Option.map_some,
        Option.getD_some, hb]
    obtain ⟨one, hone, h1⟩ := (sweep_clean g (usedList image ufs) ⟨⟨[], []⟩, []⟩).mpr ⟨rfl,
      fun n hn => h.inodes n ((hused n).mp hn), (pairwise_apart hnodup).mpr fun n m hn hm =>
        h.apart n m ((hused n).mp hn) ((hused m).mp hm), fun n _ f _ => List.lookup_nil⟩
    have hres := (sweep_result g _ _ _ hone h1).1
    rw [List.nil_append] at hres
    have htwo : passTwo ufs one.claims.owner cgs = .ok [] := by
      refine (passTwo_eq_nil g hg.1).mpr fun c hc i h1' h2' => ?_
      obtain ⟨free, hf, hiff⟩ := h.bitmap c hc _ (hg.2 c hc) i h1' h2'
      exact ⟨free, hf, (hfree (hown one hone h1 _)).mpr hiff⟩
    have hread' : ∀ n ∈ usedList image ufs, ∃ inode, readInode image ufs n = some inode := by
      intro n hn
      obtain ⟨inode, _, _, ht⟩ := h.inodes n ((hused n).mp hn)
      exact ⟨inode, ht.stored⟩
    have hthree := (sweepDirectories_clean hused (usedList image ufs)
      (fun n hn => ⟨(hused n).mp hn, hread' n hn⟩) ([], []) _).mpr ⟨rfl, rfl, fun n hn hd =>
        h.listings n ((hdirs n).mpr ⟨hn, hd⟩)⟩
    refine ⟨cgs, (readGroups_eq_ok ufs.sb.ncg cgs).mpr hg, ?_⟩
    rw [passOne_eq g hg, hone, Outcome.ok_bind, htwo, Outcome.ok_bind, hres, passThreeDirs_eq,
      hthree, Outcome.ok_bind]
    have hlinks : passThreeLinks image ufs (usedList image ufs)
        ([] ++ (usedList image ufs).flatMap (refsOf image ufs)) = [] := by
      refine (passThreeLinks_eq_nil hread').mpr fun n hn => ?_
      rw [List.nil_append, count_refs]
      exact h.links n ((hused n).mp hn)
    simp only [h1, hlinks, (passFour_eq_nil hg).mpr h.totals]
    rfl

end AllPasses

/-! ## Consistent file systems are clean -/
section Consistent
variable {image : Bytes} {ufs : Ufs} {T : Table} {N : NameTree} {n d : ℕ}

theorem Ufs.Stores.tallied (h : ufs.Stores image T) (hn : n ∈ T.live) :
    ∃ inode data ptrs, Tallied image ufs n inode data ptrs := by
  have g := h.geom
  obtain ⟨D, own, hi, hv⟩ := h
  have hl := hv.laid n hn
  have hrun := hv.isRun hn
  have hsp := hv.space_at hn
  have hclaims := hv.claimedRuns hi hn
  refine ⟨D.ino n, (own n).data, (own n).ptrs, hi.readInode (hv.live_lt hn),
    hl.inodeDataBlocks hi (Owned.ptrs_isRun hrun), hl.inodePointerBlocks hi (Owned.ptrs_isRun hrun),
    hl.sizes_length g, hv.blocks n hn, fun f hf => ?_, ?_⟩
  · rw [hclaims] at hf
    have hdata := hsp.covered_isData g (covered_append.mpr (.inl hf))
    have hend := g.group_end hdata.1
    have hdm := Nat.div_add_mod' f ufs.sb.fpg
    have := hdata.2.2
    omega
  · rw [hclaims]
    exact (List.pairwise_append.mp hsp.apart).1

/-- Inodes of a volume share no fragment. -/
theorem Ufs.Stores.claims_apart (h : ufs.Stores image T) {m : ℕ} (hn : n ∈ T.live) (hm : m ∈ T.live)
    (hne : n ≠ m) : ∀ f, Covered (claimedRuns image ufs n) f → ¬Covered (claimedRuns image ufs m) f := by
  obtain ⟨D, own, hi, hv⟩ := h
  have hcross := (List.pairwise_append.mp (hv.space_at hn).apart).2.2
  rw [hv.claimedRuns hi hn, hv.claimedRuns hi hm]
  rintro f ⟨r, hr, hf⟩ ⟨r', hr', hf'⟩
  have hmem := mem_ledger.mpr ⟨m, Finset.mem_erase.mpr ⟨hne.symm, hm⟩, hr'⟩
  exact hcross r hr r' hmem f hf hf'

/-- A data fragment is marked used exactly when an inode of the volume owns it. -/
theorem Ufs.Stores.owned_iff (h : ufs.Stores image T) {c i : ℕ} (hc : c < ufs.sb.ncg)
    {cgBytes : Bytes} (hb : readCgBlock image ufs c = .ok cgBytes) (h1 : ufs.sb.dblkno ≤ i)
    (h2 : i < cgBytes.u32 CgOff.ndblk) : ∃ free, isFragFree cgBytes i = .ok free ∧
      (free = false ↔ ∃ n ∈ T.live, Covered (claimedRuns image ufs n) (c * ufs.sb.fpg + i)) := by
  have g := h.geom
  obtain ⟨D, own, hi, hv⟩ := h
  obtain ⟨b, hb', hlen, hdec⟩ := hi.readCgBlock hc
  obtain rfl := Outcome.ok.inj (hb'.symm.trans hb)
  have hnd : b.u32 CgOff.ndblk = ufs.sb.groupFrags c := by
    have hnd := hv.space.ndblk c hc
    rw [← hdec] at hnd
    exact hnd
  rw [hnd] at h2
  have hlt := h2.trans_le (Superblock.groupFrags_le ufs.sb c)
  have hdiv := g.frag_div (c := c) hlt
  have hmod := Superblock.frag_mod (c := c) hlt
  have hdata : ufs.sb.IsData (c * ufs.sb.fpg + i) :=
    ⟨by rwa [hdiv], by rwa [hmod], by rwa [hmod, hdiv]⟩
  refine ⟨_, isFragFree_eq (hlen.symm ▸ g.free_byte hlt), ?_⟩
  have hown := hv.space.owned _ hdata
  rw [Disk.isFree, hdiv, hmod, ← hdec] at hown
  refine hown.trans ?_
  constructor
  · rintro ⟨r, hr, hf⟩
    obtain ⟨n, hn, hr⟩ := mem_ledger.mp hr
    refine ⟨n, hn, r, ?_, hf⟩
    rwa [hv.claimedRuns hi hn]
  · rintro ⟨n, hn, r, hr, hf⟩
    rw [hv.claimedRuns hi hn] at hr
    exact ⟨r, mem_ledger.mpr ⟨n, hn, hr⟩, hf⟩

/-- What a listing shows of a directory of the tree. -/
theorem Carries.mem_namesAt (hc : Carries T N N.links) (hs : N.Sound) (h : ufs.Stores image T)
    (hd : d ∈ N.dirs) {x : Str × ℕ} : x ∈ namesAt image ufs d ↔
      ∃ e ∈ N.records d, (decodeAsciiReplace e.name, e.inode) = x := by
  obtain ⟨es, hdir, hes⟩ := hc.body d hd
  have hne : ∀ e ∈ es, e.name ≠ [] := fun e he =>
    hs.record_named hd (hes ▸ Multiset.mem_coe.mpr he)
  rw [h.namesAt (hc.live ▸ hs.dirs_live hd) hdir, List.mem_mergeSort, shownNames, List.mem_map]
  simp only [← hes, Multiset.mem_coe]
  refine exists_congr fun e => and_congr_left fun _ => ?_
  rw [List.mem_filter, and_iff_left_of_imp]
  exact fun he => by simpa using hne e he

theorem Carries.wellListed (hc : Carries T N N.links) (hs : N.Sound) (h : ufs.Stores image T)
    (hd : d ∈ N.dirs) : WellListed image ufs d := by
  have hmem := fun {x} => hc.mem_namesAt hs h hd (x := x)
  have hreads : ∀ {name : Str}, Ascii name → ∀ {m}, (name, m) ∈ namesAt image ufs d ↔
      (⟨name, m⟩ : Entry) ∈ N.records d := by
    intro name ha m
    rw [hmem]
    constructor
    · rintro ⟨e, he, hx⟩
      obtain ⟨h1, rfl⟩ := Prod.mk.inj hx
      obtain rfl : e.name = name := (Entry.reads_iff ha e).mp h1
      exact he
    · intro he
      exact ⟨_, he, Prod.ext (decodeAsciiReplace_of_ascii ha) rfl⟩
  have hdot : Ascii dotName := by decide
  have hdotdot : Ascii dotdotName := by decide
  have hself : (⟨dotName, d⟩ : Entry) ∈ N.records d := Multiset.mem_cons_self _ _
  obtain ⟨es, hdir, -⟩ := hc.body d hd
  obtain ⟨records, _, he, -⟩ := h.iterInodeDirectoryRecords (hc.live ▸ hs.dirs_live hd) hdir
  obtain ⟨entries, hentries⟩ : ∃ entries,
      iterDirectoryEntries image ufs (T.file d).inode.toInode = .ok entries := by
    rw [iterDirectoryEntries, he]
    exact ⟨_, rfl⟩
  refine ⟨⟨_, entries, h.readInode (hc.live ▸ hs.dirs_live hd), hentries⟩, (hreads hdot).mpr hself,
    fun m hm => ?_, ⟨N.up d, (hreads hdotdot).mpr
      (Multiset.mem_cons_of_mem (Multiset.mem_cons_self _ _))⟩, fun x hx _ _ => ?_⟩
  · exact congrArg Entry.inode (hs.name_inj hd ((hreads hdot).mp hm) hself rfl)
  · obtain ⟨e, he, rfl⟩ := hmem.mp hx
    exact ((hc.shows hs h).live _).mpr (hs.record_live hd he)

theorem Carries.listedLinks (hc : Carries T N N.links) (hs : N.Sound) (h : ufs.Stores image T) :
    UfsFuse.listedLinks image ufs n = N.links n := by
  rw [UfsFuse.listedLinks, (hc.shows hs h).dirs]
  refine Finset.sum_congr rfl fun d hd => ?_
  obtain ⟨es, hdir, hes⟩ := hc.body d hd
  have hne : ∀ e ∈ es, e.name ≠ [] := fun e he =>
    hs.record_named hd (hes ▸ Multiset.mem_coe.mpr he)
  have hall : es.filter (·.name ≠ []) = es :=
    List.filter_eq_self.mpr fun e he => by simpa using hne e he
  rw [h.namesAt (hc.live ▸ hs.dirs_live hd) hdir, (List.mergeSort_perm _ _).countP_eq, shownNames,
    hall, List.countP_map, naming, ← hes, Multiset.coe_countP]
  rfl

/-- Every inode of a sound tree has a record. -/
theorem NameTree.Sound.links_pos (hs : N.Sound) (hn : n ∈ N.live) : 0 < N.links n := by
  rw [N.links_eq]
  by_cases hd : n ∈ N.dirs
  · rw [if_pos hd]
    omega
  · have := hs.found n hn hd
    omega

/-- The superblock has the sums of the counts of all groups. -/
theorem Volume.total_sums {sb : Superblock} {D : Disk} {own : ℕ → Owned} (hv : Volume sb D own T) :
    ∑ c ∈ Finset.range sb.ncg, (D.cg c).counts.ndir = D.total.ndir ∧
      ∑ c ∈ Finset.range sb.ncg, (D.cg c).counts.nbfree = D.total.nbfree ∧
      ∑ c ∈ Finset.range sb.ncg, (D.cg c).counts.nifree = D.total.nifree := by
  have hmap := hv.map
  refine ⟨?_, ?_, ?_⟩
  · rw [hmap.total_ndir, ← sum_inGroup fun n hn => hmap.inRange n (hmap.dirs_sub hn)]
    exact Finset.sum_congr rfl fun c hc => hmap.ndir c (Finset.mem_range.mp hc)
  · rw [hv.space.total]
    exact Finset.sum_congr rfl fun c hc => hv.space.nbfree c (Finset.mem_range.mp hc)
  · have hsum : ∑ c ∈ Finset.range sb.ncg,
        ((D.cg c).counts.nifree + (inGroup sb T.used c).card) = sb.inodes := by
      rw [Finset.sum_congr rfl fun c hc => hmap.nifree c (Finset.mem_range.mp hc), Finset.sum_const,
        Finset.card_range, smul_eq_mul]
      rfl
    rw [Finset.sum_add_distrib, sum_inGroup hmap.inRange] at hsum
    have := hmap.total_nifree
    omega

/-- They can be read as signed words. -/
theorem Volume.total_lt {sb : Superblock} {D : Disk} {own : ℕ → Owned} (g : sb.Geometry)
    (hv : Volume sb D own T) :
    D.total.nbfree < 2 ^ 31 ∧ D.total.nifree < 2 ^ 31 ∧ D.total.nffree < 2 ^ 31 := by
  refine ⟨?_, ?_, hv.slack.total ▸ hv.slack.lt⟩
  · have hfrag := g.frag_pos
    have hle := hv.space.sum_wholeBlocks_mul_le (by omega)
    rw [← hv.space.total] at hle
    have := Nat.mul_le_mul_left D.total.nbfree hfrag
    have := g.dsize_lt
    omega
  · have := hv.map.total_nifree
    have := g.inodes_lt_i32
    omega

/-- The four totals of a volume are sums, and small enough to be read as signed words. -/
theorem Ufs.Stores.totals (h : ufs.Stores image T) : ∀ field ∈ summaryFields,
    image.i32 (ufs.superOffset + field.2) =
      ((∑ c ∈ Finset.range ufs.sb.ncg, groupCount image ufs c field.1 : ℕ) : ℤ) := by
  have g := h.geom
  obtain ⟨D, own, hi, hv⟩ := h
  have hview := hi.2
  have hgroup : ∀ c < ufs.sb.ncg, groupCount image ufs c CgOff.ndir = (D.cg c).counts.ndir ∧
      groupCount image ufs c CgOff.nbfree = (D.cg c).counts.nbfree ∧
      groupCount image ufs c CgOff.nifree = (D.cg c).counts.nifree ∧
      groupCount image ufs c CgOff.nffree = (D.cg c).counts.nffree := by
    intro c hc
    obtain ⟨b, hb, -, hdec⟩ := hi.readCgBlock hc
    simp only [groupCount, hb, ← hdec]
    exact ⟨rfl, rfl, rfl, rfl⟩
  have hfield : ∀ {a b v : ℕ} {f : CgView → ℕ}, image.u32 (ufs.superOffset + b) = v → v < 2 ^ 31 →
      (∀ c < ufs.sb.ncg, groupCount image ufs c a = f (D.cg c)) →
      ∑ c ∈ Finset.range ufs.sb.ncg, f (D.cg c) = v →
      image.i32 (ufs.superOffset + b) =
        ((∑ c ∈ Finset.range ufs.sb.ncg, groupCount image ufs c a : ℕ) : ℤ) := by
    intro a b v f hv hlt hg hsum
    rw [Bytes.i32, hv, if_pos hlt, ← hsum]
    exact congrArg Nat.cast (Finset.sum_congr rfl fun c hc => (hg c (Finset.mem_range.mp hc)).symm)
  have hin := g.inodes_lt_i32
  have hmap := hv.map
  obtain ⟨hndir, hnbfree, hnifree⟩ := hv.total_sums
  have hndir_lt : D.total.ndir < 2 ^ 31 := by
    have hcard := Finset.card_le_card hmap.dirs_sub
    have := hmap.total_nifree
    have := hmap.total_ndir
    omega
  obtain ⟨hnbfree_lt, hnifree_lt, -⟩ := hv.total_lt g
  have hslack := hv.slack
  intro field hmem
  simp only [summaryFields, List.mem_cons, List.not_mem_nil, or_false] at hmem
  rcases hmem with rfl | rfl | rfl | rfl
  · exact hfield (f := fun v => v.counts.ndir) (congrArg (fun d : Disk => d.total.ndir) hview)
      hndir_lt (fun c hc => (hgroup c hc).1) hndir
  · exact hfield (f := fun v => v.counts.nbfree) (congrArg (fun d : Disk => d.total.nbfree) hview)
      hnbfree_lt (fun c hc => (hgroup c hc).2.1) hnbfree
  · exact hfield (f := fun v => v.counts.nifree) (congrArg (fun d : Disk => d.total.nifree) hview)
      hnifree_lt (fun c hc => (hgroup c hc).2.2.1) hnifree
  · exact hfield (f := fun v => v.counts.nffree) (congrArg (fun d : Disk => d.total.nffree) hview)
      (hslack.total ▸ hslack.lt) (fun c hc => (hgroup c hc).2.2.2)
      (hslack.groups.trans hslack.total.symm)

/-- A consistent file system is clean. -/
theorem Consistent.clean (h : Consistent image ufs) : Clean image ufs := by
  obtain ⟨T, N, hi, hc, hs⟩ := h
  have hsh := hc.shows hs hi
  have hlive : ∀ {n}, inUse image ufs n = true ↔ n ∈ T.live := fun {n} => by
    rw [hsh.live, hc.live]
  refine ⟨fun c hcl => ?_, fun n hn => hi.tallied (hlive.mp hn), fun n m hn hm hne =>
    hi.claims_apart (hlive.mp hn) (hlive.mp hm) hne, fun c hcl b hb i h1 h2 => ?_, fun d hd => ?_,
    fun n hn => ?_, hi.totals⟩
  · obtain ⟨D, own, hh, -⟩ := hi
    obtain ⟨b, hb, -⟩ := hh.readCgBlock hcl
    exact ⟨b, hb⟩
  · simp only [hlive]
    exact hi.owned_iff hcl hb h1 h2
  · exact hc.wellListed hs hi (hsh.dirs ▸ hd)
  · have hnl := (hsh.live n).mp hn
    rw [hsh.nlinkOf hnl, hc.listedLinks hs hi]
    exact ⟨rfl, .inr (hs.links_pos hnl)⟩

/-- The checker finds nothing in a consistent file system. -/
theorem Consistent.check (h : Consistent image ufs) : checkFilesystem image ufs = .ok [] := by
  have g : ufs.sb.Geometry := by
    obtain ⟨T, N, hi, -⟩ := h
    exact hi.geom
  exact (checkFilesystem_eq_nil g).mpr h.clean

end Consistent
end UfsFuse
