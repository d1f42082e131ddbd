import UfsFuse.Space

/-!
# Block allocation keeps the ledger

Specifications of the block and fragment allocator and of freeing. An allocation takes one free
block, whatever part of it is used, and it fails exactly when no free block is left.
-/
namespace UfsFuse

/-! ## Runs of bits in a buffer -/
section Buffer
variable {b : Bytes}

theorem setFragRun_list {base : ℕ} {free : Bool} (os : List ℕ) :
    ∀ b : Bytes, (∀ o ∈ os, CgOff.free + (base + o) / 8 < b.length) →
    ∃ b', Outcome.foldM (fun cg o => setFragState cg (base + o) free) b os = .ok b' ∧
      b'.length = b.length ∧
      CgView.decode b' = { CgView.decode b with
        free := fun f => if ∃ o ∈ os, f = base + o then free else (CgView.decode b).free f } := by
  induction os with
  | nil =>
    intro b _
    exact ⟨b, rfl, rfl, by simp⟩
  | cons o os ih =>
    intro b hin
    have ho := hin o (by simp)
    have hl := setBitAt_length (v := free) ho
    obtain ⟨b', hb', hl', hd'⟩ := ih (setBitAt b CgOff.free (base + o) free) fun p hp => by
      rw [hl]
      exact hin p (by simp [hp])
    refine ⟨b', ?_, hl'.trans hl, ?_⟩
    · rw [Outcome.foldM, setFragState, Outcome.guard_true ho]
      exact hb'
    · rw [hd', decode_setFree ho]
      ext f
      all_goals try rfl
      simp only [Function.update_apply]
      by_cases h1 : ∃ p ∈ os, f = base + p
      · obtain ⟨p, hp, hf⟩ := h1
        rw [if_pos ⟨p, hp, hf⟩, if_pos ⟨p, List.mem_cons_of_mem _ hp, hf⟩]
      · rw [if_neg h1]
        by_cases h2 : f = base + o
        · rw [if_pos h2, if_pos ⟨o, List.mem_cons_self .., h2⟩]
        · rw [if_neg h2, if_neg]
          rintro ⟨p, hp, hf⟩
          rcases List.mem_cons.mp hp with rfl | hp
          · exact h2 hf
          · exact h1 ⟨p, hp, hf⟩

theorem setFragRun_eq {base count : ℕ} {free : Bool}
    (hin : ∀ i < base + count, CgOff.free + i / 8 < b.length) :
    ∃ b', setFragRun b base count free = .ok b' ∧ b'.length = b.length ∧
      CgView.decode b' = (CgView.decode b).mark base count free := by
  obtain ⟨b', hb', hl, hd⟩ := @setFragRun_list base free (List.range count) b
    fun o ho => hin _ (by have := List.mem_range.mp ho; omega)
  refine ⟨b', hb', hl, hd.trans ?_⟩
  simp only [CgView.mark, CgView.mk.injEq, true_and]
  funext f
  have hiff : (∃ o ∈ List.range count, f = base + o) ↔ base ≤ f ∧ f < base + count := by
    constructor
    · rintro ⟨o, ho, rfl⟩
      have := List.mem_range.mp ho
      omega
    · rintro ⟨h1, h2⟩
      exact ⟨f - base, List.mem_range.mpr (by omega), by omega⟩
  simp only [hiff]

theorem isFragFree_eq {i : ℕ} (hi : CgOff.free + i / 8 < b.length) :
    isFragFree b i = .ok ((CgView.decode b).free i) := by
  rw [isFragFree, Outcome.guard_true hi]
  rfl

theorem allFragsFree_eq {base count : ℕ}
    (hin : ∀ i < base + count, CgOff.free + i / 8 < b.length) :
    allFragsFree b base count =
      .ok (decide (∀ o < count, (CgView.decode b).free (base + o) = true)) := by
  rw [allFragsFree, Outcome.allM_ok (q := fun o => (CgView.decode b).free (base + o))]
  · congr 1
    rw [Bool.eq_iff_iff]
    simp [List.all_eq_true]
  · intro o ho
    have ho' := List.mem_range.mp ho
    exact isFragFree_eq (hin _ (by omega))

/-- The scan returns the first aligned block of free fragments, if there is one. -/
theorem searchFreeBlock_eq {ndblk frag : ℕ} (hfrag : 0 < frag)
    (hin : ∀ i < ndblk, CgOff.free + i / 8 < b.length) :
    ∀ fuel start, ndblk + 1 ≤ start + fuel →
    ∃ r, searchFreeBlock b ndblk frag fuel start = .ok r ∧
      match r with
      | some f => frag ∣ f - start ∧ start ≤ f ∧ f + frag ≤ ndblk ∧
          ∀ o < frag, (CgView.decode b).free (f + o) = true
      | none => ∀ f, start ≤ f → frag ∣ f - start → f + frag ≤ ndblk →
          ¬∀ o < frag, (CgView.decode b).free (f + o) = true := by
  intro fuel
  induction fuel with
  | zero =>
    intro start hf
    exact ⟨none, rfl, fun f h1 _ h3 => by omega⟩
  | succ fuel ih =>
    intro start hf
    rw [searchFreeBlock]
    by_cases hlt : start + frag < ndblk + 1
    · rw [if_pos hlt, allFragsFree_eq fun i hi => hin i (by omega)]
      by_cases hall : ∀ o < frag, (CgView.decode b).free (start + o) = true
      · refine ⟨some start, ?_, ?_⟩
        · rw [decide_eq_true hall]
          rfl
        · exact ⟨by simp, le_rfl, by omega, hall⟩
      · obtain ⟨r, hr, hpost⟩ := ih (start + frag) (by omega)
        refine ⟨r, ?_, ?_⟩
        · rw [decide_eq_false hall]
          exact hr
        · cases r with
          | some f =>
            obtain ⟨hd, h1, h2, h3⟩ := hpost
            refine ⟨?_, by omega, h2, h3⟩
            have he : f - start = f - (start + frag) + frag := by omega
            rw [he]
            exact Nat.dvd_add_self_right.mpr hd
          | none =>
            intro f h1 hd h2
            by_cases hfs : f = start
            · rw [hfs]
              exact hall
            · have hle := Nat.le_of_dvd (by omega) hd
              have he : f - start = f - (start + frag) + frag := by omega
              rw [he, Nat.dvd_add_self_right] at hd
              exact hpost f (by omega) hd h2
    · rw [if_neg hlt]
      exact ⟨none, rfl, fun f h1 _ h3 => by omega⟩

end Buffer

/-! ## Specifications -/

/-- `new` runs were added to the ledger, one free block for each. -/
structure Took (sb : Superblock) (D D' : Disk) (runs new : List Run) : Prop where
  space : Space sb D' (new ++ runs)
  only : SpaceOnly D D' new
  room : D'.total.nbfree + new.length = D.total.nbfree
  heads : Heads sb new

theorem Took.refl {sb : Superblock} {D : Disk} {runs : List Run} (h : Space sb D runs) :
    Took sb D D runs [] :=
  ⟨h, SpaceOnly.refl D [], rfl, fun _ hr => absurd hr List.not_mem_nil⟩

theorem Took.trans {sb : Superblock} {D D' D'' : Disk} {runs xs ys : List Run}
    (h : Took sb D D' runs xs) (h' : Took sb D' D'' (xs ++ runs) ys) :
    Took sb D D'' runs (ys ++ xs) where
  space := by
    rw [List.append_assoc]
    exact h'.space
  only := (h.only.trans h'.only).mono fun f hf => by
    rw [covered_append] at hf ⊢
    exact hf.symm
  room := by
    have := h.room
    have := h'.room
    rw [List.length_append]
    omega
  heads := h'.heads.append h.heads

variable {ufs : Ufs} {D : Disk} {runs : List Run}

theorem Space.freeBlock_iff {sb : Superblock} (g : sb.Geometry) (h : Space sb D runs) {c i : ℕ}
    (hc : c < sb.ncg) (hi : sb.frag ∣ i) :
    FreeBlock sb D c i ↔ i / sb.frag ∈ (D.cg c).wholeBlocks sb := by
  have hfrag := g.frag_pos
  have hk : i / sb.frag * sb.frag = i := Nat.div_mul_cancel hi
  simp only [CgView.wholeBlocks, Finset.mem_filter, Finset.mem_range, hk]
  constructor
  · intro hb
    have := hb.inside
    have := Superblock.groupFrags_le sb c
    exact ⟨(Nat.div_le_self _ _).trans_lt (by omega), hb.free⟩
  · rintro ⟨-, hall⟩
    have hfirst := h.free_data c hc _ (hall 0 (by omega))
    have hlast := h.free_data c hc _ (hall (sb.frag - 1) (by omega))
    exact ⟨hc, by omega, hi, by omega, hall⟩

/-- The superblock's count is zero exactly when no block is free. -/
theorem Space.nbfree_pos {sb : Superblock} (g : sb.Geometry) (h : Space sb D runs)
    (hpos : 0 < D.total.nbfree) : ∃ c i, FreeBlock sb D c i := by
  rw [h.total, Finset.sum_pos_iff] at hpos
  obtain ⟨c, hc, hpos⟩ := hpos
  obtain ⟨k, hk⟩ := Finset.card_pos.mp hpos
  refine ⟨c, k * sb.frag, (h.freeBlock_iff g (Finset.mem_range.mp hc) (Nat.dvd_mul_left _ _)).mpr ?_⟩
  rwa [Nat.mul_div_cancel _ (by have := g.frag_pos; omega)]

theorem Space.no_freeBlock {sb : Superblock} (g : sb.Geometry) (h : Space sb D runs)
    (hz : D.total.nbfree = 0) {c i : ℕ} : ¬FreeBlock sb D c i := by
  intro hb
  rw [h.total, Finset.sum_eq_zero_iff] at hz
  have hmem := (h.freeBlock_iff g hb.group hb.aligned).mp hb
  have hcard := hz c (Finset.mem_range.mpr hb.group)
  rw [Finset.card_eq_zero] at hcard
  rw [hcard] at hmem
  exact absurd hmem (Finset.notMem_empty _)

theorem FreeBlock.nbfree_pos {sb : Superblock} (g : sb.Geometry) (h : Space sb D runs) {c i : ℕ}
    (hb : FreeBlock sb D c i) : 0 < D.total.nbfree :=
  Nat.pos_of_ne_zero fun hz => h.no_freeBlock g hz hb

/-- An error that left the view as it was. -/
def Unchanged (ufs : Ufs) (D : Disk) (p : Prop) (_ : Fault) (image : Bytes) : Prop :=
  ufs.Holds image D ∧ p

section Alloc
variable {E : Fault → Bytes → Prop}

/-- The view after `count` fragments were taken from the free block at `i` in group `c` and
cleared. -/
def Disk.takeRun (sb : Superblock) (D : Disk) (c i count bytes : ℕ) : Disk :=
  (D.account c (((D.cg c).mark i count false).withBlocks (bump (D.cg c).counts.nbfree (-1)))
    (bump D.total.nbfree (-1))).write ((c * sb.fpg + i) * 512) (Bytes.zeros bytes)

/-- One round on a group: its first free block, or nothing if it has none. -/
theorem takeRunIn_hoare (g : ufs.sb.Geometry) {c count bytes : ℕ} (hc : c < ufs.sb.ncg)
    (hmag : (D.cg c).magic = ufsCgMagic) (hnd : (D.cg c).ndblk = ufs.sb.groupFrags c)
    (hle : count ≤ ufs.sb.frag) (hbytes : bytes ≤ ufs.sb.bsize) :
    (allocateRunIn ufs count bytes c).hoare ufs.Holds D
      (fun r D' => match r with
        | some b => ∃ i, FreeBlock ufs.sb D c i ∧ b = c * ufs.sb.fpg + i ∧
            D' = D.takeRun ufs.sb c i count bytes
        | none => D' = D ∧ ∀ i, ¬FreeBlock ufs.sb D c i) E := by
  refine (readAllocatableCgBlock_hoare hc hmag).bind ?_
  rintro b D' ⟨rfl, hlen, hdec⟩
  have hmagic : b.u32 CgOff.magic = ufsCgMagic := by
    rw [← hmag, ← hdec]
    rfl
  have hndblk : b.u32 CgOff.ndblk = ufs.sb.groupFrags c := by
    rw [← hnd, ← hdec]
    rfl
  have hg := Superblock.groupFrags_le ufs.sb c
  have hge := g.groupFrags_ge hc
  have hfrag := g.frag_pos
  have hdvd := g.dblkno_dvd
  have hbit : ∀ i < ufs.sb.groupFrags c, CgOff.free + i / 8 < b.length := fun i hi => by
    rw [hlen]
    exact g.free_byte (by omega)
  rw [if_neg (by simp [hmagic]), hndblk, g.cgdmin_mod]
  dsimp only
  obtain ⟨r, hr, hpost⟩ := @searchFreeBlock_eq b (ufs.sb.groupFrags c) ufs.sb.frag (by omega)
    hbit (ufs.sb.groupFrags c + 1) ufs.sb.dblkno (by omega)
  refine Act.hoare_lift_bind hr ?_
  rw [hdec] at hpost
  cases r with
  | none =>
    refine Act.hoare_pure ⟨rfl, fun i hb => hpost i hb.data ?_ hb.inside hb.free⟩
    exact Nat.dvd_sub hb.aligned hdvd
  | some i =>
    obtain ⟨hd, hlo, hin, hfree⟩ := hpost
    have hal : ufs.sb.frag ∣ i := by
      have := Nat.dvd_add hd hdvd
      rwa [Nat.sub_add_cancel hlo] at this
    have hblock : FreeBlock ufs.sb D' c i := ⟨hc, hlo, hal, hin, hfree⟩
    obtain ⟨b', hb', hl', hd'⟩ := @setFragRun_eq b i count false fun j hj => hbit j (by omega)
    refine Act.hoare_lift_bind hb' ?_
    have hbase : ufs.sb.cgbase c + i = c * ufs.sb.fpg + i := by
      rw [Superblock.cgbase, Nat.mul_comm]
    have hrun := hblock.isRun g (by omega) le_rfl
    have hdec' : CgView.decode (adjustCgFreeBlocks b' (-1)) =
        ((D'.cg c).mark i count false).withBlocks (bump (D'.cg c).counts.nbfree (-1)) := by
      rw [decode_adjustCgFreeBlocks (by rw [hl', hlen]; exact g.free_le_bsize), hd', hdec]
      rfl
    refine (writeCgBlock_hoare hc ?_ rfl).seq ?_
    · rw [adjustCgFreeBlocks, adjustU32At, Bytes.putU32_length, hl', hlen]
      rw [hl', hlen]
      have := g.free_le_bsize
      simp only [CgOff.free, CgOff.nbfree] at this ⊢
      omega
    rw [hdec']
    refine (adjustSuperblockFreeBlocks_hoare rfl).seq ?_
    rw [hbase, g.dataBlockOffset_eq]
    have hdata : ufs.sb.InData ((c * ufs.sb.fpg + i) * 512) (Bytes.zeros bytes).length :=
      hrun.inData g (by rw [Bytes.zeros_length, ← g.bsize_eq]; exact hbytes)
    refine (putData_hoare hdata ?_ rfl).seq (Act.hoare_pure ⟨i, hblock, rfl, rfl⟩)
    have hend := (hrun.inData g g.bsize_eq.le).inside g (by rw [g.bsize_eq]; omega)
    rw [Bytes.zeros_length]
    omega

/-- A taken run in the ledger. -/
theorem FreeBlock.took {sb : Superblock} (g : sb.Geometry) (h : Space sb D runs)
    {c i count bytes : ℕ} (hblock : FreeBlock sb D c i) (hpos : 0 < count) (hle : count ≤ sb.frag)
    (hbytes : bytes ≤ count * 512) :
    Took sb D (D.takeRun sb c i count bytes) runs [(c * sb.fpg + i, count)] := by
  refine ⟨(h.alloc g hblock hpos hle).congr rfl rfl, ?_, ?_, fun r hr => ?_⟩
  · refine (SpaceOnly.trans (D.account_spaceOnly (by rfl)) (@Disk.write_spaceOnly _
      _ _ [(c * sb.fpg + i, count)] fun a h1 h2 => ?_)).mono fun f hf => hf
    rw [Bytes.zeros_length] at h2
    refine covered_cons.mpr (.inl ⟨?_, ?_⟩)
    · simp only
      omega
    · simp only
      omega
  · have hp := hblock.nbfree_pos g h
    have hfrag := g.frag_pos
    have hsum := h.sum_wholeBlocks_le (by omega)
    have hdl := g.dsize_lt
    rw [← h.total] at hsum
    have : bump D.total.nbfree (-1) = D.total.nbfree - 1 := bump_eq (by omega) (by omega)
    simp only [Disk.takeRun, Disk.write_total, Disk.account_nbfree, List.length_singleton, this]
    omega
  · rw [List.mem_singleton.mp hr]
    exact hblock.atHead g

/-- The group loop starts anywhere and reaches every group. -/
theorem exists_attempt (g : ufs.sb.Geometry) (start : ℕ) {c : ℕ} (hc : c < ufs.sb.ncg) :
    ∃ a < ufs.sb.ncg, (start + a) % ufs.sb.ncg = c := by
  have hs := Nat.mod_lt start g.ncg_pos
  by_cases hcs : start % ufs.sb.ncg ≤ c
  · refine ⟨c - start % ufs.sb.ncg, by omega, ?_⟩
    rw [← Nat.mod_add_mod, Nat.add_sub_cancel' hcs, Nat.mod_eq_of_lt hc]
  · refine ⟨ufs.sb.ncg + c - start % ufs.sb.ncg, by omega, ?_⟩
    rw [← Nat.mod_add_mod, Nat.add_sub_cancel' (by omega), Nat.add_mod_left, Nat.mod_eq_of_lt hc]

/-- The group loop takes a free block, or finds that none is left. -/
theorem allocateRun_takes (g : ufs.sb.Geometry) (h : Space ufs.sb D runs) {n count bytes : ℕ}
    {failure : Fault} (hle : count ≤ ufs.sb.frag) (hbytes : bytes ≤ ufs.sb.bsize) :
    (allocateRun ufs n count bytes failure).hoare ufs.Holds D
      (fun b D' => ∃ c i, FreeBlock ufs.sb D c i ∧ b = c * ufs.sb.fpg + i ∧
        D' = D.takeRun ufs.sb c i count bytes)
      (Unchanged ufs D (∀ c i, ¬FreeBlock ufs.sb D c i)) := by
  -- every group is visited, so a group left out has no free block
  have hloop : (Act.firstSome (fun attempt => allocateRunIn ufs count bytes
      ((ufs.sb.itog n + attempt) % ufs.sb.ncg)) (List.range ufs.sb.ncg)).hoare ufs.Holds D
      (fun r D' => match r with
        | some b => ∃ c i, FreeBlock ufs.sb D c i ∧ b = c * ufs.sb.fpg + i ∧
            D' = D.takeRun ufs.sb c i count bytes
        | none => D' = D ∧ ∀ c i, ¬FreeBlock ufs.sb D c i)
      (Unchanged ufs D (∀ c i, ¬FreeBlock ufs.sb D c i)) := by
    refine Act.hoare_firstSome
      (fun as d => d = D ∧ ∀ a < ufs.sb.ncg, a ∈ as ∨
        ∀ i, ¬FreeBlock ufs.sb D ((ufs.sb.itog n + a) % ufs.sb.ncg) i) ?_ ?_ ?_
    · rintro a as d ⟨rfl, hrest⟩
      have hc := Nat.mod_lt (ufs.sb.itog n + a) g.ncg_pos
      refine (takeRunIn_hoare g hc (h.magic _ hc) (h.ndblk _ hc) hle hbytes).post ?_
      intro r d' hr
      cases r with
      | some b => exact ⟨_, hr⟩
      | none =>
        obtain ⟨rfl, hnone⟩ := hr
        refine ⟨rfl, fun a' ha' => ?_⟩
        cases hrest a' ha' with
        | inr hm => exact .inr hm
        | inl hm =>
          cases List.mem_cons.mp hm with
          | inl he => exact .inr (he ▸ hnone)
          | inr hm => exact .inl hm
    · rintro d ⟨rfl, hrest⟩
      refine ⟨rfl, fun c i hb => ?_⟩
      have hc := hb.group
      obtain ⟨a, ha, he⟩ := exists_attempt g (ufs.sb.itog n) hc
      cases hrest a ha with
      | inl hm => exact absurd hm List.not_mem_nil
      | inr hm => exact hm i (he ▸ hb)
    · exact ⟨rfl, fun a ha => .inl (List.mem_range.mpr ha)⟩
  refine hloop.bind ?_
  intro r d hr
  cases r with
  | some b => exact Act.hoare_pure hr
  | none =>
    obtain ⟨rfl, hnone⟩ := hr
    exact Act.hoare_fail fun image hi => ⟨hi, hnone⟩

theorem allocateRun_hoare (g : ufs.sb.Geometry) (h : Space ufs.sb D runs) {n count bytes : ℕ}
    {failure : Fault} (hpos : 0 < count) (hle : count ≤ ufs.sb.frag) (hbytes : bytes ≤ count * 512) :
    (allocateRun ufs n count bytes failure).hoare ufs.Holds D
      (fun b D' => Took ufs.sb D D' runs [(b, count)])
      (Unchanged ufs D (D.total.nbfree = 0)) := by
  have hbs := g.bsize_eq
  refine (allocateRun_takes g h hle (by omega)).mono ?_ ?_
  · rintro b D' ⟨c, i, hblock, rfl, rfl⟩
    exact hblock.took g h hpos hle hbytes
  · rintro e image ⟨hi, hnone⟩
    refine ⟨hi, ?_⟩
    rw [← Nat.le_zero, ← Nat.not_lt]
    intro hp
    obtain ⟨c, i, hb⟩ := h.nbfree_pos g hp
    exact hnone c i hb

theorem allocateBlock_hoare (g : ufs.sb.Geometry) (h : Space ufs.sb D runs) {n : ℕ} :
    (allocateBlock ufs n).hoare ufs.Holds D
      (fun b D' => Took ufs.sb D D' runs [(b, ufs.sb.frag)])
      (Unchanged ufs D (D.total.nbfree = 0)) := by
  have := g.frag_pos
  exact allocateRun_hoare g h (by omega) le_rfl g.bsize_eq.le

/-- Sizes that `allocationByteSizes` produces: whole fragments, at most a block. -/
def Superblock.AllocSize (sb : Superblock) (bytes : ℕ) : Prop :=
  0 < bytes ∧ bytes ≤ sb.bsize ∧ 512 ∣ bytes

theorem allocateAllocation_hoare (g : ufs.sb.Geometry) (h : Space ufs.sb D runs) {n bytes : ℕ}
    (hs : ufs.sb.AllocSize bytes) :
    (allocateAllocation ufs n bytes).hoare ufs.Holds D
      (fun b D' => Took ufs.sb D D' runs [(b, bytes / 512)])
      (Unchanged ufs D (D.total.nbfree = 0)) := by
  obtain ⟨hpos, hle, hdvd⟩ := hs
  have hb := g.bsize_eq
  rw [allocateAllocation, if_neg (by omega)]
  by_cases he : bytes = ufs.sb.bsize
  · rw [if_pos he]
    have hfrag : bytes / 512 = ufs.sb.frag := by omega
    rw [hfrag]
    exact allocateBlock_hoare g h
  · rw [if_neg he, allocateFragments, g.fsize_eq, if_neg (by omega)]
    exact allocateRun_hoare g h (by omega) (by omega) (by omega)

theorem freeAllocation_hoare (g : ufs.sb.Geometry) {f bytes : ℕ}
    (h : Space ufs.sb D ((f, bytes / 512) :: runs)) :
    (freeAllocation ufs f bytes).hoare ufs.Holds D
      (fun _ D' => Space ufs.sb D' runs ∧ SpaceOnly D D' []) E := by
  have hbs := g.bsize_eq
  have hfrag := g.frag_cases
  obtain ⟨hc, hlo, hcount, hhi, hin⟩ :
      f / ufs.sb.fpg < ufs.sb.ncg ∧ ufs.sb.dblkno ≤ f % ufs.sb.fpg ∧ 0 < bytes / 512 ∧
      f % ufs.sb.fpg + bytes / 512 ≤ ufs.sb.groupFrags (f / ufs.sb.fpg) ∧
      f % ufs.sb.fpg % ufs.sb.frag + bytes / 512 ≤ ufs.sb.frag :=
    h.isRun _ (List.mem_cons_self ..)
  have hwhole := h.release_whole g
  have hpart := h.release_part g
  generalize hcdef : f / ufs.sb.fpg = c at *
  generalize hi : f % ufs.sb.fpg = i at *
  have hg := Superblock.groupFrags_le ufs.sb c
  set w := (D.cg c).mark i (bytes / 512) true with hw
  have hcore : w.core = (D.cg c).core := rfl
  have hmagic : ∀ b, CgView.decode b = D.cg c → b.u32 CgOff.magic = ufsCgMagic := by
    intro b hdec
    rw [← h.magic c hc, ← hdec]
    rfl
  have hset : ∀ b : Bytes, b.length = ufs.sb.bsize → CgView.decode b = D.cg c →
      ∃ b', setFragRun b i (bytes / 512) true = .ok b' ∧ b'.length = ufs.sb.bsize ∧
        CgView.decode b' = w := by
    intro b hlen hdec
    obtain ⟨b', hb', hl', hd'⟩ := @setFragRun_eq b i (bytes / 512) true fun j hj => by
      rw [hlen]
      exact g.free_byte (by omega)
    exact ⟨b', hb', hl'.trans hlen, by rw [hd', hdec]⟩
  have hadj : ∀ b : Bytes, b.length = ufs.sb.bsize →
      (adjustCgFreeBlocks b 1).length = ufs.sb.bsize := by
    intro b hlen
    have := g.free_le_bsize
    rw [adjustCgFreeBlocks, adjustU32At, Bytes.putU32_length, hlen]
    rw [hlen]
    simp only [CgOff.free, CgOff.nbfree] at this ⊢
    omega
  have hdadj : ∀ b : Bytes, b.length = ufs.sb.bsize → CgView.decode b = w →
      CgView.decode (adjustCgFreeBlocks b 1) = w.withBlocks (bump (D.cg c).counts.nbfree 1) := by
    intro b hlen hdec
    rw [decode_adjustCgFreeBlocks (by rw [hlen]; exact g.free_le_bsize), hdec]
    rfl
  rw [freeAllocation, if_neg (by omega)]
  by_cases he : bytes = ufs.sb.bsize
  · rw [if_pos he, freeBlock]
    dsimp only
    rw [hi, hcdef]
    refine (readCgBlock_hoare hc).bind ?_
    rintro b d ⟨rfl, hlen, hdec⟩
    rw [if_neg (by simp [hmagic b hdec])]
    obtain ⟨b', hb', hl', hd'⟩ := hset b hlen hdec
    have hcnt : bytes / 512 = ufs.sb.frag := by omega
    rw [hcnt] at hb'
    refine Act.hoare_lift_bind hb' ?_
    refine (writeCgBlock_hoare hc (hadj _ hl') rfl).seq ?_
    refine adjustSuperblockFreeBlocks_hoare ?_
    rw [hdadj _ hl' hd']
    refine ⟨hwhole fun o ho => ?_, Disk.account_spaceOnly _ hcore⟩
    simp only [hw, CgView.mark]
    rw [if_pos (by omega)]
  · rw [if_neg he]
    dsimp only
    rw [g.fsize_eq, hi, hcdef]
    refine (readCgBlock_hoare hc).bind ?_
    rintro b d ⟨rfl, hlen, hdec⟩
    rw [if_neg (by simp [hmagic b hdec])]
    obtain ⟨b', hb', hl', hd'⟩ := hset b hlen hdec
    refine Act.hoare_lift_bind hb' ?_
    have hall := @allFragsFree_eq b' (i - i % ufs.sb.frag) ufs.sb.frag fun j hj => by
      rw [hl']
      exact g.window_byte (by omega) hj
    rw [hd'] at hall
    refine Act.hoare_lift_bind hall ?_
    by_cases hall' : ∀ o < ufs.sb.frag, w.free (i - i % ufs.sb.frag + o) = true
    · rw [if_pos (by simpa using hall')]
      refine (adjustSuperblockFreeBlocks_hoare rfl).seq ?_
      refine writeCgBlock_hoare hc (hadj _ hl') ?_
      rw [hdadj _ hl' hd']
      exact ⟨hwhole hall', Disk.account_spaceOnly _ hcore⟩
    · rw [if_neg (by simpa using hall')]
      refine writeCgBlock_hoare hc hl' ?_
      rw [hd']
      exact ⟨hpart hall', Disk.account_spaceOnly _ hcore⟩

end Alloc
end UfsFuse
