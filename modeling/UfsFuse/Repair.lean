import UfsFuse.Regions

/-!
# Repair

`recompute_summary_counts` on an image with any stored counts. One round settles one group: the
header holds the canonical fields of the bitmaps behind it, the summary area repeats the counts,
and a second round would store the same bytes. What a round writes is apart from everything that
settles another group, so a run settles all groups and is the identity on what it leaves.
-/
namespace UfsFuse

/-! ## Images that agree outside a set of bytes -/

/-- Two images of one length that agree outside `S`. -/
structure SameOutside (S : Set ℕ) (a b : Bytes) : Prop where
  length : b.length = a.length
  byte : ∀ i, i ∉ S → b.byte i = a.byte i

namespace SameOutside
variable {S T : Set ℕ} {a b c : Bytes}

theorem refl (S : Set ℕ) (a : Bytes) : SameOutside S a a := ⟨rfl, fun _ _ => rfl⟩

theorem mono (h : SameOutside S a b) (hST : S ⊆ T) : SameOutside T a b :=
  ⟨h.length, fun i hi => h.byte i fun hS => hi (hST hS)⟩

theorem trans (h : SameOutside S a b) (h' : SameOutside T b c) : SameOutside (S ∪ T) a c := by
  refine ⟨h'.length.trans h.length, fun i hi => ?_⟩
  rw [Set.mem_union, not_or] at hi
  exact (h'.byte i hi.2).trans (h.byte i hi.1)

theorem overlay {off : ℕ} {src : Bytes} (h : off + src.length ≤ a.length) :
    SameOutside (Set.Ico off (off + src.length)) a (a.overlay off src) := by
  refine ⟨Bytes.overlay_length h, fun i hi => ?_⟩
  rw [Bytes.byte_overlay h, if_neg]
  exact hi

theorem slice {o n : ℕ} (h : SameOutside S a b) (hd : Disjoint (Set.Ico o (o + n)) S) :
    b.slice o n = a.slice o n := by
  apply Bytes.ext_byte
  · simp only [Bytes.slice, List.length_take, List.length_drop, h.length]
  · intro i hi
    have hlt : i < n := hi.trans_le (Bytes.slice_length_le b o n)
    rw [Bytes.byte_slice hlt, Bytes.byte_slice hlt]
    apply h.byte
    exact Set.disjoint_left.mp hd ⟨Nat.le_add_right _ _, by omega⟩

end SameOutside

/-! ## The places that a round writes -/

/-- The group header block. -/
def cgHeader (image : Bytes) (ufs : Ufs) (c : ℕ) : Bytes :=
  image.slice (cgBlockOffset ufs c) ufs.sb.bsize

/-- The bytes behind the fields of a group header: the maps, the magic and what follows. -/
def cgMaps (image : Bytes) (ufs : Ufs) (c : ℕ) : Bytes :=
  (cgHeader image ufs c).slice CgOff.iused (ufs.sb.bsize - CgOff.iused)

/-- Where the summary area has the counts of group `c`. -/
def csumPlace (ufs : Ufs) (c : ℕ) : ℕ :=
  ufs.sb.dataBlockOffset ufs.startOffset ufs.sb.csaddr + c * ufsCsumSize

def csumSlot (ufs : Ufs) (c : ℕ) : Set ℕ := Set.Ico (csumPlace ufs c) (csumPlace ufs c + ufsCsumSize)

/-- The bytes that the round of group `c` may change. -/
def touched (ufs : Ufs) (c : ℕ) : Set ℕ := (Region.header c).bytes ufs ∪ csumSlot ufs c

/-- A slice as the formatter lays it out; the last group may be cut short anywhere. -/
structure Ufs.Shaped (ufs : Ufs) : Prop where
  group : ufs.sb.oneGroup.Geometry
  super : ufs.superOffset = ufs.startOffset + ufsSbOffset
  summary : ufs.sb.ncg * ufsCsumSize ≤ ufs.sb.cssize
  inodes_lt : ufs.sb.ncg * ufs.sb.ipg < 2 ^ 32
  dsize_pos : 0 < ufs.sb.dsize
  dsize_lt : ufs.sb.dsize < 2 ^ 32

namespace Ufs.Shaped
variable {ufs : Ufs} (h : ufs.Shaped) {c c' n : ℕ}
include h

theorem csumOffset_eq (hc : c < ufs.sb.ncg) : csumOffset ufs c = some (csumPlace ufs c) := by
  have hcsaddr : 32 ≤ ufs.sb.csaddr := h.group.csaddr_ge
  have hroom : (c + 1) * ufsCsumSize ≤ ufs.sb.ncg * ufsCsumSize := Nat.mul_le_mul_right _ hc
  have hsummary := h.summary
  unfold csumOffset
  rw [if_neg (by omega)]
  rfl

theorem csumSlot_subset (hc : c < ufs.sb.ncg) : csumSlot ufs c ⊆ Region.summary.bytes ufs := by
  have hroom : (c + 1) * ufsCsumSize ≤ ufs.sb.ncg * ufsCsumSize := Nat.mul_le_mul_right _ hc
  have hsummary := h.summary
  rw [Nat.add_mul, Nat.one_mul] at hroom
  unfold csumSlot Region.bytes
  simp only [Region.start, Region.stop, csumPlace]
  exact Set.Ico_subset_Ico (Nat.le_add_right _ _) (by omega)

omit h in
theorem csumSlot_disjoint (hne : c ≠ c') : Disjoint (csumSlot ufs c) (csumSlot ufs c') := by
  unfold csumSlot csumPlace
  rw [Set.Ico_disjoint_Ico]
  simp only [ufsCsumSize]
  omega

/-- What a round writes is in no other region. -/
theorem touched_region (hc : c < ufs.sb.ncg) {r : Region} (hh : r ≠ Region.header c)
    (hs : r ≠ Region.summary) : Disjoint (r.bytes ufs) (touched ufs c) := by
  unfold touched
  rw [Set.disjoint_union_right]
  exact ⟨Region.disjoint h.group h.super hh,
    (Region.disjoint h.group h.super hs).mono_right (h.csumSlot_subset hc)⟩

theorem touched_inode (hc : c < ufs.sb.ncg) (n : ℕ) :
    Disjoint (inodeSlot ufs n) (touched ufs c) := by
  refine (h.touched_region hc ?_ ?_).mono_left (inodeSlot_inside h.group h.super n)
  · exact Region.noConfusion
  · exact Region.noConfusion

theorem touched_header (hc : c < ufs.sb.ncg) (hne : c' ≠ c) :
    Disjoint ((Region.header c').bytes ufs) (touched ufs c) := by
  refine h.touched_region hc ?_ Region.noConfusion
  intro heq
  exact hne (Region.header.inj heq)

theorem touched_csum (hc' : c' < ufs.sb.ncg) (hne : c' ≠ c) :
    Disjoint (csumSlot ufs c') (touched ufs c) := by
  unfold touched
  rw [Set.disjoint_union_right]
  refine ⟨(Region.disjoint h.group h.super ?_).mono_left (h.csumSlot_subset hc'),
    csumSlot_disjoint hne⟩
  exact Region.noConfusion

end Ufs.Shaped

/-! ## What the canonical header depends on -/

/-- Reading an inode looks at its slot only. -/
theorem SameOutside.readInode {ufs : Ufs} {S : Set ℕ} {image image' : Bytes} {n : ℕ}
    (h : SameOutside S image image') (hd : Disjoint (inodeSlot ufs n) S) :
    UfsFuse.readInode image' ufs n = UfsFuse.readInode image ufs n := by
  unfold UfsFuse.readInode
  dsimp only
  rw [h.length, h.slice hd]

section Canonical
variable {ufs : Ufs} {image image' b b' : Bytes} {c : ℕ}

/-- The bitmaps and the inodes decide, with the fields that are kept. -/
theorem expectedCgHeader_congr (h : SameOutside (Set.Iio CgOff.iused) b b')
    (htime : b'.u32 CgOff.time = b.u32 CgOff.time) (hndblk : b'.u32 CgOff.ndblk = b.u32 CgOff.ndblk)
    (hrotor : clampTo (b.u32 CgOff.ndblk) (b'.u32 CgOff.rotor) =
      clampTo (b.u32 CgOff.ndblk) (b.u32 CgOff.rotor))
    (hfrotor : clampTo (b.u32 CgOff.ndblk) (b'.u32 CgOff.frotor) =
      clampTo (b.u32 CgOff.ndblk) (b.u32 CgOff.frotor))
    (hirotor : clampTo ufs.sb.ipg (b'.u32 CgOff.irotor) =
      clampTo ufs.sb.ipg (b.u32 CgOff.irotor))
    (hread : ∀ n, UfsFuse.readInode image' ufs n = UfsFuse.readInode image ufs n) :
    expectedCgHeader image' ufs c b' = expectedCgHeader image ufs c b := by
  have hbit : ∀ base i, CgOff.iused ≤ base → bitAt b' base i = bitAt b base i := by
    intro base i hbase
    rw [bitAt, bitAt, h.byte]
    simp only [Set.mem_Iio, not_lt]
    exact hbase.trans (Nat.le_add_right _ _)
  have hused : ∀ i, isInodeUsed b' i = isInodeUsed b i := by
    intro i
    rw [isInodeUsed, isInodeUsed, h.length, hbit _ _ le_rfl]
  have hfree : ∀ i, isFragFree b' i = isFragFree b i := by
    intro i
    rw [isFragFree, isFragFree, h.length, hbit _ _ (by norm_num)]
  have hwindow : ∀ i, fragBlockFreeBits b' i ufs.sb.frag = fragBlockFreeBits b i ufs.sb.frag := by
    intro i
    unfold fragBlockFreeBits getSlice
    dsimp only
    rw [h.length, h.slice]
    rw [Set.disjoint_left]
    intro j hj hlt
    have hle := hj.1
    simp only [Set.mem_Iio, CgOff.free, CgOff.iused] at hlt hle
    exact absurd hlt (not_lt.mpr ((Nat.le_add_right _ _).trans' (by norm_num) |>.trans hle))
  have hcount : countInodes image' ufs c b' = countInodes image ufs c b := by
    unfold countInodes
    simp only [hused, hread]
  have hscan : ∀ n, scanFragments ufs.sb b' n = scanFragments ufs.sb b n := by
    intro n
    have hstep : scanWindow ufs.sb b' = scanWindow ufs.sb b := by
      funext acc i
      unfold scanWindow
      rw [hwindow]
    unfold scanFragments
    simp only [hstep, hfree]
  unfold clampTo at hrotor hfrotor hirotor
  unfold expectedCgHeader
  dsimp only
  rw [hcount, hndblk]
  simp only [hscan, htime, hrotor, hfrotor, hirotor]

end Canonical

theorem clampTo_clampTo (bound v : ℕ) : clampTo bound (clampTo bound v) = clampTo bound v := by
  unfold clampTo
  split_ifs <;> rfl

/-- Below the map of the inodes a recounted header is the canonical one and the counts. -/
theorem recountedHeader_low {b header : Bytes} {t : Csum} {i : ℕ} (hb : CgOff.free ≤ b.length)
    (hl : header.length = b.length) (hi : i < 724) :
    (recountedHeader b header t).byte i =
      if 24 ≤ i ∧ i < 40 then (csumBytes t).byte (i - 24) else header.byte i := by
  obtain ⟨hs, h₁, h₂⟩ := @recountedHeader_inside b header t hb hl
  rw [recountedHeader, Bytes.byte_overlay h₂, csumBytes_length]
  simp only [CgOff.ndir, Nat.reduceAdd]
  by_cases hcounts : 24 ≤ i ∧ i < 40
  · rw [if_pos hcounts, if_pos hcounts]
  · rw [if_neg hcounts, if_neg hcounts, Bytes.byte_overlay h₁, if_pos, Nat.sub_zero,
      Bytes.byte_slice (by simpa using hi), Nat.zero_add]
    rw [hs]
    exact ⟨Nat.zero_le _, by simpa using hi⟩

/-- Putting the same header in twice is putting it in once. -/
theorem recountedHeader_again {b header : Bytes} {t : Csum} (hb : CgOff.free ≤ b.length)
    (hl : header.length = b.length) :
    recountedHeader (recountedHeader b header t) header t = recountedHeader b header t := by
  have hlen := @recountedHeader_length b header t hb hl
  have hb' : CgOff.free ≤ (recountedHeader b header t).length := by rw [hlen]; exact hb
  have hl' : header.length = (recountedHeader b header t).length := by rw [hlen]; exact hl
  refine Bytes.ext_byte (recountedHeader_length hb' hl') fun i _ => ?_
  by_cases hi : i < 724
  · rw [recountedHeader_low hb' hl' hi, recountedHeader_low hb hl hi]
  · exact recountedHeader_byte hb' hl' (not_lt.mp hi)

/-! ## Settled groups -/

/-- The header of group `c` is valid: it has the magic and the length of the group. -/
structure HeaderValid (image : Bytes) (ufs : Ufs) (c : ℕ) : Prop where
  magic : (cgHeader image ufs c).u32 CgOff.magic = ufsCgMagic
  ndblk : (cgHeader image ufs c).u32 CgOff.ndblk = cgDataFragCount ufs c

/-- The header of group `c` was never written. -/
def HeaderZero (image : Bytes) (ufs : Ufs) (c : ℕ) : Prop := ∀ x ∈ cgHeader image ufs c, x = 0

/-- The counts of group `c`, over its bitmaps and its inodes. -/
def groupCounts (image : Bytes) (ufs : Ufs) (c : ℕ) : Csum :=
  (CgView.decode (cgHeader image ufs c)).direct ufs.sb c (readsDirectory image ufs)

/-- Group `c` is as a recount leaves it, with the counts `t`. -/
structure Settled (image : Bytes) (ufs : Ufs) (c : ℕ) (t : Csum) : Prop where
  inside : cgBlockOffset ufs c + ufs.sb.bsize ≤ image.length
  valid : HeaderValid image ufs c
  fixed : ∃ header, expectedCgHeader image ufs c (cgHeader image ufs c) = .ok (header, t) ∧
    recountedHeader (cgHeader image ufs c) header t = cgHeader image ufs c
  place : csumPlace ufs c + ufsCsumSize ≤ image.length
  stored : image.slice (csumPlace ufs c) ufsCsumSize = csumBytes t

section Settled
variable {ufs : Ufs} {image image' : Bytes} {c : ℕ} {t : Csum}

/-- Changes elsewhere leave a settled group settled. -/
theorem Settled.elsewhere {S : Set ℕ} (h : Settled image ufs c t) (hs : SameOutside S image image')
    (hheader : Disjoint ((Region.header c).bytes ufs) S) (hcsum : Disjoint (csumSlot ufs c) S)
    (hinodes : ∀ n, Disjoint (inodeSlot ufs n) S) : Settled image' ufs c t := by
  have hcg : cgHeader image' ufs c = cgHeader image ufs c := hs.slice hheader
  have hread : ∀ n, UfsFuse.readInode image' ufs n = UfsFuse.readInode image ufs n :=
    fun n => hs.readInode (hinodes n)
  obtain ⟨header, hexpected, hfixed⟩ := h.fixed
  refine ⟨hs.length ▸ h.inside, ⟨?_, ?_⟩, ⟨header, ?_, ?_⟩, hs.length ▸ h.place, ?_⟩
  · rw [hcg]
    exact h.valid.magic
  · rw [hcg]
    exact h.valid.ndblk
  · rw [hcg, ← hexpected]
    exact expectedCgHeader_congr (SameOutside.refl _ _) rfl rfl rfl rfl rfl hread
  · rw [hcg]
    exact hfixed
  · rw [← h.stored]
    exact hs.slice hcsum

/-- A second round over a settled group changes nothing. -/
theorem Settled.again (hs : ufs.Shaped) (hc : c < ufs.sb.ncg) (h : Settled image ufs c t) :
    recomputeGroup ufs c image = (.ok t, image) := by
  obtain ⟨header, hexpected, hfixed⟩ := h.fixed
  have hread : readCgBlock image ufs c = .ok (cgHeader image ufs c) := by
    rw [readCgBlock, getSlice, Outcome.guard_true h.inside]
    rfl
  have hput : ∀ {off len : ℕ}, off + len ≤ image.length →
      putSlice off (image.slice off len) image = (.ok (), image) := by
    intro off len hin
    have hl := Bytes.slice_length hin
    refine Act.update_eq_ok.mpr ?_
    rw [Outcome.guard_true (by rw [hl]; exact hin), Outcome.ok_bind, Bytes.overlay_slice_self hin]
    rfl
  unfold recomputeGroup
  refine Act.bind_eq_ok.mpr ⟨cgHeader image ufs c, image, Act.read_eq_ok.mpr ⟨hread, rfl⟩, ?_⟩
  rw [if_neg (by rw [h.valid.magic]; simp)]
  refine Act.bind_eq_ok.mpr ⟨cgHeader image ufs c, image, rfl, ?_⟩
  refine Act.bind_eq_ok.mpr ⟨(header, t), image, Act.read_eq_ok.mpr ⟨hexpected, rfl⟩, ?_⟩
  have hheader : writeCgBlock ufs c (recountedHeader (cgHeader image ufs c) header t) image =
      (.ok (), image) := by
    rw [hfixed]
    exact hput h.inside
  refine Act.bind_eq_ok.mpr ⟨(), image, hheader, ?_⟩
  rw [hs.csumOffset_eq hc]
  refine Act.bind_eq_ok.mpr ⟨(), image, ?_, rfl⟩
  have hsummary := hput h.place
  rw [h.stored] at hsummary
  exact hsummary

end Settled

/-! ## One round -/
section Round
variable {ufs : Ufs} {image image' : Bytes} {c : ℕ} {t : Csum}

theorem putSlice_eq_ok {off : ℕ} {src s s' : Bytes} {u : Unit} :
    putSlice off src s = (.ok u, s') ↔ off + src.length ≤ s.length ∧ s.overlay off src = s' := by
  unfold putSlice
  rw [Act.update_eq_ok, Outcome.bind_eq_ok]
  constructor
  · rintro ⟨_, hguard, hput⟩
    exact ⟨Outcome.guard_eq_ok.mp hguard, Outcome.ok.inj hput⟩
  · rintro ⟨hle, rfl⟩
    exact ⟨(), Outcome.guard_true hle, rfl⟩

/-- The header block that a round starts from. -/
def startCgBlock (ufs : Ufs) (c : ℕ) (current : Bytes) : Write Bytes :=
  if current.u32 CgOff.magic ≠ ufsCgMagic then
    if looksLikePristineCg current then initializePristineCg ufs c
    else Act.fail (.invalidCgNormalizing c)
  else pure current

/-- The rest of a round. -/
def storeCgBlock (ufs : Ufs) (c : ℕ) (b : Bytes) : Write Csum := do
  let expected ← Act.read fun image => expectedCgHeader image ufs c b
  writeCgBlock ufs c (recountedHeader b expected.1 expected.2)
  match csumOffset ufs c with
  | some offset => putSlice offset (csumBytes expected.2)
  | none => pure ()
  pure expected.2

theorem recomputeGroup_eq (ufs : Ufs) (c : ℕ) : recomputeGroup ufs c = (do
    let current ← Act.read fun image => readCgBlock image ufs c
    let b ← startCgBlock ufs c current
    storeCgBlock ufs c b) := by
  unfold recomputeGroup startCgBlock
  congr 1
  funext current
  split_ifs <;> rfl

/-- A valid header is kept to start from, and a group that was never written gets a fresh one. -/
theorem startCgBlock_valid (h : ufs.Shaped) {current b : Bytes}
    (hv : HeaderValid image ufs c ∨ HeaderZero image ufs c)
    (hcurrent : current = cgHeader image ufs c)
    (hrun : startCgBlock ufs c current image = (.ok b, image')) :
    SameOutside ((Region.header c).bytes ufs) image image' ∧ cgHeader image' ufs c = b ∧
      HeaderValid image' ufs c ∧ (HeaderValid image ufs c → image' = image) := by
  unfold startCgBlock at hrun
  by_cases hmagic : current.u32 CgOff.magic = ufsCgMagic
  · rw [if_neg (by simp [hmagic])] at hrun
    obtain ⟨hb, rfl⟩ : Outcome.ok current = Outcome.ok b ∧ image = image' := Prod.mk.inj hrun
    have hvalid : HeaderValid image ufs c := by
      rcases hv with hv | hzero
      · exact hv
      -- a header of zeros has no magic
      · exfalso
        have hzeros : current.slice CgOff.magic 4 = Bytes.zeros (current.slice CgOff.magic 4).length :=
          List.eq_replicate_of_mem fun x hx => by
            rw [hcurrent] at hx
            exact hzero x (List.mem_of_mem_drop (List.mem_of_mem_take hx))
        rw [Bytes.u32, hzeros, Bytes.leNat_zeros] at hmagic
        exact absurd hmagic (by decide)
    exact ⟨SameOutside.refl _ _, (Outcome.ok.inj hb) ▸ hcurrent.symm, hvalid, fun _ => rfl⟩
  · rw [if_pos hmagic] at hrun
    have hnot : ¬HeaderValid image ufs c := fun hvalid => hmagic (by rw [hcurrent]; exact hvalid.magic)
    by_cases hzero : looksLikePristineCg current = true
    · rw [if_pos hzero] at hrun
      obtain ⟨fresh, hl, hm, hn, -, -, heq⟩ := initializePristineCg_eq h.group c
      rw [heq] at hrun
      obtain ⟨_, u, hwrite, hrun⟩ := Act.bind_eq_ok.mp hrun
      obtain ⟨hb, rfl⟩ : Outcome.ok fresh = Outcome.ok b ∧ u = image' := Prod.mk.inj hrun
      obtain rfl : fresh = b := Outcome.ok.inj hb
      obtain ⟨hle, rfl⟩ := putSlice_eq_ok.mp hwrite
      have hcg : cgHeader (image.overlay (cgBlockOffset ufs c) fresh) ufs c = fresh := by
        rw [cgHeader, ← hl]
        exact Bytes.slice_overlay_same hle
      refine ⟨?_, hcg, ⟨?_, ?_⟩, fun hvalid => absurd hvalid hnot⟩
      · have hs := SameOutside.overlay hle
        rw [hl] at hs
        exact hs
      · rw [hcg]
        exact hm
      · rw [hcg]
        exact hn
    · rw [if_neg hzero] at hrun
      exact absurd hrun Act.fail_ne_ok

/-- What a round does to its group, and to nothing else. -/
theorem recomputeGroup_settles (h : ufs.Shaped) (hc : c < ufs.sb.ncg)
    (hv : HeaderValid image ufs c ∨ HeaderZero image ufs c)
    (hrun : recomputeGroup ufs c image = (.ok t, image')) :
    SameOutside (touched ufs c) image image' ∧ Settled image' ufs c t ∧
      (HeaderValid image ufs c → cgMaps image' ufs c = cgMaps image ufs c) := by
  rw [recomputeGroup_eq] at hrun
  obtain ⟨current, u, hread, hrun⟩ := Act.bind_eq_ok.mp hrun
  obtain ⟨hcurrent, rfl⟩ := Act.read_eq_ok.mp hread
  obtain ⟨_, hguard, hcurrent⟩ := Outcome.bind_eq_ok.mp hcurrent
  have hin := Outcome.guard_eq_ok.mp hguard
  obtain ⟨b, u₁, hstart, hrun⟩ := Act.bind_eq_ok.mp hrun
  obtain ⟨hsame, hb, hvalid, hkeep⟩ :=
    startCgBlock_valid h hv (Outcome.ok.inj hcurrent).symm hstart
  obtain ⟨⟨header, t'⟩, u, hcount, hrun⟩ := Act.bind_eq_ok.mp hrun
  obtain ⟨hexpected, rfl⟩ := Act.read_eq_ok.mp hcount
  obtain ⟨_, u₂, hwrite, hrun⟩ := Act.bind_eq_ok.mp hrun
  dsimp only at hwrite hrun
  rw [h.csumOffset_eq hc] at hrun
  obtain ⟨_, u₃, hsummary, hrun⟩ := Act.bind_eq_ok.mp hrun
  obtain ⟨ht, rfl⟩ : Outcome.ok t' = Outcome.ok t ∧ u₃ = image' := Prod.mk.inj hrun
  obtain rfl : t' = t := Outcome.ok.inj ht
  obtain ⟨hle₁, hu₂⟩ := putSlice_eq_ok.mp hwrite
  obtain ⟨hle₂, hu₃⟩ := putSlice_eq_ok.mp hsummary
  have hin₁ : cgBlockOffset ufs c + ufs.sb.bsize ≤ u₁.length := by
    rw [hsame.length]
    exact hin
  have hbl : b.length = ufs.sb.bsize := by
    rw [← hb]
    exact Bytes.slice_length hin₁
  have hndblk : b.u32 CgOff.ndblk = cgDataFragCount ufs c := by
    rw [← hb]
    exact hvalid.ndblk
  obtain ⟨header', hexpected', hcan⟩ := @expectedCgHeader_canonical ufs u₁ b c h.group hbl
    (hndblk ▸ cgDataFragCount_le ufs c)
  obtain ⟨rfl, -⟩ : header' = header ∧ _ = t' :=
    Prod.mk.inj (Outcome.ok.inj (hexpected'.symm.trans hexpected))
  have hbig : CgOff.free ≤ b.length := by
    rw [hbl]
    exact h.group.free_le_bsize
  have hhl : header'.length = b.length := hcan.length.trans hbl.symm
  have hnew : (recountedHeader b header' t').length = ufs.sb.bsize :=
    (recountedHeader_length hbig hhl).trans hbl
  -- the two stores
  have hsame₁ : SameOutside ((Region.header c).bytes ufs) u₁ u₂ := by
    have hs := SameOutside.overlay hle₁
    rw [hu₂, hnew] at hs
    exact hs
  have hsame₂ : SameOutside (csumSlot ufs c) u₂ u₃ := by
    have hs := SameOutside.overlay hle₂
    rw [hu₃, csumBytes_length] at hs
    exact hs
  have hapart : Disjoint ((Region.header c).bytes ufs) (csumSlot ufs c) :=
    (Region.disjoint h.group h.super Region.noConfusion).mono_right (h.csumSlot_subset hc)
  have hcg : cgHeader u₃ ufs c = recountedHeader b header' t' := by
    have hkeep := hsame₂.slice (o := cgBlockOffset ufs c) (n := ufs.sb.bsize) hapart
    rw [cgHeader, hkeep, ← hu₂, ← hnew]
    exact Bytes.slice_overlay_same hle₁
  have hread : ∀ n, UfsFuse.readInode u₃ ufs n = UfsFuse.readInode u₁ ufs n := by
    intro n
    have hd := h.touched_inode hc n
    unfold touched at hd
    exact (hsame₁.trans hsame₂).readInode hd
  refine ⟨?_, ⟨?_, ⟨?_, ?_⟩, ⟨header', ?_, ?_⟩, ?_, ?_⟩, ?_⟩
  · refine (hsame.trans (hsame₁.trans hsame₂)).mono ?_
    rw [← Set.union_assoc, Set.union_self]
    rfl
  · rw [hsame₂.length, hsame₁.length]
    exact hin₁
  · rw [hcg, Bytes.u32, recountedHeader_slice hbig hhl (by norm_num), ← hb]
    exact hvalid.magic
  · rw [hcg, recountedHeader_u32 hbig hhl (by norm_num) (by norm_num), hcan.ndblk, hndblk]
  · rw [hcg, ← hexpected]
    refine expectedCgHeader_congr ⟨recountedHeader_length hbig hhl, fun i hi => ?_⟩ ?_ ?_ ?_ ?_ ?_
      hread
    · exact recountedHeader_byte hbig hhl (by simpa using hi)
    · exact (recountedHeader_u32 hbig hhl (by norm_num) (by norm_num)).trans hcan.time
    · exact (recountedHeader_u32 hbig hhl (by norm_num) (by norm_num)).trans hcan.ndblk
    · rw [recountedHeader_u32 hbig hhl (by norm_num) (by norm_num), hcan.rotor, clampTo_clampTo]
    · rw [recountedHeader_u32 hbig hhl (by norm_num) (by norm_num), hcan.frotor, clampTo_clampTo]
    · rw [recountedHeader_u32 hbig hhl (by norm_num) (by norm_num), hcan.irotor, clampTo_clampTo]
  · rw [hcg]
    exact recountedHeader_again hbig hhl
  · rw [csumBytes_length] at hle₂
    rw [hsame₂.length]
    exact hle₂
  · have hstored := Bytes.slice_overlay_same hle₂
    rw [hu₃, csumBytes_length] at hstored
    exact hstored
  · intro hvalid₀
    rw [cgMaps, hcg, recountedHeader_slice hbig hhl le_rfl, ← hb, hkeep hvalid₀]
    rfl

end Round

/-! ## The run -/
section Run
variable {ufs : Ufs} {c : ℕ} {t : Csum}

/-- The canonical header of a settled group and its counts. -/
theorem Settled.canonical {image : Bytes} (h : ufs.Shaped) (hs : Settled image ufs c t) :
    t = groupCounts image ufs c ∧ ∃ header, Canonical ufs.sb (cgHeader image ufs c) header ∧
      header.length = (cgHeader image ufs c).length ∧ CgOff.free ≤ (cgHeader image ufs c).length ∧
      recountedHeader (cgHeader image ufs c) header t = cgHeader image ufs c := by
  obtain ⟨header, hexpected, hfixed⟩ := hs.fixed
  have hl : (cgHeader image ufs c).length = ufs.sb.bsize := Bytes.slice_length hs.inside
  obtain ⟨header', hexpected', hcan⟩ := @expectedCgHeader_canonical ufs image _ c h.group hl
    (hs.valid.ndblk ▸ cgDataFragCount_le ufs c)
  obtain ⟨rfl, rfl⟩ := Prod.mk.inj (Outcome.ok.inj (hexpected'.symm.trans hexpected))
  refine ⟨rfl, header', hcan, hcan.length.trans hl.symm, ?_, hfixed⟩
  rw [hl]
  exact h.group.free_le_bsize

/-- A round settles its group and leaves the others to the rounds that follow; by induction on the
groups. -/
theorem collect_settles (h : ufs.Shaped) {cs : List ℕ} :
    ∀ {image image' : Bytes} {ts : List Csum}, cs.Nodup → (∀ c ∈ cs, c < ufs.sb.ncg) →
      (∀ c ∈ cs, HeaderValid image ufs c ∨ HeaderZero image ufs c) →
      Act.collect (recomputeGroup ufs) cs image = (.ok ts, image') →
      SameOutside (⋃ c ∈ cs, touched ufs c) image image' ∧ ts = cs.map (groupCounts image' ufs) ∧
        ∀ c ∈ cs, Settled image' ufs c (groupCounts image' ufs c) ∧
          (HeaderValid image ufs c → cgMaps image' ufs c = cgMaps image ufs c) := by
  induction cs with
  | nil =>
    intro image image' ts _ _ _ hrun
    obtain ⟨hts, rfl⟩ : Outcome.ok [] = Outcome.ok ts ∧ image = image' := Prod.mk.inj hrun
    refine ⟨SameOutside.refl _ _, (Outcome.ok.inj hts).symm, ?_⟩
    simp
  | cons c cs ih =>
    intro image image' ts hnodup hlt hv hrun
    obtain ⟨hnotin, hnodup⟩ := List.nodup_cons.mp hnodup
    obtain ⟨t, u, hround, hrun⟩ := Act.bind_eq_ok.mp hrun
    obtain ⟨ts', u', hrest, hrun⟩ := Act.bind_eq_ok.mp hrun
    obtain ⟨hts, rfl⟩ : Outcome.ok (t :: ts') = Outcome.ok ts ∧ u' = image' := Prod.mk.inj hrun
    have hc := hlt c (by simp)
    obtain ⟨hsame, hsettled, hmaps⟩ := recomputeGroup_settles h hc (hv c (by simp)) hround
    have hne : ∀ c' ∈ cs, c' ≠ c := fun c' hc' heq => hnotin (heq ▸ hc')
    have hother : ∀ c' ∈ cs, cgHeader u ufs c' = cgHeader image ufs c' := fun c' hc' =>
      hsame.slice (h.touched_header hc (hne c' hc'))
    obtain ⟨hsame', hts', hrest'⟩ := ih hnodup (fun c' hc' => hlt c' (by simp [hc'])) (by
      intro c' hc'
      rcases hv c' (by simp [hc']) with hvalid | hzero
      · left
        constructor
        · rw [hother c' hc']
          exact hvalid.magic
        · rw [hother c' hc']
          exact hvalid.ndblk
      · right
        unfold HeaderZero
        rw [hother c' hc']
        exact hzero) hrest
    -- the rounds that follow are elsewhere
    have hheader : Disjoint ((Region.header c).bytes ufs) (⋃ c' ∈ cs, touched ufs c') := by
      rw [Set.disjoint_iUnion₂_right]
      exact fun c' hc' => h.touched_header (hlt c' (by simp [hc'])) (hne c' hc').symm
    have hcsum : Disjoint (csumSlot ufs c) (⋃ c' ∈ cs, touched ufs c') := by
      rw [Set.disjoint_iUnion₂_right]
      exact fun c' hc' => h.touched_csum hc (hne c' hc').symm
    have hinodes : ∀ n, Disjoint (inodeSlot ufs n) (⋃ c' ∈ cs, touched ufs c') := by
      intro n
      rw [Set.disjoint_iUnion₂_right]
      exact fun c' hc' => h.touched_inode (hlt c' (by simp [hc'])) n
    have hlast := hsettled.elsewhere hsame' hheader hcsum hinodes
    have ht := (hlast.canonical h).1
    rw [ht] at hlast
    refine ⟨(hsame.trans hsame').mono (Set.union_subset (fun i hi => ?_) fun i hi => ?_), ?_, ?_⟩
    · exact Set.mem_iUnion₂.mpr ⟨c, by simp, hi⟩
    · obtain ⟨c', hc', hi⟩ := Set.mem_iUnion₂.mp hi
      exact Set.mem_iUnion₂.mpr ⟨c', by simp [hc'], hi⟩
    · rw [List.map_cons, ← ht, ← hts']
      exact (Outcome.ok.inj hts).symm
    · intro c' hc'
      rcases List.mem_cons.mp hc' with rfl | hc'
      · refine ⟨hlast, fun hvalid => ?_⟩
        have hcg : cgHeader u' ufs c' = cgHeader u ufs c' := hsame'.slice hheader
        rw [← hmaps hvalid, cgMaps, cgMaps, hcg]
      · refine ⟨(hrest' c' hc').1, fun hvalid => ?_⟩
        have hmapsu : cgMaps u ufs c' = cgMaps image ufs c' := by
          rw [cgMaps, cgMaps, hother c' hc']
        rw [← hmapsu]
        refine (hrest' c' hc').2 ⟨?_, ?_⟩
        · rw [hother c' hc']
          exact hvalid.magic
        · rw [hother c' hc']
          exact hvalid.ndblk

/-- A second run over settled groups changes nothing. -/
theorem collect_again (h : ufs.Shaped) {image : Bytes} {cs : List ℕ}
    (hlt : ∀ c ∈ cs, c < ufs.sb.ncg)
    (hs : ∀ c ∈ cs, Settled image ufs c (groupCounts image ufs c)) :
    Act.collect (recomputeGroup ufs) cs image =
      (.ok (cs.map (groupCounts image ufs)), image) := by
  induction cs with
  | nil => rfl
  | cons c cs ih =>
    refine Act.bind_eq_ok.mpr ⟨_, _, (hs c (by simp)).again h (hlt c (by simp)), ?_⟩
    exact Act.bind_eq_ok.mpr ⟨_, _, ih (fun c' hc' => hlt c' (by simp [hc']))
      (fun c' hc' => hs c' (by simp [hc'])), rfl⟩

end Run

/-! ## What a recount repairs -/

/-- The counts stored at a place of the image. -/
def csumAt (image : Bytes) (off : ℕ) : Csum :=
  ⟨image.u32 off, image.u32 (off + 4), image.u32 (off + 8), image.u32 (off + 12)⟩

/-- The sums of the counts of all groups. -/
def totalCounts (image : Bytes) (ufs : Ufs) : Csum where
  ndir := ∑ c ∈ Finset.range ufs.sb.ncg, (groupCounts image ufs c).ndir
  nbfree := ∑ c ∈ Finset.range ufs.sb.ncg, (groupCounts image ufs c).nbfree
  nifree := ∑ c ∈ Finset.range ufs.sb.ncg, (groupCounts image ufs c).nifree
  nffree := ∑ c ∈ Finset.range ufs.sb.ncg, (groupCounts image ufs c).nffree

/-- The sums that the superblock gets. -/
def sumCounts (ts : List Csum) : Csum :=
  ⟨(ts.map Csum.ndir).sum, (ts.map Csum.nbfree).sum, (ts.map Csum.nifree).sum,
    (ts.map Csum.nffree).sum⟩

theorem sumCounts_groups (image : Bytes) (ufs : Ufs) :
    sumCounts ((List.range ufs.sb.ncg).map (groupCounts image ufs)) = totalCounts image ufs := by
  simp only [sumCounts, List.map_map, sum_map_range, Function.comp_apply, totalCounts]

theorem recomputeSummaryCounts_eq (ufs : Ufs) : recomputeSummaryCounts ufs = (do
    let counts ← Act.collect (recomputeGroup ufs) (List.range ufs.sb.ncg)
    putSlice (ufs.superOffset + FsOff.cstotalNdir) (csumBytes (sumCounts counts))) := rfl

/-- Where the superblock has the sums. -/
def totalSlot (ufs : Ufs) : Set ℕ :=
  Set.Ico (ufs.superOffset + FsOff.cstotalNdir) (ufs.superOffset + FsOff.cstotalNdir + ufsCsumSize)

/-- The summaries of `after` are those of its bitmaps and inodes, and nothing else is new. -/
structure Repaired (ufs : Ufs) (before after : Bytes) : Prop where
  length : after.length = before.length
  inodes : ∀ n, after.slice (ufs.sb.inodeByteOffset ufs.startOffset n) ufsDinodeSize =
    before.slice (ufs.sb.inodeByteOffset ufs.startOffset n) ufsDinodeSize
  contents : ∀ c < ufs.sb.ncg, ∀ i ∈ (Region.data c).bytes ufs, after.byte i = before.byte i
  others : ∀ i, (∀ c < ufs.sb.ncg, i ∉ (Region.header c).bytes ufs) →
    i ∉ Region.summary.bytes ufs → i ∉ totalSlot ufs → after.byte i = before.byte i
  maps : ∀ c < ufs.sb.ncg, HeaderValid before ufs c → cgMaps after ufs c = cgMaps before ufs c
  valid : ∀ c < ufs.sb.ncg, HeaderValid after ufs c
  counts : ∀ c < ufs.sb.ncg,
    csumAt after (cgBlockOffset ufs c + CgOff.ndir) = groupCounts after ufs c
  runs : ∀ c < ufs.sb.ncg, ∀ k, 1 ≤ k → k < maxfrag →
    after.u32 (cgBlockOffset ufs c + (CgOff.frsum + k * 4)) =
      (CgView.decode (cgHeader after ufs c)).runCount ufs.sb.frag k
  summary : ∀ c < ufs.sb.ncg, csumAt after (csumPlace ufs c) = groupCounts after ufs c
  total : csumAt after (ufs.superOffset + FsOff.cstotalNdir) = totalCounts after ufs
  again : recomputeSummaryCounts ufs after = (.ok (), after)

section Sums
variable {ufs : Ufs} {image : Bytes} {c : ℕ} {t : Csum}

theorem Csum.stored_eq (h1 : t.ndir < 2 ^ 32) (h2 : t.nbfree < 2 ^ 32) (h3 : t.nifree < 2 ^ 32)
    (h4 : t.nffree < 2 ^ 32) : t.stored = t := by
  rw [Csum.stored, Nat.mod_eq_of_lt h1, Nat.mod_eq_of_lt h2, Nat.mod_eq_of_lt h3,
    Nat.mod_eq_of_lt h4]

/-- Counts that are in place read back. -/
theorem csumAt_of_slice {off : ℕ} (hin : off + ufsCsumSize ≤ image.length)
    (h : image.slice off ufsCsumSize = csumBytes t) : csumAt image off = t.stored := by
  have hself := Bytes.overlay_slice_self hin
  have hread := @csum_read image off t hin
  rw [← h, hself] at hread
  exact hread

/-- No count exceeds the number of the inodes or of the fragments. -/
theorem groupCounts_le (hn : (cgHeader image ufs c).u32 CgOff.ndblk = cgDataFragCount ufs c) :
    (groupCounts image ufs c).ndir ≤ ufs.sb.ipg ∧
      (groupCounts image ufs c).nbfree ≤ cgDataFragCount ufs c ∧
      (groupCounts image ufs c).nifree ≤ ufs.sb.ipg ∧
      (groupCounts image ufs c).nffree ≤ cgDataFragCount ufs c := by
  have hndblk : (CgView.decode (cgHeader image ufs c)).ndblk = cgDataFragCount ufs c := hn
  refine ⟨Nat.count_le _, ?_, Nat.count_le _, ?_⟩
  · rw [← hndblk]
    exact (Nat.count_le _).trans (Nat.div_le_self _ _)
  · rw [← hndblk]
    exact Nat.count_le _

/-- The groups have no more fragments together than the slice. -/
theorem sum_cgDataFragCount_le (hd : 0 < ufs.sb.dsize) (n : ℕ) :
    ∑ c ∈ Finset.range n, cgDataFragCount ufs c ≤ ufs.sb.dsize := by
  have heq : ∀ c, cgDataFragCount ufs c = ufs.sb.groupFrags c := by
    intro c
    simp [cgDataFragCount, hd.ne', Superblock.groupFrags]
  simp only [heq]
  exact (sum_groupFrags_le ufs.sb n).trans (min_le_right _ _)

variable (h : ufs.Shaped)
include h

theorem groupCounts_stored (hc : c < ufs.sb.ncg)
    (hn : (cgHeader image ufs c).u32 CgOff.ndblk = cgDataFragCount ufs c) :
    (groupCounts image ufs c).stored = groupCounts image ufs c := by
  obtain ⟨h1, h2, h3, h4⟩ := groupCounts_le hn
  have hfrags := sum_cgDataFragCount_le h.dsize_pos ufs.sb.ncg
  have hone := Finset.single_le_sum (fun c _ => Nat.zero_le (cgDataFragCount ufs c))
    (Finset.mem_range.mpr hc)
  have hdsize := h.dsize_lt
  have hipg : ufs.sb.ipg ≤ 2048 := h.group.ipg_le
  apply Csum.stored_eq <;> omega

theorem totalCounts_stored
    (hn : ∀ c < ufs.sb.ncg, (cgHeader image ufs c).u32 CgOff.ndblk = cgDataFragCount ufs c) :
    (totalCounts image ufs).stored = totalCounts image ufs := by
  have hfrags := sum_cgDataFragCount_le h.dsize_pos ufs.sb.ncg
  have hdsize := h.dsize_lt
  have hinodes := h.inodes_lt
  have hipg : ∑ c ∈ Finset.range ufs.sb.ncg, ufs.sb.ipg = ufs.sb.ncg * ufs.sb.ipg := by
    rw [Finset.sum_const, Finset.card_range, smul_eq_mul]
  have hle := fun c hc => groupCounts_le (hn c (Finset.mem_range.mp hc))
  have h1 := Finset.sum_le_sum fun c hc => (hle c hc).1
  have h2 := Finset.sum_le_sum fun c hc => (hle c hc).2.1
  have h3 := Finset.sum_le_sum fun c hc => (hle c hc).2.2.1
  have h4 := Finset.sum_le_sum fun c hc => (hle c hc).2.2.2
  rw [hipg] at h1 h3
  apply Csum.stored_eq <;> simp only [totalCounts] <;> omega

end Sums

section Repair
variable {ufs : Ufs} {before after : Bytes}

/-- Where a settled group has its counts and its table of runs. -/
theorem Settled.header {c : ℕ} {t : Csum} {image : Bytes} (h : ufs.Shaped) (hc : c < ufs.sb.ncg)
    (hs : Settled image ufs c t) :
    csumAt image (cgBlockOffset ufs c + CgOff.ndir) = groupCounts image ufs c ∧
      ∀ k, 1 ≤ k → k < maxfrag → image.u32 (cgBlockOffset ufs c + (CgOff.frsum + k * 4)) =
        (CgView.decode (cgHeader image ufs c)).runCount ufs.sb.frag k := by
  obtain ⟨rfl, header, hcan, hl, hbig, hfixed⟩ := hs.canonical h
  have hlen : (cgHeader image ufs c).length = ufs.sb.bsize := Bytes.slice_length hs.inside
  have hread : ∀ o, o + 4 ≤ 984 →
      image.u32 (cgBlockOffset ufs c + o) = (cgHeader image ufs c).u32 o := by
    intro o ho
    have hfree : CgOff.free ≤ ufs.sb.bsize := hlen ▸ hbig
    exact (Bytes.u32_slice (by simp only [CgOff.free] at hfree; omega)).symm
  constructor
  · have hcounts := @recountedHeader_counts (cgHeader image ufs c) header
      (groupCounts image ufs c) hbig hl
    rw [hfixed, groupCounts_stored h hc hs.valid.ndblk] at hcounts
    rw [← hcounts]
    simp only [csumAt, CgView.decode, Nat.add_assoc]
    rw [hread _ (by norm_num), hread _ (by norm_num), hread _ (by norm_num),
      hread _ (by norm_num)]
  · intro k hk hlt
    have hk8 : k < 8 := hlt
    rw [hread _ (by simp only [CgOff.frsum]; omega), ← hcan.frsum k hk hlt]
    conv_lhs => rw [← hfixed]
    exact recountedHeader_u32 hbig hl (by simp only [CgOff.frsum]; omega)
      (by simp only [CgOff.frsum]; omega)

theorem totalSlot_subset : totalSlot ufs ⊆ Region.superblock.bytes ufs := by
  unfold totalSlot Region.bytes
  simp only [Region.start, Region.stop, FsOff.cstotalNdir, ufsCsumSize, ufsSbSize]
  exact Set.Ico_subset_Ico (Nat.le_add_right _ _) (by omega)

/-- On any image whose headers are valid or were never written, with any stored counts, a recount
that succeeds repairs the summaries and changes nothing else; a second one changes no byte. -/
theorem recomputeSummaryCounts_repairs (h : ufs.Shaped)
    (hv : ∀ c < ufs.sb.ncg, HeaderValid before ufs c ∨ HeaderZero before ufs c)
    (hrun : recomputeSummaryCounts ufs before = (.ok (), after)) : Repaired ufs before after := by
  rw [recomputeSummaryCounts_eq] at hrun
  obtain ⟨ts, u, hcollect, hput⟩ := Act.bind_eq_ok.mp hrun
  obtain ⟨hsame, rfl, hsettled⟩ := collect_settles h List.nodup_range
    (fun c hc => List.mem_range.mp hc) (fun c hc => hv c (List.mem_range.mp hc)) hcollect
  obtain ⟨hle, hafter⟩ := putSlice_eq_ok.mp hput
  rw [csumBytes_length] at hle
  rw [sumCounts_groups] at hafter
  have hlast : SameOutside (totalSlot ufs) u after := by
    have hs := @SameOutside.overlay u (ufs.superOffset + FsOff.cstotalNdir)
      (csumBytes (totalCounts u ufs)) (by rw [csumBytes_length]; exact hle)
    rw [hafter, csumBytes_length] at hs
    exact hs
  -- the sums lie in no group and not in the summary area
  have hapart : ∀ r : Region, r ≠ Region.superblock →
      Disjoint (r.bytes ufs) (totalSlot ufs) := fun r hr =>
    (Region.disjoint h.group h.super hr).mono_right totalSlot_subset
  have hslot : ∀ n, Disjoint (inodeSlot ufs n) (totalSlot ufs) := fun n =>
    (hapart _ Region.noConfusion).mono_left (inodeSlot_inside h.group h.super n)
  have hend : ∀ c < ufs.sb.ncg, Settled after ufs c (groupCounts u ufs c) := fun c hc =>
    (hsettled c (List.mem_range.mpr hc)).1.elsewhere hlast (hapart _ Region.noConfusion)
      ((hapart _ Region.noConfusion).mono_left (h.csumSlot_subset hc)) hslot
  have hcounts : ∀ c < ufs.sb.ncg, groupCounts u ufs c = groupCounts after ufs c :=
    fun c hc => ((hend c hc).canonical h).1
  have htotal : totalCounts u ufs = totalCounts after ufs := by
    unfold totalCounts
    congr 1 <;>
      exact Finset.sum_congr rfl fun c hc => by rw [hcounts c (Finset.mem_range.mp hc)]
  have hall : ∀ c < ufs.sb.ncg, Settled after ufs c (groupCounts after ufs c) := fun c hc =>
    hcounts c hc ▸ hend c hc
  rw [htotal] at hafter
  have hslice : after.slice (ufs.superOffset + FsOff.cstotalNdir) ufsCsumSize =
      csumBytes (totalCounts after ufs) := by
    have hs := @Bytes.slice_overlay_same u (csumBytes (totalCounts after ufs))
      (ufs.superOffset + FsOff.cstotalNdir) (by rw [csumBytes_length]; exact hle)
    rw [hafter, csumBytes_length] at hs
    exact hs
  have hroom : ufs.superOffset + FsOff.cstotalNdir + ufsCsumSize ≤ after.length := by
    rw [hlast.length]
    exact hle
  have hboth := hsame.trans hlast
  -- what is apart from all that was written
  have houter : ∀ r : Region, (∀ c, r ≠ Region.header c) → r ≠ Region.summary →
      r ≠ Region.superblock →
      Disjoint (r.bytes ufs) ((⋃ c ∈ List.range ufs.sb.ncg, touched ufs c) ∪ totalSlot ufs) := by
    intro r hheader hsummary hsuper
    rw [Set.disjoint_union_right, Set.disjoint_iUnion₂_right]
    exact ⟨fun c hc => h.touched_region (List.mem_range.mp hc) (hheader c) hsummary, hapart r hsuper⟩
  constructor
  · exact hboth.length
  · intro n
    exact hboth.slice ((houter (Region.inodes _) (fun _ => Region.noConfusion) Region.noConfusion
      Region.noConfusion).mono_left (inodeSlot_inside h.group h.super n))
  · intro c _ i hi
    exact hboth.byte i (Set.disjoint_left.mp (houter (Region.data c) (fun _ => Region.noConfusion)
      Region.noConfusion Region.noConfusion) hi)
  · intro i hheader hsummary hslot'
    refine hboth.byte i fun hi => ?_
    rcases hi with hi | hi
    · obtain ⟨c, hc, hi⟩ := Set.mem_iUnion₂.mp hi
      have hlt := List.mem_range.mp hc
      rcases hi with hi | hi
      · exact hheader c hlt hi
      · exact hsummary (h.csumSlot_subset hlt hi)
    · exact hslot' hi
  · intro c hc hvalid
    have hcg : cgHeader after ufs c = cgHeader u ufs c :=
      hlast.slice (hapart (Region.header c) Region.noConfusion)
    rw [← (hsettled c (List.mem_range.mpr hc)).2 hvalid, cgMaps, cgMaps, hcg]
  · exact fun c hc => (hall c hc).valid
  · exact fun c hc => ((hall c hc).header h hc).1
  · exact fun c hc => ((hall c hc).header h hc).2
  · intro c hc
    rw [csumAt_of_slice (hall c hc).place (hall c hc).stored,
      groupCounts_stored h hc (hall c hc).valid.ndblk]
  · rw [csumAt_of_slice hroom hslice, totalCounts_stored h fun c hc => (hall c hc).valid.ndblk]
  · rw [recomputeSummaryCounts_eq]
    refine Act.bind_eq_ok.mpr ⟨_, after, collect_again h (fun c hc => List.mem_range.mp hc)
      (fun c hc => hall c (List.mem_range.mp hc)), ?_⟩
    rw [sumCounts_groups]
    refine putSlice_eq_ok.mpr ⟨by rw [csumBytes_length]; exact hroom, ?_⟩
    rw [← hslice]
    exact Bytes.overlay_slice_self hroom

end Repair

/-- A formatted slice has the shape. -/
theorem format_shaped {image t : Bytes} {fsStart size : ℕ} {opts : FormatOptions} {ufs : Ufs}
    (hsize : size < 2 ^ 41) (h : format fsStart size opts image = (.ok ufs, t)) : ufs.Shaped := by
  obtain ⟨l, hl, hbits, hufs⟩ := format_bits (.inr hsize) h
  obtain ⟨fr, sh, count, hc⟩ := formatLayout_checked hl
  obtain ⟨g, hcssize, hinodes⟩ := hc.oneGroup hbits
  have hwhole := hc.whole
  have hroot := hc.root
  have hfr := hc.frag
  have hdsize : (l.superblock opts).dsize = l.totalFragments :=
    Nat.mod_eq_of_lt (show l.totalFragments < 2 ^ 32 by omega)
  rw [hufs]
  refine ⟨g, rfl, hcssize, hinodes, ?_, ?_⟩
  · dsimp only
    rw [hdsize]
    omega
  · dsimp only
    rw [hdsize]
    omega

/-- The headers of a consistent volume are valid. -/
theorem Ufs.Holds.headerValid {ufs : Ufs} {image : Bytes} {D : Disk} {c : ℕ}
    (h : ufs.Holds image D) (hc : c < ufs.sb.ncg) (hm : (D.cg c).magic = ufsCgMagic)
    (hn : (D.cg c).ndblk = ufs.sb.groupFrags c) : HeaderValid image ufs c := by
  have hcg : D.cg c = CgView.decode (cgHeader image ufs c) := by
    rw [← h.2]
    exact if_pos hc
  rw [hcg] at hm hn
  exact ⟨hm, hn.trans (cgDataFragCount_eq h.1.geom c).symm⟩

/-- A formatted slice can be recounted. -/
theorem Formatted.recounts {ufs : Ufs} {image : Bytes} (h : Formatted ufs image) :
    ufs.Shaped ∧ (∀ c < ufs.sb.ncg, HeaderValid image ufs c) ∧
      ∃ after, recomputeSummaryCounts ufs image = (.ok (), after) := by
  obtain ⟨T, ⟨D, own, hi, hv⟩, -⟩ := h.fresh
  obtain ⟨image₀, fsStart, size, opts, hf, hsize, -⟩ := h
  refine ⟨format_shaped hsize hf,
    fun c hc => hi.headerValid hc (hv.space.magic c hc) (hv.space.ndblk c hc), ?_⟩
  have hrun := @recomputeSummaryCounts_hoare ufs D (fun _ _ => False) hi.1.geom hv.space.magic
    hv.space.ndblk
  obtain ⟨_, after, hok, -⟩ | ⟨_, _, -, hno⟩ := (hrun.run image hi).ok_or_err
  · exact ⟨after, hok⟩
  · exact hno.elim

/-- A fresh file system. -/
theorem recomputeSummaryCounts_repairs_blank : ∃ after,
    recomputeSummaryCounts blankUfs blankImage = (.ok (), after) ∧
      Repaired blankUfs blankImage after := by
  have hformatted := blankImage_formatted
  generalize blankImage = image at hformatted ⊢
  obtain ⟨hshaped, hvalid, after, hok⟩ := hformatted.recounts
  exact ⟨after, hok, recomputeSummaryCounts_repairs hshaped (fun c hc => .inl (hvalid c hc)) hok⟩

end UfsFuse
