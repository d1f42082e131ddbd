import UfsFuse.Derived
import UfsFuse.Format

/-!
# Pristine groups

What the formatter leaves in the group headers: every fragment of the data area free, and only the
inodes 0, 1 and the root taken.
-/
namespace UfsFuse

/-- A header as the formatter leaves it. -/
structure CgView.Pristine (sb : Superblock) (c : ℕ) (v : CgView) : Prop where
  magic : v.magic = ufsCgMagic
  ndblk : v.ndblk = sb.groupFrags c
  used : ∀ i, v.used i = true ↔ c = 0 ∧ i ≤ ufsRootInode
  free : ∀ f, v.free f = true ↔ sb.dblkno ≤ f ∧ f < sb.groupFrags c

section Header
variable {ufs : Ufs} {c : ℕ}

/-- The fields of a fresh header, in the order they are stored. -/
def headerFields (ufs : Ufs) (cg : ℕ) : List (ℕ × Bytes) :=
  let cgNdblk := cgDataFragCount ufs cg
  let freeFragments := cgNdblk - ufs.sb.cgdmin cg % ufs.sb.fpg
  [(CgOff.cgx, Bytes.le 4 cg), (CgOff.ncyl, Bytes.le 2 (cgCylinders ufs.sb cg)),
    (CgOff.niblk, Bytes.le 2 ufs.sb.ipg), (CgOff.ndblk, Bytes.le 4 cgNdblk),
    (CgOff.ndir, Bytes.le 4 0), (CgOff.nbfree, Bytes.le 4 (freeFragments / ufs.sb.frag)),
    (CgOff.nifree, Bytes.le 4 (ufs.sb.ipg - if cg = 0 then 2 else 0)),
    (CgOff.nffree, Bytes.le 4 (freeFragments % ufs.sb.frag)), (CgOff.irotor, Bytes.le 4 0),
    (CgOff.magic, Bytes.le 4 ufsCgMagic)]

theorem headerFields_ranges : (headerFields ufs c).map (fun f => (f.1, f.2.length)) =
    [(12, 4), (16, 2), (18, 2), (20, 4), (24, 4), (28, 4), (32, 4), (36, 4), (48, 4), (980, 4)] :=
  rfl

theorem headerFields_cases {f : ℕ × Bytes} (hf : f ∈ headerFields ufs c) :
    f.1 + f.2.length ≤ CgOff.iused ∨ CgOff.magic ≤ f.1 ∧ f.1 + f.2.length ≤ CgOff.free := by
  have hm : (f.1, f.2.length) ∈ (headerFields ufs c).map fun f => (f.1, f.2.length) :=
    List.mem_map.mpr ⟨f, hf, rfl⟩
  rw [headerFields_ranges] at hm
  have hall : ∀ r ∈ [(12, 4), (16, 2), (18, 2), (20, 4), (24, 4), (28, 4), (32, 4), (36, 4), (48, 4),
      (980, 4)], r.1 + r.2 ≤ CgOff.iused ∨ CgOff.magic ≤ r.1 ∧ r.1 + r.2 ≤ CgOff.free := by decide
  exact hall _ hm

/-- A fresh header before any bit is set. -/
theorem headerFields_decode (g : ufs.sb.oneGroup.Geometry) (c : ℕ) :
    ((Bytes.zeros ufs.sb.bsize).overlays (headerFields ufs c)).length = ufs.sb.bsize ∧
      ∃ v : CgView, CgView.decode ((Bytes.zeros ufs.sb.bsize).overlays (headerFields ufs c)) = v ∧
        v.magic = ufsCgMagic ∧ v.ndblk = cgDataFragCount ufs c ∧ (∀ i, v.used i = false) ∧
        ∀ f, v.free f = false := by
  have hbig : CgOff.free ≤ ufs.sb.bsize := g.free_le_bsize
  have hin : ∀ f ∈ headerFields ufs c, f.1 + f.2.length ≤ (Bytes.zeros ufs.sb.bsize).length := by
    intro f hf
    rw [Bytes.zeros_length]
    have h := headerFields_cases hf
    simp only [CgOff.iused, CgOff.free] at h hbig
    omega
  have hap := Bytes.pairwise_fieldsApart (@headerFields_ranges ufs c) (by decide)
  have hlen := Bytes.overlays_length hin
  rw [Bytes.zeros_length] at hlen
  have hbit : ∀ base i, CgOff.iused ≤ base + i / 8 →
      (base + i / 8 < CgOff.magic ∨ CgOff.free ≤ base + i / 8) →
      bitAt ((Bytes.zeros ufs.sb.bsize).overlays (headerFields ufs c)) base i = false := by
    intro base i h1 h2
    rw [bitAt, Bytes.overlays_byte_apart hin, Bytes.byte_zeros]
    · exact Nat.zero_testBit _
    · intro f hf
      have h := headerFields_cases hf
      simp only [nbby]
      omega
  have hread : ∀ {o w : ℕ}, (o, Bytes.le 4 w) ∈ headerFields ufs c →
      ((Bytes.zeros ufs.sb.bsize).overlays (headerFields ufs c)).u32 o = w % 2 ^ 32 :=
    fun hm => Bytes.overlays_u32 hin hap hm
  have hmagic := @hread CgOff.magic ufsCgMagic (by simp [headerFields])
  have hndblk := @hread CgOff.ndblk (cgDataFragCount ufs c) (by simp [headerFields])
  have hle := cgDataFragCount_le ufs c
  have hbits : ufs.sb.fpg ≤ (ufs.sb.bsize - CgOff.free) * 8 := g.bitmap
  have hbsize : ufs.sb.bsize = ufs.sb.frag * 512 := g.bsize_eq
  have hfrag : ufs.sb.frag ≤ 16 := g.frag_le
  rw [Nat.mod_eq_of_lt (by omega)] at hndblk
  generalize (Bytes.zeros ufs.sb.bsize).overlays (headerFields ufs c) = b at hlen hbit hmagic hndblk
  refine ⟨hlen, CgView.decode b, rfl, hmagic, hndblk, fun i => ?_, fun f => ?_⟩
  · by_cases hi : i < maxipg
    · have hb := hbit CgOff.iused i (Nat.le_add_right _ _) (.inl (by
        simp only [maxipg] at hi
        simp only [CgOff.iused, CgOff.magic]
        omega))
      simp [CgView.decode, hb]
    · simp [CgView.decode, hi]
  · exact hbit CgOff.free f (by simp only [CgOff.iused, CgOff.free]; omega)
      (.inr (Nat.le_add_right _ _))

/-- The block that lays out a group: the fields, the two reserved inodes of the first group and the
free bits of the data area. -/
theorem initializePristineCg_eq (g : ufs.sb.oneGroup.Geometry) (c : ℕ) :
    ∃ b, b.length = ufs.sb.bsize ∧ (CgView.decode b).magic = ufsCgMagic ∧
      (CgView.decode b).ndblk = cgDataFragCount ufs c ∧
      (∀ i, (CgView.decode b).used i = true ↔ c = 0 ∧ i < 2) ∧
      (∀ f, (CgView.decode b).free f = true ↔ ufs.sb.dblkno ≤ f ∧ f < cgDataFragCount ufs c) ∧
      initializePristineCg ufs c = (do writeCgBlock ufs c b; pure b) := by
  obtain ⟨hlen, v, hv, hmagic, hndblk, hused, hfree⟩ := headerFields_decode g c
  have hle := cgDataFragCount_le ufs c
  have hroom : ufs.sb.dblkno + ufs.sb.frag ≤ ufs.sb.fpg := g.room
  have hdmin : ufs.sb.cgdmin c % ufs.sb.fpg = ufs.sb.dblkno := g.cgdmin_mod c
  -- the reserved inodes of the first group
  obtain ⟨b₁, hb₁, hl₁, hm₁, hn₁, hu₁, hf₁⟩ : ∃ b₁,
      (if c = 0 then do
        let cgBytes ← setInodeState ((Bytes.zeros ufs.sb.bsize).overlays (headerFields ufs c)) 0 true
        setInodeState cgBytes 1 true
      else pure ((Bytes.zeros ufs.sb.bsize).overlays (headerFields ufs c)) : Outcome Fault Bytes) =
        .ok b₁ ∧ b₁.length = ufs.sb.bsize ∧ (CgView.decode b₁).magic = ufsCgMagic ∧
      (CgView.decode b₁).ndblk = cgDataFragCount ufs c ∧
      (∀ i, (CgView.decode b₁).used i = true ↔ c = 0 ∧ i < 2) ∧
      (CgView.decode b₁).free = v.free := by
    have hbig : CgOff.free ≤ ((Bytes.zeros ufs.sb.bsize).overlays (headerFields ufs c)).length := by
      rw [hlen]
      exact g.free_le_bsize
    by_cases hc0 : c = 0
    · obtain ⟨x, hx, hxl, hxd⟩ := @setInodeState_eq _ 0 true (by decide) hbig
      obtain ⟨y, hy, hyl, hyd⟩ := @setInodeState_eq x 1 true (by decide) (by rw [hxl]; exact hbig)
      refine ⟨y, ?_, by rw [hyl, hxl, hlen], ?_, ?_, fun i => ?_, ?_⟩
      · rw [if_pos hc0, hx, Outcome.ok_bind, hy]
      · rw [hyd, hxd, hv]
        exact hmagic
      · rw [hyd, hxd, hv]
        exact hndblk
      · rw [hyd, hxd, hv]
        simp only [Function.update_apply, hused]
        split_ifs with h1 h2
        · simp [hc0, h1]
        · simp [hc0, h2]
        · simp only [hc0, true_and, false_iff]
          omega
      · rw [hyd, hxd, hv]
    · refine ⟨_, if_neg hc0, hlen, ?_, ?_, fun i => ?_, ?_⟩
      · rw [hv]
        exact hmagic
      · rw [hv]
        exact hndblk
      · rw [hv, hused]
        simp [hc0]
      · rw [hv]
  obtain ⟨b₂, hb₂, hl₂, hd₂⟩ := @setFragRun_eq b₁ ufs.sb.dblkno
    (cgDataFragCount ufs c - ufs.sb.dblkno) true fun i hi => by
      rw [hl₁]
      exact g.free_byte (show i < ufs.sb.fpg by omega)
  rw [← hdmin] at hb₂
  refine ⟨b₂, hl₂.trans hl₁, ?_, ?_, ?_, fun f => ?_, ?_⟩
  · rw [hd₂]
    exact hm₁
  · rw [hd₂]
    exact hn₁
  · rw [hd₂]
    exact hu₁
  · rw [hd₂]
    simp only [CgView.mark, hf₁, hfree]
    split_ifs with h
    · exact iff_of_true rfl (by omega)
    · exact iff_of_false (fun h => h) (by omega)
  · have hlift : initializePristineCg ufs c = (do
        let withReserved ← Act.lift (if c = 0 then do
            let cgBytes ← setInodeState
              ((Bytes.zeros ufs.sb.bsize).overlays (headerFields ufs c)) 0 true
            setInodeState cgBytes 1 true
          else pure ((Bytes.zeros ufs.sb.bsize).overlays (headerFields ufs c)))
        let cgBytes ← Act.lift (setFragRun withReserved (ufs.sb.cgdmin c % ufs.sb.fpg)
          (cgDataFragCount ufs c - ufs.sb.cgdmin c % ufs.sb.fpg) true)
        writeCgBlock ufs c cgBytes
        pure cgBytes) := rfl
    rw [hlift, hb₁, Act.lift_ok_bind, hb₂, Act.lift_ok_bind]

/-- The header of a group, up to the bit of the root. -/
theorem initializePristineCg_hoare {D : Disk} {E : Fault → Bytes → Prop} (g : ufs.sb.Geometry)
    (hc : c < ufs.sb.ncg) :
    (initializePristineCg ufs c).hoare ufs.Holds D (fun b D' => b.length = ufs.sb.bsize ∧
      D' = D.setCg c (CgView.decode b) ∧ (CgView.decode b).magic = ufsCgMagic ∧
      (CgView.decode b).ndblk = ufs.sb.groupFrags c ∧
      (∀ i, (CgView.decode b).used i = true ↔ c = 0 ∧ i < 2) ∧
      ∀ f, (CgView.decode b).free f = true ↔ ufs.sb.dblkno ≤ f ∧ f < ufs.sb.groupFrags c) E := by
  obtain ⟨b, hl, hm, hn, hu, hf, heq⟩ := initializePristineCg_eq g.oneGroup c
  rw [cgDataFragCount_eq g] at hn hf
  rw [heq]
  exact (writeCgBlock_hoare hc hl rfl).seq (Act.hoare_pure ⟨hl, rfl, hm, hn, hu, hf⟩)

theorem formatGroup_hoare {D : Disk} {E : Fault → Bytes → Prop} (g : ufs.sb.Geometry)
    (hc : c < ufs.sb.ncg) :
    (formatGroup ufs c).hoare ufs.Holds D (fun _ D' => ∃ v : CgView, v.Pristine ufs.sb c ∧
      D' = D.setCg c v) E := by
  refine (initializePristineCg_hoare g hc).bind ?_
  rintro b D' ⟨hlen, rfl, hmagic, hndblk, hused, hfree⟩
  by_cases hc0 : c = 0
  · obtain ⟨x, hx, hxl, hxd⟩ := @setInodeState_eq b ufsRootInode true (by decide)
      (hlen ▸ g.free_le_bsize)
    rw [if_pos hc0]
    refine Act.hoare_lift_bind hx ?_
    refine writeCgBlock_hoare hc (hxl.trans hlen) ⟨CgView.decode x, ⟨?_, ?_, fun i => ?_, ?_⟩, ?_⟩
    · rw [hxd]
      exact hmagic
    · rw [hxd]
      exact hndblk
    · rw [hxd]
      simp only [Function.update_apply, ufsRootInode]
      split_ifs with h
      · simp [hc0, h]
      · rw [hused]
        omega
    · rw [hxd]
      exact hfree
    · simp only [Disk.setCg, Function.update_idem]
  · rw [if_neg hc0]
    refine Act.hoare_pure ⟨CgView.decode b, ⟨hmagic, hndblk, fun i => ?_, hfree⟩, rfl⟩
    rw [hused]
    simp [hc0]

/-- The group loop of the formatter. -/
theorem formatGroups_hoare {D : Disk} {E : Fault → Bytes → Prop} (g : ufs.sb.Geometry) :
    (Act.each (formatGroup ufs) (List.range ufs.sb.ncg)).hoare ufs.Holds D
      (fun _ D' => (∀ c < ufs.sb.ncg, (D'.cg c).Pristine ufs.sb c) ∧ D'.ino = D.ino) E := by
  refine (Act.hoare_each (fun as d => ∃ k ≤ ufs.sb.ncg, as = List.range' k (ufs.sb.ncg - k) ∧
    (∀ c < k, (d.cg c).Pristine ufs.sb c) ∧ d.ino = D.ino) ?_ ?_).post ?_
  · rintro c rest d ⟨k, hk, hrest, hall, hino⟩
    have hlt : k < ufs.sb.ncg := by
      by_contra hge
      rw [Nat.sub_eq_zero_of_le (not_lt.mp hge)] at hrest
      exact absurd hrest (List.cons_ne_nil _ _)
    obtain ⟨m, hm⟩ : ∃ m, ufs.sb.ncg - k = m + 1 := ⟨ufs.sb.ncg - k - 1, by omega⟩
    rw [hm, List.range'_succ] at hrest
    obtain ⟨rfl, rfl⟩ := List.cons.inj hrest
    refine (formatGroup_hoare g hlt).post ?_
    rintro - d' ⟨v, hv, rfl⟩
    refine ⟨c + 1, hlt, by congr 1; omega, fun c' hc' => ?_, hino⟩
    rw [Disk.setCg_cg, Function.update_apply]
    split_ifs with h
    · rw [h]
      exact hv
    · exact hall c' (by omega)
  · exact ⟨0, Nat.zero_le _, by rw [List.range_eq_range', Nat.sub_zero],
      fun c hc => absurd hc (Nat.not_lt_zero c), rfl⟩
  · rintro - d ⟨k, hk, hrest, hall, hino⟩
    have hke : k = ufs.sb.ncg := by
      have := congrArg List.length hrest
      rw [List.length_range', List.length_nil] at this
      omega
    rw [hke] at hall
    exact ⟨hall, hino⟩

end Header
end UfsFuse
