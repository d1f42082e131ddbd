import UfsFuse.ReadBody

/-!
# Writing bodies

The two loops that store file data: filling fresh allocations block by block, and splicing a range
into existing blocks. Both change data bytes only.
-/
namespace UfsFuse

/-- Only data bytes under `runs` may differ. -/
structure DataOnly (D D' : Disk) (runs : List Run) : Prop where
  cg : D'.cg = D.cg
  total : D'.total = D.total
  ino : D'.ino = D.ino
  data : ∀ a, ¬Covered runs (a / 512) → D'.data a = D.data a

namespace DataOnly

theorem refl (D : Disk) (runs : List Run) : DataOnly D D runs := ⟨rfl, rfl, rfl, fun _ _ => rfl⟩

theorem trans {D D' D'' : Disk} {runs : List Run} (h : DataOnly D D' runs)
    (h' : DataOnly D' D'' runs) : DataOnly D D'' runs :=
  ⟨h'.cg.trans h.cg, h'.total.trans h.total, h'.ino.trans h.ino,
    fun a ha => (h'.data a ha).trans (h.data a ha)⟩

theorem mono {D D' : Disk} {xs ys : List Run} (h : DataOnly D D' xs)
    (hs : ∀ f, Covered xs f → Covered ys f) : DataOnly D D' ys :=
  { h with data := fun a ha => h.data a fun hc => ha (hs _ hc) }

theorem spaceOnly {D D' : Disk} {runs : List Run} (h : DataOnly D D' runs) :
    SpaceOnly D D' runs := ⟨fun c => by rw [h.cg], by rw [h.total], h.ino, h.data⟩

theorem space {sb : Superblock} {D D' : Disk} {runs xs : List Run} (h : DataOnly D D' xs)
    (hs : Space sb D runs) : Space sb D' runs := hs.congr h.cg (by rw [h.total])

end DataOnly

namespace Disk

theorem write_dataOnly (D : Disk) {addr : ℕ} {src : Bytes} {runs : List Run}
    (h : ∀ a, addr ≤ a → a < addr + src.length → Covered runs (a / 512)) :
    DataOnly D (D.write addr src) runs where
  cg := rfl
  total := rfl
  ino := rfl
  data a ha := by
    simp only [write]
    rw [if_neg fun hr => ha (h a hr.1 hr.2)]

/-- Reading back what was written. -/
theorem bytes_write (D : Disk) (addr : ℕ) (src : Bytes) {len : ℕ} (h : len ≤ src.length) :
    (D.write addr src).bytes addr len = src.take len := by
  apply Bytes.ext_byte
  · rw [bytes_length, List.length_take]
    omega
  · intro i hi
    rw [bytes_length] at hi
    rw [bytes_byte _ hi]
    simp only [write]
    rw [if_pos (by omega), Nat.add_sub_cancel_left]
    simp [Bytes.byte, List.getD_eq_getElem?_getD, hi]

end Disk

section Rules
variable {ufs : Ufs} {E : Fault → Bytes → Prop}

/-- Filling fresh allocations makes `rest` their body. -/
theorem writeChunks_hoare (g : ufs.sb.Geometry) {sizes : List ℕ} :
    ∀ {data : List ℕ} {rest : Bytes} {D : Disk}, ufs.sb.Covers sizes rest.length →
    data.length = sizes.length → (∀ r ∈ dataRuns data sizes, ufs.sb.IsRun r.1 r.2) →
    (dataRuns data sizes).Pairwise Run.Apart →
    (writeChunks ufs (data.zip sizes) rest).hoare ufs.Holds D
      (fun _ D' => DataOnly D D' (dataRuns data sizes) ∧
        D'.body ufs.sb data rest.length = rest) E := by
  induction sizes with
  | nil =>
    intro data rest D hc hl _ _
    have h0 : rest.length = 0 := hc
    rw [List.eq_nil_of_length_eq_zero hl, List.eq_nil_of_length_eq_zero h0]
    exact Act.hoare_pure ⟨DataOnly.refl _ _, rfl⟩
  | cons s sizes ih =>
    intro data rest D hc hl hrun hap
    cases data with
    | nil => simp at hl
    | cons b data =>
      obtain ⟨hpos, hs, hle, hr⟩ := hc
      obtain ⟨hs0, hsb, hsd⟩ := hs
      have hl' : data.length = sizes.length := by simpa using hl
      obtain ⟨hhead, htail⟩ := List.pairwise_cons.mp hap
      have hrunb : ufs.sb.IsRun b (s / 512) := hrun _ (List.mem_cons_self ..)
      have hsm : s / 512 * 512 = s := Nat.div_mul_cancel hsd
      have hin : ufs.sb.InData (b * 512) s := hrunb.inData g hsm.ge
      have hend := hin.inside g hs0
      have hchunk : (rest.take ufs.sb.bsize).length = min ufs.sb.bsize rest.length :=
        List.length_take
      have hcov : ∀ a, b * 512 ≤ a → a < b * 512 + s →
          Covered (dataRuns (b :: data) (s :: sizes)) (a / 512) := fun a h1 h2 =>
        covered_cons.mpr (.inl (Disk.mem_run le_rfl hsd h1 h2))
      rw [List.zip_cons_cons, writeChunks, g.dataBlockOffset_eq, Nat.add_assoc]
      refine (putData_hoare (hin.mono le_rfl (by omega)) (by omega) rfl).seq ?_
      refine Act.hoare_lift_bind (Outcome.guard_true (by omega)) ?_
      refine (putData_hoare (hin.mono (Nat.le_add_right _ _) ?_) ?_ rfl).seq ?_
      · rw [Bytes.zeros_length]
        lia
      · rw [Bytes.zeros_length]
        lia
      have hlen' : (rest.drop ufs.sb.bsize).length = rest.length - ufs.sb.bsize := List.length_drop
      refine (ih (by rw [hlen']; exact hr) hl' (fun r hm => hrun r (List.mem_cons_of_mem _ hm))
        htail).post ?_
      rintro - D' ⟨hd, hbody⟩
      rw [hlen'] at hbody
      have h1 := @Disk.write_dataOnly D (b * 512) (rest.take ufs.sb.bsize) _
        fun a ha hb => hcov a ha (by omega)
      have h2 := @Disk.write_dataOnly (D.write (b * 512) (rest.take ufs.sb.bsize))
        (b * 512 + (rest.take ufs.sb.bsize).length)
        (Bytes.zeros (s - (rest.take ufs.sb.bsize).length)) _ fun a ha hb => by
          rw [Bytes.zeros_length] at hb
          exact hcov a (by lia) (by lia)
      refine ⟨(h1.trans h2).trans (hd.mono fun f hf => covered_cons.mpr (.inr hf)), ?_⟩
      rw [Disk.body, hbody]
      have hfirst : D'.bytes (b * 512) (min ufs.sb.bsize rest.length) = rest.take ufs.sb.bsize := by
        rw [Disk.bytes_congr (D := D.write (b * 512) (rest.take ufs.sb.bsize)),
          Disk.bytes_write _ _ _ (by omega), List.take_of_length_le (by omega)]
        intro a ha hb
        rw [hd.data]
        · simp only [Disk.write]
          rw [if_neg (by omega)]
        · rintro ⟨r, hm, hra⟩
          exact hhead r hm _ (Disk.mem_run hle hsd ha hb) hra
      rw [hfirst, List.take_append_drop]

/-- Splicing `src` into the body of a file. -/
theorem writeDataRange_hoare (g : ufs.sb.Geometry) {D : Disk} {data sizes : List ℕ} {size offset : ℕ}
    {src : Bytes} (hc : ufs.sb.Covers sizes size) (hl : data.length = sizes.length)
    (hrun : ∀ r ∈ dataRuns data sizes, ufs.sb.IsRun r.1 r.2)
    (hap : (dataRuns data sizes).Pairwise Run.Apart) (hle : offset + src.length ≤ size) :
    (writeDataRange ufs data sizes offset src).hoare ufs.Holds D
      (fun _ D' => DataOnly D D' (dataRuns data sizes) ∧
        D'.body ufs.sb data size = (D.body ufs.sb data size).overlay offset src) E := by
  have hb := g.bsize_pos
  rw [writeDataRange]
  split_ifs with hz
  · subst hz
    exact Act.hoare_pure ⟨DataOnly.refl _ _, by rw [Bytes.overlay_nil]⟩
  · have hpos : 0 < src.length := List.length_pos_of_ne_nil hz
    dsimp only
    rw [← hl, Nat.min_self]
    set start := offset / ufs.sb.bsize with hstart
    set ceil := (offset + src.length + ufs.sb.bsize - 1) / ufs.sb.bsize with hceil
    have hsl : start * ufs.sb.bsize ≤ offset := Nat.div_mul_le_self _ _
    have hcl : offset + src.length ≤ ceil * ufs.sb.bsize := by
      have hd := Nat.div_add_mod' (offset + src.length + ufs.sb.bsize - 1) ufs.sb.bsize
      have hr := Nat.mod_lt (offset + src.length + ufs.sb.bsize - 1) hb
      rw [← hceil] at hd
      omega
    have hcu : ∀ m, m < ceil → m * ufs.sb.bsize < offset + src.length := by
      intro m hm
      have h1 := Nat.mul_le_mul_right ufs.sb.bsize (Nat.succ_le_of_lt hm)
      have h2 : ceil * ufs.sb.bsize ≤ offset + src.length + ufs.sb.bsize - 1 :=
        Nat.div_mul_le_self _ _
      rw [Nat.succ_mul] at h1
      omega
    have hnb : ceil ≤ data.length := by
      have hsz := hc.size_le
      rw [← hl] at hsz
      by_contra hlt
      have := hcu data.length (by omega)
      omega
    have hbl : (D.body ufs.sb data size).length = size := Disk.body_length hc hl
    rw [Nat.min_eq_right hnb]
    have hsc : start ≤ ceil := by
      by_contra hlt
      have h1 := Nat.mul_le_mul_right ufs.sb.bsize (show ceil ≤ start by omega)
      omega
    -- after the blocks below `m` the body holds the part of `src` that belongs to them
    refine (Act.hoare_each (fun (as : List ℕ) d => ∃ m, as = List.range' m (ceil - m) ∧
      start ≤ m ∧ m ≤ ceil ∧ DataOnly D d (dataRuns data sizes) ∧
      d.body ufs.sb data size = (D.body ufs.sb data size).overlay offset
        (src.take (m * ufs.sb.bsize - offset))) ?_ ?_).post ?_
    · rintro a as d ⟨m, has, hm1, hm2, hdo, hbody⟩
      have hmc : m < ceil := by
        by_contra hge
        rw [show ceil - m = 0 by omega] at has
        simp at has
      rw [show ceil - m = (ceil - (m + 1)) + 1 by omega, List.range'_succ] at has
      obtain ⟨rfl, rfl⟩ := List.cons.inj has
      have hal : a < data.length := by omega
      have has' : a < sizes.length := by omega
      have hau := hcu a hmc
      have hsz : a * ufs.sb.bsize < size := by omega
      obtain ⟨hp, ⟨hs0, hsb, hsd⟩, hsz', -⟩ :
          ufs.sb.Covers (sizes[a] :: sizes.drop (a + 1)) (size - a * ufs.sb.bsize) := by
        rw [← List.drop_eq_getElem_cons has']
        exact hc.drop a
      have hmem : (data[a], sizes[a] / 512) ∈ dataRuns data sizes := by
        refine List.mem_iff_getElem?.mpr ⟨a, ?_⟩
        simp [dataRuns, hal, has']
      have hrunb : ufs.sb.IsRun data[a] (sizes[a] / 512) := hrun _ hmem
      have hin : ufs.sb.InData (data[a] * 512) sizes[a] :=
        hrunb.inData g (Nat.div_mul_cancel hsd).ge
      have hend := hin.inside g hs0
      rw [writeRangeStep]
      dsimp only
      refine Act.hoare_lift_bind (a := data[a]) (by rw [List.getElem?_eq_getElem hal]; rfl) ?_
      refine Act.hoare_lift_bind (a := sizes[a]) (by rw [List.getElem?_eq_getElem has']; rfl) ?_
      have hnext : (a + 1) * ufs.sb.bsize = a * ufs.sb.bsize + ufs.sb.bsize := Nat.succ_mul _ _
      have hmin : min (min ufs.sb.bsize (offset + src.length - a * ufs.sb.bsize)) sizes[a] =
          min ufs.sb.bsize (offset + src.length - a * ufs.sb.bsize) := by omega
      have hoff : offset < a * ufs.sb.bsize + ufs.sb.bsize := by
        have h1 : offset < (start + 1) * ufs.sb.bsize := by
          have h3 := Nat.div_add_mod' offset ufs.sb.bsize
          have h4 := Nat.mod_lt offset hb
          rw [← hstart] at h3
          rw [Nat.succ_mul]
          omega
        have h2 := Nat.mul_le_mul_right ufs.sb.bsize (show start + 1 ≤ a + 1 by omega)
        omega
      rw [hmin]
      generalize hA : a * ufs.sb.bsize = A at *
      set stop := min ufs.sb.bsize (offset + src.length - A) with hstopdef
      rw [if_neg (by omega)]
      have hpl : (src.slice (A + (offset - A) - offset) (stop - (offset - A))).length =
          stop - (offset - A) := Bytes.slice_length (by omega)
      rw [g.dataBlockOffset_eq, Nat.add_assoc]
      refine putData_hoare ?_ ?_ ?_
      · rw [hpl]
        exact hin.mono (Nat.le_add_right _ _) (by lia)
      · rw [hpl]
        lia
      · refine ⟨a + 1, rfl, by omega, hmc, hdo.trans (d.write_dataOnly fun x h1 h2 => ?_), ?_⟩
        · rw [hpl] at h2
          refine ⟨_, hmem, Disk.mem_run le_rfl hsd (by lia) (by lia)⟩
        · rw [Disk.body_write hc hl hap (List.getElem?_eq_getElem hal) (by rw [hpl, hA]; omega),
            hbody, hA, hnext]
          have hto : A + (offset - A) = offset + (src.take (A - offset)).length := by
            rw [List.length_take]
            omega
          have htk : src.take (A + ufs.sb.bsize - offset) = src.take (A - offset) ++
              src.slice (A + (offset - A) - offset) (stop - (offset - A)) := by
            have he : A + (offset - A) - offset = A - offset := by omega
            rw [he, Bytes.slice]
            by_cases hlast : A + ufs.sb.bsize ≤ offset + src.length
            · have hn : A + ufs.sb.bsize - offset = (A - offset) + (stop - (offset - A)) := by omega
              rw [hn, List.take_add]
            · rw [List.take_of_length_le (l := src) (by omega),
                List.take_of_length_le (l := src.drop _) (by rw [List.length_drop]; omega),
                List.take_append_drop]
          rw [htk, ← Bytes.overlay_overlay, ← hto]
          rw [hpl, hbl, List.length_take]
          omega
    · refine ⟨start, rfl, le_rfl, hsc, DataOnly.refl _ _, ?_⟩
      rw [Nat.sub_eq_zero_of_le hsl, List.take_zero, Bytes.overlay_nil]
    · rintro - D' ⟨m, has, hm1, hm2, hdo, hbody⟩
      have hm : m = ceil := by
        by_contra hne
        rw [show ceil - m = (ceil - (m + 1)) + 1 by omega, List.range'_succ] at has
        simp at has
      refine ⟨hdo, ?_⟩
      rw [hbody, hm, List.take_of_length_le (by omega)]

end Rules
end UfsFuse
