import UfsFuse.InodeFields
import UfsFuse.InodeMap
import Mathlib.Data.Nat.Count

/-!
# Recounting

`Disk.derived`: the counts of a group as its bitmaps and its inodes give them. Recomputing the
summaries stores exactly these counts, in every header and as sums in the superblock, and
changes nothing else that the view shows.
-/
namespace UfsFuse

/-! ## Windows of free bits -/

theorem Bytes.leNat_testBit (b : Bytes) : ∀ i : ℕ,
    (Bytes.leNat b).testBit i = (b.byte (i / 8)).toNat.testBit (i % 8) := by
  induction b with
  | nil =>
    intro i
    simp [leNat, byte]
  | cons x xs ih =>
    intro i
    have hx : x.toNat < 2 ^ 8 := x.toNat_lt
    rw [leNat, Nat.add_comm, show (256 : ℕ) = 2 ^ 8 by norm_num,
      Nat.testBit_two_pow_mul_add _ hx]
    split_ifs with hi
    · rw [Nat.div_eq_of_lt hi, Nat.mod_eq_of_lt hi]
      rfl
    · obtain ⟨j, rfl⟩ : ∃ j, i = j + 8 := ⟨i - 8, by omega⟩
      rw [Nat.add_sub_cancel, ih, Nat.add_div_right _ (by norm_num), Nat.add_mod_right]
      rfl

section Scan
variable {b : Bytes} {frag : ℕ}

/-- The bits of a window that starts at a byte boundary. -/
theorem fragBlockFreeBits_eq {base : ℕ} (hf : frag = 8 ∨ frag = 16) (hb : 8 ∣ base)
    (hin : CgOff.free + base / 8 + frag / 8 ≤ b.length) :
    ∃ bits, fragBlockFreeBits b base frag = .ok bits ∧
      ∀ o < frag, bits.testBit o = (CgView.decode b).free (base + o) := by
  have hmod : base % nbby = 0 := Nat.mod_eq_zero_of_dvd hb
  have hcover : (base % nbby + frag + nbby - 1) / nbby = frag / 8 := by
    rw [hmod]
    simp only [nbby]
    omega
  have hin' : CgOff.free + base / nbby + frag / 8 ≤ b.length := hin
  refine ⟨(Bytes.leNat (b.slice (CgOff.free + base / nbby) (frag / 8)) >>> (base % nbby)) &&&
    ((1 <<< frag) - 1), ?_, ?_⟩
  · unfold fragBlockFreeBits
    rw [if_neg (by omega)]
    dsimp only
    rw [hcover, getSlice, Outcome.guard_true hin']
    rfl
  · intro o ho
    have hdiv : (base + o) / 8 = base / 8 + o / 8 := by omega
    have hrem : (base + o) % 8 = o % 8 := by omega
    rw [hmod, Nat.shiftRight_zero, Nat.testBit_and, Nat.one_shiftLeft, Nat.testBit_two_pow_sub_one,
      decide_eq_true ho, Bool.and_true, Bytes.leNat_testBit, Bytes.byte_slice (by omega)]
    simp only [CgView.decode, bitAt, nbby, hdiv, hrem, Nat.add_assoc]

theorem countP_range (p : ℕ → Bool) (n : ℕ) : (List.range n).countP p = Nat.count (p · = true) n := by
  induction n with
  | zero => rfl
  | succ n ih =>
    rw [List.range_succ, List.countP_append, ih, Nat.count_succ]
    simp

end Scan

/-! ## Runs of free flags -/

/-- The maximal runs of `k` free flags: the pieces between taken fragments. -/
def freeRuns (flags : List Bool) (k : ℕ) : ℕ := (flags.splitOn false).count (List.replicate k true)

/-- Accounting with a run of `r` free flags already behind, by induction on the flags to come. -/
theorem accountRuns_from {k : ℕ} (hk : 0 < k) (flags : List Bool) : ∀ (r : ℕ) (frsum : List ℕ),
    k < frsum.length →
    ((flags ++ [false]).foldl
      (fun (st : ℕ × List ℕ) free =>
        if free then (st.1 + 1, st.2)
        else (0, if 0 < st.1 ∧ st.1 < st.2.length then st.2.modify st.1 (· + 1) else st.2))
      (r, frsum)).2.getD k 0 =
    frsum.getD k 0 +
      ((flags.splitOn false).modifyHead (List.replicate r true ++ ·)).count
        (List.replicate k true) := by
  -- the end of a run of length `r`
  have hend : ∀ (r : ℕ) (frsum : List ℕ), k < frsum.length →
      (if 0 < r ∧ r < frsum.length then frsum.modify r (· + 1) else frsum).getD k 0 =
        frsum.getD k 0 + if r = k then 1 else 0 := by
    intro r frsum hlt
    by_cases hr : r = k
    · subst hr
      rw [if_pos ⟨hk, hlt⟩, if_pos rfl, List.getD_eq_getElem _ _ (by simpa using hlt),
        List.getD_eq_getElem _ _ hlt, List.getElem_modify, if_pos rfl]
    · rw [if_neg hr]
      split_ifs with hin
      · rw [List.getD_eq_getElem _ _ (by simpa using hlt), List.getD_eq_getElem _ _ hlt,
          List.getElem_modify, if_neg hr, Nat.add_zero]
      · rw [Nat.add_zero]
  have hpiece : ∀ r : ℕ, (List.replicate r true == List.replicate k true) = decide (r = k) := by
    intro r
    by_cases hr : r = k
    · subst hr
      simp
    · have hne : List.replicate r true ≠ List.replicate k true := fun heq => hr (by
        simpa using congrArg List.length heq)
      simp [hr]
  induction flags with
  | nil =>
    intro r frsum hlt
    rw [List.nil_append, List.foldl_cons, List.foldl_nil, List.splitOn_nil]
    simp only [Bool.false_eq_true, if_false, List.modifyHead_cons, List.append_nil,
      List.count_cons, List.count_nil, hpiece]
    rw [hend r frsum hlt]
    simp
  | cons free flags ih =>
    intro r frsum hlt
    rw [List.cons_append, List.foldl_cons]
    cases free with
    | true =>
      have hsplit : (true :: flags).splitOn false = (flags.splitOn false).modifyHead (true :: ·) := by
        rw [List.splitOn_cons_eq_if_modifyHead]
        rfl
      simp only [if_true]
      rw [ih (r + 1) frsum hlt, hsplit, List.modifyHead_modifyHead]
      congr 3
      funext piece
      simp [List.replicate_succ']
    | false =>
      have hsplit : (false :: flags).splitOn false = [] :: flags.splitOn false := by
        rw [List.splitOn_cons_eq_if_modifyHead]
        rfl
      simp only [Bool.false_eq_true, if_false]
      have hlt' : k < (if 0 < r ∧ r < frsum.length then frsum.modify r (· + 1)
          else frsum).length := by
        split_ifs
        · rwa [List.length_modify]
        · exact hlt
      have hid : (flags.splitOn false).modifyHead (List.replicate 0 true ++ ·) =
          flags.splitOn false := by
        cases flags.splitOn false with
        | nil => rfl
        | cons piece pieces => rfl
      rw [ih 0 _ hlt', hend r frsum hlt, hsplit, hid, List.modifyHead_cons, List.count_cons,
        List.append_nil, hpiece]
      simp only [decide_eq_true_eq]
      omega

/-- Each maximal run that the table can hold is counted once. -/
theorem accountFragmentRun_runs {k : ℕ} (hk : 0 < k) {frsum : List ℕ} (hlt : k < frsum.length)
    (flags : List Bool) :
    (accountFragmentRun flags frsum).getD k 0 = frsum.getD k 0 + freeRuns flags k := by
  have hid : (flags.splitOn false).modifyHead (List.replicate 0 true ++ ·) =
      flags.splitOn false := by
    cases flags.splitOn false with
    | nil => rfl
    | cons piece pieces => rfl
  have hfrom := accountRuns_from hk flags 0 frsum hlt
  rw [hid] at hfrom
  exact hfrom

/-- No free flag, no run. -/
theorem freeRuns_none {k : ℕ} (hk : 0 < k) {flags : List Bool} (h : ∀ free ∈ flags, free = false) :
    freeRuns flags k = 0 := by
  have hpieces : ∀ piece ∈ flags.splitOn false, piece = [] := by
    induction flags with
    | nil => simp [List.splitOn_nil]
    | cons free flags ih =>
      have hfree : free = false := h free (by simp)
      have hsplit : (false :: flags).splitOn false = [] :: flags.splitOn false := by
        rw [List.splitOn_cons_eq_if_modifyHead]
        rfl
      rw [hfree, hsplit, List.forall_mem_cons]
      exact ⟨rfl, ih fun f hf => h f (by simp [hf])⟩
  unfold freeRuns
  rw [List.count_eq_zero]
  intro hmem
  have hnil := hpieces _ hmem
  rw [List.replicate_eq_nil_iff] at hnil
  omega

namespace CgView

/-- Free fragments of window `k`. -/
def inWindow (v : CgView) (frag k : ℕ) : ℕ := Nat.count (fun o => v.free (k * frag + o) = true) frag

/-- Window `k` is free as a whole. -/
def Whole (v : CgView) (frag k : ℕ) : Prop := ∀ o < frag, v.free (k * frag + o) = true

instance (v : CgView) (frag k : ℕ) : Decidable (v.Whole frag k) :=
  inferInstanceAs (Decidable (∀ o < frag, _))

/-- Free fragments of the group. -/
def freeCount (v : CgView) : ℕ := Nat.count (v.free · = true) v.ndblk

/-- Whole free blocks of the group. -/
def blockCount (v : CgView) (frag : ℕ) : ℕ := Nat.count (v.Whole frag) (v.ndblk / frag)

/-- The free flags of the `n` fragments from `base` on. -/
def flags (v : CgView) (base n : ℕ) : List Bool := (List.range n).map fun o => v.free (base + o)

/-- Maximal runs of `k` free fragments in the first `n` blocks, the wholly free ones apart. -/
def runsBelow (v : CgView) (frag k n : ℕ) : ℕ :=
  ∑ w ∈ Finset.range n, if v.Whole frag w then 0 else freeRuns (v.flags (w * frag) frag) k

/-- Maximal runs of `k` free fragments inside partly free blocks, the cut block at the end of the
group included. -/
def runCount (v : CgView) (frag k : ℕ) : ℕ :=
  v.runsBelow frag k (v.ndblk / frag) +
    freeRuns (v.flags (v.ndblk / frag * frag) (v.ndblk - v.ndblk / frag * frag)) k

theorem inWindow_eq_iff (v : CgView) {frag k : ℕ} : v.inWindow frag k = frag ↔ v.Whole frag k := by
  unfold inWindow Whole
  rw [Nat.count_eq_card_filter_range]
  constructor
  · intro h o ho
    have hc : (Finset.range frag).card ≤
        ((Finset.range frag).filter fun o => v.free (k * frag + o) = true).card := by
      rw [h, Finset.card_range]
    have he := Finset.eq_of_subset_of_card_le (Finset.filter_subset _ _) hc
    have hm := Finset.mem_range.mpr ho
    rw [← he] at hm
    exact (Finset.mem_filter.mp hm).2
  · intro h
    rw [Finset.filter_true_of_mem fun o ho => h o (Finset.mem_range.mp ho), Finset.card_range]

theorem count_windows (v : CgView) (frag : ℕ) : ∀ n : ℕ,
    Nat.count (v.free · = true) (n * frag) = ∑ k ∈ Finset.range n, v.inWindow frag k := by
  intro n
  induction n with
  | zero => simp
  | succ n ih =>
    rw [Nat.succ_mul, Nat.count_add, ih, Finset.sum_range_succ]
    rfl

/-- Free fragments are whole blocks and the rest. -/
theorem sum_windows (v : CgView) (frag n : ℕ) :
    ∑ k ∈ Finset.range n, v.inWindow frag k = Nat.count (v.Whole frag) n * frag +
      ∑ k ∈ Finset.range n, if v.Whole frag k then 0 else v.inWindow frag k := by
  induction n with
  | zero => simp
  | succ n ih =>
    rw [Finset.sum_range_succ, Finset.sum_range_succ, Nat.count_succ, ih]
    split_ifs with hw
    · rw [(v.inWindow_eq_iff).mpr hw, Nat.add_mul, Nat.one_mul]
      omega
    · rw [Nat.add_zero]
      omega

end CgView

/-! ## The scan -/
section Scan
variable {sb : Superblock} {b : Bytes}

theorem accountFragmentRun_length (flags : List Bool) (frsum : List ℕ) :
    (accountFragmentRun flags frsum).length = frsum.length := by
  unfold accountFragmentRun
  generalize flags ++ [false] = l
  suffices h : ∀ (l : List Bool) (st : ℕ × List ℕ), (l.foldl
      (fun (st : ℕ × List ℕ) free =>
        if free then (st.1 + 1, st.2)
        else (0, if 0 < st.1 ∧ st.1 < st.2.length then st.2.modify st.1 (· + 1) else st.2))
      st).2.length = st.2.length from h l (0, frsum)
  intro l
  induction l with
  | nil => exact fun _ => rfl
  | cons free l ih =>
    intro st
    rw [List.foldl_cons, ih]
    split_ifs <;> simp

/-- What a scan over the first `n` windows has found. -/
structure Scanned (v : CgView) (frag n : ℕ) (acc : FragScan) : Prop where
  nbfree : acc.nbfree = Nat.count (v.Whole frag) n
  nffree : acc.nffree = ∑ k ∈ Finset.range n, if v.Whole frag k then 0 else v.inWindow frag k
  frsum : acc.frsum.length = maxfrag
  runs : ∀ k, 0 < k → k < maxfrag → acc.frsum.getD k 0 = v.runsBelow frag k n
  btot : acc.btot.length = maxcpg
  bpos : acc.bpos.length = maxcpg * nrpos

theorem scanWindow_scanned {n : ℕ} {acc : FragScan} (hf : sb.frag = 8 ∨ sb.frag = 16)
    (hin : CgOff.free + n * sb.frag / 8 + sb.frag / 8 ≤ b.length)
    (h : Scanned (CgView.decode b) sb.frag n acc) :
    ∃ acc', scanWindow sb b acc (n * sb.frag) = .ok acc' ∧
      Scanned (CgView.decode b) sb.frag (n + 1) acc' := by
  have hdvd : 8 ∣ n * sb.frag := by
    rcases hf with hf | hf <;> rw [hf] <;> omega
  obtain ⟨bits, hbits, htest⟩ := fragBlockFreeBits_eq hf hdvd hin
  have hcount : (List.range sb.frag).countP bits.testBit =
      (CgView.decode b).inWindow sb.frag n := by
    rw [CgView.inWindow, ← countP_range]
    exact List.countP_congr fun o ho => by rw [htest o (List.mem_range.mp ho)]
  unfold scanWindow
  rw [hbits, Outcome.ok_bind]
  dsimp only
  rw [hcount]
  by_cases hw : (CgView.decode b).Whole sb.frag n
  · have hn : acc.nbfree + 1 = Nat.count ((CgView.decode b).Whole sb.frag) (n + 1) := by
      rw [Nat.count_succ, if_pos hw, h.nbfree]
    have hs : acc.nffree = ∑ k ∈ Finset.range (n + 1), if (CgView.decode b).Whole sb.frag k then 0
        else (CgView.decode b).inWindow sb.frag k := by
      rw [Finset.sum_range_succ, if_pos hw, Nat.add_zero, h.nffree]
    rw [if_pos (CgView.inWindow_eq_iff _ |>.mpr hw)]
    have hr : ∀ k, 0 < k → k < maxfrag → acc.frsum.getD k 0 =
        (CgView.decode b).runsBelow sb.frag k (n + 1) := by
      intro k hk hlt
      rw [h.runs k hk hlt, CgView.runsBelow, CgView.runsBelow, Finset.sum_range_succ, if_pos hw,
        Nat.add_zero]
    split_ifs with hc
    · exact ⟨_, rfl, hn, hs, h.frsum, hr, by rw [List.length_modify, h.btot],
        by rw [List.length_modify, h.bpos]⟩
    · exact ⟨_, rfl, hn, hs, h.frsum, hr, h.btot, h.bpos⟩
  · have hn : acc.nbfree = Nat.count ((CgView.decode b).Whole sb.frag) (n + 1) := by
      rw [Nat.count_succ, if_neg hw, h.nbfree, Nat.add_zero]
    have hs : acc.nffree + (CgView.decode b).inWindow sb.frag n =
        ∑ k ∈ Finset.range (n + 1), if (CgView.decode b).Whole sb.frag k then 0
          else (CgView.decode b).inWindow sb.frag k := by
      rw [Finset.sum_range_succ, if_neg hw, h.nffree]
    rw [if_neg fun he => hw (CgView.inWindow_eq_iff _ |>.mp he)]
    have hflags : (List.range sb.frag).map bits.testBit =
        (CgView.decode b).flags (n * sb.frag) sb.frag :=
      List.map_congr_left fun o ho => htest o (List.mem_range.mp ho)
    have hr : ∀ k, 0 < k → k < maxfrag → acc.frsum.getD k 0 +
        freeRuns ((CgView.decode b).flags (n * sb.frag) sb.frag) k =
          (CgView.decode b).runsBelow sb.frag k (n + 1) := by
      intro k hk hlt
      rw [h.runs k hk hlt, CgView.runsBelow, CgView.runsBelow, Finset.sum_range_succ, if_neg hw]
    split_ifs with hc
    · refine ⟨_, rfl, hn, hs, by rw [accountFragmentRun_length, h.frsum], ?_, h.btot, h.bpos⟩
      intro k hk hlt
      rw [accountFragmentRun_runs hk (by rw [h.frsum]; exact hlt), hflags, hr k hk hlt]
    · have hnone : ∀ free ∈ (CgView.decode b).flags (n * sb.frag) sb.frag, free = false := by
        intro free hfree
        obtain ⟨o, ho, rfl⟩ := List.mem_map.mp hfree
        have hzero : Nat.count (fun o => (CgView.decode b).free (n * sb.frag + o) = true) sb.frag =
            0 := Nat.eq_zero_of_not_pos hc
        rw [Nat.count_eq_card_filter_range, Finset.card_eq_zero] at hzero
        have hout := Finset.filter_eq_empty_iff.mp hzero (Finset.mem_range.mpr (List.mem_range.mp ho))
        simpa using hout
      rw [Nat.eq_zero_of_not_pos hc, Nat.add_zero] at hs
      refine ⟨_, rfl, hn, hs, h.frsum, ?_, h.btot, h.bpos⟩
      intro k hk hlt
      rw [← hr k hk hlt, freeRuns_none hk hnone, Nat.add_zero]

/-- By induction on the number of windows. -/
theorem scanWindows_scanned (hf : sb.frag = 8 ∨ sb.frag = 16) {start : FragScan}
    (h : Scanned (CgView.decode b) sb.frag 0 start) : ∀ {n : ℕ},
    CgOff.free + n * sb.frag / 8 ≤ b.length →
    ∃ acc, Outcome.foldM (scanWindow sb b) start ((List.range n).map (· * sb.frag)) = .ok acc ∧
      Scanned (CgView.decode b) sb.frag n acc := by
  intro n
  induction n with
  | zero => exact fun _ => ⟨start, rfl, h⟩
  | succ n ih =>
    intro hin
    rw [Nat.succ_mul] at hin
    obtain ⟨acc, hacc, hs⟩ := ih (by omega)
    have hstep : CgOff.free + n * sb.frag / 8 + sb.frag / 8 ≤ b.length := by
      rcases hf with hf | hf <;> rw [hf] at hin ⊢ <;> omega
    obtain ⟨acc', hacc', hs'⟩ := scanWindow_scanned hf hstep hs
    refine ⟨acc', ?_, hs'⟩
    rw [List.range_succ, List.map_append, Outcome.foldM_append, hacc, Outcome.ok_bind, List.map_singleton,
      Outcome.foldM, hacc', Outcome.ok_bind]
    rfl

/-- The flags of the fragments from `base` on. -/
theorem trailingFlags_eq {base : ℕ} : ∀ {n : ℕ}, (∀ i < base + n, CgOff.free + i / 8 < b.length) →
    Outcome.foldM (fun flags f => do
        let free ← isFragFree b f
        pure (flags ++ [free])) ([] : List Bool) ((List.range n).map (base + ·)) =
      .ok ((List.range n).map fun o => (CgView.decode b).free (base + o)) := by
  intro n
  induction n with
  | zero => exact fun _ => rfl
  | succ n ih =>
    intro hin
    rw [List.range_succ, List.map_append, Outcome.foldM_append, ih fun i hi => hin i (by omega),
      Outcome.ok_bind, List.map_append, List.map_singleton, List.map_singleton]
    have hfree := isFragFree_eq (hin (base + n) (by omega))
    simp [Outcome.foldM, hfree]

theorem scanFragments_eq (hf : sb.frag = 8 ∨ sb.frag = 16) {ndblk : ℕ}
    (hin : ∀ i < ndblk, CgOff.free + i / 8 < b.length) (hb : CgOff.free ≤ b.length)
    (hd : (CgView.decode b).ndblk = ndblk) :
    ∃ acc, scanFragments sb b ndblk = .ok acc ∧
      acc.nbfree = (CgView.decode b).blockCount sb.frag ∧
      acc.nbfree * sb.frag + acc.nffree = (CgView.decode b).freeCount ∧
      (∀ k, 0 < k → k < maxfrag →
        acc.frsum.getD k 0 = (CgView.decode b).runCount sb.frag k) ∧
      acc.frsum.length = maxfrag ∧ acc.btot.length = maxcpg ∧ acc.bpos.length = maxcpg * nrpos := by
  set v := CgView.decode b with hv
  set n := ndblk / sb.frag with hn
  have hdm : n * sb.frag + ndblk % sb.frag = ndblk := Nat.div_add_mod' ndblk sb.frag
  have hwin : CgOff.free + n * sb.frag / 8 ≤ b.length := by
    rcases Nat.eq_zero_or_pos (n * sb.frag) with h0 | hpos
    · rw [h0]
      exact hb
    · have hlast := hin (n * sb.frag - 1) (by omega)
      rcases hf with hf | hf <;> rw [hf] at hlast hpos ⊢ <;> omega
  have hzero : Scanned v sb.frag 0 ⟨0, 0, List.replicate maxfrag 0, List.replicate maxcpg 0,
      List.replicate (maxcpg * nrpos) 0⟩ :=
    ⟨by simp, by simp, List.length_replicate, fun k _ hlt => by
        rw [List.getD_eq_getElem _ _ (by simpa using hlt), List.getElem_replicate]
        simp [CgView.runsBelow],
      List.length_replicate, List.length_replicate⟩
  obtain ⟨acc, hacc, hs⟩ := scanWindows_scanned hf hzero hwin
  rw [← hv] at hs
  have hflags := @trailingFlags_eq b (n * sb.frag) (ndblk - n * sb.frag)
    fun i hi => hin i (by omega)
  have htrail : ((List.range (ndblk - n * sb.frag)).map fun o => v.free (n * sb.frag + o)).count
      true = Nat.count (fun o => v.free (n * sb.frag + o) = true) (ndblk - n * sb.frag) := by
    rw [← countP_range, List.count_eq_countP, List.countP_map]
    exact List.countP_congr fun o _ => by simp
  -- the windows and what is left behind them make up the group
  have htotal : acc.nbfree * sb.frag + (acc.nffree +
      Nat.count (fun o => v.free (n * sb.frag + o) = true) (ndblk - n * sb.frag)) = v.freeCount := by
    have hsplit : ndblk = n * sb.frag + (ndblk - n * sb.frag) := by omega
    rw [CgView.freeCount, hd]
    conv_rhs => rw [hsplit, Nat.count_add, v.count_windows, v.sum_windows]
    rw [hs.nbfree, hs.nffree]
    omega
  have hblocks : acc.nbfree = v.blockCount sb.frag := by
    rw [hs.nbfree, CgView.blockCount, hd]
  have hruns : ∀ k, 0 < k → k < maxfrag → acc.frsum.getD k 0 +
      freeRuns (v.flags (n * sb.frag) (ndblk - n * sb.frag)) k = v.runCount sb.frag k := by
    intro k hk hlt
    rw [hs.runs k hk hlt, CgView.runCount, hd]
  unfold scanFragments
  dsimp only [wholeWindows]
  rw [← hn, hacc, Outcome.ok_bind, hflags, Outcome.ok_bind, htrail]
  split_ifs with ht
  · refine ⟨_, rfl, hblocks, htotal, ?_, by rw [accountFragmentRun_length, hs.frsum], hs.btot,
      hs.bpos⟩
    intro k hk hlt
    rw [← hruns k hk hlt]
    exact accountFragmentRun_runs hk (by rw [hs.frsum]; exact hlt) _
  · have hnone : ∀ free ∈ v.flags (n * sb.frag) (ndblk - n * sb.frag), free = false := by
      intro free hfree
      have hzero := Nat.eq_zero_of_not_pos ht
      rw [← htrail, List.count_eq_zero] at hzero
      cases free with
      | false => rfl
      | true => exact absurd hfree hzero
    rw [Nat.eq_zero_of_not_pos ht, Nat.add_zero] at htotal
    refine ⟨_, rfl, hblocks, htotal, ?_, hs.frsum, hs.btot, hs.bpos⟩
    intro k hk hlt
    rw [← hruns k hk hlt, freeRuns_none hk hnone, Nat.add_zero]

end Scan

/-! ## The inode count -/

/-- Inodes 0 and 1 are never counted. -/
def reservedIn (c : ℕ) : ℕ := if c = 0 then 2 else 0

namespace CgView
variable (v : CgView) (sb : Superblock) (c : ℕ) (ino : ℕ → Dinode)

/-- Inode `i` of group `c` counts as used. -/
def Counts (i : ℕ) : Prop := reservedIn c ≤ i ∧ v.used i = true

instance (i : ℕ) : Decidable (Counts v c i) := inferInstanceAs (Decidable (_ ∧ _))

/-- Inode `i` of group `c` counts as a directory. -/
def CountsDir (i : ℕ) : Prop := v.Counts c i ∧ (ino (c * sb.ipg + i)).isDirectory = true

instance (i : ℕ) : Decidable (CountsDir v sb c ino i) := inferInstanceAs (Decidable (_ ∧ _))

/-- The counts of group `c` as its bitmaps and the inodes give them. -/
def derived : Csum where
  ndir := Nat.count (v.CountsDir sb c ino) sb.ipg
  nbfree := v.blockCount sb.frag
  nifree := sb.ipg - reservedIn c - Nat.count (v.Counts c) sb.ipg
  nffree := v.freeCount - v.blockCount sb.frag * sb.frag

end CgView

/-- The counts of group `c` as the view gives them. -/
def Disk.derived (sb : Superblock) (D : Disk) (c : ℕ) : Csum := (D.cg c).derived sb c D.ino

/-- Inode `n` has a slot in the image and is a directory there. -/
def readsDirectory (image : Bytes) (ufs : Ufs) (n : ℕ) : Bool :=
  (readInode image ufs n).any Inode.isDirectory

namespace CgView
variable (v : CgView) (sb : Superblock) (c : ℕ) (dir : ℕ → Bool)

/-- Fragment `f` lies in an aligned block that is free as a whole. -/
def InWhole (frag f : ℕ) : Prop := f / frag < v.ndblk / frag ∧ v.Whole frag (f / frag)

instance (frag f : ℕ) : Decidable (v.InWhole frag f) := inferInstanceAs (Decidable (_ ∧ _))

/-- The counts of group `c`, each object counted for itself: used directories, wholly free blocks,
free inodes, and free fragments of other blocks. -/
def direct : Csum where
  ndir := Nat.count (fun i => v.Counts c i ∧ dir (c * sb.ipg + i) = true) sb.ipg
  nbfree := v.blockCount sb.frag
  nifree := Nat.count (fun i => reservedIn c ≤ i ∧ v.used i = false) sb.ipg
  nffree := Nat.count (fun f => v.free f = true ∧ ¬v.InWhole sb.frag f) v.ndblk

end CgView

theorem count_and_add (p q : ℕ → Prop) [DecidablePred p] [DecidablePred q] (n : ℕ) :
    Nat.count (fun i => p i ∧ q i) n + Nat.count (fun i => p i ∧ ¬q i) n = Nat.count p n := by
  induction n with
  | zero => simp
  | succ n ih =>
    rw [Nat.count_succ, Nat.count_succ, Nat.count_succ, ← ih]
    by_cases hp : p n <;> by_cases hq : q n <;> simp [hp, hq] <;> omega

theorem count_congr {p q : ℕ → Prop} [DecidablePred p] [DecidablePred q] {n : ℕ}
    (h : ∀ i < n, p i ↔ q i) : Nat.count p n = Nat.count q n := by
  rw [Nat.count_eq_card_filter_range, Nat.count_eq_card_filter_range,
    Finset.filter_congr fun i hi => h i (Finset.mem_range.mp hi)]

theorem count_ge (r : ℕ) : ∀ n, Nat.count (r ≤ ·) n = n - r := by
  intro n
  induction n with
  | zero => simp
  | succ n ih =>
    rw [Nat.count_succ, ih]
    split_ifs <;> omega

namespace CgView
variable {v : CgView} {frag : ℕ}

/-- The fragments of wholly free blocks, block by block. -/
theorem count_inWhole (hf : 0 < frag) : ∀ n ≤ v.ndblk / frag,
    Nat.count (v.InWhole frag) (n * frag) = Nat.count (v.Whole frag) n * frag := by
  intro n
  induction n with
  | zero => simp
  | succ n ih =>
    intro hn
    rw [Nat.succ_mul, Nat.count_add, ih (by omega), Nat.count_succ, Nat.add_mul]
    congr 1
    have hblock : ∀ o < frag, v.InWhole frag (n * frag + o) ↔ v.Whole frag n := by
      intro o ho
      have hdiv : (n * frag + o) / frag = n := by
        rw [Nat.mul_comm, Nat.mul_add_div hf, Nat.div_eq_of_lt ho, Nat.add_zero]
      rw [InWhole, hdiv]
      exact and_iff_right (by omega)
    by_cases hw : v.Whole frag n
    · rw [if_pos hw, Nat.one_mul, Nat.count_eq_card_filter_range, Finset.filter_true_of_mem,
        Finset.card_range]
      intro o ho
      exact (hblock o (Finset.mem_range.mp ho)).mpr hw
    · rw [if_neg hw, Nat.zero_mul, Nat.count_eq_card_filter_range, Finset.card_eq_zero,
        Finset.filter_eq_empty_iff]
      intro o ho hin
      exact hw ((hblock o (Finset.mem_range.mp ho)).mp hin)

/-- A fragment is free in a wholly free block or elsewhere. -/
theorem count_other (hf : 0 < frag) :
    v.blockCount frag * frag + Nat.count (fun f => v.free f = true ∧ ¬v.InWhole frag f) v.ndblk =
      v.freeCount := by
  have hin : ∀ f, (v.free f = true ∧ v.InWhole frag f) ↔ v.InWhole frag f := by
    intro f
    refine and_iff_right_of_imp fun h => ?_
    have hfree := h.2 (f % frag) (Nat.mod_lt _ hf)
    rwa [Nat.div_add_mod'] at hfree
  have hdm : v.ndblk / frag * frag + v.ndblk % frag = v.ndblk := Nat.div_add_mod' _ _
  -- the cut block at the end is not a whole one
  have htail : Nat.count (fun o => v.InWhole frag (v.ndblk / frag * frag + o))
      (v.ndblk % frag) = 0 := by
    rw [Nat.count_eq_card_filter_range, Finset.card_eq_zero, Finset.filter_eq_empty_iff]
    intro o _ h
    have hlt := h.1
    rw [Nat.mul_comm, Nat.mul_add_div hf] at hlt
    exact absurd hlt (not_lt.mpr (Nat.le_add_right _ _))
  have hwhole : Nat.count (v.InWhole frag) v.ndblk = v.blockCount frag * frag := by
    conv_lhs => rw [← hdm]
    rw [Nat.count_add, count_inWhole hf _ le_rfl, htail, Nat.add_zero]
    rfl
  have hsplit := count_and_add (v.free · = true) (v.InWhole frag) v.ndblk
  simp only [hin] at hsplit
  rw [hwhole] at hsplit
  exact hsplit

/-- The direct counts, by subtraction. -/
theorem direct_eq {sb : Superblock} {c : ℕ} {dir : ℕ → Bool} (hf : 0 < sb.frag) :
    v.direct sb c dir =
      ⟨Nat.count (fun i => v.Counts c i ∧ dir (c * sb.ipg + i) = true) sb.ipg,
        v.blockCount sb.frag, sb.ipg - reservedIn c - Nat.count (v.Counts c) sb.ipg,
        v.freeCount - v.blockCount sb.frag * sb.frag⟩ := by
  have hinodes := count_and_add (reservedIn c ≤ ·) (v.used · = true) sb.ipg
  simp only [Bool.not_eq_true, count_ge] at hinodes
  have hother := v.count_other hf
  have hcounts : Nat.count (v.Counts c) sb.ipg =
      Nat.count (fun i => reservedIn c ≤ i ∧ v.used i = true) sb.ipg := rfl
  rw [direct, Csum.mk.injEq]
  refine ⟨rfl, rfl, ?_, ?_⟩
  · rw [hcounts]
    omega
  · omega

/-- Where the reserved inodes are marked, the free inodes are the clear bits of the map. -/
theorem direct_nifree {sb : Superblock} {c : ℕ} {dir : ℕ → Bool}
    (h : ∀ i < reservedIn c, v.used i = true) :
    (v.direct sb c dir).nifree = Nat.count (v.used · = false) sb.ipg := by
  refine count_congr fun i _ => and_iff_right_of_imp fun hfree => ?_
  by_contra hlow
  rw [h i (not_le.mp hlow)] at hfree
  cases hfree

end CgView

section Count
variable {ufs : Ufs} {D : Disk} {image b : Bytes} {c : ℕ}

/-- By induction on the number of inodes looked at. -/
theorem countInodes_from (hmax : ufs.sb.ipg ≤ maxipg) (hb : CgOff.free ≤ b.length) :
    ∀ {n : ℕ}, n ≤ ufs.sb.ipg →
    Outcome.foldM
      (fun (acc : ℕ × ℕ) inodeIndex =>
        if c = 0 ∧ inodeIndex < 2 then .ok acc
        else do
          if ← isInodeUsed b inodeIndex then
            match readInode image ufs (c * ufs.sb.ipg + inodeIndex) with
            | some inode => pure (acc.1 - 1, if inode.isDirectory then acc.2 + 1 else acc.2)
            | none => pure (acc.1 - 1, acc.2)
          else pure acc)
      (ufs.sb.ipg - reservedIn c, 0) (List.range n) =
    .ok (ufs.sb.ipg - reservedIn c - Nat.count ((CgView.decode b).Counts c) n,
      Nat.count (fun i => (CgView.decode b).Counts c i ∧
        readsDirectory image ufs (c * ufs.sb.ipg + i) = true) n) := by
  intro n
  induction n with
  | zero => exact fun _ => rfl
  | succ n ih =>
    intro hn
    have hused := @isInodeUsed_eq b n (by omega) hb
    rw [List.range_succ, Outcome.foldM_append, ih (by omega), Outcome.ok_bind, Outcome.foldM,
      Nat.count_succ, Nat.count_succ]
    by_cases hres : c = 0 ∧ n < 2
    · have hno : ¬(CgView.decode b).Counts c n := fun hcount => by
        have := hcount.1
        rw [reservedIn, if_pos hres.1] at this
        omega
      rw [if_pos hres, if_neg hno, if_neg fun hcount => hno hcount.1]
      rfl
    · have hlow : reservedIn c ≤ n := by
        unfold reservedIn
        split_ifs with h0 <;> omega
      rw [if_neg hres, hused, Outcome.ok_bind]
      by_cases hu : (CgView.decode b).used n = true
      · have hyes : (CgView.decode b).Counts c n := ⟨hlow, hu⟩
        rw [if_pos hu, if_pos hyes]
        have hdir : readsDirectory image ufs (c * ufs.sb.ipg + n) =
            (readInode image ufs (c * ufs.sb.ipg + n)).any Inode.isDirectory := rfl
        rw [hdir]
        cases readInode image ufs (c * ufs.sb.ipg + n) with
        | none =>
          rw [if_neg (by simp)]
          rfl
        | some inode =>
          dsimp only
          by_cases hd : inode.isDirectory = true
          · rw [if_pos hd, if_pos ⟨hyes, by simpa using hd⟩]
            rfl
          · rw [if_neg hd, if_neg fun hcount => hd (by simpa using hcount.2)]
            rfl
      · rw [if_neg hu, if_neg fun hcount => hu hcount.2, if_neg fun hcount => hu hcount.1.2]
        rfl

theorem countInodes_eq (hmax : ufs.sb.ipg ≤ maxipg) (hf : 0 < ufs.sb.frag)
    (hb : CgOff.free ≤ b.length) :
    countInodes image ufs c b =
      .ok (((CgView.decode b).direct ufs.sb c (readsDirectory image ufs)).nifree,
        ((CgView.decode b).direct ufs.sb c (readsDirectory image ufs)).ndir) := by
  rw [CgView.direct_eq hf]
  exact countInodes_from hmax hb le_rfl

/-- The view has the directories of the image. -/
theorem Ufs.Holds.direct (h : ufs.Holds image D) (hc : c < ufs.sb.ncg) :
    (D.cg c).direct ufs.sb c (readsDirectory image ufs) = D.derived ufs.sb c := by
  have g := h.1.geom
  rw [CgView.direct_eq (by have := g.frag_pos; omega), Disk.derived, CgView.derived, Csum.mk.injEq]
  refine ⟨?_, rfl, rfl, rfl⟩
  refine count_congr fun i hi => ?_
  have hn := InodeMap.number_lt hc hi
  rw [CgView.CountsDir, readsDirectory, h.readInode hn]
  rfl

end Count

/-! ## The new header -/
section Header
variable {b : Bytes}

theorem putTable_keeps {put : Bytes → ℕ → ℕ → Bytes} {width off : ℕ} {table : List ℕ}
    (hput : ∀ b o v, put b o v = b.overlay o (Bytes.le width v))
    (hl : off + table.length * width ≤ b.length) :
    (putTable put width off b table).length = b.length ∧
      ∀ o, o + 4 ≤ off → (putTable put width off b table).u32 o = b.u32 o := by
  unfold putTable
  suffices h : ∀ (table : List ℕ) (k : ℕ) (b : Bytes), off + (k + table.length) * width ≤ b.length →
      ((table.zipIdx k).foldl (fun b entry => put b (off + entry.2 * width) entry.1) b).length =
        b.length ∧
      ∀ o, o + 4 ≤ off →
        ((table.zipIdx k).foldl (fun b entry => put b (off + entry.2 * width) entry.1) b).u32 o =
          b.u32 o from h table 0 b (by rwa [Nat.zero_add])
  intro table
  induction table with
  | nil => exact fun _ _ _ => ⟨rfl, fun _ _ => rfl⟩
  | cons v table ih =>
    intro k b hk
    have hin : off + k * width + (Bytes.le width v).length ≤ b.length := by
      have : (k + 1) * width ≤ (k + (v :: table).length) * width :=
        Nat.mul_le_mul_right _ (by rw [List.length_cons]; omega)
      rw [Bytes.le_length]
      rw [Nat.succ_mul] at this
      omega
    have hlen : (put b (off + k * width) v).length = b.length := by
      rw [hput]
      exact Bytes.overlay_length hin
    have hstep := ih (k + 1) (put b (off + k * width) v) (by
      rw [hlen]
      rw [List.length_cons] at hk
      rwa [Nat.add_right_comm, Nat.add_assoc])
    rw [List.zipIdx_cons, List.foldl_cons]
    refine ⟨hstep.1.trans hlen, fun o ho => (hstep.2 o ho).trans ?_⟩
    rw [hput]
    exact Bytes.u32_overlay_of_disjoint hin (.inl (by omega))

theorem csumBytes_words (t : Csum) :
    csumBytes t = Bytes.words [t.ndir, t.nbfree, t.nifree, t.nffree] := by
  simp [csumBytes, Bytes.words]

@[simp] theorem csumBytes_length (t : Csum) : (csumBytes t).length = 16 := by
  rw [csumBytes_words, Bytes.words_length]
  rfl

end Header

/-- Counts as they are stored. -/
def Csum.stored (t : Csum) : Csum :=
  ⟨t.ndir % 2 ^ 32, t.nbfree % 2 ^ 32, t.nifree % 2 ^ 32, t.nffree % 2 ^ 32⟩

/-- Counts read back. -/
theorem csum_read {b : Bytes} {off : ℕ} {t : Csum} (h : off + 16 ≤ b.length) :
    (⟨(b.overlay off (csumBytes t)).u32 off, (b.overlay off (csumBytes t)).u32 (off + 4),
      (b.overlay off (csumBytes t)).u32 (off + 8), (b.overlay off (csumBytes t)).u32 (off + 12)⟩ :
      Csum) = t.stored := by
  have hw : ∀ i, i < 4 → (b.overlay off (csumBytes t)).u32 (off + i * 4) =
      [t.ndir, t.nbfree, t.nifree, t.nffree].getD i 0 % 2 ^ 32 := by
    intro i hi
    rw [csumBytes_words]
    exact Bytes.u32_overlay_words (by simpa using h) (by simpa using hi)
  have h0 := hw 0 (by norm_num)
  have h1 := hw 1 (by norm_num)
  have h2 := hw 2 (by norm_num)
  have h3 := hw 3 (by norm_num)
  simp only [Nat.zero_mul, Nat.add_zero, Nat.one_mul, Nat.reduceMul] at h0 h1 h2 h3
  rw [h0, h1, h2, h3]
  rfl

/-- The rotor is kept if it is a group-local inode number. -/
def clampRotor (sb : Superblock) (v : CgView) : ℕ := if v.irotor < sb.ipg then v.irotor else 0

/-! ## Tables of counts -/

/-- Storing a table of words entry by entry. -/
theorem putTable_words {b : Bytes} {off : ℕ} {table : List ℕ}
    (hl : off + table.length * 4 ≤ b.length) :
    putTable Bytes.putU32 4 off b table = b.overlay off (Bytes.words table) := by
  unfold putTable
  suffices h : ∀ (table : List ℕ) (k : ℕ) (b : Bytes), off + (k + table.length) * 4 ≤ b.length →
      (table.zipIdx k).foldl (fun b entry => b.putU32 (off + entry.2 * 4) entry.1) b =
        b.overlay (off + k * 4) (Bytes.words table) by
    have hall := h table 0 b (by rwa [Nat.zero_add])
    rwa [Nat.zero_mul, Nat.add_zero] at hall
  intro table
  induction table with
  | nil =>
    intro k b hk
    exact (Bytes.overlay_nil _ _).symm
  | cons v table ih =>
    intro k b hk
    rw [List.length_cons] at hk
    have hin : off + k * 4 + (Bytes.le 4 v).length ≤ b.length := by
      rw [Bytes.le_length]
      omega
    rw [List.zipIdx_cons, List.foldl_cons, ih (k + 1) _ (by
      rw [Bytes.putU32, Bytes.overlay_length hin]
      omega)]
    have hwords : Bytes.words (v :: table) = Bytes.le 4 v ++ Bytes.words table := rfl
    have hnext : off + (k + 1) * 4 = off + k * 4 + (Bytes.le 4 v).length := by
      rw [Bytes.le_length]
      omega
    rw [hwords, hnext]
    refine Bytes.overlay_append ?_
    rw [List.length_append, Bytes.le_length, Bytes.words_length]
    omega

/-- There are no more pieces than flags, by one. -/
theorem freeRuns_le (flags : List Bool) (k : ℕ) : freeRuns flags k ≤ flags.length + 1 := by
  refine List.count_le_length.trans ?_
  induction flags with
  | nil => simp [List.splitOn_nil]
  | cons free flags ih =>
    rw [List.splitOn_cons_eq_if_modifyHead]
    split_ifs
    · rw [List.length_cons, List.length_cons]
      omega
    · rw [List.length_modifyHead, List.length_cons]
      omega

theorem CgView.runCount_le (v : CgView) {k : ℕ} (frag : ℕ) :
    v.runCount frag k ≤ 2 * v.ndblk + 1 := by
  have hflags : ∀ base n, (v.flags base n).length = n := fun base n => by
    rw [CgView.flags, List.length_map, List.length_range]
  have hbelow : v.runsBelow frag k (v.ndblk / frag) ≤ v.ndblk / frag * (frag + 1) := by
    unfold CgView.runsBelow
    refine (Finset.sum_le_card_nsmul _ _ (frag + 1) fun w _ => ?_).trans
      (by rw [Finset.card_range, smul_eq_mul])
    split_ifs
    · exact Nat.zero_le _
    · refine (freeRuns_le _ k).trans ?_
      rw [hflags]
  have htail := freeRuns_le (v.flags (v.ndblk / frag * frag) (v.ndblk - v.ndblk / frag * frag)) k
  rw [hflags] at htail
  have hle : v.ndblk / frag * frag ≤ v.ndblk := Nat.div_mul_le_self _ _
  have hdiv : v.ndblk / frag ≤ v.ndblk := Nat.div_le_self _ _
  rw [Nat.mul_add, Nat.mul_one] at hbelow
  unfold CgView.runCount
  omega

section Header
variable {ufs : Ufs} {D : Disk} {image b : Bytes} {c : ℕ}

/-- A rotor is kept if it is in range. -/
def clampTo (bound v : ℕ) : ℕ := if v < bound then v else 0

/-- What the canonical header of a group tells. -/
structure Canonical (sb : Superblock) (b header : Bytes) : Prop where
  length : header.length = sb.bsize
  time : header.u32 CgOff.time = b.u32 CgOff.time
  ndblk : header.u32 CgOff.ndblk = b.u32 CgOff.ndblk
  rotor : header.u32 CgOff.rotor = clampTo (b.u32 CgOff.ndblk) (b.u32 CgOff.rotor)
  frotor : header.u32 CgOff.frotor = clampTo (b.u32 CgOff.ndblk) (b.u32 CgOff.frotor)
  irotor : header.u32 CgOff.irotor = clampTo sb.ipg (b.u32 CgOff.irotor)
  frsum : ∀ k, 0 < k → k < maxfrag →
    header.u32 (CgOff.frsum + k * 4) = (CgView.decode b).runCount sb.frag k

theorem clampTo_lt {bound v : ℕ} (hv : v < 2 ^ 32) : clampTo bound v < 2 ^ 32 := by
  unfold clampTo
  split_ifs <;> omega

/-- The canonical header and the counts of a group that is no longer than the geometry has it. -/
theorem expectedCgHeader_canonical (g : ufs.sb.oneGroup.Geometry) (hb : b.length = ufs.sb.bsize)
    (hn : b.u32 CgOff.ndblk ≤ ufs.sb.fpg) :
    ∃ header, expectedCgHeader image ufs c b =
        .ok (header, (CgView.decode b).direct ufs.sb c (readsDirectory image ufs)) ∧
      Canonical ufs.sb b header := by
  have hfrag : 8 ≤ ufs.sb.frag := g.frag_pos
  have hipg : ufs.sb.ipg ≤ maxipg := g.ipg_le
  have hfree : CgOff.free ≤ b.length := hb ▸ g.free_le_bsize
  have hin : ∀ i < b.u32 CgOff.ndblk, CgOff.free + i / 8 < b.length := by
    intro i hi
    rw [hb]
    exact g.free_byte (hi.trans_le hn)
  have hcases : ufs.sb.frag = 8 ∨ ufs.sb.frag = 16 := g.frag_cases
  obtain ⟨acc, hacc, hnb, hnf, hruns, hfrsum, hbtot, hbpos⟩ := scanFragments_eq hcases hin hfree rfl
  have hpos : 0 < ufs.sb.frag := by omega
  generalize ht : (CgView.decode b).direct ufs.sb c (readsDirectory image ufs) = t
  have hcounts : (⟨t.ndir, acc.nbfree, t.nifree, acc.nffree⟩ : Csum) = t := by
    have hother := (CgView.decode b).count_other hpos
    have hnbfree : t.nbfree = acc.nbfree := by rw [← ht, hnb]; rfl
    have hnffree : t.nffree = acc.nffree := by
      rw [← hnf, hnb] at hother
      rw [← ht]
      exact Nat.add_left_cancel hother
    rw [← hnbfree, ← hnffree]
  unfold expectedCgHeader
  dsimp only
  rw [countInodes_eq hipg hpos hfree, ht, Outcome.ok_bind]
  dsimp only
  rw [hacc, Outcome.ok_bind, hcounts]
  -- the fields of the header, then the three tables behind them
  generalize hfields : [(CgOff.time, Bytes.le 4 (b.u32 CgOff.time)), (CgOff.cgx, Bytes.le 4 c),
    (CgOff.ncyl, Bytes.le 2 (cgCylinders ufs.sb c)), (CgOff.niblk, Bytes.le 2 ufs.sb.ipg),
    (CgOff.ndblk, Bytes.le 4 (b.u32 CgOff.ndblk)), (CgOff.ndir, Bytes.le 4 t.ndir),
    (CgOff.nbfree, Bytes.le 4 acc.nbfree), (CgOff.nifree, Bytes.le 4 t.nifree),
    (CgOff.nffree, Bytes.le 4 acc.nffree),
    (CgOff.rotor, Bytes.le 4 (clampTo (b.u32 CgOff.ndblk) (b.u32 CgOff.rotor))),
    (CgOff.frotor, Bytes.le 4 (clampTo (b.u32 CgOff.ndblk) (b.u32 CgOff.frotor))),
    (CgOff.irotor, Bytes.le 4 (clampTo ufs.sb.ipg (b.u32 CgOff.irotor)))] = fields
  have hranges : (fields.map fun f => (f.1, f.2.length)) = [(8, 4), (12, 4), (16, 2), (18, 2),
      (20, 4), (24, 4), (28, 4), (32, 4), (36, 4), (40, 4), (44, 4), (48, 4)] := by
    subst hfields
    rfl
  refine ⟨putTable Bytes.putU16 2 CgOff.b (putTable Bytes.putU32 4 CgOff.btot
    (putTable Bytes.putU32 4 CgOff.frsum ((Bytes.zeros ufs.sb.bsize).overlays fields) acc.frsum)
    acc.btot) acc.bpos, ?_, ?_⟩
  · subst hfields
    rfl
  have hbig : 4096 ≤ ufs.sb.bsize := by
    have hbsize : ufs.sb.bsize = ufs.sb.frag * 512 := g.bsize_eq
    omega
  have hinside : ∀ f ∈ fields, f.1 + f.2.length ≤ (Bytes.zeros ufs.sb.bsize).length :=
    Bytes.fields_inside hranges fun r hr => by
      rw [Bytes.zeros_length]
      have : ∀ r ∈ [(8, 4), (12, 4), (16, 2), (18, 2), (20, 4), (24, 4), (28, 4), (32, 4), (36, 4),
        (40, 4), (44, 4), (48, 4)], r.1 + r.2 ≤ 52 := by decide
      exact (this r hr).trans (by omega)
  have hapart := Bytes.pairwise_fieldsApart hranges (by decide)
  have hlen := Bytes.overlays_length hinside
  rw [Bytes.zeros_length] at hlen
  have hroom : CgOff.frsum + acc.frsum.length * 4 ≤
      ((Bytes.zeros ufs.sb.bsize).overlays fields).length := by
    rw [hlen, hfrsum]
    simp only [CgOff.frsum, maxfrag]
    omega
  obtain ⟨hl₁, hk₁⟩ := @putTable_keeps _ Bytes.putU32 4 CgOff.frsum acc.frsum (fun _ _ _ => rfl)
    hroom
  have hw₁ := putTable_words hroom
  obtain ⟨hl₂, hk₂⟩ := @putTable_keeps _ Bytes.putU32 4 CgOff.btot acc.btot (fun _ _ _ => rfl)
    (by rw [hl₁, hlen, hbtot]; simp only [CgOff.btot, maxcpg]; omega)
  obtain ⟨hl₃, hk₃⟩ := @putTable_keeps _ Bytes.putU16 2 CgOff.b acc.bpos (fun _ _ _ => rfl)
    (by rw [hl₂, hl₁, hlen, hbpos]; simp only [CgOff.b, maxcpg, nrpos]; omega)
  have hread : ∀ {o v : ℕ}, (o, Bytes.le 4 v) ∈ fields → o + 4 ≤ 52 → v < 2 ^ 32 →
      (putTable Bytes.putU16 2 CgOff.b (putTable Bytes.putU32 4 CgOff.btot
        (putTable Bytes.putU32 4 CgOff.frsum ((Bytes.zeros ufs.sb.bsize).overlays fields)
          acc.frsum) acc.btot) acc.bpos).u32 o = v := by
    intro o v hm ho hv
    rw [hk₃ o (ho.trans (by norm_num)), hk₂ o (ho.trans (by norm_num)), hk₁ o ho,
      Bytes.overlays_u32 hinside hapart hm, Nat.mod_eq_of_lt hv]
  constructor
  · exact hl₃.trans (hl₂.trans (hl₁.trans hlen))
  · refine hread ?_ (by norm_num) (Bytes.u32_lt _ _)
    subst hfields
    simp
  · refine hread ?_ (by norm_num) (Bytes.u32_lt _ _)
    subst hfields
    simp
  · refine hread ?_ (by norm_num) (clampTo_lt (Bytes.u32_lt _ _))
    subst hfields
    simp
  · refine hread ?_ (by norm_num) (clampTo_lt (Bytes.u32_lt _ _))
    subst hfields
    simp
  · refine hread ?_ (by norm_num) (clampTo_lt (Bytes.u32_lt _ _))
    subst hfields
    simp
  · intro k hk hlt
    have hle := (CgView.decode b).runCount_le (k := k) ufs.sb.frag
    have hndblk : (CgView.decode b).ndblk = b.u32 CgOff.ndblk := rfl
    have hbits : ufs.sb.fpg ≤ (ufs.sb.bsize - CgOff.free) * 8 := g.bitmap
    have hbsize : ufs.sb.bsize = ufs.sb.frag * 512 := g.bsize_eq
    have hfrag16 : ufs.sb.frag ≤ 16 := g.frag_le
    have hk8 : k < 8 := hlt
    have hoff : CgOff.frsum + k * 4 + 4 ≤ 84 := by
      simp only [CgOff.frsum]
      omega
    rw [hk₃ _ (hoff.trans (by norm_num)), hk₂ _ hoff, hw₁,
      Bytes.u32_overlay_words (by rw [Nat.mul_comm 4]; exact hroom) (by rw [hfrsum]; exact hlt),
      hruns k hk hlt, Nat.mod_eq_of_lt (by omega)]

theorem expectedCgHeader_eq (h : ufs.Holds image D) (hc : c < ufs.sb.ncg)
    (hb : b.length = ufs.sb.bsize) (hd : CgView.decode b = D.cg c)
    (hn : (D.cg c).ndblk = ufs.sb.groupFrags c) :
    ∃ header, expectedCgHeader image ufs c b = .ok (header, D.derived ufs.sb c) ∧
      header.length = ufs.sb.bsize ∧ header.u32 CgOff.ndblk = (D.cg c).ndblk ∧
      header.u32 CgOff.irotor = clampRotor ufs.sb (D.cg c) := by
  have hndblk : b.u32 CgOff.ndblk = (D.cg c).ndblk := by
    rw [← hd]
    rfl
  obtain ⟨header, heq, hcan⟩ := @expectedCgHeader_canonical ufs image b c h.1.geom.oneGroup hb (by
    rw [hndblk, hn]
    exact Superblock.groupFrags_le _ _)
  rw [hd, h.direct hc] at heq
  refine ⟨header, heq, hcan.length, hcan.ndblk.trans hndblk, hcan.irotor.trans ?_⟩
  rw [← hd]
  rfl

/-- The header that a recount stores. -/
def CgView.recounted (sb : Superblock) (v : CgView) (t : Csum) : CgView :=
  { v with irotor := clampRotor sb v, counts := t.stored }

/-- The header block with a canonical header and the counts put in. -/
def recountedHeader (b header : Bytes) (t : Csum) : Bytes :=
  (b.overlay 0 (header.slice 0 CgOff.iused)).overlay CgOff.ndir (csumBytes t)

section Recounted
variable {header : Bytes} {t : Csum} (hb : CgOff.free ≤ b.length) (hl : header.length = b.length)
include hb hl

theorem recountedHeader_inside :
    (header.slice 0 CgOff.iused).length = CgOff.iused ∧
      0 + (header.slice 0 CgOff.iused).length ≤ b.length ∧
      CgOff.ndir + (csumBytes t).length ≤ (b.overlay 0 (header.slice 0 CgOff.iused)).length := by
  simp only [CgOff.free] at hb
  have hs : (header.slice 0 CgOff.iused).length = 724 :=
    Bytes.slice_length (by simp only [CgOff.iused]; omega)
  have h₁ : 0 + (header.slice 0 CgOff.iused).length ≤ b.length := by omega
  refine ⟨hs, h₁, ?_⟩
  rw [csumBytes_length, Bytes.overlay_length h₁]
  simp only [CgOff.ndir]
  omega

theorem recountedHeader_length : (recountedHeader b header t).length = b.length := by
  obtain ⟨-, h₁, h₂⟩ := @recountedHeader_inside b header t hb hl
  exact (Bytes.overlay_length h₂).trans (Bytes.overlay_length h₁)

/-- The fields beside the counts are those of the canonical header. -/
theorem recountedHeader_u32 {o : ℕ} (ho : 40 ≤ o ∨ o + 4 ≤ 24) (hu : o + 4 ≤ 724) :
    (recountedHeader b header t).u32 o = header.u32 o := by
  obtain ⟨hs, h₁, h₂⟩ := @recountedHeader_inside b header t hb hl
  have hkeep := Bytes.u32_overlay_of_disjoint (o := o) h₂ (by
    rw [csumBytes_length]
    simp only [CgOff.ndir]
    omega)
  rw [recountedHeader, hkeep, Bytes.u32, Bytes.u32,
    Bytes.slice_overlay_inside h₁ (Nat.zero_le _) (by rw [hs]; simpa using hu), Nat.sub_zero,
    Bytes.slice_slice (by simpa using hu), Nat.zero_add]

/-- Nothing from the map of the inodes on changes. -/
theorem recountedHeader_byte {i : ℕ} (hi : 724 ≤ i) :
    (recountedHeader b header t).byte i = b.byte i := by
  obtain ⟨hs, h₁, h₂⟩ := @recountedHeader_inside b header t hb hl
  rw [recountedHeader, Bytes.byte_overlay h₂, if_neg, Bytes.byte_overlay h₁, if_neg]
  · rw [hs]
    simp only [CgOff.iused]
    omega
  · rw [csumBytes_length]
    simp only [CgOff.ndir]
    omega

theorem recountedHeader_slice {o n : ℕ} (ho : 724 ≤ o) :
    (recountedHeader b header t).slice o n = b.slice o n := by
  obtain ⟨hs, h₁, h₂⟩ := @recountedHeader_inside b header t hb hl
  rw [recountedHeader, Bytes.slice_overlay_disjoint h₂, Bytes.slice_overlay_disjoint h₁]
  · right
    rw [hs]
    simp only [CgOff.iused]
    omega
  · right
    rw [csumBytes_length]
    simp only [CgOff.ndir]
    omega

/-- The counts read back. -/
theorem recountedHeader_counts : (CgView.decode (recountedHeader b header t)).counts = t.stored := by
  obtain ⟨-, -, h₂⟩ := @recountedHeader_inside b header t hb hl
  rw [csumBytes_length] at h₂
  exact csum_read h₂

theorem decode_recounted {sb : Superblock} (hn : header.u32 CgOff.ndblk = (CgView.decode b).ndblk)
    (hr : header.u32 CgOff.irotor = clampRotor sb (CgView.decode b)) :
    CgView.decode (recountedHeader b header t) = (CgView.decode b).recounted sb t := by
  have hbit : ∀ base i, 724 ≤ base →
      bitAt (recountedHeader b header t) base i = bitAt b base i := by
    intro base i hbase
    rw [bitAt, bitAt, recountedHeader_byte hb hl (hbase.trans (Nat.le_add_right _ _))]
  apply CgView.ext
  · simp only [CgView.decode, CgView.recounted, Bytes.u32]
    rw [recountedHeader_slice hb hl (by norm_num)]
  · exact (recountedHeader_u32 hb hl (by norm_num) (by norm_num)).trans hn
  · exact (recountedHeader_u32 hb hl (by norm_num) (by norm_num)).trans hr
  · exact recountedHeader_counts hb hl
  · funext i
    simp only [CgView.decode, CgView.recounted]
    rw [hbit _ _ le_rfl]
  · funext i
    simp only [CgView.decode, CgView.recounted]
    exact hbit _ _ (by norm_num)

end Recounted

end Header

/-! ## The summary area -/
section Summary
variable {ufs : Ufs} {image : Bytes} {D : Disk} {E : Fault → Bytes → Prop}

/-- The summary area is in no region of the view. -/
theorem view_summary (h : ufs.Fits image) {o : ℕ} {src : Bytes}
    (ho : o + src.length ≤ ufs.sb.cssize) :
    view ufs (image.overlay (ufs.startOffset + ufs.sb.csaddr * 512 + o) src) = view ufs image := by
  have g := h.geom
  have hlow := g.csaddr_ge
  have hsum := g.summary
  have hcb : ufs.sb.cblkno * 512 ≤ ufs.sb.dsize * 512 := by
    have := g.cgOff_inside g.ncg_pos
    unfold Superblock.cgOff at this
    rw [Nat.zero_mul, Nat.zero_add] at this
    exact (Nat.le_add_right _ _).trans this
  have hl : ufs.startOffset + ufs.sb.csaddr * 512 + o + src.length ≤ image.length := by
    have := h.inside
    lia
  have hcg : ∀ c, ufs.sb.cblkno * 512 ≤ ufs.sb.cgOff c := fun c => by
    unfold Superblock.cgOff
    exact Nat.mul_le_mul_right _ (Nat.le_add_left _ _)
  have hib := g.iblkno_ge
  have hdb := g.iblkno_le_dblkno
  apply Disk.ext
  · funext c
    simp only [view]
    split_ifs with hc
    · rw [Bytes.slice_overlay_disjoint hl]
      rw [cgBlockOffset_eq g]
      have := hcg c
      omega
    · rfl
  · simp only [view]
    have hk : ∀ k, k + 4 ≤ 8192 →
        (image.overlay (ufs.startOffset + ufs.sb.csaddr * 512 + o) src).u32 (ufs.superOffset + k) =
          image.u32 (ufs.superOffset + k) := by
      intro k hk
      apply Bytes.u32_overlay_of_disjoint hl
      left
      rw [h.super]
      simp only [ufsSbOffset]
      omega
    rw [hk _ (by norm_num), hk _ (by norm_num), hk _ (by norm_num), hk _ (by norm_num)]
  · funext n
    simp only [view]
    split_ifs with hn
    · rw [Bytes.slice_overlay_disjoint hl]
      rw [inodeOffset_eq g]
      have : ufs.sb.iblkno * 512 ≤ ufs.sb.inoOff n := by
        unfold Superblock.inoOff
        exact (Nat.mul_le_mul_right _ (Nat.le_add_left _ _)).trans (Nat.le_add_right _ _)
      omega
    · rfl
  · funext a
    simp only [view]
    split_ifs with ha
    · rw [Bytes.byte_overlay hl, if_neg]
      have hmod := Nat.mod_le (a / 512) ufs.sb.fpg
      have := ha.2.1
      omega
    · rfl

theorem putSummary_hoare {o : ℕ} {src : Bytes} {Q : Unit → Disk → Prop}
    (ho : o + src.length ≤ ufs.sb.cssize) (h : Q () D) :
    (putSlice (ufs.startOffset + ufs.sb.csaddr * 512 + o) src).hoare ufs.Holds D Q E := by
  refine @Act.hoare_update _ _ _ _ _ _ _ _ D ?_ h
  rintro image ⟨hf, rfl⟩
  have g := hf.geom
  have hsum := g.summary
  have hin := g.cgOff_inside g.ncg_pos
  unfold Superblock.cgOff at hin
  rw [Nat.zero_mul, Nat.zero_add] at hin
  have hinside := hf.inside
  have hle : ufs.startOffset + ufs.sb.csaddr * 512 + o + src.length ≤ image.length := by omega
  refine ⟨image.overlay (ufs.startOffset + ufs.sb.csaddr * 512 + o) src, ?_, hf.overlay hle,
    view_summary hf ho⟩
  simp [Outcome.guard_true hle]

theorem csumOffset_eq (g : ufs.sb.Geometry) {c : ℕ} (hc : c < ufs.sb.ncg) :
    csumOffset ufs c = some (ufs.startOffset + ufs.sb.csaddr * 512 + c * ufsCsumSize) := by
  have h1 := g.csaddr_ge
  have h2 := g.cssize_ge
  have h3 : (c + 1) * ufsCsumSize ≤ ufs.sb.ncg * ufsCsumSize := Nat.mul_le_mul_right _ hc
  unfold csumOffset
  rw [if_neg (by omega), g.fsbtobytes_eq]

/-- The totals of the superblock. -/
theorem putTotals_hoare {t : Csum} {Q : Unit → Disk → Prop} (h : Q () (D.setTotal t.stored)) :
    (putSlice (ufs.superOffset + FsOff.cstotalNdir) (csumBytes t)).hoare ufs.Holds D Q E := by
  refine @Act.hoare_update _ _ _ _ _ _ _ _ (D.setTotal t.stored) ?_ h
  rintro image ⟨hf, rfl⟩
  have g := hf.geom
  have hsuper := hf.super
  simp only [ufsSbOffset] at hsuper
  have hinside := hf.inside
  have := g.cgOff_ge 0
  have := g.cgOff_inside g.ncg_pos
  have hle : ufs.superOffset + FsOff.cstotalNdir + (csumBytes t).length ≤ image.length := by
    rw [csumBytes_length]
    simp only [FsOff.cstotalNdir]
    omega
  refine ⟨image.overlay (ufs.superOffset + FsOff.cstotalNdir) (csumBytes t), ?_, hf.overlay hle, ?_⟩
  · rw [Outcome.guard_true hle]
    rfl
  · rw [view_super hf (by rw [csumBytes_length]; norm_num)]
    congr 1
    have hr := @csum_read image (ufs.superOffset + FsOff.cstotalNdir) t
      (by rwa [csumBytes_length] at hle)
    exact hr

end Summary

/-! ## The recount -/
section Recount
variable {ufs : Ufs} {D : Disk} {E : Fault → Bytes → Prop}

/-- The view with the counts of the groups below `k` recounted. -/
def Disk.recountedBelow (sb : Superblock) (D : Disk) (k : ℕ) : Disk :=
  { D with cg := fun c => if c < k then (D.cg c).recounted sb (D.derived sb c) else D.cg c }

theorem Disk.recountedBelow_zero (sb : Superblock) (D : Disk) : D.recountedBelow sb 0 = D := by
  simp [Disk.recountedBelow]

theorem Disk.recountedBelow_succ (sb : Superblock) (D : Disk) (k : ℕ) :
    (D.recountedBelow sb k).setCg k ((D.cg k).recounted sb (D.derived sb k)) =
      D.recountedBelow sb (k + 1) := by
  apply Disk.ext
  · funext c
    simp only [Disk.recountedBelow, Disk.setCg, Function.update_apply]
    by_cases hc : c = k
    · subst hc
      rw [if_pos rfl, if_pos (Nat.lt_succ_self c)]
    · rw [if_neg hc]
      by_cases hlt : c < k
      · rw [if_pos hlt, if_pos (by omega)]
      · rw [if_neg hlt, if_neg (by omega)]
  · rfl
  · rfl
  · rfl

theorem recomputeGroup_hoare (g : ufs.sb.Geometry) {c : ℕ} (hc : c < ufs.sb.ncg)
    (hm : (D.cg c).magic = ufsCgMagic) (hn : (D.cg c).ndblk = ufs.sb.groupFrags c) :
    (recomputeGroup ufs c).hoare ufs.Holds D
      (fun counts D' => counts = D.derived ufs.sb c ∧
        D' = D.setCg c ((D.cg c).recounted ufs.sb (D.derived ufs.sb c))) E := by
  refine (readCgBlock_hoare hc).bind ?_
  rintro b D' ⟨rfl, hl, hd⟩
  have hmagic : b.u32 CgOff.magic = ufsCgMagic := by
    rw [← hm, ← hd]
    rfl
  have hfree : CgOff.free ≤ b.length := hl ▸ g.free_le_bsize
  rw [if_neg (by simp [hmagic])]
  refine Act.hoare.bind (P := fun b' D₁ => b' = b ∧ D₁ = D') (Act.hoare_pure ⟨rfl, rfl⟩) ?_
  rintro b' D₁ ⟨rfl, rfl⟩
  refine (Act.hoare_read (Q := fun r D₂ => D₂ = D₁ ∧ r.2 = D₁.derived ufs.sb c ∧
    r.1.length = ufs.sb.bsize ∧ r.1.u32 CgOff.ndblk = (D₁.cg c).ndblk ∧
    r.1.u32 CgOff.irotor = clampRotor ufs.sb (D₁.cg c)) fun image hi => ?_).bind ?_
  · obtain ⟨header, he, h1, h2, h3⟩ := expectedCgHeader_eq hi hc hl hd hn
    exact ⟨_, he, rfl, rfl, h1, h2, h3⟩
  rintro ⟨header, counts⟩ D₂ ⟨rfl, hcounts, h1, h2, h3⟩
  simp only at hcounts h1 h2 h3
  subst hcounts
  have hlen := recountedHeader_length (t := D₂.derived ufs.sb c) hfree (h1.trans hl.symm)
  have hdec := @decode_recounted b' header (D₂.derived ufs.sb c) hfree (h1.trans hl.symm) ufs.sb
    (by rw [h2, hd]) (by rw [h3, hd])
  refine (writeCgBlock_hoare hc (hlen.trans hl) rfl).seq ?_
  rw [hdec, hd, csumOffset_eq g hc]
  dsimp only
  refine (putSummary_hoare ?_ rfl).seq (Act.hoare_pure ⟨rfl, rfl⟩)
  have h4 := g.cssize_ge
  have h5 : (c + 1) * ufsCsumSize ≤ ufs.sb.ncg * ufsCsumSize := Nat.mul_le_mul_right _ hc
  rw [csumBytes_length]
  simp only [ufsCsumSize] at h4 h5 ⊢
  omega

/-- The sums of the derived counts. -/
def Disk.derivedTotal (sb : Superblock) (D : Disk) : Csum where
  ndir := ∑ c ∈ Finset.range sb.ncg, (D.derived sb c).ndir
  nbfree := ∑ c ∈ Finset.range sb.ncg, (D.derived sb c).nbfree
  nifree := ∑ c ∈ Finset.range sb.ncg, (D.derived sb c).nifree
  nffree := ∑ c ∈ Finset.range sb.ncg, (D.derived sb c).nffree

/-- The view after all summaries were recomputed. -/
def Disk.recounted (sb : Superblock) (D : Disk) : Disk :=
  (D.recountedBelow sb sb.ncg).setTotal (D.derivedTotal sb).stored

theorem sum_map_range (f : ℕ → ℕ) (n : ℕ) :
    ((List.range n).map f).sum = ∑ c ∈ Finset.range n, f c := by
  induction n with
  | zero => rfl
  | succ n ih =>
    rw [List.range_succ, List.map_append, List.sum_append, ih, Finset.sum_range_succ]
    simp

/-- Recomputing the summaries stores the derived counts and changes nothing else. -/
theorem recomputeSummaryCounts_hoare (g : ufs.sb.Geometry)
    (hm : ∀ c < ufs.sb.ncg, (D.cg c).magic = ufsCgMagic)
    (hn : ∀ c < ufs.sb.ncg, (D.cg c).ndblk = ufs.sb.groupFrags c) :
    (recomputeSummaryCounts ufs).hoare ufs.Holds D (fun _ D' => D' = D.recounted ufs.sb) E := by
  have hloop : (Act.collect (recomputeGroup ufs) (List.range ufs.sb.ncg)).hoare ufs.Holds D
      (fun counts D' => counts = (List.range ufs.sb.ncg).map (D.derived ufs.sb) ∧
        D' = D.recountedBelow ufs.sb ufs.sb.ncg) E := by
    refine (Act.hoare_collect (fun counts rest d => ∃ k ≤ ufs.sb.ncg,
      rest = List.range' k (ufs.sb.ncg - k) ∧ counts = (List.range k).map (D.derived ufs.sb) ∧
        d = D.recountedBelow ufs.sb k) ?_ ?_).post ?_
    · rintro counts c rest d ⟨k, hk, hrest, rfl, rfl⟩
      have hlt : k < ufs.sb.ncg := by
        by_contra hge
        rw [Nat.sub_eq_zero_of_le (not_lt.mp hge)] at hrest
        exact absurd hrest (List.cons_ne_nil _ _)
      obtain ⟨m, hm'⟩ : ∃ m, ufs.sb.ncg - k = m + 1 := ⟨ufs.sb.ncg - k - 1, by omega⟩
      rw [hm', List.range'_succ] at hrest
      obtain ⟨rfl, rfl⟩ := List.cons.inj hrest
      have hcg : (D.recountedBelow ufs.sb c).cg c = D.cg c := if_neg (lt_irrefl c)
      have hder : (D.recountedBelow ufs.sb c).derived ufs.sb c = D.derived ufs.sb c := by
        unfold Disk.derived
        rw [hcg]
        rfl
      refine (recomputeGroup_hoare g hlt (by rw [hcg]; exact hm c hlt)
        (by rw [hcg]; exact hn c hlt)).post ?_
      rintro counts d ⟨rfl, rfl⟩
      refine ⟨c + 1, hlt, ?_, ?_, ?_⟩
      · congr 1
        omega
      · rw [hder, List.range_succ, List.map_append]
        rfl
      · rw [hcg, hder, Disk.recountedBelow_succ]
    · exact ⟨0, Nat.zero_le _, by rw [List.range_eq_range', Nat.sub_zero], rfl,
        (Disk.recountedBelow_zero _ _).symm⟩
    · rintro counts d ⟨k, hk, hrest, rfl, rfl⟩
      have hke : k = ufs.sb.ncg := by
        have := congrArg List.length hrest
        rw [List.length_range', List.length_nil] at this
        omega
      subst hke
      exact ⟨rfl, rfl⟩
  refine hloop.bind ?_
  rintro counts d ⟨rfl, rfl⟩
  refine putTotals_hoare ?_
  simp only [List.map_map, sum_map_range, Function.comp_apply]
  rfl

end Recount
end UfsFuse
