import UfsFuse.Access
import Mathlib.Data.Finset.Card
import Mathlib.Algebra.BigOperators.Group.Finset.Basic

/-!
# The ledger of allocated runs

`Space sb D runs`: the bitmaps of `D` mark exactly the runs of `runs` as allocated, no two of them
overlap, and the free-block counts are right. Allocation adds a run to the ledger and freeing
takes one away; nothing else in the slice changes.
-/
namespace UfsFuse

/-- A run of fragments: its first fragment and their number. -/
abbrev Run : Type := ℕ × ℕ

namespace Run

def Mem (r : Run) (f : ℕ) : Prop := r.1 ≤ f ∧ f < r.1 + r.2

instance (r : Run) (f : ℕ) : Decidable (r.Mem f) := inferInstanceAs (Decidable (_ ∧ _))

def Apart (r r' : Run) : Prop := ∀ f, r.Mem f → ¬r'.Mem f

theorem Apart.symm {r r' : Run} (h : r.Apart r') : r'.Apart r := fun f hf hf' => h f hf' hf

end Run

/-- The fragments of `runs`. -/
def Covered (runs : List Run) (f : ℕ) : Prop := ∃ r ∈ runs, Run.Mem r f

instance (runs : List Run) (f : ℕ) : Decidable (Covered runs f) :=
  inferInstanceAs (Decidable (∃ r ∈ runs, _))

theorem covered_append {xs ys : List Run} {f : ℕ} :
    Covered (xs ++ ys) f ↔ Covered xs f ∨ Covered ys f := by
  simp only [Covered, List.mem_append, or_and_right, exists_or]

theorem covered_cons {r : Run} {xs : List Run} {f : ℕ} :
    Covered (r :: xs) f ↔ r.Mem f ∨ Covered xs f := by
  simp only [Covered, List.mem_cons, or_and_right, exists_or, exists_eq_left]

@[simp] theorem not_covered_nil {f : ℕ} : ¬Covered [] f := by simp [Covered]

theorem covered_perm {xs ys : List Run} (h : xs.Perm ys) {f : ℕ} : Covered xs f ↔ Covered ys f := by
  simp only [Covered, h.mem_iff]

/-! ## Group-local and slice-wide fragment numbers -/

theorem Superblock.frag_mod {sb : Superblock} {c i : ℕ} (hi : i < sb.fpg) :
    (c * sb.fpg + i) % sb.fpg = i := by
  rw [Nat.add_comm, Nat.add_mul_mod_self_right, Nat.mod_eq_of_lt hi]

namespace Superblock.Geometry
variable {sb : Superblock} (g : sb.Geometry)
include g

theorem frag_div {c i : ℕ} (hi : i < sb.fpg) : (c * sb.fpg + i) / sb.fpg = c := by
  rw [Nat.add_comm, Nat.add_mul_div_right _ _ g.fpg_pos, Nat.div_eq_of_lt hi, Nat.zero_add]

theorem free_byte {i : ℕ} (hi : i < sb.fpg) : CgOff.free + i / 8 < sb.bsize := by
  have hb := g.bitmap
  have hbs := g.bsize_eq
  have hf := g.frag_pos
  simp only [CgOff.free] at hb ⊢
  omega

/-- The bits of the aligned block around a fragment lie in the header block. -/
theorem window_byte {i j : ℕ} (hi : i < sb.fpg) (hj : j < i - i % sb.frag + sb.frag) :
    CgOff.free + j / 8 < sb.bsize := by
  have hb := g.bitmap
  have hbs := g.bsize_eq
  simp only [CgOff.free] at hb ⊢
  rcases g.frag_cases with hf | hf
  · rw [hf] at hj hbs
    omega
  · rw [hf] at hj hbs
    omega

theorem used_byte {i : ℕ} (hi : i < sb.ipg) : CgOff.iused + i / 8 < sb.bsize := by
  have hbs := g.bsize_eq
  have hf := g.frag_pos
  have := g.ipg_le
  simp only [CgOff.iused]
  omega

theorem free_le_bsize : CgOff.free ≤ sb.bsize := by
  have hbs := g.bsize_eq
  have hf := g.frag_pos
  simp only [CgOff.free]
  omega

end Superblock.Geometry

namespace Disk

/-- The free bit of a fragment. -/
def isFree (sb : Superblock) (D : Disk) (f : ℕ) : Bool := (D.cg (f / sb.fpg)).free (f % sb.fpg)

end Disk

namespace CgView

/-- The aligned blocks of a group whose fragments are all free. -/
def wholeBlocks (sb : Superblock) (v : CgView) : Finset ℕ :=
  (Finset.range sb.fpg).filter fun k => ∀ o < sb.frag, v.free (k * sb.frag + o) = true

/-- Everything in a header that block allocation leaves alone. -/
def core (v : CgView) : CgView :=
  { v with free := fun _ => false, counts := { v.counts with nbfree := 0 } }

/-- Set the free bits of `[i, i + count)`. -/
def mark (v : CgView) (i count : ℕ) (free : Bool) : CgView :=
  { v with free := fun f => if i ≤ f ∧ f < i + count then free else v.free f }

def withBlocks (v : CgView) (n : ℕ) : CgView := { v with counts := { v.counts with nbfree := n } }

@[simp] theorem core_mark (v : CgView) (i count : ℕ) (b : Bool) : (v.mark i count b).core = v.core := rfl
@[simp] theorem core_withBlocks (v : CgView) (n : ℕ) : (v.withBlocks n).core = v.core := rfl
@[simp] theorem free_withBlocks (v : CgView) (n : ℕ) : (v.withBlocks n).free = v.free := rfl
@[simp] theorem wholeBlocks_withBlocks (sb : Superblock) (v : CgView) (n : ℕ) :
    (v.withBlocks n).wholeBlocks sb = v.wholeBlocks sb := rfl

end CgView

def Csum.core (t : Csum) : Csum := { t with nbfree := 0 }

/-- The ledger. -/
structure Space (sb : Superblock) (D : Disk) (runs : List Run) : Prop where
  magic : ∀ c < sb.ncg, (D.cg c).magic = ufsCgMagic
  ndblk : ∀ c < sb.ncg, (D.cg c).ndblk = sb.groupFrags c
  isRun : ∀ r ∈ runs, sb.IsRun r.1 r.2
  apart : runs.Pairwise Run.Apart
  free_data : ∀ c < sb.ncg, ∀ i, (D.cg c).free i = true → sb.dblkno ≤ i ∧ i < sb.groupFrags c
  owned : ∀ f, sb.IsData f → (D.isFree sb f = false ↔ Covered runs f)
  nbfree : ∀ c < sb.ncg, (D.cg c).counts.nbfree = ((D.cg c).wholeBlocks sb).card
  total : D.total.nbfree = ∑ c ∈ Finset.range sb.ncg, ((D.cg c).wholeBlocks sb).card

/-- Only the free map, the free-block counts and data bytes under `touched` may differ. -/
structure SpaceOnly (D D' : Disk) (touched : List Run) : Prop where
  core : ∀ c, (D'.cg c).core = (D.cg c).core
  total : D'.total.core = D.total.core
  ino : D'.ino = D.ino
  data : ∀ a, ¬Covered touched (a / 512) → D'.data a = D.data a

namespace SpaceOnly

theorem refl (D : Disk) (touched : List Run) : SpaceOnly D D touched :=
  ⟨fun _ => rfl, rfl, rfl, fun _ _ => rfl⟩

theorem trans {D D' D'' : Disk} {xs ys : List Run} (h : SpaceOnly D D' xs)
    (h' : SpaceOnly D' D'' ys) : SpaceOnly D D'' (xs ++ ys) where
  core c := (h'.core c).trans (h.core c)
  total := h'.total.trans h.total
  ino := h'.ino.trans h.ino
  data a ha := by
    rw [covered_append, not_or] at ha
    exact (h'.data a ha.2).trans (h.data a ha.1)

theorem mono {D D' : Disk} {xs ys : List Run} (h : SpaceOnly D D' xs)
    (hs : ∀ f, Covered xs f → Covered ys f) : SpaceOnly D D' ys :=
  { h with data := fun a ha => h.data a fun hc => ha (hs _ hc) }

end SpaceOnly

namespace Space
variable {sb : Superblock} {D : Disk} {runs : List Run}

theorem perm {runs' : List Run} (h : Space sb D runs) (hp : runs.Perm runs') : Space sb D runs' :=
  { h with
    isRun := fun r hr => h.isRun r (hp.mem_iff.mpr hr)
    apart := (hp.pairwise_iff fun h' => Run.Apart.symm h').mp h.apart
    owned := fun f hf => (h.owned f hf).trans (covered_perm hp) }

end Space

/-! ## Runs and groups -/
namespace Superblock
variable {sb : Superblock}

theorem IsRun.isData (g : sb.Geometry) {f count f' : ℕ} (h : sb.IsRun f count)
    (hf : Run.Mem (f, count) f') :
    sb.IsData f' ∧ f' / sb.fpg = f / sb.fpg ∧ f' % sb.fpg = f % sb.fpg + (f' - f) := by
  obtain ⟨hc, hlo, hpos, hhi, -⟩ := h
  obtain ⟨h1, h2⟩ := hf
  simp only at h1 h2
  have hg := groupFrags_le sb (f / sb.fpg)
  have hdm := Nat.div_add_mod' f sb.fpg
  have hlt : f % sb.fpg + (f' - f) < sb.fpg := by omega
  have hf' : f' = f / sb.fpg * sb.fpg + (f % sb.fpg + (f' - f)) := by omega
  have hdiv : f' / sb.fpg = f / sb.fpg := by
    rw [hf']
    exact g.frag_div hlt
  have hmod : f' % sb.fpg = f % sb.fpg + (f' - f) := by
    conv_lhs => rw [hf']
    exact frag_mod hlt
  refine ⟨⟨?_, ?_, ?_⟩, hdiv, hmod⟩
  · omega
  · omega
  · rw [hdiv, hmod]
    omega

/-- The bytes of a run are data. -/
theorem IsRun.inData (g : sb.Geometry) {f count len : ℕ} (h : sb.IsRun f count)
    (hl : len ≤ count * 512) : sb.InData (f * 512) len := by
  intro a h1 h2
  refine (h.isData g ⟨?_, ?_⟩).1
  · simp only
    omega
  · simp only
    omega

theorem IsRun.pos {f count : ℕ} (g : sb.Geometry) (h : sb.IsRun f count) : 0 < f := by
  have := g.cblkno_ge
  have := g.iblkno_ge
  have := g.iblkno_le_dblkno
  have := h.2.1
  have := Nat.mod_le f sb.fpg
  omega

theorem IsRun.shorten {f count count' : ℕ} (h : sb.IsRun f count) (hp : 0 < count')
    (hl : count' ≤ count) : sb.IsRun f count' := by
  obtain ⟨h1, h2, h3, h4, h5⟩ := h
  exact ⟨h1, h2, hp, by omega, by omega⟩

end Superblock

/-! ## Counting free blocks -/
section Count
variable {sb : Superblock}

/-- Marking a range inside block `k₀` does not change the other blocks. -/
theorem CgView.mem_wholeBlocks_mark {v : CgView} {i count k : ℕ} {b : Bool}
    (hin : i % sb.frag + count ≤ sb.frag) (hk : k ≠ i / sb.frag) :
    k ∈ (v.mark i count b).wholeBlocks sb ↔ k ∈ v.wholeBlocks sb := by
  simp only [wholeBlocks, Finset.mem_filter]
  refine and_congr_right fun _ => forall₂_congr fun o ho => ?_
  have hdm := Nat.div_add_mod' i sb.frag
  have hout : ¬(i ≤ k * sb.frag + o ∧ k * sb.frag + o < i + count) := by
    rintro ⟨h1, h2⟩
    rcases Nat.lt_or_gt_of_ne hk with hlt | hlt
    · have := Nat.mul_le_mul_right sb.frag (Nat.succ_le_of_lt hlt)
      rw [Nat.succ_mul] at this
      omega
    · have := Nat.mul_le_mul_right sb.frag (Nat.succ_le_of_lt hlt)
      rw [Nat.succ_mul] at this
      omega
  simp only [mark, if_neg hout]

theorem sum_groupFrags_le (sb : Superblock) (n : ℕ) :
    ∑ c ∈ Finset.range n, sb.groupFrags c ≤ min (n * sb.fpg) sb.dsize := by
  induction n with
  | zero => simp
  | succ n ih =>
    rw [Finset.sum_range_succ, Nat.succ_mul]
    unfold Superblock.groupFrags at ih ⊢
    omega

theorem Space.wholeBlocks_card_mul_le {D : Disk} {runs : List Run} (h : Space sb D runs)
    (hfrag : 0 < sb.frag) {c : ℕ} (hc : c < sb.ncg) :
    ((D.cg c).wholeBlocks sb).card * sb.frag ≤ sb.groupFrags c := by
  have hsub : (D.cg c).wholeBlocks sb ⊆ Finset.range (sb.groupFrags c / sb.frag) := by
    intro k hk
    simp only [CgView.wholeBlocks, Finset.mem_filter, Finset.mem_range] at hk ⊢
    have hb := (h.free_data c hc _ (hk.2 (sb.frag - 1) (by omega))).2
    rw [← Nat.succ_le_iff, Nat.le_div_iff_mul_le hfrag, Nat.succ_mul]
    omega
  have hcard := Finset.card_le_card hsub
  rw [Finset.card_range] at hcard
  exact (Nat.mul_le_mul_right _ hcard).trans (Nat.div_mul_le_self _ _)

theorem Space.wholeBlocks_card_le {D : Disk} {runs : List Run} (h : Space sb D runs)
    (hfrag : 0 < sb.frag) {c : ℕ} (hc : c < sb.ncg) :
    ((D.cg c).wholeBlocks sb).card ≤ sb.groupFrags c :=
  (Nat.le_mul_of_pos_right _ hfrag).trans (h.wholeBlocks_card_mul_le hfrag hc)

theorem Space.sum_wholeBlocks_mul_le {D : Disk} {runs : List Run} (h : Space sb D runs)
    (hfrag : 0 < sb.frag) :
    (∑ c ∈ Finset.range sb.ncg, ((D.cg c).wholeBlocks sb).card) * sb.frag ≤ sb.dsize := by
  calc (∑ c ∈ Finset.range sb.ncg, ((D.cg c).wholeBlocks sb).card) * sb.frag
      = ∑ c ∈ Finset.range sb.ncg, ((D.cg c).wholeBlocks sb).card * sb.frag := Finset.sum_mul ..
    _ ≤ ∑ c ∈ Finset.range sb.ncg, sb.groupFrags c :=
        Finset.sum_le_sum fun c hc => h.wholeBlocks_card_mul_le hfrag (Finset.mem_range.mp hc)
    _ ≤ sb.dsize := (sum_groupFrags_le sb _).trans (min_le_right _ _)

theorem Space.sum_wholeBlocks_le {D : Disk} {runs : List Run} (h : Space sb D runs)
    (hfrag : 0 < sb.frag) :
    ∑ c ∈ Finset.range sb.ncg, ((D.cg c).wholeBlocks sb).card ≤ sb.dsize :=
  (Nat.le_mul_of_pos_right _ hfrag).trans (h.sum_wholeBlocks_mul_le hfrag)

/-- The runs of a ledger take up no more than the slice. -/
theorem Space.sum_counts_le {D : Disk} {runs : List Run} (g : sb.Geometry) (h : Space sb D runs) :
    (runs.map Prod.snd).sum ≤ sb.dsize := by
  have hmem : ∀ {r : Run} {f : ℕ}, f ∈ List.range' r.1 r.2 ↔ r.Mem f := fun {r f} =>
    List.mem_range'_1
  have hnodup : (runs.flatMap fun r => List.range' r.1 r.2).Nodup := by
    rw [List.nodup_flatMap]
    refine ⟨fun r _ => List.nodup_range', h.apart.imp ?_⟩
    intro r r' hap f hf hf'
    exact hap f (hmem.mp hf) (hmem.mp hf')
  have hsub : (runs.flatMap fun r => List.range' r.1 r.2) ⊆ List.range sb.dsize := by
    intro f hf
    obtain ⟨r, hr, hfr⟩ := List.mem_flatMap.mp hf
    obtain ⟨hc, -, hhi⟩ := ((h.isRun r hr).isData g (hmem.mp hfr)).1
    have hend := g.group_end hc
    have hdm := Nat.div_add_mod' f sb.fpg
    exact List.mem_range.mpr (by omega)
  have hle := (hnodup.subperm hsub).length_le
  rw [List.length_flatMap, List.length_range] at hle
  simpa using hle

end Count

/-! ## Taking and giving back a run -/
namespace Disk

/-- Store a header and the slice's number of free blocks. -/
def account (D : Disk) (c : ℕ) (v : CgView) (total : ℕ) : Disk :=
  (D.setCg c v).setTotal { D.total with nbfree := total }

@[simp] theorem account_cg (D : Disk) (c : ℕ) (v : CgView) (t : ℕ) :
    (D.account c v t).cg = Function.update D.cg c v := rfl
@[simp] theorem account_ino (D : Disk) (c : ℕ) (v : CgView) (t : ℕ) :
    (D.account c v t).ino = D.ino := rfl
@[simp] theorem account_data (D : Disk) (c : ℕ) (v : CgView) (t : ℕ) :
    (D.account c v t).data = D.data := rfl
@[simp] theorem account_nbfree (D : Disk) (c : ℕ) (v : CgView) (t : ℕ) :
    (D.account c v t).total.nbfree = t := rfl

theorem account_spaceOnly (D : Disk) {c : ℕ} {v : CgView} {t : ℕ} (hv : v.core = (D.cg c).core) :
    SpaceOnly D (D.account c v t) [] where
  core c' := by
    rw [account_cg, Function.update_apply]
    split_ifs with h
    · rw [hv, h]
    · rfl
  total := rfl
  ino := rfl
  data _ _ := rfl

theorem write_spaceOnly (D : Disk) {addr : ℕ} {src : Bytes} {xs : List Run}
    (h : ∀ a, addr ≤ a → a < addr + src.length → Covered xs (a / 512)) :
    SpaceOnly D (D.write addr src) xs where
  core _ := rfl
  total := rfl
  ino := rfl
  data a ha := by
    simp only [write]
    rw [if_neg fun hr => ha (h a hr.1 hr.2)]

end Disk

namespace Space
variable {sb : Superblock} {D : Disk} {runs : List Run}

/-- The ledger looks neither at inodes nor at data bytes. -/
theorem congr {D' : Disk} (h : Space sb D runs) (hc : D'.cg = D.cg)
    (ht : D'.total.nbfree = D.total.nbfree) : Space sb D' runs where
  magic := by simpa [hc] using h.magic
  ndblk := by simpa [hc] using h.ndblk
  isRun := h.isRun
  apart := h.apart
  free_data := by simpa [hc] using h.free_data
  owned f hf := by
    have := h.owned f hf
    simpa only [Disk.isFree, hc] using this
  nbfree := by simpa [hc] using h.nbfree
  total := by simpa [hc, ht] using h.total

theorem covered_isData (g : sb.Geometry) (h : Space sb D runs) {f : ℕ} (hf : Covered runs f) :
    sb.IsData f := by
  obtain ⟨r, hr, hm⟩ := hf
  exact ((h.isRun r hr).isData g hm).1

/-- A ledger after the header of one group changed. -/
theorem account {runs' : List Run} {c : ℕ} {v : CgView} (h : Space sb D runs)
    (hcore : v.core = (D.cg c).core) (hcount : v.counts.nbfree = (v.wholeBlocks sb).card)
    (isRun : ∀ r ∈ runs', sb.IsRun r.1 r.2) (apart : runs'.Pairwise Run.Apart)
    (free_data : ∀ i, v.free i = true → sb.dblkno ≤ i ∧ i < sb.groupFrags c)
    (owned : ∀ f, sb.IsData f →
      ((if f / sb.fpg = c then v.free (f % sb.fpg) else D.isFree sb f) = false ↔
        Covered runs' f)) :
    Space sb (D.account c v (∑ c' ∈ Finset.range sb.ncg,
      ((Function.update D.cg c v c').wholeBlocks sb).card)) runs' where
  magic c' hc' := by
    rw [Disk.account_cg, Function.update_apply]
    split_ifs with he
    · have hm : v.core.magic = (D.cg c).core.magic := by rw [hcore]
      exact hm.trans (h.magic c (he ▸ hc'))
    · exact h.magic c' hc'
  ndblk c' hc' := by
    rw [Disk.account_cg, Function.update_apply]
    split_ifs with he
    · have hm : v.core.ndblk = (D.cg c).core.ndblk := by rw [hcore]
      rw [he]
      exact hm.trans (h.ndblk c (he ▸ hc'))
    · exact h.ndblk c' hc'
  isRun := isRun
  apart := apart
  free_data c' hc' i hi := by
    rw [Disk.account_cg, Function.update_apply] at hi
    split_ifs at hi with he
    · rw [he]
      exact free_data i hi
    · exact h.free_data c' hc' i hi
  owned f hf := by
    rw [← owned f hf, Disk.isFree, Disk.account_cg, Function.update_apply]
    split_ifs with he
    · exact Iff.rfl
    · exact Iff.rfl
  nbfree c' hc' := by
    rw [Disk.account_cg, Function.update_apply]
    split_ifs with he
    · exact hcount
    · exact h.nbfree c' hc'
  total := rfl

/-- Moving one group's number of free blocks moves the sum by the same amount. -/
theorem sum_update {c : ℕ} (hc : c < sb.ncg) (F : ℕ → CgView) (v : CgView) :
    ∑ c' ∈ Finset.range sb.ncg, ((Function.update F c v c').wholeBlocks sb).card +
        ((F c).wholeBlocks sb).card =
      ∑ c' ∈ Finset.range sb.ncg, ((F c').wholeBlocks sb).card + (v.wholeBlocks sb).card := by
  have hmem : c ∈ Finset.range sb.ncg := Finset.mem_range.mpr hc
  rw [← Finset.add_sum_erase _ _ hmem, ← Finset.add_sum_erase _ (fun c' => (F c' |>.wholeBlocks sb).card) hmem]
  have hrest : ∑ c' ∈ (Finset.range sb.ncg).erase c,
      ((Function.update F c v c').wholeBlocks sb).card =
      ∑ c' ∈ (Finset.range sb.ncg).erase c, ((F c').wholeBlocks sb).card := by
    apply Finset.sum_congr rfl
    intro c' hc'
    rw [Function.update_of_ne (Finset.ne_of_mem_erase hc')]
  rw [hrest, Function.update_self]
  omega

end Space

/-- A block whose fragments are all free, at index `i` of group `c`. -/
structure FreeBlock (sb : Superblock) (D : Disk) (c i : ℕ) : Prop where
  group : c < sb.ncg
  data : sb.dblkno ≤ i
  aligned : sb.frag ∣ i
  inside : i + sb.frag ≤ sb.groupFrags c
  free : ∀ o < sb.frag, (D.cg c).free (i + o) = true

theorem FreeBlock.isRun {sb : Superblock} {D : Disk} (g : sb.Geometry) {c i count : ℕ} (hb : FreeBlock sb D c i)
    (hpos : 0 < count) (hle : count ≤ sb.frag) : sb.IsRun (c * sb.fpg + i) count := by
  have hg := Superblock.groupFrags_le sb c
  have hin := hb.inside
  have hfrag := g.frag_pos
  have hi : i < sb.fpg := by omega
  have hmod : i % sb.frag = 0 := Nat.mod_eq_zero_of_dvd hb.aligned
  refine ⟨?_, ?_, hpos, ?_, ?_⟩
  · rw [g.frag_div hi]
    exact hb.group
  · rw [Superblock.frag_mod hi]
    exact hb.data
  · rw [Superblock.frag_mod hi, g.frag_div hi]
    omega
  · rw [Superblock.frag_mod hi]
    omega

/-- Fragment `f` is the first of a whole block of its group. -/
def Superblock.AtHead (sb : Superblock) (f : ℕ) : Prop :=
  sb.frag ∣ f % sb.fpg ∧ f % sb.fpg + sb.frag ≤ sb.groupFrags (f / sb.fpg)

/-- Every run starts a block. -/
def Heads (sb : Superblock) (runs : List Run) : Prop := ∀ r ∈ runs, sb.AtHead r.1

theorem Heads.append {sb : Superblock} {xs ys : List Run} (hx : Heads sb xs) (hy : Heads sb ys) :
    Heads sb (xs ++ ys) := by
  intro r hr
  cases List.mem_append.mp hr with
  | inl hr => exact hx r hr
  | inr hr => exact hy r hr

theorem FreeBlock.atHead {sb : Superblock} {D : Disk} (g : sb.Geometry) {c i : ℕ}
    (hb : FreeBlock sb D c i) : sb.AtHead (c * sb.fpg + i) := by
  have hg := Superblock.groupFrags_le sb c
  have hin := hb.inside
  have hfrag := g.frag_pos
  have hi : i < sb.fpg := by omega
  rw [Superblock.AtHead, Superblock.frag_mod hi, g.frag_div hi]
  exact ⟨hb.aligned, hin⟩

/-- A free block is none of the ledger's. -/
theorem FreeBlock.not_covered {sb : Superblock} {D : Disk} {runs : List Run}
    (g : sb.Geometry) (h : Space sb D runs) {c i f : ℕ}
    (hb : FreeBlock sb D c i) (hf : Run.Mem (c * sb.fpg + i, sb.frag) f) : ¬Covered runs f := by
  have hrun := hb.isRun g (show 0 < sb.frag by have := g.frag_pos; omega) le_rfl
  obtain ⟨hd, hdiv, hmod⟩ := hrun.isData g hf
  obtain ⟨h1, h2⟩ := hf
  simp only at h1 h2
  have hi : i < sb.fpg := by
    have := Superblock.groupFrags_le sb c
    have := hb.inside
    have := g.frag_pos
    omega
  rw [g.frag_div hi] at hdiv
  rw [Superblock.frag_mod hi] at hmod
  rw [← h.owned f hd, Disk.isFree, hdiv, hmod, hb.free _ (by omega)]
  simp

namespace Space
variable {sb : Superblock} {D : Disk} {runs : List Run}

/-- Taking the head of a free block. -/
theorem alloc (g : sb.Geometry) (h : Space sb D runs) {c i count : ℕ} (hb : FreeBlock sb D c i)
    (hpos : 0 < count) (hle : count ≤ sb.frag) :
    Space sb (D.account c (((D.cg c).mark i count false).withBlocks
        (bump (D.cg c).counts.nbfree (-1))) (bump D.total.nbfree (-1)))
      ((c * sb.fpg + i, count) :: runs) := by
  have hrun := hb.isRun g hpos hle
  have hg := Superblock.groupFrags_le sb c
  have hin := hb.inside
  have hfrag := g.frag_pos
  have hi : i < sb.fpg := by omega
  have hmod : i % sb.frag = 0 := Nat.mod_eq_zero_of_dvd hb.aligned
  have hk : i / sb.frag * sb.frag = i := Nat.div_mul_cancel hb.aligned
  set w := (D.cg c).mark i count false with hw
  -- exactly the block at `i` stops being whole
  have hmem : i / sb.frag ∈ (D.cg c).wholeBlocks sb := by
    simp only [CgView.wholeBlocks, Finset.mem_filter, Finset.mem_range, hk]
    exact ⟨(Nat.div_le_self _ _).trans_lt hi, hb.free⟩
  have hnot : i / sb.frag ∉ w.wholeBlocks sb := by
    simp only [CgView.wholeBlocks, Finset.mem_filter, hk, hw, CgView.mark]
    rintro ⟨-, hall⟩
    have := hall 0 (by omega)
    rw [if_pos (by omega)] at this
    exact Bool.false_ne_true this
  have hset : w.wholeBlocks sb = ((D.cg c).wholeBlocks sb).erase (i / sb.frag) := by
    ext k
    rw [Finset.mem_erase]
    by_cases hki : k = i / sb.frag
    · simp [hki, hnot]
    · simp only [hki, ne_eq, not_false_eq_true, true_and]
      exact CgView.mem_wholeBlocks_mark (by omega) hki
  have hcard : (w.wholeBlocks sb).card + 1 = ((D.cg c).wholeBlocks sb).card := by
    rw [hset, Finset.card_erase_add_one hmem]
  have hsum := sum_update hb.group D.cg (w.withBlocks (w.wholeBlocks sb).card)
  rw [CgView.wholeBlocks_withBlocks] at hsum
  have hbound := h.sum_wholeBlocks_le (by omega)
  have hdl := g.dsize_lt
  have hgl := h.wholeBlocks_card_le (by omega) hb.group
  have hge := g.group_end hb.group
  have hn : bump (D.cg c).counts.nbfree (-1) = (w.wholeBlocks sb).card := by
    apply bump_eq
    · rw [h.nbfree c hb.group]
      omega
    · omega
  have ht : bump D.total.nbfree (-1) = ∑ c' ∈ Finset.range sb.ncg,
      ((Function.update D.cg c (w.withBlocks (w.wholeBlocks sb).card) c').wholeBlocks sb).card := by
    apply bump_eq
    · rw [h.total]
      omega
    · omega
  rw [hn, ht]
  apply h.account
  · rfl
  · rfl
  · intro r hr
    rcases List.mem_cons.mp hr with rfl | hr
    · exact hrun
    · exact h.isRun r hr
  · refine List.pairwise_cons.mpr ⟨fun r hr f hf hfr => ?_, h.apart⟩
    have hf' : Run.Mem (c * sb.fpg + i, sb.frag) f := ⟨hf.1, hf.2.trans_le (by simp only; omega)⟩
    exact hb.not_covered g h hf' ⟨r, hr, hfr⟩
  · intro j hj
    simp only [CgView.free_withBlocks, hw, CgView.mark] at hj
    split_ifs at hj with hr
    exact h.free_data c hb.group j hj
  · intro f hf
    rw [covered_cons, ← h.owned f hf]
    simp only [CgView.free_withBlocks, hw, CgView.mark, Run.Mem, Disk.isFree]
    have hdm := Nat.div_add_mod' f sb.fpg
    have hml := Nat.mod_lt f g.fpg_pos
    by_cases hfc : f / sb.fpg = c
    · rw [if_pos hfc, ← hfc]
      by_cases hr : i ≤ f % sb.fpg ∧ f % sb.fpg < i + count
      · rw [if_pos hr]
        simp only [true_iff]
        left
        omega
      · rw [if_neg hr]
        constructor
        · exact .inr
        · rintro (⟨h1, h2⟩ | h1)
          · exact absurd ⟨by omega, by omega⟩ hr
          · exact h1
    · rw [if_neg hfc]
      constructor
      · exact .inr
      · rintro (⟨h1, h2⟩ | h1)
        · have := hrun.isData g ⟨h1, h2⟩
          rw [g.frag_div hi] at this
          exact absurd this.2.1 hfc
        · exact h1

section Release
variable {f count : ℕ}

theorem release_isData (g : sb.Geometry) (h : Space sb D ((f, count) :: runs)) {f' : ℕ}
    (hf : Run.Mem (f, count) f') : D.isFree sb f' = false := by
  have hd := ((h.isRun _ (List.mem_cons_self ..)).isData g hf).1
  exact (h.owned f' hd).mpr (covered_cons.mpr (.inl hf))

/-- Giving back a run, up to the count of its group: only the block around it can become whole. -/
theorem release_wholeBlocks (g : sb.Geometry) (h : Space sb D ((f, count) :: runs)) :
    (((D.cg (f / sb.fpg)).mark (f % sb.fpg) count true).wholeBlocks sb).card =
      ((D.cg (f / sb.fpg)).wholeBlocks sb).card +
        if ∀ o < sb.frag, ((D.cg (f / sb.fpg)).mark (f % sb.fpg) count true).free
          (f % sb.fpg - f % sb.fpg % sb.frag + o) = true then 1 else 0 := by
  obtain ⟨hc, hlo, hpos, hhi, hin⟩ := h.isRun _ (List.mem_cons_self ..)
  set c := f / sb.fpg
  set i := f % sb.fpg
  set w := (D.cg c).mark i count true with hw
  have hfrag := g.frag_pos
  have hdm := Nat.div_add_mod' i sb.frag
  have hbase : i - i % sb.frag = i / sb.frag * sb.frag := by omega
  have hi : i < sb.fpg := Nat.mod_lt f g.fpg_pos
  have hnot : i / sb.frag ∉ (D.cg c).wholeBlocks sb := by
    simp only [CgView.wholeBlocks, Finset.mem_filter]
    rintro ⟨-, hall⟩
    have hfree := hall (i % sb.frag) (Nat.mod_lt _ (by omega))
    rw [hdm] at hfree
    have hused := @release_isData _ _ _ _ _ g h f ⟨le_rfl, by simp only at hpos ⊢; omega⟩
    rw [Disk.isFree] at hused
    exact Bool.false_ne_true (hused.symm.trans hfree)
  have hother : ∀ k, k ≠ i / sb.frag → (k ∈ w.wholeBlocks sb ↔ k ∈ (D.cg c).wholeBlocks sb) :=
    fun k hk => CgView.mem_wholeBlocks_mark hin hk
  rw [hbase]
  split_ifs with hwhole
  · have hset : w.wholeBlocks sb = insert (i / sb.frag) ((D.cg c).wholeBlocks sb) := by
      ext k
      rw [Finset.mem_insert]
      by_cases hki : k = i / sb.frag
      · simp only [hki, true_or, iff_true, CgView.wholeBlocks, Finset.mem_filter, Finset.mem_range]
        exact ⟨(Nat.div_le_self _ _).trans_lt hi, hwhole⟩
      · rw [hother k hki]
        simp [hki]
    rw [hset, Finset.card_insert_of_notMem hnot]
  · have hset : w.wholeBlocks sb = (D.cg c).wholeBlocks sb := by
      ext k
      by_cases hki : k = i / sb.frag
      · subst hki
        refine iff_of_false (fun hk => hwhole ?_) hnot
        exact (Finset.mem_filter.mp hk).2
      · exact hother k hki
    rw [hset]
    rfl

theorem release_account (g : sb.Geometry) (h : Space sb D ((f, count) :: runs)) {v : CgView}
    (hv : v = ((D.cg (f / sb.fpg)).mark (f % sb.fpg) count true).withBlocks
      ((((D.cg (f / sb.fpg)).mark (f % sb.fpg) count true).wholeBlocks sb).card)) :
    Space sb (D.account (f / sb.fpg) v (∑ c' ∈ Finset.range sb.ncg,
      ((Function.update D.cg (f / sb.fpg) v c').wholeBlocks sb).card)) runs := by
  have hrun := h.isRun _ (List.mem_cons_self ..)
  obtain ⟨hc, hlo, hpos, hhi, hin⟩ := hrun
  have hapart := List.pairwise_cons.mp h.apart
  have hfree : v.free = ((D.cg (f / sb.fpg)).mark (f % sb.fpg) count true).free := by rw [hv]; rfl
  apply h.account
  · rw [hv]
    rfl
  · rw [hv]
    rfl
  · exact fun r hr => h.isRun r (List.mem_cons_of_mem _ hr)
  · exact hapart.2
  · intro j hj
    simp only [hfree, CgView.mark] at hj
    split_ifs at hj with hr
    · simp only at hlo hhi
      omega
    · exact h.free_data _ hc j hj
  · intro f' hf'
    have hdm := Nat.div_add_mod' f' sb.fpg
    have hdm' := Nat.div_add_mod' f sb.fpg
    have howned := h.owned f' hf'
    rw [covered_cons] at howned
    simp only [hfree, CgView.mark]
    by_cases hmem : Run.Mem (f, count) f'
    · -- inside the run: free now, and covered by no other run
      obtain ⟨-, (hdiv : f' / sb.fpg = f / sb.fpg),
        (hmod : f' % sb.fpg = f % sb.fpg + (f' - f))⟩ :=
        (h.isRun _ (List.mem_cons_self ..)).isData g hmem
      obtain ⟨h1, h2⟩ := hmem
      simp only at h1 h2
      rw [if_pos hdiv, if_pos (by omega)]
      refine iff_of_false (by simp) ?_
      rintro ⟨r, hr, hm⟩
      exact hapart.1 r hr f' ⟨h1, h2⟩ hm
    · have hsame : (if f' / sb.fpg = f / sb.fpg then
          (if f % sb.fpg ≤ f' % sb.fpg ∧ f' % sb.fpg < f % sb.fpg + count then true
            else (D.cg (f / sb.fpg)).free (f' % sb.fpg)) else D.isFree sb f') =
          D.isFree sb f' := by
        split_ifs with hdiv hr
        · rw [hdiv] at hdm
          exact absurd ⟨by simp only; omega, by simp only; omega⟩ hmem
        · rw [Disk.isFree, hdiv]
        · rfl
      rw [hsame, howned]
      simp [hmem]

/-- Giving back a run whose block becomes whole. -/
theorem release_whole (g : sb.Geometry) (h : Space sb D ((f, count) :: runs))
    (hwhole : ∀ o < sb.frag, ((D.cg (f / sb.fpg)).mark (f % sb.fpg) count true).free
      (f % sb.fpg - f % sb.fpg % sb.frag + o) = true) :
    Space sb (D.account (f / sb.fpg) (((D.cg (f / sb.fpg)).mark (f % sb.fpg) count true).withBlocks
      (bump (D.cg (f / sb.fpg)).counts.nbfree 1)) (bump D.total.nbfree 1)) runs := by
  have hc : f / sb.fpg < sb.ncg := (h.isRun _ (List.mem_cons_self ..)).1
  have hcard := h.release_wholeBlocks g
  rw [if_pos hwhole] at hcard
  have hspace := h.release_account g rfl
  have hfrag := g.frag_pos
  have hdl := g.dsize_lt
  have hbound := hspace.sum_wholeBlocks_le (by omega)
  have hone := hspace.wholeBlocks_card_le (by omega) hc
  have hge := g.group_end hc
  simp only [Disk.account_cg, Function.update_self, CgView.wholeBlocks_withBlocks] at hone hbound
  have hsum := sum_update hc D.cg (((D.cg (f / sb.fpg)).mark (f % sb.fpg) count true).withBlocks
    (((D.cg (f / sb.fpg)).mark (f % sb.fpg) count true).wholeBlocks sb).card)
  rw [CgView.wholeBlocks_withBlocks] at hsum
  have hn : bump (D.cg (f / sb.fpg)).counts.nbfree 1 =
      (((D.cg (f / sb.fpg)).mark (f % sb.fpg) count true).wholeBlocks sb).card := by
    apply bump_eq
    · rw [h.nbfree _ hc]
      omega
    · omega
  rw [hn]
  convert hspace using 2
  apply bump_eq
  · rw [h.total]
    omega
  · omega

/-- Giving back a run whose block stays in use. -/
theorem release_part (g : sb.Geometry) (h : Space sb D ((f, count) :: runs))
    (hpart : ¬∀ o < sb.frag, ((D.cg (f / sb.fpg)).mark (f % sb.fpg) count true).free
      (f % sb.fpg - f % sb.fpg % sb.frag + o) = true) :
    Space sb (D.setCg (f / sb.fpg) ((D.cg (f / sb.fpg)).mark (f % sb.fpg) count true)) runs := by
  have hc : f / sb.fpg < sb.ncg := (h.isRun _ (List.mem_cons_self ..)).1
  have hcard := h.release_wholeBlocks g
  rw [if_neg hpart, Nat.add_zero] at hcard
  have hspace := h.release_account g rfl
  have hsum := sum_update hc D.cg (((D.cg (f / sb.fpg)).mark (f % sb.fpg) count true).withBlocks
    (((D.cg (f / sb.fpg)).mark (f % sb.fpg) count true).wholeBlocks sb).card)
  rw [CgView.wholeBlocks_withBlocks, hcard, ← h.total] at hsum
  have hsame : ((D.cg (f / sb.fpg)).mark (f % sb.fpg) count true).withBlocks
      (((D.cg (f / sb.fpg)).mark (f % sb.fpg) count true).wholeBlocks sb).card =
      (D.cg (f / sb.fpg)).mark (f % sb.fpg) count true := by
    rw [hcard, ← h.nbfree _ hc]
    rfl
  rw [hcard] at hspace
  have htot : ∑ c' ∈ Finset.range sb.ncg, ((Function.update D.cg (f / sb.fpg)
      (((D.cg (f / sb.fpg)).mark (f % sb.fpg) count true).withBlocks
        ((D.cg (f / sb.fpg)).wholeBlocks sb).card) c').wholeBlocks sb).card = D.total.nbfree := by
    omega
  rw [htot] at hspace
  rw [hcard] at hsame
  rw [hsame] at hspace
  exact hspace.congr rfl rfl

end Release

end Space

/-! ## Blocks that a ledger leaves free -/
section Spare
variable {sb : Superblock} {D : Disk} {runs : List Run}

/-- The whole blocks of group `c` that no run touches. -/
def spareBlocks (sb : Superblock) (runs : List Run) (c : ℕ) : Finset ℕ :=
  (Finset.range sb.fpg).filter fun k => sb.dblkno ≤ k * sb.frag ∧
    k * sb.frag + sb.frag ≤ sb.groupFrags c ∧
    ∀ o < sb.frag, ¬Covered runs (c * sb.fpg + (k * sb.frag + o))

/-- The whole blocks that no run touches. -/
def spare (sb : Superblock) (runs : List Run) : ℕ :=
  ∑ c ∈ Finset.range sb.ncg, (spareBlocks sb runs c).card

theorem spare_anti {xs ys : List Run} (h : ∀ f, Covered ys f → Covered xs f) :
    spare sb xs ≤ spare sb ys := by
  refine Finset.sum_le_sum fun c _ => Finset.card_le_card fun k hk => ?_
  simp only [spareBlocks, Finset.mem_filter] at hk ⊢
  obtain ⟨h1, h2, h3, h4⟩ := hk
  exact ⟨h1, h2, h3, fun o ho hc => h4 o ho (h _ hc)⟩

theorem spare_congr {xs ys : List Run} (h : ∀ f, Covered ys f ↔ Covered xs f) :
    spare sb xs = spare sb ys :=
  le_antisymm (spare_anti fun f => (h f).mp) (spare_anti fun f => (h f).mpr)

theorem spare_perm {xs ys : List Run} (h : xs.Perm ys) : spare sb xs = spare sb ys :=
  spare_congr fun _ => (covered_perm h).symm

/-- One run touches one block. -/
theorem spare_cons_le (g : sb.Geometry) {r : Run} (hr : sb.IsRun r.1 r.2) :
    spare sb runs ≤ spare sb (r :: runs) + 1 := by
  obtain ⟨hc, hlo, hpos, hhi, hin⟩ := hr
  have hfrag := g.frag_pos
  have hgroup : ∀ c, c ≠ r.1 / sb.fpg → spareBlocks sb runs c ⊆ spareBlocks sb (r :: runs) c := by
    intro c hne k hk
    simp only [spareBlocks, Finset.mem_filter] at hk ⊢
    obtain ⟨h1, h2, h3, h4⟩ := hk
    refine ⟨h1, h2, h3, fun o ho => ?_⟩
    rw [covered_cons, not_or]
    refine ⟨fun hm => hne ?_, h4 o ho⟩
    have hd := (Superblock.IsRun.isData g ⟨hc, hlo, hpos, hhi, hin⟩ hm).2.1
    have hgl := Superblock.groupFrags_le sb c
    rwa [g.frag_div (by omega)] at hd
  have hown : spareBlocks sb runs (r.1 / sb.fpg) ⊆
      insert (r.1 % sb.fpg / sb.frag) (spareBlocks sb (r :: runs) (r.1 / sb.fpg)) := by
    intro k hk
    rw [Finset.mem_insert]
    by_cases hkr : k = r.1 % sb.fpg / sb.frag
    · exact .inl hkr
    right
    simp only [spareBlocks, Finset.mem_filter] at hk ⊢
    obtain ⟨h1, h2, h3, h4⟩ := hk
    refine ⟨h1, h2, h3, fun o ho => ?_⟩
    rw [covered_cons, not_or]
    refine ⟨fun hm => ?_, h4 o ho⟩
    obtain ⟨h5, h6⟩ := hm
    have hdm := Nat.div_add_mod' r.1 sb.fpg
    have hdk := Nat.div_add_mod' (r.1 % sb.fpg) sb.frag
    rcases Nat.lt_or_gt_of_ne hkr with hlt | hlt
    · have := Nat.mul_le_mul_right sb.frag (Nat.succ_le_of_lt hlt)
      rw [Nat.succ_mul] at this
      omega
    · have := Nat.mul_le_mul_right sb.frag (Nat.succ_le_of_lt hlt)
      rw [Nat.succ_mul] at this
      omega
  have hmem := Finset.mem_range.mpr hc
  rw [spare, spare, ← Finset.add_sum_erase _ _ hmem, ← Finset.add_sum_erase _ _ hmem]
  have hrest : ∑ c ∈ (Finset.range sb.ncg).erase (r.1 / sb.fpg), (spareBlocks sb runs c).card ≤
      ∑ c ∈ (Finset.range sb.ncg).erase (r.1 / sb.fpg), (spareBlocks sb (r :: runs) c).card :=
    Finset.sum_le_sum fun c hc => Finset.card_le_card (hgroup c (Finset.ne_of_mem_erase hc))
  have hone := (Finset.card_le_card hown).trans (Finset.card_insert_le _ _)
  omega

theorem spare_append_le (g : sb.Geometry) {xs : List Run} (h : ∀ r ∈ xs, sb.IsRun r.1 r.2) :
    spare sb runs ≤ spare sb (xs ++ runs) + xs.length := by
  induction xs with
  | nil => exact le_rfl
  | cons r xs ih =>
    have h1 := ih fun q hq => h q (List.mem_cons_of_mem _ hq)
    have h2 := @spare_cons_le _ (xs ++ runs) g r (h r (List.mem_cons_self ..))
    rw [List.cons_append, List.length_cons]
    omega

/-- The free map shows the blocks that the ledger leaves free. -/
theorem Space.wholeBlocks_eq (g : sb.Geometry) (h : Space sb D runs) {c : ℕ} (hc : c < sb.ncg) :
    (D.cg c).wholeBlocks sb = spareBlocks sb runs c := by
  have hfrag := g.frag_pos
  have hgl := Superblock.groupFrags_le sb c
  ext k
  simp only [CgView.wholeBlocks, spareBlocks, Finset.mem_filter]
  refine and_congr_right fun hk => ?_
  have hfree : ∀ i, sb.dblkno ≤ i → i < sb.groupFrags c →
      ((D.cg c).free i = true ↔ ¬Covered runs (c * sb.fpg + i)) := by
    intro i hlo hhi
    have hdiv := g.frag_div (c := c) (hhi.trans_le hgl)
    have hmod := Superblock.frag_mod (c := c) (hhi.trans_le hgl)
    have hown := h.owned (c * sb.fpg + i) ⟨by rwa [hdiv], by rwa [hmod], by rwa [hmod, hdiv]⟩
    rw [← hown, Disk.isFree, hdiv, hmod, Bool.not_eq_false]
  constructor
  · intro hall
    have hfirst := h.free_data c hc _ (hall 0 (by omega))
    have hlast := h.free_data c hc _ (hall (sb.frag - 1) (by omega))
    refine ⟨by omega, by omega, fun o ho => ?_⟩
    exact (hfree _ (by omega) (by omega)).mp (hall o ho)
  · rintro ⟨h1, h2, h3⟩ o ho
    exact (hfree _ (by omega) (by omega)).mpr (h3 o ho)

theorem Space.total_spare (g : sb.Geometry) (h : Space sb D runs) :
    D.total.nbfree = spare sb runs := by
  rw [h.total, spare]
  exact Finset.sum_congr rfl fun c hc => by rw [h.wholeBlocks_eq g (Finset.mem_range.mp hc)]

end Spare
end UfsFuse
