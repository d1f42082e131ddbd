import UfsFuse.WriteBody
import UfsFuse.InodeFields

/-!
# Building pointer trees

`build_pointer_tree` makes a tree that denotes the given data blocks, and takes one free block for
each of its pointer blocks. It fails only when the free blocks run out.
-/
namespace UfsFuse

/-! ## Chunks and counts -/
section Chunks
variable {α : Type} {size : ℕ}

theorem chunksOf_cons (fuel : ℕ) {l : List α} (h : l ≠ []) :
    chunksOf size (fuel + 1) l = l.take size :: chunksOf size fuel (l.drop size) := by
  cases l with
  | nil => exact absurd rfl h
  | cons x xs => rfl

theorem chunksOf_nil (fuel : ℕ) : chunksOf size fuel ([] : List α) = [] := by
  cases fuel with
  | zero => rfl
  | succ fuel => rfl

theorem chunksOf_flatten (hs : 0 < size) : ∀ {fuel : ℕ} {l : List α}, l.length ≤ fuel →
    (chunksOf size fuel l).flatten = l := by
  intro fuel
  induction fuel with
  | zero =>
    intro l hl
    rw [List.eq_nil_of_length_eq_zero (Nat.le_zero.mp hl)]
    rfl
  | succ fuel ih =>
    intro l hl
    by_cases hn : l = []
    · rw [hn, chunksOf_nil, List.flatten_nil]
    · rw [chunksOf_cons fuel hn, List.flatten_cons, ih, List.take_append_drop]
      rw [List.length_drop]
      omega

theorem chunksOf_mem (hs : 0 < size) : ∀ {fuel : ℕ} {l c : List α}, c ∈ chunksOf size fuel l →
    c ≠ [] ∧ c.length ≤ size ∧ ∀ x ∈ c, x ∈ l := by
  intro fuel
  induction fuel with
  | zero => exact fun hc => absurd hc List.not_mem_nil
  | succ fuel ih =>
    intro l c hc
    by_cases hn : l = []
    · rw [hn, chunksOf_nil] at hc
      exact absurd hc List.not_mem_nil
    · rw [chunksOf_cons fuel hn] at hc
      rcases List.mem_cons.mp hc with rfl | hc
      · refine ⟨?_, List.length_take_le _ _, fun x hx => List.mem_of_mem_take hx⟩
        have := List.length_pos_of_ne_nil hn
        apply List.ne_nil_of_length_pos
        rw [List.length_take]
        omega
      · obtain ⟨h1, h2, h3⟩ := ih hc
        exact ⟨h1, h2, fun x hx => List.mem_of_mem_drop (h3 x hx)⟩

theorem chunksOf_length_le : ∀ {fuel count : ℕ} {l : List α},
    l.length ≤ count * size → (chunksOf size fuel l).length ≤ count := by
  intro fuel
  induction fuel with
  | zero => exact fun _ => Nat.zero_le _
  | succ fuel ih =>
    intro count l hl
    by_cases hn : l = []
    · rw [hn, chunksOf_nil]
      exact Nat.zero_le _
    · have hpos := List.length_pos_of_ne_nil hn
      cases count with
      | zero => omega
      | succ count =>
        rw [chunksOf_cons fuel hn, List.length_cons]
        refine Nat.succ_le_succ (ih ?_)
        rw [List.length_drop]
        rw [Nat.succ_mul] at hl
        omega

end Chunks

section Counts
variable {nindir : ℕ}

theorem treeBlocks_zero (levels : ℕ) : treeBlocks nindir levels 0 = 0 := by
  rw [treeBlocks, List.sum_eq_zero]
  intro x hx
  obtain ⟨j, -, rfl⟩ := List.mem_map.mp hx
  cases Nat.eq_zero_or_pos (nindir ^ (j + 1)) with
  | inl hz => rw [hz, Nat.div_zero]
  | inr hpos => exact Nat.div_eq_of_lt (by omega)

theorem Superblock.pointerBlocks_direct (sb : Superblock) {count : ℕ} (h : count ≤ ufsNdaddr) :
    sb.pointerBlocks count = 0 := by
  rw [pointerBlocks, Nat.sub_eq_zero_of_le h]
  simp [rootsBlocks, treeBlocks_zero]

theorem Superblock.pointerBlocks_zero (sb : Superblock) : sb.pointerBlocks 0 = 0 :=
  sb.pointerBlocks_direct (Nat.zero_le _)

theorem treeBlocks_add (hn : 0 < nindir) (levels m : ℕ) :
    treeBlocks nindir levels (nindir ^ levels + m) =
      treeBlocks nindir levels (nindir ^ levels) + treeBlocks nindir levels m := by
  rw [treeBlocks, treeBlocks, treeBlocks, ← List.sum_map_add]
  refine congrArg List.sum (List.map_congr_left fun j hj => ?_)
  have hlt := List.mem_range.mp hj
  have hq : 0 < nindir ^ (j + 1) := Nat.pow_pos hn
  obtain ⟨k, hk⟩ : nindir ^ (j + 1) ∣ nindir ^ levels := Nat.pow_dvd_pow _ hlt
  have h1 : nindir ^ (j + 1) * k + m + nindir ^ (j + 1) - 1 =
      nindir ^ (j + 1) * k + (m + nindir ^ (j + 1) - 1) := by omega
  have h2 : nindir ^ (j + 1) * k + nindir ^ (j + 1) - 1 =
      nindir ^ (j + 1) * k + (nindir ^ (j + 1) - 1) := by omega
  have h3 : (nindir ^ (j + 1) - 1) / nindir ^ (j + 1) = 0 := Nat.div_eq_of_lt (by omega)
  rw [hk, h1, h2, Nat.mul_add_div hq, Nat.mul_add_div hq, h3]
  rfl

theorem treeBlocks_succ {levels count : ℕ} (h0 : 0 < count)
    (hc : count ≤ nindir ^ (levels + 1)) :
    treeBlocks nindir (levels + 1) count = treeBlocks nindir levels count + 1 := by
  rw [treeBlocks, List.range_succ, List.map_append, List.sum_append, treeBlocks]
  simp only [List.map_cons, List.map_nil, List.sum_cons, List.sum_nil, Nat.add_zero]
  rw [Nat.div_eq_of_lt_le]
  · omega
  · omega

/-- The chunks of one level make up the whole level. -/
theorem treeBlocks_chunks {α : Type} (hn : 0 < nindir) (levels : ℕ) :
    ∀ {fuel : ℕ} {l : List α}, l.length ≤ fuel →
    ((chunksOf (nindir ^ levels) fuel l).map fun c => treeBlocks nindir levels c.length).sum =
      treeBlocks nindir levels l.length := by
  have hs : 0 < nindir ^ levels := Nat.pow_pos hn
  intro fuel
  induction fuel with
  | zero =>
    intro l hl
    rw [List.eq_nil_of_length_eq_zero (Nat.le_zero.mp hl)]
    exact (treeBlocks_zero levels).symm
  | succ fuel ih =>
    intro l hl
    by_cases hnil : l = []
    · rw [hnil, chunksOf_nil]
      exact (treeBlocks_zero levels).symm
    · rw [chunksOf_cons fuel hnil, List.map_cons, List.sum_cons, ih (by
        rw [List.length_drop]
        omega), List.length_take, List.length_drop]
      by_cases hle : l.length ≤ nindir ^ levels
      · rw [Nat.min_eq_right hle, Nat.sub_eq_zero_of_le hle, treeBlocks_zero, Nat.add_zero]
      · rw [Nat.min_eq_left (by omega), ← treeBlocks_add hn, Nat.add_sub_cancel' (by omega)]

end Counts

/-! ## Allocations in sequence -/

/-- The runs of whole blocks. -/
def blockRuns (sb : Superblock) (blocks : List ℕ) : List Run := blocks.map (·, sb.frag)

@[simp] theorem blockRuns_append (sb : Superblock) (xs ys : List ℕ) :
    blockRuns sb (xs ++ ys) = blockRuns sb xs ++ blockRuns sb ys := List.map_append ..

@[simp] theorem blockRuns_length (sb : Superblock) (xs : List ℕ) :
    (blockRuns sb xs).length = xs.length := List.length_map ..

theorem mem_blockRuns {sb : Superblock} {xs : List ℕ} {b : ℕ} (h : b ∈ xs) :
    (b, sb.frag) ∈ blockRuns sb xs := List.mem_map.mpr ⟨b, h, rfl⟩

namespace Took
variable {sb : Superblock} {D D' D'' : Disk} {runs new new' : List Run}

theorem perm (h : Took sb D D' runs new) (hp : new.Perm new') : Took sb D D' runs new' where
  space := h.space.perm (hp.append_right runs)
  only := h.only.mono fun _ hf => (covered_perm hp).mp hf
  room := by
    rw [← hp.length_eq]
    exact h.room
  heads r hr := h.heads r (hp.mem_iff.mpr hr)

/-- Data of the old ledger stays. -/
theorem keeps (h : Took sb D D' runs new) {a : ℕ} (ha : Covered runs (a / 512)) :
    D'.data a = D.data a := by
  refine h.only.data a ?_
  rintro ⟨r, hr, hm⟩
  obtain ⟨r', hr', hm'⟩ := ha
  exact (List.pairwise_append.mp h.space.apart).2.2 r hr r' hr' _ hm hm'

/-- Filling what was just taken. -/
theorem fill (h : Took sb D D' runs new) (hd : DataOnly D' D'' new) : Took sb D D'' runs new where
  space := hd.space h.space
  only := (h.only.trans hd.spaceOnly).mono fun f hf => by
    rw [covered_append, or_self] at hf
    exact hf
  room := by
    rw [hd.total]
    exact h.room
  heads := h.heads

theorem isRun (h : Took sb D D' runs new) {r : Run} (hr : r ∈ new) : sb.IsRun r.1 r.2 :=
  h.space.isRun r (List.mem_append_left _ hr)

end Took

/-- A call that ran out of blocks: it took all the free ones, and they were fewer than `need`. -/
def OutOfSpace (ufs : Ufs) (D : Disk) (runs : List Run) (need : ℕ) (_ : Fault) (image : Bytes) :
    Prop :=
  ∃ D' leaked, ufs.Holds image D' ∧ Took ufs.sb D D' runs leaked ∧ D'.total.nbfree = 0 ∧
    leaked.length < need

section OutOfSpace
variable {ufs : Ufs} {D D' : Disk} {runs new : List Run} {need need' : ℕ} {e : Fault} {image : Bytes}

theorem OutOfSpace.of_unchanged (hs : Space ufs.sb D runs)
    (h : Unchanged ufs D (D.total.nbfree = 0) e image) (hn : 0 < need) :
    OutOfSpace ufs D runs need e image := ⟨D, [], h.1, Took.refl hs, h.2, hn⟩

/-- A failure after an allocation that went well. -/
theorem OutOfSpace.after (ht : Took ufs.sb D D' runs new)
    (h : OutOfSpace ufs D' (new ++ runs) need e image) (hn : new.length + need ≤ need') :
    OutOfSpace ufs D runs need' e image := by
  obtain ⟨D'', leaked, hi, hl, hz, hlt⟩ := h
  refine ⟨D'', leaked ++ new, hi, ht.trans hl, hz, ?_⟩
  rw [List.length_append]
  omega

/-- The blocks that were missing. -/
theorem OutOfSpace.nbfree_lt (h : OutOfSpace ufs D runs need e image) : D.total.nbfree < need := by
  obtain ⟨D', leaked, -, ht, hz, hlt⟩ := h
  have := ht.room
  omega

end OutOfSpace

/-! ## One pointer block -/
section Pointer
variable {ufs : Ufs} {E : Fault → Bytes → Prop}

theorem Disk.bytes_write_inside (D : Disk) {addr len : ℕ} {src : Bytes} (h : src.length ≤ len) :
    (D.write addr src).bytes addr len = (D.bytes addr len).overlay 0 src := by
  have hl : 0 + src.length ≤ (D.bytes addr len).length := by
    rw [Disk.bytes_length]
    omega
  apply Bytes.ext_byte
  · rw [Bytes.overlay_length hl, Disk.bytes_length, Disk.bytes_length]
  · intro i hi
    rw [Disk.bytes_length] at hi
    rw [Disk.bytes_byte _ hi, Bytes.byte_overlay hl, Disk.bytes_byte _ hi]
    simp only [Disk.write]
    by_cases hin : i < src.length
    · rw [if_pos (by omega), if_pos (by omega), Nat.add_sub_cancel_left, Nat.sub_zero]
    · rw [if_neg (by omega), if_neg (by omega)]

theorem writePointerBlock_hoare (g : ufs.sb.Geometry) {D : Disk} {root : ℕ} {pointers : List ℕ}
    (hr : ufs.sb.IsRun root ufs.sb.frag) (hl : pointers.length ≤ ufs.sb.nindir)
    (h32 : ∀ p ∈ pointers, p < 2 ^ 32) :
    (writePointerBlock ufs root pointers).hoare ufs.Holds D
      (fun _ D' => DataOnly D D' [(root, ufs.sb.frag)] ∧
        D'.pointers ufs.sb root =
          pointers ++ List.replicate (ufs.sb.nindir - pointers.length) 0) E := by
  have hb := g.bsize_eq
  have hn := g.nindir_le
  have hfrag := g.frag_pos
  have hin : ufs.sb.InData (root * 512) ufs.sb.bsize := hr.inData g hb.le
  have hend := hin.inside g g.bsize_pos
  have hcov : ∀ a, root * 512 ≤ a → a < root * 512 + ufs.sb.bsize →
      Covered [(root, ufs.sb.frag)] (a / 512) := by
    intro a h1 h2
    refine covered_cons.mpr (.inl ⟨?_, ?_⟩)
    · simp only
      omega
    · simp only
      omega
  have hwl : (Bytes.words pointers).length = 4 * pointers.length := Bytes.words_length _
  have hwb : (Bytes.words pointers).length ≤ ufs.sb.bsize := by omega
  rw [writePointerBlock, g.dataBlockOffset_eq, List.take_of_length_le hl]
  refine (putData_hoare (by rwa [Bytes.zeros_length]) (by rwa [Bytes.zeros_length]) rfl).seq ?_
  refine putData_hoare (hin.mono le_rfl (Nat.add_le_add_left hwb _))
    ((Nat.add_le_add_left hwb _).trans hend) ⟨?_, ?_⟩
  · refine (D.write_dataOnly fun a h1 h2 => hcov a h1 ?_).trans
      (Disk.write_dataOnly _ fun a h1 h2 => hcov a h1 (h2.trans_le (Nat.add_le_add_left hwb _)))
    rwa [Bytes.zeros_length] at h2
  · have hbytes : ((D.write (root * 512) (Bytes.zeros ufs.sb.bsize)).write (root * 512)
        (Bytes.words pointers)).bytes (root * 512) ufs.sb.bsize =
        (Bytes.zeros ufs.sb.bsize).overlay 0 (Bytes.words pointers) := by
      rw [Disk.bytes_write_inside _ hwb, Disk.bytes_write _ _ _ (by rw [Bytes.zeros_length]),
        List.take_of_length_le (by rw [Bytes.zeros_length])]
    rw [Disk.pointers]
    change (List.range ufs.sb.nindir).map (fun i => (((D.write (root * 512)
      (Bytes.zeros ufs.sb.bsize)).write (root * 512) (Bytes.words pointers)).bytes (root * 512)
        ufs.sb.bsize).u32 (i * 4)) = _
    rw [hbytes, ← getD_range_map _ _ hl]
    refine List.map_congr_left fun i hi => ?_
    have hi' := List.mem_range.mp hi
    have hzl : (Bytes.zeros ufs.sb.bsize).length = ufs.sb.bsize := Bytes.zeros_length _
    by_cases hp : i < pointers.length
    · have hw := @Bytes.u32_overlay_words (Bytes.zeros ufs.sb.bsize) 0 i pointers (by omega) hp
      rw [Nat.zero_add] at hw
      rw [hw]
      refine Nat.mod_eq_of_lt ?_
      rw [List.getD_eq_getElem _ _ hp]
      exact h32 _ (List.getElem_mem hp)
    · rw [Bytes.u32_overlay_of_disjoint (by omega) (by omega), List.getD_eq_default _ _ (by omega),
        Bytes.u32, Bytes.slice_zeros (by omega), Bytes.leNat_zeros]

end Pointer

/-! ## Trees -/

/-- The subtree of one data block. -/
def Subtree.leaf (b : ℕ) : Subtree := ⟨b, [b], []⟩

/-- Block numbers that a pointer can hold. -/
def Pointable (data : List ℕ) : Prop := ∀ b ∈ data, b ≠ 0 ∧ b < 2 ^ 32

/-- `t` was built over `data`, and its pointer blocks are what was taken. -/
structure Built (sb : Superblock) (D D' : Disk) (runs : List Run) (depth : ℕ) (data : List ℕ)
    (t : Subtree) : Prop where
  tree : Tree sb D' depth t
  denotes : t.data = data
  count : t.ptrs.length = treeBlocks sb.nindir depth data.length
  took : Took sb D D' runs (blockRuns sb t.ptrs)

/-- Trees survive allocations made after them. -/
theorem Tree.keeps {sb : Superblock} (g : sb.Geometry) {D D' : Disk} {runs new : List Run}
    {depth : ℕ} {t : Subtree} (h : Tree sb D depth t) (ht : Took sb D D' runs new)
    (hin : ∀ p ∈ t.ptrs, (p, sb.frag) ∈ runs) : Tree sb D' depth t := by
  have hb := g.bsize_eq
  refine h.congr fun p hp => Disk.bytes_congr fun a h1 h2 => ht.keeps ?_
  refine ⟨_, hin p hp, ?_, ?_⟩
  · simp only
    omega
  · simp only
    omega

/-- Trees do not look at blocks written outside them. -/
theorem Tree.fill {sb : Superblock} (g : sb.Geometry) {D D' : Disk} {runs new : List Run}
    {depth : ℕ} {t : Subtree} (h : Tree sb D depth t) (hd : DataOnly D D' new)
    (hap : ∀ r ∈ new, ∀ r' ∈ runs, Run.Apart r r') (hin : ∀ p ∈ t.ptrs, (p, sb.frag) ∈ runs) :
    Tree sb D' depth t := by
  have hb := g.bsize_eq
  refine h.congr fun p hp => Disk.bytes_congr fun a h1 h2 => hd.data a ?_
  rintro ⟨r, hr, hm⟩
  refine hap r hr _ (hin p hp) _ hm ⟨?_, ?_⟩
  · simp only
    omega
  · simp only
    omega

section Build
variable {ufs : Ufs}

theorem IsRun.pointable {sb : Superblock} (g : sb.Geometry) {b count : ℕ} (h : sb.IsRun b count) :
    b ≠ 0 ∧ b < 2 ^ 32 := by
  have hpos := h.pos g
  obtain ⟨hc, -, hcount, hhi, -⟩ := h
  have hend := g.group_end hc
  have hdm := Nat.div_add_mod' b sb.fpg
  have hlt := g.dsize_lt
  omega

/-- The root over finished subtrees: one more block that points to them. -/
theorem buildRoot_hoare (g : ufs.sb.Geometry) {n depth count : ℕ} {D : Disk} {runs : List Run}
    (hs : Space ufs.sb D runs) {kids : List Subtree} (hne : kids ≠ [])
    (hlen : kids.length ≤ ufs.sb.nindir)
    (hkids : ∀ k ∈ kids, k.data ≠ [] ∧ k.root < 2 ^ 32 ∧ Tree ufs.sb D depth k)
    (hin : ∀ k ∈ kids, ∀ p ∈ k.ptrs, (p, ufs.sb.frag) ∈ runs) :
    (allocateBlock ufs n >>= fun root =>
      writePointerBlock ufs root (kids.map Subtree.root) >>= fun _ =>
        pure (root, count)).hoare ufs.Holds D
      (fun r D' => ∃ root, r = (root, count) ∧ root < 2 ^ 32 ∧
        Took ufs.sb D D' runs [(root, ufs.sb.frag)] ∧
        Tree ufs.sb D' (depth + 1)
          ⟨root, kids.flatMap Subtree.data, root :: kids.flatMap Subtree.ptrs⟩)
      (OutOfSpace ufs D runs 1) := by
  refine ((allocateBlock_hoare g hs).mono (fun _ _ h => h) fun e image h =>
    OutOfSpace.of_unchanged hs h Nat.one_pos).bind fun root D₁ ht => ?_
  have hrun : ufs.sb.IsRun root ufs.sb.frag := ht.isRun (List.mem_singleton.mpr rfl)
  obtain ⟨hr0, hr32⟩ := IsRun.pointable g hrun
  refine (writePointerBlock_hoare g hrun (by rwa [List.length_map]) ?_).bind ?_
  · intro p hp
    obtain ⟨k, hk, rfl⟩ := List.mem_map.mp hp
    exact (hkids k hk).2.1
  · rintro - D₂ ⟨hd, hptr⟩
    rw [List.length_map] at hptr
    refine Act.hoare_pure ⟨root, rfl, hr32, ht.fill hd, .inr ⟨hr0, kids, hne, hlen, ?_, hptr, rfl,
      rfl⟩⟩
    intro k hk
    refine ⟨(hkids k hk).1, (((hkids k hk).2.2).keeps g ht (hin k hk)).fill g hd ?_ (hin k hk)⟩
    exact fun r hr r' hr' => (List.pairwise_append.mp ht.space.apart).2.2 r hr r' hr'

theorem flatMap_leaf_data (data : List ℕ) : (data.map Subtree.leaf).flatMap Subtree.data = data := by
  induction data with
  | nil => rfl
  | cons b data ih => simpa [Subtree.leaf] using ih

theorem flatMap_leaf_ptrs (data : List ℕ) : (data.map Subtree.leaf).flatMap Subtree.ptrs = [] := by
  induction data with
  | nil => rfl
  | cons b data ih => simp [Subtree.leaf]

/-- The children loop: one subtree for each chunk. -/
theorem buildChildren_hoare (g : ufs.sb.Geometry) {n levels : ℕ}
    (ih : ∀ {data : List ℕ} {D : Disk} {runs : List Run}, Space ufs.sb D runs → data ≠ [] →
      data.length ≤ ufs.sb.nindir ^ levels → Pointable data →
      (buildPointerTree ufs n levels data).hoare ufs.Holds D
        (fun r D' => ∃ t, Built ufs.sb D D' runs levels data t ∧ r = (t.root, t.ptrs.length) ∧
          t.root < 2 ^ 32)
        (OutOfSpace ufs D runs (treeBlocks ufs.sb.nindir levels data.length)))
    {chunks : List (List ℕ)} {D : Disk} {runs : List Run} (hs : Space ufs.sb D runs)
    (hc : ∀ c ∈ chunks, c ≠ [] ∧ c.length ≤ ufs.sb.nindir ^ levels ∧ Pointable c) :
    (Act.collect (buildPointerTree ufs n levels) chunks).hoare ufs.Holds D
      (fun rs D' => ∃ kids : List Subtree, rs = kids.map (fun t => (t.root, t.ptrs.length)) ∧
        kids.map Subtree.data = chunks ∧
        (∀ k ∈ kids, k.data ≠ [] ∧ k.root < 2 ^ 32 ∧ Tree ufs.sb D' levels k) ∧
        Took ufs.sb D D' runs (blockRuns ufs.sb (kids.flatMap Subtree.ptrs)) ∧
        (kids.flatMap Subtree.ptrs).length =
          (chunks.map fun c => treeBlocks ufs.sb.nindir levels c.length).sum)
      (OutOfSpace ufs D runs
        (chunks.map fun c => treeBlocks ufs.sb.nindir levels c.length).sum) := by
  refine (Act.hoare_collect (fun rs as d => ∃ kids : List Subtree,
    rs = kids.map (fun t => (t.root, t.ptrs.length)) ∧ kids.map Subtree.data ++ as = chunks ∧
    (∀ k ∈ kids, k.data ≠ [] ∧ k.root < 2 ^ 32 ∧ Tree ufs.sb d levels k) ∧
    Took ufs.sb D d runs (blockRuns ufs.sb (kids.flatMap Subtree.ptrs)) ∧
    (kids.flatMap Subtree.ptrs).length =
      ((kids.map Subtree.data).map fun c => treeBlocks ufs.sb.nindir levels c.length).sum)
    ?_ ?_).post ?_
  · rintro rs a as d ⟨kids, rfl, hsplit, hkids, ht, hcount⟩
    obtain ⟨hne, hlen, hp⟩ := hc a (by rw [← hsplit]; simp)
    refine (ih ht.space hne hlen hp).mono ?_ fun e image he => he.after ht ?_
    · rintro r d' ⟨t, hb, rfl, h32⟩
      refine ⟨kids ++ [t], by simp, by simp [hb.denotes, hsplit], ?_, ?_, ?_⟩
      · intro k hk
        rcases List.mem_append.mp hk with hk | hk
        · obtain ⟨h1, h2, h3⟩ := hkids k hk
          refine ⟨h1, h2, h3.keeps g hb.took fun p hpk => List.mem_append_left _ ?_⟩
          exact mem_blockRuns (List.mem_flatMap.mpr ⟨k, hk, hpk⟩)
        · rw [List.mem_singleton.mp hk]
          exact ⟨by rw [hb.denotes]; exact hne, h32, hb.tree⟩
      · refine (ht.trans hb.took).perm ?_
        rw [List.flatMap_append, blockRuns_append]
        simpa using List.perm_append_comm
      · rw [List.flatMap_append, List.length_append, hcount]
        simp [hb.count, hb.denotes]
    · rw [blockRuns_length, hcount, ← hsplit]
      simp only [List.map_append, List.sum_append, List.map_cons, List.sum_cons]
      omega
  · exact ⟨[], rfl, rfl, fun k hk => absurd hk List.not_mem_nil, Took.refl hs, rfl⟩
  · rintro rs d ⟨kids, hrs, hsplit, hkids, ht, hcount⟩
    rw [List.append_nil] at hsplit
    rw [hsplit] at hcount
    exact ⟨kids, hrs, hsplit, hkids, ht, hcount⟩

theorem buildPointerTree_hoare (g : ufs.sb.Geometry) {n : ℕ} : ∀ (levels : ℕ) {data : List ℕ}
    {D : Disk} {runs : List Run}, Space ufs.sb D runs → data ≠ [] →
    data.length ≤ ufs.sb.nindir ^ (levels + 1) → Pointable data →
    (buildPointerTree ufs n (levels + 1) data).hoare ufs.Holds D
      (fun r D' => ∃ t, Built ufs.sb D D' runs (levels + 1) data t ∧ r = (t.root, t.ptrs.length) ∧
        t.root < 2 ^ 32)
      (OutOfSpace ufs D runs (treeBlocks ufs.sb.nindir (levels + 1) data.length)) := by
  intro levels
  induction levels with
  | zero =>
    intro data D runs hs hne hlen hp
    have hpos := List.length_pos_of_ne_nil hne
    have hcount := @treeBlocks_succ ufs.sb.nindir 0 _ hpos hlen
    rw [Nat.zero_add, pow_one] at hlen
    have hroot := @buildRoot_hoare ufs g n 0 1 D runs hs (data.map Subtree.leaf)
      (by simpa using hne) (by simpa using hlen) (fun k hk => by
        obtain ⟨b, hb, rfl⟩ := List.mem_map.mp hk
        exact ⟨List.cons_ne_nil _ _, (hp b hb).2, (hp b hb).1, rfl, rfl⟩) (fun k hk p hpk => by
        obtain ⟨b, -, rfl⟩ := List.mem_map.mp hk
        exact absurd hpk List.not_mem_nil)
    rw [flatMap_leaf_data, flatMap_leaf_ptrs, List.map_map] at hroot
    have hid : Subtree.root ∘ Subtree.leaf = id := rfl
    rw [hid, List.map_id] at hroot
    rw [buildPointerTree, if_neg hne, if_pos rfl, List.take_of_length_le hlen, hcount]
    refine hroot.post ?_
    rintro r D' ⟨root, rfl, h32, ht, htree⟩
    exact ⟨⟨root, data, [root]⟩, ⟨htree, rfl, hcount.symm, ht⟩, rfl, h32⟩
  | succ levels ih =>
    intro data D runs hs hne hlen hp
    have hpos := List.length_pos_of_ne_nil hne
    have hn : 0 < ufs.sb.nindir := Nat.pos_of_ne_zero fun hz => by
      rw [hz, Nat.zero_pow (Nat.succ_pos _)] at hlen
      omega
    have hcap : 0 < ufs.sb.nindir ^ (levels + 1) := Nat.pow_pos hn
    have hcount := treeBlocks_succ hpos hlen
    rw [Nat.pow_succ, Nat.mul_comm] at hlen
    have hsum := treeBlocks_chunks hn (levels + 1) (le_refl data.length)
    have hflat := chunksOf_flatten hcap (le_refl data.length)
    have hchunks : (chunksOf (ufs.sb.nindir ^ (levels + 1)) data.length data).length ≤
        ufs.sb.nindir := chunksOf_length_le hlen
    rw [buildPointerTree, if_neg hne, if_neg (by omega), hcount]
    dsimp only
    refine ((buildChildren_hoare g ih hs fun c hc => ?_).mono (fun _ _ h => h) ?_).bind ?_
    · obtain ⟨h1, h2, h3⟩ := chunksOf_mem hcap hc
      exact ⟨h1, h2, fun b hb => hp b (h3 b hb)⟩
    · intro e image he
      rw [hsum] at he
      exact he.after (Took.refl hs) (by simp)
    · rintro rs D₁ ⟨kids, rfl, hdata, hkids, ht, hptrs⟩
      rw [hsum] at hptrs
      have hkl : kids.length = (chunksOf (ufs.sb.nindir ^ (levels + 1)) data.length data).length := by
        rw [← hdata, List.length_map]
      have hkd : kids.flatMap Subtree.data = data := by
        rw [List.flatMap_def, hdata, hflat]
      have hkne : kids ≠ [] := by
        rintro rfl
        exact hne (by rw [← hkd]; rfl)
      have hmap : (kids.map fun t => (t.root, t.ptrs.length)).map Prod.fst =
          kids.map Subtree.root := by
        rw [List.map_map]
        rfl
      have hroot := @buildRoot_hoare ufs g n (levels + 1)
        (1 + ((kids.map fun t => (t.root, t.ptrs.length)).map Prod.snd).sum) D₁ _ ht.space kids hkne
        (hkl ▸ hchunks) hkids (fun k hk p hpk => List.mem_append_left _
          (mem_blockRuns (List.mem_flatMap.mpr ⟨k, hk, hpk⟩)))
      rw [hkd, ← hmap] at hroot
      refine hroot.mono ?_ ?_
      · rintro r D' ⟨root, rfl, h32, ht', htree⟩
        have hlen' : (root :: kids.flatMap Subtree.ptrs).length =
            treeBlocks ufs.sb.nindir (levels + 1) data.length + 1 := by
          rw [List.length_cons, hptrs]
        refine ⟨⟨root, data, root :: kids.flatMap Subtree.ptrs⟩, ⟨htree, rfl, ?_, ?_⟩, ?_, h32⟩
        · rw [hlen', hcount]
        · exact ht.trans ht'
        · simp only [Prod.mk.injEq, true_and]
          rw [hlen', ← hptrs, List.length_flatMap, List.map_map]
          exact Nat.add_comm _ _
      · intro e image he
        refine he.after ht ?_
        rw [blockRuns_length, hptrs]

end Build

/-! ## The roots in the inode -/

/-- Data blocks within reach of indirect pointers of the given levels. -/
def reach (nindir : ℕ) (levels : List ℕ) : ℕ := (levels.map fun l => nindir ^ l).sum

section Roots
variable {ufs : Ufs}

theorem buildTree_hoare (g : ufs.sb.Geometry) {n levels : ℕ} (hl : 0 < levels) {data : List ℕ}
    {D : Disk} {runs : List Run} (hs : Space ufs.sb D runs)
    (hlen : data.length ≤ ufs.sb.nindir ^ levels) (hp : Pointable data) :
    (buildPointerTree ufs n levels data).hoare ufs.Holds D
      (fun r D' => ∃ t, Built ufs.sb D D' runs levels data t ∧ r = (t.root, t.ptrs.length) ∧
        t.root < 2 ^ 32)
      (OutOfSpace ufs D runs (treeBlocks ufs.sb.nindir levels data.length)) := by
  obtain ⟨levels, rfl⟩ : ∃ l, levels = l + 1 := ⟨levels - 1, by omega⟩
  by_cases hne : data = []
  · rw [buildPointerTree, if_pos hne]
    refine Act.hoare_pure ⟨Subtree.empty, ⟨Tree.empty, hne.symm, ?_, Took.refl hs⟩, rfl, ?_⟩
    · rw [hne]
      exact (treeBlocks_zero _).symm
    · exact Nat.two_pow_pos 32
  · exact buildPointerTree_hoare g levels hs hne hlen hp

theorem buildIndirectRoots_hoare (g : ufs.sb.Geometry) {n : ℕ} {levels : List ℕ} :
    (∀ l ∈ levels, 0 < l) → ∀ {remaining : List ℕ} {D : Disk} {runs : List Run},
    Space ufs.sb D runs → remaining.length ≤ reach ufs.sb.nindir levels → Pointable remaining →
    (buildIndirectRoots ufs n levels remaining).hoare ufs.Holds D
      (fun r D' => ∃ ts : List Subtree,
        r = (ts.map Subtree.root, (ts.flatMap Subtree.ptrs).length) ∧
        List.Forall₂ (Tree ufs.sb D') levels ts ∧ (∀ t ∈ ts, t.root < 2 ^ 32) ∧
        ts.flatMap Subtree.data = remaining ∧
        (ts.flatMap Subtree.ptrs).length = rootsBlocks ufs.sb.nindir levels remaining.length ∧
        Took ufs.sb D D' runs (blockRuns ufs.sb (ts.flatMap Subtree.ptrs)))
      (OutOfSpace ufs D runs (rootsBlocks ufs.sb.nindir levels remaining.length)) := by
  induction levels with
  | nil =>
    intro _ remaining D runs hs hlen _
    have hnil : remaining = [] := List.eq_nil_of_length_eq_zero (Nat.le_zero.mp hlen)
    rw [hnil]
    exact Act.hoare_pure ⟨[], rfl, List.Forall₂.nil, fun t ht => absurd ht List.not_mem_nil, rfl,
      rfl, Took.refl hs⟩
  | cons l levels ih =>
    intro hpos remaining D runs hs hlen hp
    simp only [reach, List.map_cons, List.sum_cons] at hlen
    rw [buildIndirectRoots, rootsBlocks]
    dsimp only
    have htl : (remaining.take (ufs.sb.nindir ^ l)).length =
        min remaining.length (ufs.sb.nindir ^ l) := by rw [List.length_take, Nat.min_comm]
    have hdl : (remaining.drop (ufs.sb.nindir ^ l)).length =
        remaining.length - ufs.sb.nindir ^ l := List.length_drop
    rw [← htl, ← hdl]
    refine ((buildTree_hoare g (hpos l (List.mem_cons_self ..)) hs (List.length_take_le _ _)
      fun b hb => hp b (List.mem_of_mem_take hb)).mono (fun _ _ h => h) ?_).bind ?_
    · intro e image he
      exact he.after (Took.refl hs) (by simp)
    rintro r D₁ ⟨t, hb, rfl, h32⟩
    have hrest := ih (fun l' hl' => hpos l' (List.mem_cons_of_mem _ hl')) hb.took.space
      (show (remaining.drop (ufs.sb.nindir ^ l)).length ≤ _ by
        rw [hdl]
        simp only [reach]
        omega) fun b hb => hp b (List.mem_of_mem_drop hb)
    refine (hrest.mono (fun _ _ h => h) fun e image he => he.after hb.took ?_).bind ?_
    · rw [blockRuns_length, hb.count]
    rintro r D₂ ⟨ts, rfl, htrees, h32s, hdata, hcount, ht⟩
    refine Act.hoare_pure ⟨t :: ts, ?_, ?_, ?_, ?_, ?_, ?_⟩
    · simp
    · refine List.Forall₂.cons (hb.tree.keeps g ht fun p hpt => ?_) htrees
      exact List.mem_append_left _ (mem_blockRuns hpt)
    · intro t' ht'
      rcases List.mem_cons.mp ht' with rfl | ht'
      · exact h32
      · exact h32s t' ht'
    · rw [List.flatMap_cons, hb.denotes, hdata, List.take_append_drop]
    · rw [List.flatMap_cons, List.length_append, hb.count, hcount]
    · refine (hb.took.trans ht).perm ?_
      rw [List.flatMap_cons, blockRuns_append]
      exact List.perm_append_comm

/-- The inode after its pointers were laid out. -/
theorem buildInodePointerStructure_hoare (g : ufs.sb.Geometry) {n : ℕ} (hn : n < ufs.sb.inodes)
    {data : List ℕ} {D : Disk} {runs : List Run} (hs : Space ufs.sb D runs)
    (hlen : data.length ≤ ufsNdaddr + reach ufs.sb.nindir [1, 2, 3]) (hp : Pointable data) :
    (buildInodePointerStructure ufs n data).hoare ufs.Holds D
      (fun count D' => ∃ (D₁ : Disk) (ptrs direct indirect : List ℕ),
        Took ufs.sb D D₁ runs (blockRuns ufs.sb ptrs) ∧
        D' = D₁.setIno n { D₁.ino n with directBlocks := direct, indirectBlocks := indirect } ∧
        count = ptrs.length ∧ ptrs.length = ufs.sb.pointerBlocks data.length ∧
        ∀ i : Inode, i.directBlocks = direct → i.indirectBlocks = indirect → i.size < 2 ^ 63 →
          data.length = ufs.sb.blocksFor i.size → Laid ufs.sb D₁ i data ptrs)
      (OutOfSpace ufs D runs (ufs.sb.pointerBlocks data.length)) := by
  have hdl : (data.drop ufsNdaddr).length = data.length - ufsNdaddr := List.length_drop
  rw [buildInodePointerStructure, Superblock.pointerBlocks, ← hdl]
  refine (buildIndirectRoots_hoare g (by simp) hs (by rw [hdl]; omega)
    fun b hb => hp b (List.mem_of_mem_drop hb)).bind ?_
  rintro r D₁ ⟨ts, rfl, htrees, h32, hdata, hcount, ht⟩
  have htl := htrees.length_eq
  obtain ⟨t₁, t₂, t₃, rfl⟩ : ∃ t₁ t₂ t₃, ts = [t₁, t₂, t₃] := by
    match ts, htl with
    | [t₁, t₂, t₃], _ => exact ⟨t₁, t₂, t₃, rfl⟩
  simp only [List.forall₂_cons, List.forall₂_nil_right_iff, and_true] at htrees
  obtain ⟨h1, h2, h3⟩ := htrees
  have htake : (data.take ufsNdaddr).length ≤ ufsNdaddr := List.length_take_le _ _
  set direct := data.take ufsNdaddr ++
    List.replicate (ufsNdaddr - (data.take ufsNdaddr).length) 0 with hdirect
  refine Act.hoare.bind (P := fun _ D' => D' = D₁.setIno n { D₁.ino n with
    directBlocks := direct, indirectBlocks := [t₁, t₂, t₃].map Subtree.root }) ?_ ?_
  · refine writeBlockLists_hoare hn htake rfl (fun v hv => (hp v (List.mem_of_mem_take hv)).2) ?_ rfl
    intro v hv
    obtain ⟨t, htm, rfl⟩ := List.mem_map.mp hv
    exact h32 t htm
  · rintro - D' rfl
    refine Act.hoare_pure ⟨D₁, [t₁, t₂, t₃].flatMap Subtree.ptrs, direct,
      [t₁, t₂, t₃].map Subtree.root, ht, rfl, rfl, hcount, ?_⟩
    intro i hdir hind hsize hblocks
    refine ⟨hsize, hblocks, fun b hb => (hp b hb).1, ?_, ?_,
      ⟨t₁, t₂, t₃, hind, h1, h2, h3, ?_, ?_⟩, hcount.trans (by rw [Superblock.pointerBlocks, hdl])⟩
    · rw [hdir]
      simp only [hdirect, List.length_append, List.length_replicate]
      omega
    · rw [hdir]
      simp only [hdirect]
      by_cases hle : data.length ≤ ufsNdaddr
      · rw [List.take_of_length_le (l := data) hle, List.take_left']
        rfl
      · have hfull : (data.take ufsNdaddr).length = ufsNdaddr := by
          rw [List.length_take]
          omega
        rw [hfull, Nat.sub_self, List.replicate_zero, List.append_nil, List.take_take]
        congr 1
        omega
    · simpa [List.append_assoc] using hdata.symm
    · simp [List.append_assoc]

end Roots
end UfsFuse
