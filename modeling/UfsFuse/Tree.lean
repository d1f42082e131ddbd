import UfsFuse.Allocate

/-!
# Pointer trees

A pointer block of depth `d` denotes the list of data blocks below it. The readers of `inode.rs`
return that list, and the pointer blocks of the tree, whatever the rest of the slice holds.
-/
namespace UfsFuse

/-- A tree of pointer blocks: its root, the data blocks in order and its pointer blocks. -/
structure Subtree where
  root : ℕ
  data : List ℕ
  ptrs : List ℕ

def Subtree.empty : Subtree := ⟨0, [], []⟩

namespace Disk

/-- The pointers stored in a block. -/
def pointers (sb : Superblock) (D : Disk) (root : ℕ) : List ℕ :=
  (List.range sb.nindir).map fun i => (D.bytes (root * 512) sb.bsize).u32 (i * 4)

theorem bytes_congr {D D' : Disk} {addr len : ℕ}
    (h : ∀ a, addr ≤ a → a < addr + len → D'.data a = D.data a) :
    D'.bytes addr len = D.bytes addr len := by
  simp only [bytes, List.map_inj_left, List.mem_range]
  intro i hi
  exact h _ (by omega) (by omega)

theorem bytes_byte (D : Disk) {addr len i : ℕ} (h : i < len) :
    (D.bytes addr len).byte i = D.data (addr + i) := by
  simp [bytes, Bytes.byte, List.getD_eq_getElem?_getD, h]

end Disk

/-- `Tree sb D depth t`: read in `D`, the block `t.root` is a tree of that depth with the data blocks
`t.data` and the pointer blocks `t.ptrs`. At depth 0 it is a data block. -/
def Tree (sb : Superblock) (D : Disk) : ℕ → Subtree → Prop
  | 0, t => t.root ≠ 0 ∧ t.data = [t.root] ∧ t.ptrs = []
  | depth + 1, t =>
      t = Subtree.empty ∨
      (t.root ≠ 0 ∧ ∃ kids : List Subtree, kids ≠ [] ∧ kids.length ≤ sb.nindir ∧
        (∀ k ∈ kids, k.data ≠ [] ∧ Tree sb D depth k) ∧
        D.pointers sb t.root =
          kids.map Subtree.root ++ List.replicate (sb.nindir - kids.length) 0 ∧
        t.data = kids.flatMap Subtree.data ∧ t.ptrs = t.root :: kids.flatMap Subtree.ptrs)

namespace Tree
variable {sb : Superblock} {D D' : Disk}

theorem empty {depth : ℕ} : Tree sb D (depth + 1) Subtree.empty := .inl rfl

theorem root_ne {depth : ℕ} {t : Subtree} (h : Tree sb D depth t) (hd : t.data ≠ []) :
    t.root ≠ 0 := by
  cases depth with
  | zero => exact h.1
  | succ depth =>
    rcases h with rfl | h
    · exact absurd rfl hd
    · exact h.1

/-- A tree depends only on its pointer blocks. -/
theorem congr : ∀ {depth : ℕ} {t : Subtree}, Tree sb D depth t →
    (∀ p ∈ t.ptrs, D'.bytes (p * 512) sb.bsize = D.bytes (p * 512) sb.bsize) →
    Tree sb D' depth t := by
  intro depth
  induction depth with
  | zero => exact fun h _ => h
  | succ depth ih =>
    intro t h hp
    rcases h with rfl | ⟨hr, kids, hne, hlen, hkids, hptr, hdata, hptrs⟩
    · exact empty
    · refine .inr ⟨hr, kids, hne, hlen, fun k hk => ⟨(hkids k hk).1, ?_⟩, ?_, hdata, hptrs⟩
      · refine ih (hkids k hk).2 fun p hpk => hp p ?_
        rw [hptrs]
        exact List.mem_cons_of_mem _ (List.mem_flatMap.mpr ⟨k, hk, hpk⟩)
      · rw [← hptr, Disk.pointers, Disk.pointers, hp]
        rw [hptrs]
        exact List.mem_cons_self ..

end Tree

section Readers
variable {ufs : Ufs} {image : Bytes} {D : Disk}

theorem Ufs.Holds.geom (h : ufs.Holds image D) : ufs.sb.Geometry := h.1.geom

theorem Ufs.Holds.readPointerBlock (h : ufs.Holds image D) {p : ℕ}
    (hp : ufs.sb.IsRun p ufs.sb.frag) :
    readPointerBlock image ufs p = .ok (D.pointers ufs.sb p) := by
  have g := h.geom
  have hb := g.bsize_eq
  have hn := g.nindir_le
  have hf := g.frag_pos
  rw [UfsFuse.readPointerBlock, g.dataBlockOffset_eq,
    h.getSlice (hp.inData g (by omega)) g.bsize_pos]
  simp only [Outcome.ok_bind, Disk.bytes_length]
  rw [Outcome.guard_true (by omega)]
  rfl

/-- The pointer loop over children that all succeed, followed by empty slots. -/
theorem collectDataLoop_eq {child : ℕ → Option ℕ → Outcome Fault (List ℕ)} {max : ℕ}
    (kids : List Subtree) (zeros : ℕ)
    (hchild : ∀ k ∈ kids, ∀ m, k.data.length ≤ m → child k.root (some m) = .ok k.data)
    (hroot : ∀ k ∈ kids, k.root ≠ 0) (hne : ∀ k ∈ kids, k.data ≠ []) :
    ∀ blocks : List ℕ, blocks.length + (kids.flatMap Subtree.data).length ≤ max →
    collectDataLoop child (some max) (kids.map Subtree.root ++ List.replicate zeros 0) blocks =
      .ok (blocks ++ kids.flatMap Subtree.data) := by
  induction kids with
  | nil =>
    intro blocks _
    induction zeros with
    | zero => simp [collectDataLoop]
    | succ z ihz => simpa [collectDataLoop, List.replicate_succ] using ihz
  | cons k kids ih =>
    intro blocks hmax
    simp only [List.flatMap_cons, List.length_append] at hmax
    have hk := hchild k (by simp) (max - blocks.length) (by omega)
    simp only [List.map_cons, List.cons_append, collectDataLoop,
      if_neg (hroot k (by simp)), Option.map_some, hk, Outcome.ok_bind, List.length_append]
    by_cases hfull : blocks.length + k.data.length ≥ max
    · -- the limit is reached: nothing is left to collect
      have hzero : kids.flatMap Subtree.data = [] := by
        apply List.eq_nil_of_length_eq_zero
        omega
      rw [if_pos hfull, List.flatMap_cons, hzero, List.append_nil, List.take_of_length_le]
      · rfl
      · rw [List.length_append]
        omega
    · rw [if_neg hfull, ih (fun k hk => hchild k (by simp [hk])) (fun k hk => hroot k (by simp [hk]))
        (fun k hk => hne k (by simp [hk])) _ (by rw [List.length_append]; omega)]
      simp

/-- The data reader returns the denotation of a tree. -/
theorem Tree.collectData (h : ufs.Holds image D) : ∀ {depth : ℕ} {t : Subtree} {max : ℕ},
    Tree ufs.sb D (depth + 1) t → (∀ p ∈ t.ptrs, ufs.sb.IsRun p ufs.sb.frag) →
    t.data.length ≤ max →
    collectIndirectDataBlocks image ufs (depth + 1) t.root (some max) = .ok t.data := by
  intro depth
  induction depth with
  | zero =>
    intro t max ht hp hmax
    rcases ht with rfl | ⟨hr, kids, hne, hlen, hkids, hptr, hdata, hptrs⟩
    · simp [collectIndirectDataBlocks, Subtree.empty]
    · have hroot := h.readPointerBlock (hp t.root (by rw [hptrs]; exact List.mem_cons_self ..))
      have hd : t.data ≠ [] := by
        obtain ⟨k, hk⟩ := List.exists_mem_of_ne_nil kids hne
        obtain ⟨x, hx⟩ := List.exists_mem_of_ne_nil _ (hkids k hk).1
        rw [hdata]
        exact List.ne_nil_of_mem (List.mem_flatMap.mpr ⟨k, hk, hx⟩)
      have hpos := List.length_pos_of_ne_nil hd
      rw [collectIndirectDataBlocks, if_neg (by simp [hr]; omega), hroot, Outcome.ok_bind, hptr,
        collectDataLoop_eq kids _ ?_ (fun k hk => ((hkids k hk).2).1) (fun k hk => (hkids k hk).1)]
      · rw [hdata, List.nil_append]
      · rw [← hdata]
        simpa using hmax
      · intro k hk m _
        rw [if_pos rfl, (hkids k hk).2.2.1]
  | succ depth ih =>
    intro t max ht hp hmax
    rcases ht with rfl | ⟨hr, kids, hne, hlen, hkids, hptr, hdata, hptrs⟩
    · simp [collectIndirectDataBlocks, Subtree.empty]
    · have hroot := h.readPointerBlock (hp t.root (by rw [hptrs]; exact List.mem_cons_self ..))
      have hd : t.data ≠ [] := by
        obtain ⟨k, hk⟩ := List.exists_mem_of_ne_nil kids hne
        obtain ⟨x, hx⟩ := List.exists_mem_of_ne_nil _ (hkids k hk).1
        rw [hdata]
        exact List.ne_nil_of_mem (List.mem_flatMap.mpr ⟨k, hk, hx⟩)
      have hpos := List.length_pos_of_ne_nil hd
      rw [collectIndirectDataBlocks, if_neg (by simp [hr]; omega), hroot, Outcome.ok_bind, hptr,
        collectDataLoop_eq kids _ ?_ (fun k hk => (hkids k hk).2.root_ne (hkids k hk).1)
          (fun k hk => (hkids k hk).1)]
      · rw [hdata, List.nil_append]
      · rw [← hdata]
        simpa using hmax
      · intro k hk m hm
        rw [if_neg (by omega)]
        refine ih (hkids k hk).2 (fun p hpk => hp p ?_) hm
        rw [hptrs]
        exact List.mem_cons_of_mem _ (List.mem_flatMap.mpr ⟨k, hk, hpk⟩)

/-- The loop over the children of a pointer block. -/
theorem collectPointerLoop_eq {f : ℕ → Outcome Fault (List ℕ)} (kids : List Subtree) (zeros : ℕ)
    (hf : ∀ k ∈ kids, f k.root = .ok k.ptrs) (hroot : ∀ k ∈ kids, k.root ≠ 0) :
    ∀ blocks : List ℕ,
    Outcome.foldM (fun blocks child =>
        if child = 0 then .ok blocks
        else do
          let found ← f child
          pure (blocks ++ found))
      blocks (kids.map Subtree.root ++ List.replicate zeros 0) =
      .ok (blocks ++ kids.flatMap Subtree.ptrs) := by
  induction kids with
  | nil =>
    intro blocks
    induction zeros with
    | zero => simp [Outcome.foldM]
    | succ z ihz => simpa [Outcome.foldM, List.replicate_succ] using ihz
  | cons k kids ih =>
    intro blocks
    have hrest := ih (fun k hk => hf k (by simp [hk])) (fun k hk => hroot k (by simp [hk]))
      (blocks ++ k.ptrs)
    simp only [List.map_cons, List.cons_append, Outcome.foldM, if_neg (hroot k (by simp)),
      hf k (by simp), Outcome.ok_bind]
    rw [List.flatMap_cons, ← List.append_assoc, ← hrest]
    rfl

/-- The pointer-block reader returns the pointer blocks of a tree. -/
theorem Tree.collectPointers (h : ufs.Holds image D) : ∀ {depth : ℕ} {t : Subtree},
    Tree ufs.sb D (depth + 1) t → (∀ p ∈ t.ptrs, ufs.sb.IsRun p ufs.sb.frag) →
    collectIndirectPointerBlocks image ufs (depth + 1) t.root = .ok t.ptrs := by
  intro depth
  induction depth with
  | zero =>
    intro t ht hp
    rcases ht with rfl | ⟨hr, kids, hne, hlen, hkids, hptr, hdata, hptrs⟩
    · simp [collectIndirectPointerBlocks, Subtree.empty]
    · have hnil : kids.flatMap Subtree.ptrs = [] := by
        rw [List.flatMap_eq_nil_iff]
        exact fun k hk => (hkids k hk).2.2.2
      rw [collectIndirectPointerBlocks, if_neg hr, if_pos rfl, hptrs, hnil]
  | succ depth ih =>
    intro t ht hp
    rcases ht with rfl | ⟨hr, kids, hne, hlen, hkids, hptr, hdata, hptrs⟩
    · simp [collectIndirectPointerBlocks, Subtree.empty]
    · have hroot := h.readPointerBlock (hp t.root (by rw [hptrs]; exact List.mem_cons_self ..))
      rw [collectIndirectPointerBlocks, if_neg hr, if_neg (by omega), hroot, Outcome.ok_bind, hptr,
        collectPointerLoop_eq kids _ ?_ (fun k hk => (hkids k hk).2.root_ne (hkids k hk).1)]
      · rw [hptrs]
        rfl
      · intro k hk
        refine ih (hkids k hk).2 fun p hpk => hp p ?_
        rw [hptrs]
        exact List.mem_cons_of_mem _ (List.mem_flatMap.mpr ⟨k, hk, hpk⟩)

end Readers

/-! ## The blocks of an inode -/

/-- Blocks needed for `size` bytes. -/
def Superblock.blocksFor (sb : Superblock) (size : ℕ) : ℕ :=
  if size = 0 then 0 else (size + sb.bsize - 1) / sb.bsize

/-- Pointer blocks of a tree of `levels` levels over `count` data blocks: one for each begun
group of `nindir`, of `nindir ^ 2`, and so on. -/
def treeBlocks (nindir levels count : ℕ) : ℕ :=
  ((List.range levels).map fun j => (count + nindir ^ (j + 1) - 1) / nindir ^ (j + 1)).sum

/-- Pointer blocks for `count` data blocks behind indirect pointers of the given levels. -/
def rootsBlocks (nindir : ℕ) : List ℕ → ℕ → ℕ
  | [], _ => 0
  | l :: ls, count => treeBlocks nindir l (min count (nindir ^ l)) +
      rootsBlocks nindir ls (count - nindir ^ l)

/-- Pointer blocks of a file of `count` data blocks. -/
def Superblock.pointerBlocks (sb : Superblock) (count : ℕ) : ℕ :=
  rootsBlocks sb.nindir [1, 2, 3] (count - ufsNdaddr)

/-- The data blocks and the pointer blocks of an inode. Direct pointers past the last data block
may hold anything: the readers stop before them, and a device node keeps its number there. There are
no holes: as few pointer blocks as the data blocks need. -/
structure Laid (sb : Superblock) (D : Disk) (i : Inode) (data ptrs : List ℕ) : Prop where
  size_lt : i.size < 2 ^ 63
  count : data.length = sb.blocksFor i.size
  nonzero : ∀ b ∈ data, b ≠ 0
  direct_length : i.directBlocks.length = ufsNdaddr
  direct : i.directBlocks.take data.length = data.take ufsNdaddr
  indirect : ∃ t₁ t₂ t₃ : Subtree, i.indirectBlocks = [t₁.root, t₂.root, t₃.root] ∧
    Tree sb D 1 t₁ ∧ Tree sb D 2 t₂ ∧ Tree sb D 3 t₃ ∧
    data.drop ufsNdaddr = t₁.data ++ t₂.data ++ t₃.data ∧
    ptrs = t₁.ptrs ++ t₂.ptrs ++ t₃.ptrs
  filled : ptrs.length = sb.pointerBlocks data.length

theorem Laid.congr {sb : Superblock} {D D' : Disk} {i : Inode} {data ptrs : List ℕ}
    (h : Laid sb D i data ptrs)
    (hp : ∀ p ∈ ptrs, D'.bytes (p * 512) sb.bsize = D.bytes (p * 512) sb.bsize) :
    Laid sb D' i data ptrs := by
  obtain ⟨t₁, t₂, t₃, hi, h1, h2, h3, hd, rfl⟩ := h.indirect
  refine { h with indirect := ⟨t₁, t₂, t₃, hi, h1.congr ?_, h2.congr ?_, h3.congr ?_, hd, rfl⟩ }
  · exact fun p hm => hp p (by simp [hm])
  · exact fun p hm => hp p (by simp [hm])
  · exact fun p hm => hp p (by simp [hm])

section Readers
variable {ufs : Ufs} {image : Bytes} {D : Disk}

/-- The direct loop when the first pointers are the wanted blocks. -/
theorem directDataLoop_take (needed : ℕ) : ∀ (pointers blocks : List ℕ),
    (∀ b ∈ pointers.take (needed - blocks.length), b ≠ 0) → blocks.length < needed →
    directDataLoop needed pointers blocks =
      (blocks ++ pointers.take (needed - blocks.length),
        decide (needed ≤ blocks.length + pointers.length)) := by
  intro pointers
  induction pointers with
  | nil =>
    intro blocks _ hlt
    simp [directDataLoop]
    omega
  | cons p pointers ih =>
    intro blocks hnz hlt
    obtain ⟨m, hm⟩ : ∃ m, needed - blocks.length = m + 1 := ⟨needed - blocks.length - 1, by omega⟩
    rw [hm, List.take_succ_cons] at hnz
    have hp : p ≠ 0 := hnz p (List.mem_cons_self ..)
    rw [directDataLoop, if_neg hp, hm, List.take_succ_cons]
    simp only [List.length_append, List.length_cons, List.length_nil, Nat.zero_add]
    by_cases hfull : blocks.length + 1 ≥ needed
    · rw [if_pos hfull]
      have hm0 : m = 0 := by omega
      subst hm0
      rw [List.take_of_length_le (by simp; omega), List.take_zero, decide_eq_true (by omega)]
    · rw [if_neg hfull]
      have hm' : needed - (blocks ++ [p]).length = m := by simp; omega
      rw [ih (blocks ++ [p]) (by rw [hm']; exact fun b hb => hnz b (List.mem_cons_of_mem _ hb))
        (by simp; omega), hm']
      simp [Nat.add_assoc, Nat.add_comm 1]

/-- Nothing needed: the direct loop stops at the first pointer it meets, or finds none. -/
theorem directDataLoop_zero : ∀ pointers : List ℕ,
    (directDataLoop 0 pointers []).1 = [] := by
  intro pointers
  induction pointers with
  | nil => rfl
  | cons p pointers ih =>
    rw [directDataLoop]
    split_ifs
    · exact ih
    · simp

theorem Laid.inodePointerBlocks (h : ufs.Holds image D) {i : Inode} {data ptrs : List ℕ}
    (hl : Laid ufs.sb D i data ptrs) (hp : ∀ p ∈ ptrs, ufs.sb.IsRun p ufs.sb.frag) :
    inodePointerBlocks image ufs i = .ok ptrs := by
  obtain ⟨t₁, t₂, t₃, hi, h1, h2, h3, -, rfl⟩ := hl.indirect
  have c1 := h1.collectPointers h fun p hm => hp p (by simp [hm])
  have c2 := h2.collectPointers h fun p hm => hp p (by simp [hm])
  have c3 := h3.collectPointers h fun p hm => hp p (by simp [hm])
  simp [UfsFuse.inodePointerBlocks, hi, List.zipIdx, Outcome.foldM, c1, c2, c3]

theorem Laid.inodeDataBlocks (h : ufs.Holds image D) {i : Inode} {data ptrs : List ℕ}
    (hl : Laid ufs.sb D i data ptrs) (hp : ∀ p ∈ ptrs, ufs.sb.IsRun p ufs.sb.frag) :
    inodeDataBlocks image ufs i = .ok data := by
  obtain ⟨t₁, t₂, t₃, hi, h1, h2, h3, hdrop, rfl⟩ := hl.indirect
  have hcount := hl.count
  rw [Superblock.blocksFor] at hcount
  have hdl := hl.direct_length
  have hsum : t₁.data.length + t₂.data.length + t₃.data.length = data.length - ufsNdaddr := by
    have := congrArg List.length hdrop
    simp only [List.length_append, List.length_drop] at this
    omega
  have hind : ∀ blocks : List ℕ,
      blocks.length + (t₁.data ++ t₂.data ++ t₃.data).length = data.length →
      indirectDataLoop image ufs data.length i.indirectBlocks.zipIdx blocks =
        .ok (blocks ++ (t₁.data ++ t₂.data ++ t₃.data)) := by
    intro blocks hb
    simp only [List.length_append] at hb
    have c1 := @Tree.collectData _ _ _ h _ _ (data.length - blocks.length) h1
      (fun p hm => hp p (by simp [hm])) (by omega)
    have c2 := @Tree.collectData _ _ _ h _ _ (data.length - (blocks ++ t₁.data).length) h2
      (fun p hm => hp p (by simp [hm])) (by simp only [List.length_append]; omega)
    have c3 := @Tree.collectData _ _ _ h _ _ (data.length - (blocks ++ t₁.data ++ t₂.data).length) h3
      (fun p hm => hp p (by simp [hm])) (by simp only [List.length_append]; omega)
    simp only [hi, List.zipIdx, indirectDataLoop, c1, Outcome.ok_bind]
    by_cases hf1 : (blocks ++ t₁.data).length ≥ data.length
    · rw [if_pos hf1]
      simp only [List.length_append] at hf1
      have e2 : t₂.data = [] := List.eq_nil_of_length_eq_zero (by omega)
      have e3 : t₃.data = [] := List.eq_nil_of_length_eq_zero (by omega)
      rw [e2, e3, List.take_of_length_le (by simp only [List.length_append]; omega)]
      simp
    · rw [if_neg hf1, c2, Outcome.ok_bind]
      by_cases hf2 : (blocks ++ t₁.data ++ t₂.data).length ≥ data.length
      · rw [if_pos hf2]
        simp only [List.length_append] at hf2
        have e3 : t₃.data = [] := List.eq_nil_of_length_eq_zero (by omega)
        rw [e3, List.take_of_length_le (by simp only [List.length_append]; omega)]
        simp
      · rw [if_neg hf2, c3, Outcome.ok_bind, List.take_of_length_le (by
          simp only [List.length_append]; omega)]
        simp
  rw [UfsFuse.inodeDataBlocks]
  dsimp only
  rw [← hcount]
  by_cases hz : data.length = 0
  · have hnil := List.eq_nil_of_length_eq_zero hz
    have hfst := directDataLoop_zero i.directBlocks
    have hind0 := hind [] (by simp only [List.length_append, List.length_nil]; omega)
    have et : t₁.data ++ t₂.data ++ t₃.data = [] := by rw [← hdrop, hnil]; rfl
    rw [et, hz] at hind0
    rw [hz]
    rcases hloop : directDataLoop 0 i.directBlocks [] with ⟨blocks, done⟩
    rw [hloop] at hfst
    simp only at hfst
    subst hfst
    simp only
    split_ifs
    · rw [hnil]
    · rw [hind0, hnil]
      rfl
  · rw [directDataLoop_take data.length i.directBlocks [] (by
        simp only [List.length_nil, Nat.sub_zero, hl.direct]
        exact fun b hb => hl.nonzero b (List.mem_of_mem_take hb)) (by simpa using Nat.pos_of_ne_zero hz)]
    simp only [List.length_nil, Nat.sub_zero, List.nil_append, Nat.zero_add, hl.direct, hdl]
    by_cases hdone : data.length ≤ ufsNdaddr
    · rw [if_pos (by simpa using hdone), List.take_of_length_le hdone]
    · rw [if_neg (by simpa using hdone), hind (data.take ufsNdaddr)]
      · rw [← hdrop, List.take_append_drop]
      · rw [← hdrop, ← List.length_append, List.take_append_drop]

end Readers
end UfsFuse
