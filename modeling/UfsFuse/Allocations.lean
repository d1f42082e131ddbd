import UfsFuse.Formatted
import UfsFuse.Frame

/-!
# Runs of the allocator

Blocks, fragments and inodes are taken and given back in any order, from a fresh file system on. Each
grant is a block that was free or an inode that was unused, a call fails only if there is none, and
what is given back is as it was before.
-/
namespace UfsFuse

/-- What a caller holds: runs of fragments with the bytes they were asked for, and inodes. -/
structure Holdings where
  runs : List (ℕ × ℕ)
  inodes : List (ℕ × Bool)

inductive AllocCall where
  | block (owner : ℕ)
  | fragments (owner bytes : ℕ)
  | inode (preferred : Option ℕ) (directory : Bool)

namespace AllocCall

def run (ufs : Ufs) : AllocCall → Write ℕ
  | block owner => allocateBlock ufs owner
  | fragments owner bytes => allocateFragments ufs owner bytes
  | inode preferred directory => allocateInode ufs preferred directory

/-- The caller holds what the call returned. -/
def add (ufs : Ufs) (live : Holdings) (result : ℕ) : AllocCall → Holdings
  | block _ => { live with runs := (result, ufs.sb.bsize) :: live.runs }
  | fragments _ bytes => { live with runs := (result, bytes) :: live.runs }
  | inode _ directory => { live with inodes := (result, directory) :: live.inodes }

/-- The call that gives back what was granted. -/
def undo (ufs : Ufs) (result : ℕ) : AllocCall → Write Unit
  | block _ => freeBlock ufs result
  | fragments _ bytes => freeAllocation ufs result bytes
  | inode _ directory => freeInode ufs result directory

end AllocCall

/-- The images that allocations and frees of what was allocated leave, from a fresh one on. -/
inductive Allocating (ufs : Ufs) : Bytes → Holdings → Prop
  | format {image : Bytes} (h : Formatted ufs image) : Allocating ufs image ⟨[], []⟩
  | allocate {image image' : Bytes} {live : Holdings} (call : AllocCall) {result : ℕ}
      (h : Allocating ufs image live) (hrun : call.run ufs image = (.ok result, image')) :
      Allocating ufs image' (call.add ufs live result)
  | fail {image image' : Bytes} {live : Holdings} (call : AllocCall) {e : Fault}
      (h : Allocating ufs image live) (hrun : call.run ufs image = (.err e, image')) :
      Allocating ufs image' live
  | freeBlock {image image' : Bytes} {live : Holdings} {b : ℕ} (h : Allocating ufs image live)
      (hlive : (b, ufs.sb.bsize) ∈ live.runs) (hrun : freeBlock ufs b image = (.ok (), image')) :
      Allocating ufs image' { live with runs := live.runs.erase (b, ufs.sb.bsize) }
  | freeAllocation {image image' : Bytes} {live : Holdings} {b bytes : ℕ}
      (h : Allocating ufs image live) (hlive : (b, bytes) ∈ live.runs)
      (hrun : freeAllocation ufs b bytes image = (.ok (), image')) :
      Allocating ufs image' { live with runs := live.runs.erase (b, bytes) }
  | freeInode {image image' : Bytes} {live : Holdings} {m : ℕ} {directory : Bool}
      (h : Allocating ufs image live) (hlive : (m, directory) ∈ live.inodes)
      (hrun : freeInode ufs m directory image = (.ok (), image')) :
      Allocating ufs image' { live with inodes := live.inodes.erase (m, directory) }

/-! ## What the image shows -/

/-- Some group has an aligned block in its data area that is marked free throughout. -/
def HasFreeBlock (image : Bytes) (ufs : Ufs) : Prop :=
  ∃ c < ufs.sb.ncg, ∃ i, ufs.sb.dblkno ≤ i ∧ ufs.sb.frag ∣ i ∧
    i + ufs.sb.frag ≤ ufs.sb.groupFrags c ∧
    ∀ o < ufs.sb.frag, fragIsFree image ufs (c * ufs.sb.fpg + i + o) = true

/-- Byte `j` of fragment `f`. -/
def fragByte (image : Bytes) (ufs : Ufs) (f j : ℕ) : UInt8 :=
  image.byte (ufs.sb.dataBlockOffset ufs.startOffset f + j)

def SameFrags (ufs : Ufs) (image image' : Bytes) : Prop :=
  ∀ f, f / ufs.sb.fpg < ufs.sb.ncg → fragIsFree image' ufs f = fragIsFree image ufs f

def SameInodeBits (ufs : Ufs) (image image' : Bytes) : Prop :=
  ∀ m < ufs.sb.inodes, inodeBit image' ufs m = inodeBit image ufs m

def SameData (ufs : Ufs) (image image' : Bytes) : Prop :=
  ∀ f, ufs.sb.IsData f → ∀ j < ufs.sb.fsize, fragByte image' ufs f j = fragByte image ufs f j

/-- The fragments of a grant of `bytes` bytes from fragment `b` on. -/
def Superblock.granted (sb : Superblock) (a : ℕ × ℕ) : Run := (a.1, a.2 / sb.fsize)

/-- `bytes` bytes were granted from fragment `b` on: at the head of a block that was free, apart from
what is held, now marked and cleared. -/
structure Granted (ufs : Ufs) (image image' : Bytes) (live : Holdings) (b bytes : ℕ) : Prop where
  group : b / ufs.sb.fpg < ufs.sb.ncg
  aligned : ufs.sb.frag ∣ b % ufs.sb.fpg
  data : ufs.sb.dblkno ≤ b % ufs.sb.fpg
  inside : b % ufs.sb.fpg + ufs.sb.frag ≤ ufs.sb.groupFrags (b / ufs.sb.fpg)
  wasFree : ∀ o < ufs.sb.frag, fragIsFree image ufs (b + o) = true
  fits : bytes / ufs.sb.fsize ≤ ufs.sb.frag
  apart : ∀ a ∈ live.runs, (ufs.sb.granted (b, bytes)).Apart (ufs.sb.granted a)
  marked : ∀ f, f / ufs.sb.fpg < ufs.sb.ncg → fragIsFree image' ufs f =
    (fragIsFree image ufs f && !decide ((ufs.sb.granted (b, bytes)).Mem f))
  cleared : ∀ f, ufs.sb.IsData f → ∀ j < ufs.sb.fsize, fragByte image' ufs f j =
    if b ≤ f ∧ (f - b) * ufs.sb.fsize + j < bytes then 0 else fragByte image ufs f j
  inodes : SameInodeBits ufs image image'

/-- A request for `bytes` bytes is granted, or fails for want of a free block. -/
structure Serves (ufs : Ufs) (image : Bytes) (live : Holdings) (bytes : ℕ) (request : Write ℕ) :
    Prop where
  no_panic : ∀ image', request image ≠ (.panic, image')
  ok : ∀ b image', request image = (.ok b, image') → Granted ufs image image' live b bytes
  err : (∃ e image', request image = (.err e, image')) ↔ ¬HasFreeBlock image ufs

/-- Inode `m` was granted. -/
structure InodeGranted (ufs : Ufs) (image image' : Bytes) (live : Holdings) (m : ℕ) : Prop where
  ge : 3 ≤ m
  lt : m < ufs.sb.inodes
  wasFree : inodeBit image ufs m = false
  apart : ∀ p ∈ live.inodes, p.1 ≠ m
  marked : ∀ k < ufs.sb.inodes, inodeBit image' ufs k = (inodeBit image ufs k || decide (k = m))
  frags : SameFrags ufs image image'
  contents : SameData ufs image image'

structure ServesInode (ufs : Ufs) (image : Bytes) (live : Holdings) (request : Write ℕ) : Prop where
  no_panic : ∀ image', request image ≠ (.panic, image')
  ok : ∀ m image', request image = (.ok m, image') → InodeGranted ufs image image' live m
  err : (∃ e image', request image = (.err e, image')) ↔
    ∀ m < ufs.sb.inodes, inodeBit image ufs m = true

/-- The run `r`, which was allocated, is free again. -/
structure Released (ufs : Ufs) (image image' : Bytes) (r : Run) : Prop where
  wasHeld : ∀ f, r.Mem f → fragIsFree image ufs f = false
  marked : ∀ f, f / ufs.sb.fpg < ufs.sb.ncg → fragIsFree image' ufs f =
    (fragIsFree image ufs f || decide (r.Mem f))
  contents : SameData ufs image image'
  inodes : SameInodeBits ufs image image'

/-- Inode `m`, which was allocated, is free again. -/
structure InodeReleased (ufs : Ufs) (image image' : Bytes) (m : ℕ) : Prop where
  wasHeld : inodeBit image ufs m = true
  marked : ∀ k < ufs.sb.inodes, inodeBit image' ufs k = (inodeBit image ufs k && !decide (k = m))
  frags : SameFrags ufs image image'
  contents : SameData ufs image image'

/-- The allocator on an image, for a caller who holds `live`. -/
structure AllocatorServes (ufs : Ufs) (image : Bytes) (live : Holdings) : Prop where
  block : ∀ owner, Serves ufs image live ufs.sb.bsize (allocateBlock ufs owner)
  fragments : ∀ owner bytes, ufs.sb.fsize ≤ bytes → bytes < ufs.sb.bsize →
    Serves ufs image live bytes (allocateFragments ufs owner bytes)
  inode : ∀ preferred directory,
    ServesInode ufs image live (allocateInode ufs preferred directory)
  release : ∀ a ∈ live.runs, ∃ image', freeAllocation ufs a.1 a.2 image = (.ok (), image') ∧
    Released ufs image image' (ufs.sb.granted a)
  releaseBlock : ∀ b, (b, ufs.sb.bsize) ∈ live.runs → freeBlock ufs b = freeAllocation ufs b ufs.sb.bsize
  releaseInode : ∀ p ∈ live.inodes, ∃ image', freeInode ufs p.1 p.2 image = (.ok (), image') ∧
    InodeReleased ufs image image' p.1

/-! ## The invariant -/

/-- The bitmaps account for what is held, besides what the file system itself has. -/
structure Accounted (sb : Superblock) (D : Disk) (own : List Run) (live : Holdings)
    (used dirs : Finset ℕ) : Prop where
  space : Space sb D (live.runs.map sb.granted ++ own)
  map : InodeMap sb D used dirs
  reserved : ∀ m < 3, m ∈ used
  inodes : ∀ p ∈ live.inodes, 3 ≤ p.1 ∧ p.1 ∈ used ∧ (p.2 = true ↔ p.1 ∈ dirs)
  distinct : (live.inodes.map Prod.fst).Nodup

section Views
variable {ufs : Ufs} {image image' : Bytes} {D D' : Disk} {runs own : List Run} {live : Holdings}
variable {used dirs : Finset ℕ}

theorem Ufs.Holds.fragByte (h : ufs.Holds image D) {f j : ℕ} (hf : ufs.sb.IsData f)
    (hj : j < ufs.sb.fsize) : UfsFuse.fragByte image ufs f j = D.data (f * 512 + j) := by
  have g := h.geom
  rw [g.fsize_eq] at hj
  obtain ⟨-, rfl⟩ := h
  have hdiv : (f * 512 + j) / 512 = f := by omega
  rw [UfsFuse.fragByte, g.dataBlockOffset_eq]
  simp only [view, hdiv, if_pos hf, Nat.add_assoc]

/-- The free map is what the ledger leaves of the data areas. -/
theorem Space.isFree_iff {sb : Superblock} (h : Space sb D runs) {f : ℕ} (hc : f / sb.fpg < sb.ncg) :
    D.isFree sb f = true ↔ sb.IsData f ∧ ¬Covered runs f := by
  constructor
  · intro hf
    have hd : sb.IsData f := ⟨hc, h.free_data _ hc _ hf⟩
    refine ⟨hd, fun hcov => ?_⟩
    rw [(h.owned f hd).mpr hcov] at hf
    exact Bool.false_ne_true hf
  · rintro ⟨hd, hcov⟩
    rw [← Bool.not_eq_false, h.owned f hd]
    exact hcov

/-- One run more in the ledger. -/
theorem Space.isFree_cons {sb : Superblock} {r : Run} (h : Space sb D runs)
    (h' : Space sb D' (r :: runs)) {f : ℕ} (hc : f / sb.fpg < sb.ncg) :
    D'.isFree sb f = (D.isFree sb f && !decide (r.Mem f)) := by
  rw [Bool.eq_iff_iff, h'.isFree_iff hc, covered_cons, Bool.and_eq_true, h.isFree_iff hc,
    Bool.not_eq_true', decide_eq_false_iff_not]
  tauto

/-- One run less in the ledger. -/
theorem Space.isFree_tail {sb : Superblock} (g : sb.Geometry) {r : Run} (h : Space sb D (r :: runs))
    (h' : Space sb D' runs) {f : ℕ} (hc : f / sb.fpg < sb.ncg) :
    D'.isFree sb f = (D.isFree sb f || decide (r.Mem f)) := by
  rw [Bool.eq_iff_iff, h'.isFree_iff hc, Bool.or_eq_true, h.isFree_iff hc, covered_cons,
    decide_eq_true_iff]
  constructor
  · rintro ⟨hd, hcov⟩
    by_cases hm : r.Mem f
    · exact .inr hm
    · exact .inl ⟨hd, not_or.mpr ⟨hm, hcov⟩⟩
  · intro hf
    cases hf with
    | inl hf => exact ⟨hf.1, fun hcov => hf.2 (.inr hcov)⟩
    | inr hm =>
      refine ⟨((h.isRun r (List.mem_cons_self ..)).isData g hm).1, ?_⟩
      rintro ⟨r', hr', hm'⟩
      exact (List.pairwise_cons.mp h.apart).1 r' hr' f hm hm'

theorem Ufs.Holds.hasFreeBlock (h : ufs.Holds image D) :
    HasFreeBlock image ufs ↔ ∃ c i, FreeBlock ufs.sb D c i := by
  have g := h.geom
  have hfree : ∀ c < ufs.sb.ncg, ∀ i, i + ufs.sb.frag ≤ ufs.sb.groupFrags c → ∀ o < ufs.sb.frag,
      UfsFuse.fragIsFree image ufs (c * ufs.sb.fpg + i + o) = (D.cg c).free (i + o) := by
    intro c hc i hin o ho
    have hlt : i + o < ufs.sb.fpg := by
      have := Superblock.groupFrags_le ufs.sb c
      omega
    have hdiv : (c * ufs.sb.fpg + i + o) / ufs.sb.fpg = c := by
      rw [Nat.add_assoc]
      exact g.frag_div hlt
    have hmod : (c * ufs.sb.fpg + i + o) % ufs.sb.fpg = i + o := by
      rw [Nat.add_assoc]
      exact Superblock.frag_mod hlt
    rw [h.fragIsFree_group (by rw [hdiv]; exact hc), Disk.isFree, hdiv, hmod]
  constructor
  · rintro ⟨c, hc, i, hlo, hal, hin, hall⟩
    exact ⟨c, i, hc, hlo, hal, hin, fun o ho => hfree c hc i hin o ho ▸ hall o ho⟩
  · rintro ⟨c, i, hc, hlo, hal, hin, hall⟩
    exact ⟨c, hc, i, hlo, hal, hin, fun o ho => (hfree c hc i hin o ho).trans (hall o ho)⟩

theorem Ufs.Holds.sameInodeBits (h : ufs.Holds image D) (h' : ufs.Holds image' D')
    (hcore : ∀ c, (D'.cg c).core = (D.cg c).core) : SameInodeBits ufs image image' := by
  intro m hm
  have hused : (D'.cg (m / ufs.sb.ipg)).core.used = (D.cg (m / ufs.sb.ipg)).core.used := by
    rw [hcore]
  rw [h.inodeBit hm, h'.inodeBit hm]
  exact congrFun hused _

theorem Ufs.Holds.sameData (h : ufs.Holds image D) (h' : ufs.Holds image' D')
    (hdata : D'.data = D.data) : SameData ufs image image' := by
  intro f hf j hj
  rw [h.fragByte hf hj, h'.fragByte hf hj, hdata]

theorem InodeOnly.sameFrags (ho : InodeOnly D D') (h : ufs.Holds image D)
    (h' : ufs.Holds image' D') : SameFrags ufs image image' := by
  intro f hc
  rw [h.fragIsFree_group hc, h'.fragIsFree_group hc, Disk.isFree, Disk.isFree, ho.free]

theorem InodeMap.inodeBit {m : ℕ} (hm : InodeMap ufs.sb D used dirs) (h : ufs.Holds image D)
    (hlt : m < ufs.sb.inodes) : UfsFuse.inodeBit image ufs m = decide (m ∈ used) := by
  rw [h.inodeBit hlt, Bool.eq_iff_iff, decide_eq_true_iff]
  exact hm.mem m hlt

end Views

/-! ## What each call does -/
section Calls
variable {ufs : Ufs} {image image' : Bytes} {D D' : Disk} {own : List Run} {live : Holdings}
variable {used dirs : Finset ℕ} {b bytes m : ℕ} {directory : Bool}

theorem Disk.takeRun_core {sb : Superblock} (D : Disk) (c i count bytes c' : ℕ) :
    ((D.takeRun sb c i count bytes).cg c').core = (D.cg c').core :=
  (@Disk.account_spaceOnly D c _ (bump D.total.nbfree (-1)) (by rfl)).core c'

theorem Superblock.Geometry.granted_eq {sb : Superblock} (g : sb.Geometry) (b bytes : ℕ) :
    sb.granted (b, bytes) = (b, bytes / 512) := by
  rw [Superblock.granted, g.fsize_eq]

theorem Accounted.grant (g : ufs.sb.Geometry) (ha : Accounted ufs.sb D own live used dirs) {c i : ℕ}
    (hb : FreeBlock ufs.sb D c i) (hlo : ufs.sb.fsize ≤ bytes) (hhi : bytes ≤ ufs.sb.bsize) :
    Accounted ufs.sb (D.takeRun ufs.sb c i (bytes / 512) bytes) own
      { live with runs := (c * ufs.sb.fpg + i, bytes) :: live.runs } used dirs := by
  have hbs := g.bsize_eq
  have hfs := g.fsize_eq
  refine ⟨?_, ?_, ha.reserved, ha.inodes, ha.distinct⟩
  · have hs := ha.space.alloc g hb (show 0 < bytes / 512 by omega) (by omega)
    rw [List.map_cons, g.granted_eq]
    exact hs.congr rfl rfl
  · exact ha.map.congr (fun c' => D.takeRun_core c i _ _ c') rfl

/-- What a grant shows on the image. -/
theorem Accounted.granted (ha : Accounted ufs.sb D own live used dirs) {c i : ℕ}
    (hb : FreeBlock ufs.sb D c i) (hlo : ufs.sb.fsize ≤ bytes) (hhi : bytes ≤ ufs.sb.bsize)
    (hi : ufs.Holds image D) (hi' : ufs.Holds image' (D.takeRun ufs.sb c i (bytes / 512) bytes)) :
    Granted ufs image image' live (c * ufs.sb.fpg + i) bytes := by
  have g := hi.geom
  have hbs := g.bsize_eq
  have hfs := g.fsize_eq
  have hgl := Superblock.groupFrags_le ufs.sb c
  have hin := hb.inside
  have hfrag := g.frag_pos
  have hdiv := g.frag_div (show i < ufs.sb.fpg by omega) (c := c)
  have hmod := Superblock.frag_mod (show i < ufs.sb.fpg by omega) (c := c)
  have hspace := (ha.grant g hb hlo hhi).space
  rw [List.map_cons, List.cons_append] at hspace
  constructor
  · rw [hdiv]
    exact hb.group
  · rw [hmod]
    exact hb.aligned
  · rw [hmod]
    exact hb.data
  · rw [hmod, hdiv]
    exact hin
  · intro o ho
    have hdiv' := g.frag_div (show i + o < ufs.sb.fpg by omega) (c := c)
    have hmod' := Superblock.frag_mod (show i + o < ufs.sb.fpg by omega) (c := c)
    rw [Nat.add_assoc, hi.fragIsFree_group (by rw [hdiv']; exact hb.group), Disk.isFree, hdiv', hmod']
    exact hb.free o ho
  · rw [hfs]
    omega
  · intro a hmem
    exact (List.pairwise_cons.mp hspace.apart).1 _
      (List.mem_append_left _ (List.mem_map_of_mem hmem))
  · intro f hc
    rw [hi.fragIsFree_group hc, hi'.fragIsFree_group hc]
    exact ha.space.isFree_cons hspace hc
  · intro f hf j hj
    rw [hi.fragByte hf hj, hi'.fragByte hf hj]
    rw [hfs] at hj ⊢
    simp only [Disk.takeRun, Disk.write, Bytes.zeros_length, Disk.account_data]
    have hiff : ((c * ufs.sb.fpg + i) * 512 ≤ f * 512 + j ∧
        f * 512 + j < (c * ufs.sb.fpg + i) * 512 + bytes) ↔
        (c * ufs.sb.fpg + i ≤ f ∧ (f - (c * ufs.sb.fpg + i)) * 512 + j < bytes) := by
      omega
    by_cases h : c * ufs.sb.fpg + i ≤ f ∧ (f - (c * ufs.sb.fpg + i)) * 512 + j < bytes
    · rw [if_pos h, if_pos (hiff.mpr h), Bytes.byte_zeros]
    · rw [if_neg h, if_neg (mt hiff.mp h)]
  · exact hi.sameInodeBits hi' fun c' => D.takeRun_core c i _ _ c'

/-- A request goes to the group loop. -/
theorem Accounted.request (g : ufs.sb.Geometry) (ha : Accounted ufs.sb D own live used dirs)
    (hlo : ufs.sb.fsize ≤ bytes) (hhi : bytes ≤ ufs.sb.bsize) {owner : ℕ} {failure : Fault} :
    (allocateRun ufs owner (bytes / 512) bytes failure).hoare ufs.Holds D
      (fun b D' => Accounted ufs.sb D' own { live with runs := (b, bytes) :: live.runs } used dirs ∧
        ∀ image image', ufs.Holds image D → ufs.Holds image' D' →
          Granted ufs image image' live b bytes)
      (Unchanged ufs D (∀ c i, ¬FreeBlock ufs.sb D c i)) := by
  have hbs := g.bsize_eq
  refine (allocateRun_takes g ha.space (by omega) hhi).post ?_
  rintro b D' ⟨c, i, hb, rfl, rfl⟩
  exact ⟨ha.grant g hb hlo hhi, fun image image' hi hi' => ha.granted hb hlo hhi hi hi'⟩

theorem Superblock.Geometry.allocateBlock_eq (g : ufs.sb.Geometry) (owner : ℕ) :
    allocateBlock ufs owner =
      allocateRun ufs owner (ufs.sb.bsize / 512) ufs.sb.bsize .noFreeBlocks := by
  have hbs := g.bsize_eq
  rw [allocateBlock, show ufs.sb.bsize / 512 = ufs.sb.frag by omega]

theorem Superblock.Geometry.allocateFragments_eq (g : ufs.sb.Geometry) (owner : ℕ)
    (hlo : ufs.sb.fsize ≤ bytes) (hhi : bytes < ufs.sb.bsize) :
    allocateFragments ufs owner bytes =
      allocateRun ufs owner (bytes / 512) bytes .noFreeFragments := by
  have hfs := g.fsize_eq
  unfold allocateFragments
  dsimp only
  rw [hfs, if_neg (by omega)]

theorem Serves.of_request (hi : ufs.Holds image D) {request : Write ℕ} (hreq : request.hoare ufs.Holds D
      (fun b D' => Accounted ufs.sb D' own { live with runs := (b, bytes) :: live.runs } used dirs ∧
        ∀ image image', ufs.Holds image D → ufs.Holds image' D' →
          Granted ufs image image' live b bytes)
      (Unchanged ufs D (∀ c i, ¬FreeBlock ufs.sb D c i))) : Serves ufs image live bytes request where
  no_panic _ := hreq.no_panic hi
  ok b image' hrun := by
    obtain ⟨D', hi', -, hg⟩ := hreq.ok hi hrun
    exact hg image image' hi hi'
  err := by
    rw [hi.hasFreeBlock]
    constructor
    · rintro ⟨e, image', hrun⟩ ⟨c, i, hb⟩
      exact (hreq.err hi hrun).2 c i hb
    · intro hnone
      cases (hreq.run image hi).ok_or_err with
      | inr herr =>
        obtain ⟨e, image', hrun, -⟩ := herr
        exact ⟨e, image', hrun⟩
      | inl hok =>
        obtain ⟨b, image', -, D', hi', -, hg⟩ := hok
        have hgr := hg image image' hi hi'
        have hdm := Nat.div_add_mod' b ufs.sb.fpg
        refine absurd (hi.hasFreeBlock.mp ⟨_, hgr.group, _, hgr.data, hgr.aligned, hgr.inside, ?_⟩) hnone
        intro o ho
        rw [hdm]
        exact hgr.wasFree o ho

/-- An inode that is taken. -/
theorem Accounted.takeInode (ha : Accounted ufs.sb D own live used dirs)
    (ht : TookInode ufs.sb D D' used dirs directory m) :
    Accounted ufs.sb D' own { live with inodes := (m, directory) :: live.inodes }
      (insert m used) (if directory then insert m dirs else dirs) := by
  have hdirs : ∀ k, k ≠ m → (k ∈ (if directory then insert m dirs else dirs) ↔ k ∈ dirs) := by
    intro k hk
    split_ifs
    · simp [hk]
    · exact Iff.rfl
  refine ⟨ht.only.space ha.space, ht.map, fun k hk => Finset.mem_insert_of_mem (ha.reserved k hk),
    ?_, ?_⟩
  · intro p hp
    cases List.mem_cons.mp hp with
    | inl he =>
      rw [he]
      refine ⟨?_, Finset.mem_insert_self _ _, ?_⟩
      · rw [← not_lt]
        exact fun hlt => ht.fresh (ha.reserved m hlt)
      · cases directory with
        | true => simp
        | false => simpa using fun h => ht.fresh (ha.map.dirs_sub h)
    | inr hp =>
      obtain ⟨hge, hmem, hdir⟩ := ha.inodes p hp
      have hne : p.1 ≠ m := fun he => ht.fresh (he ▸ hmem)
      exact ⟨hge, Finset.mem_insert_of_mem hmem, hdir.trans (hdirs p.1 hne).symm⟩
  · rw [List.map_cons, List.nodup_cons]
    refine ⟨fun hmem => ?_, ha.distinct⟩
    obtain ⟨p, hp, he⟩ := List.mem_map.mp hmem
    have hused := (ha.inodes p hp).2.1
    rw [show p.1 = m from he] at hused
    exact ht.fresh hused

theorem Accounted.inodeGranted (ha : Accounted ufs.sb D own live used dirs)
    (ht : TookInode ufs.sb D D' used dirs directory m) (hi : ufs.Holds image D)
    (hi' : ufs.Holds image' D') : InodeGranted ufs image image' live m := by
  refine ⟨?_, ht.lt, ?_, ?_, ?_, ht.only.sameFrags hi hi', hi.sameData hi' ht.only.data⟩
  · rw [← not_lt]
    exact fun hlt => ht.fresh (ha.reserved m hlt)
  · rw [ha.map.inodeBit hi ht.lt]
    exact decide_eq_false ht.fresh
  · intro p hp he
    exact ht.fresh (he ▸ (ha.inodes p hp).2.1)
  · intro k hk
    rw [ha.map.inodeBit hi hk, ht.map.inodeBit hi' hk, Bool.eq_iff_iff]
    simp [Finset.mem_insert, or_comm]

theorem InodeMap.full_iff (h : InodeMap ufs.sb D used dirs) (hi : ufs.Holds image D) :
    used.card = ufs.sb.inodes ↔ ∀ k < ufs.sb.inodes, UfsFuse.inodeBit image ufs k = true := by
  have hsub : used ⊆ Finset.range ufs.sb.inodes := fun k hk => Finset.mem_range.mpr (h.inRange k hk)
  constructor
  · intro hcard k hk
    have hall := Finset.eq_of_subset_of_card_le hsub (by rw [Finset.card_range, hcard])
    rw [h.inodeBit hi hk, hall]
    exact decide_eq_true (Finset.mem_range.mpr hk)
  · intro hall
    have heq : used = Finset.range ufs.sb.inodes := by
      refine Finset.Subset.antisymm hsub fun k hk => ?_
      have hset := hall k (Finset.mem_range.mp hk)
      rw [h.inodeBit hi (Finset.mem_range.mp hk)] at hset
      exact of_decide_eq_true hset
    rw [heq, Finset.card_range]

theorem Accounted.servesInode (ha : Accounted ufs.sb D own live used dirs) (hi : ufs.Holds image D)
    (preferred : Option ℕ) (directory : Bool) :
    ServesInode ufs image live (allocateInode ufs preferred directory) := by
  have hreq := @allocateInode_hoare ufs D used dirs hi.geom ha.map preferred directory
  constructor
  · exact fun _ => hreq.no_panic hi
  · intro m image' hrun
    obtain ⟨D', hi', ht⟩ := hreq.ok hi hrun
    exact ha.inodeGranted ht hi hi'
  · rw [← ha.map.full_iff hi]
    constructor
    · rintro ⟨e, image', hrun⟩
      exact (hreq.err hi hrun).2
    · intro hfull
      cases (hreq.run image hi).ok_or_err with
      | inr herr =>
        obtain ⟨e, image', hrun, -⟩ := herr
        exact ⟨e, image', hrun⟩
      | inl hok =>
        obtain ⟨m, image', -, D', hi', ht⟩ := hok
        have hset := (ha.map.full_iff hi).mp hfull m ht.lt
        rw [(ha.inodeGranted ht hi hi').wasFree] at hset
        exact absurd hset Bool.false_ne_true

/-- A run that is given back. -/
theorem Accounted.release_hoare (g : ufs.sb.Geometry) (ha : Accounted ufs.sb D own live used dirs)
    (hmem : (b, bytes) ∈ live.runs) :
    (freeAllocation ufs b bytes).hoare ufs.Holds D
      (fun _ D' => Accounted ufs.sb D' own { live with runs := live.runs.erase (b, bytes) } used dirs ∧
        ∀ image image', ufs.Holds image D → ufs.Holds image' D' →
          Released ufs image image' (ufs.sb.granted (b, bytes)))
      fun _ _ => False := by
  have hperm := ((List.perm_cons_erase hmem).map ufs.sb.granted).append_right own
  have hspace := ha.space.perm hperm
  rw [List.map_cons, List.cons_append, g.granted_eq] at hspace
  refine (freeAllocation_hoare g hspace).post ?_
  rintro - D' ⟨hspace', ho⟩
  refine ⟨⟨hspace', ha.map.congr ho.core ho.total, ha.reserved, ha.inodes, ha.distinct⟩, ?_⟩
  intro image image' hi hi'
  have hdata : D'.data = D.data := funext fun a => ho.data a not_covered_nil
  rw [g.granted_eq]
  refine ⟨fun f hf => ?_, fun f hc => ?_, hi.sameData hi' hdata, hi.sameInodeBits hi' ho.core⟩
  · have hrun := (hspace.isRun _ (List.mem_cons_self ..)).isData g hf
    rw [hi.fragIsFree hrun.1]
    exact hspace.release_isData g hf
  · rw [hi.fragIsFree_group hc, hi'.fragIsFree_group hc]
    exact hspace.isFree_tail g hspace' hc

theorem ne_of_mem_erase {l : List (ℕ × Bool)} (h : (l.map Prod.fst).Nodup) {p q : ℕ × Bool}
    (hq : q ∈ l) (hp : p ∈ l.erase q) : p.1 ≠ q.1 := by
  have hperm := (List.perm_cons_erase hq).map Prod.fst
  rw [hperm.nodup_iff, List.map_cons, List.nodup_cons] at h
  exact fun he => h.1 (he ▸ List.mem_map_of_mem hp)

/-- An inode that is given back. -/
theorem Accounted.releaseInode_hoare (g : ufs.sb.Geometry)
    (ha : Accounted ufs.sb D own live used dirs) (hmem : (m, directory) ∈ live.inodes) :
    (freeInode ufs m directory).hoare ufs.Holds D
      (fun _ D' => Accounted ufs.sb D' own { live with inodes := live.inodes.erase (m, directory) }
          (used.erase m) (dirs.erase m) ∧
        ∀ image image', ufs.Holds image D → ufs.Holds image' D' → InodeReleased ufs image image' m)
      fun _ _ => False := by
  obtain ⟨hge, hused, hdir⟩ := ha.inodes _ hmem
  refine (freeInode_hoare g ha.map hused hdir).post ?_
  rintro - D' ⟨hmap, ho⟩
  have hlt := ha.map.inRange m hused
  refine ⟨⟨ho.space ha.space, hmap, fun k hk => ?_, fun p hp => ?_, ?_⟩, ?_⟩
  · exact Finset.mem_erase.mpr ⟨by dsimp only at hge; omega, ha.reserved k hk⟩
  · obtain ⟨hge', hused', hdir'⟩ := ha.inodes p (List.mem_of_mem_erase hp)
    have hne := ne_of_mem_erase ha.distinct hmem hp
    exact ⟨hge', Finset.mem_erase.mpr ⟨hne, hused'⟩, hdir'.trans
      ⟨fun h => Finset.mem_erase.mpr ⟨hne, h⟩, Finset.mem_of_mem_erase⟩⟩
  · exact ha.distinct.sublist (List.Sublist.map Prod.fst List.erase_sublist)
  · intro image image' hi hi'
    refine ⟨?_, fun k hk => ?_, ho.sameFrags hi hi', hi.sameData hi' ho.data⟩
    · rw [ha.map.inodeBit hi hlt]
      exact decide_eq_true hused
    · rw [ha.map.inodeBit hi hk, hmap.inodeBit hi' hk, Bool.eq_iff_iff]
      simp [Finset.mem_erase, and_comm]

end Calls

/-! ## Runs -/
section Runs
variable {ufs : Ufs} {image image' : Bytes} {D : Disk} {own : List Run} {live : Holdings}
variable {used dirs : Finset ℕ}

theorem Formatted.accounted (h : Formatted ufs image) :
    ∃ D own used dirs, ufs.Holds image D ∧ Accounted ufs.sb D own ⟨[], []⟩ used dirs := by
  obtain ⟨T, ⟨D, own, hi, hv⟩, hc, -⟩ := h.fresh
  refine ⟨D, _, T.used, T.dirs, hi, hv.space, hv.map, fun m hm => ?_, ?_, List.nodup_nil⟩
  · have hroot : ufsRootInode ∈ T.live := hc.live ▸ Finset.mem_singleton_self _
    have hcases : m = 0 ∨ m = 1 ∨ m = ufsRootInode := by
      simp only [ufsRootInode]
      omega
    obtain rfl | rfl | rfl := hcases
    · exact Finset.mem_union_left _ hv.reserved_zero
    · exact Finset.mem_union_left _ hv.reserved_one
    · exact Finset.mem_union_right _ hroot
  · exact fun p hp => absurd hp List.not_mem_nil

/-- An allocating call keeps the accounts, also when it fails. -/
theorem Accounted.call_hoare (g : ufs.sb.Geometry) (ha : Accounted ufs.sb D own live used dirs)
    (call : AllocCall) :
    (call.run ufs).hoare ufs.Holds D
      (fun r D' => ∃ used' dirs', Accounted ufs.sb D' own (call.add ufs live r) used' dirs')
      fun _ image' => ufs.Holds image' D := by
  have hbs := g.bsize_eq
  have hfs := g.fsize_eq
  have hfrag := g.frag_pos
  cases call with
  | block owner =>
    rw [AllocCall.run, g.allocateBlock_eq]
    exact (ha.request g (by omega) le_rfl).mono (fun b D' hr => ⟨used, dirs, hr.1⟩) fun e t h => h.1
  | fragments owner bytes =>
    rw [AllocCall.run]
    by_cases hsize : ufs.sb.fsize ≤ bytes ∧ bytes < ufs.sb.bsize
    · rw [g.allocateFragments_eq owner hsize.1 hsize.2]
      exact (ha.request g hsize.1 hsize.2.le).mono (fun b D' hr => ⟨used, dirs, hr.1⟩)
        fun e t h => h.1
    · unfold allocateFragments
      dsimp only
      rw [hfs, if_pos (by omega)]
      exact Act.hoare_fail fun image hi => hi
  | inode preferred directory =>
    exact (allocateInode_hoare g ha.map).mono (fun m D' ht => ⟨_, _, ha.takeInode ht⟩) fun e t h => h.1

theorem freeBlock_eq (g : ufs.sb.Geometry) (b : ℕ) :
    freeBlock ufs b = freeAllocation ufs b ufs.sb.bsize := by
  have hbs := g.bsize_eq
  have hfrag := g.frag_pos
  rw [freeAllocation, if_neg (by omega), if_pos rfl]

/-- The accounts are right in every image that is reached. -/
theorem Allocating.accounted (h : Allocating ufs image live) :
    ∃ D own used dirs, ufs.Holds image D ∧ Accounted ufs.sb D own live used dirs := by
  induction h with
  | format h => exact h.accounted
  | allocate call _ hrun ih =>
    obtain ⟨D, own, used, dirs, hi, ha⟩ := ih
    obtain ⟨D', hi', used', dirs', ha'⟩ := (ha.call_hoare hi.geom call).ok hi hrun
    exact ⟨D', own, used', dirs', hi', ha'⟩
  | fail call _ hrun ih =>
    obtain ⟨D, own, used, dirs, hi, ha⟩ := ih
    exact ⟨D, own, used, dirs, (ha.call_hoare hi.geom call).err hi hrun, ha⟩
  | freeBlock _ hlive hrun ih =>
    obtain ⟨D, own, used, dirs, hi, ha⟩ := ih
    rw [freeBlock_eq hi.geom] at hrun
    obtain ⟨D', hi', ha', -⟩ := (ha.release_hoare hi.geom hlive).ok hi hrun
    exact ⟨D', own, used, dirs, hi', ha'⟩
  | freeAllocation _ hlive hrun ih =>
    obtain ⟨D, own, used, dirs, hi, ha⟩ := ih
    obtain ⟨D', hi', ha', -⟩ := (ha.release_hoare hi.geom hlive).ok hi hrun
    exact ⟨D', own, used, dirs, hi', ha'⟩
  | freeInode _ hlive hrun ih =>
    obtain ⟨D, own, used, dirs, hi, ha⟩ := ih
    obtain ⟨D', hi', ha', -⟩ := (ha.releaseInode_hoare hi.geom hlive).ok hi hrun
    exact ⟨D', own, _, _, hi', ha'⟩

theorem Accounted.allocatorServes (ha : Accounted ufs.sb D own live used dirs)
    (hi : ufs.Holds image D) : AllocatorServes ufs image live := by
  have g := hi.geom
  have hbs := g.bsize_eq
  have hfs := g.fsize_eq
  have hfrag := g.frag_pos
  refine ⟨fun owner => ?_, fun owner bytes hlo hhi => ?_, ha.servesInode hi, fun a hmem => ?_,
    fun b _ => freeBlock_eq g b, fun p hmem => ?_⟩
  · rw [g.allocateBlock_eq]
    exact Serves.of_request hi (ha.request g (by omega) le_rfl)
  · rw [g.allocateFragments_eq owner hlo hhi]
    exact Serves.of_request hi (ha.request g hlo hhi.le)
  · cases ((ha.release_hoare g hmem).run image hi).ok_or_err with
    | inl hok =>
      obtain ⟨_, image', hrun, D', hi', -, hr⟩ := hok
      exact ⟨image', hrun, hr image image' hi hi'⟩
    | inr herr =>
      obtain ⟨e, image', -, hfalse⟩ := herr
      exact hfalse.elim
  · cases ((ha.releaseInode_hoare g hmem).run image hi).ok_or_err with
    | inl hok =>
      obtain ⟨_, image', hrun, D', hi', -, hr⟩ := hok
      exact ⟨image', hrun, hr image image' hi hi'⟩
    | inr herr =>
      obtain ⟨e, image', -, hfalse⟩ := herr
      exact hfalse.elim

/-- Only requests of a fragment or more, but less than a block, are granted fragments. -/
theorem allocateFragments_size {owner bytes b : ℕ}
    (h : allocateFragments ufs owner bytes image = (.ok b, image')) :
    ufs.sb.fsize ≤ bytes ∧ bytes < ufs.sb.bsize := by
  unfold allocateFragments at h
  split_ifs at h with hsize
  · cases h
  · rw [not_or] at hsize
    refine ⟨?_, not_le.mp hsize.2⟩
    rw [← not_lt]
    exact fun hlt => hsize.1 (Nat.div_eq_of_lt hlt)

theorem Serves.exists_ok {bytes : ℕ} {request : Write ℕ}
    (h : Serves ufs image live bytes request) (hfree : HasFreeBlock image ufs) :
    ∃ b image', request image = (.ok b, image') := by
  cases hcall : request image with
  | mk outcome image' =>
    cases outcome with
    | ok b => exact ⟨b, image', rfl⟩
    | err e => exact absurd hfree (h.err.mp ⟨e, image', hcall⟩)
    | panic => exact absurd hcall (h.no_panic image')

theorem Granted.restored {image'' : Bytes} {b bytes : ℕ}
    (hg : Granted ufs image image' live b bytes)
    (hr : Released ufs image' image'' (ufs.sb.granted (b, bytes))) :
    SameFrags ufs image image'' ∧ SameInodeBits ufs image image'' := by
  constructor
  · intro f hc
    rw [hr.marked f hc, hg.marked f hc]
    by_cases hm : (ufs.sb.granted (b, bytes)).Mem f
    · obtain ⟨hlo, hhi⟩ := id hm
      simp only [Superblock.granted] at hlo hhi
      have hwas := hg.wasFree (f - b) (by have := hg.fits; omega)
      rw [Nat.add_sub_cancel' hlo] at hwas
      rw [hwas, decide_eq_true hm, Bool.or_true]
    · rw [decide_eq_false hm, Bool.or_false, Bool.not_false, Bool.and_true]
  · exact fun m hm => (hr.inodes m hm).trans (hg.inodes m hm)

theorem InodeGranted.restored {image'' : Bytes} {m : ℕ} (hg : InodeGranted ufs image image' live m)
    (hr : InodeReleased ufs image' image'' m) :
    SameFrags ufs image image'' ∧ SameInodeBits ufs image image'' := by
  constructor
  · exact fun f hc => (hr.frags f hc).trans (hg.frags f hc)
  · intro k hk
    rw [hr.marked k hk, hg.marked k hk]
    by_cases hkm : k = m
    · rw [hkm, hg.wasFree, decide_eq_true rfl, Bool.not_true, Bool.and_false]
    · rw [decide_eq_false hkm, Bool.or_false, Bool.not_false, Bool.and_true]

theorem blankImage_hasFreeBlock : HasFreeBlock blankImage blankUfs := by
  obtain ⟨T, hst, hc, -, hsize⟩ := blankImage_formatted.fresh
  have hroom := blank_room_zero hst hc.live hsize
  have hfree := hst.freeBlocks
  have g := hst.geom
  obtain ⟨D, own, hi, hv⟩ := hst
  have hpos : 0 < D.total.nbfree := by
    rw [hv.nbfree_eq g]
    omega
  exact hi.hasFreeBlock.mpr (hv.space.nbfree_pos g hpos)

end Runs
end UfsFuse
