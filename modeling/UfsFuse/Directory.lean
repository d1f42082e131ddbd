import UfsFuse.DirInsert
import UfsFuse.Stores

/-!
# Directories

A directory is a live inode whose body is a chain of blocks. Its entries are the live records of
these blocks, in order. Lookup, removal, relinking and insertion act on this list.
-/
namespace UfsFuse

/-- The body of a directory with these entries. -/
def Directory (body : Bytes) (es : List Entry) : Prop :=
  ∃ blocks, Chains body blocks ∧ blocks ≠ [] ∧ entriesOf blocks.flatten = es

/-- New bytes in place of the old ones. -/
def Table.setBody (T : Table) (n : ℕ) (body : Bytes) : Table :=
  T.setFile n ⟨(T.file n).inode, body⟩ T.room

theorem Disk.write_bytes_self (D : Disk) (addr len : ℕ) : D.write addr (D.bytes addr len) = D := by
  apply Disk.ext
  · rfl
  · rfl
  · rfl
  · funext a
    simp only [write, bytes_length]
    split_ifs with h
    · rw [bytes_byte _ (by omega)]
      congr 1
      omega
    · rfl

/-- The bytes of a range inside one block of a file. -/
theorem Disk.body_slice {sb : Superblock} {D : Disk} {sizes data : List ℕ} {size k b o len : ℕ}
    (hc : sb.Covers sizes size) (hl : data.length = sizes.length)
    (hap : (dataRuns data sizes).Pairwise Run.Apart) (hk : data[k]? = some b)
    (ho : o + len ≤ min sb.bsize (size - k * sb.bsize))
    (hin : k * sb.bsize + o + len ≤ size) :
    (D.body sb data size).slice (k * sb.bsize + o) len = D.bytes (b * 512 + o) len := by
  have hlen : (D.bytes (b * 512 + o) len).length = len := D.bytes_length _ _
  have hw := @Disk.body_write sb D (D.bytes (b * 512 + o) len) sizes data size k b o hc hl hap hk
    (by rw [hlen]; exact ho)
  rw [Disk.write_bytes_self] at hw
  have hs := @Bytes.slice_overlay_same (D.body sb data size) (D.bytes (b * 512 + o) len)
    (k * sb.bsize + o) (by rw [hlen, Disk.body_length hc hl]; exact hin)
  rwa [← hw, hlen] at hs

/-- The run that holds block `j` of a file. -/
theorem Volume.runAt {sb : Superblock} {D : Disk} {own : ℕ → Owned} {T : Table} {n j b : ℕ}
    (g : sb.Geometry) (hv : Volume sb D own T) (hn : n ∈ T.live) (hj : (own n).data[j]? = some b) :
    ∃ s, 0 < s ∧ 512 ∣ s ∧ min sb.bsize ((T.file n).body.length - j * sb.bsize) ≤ s ∧
      (b, s / 512) ∈ dataRuns (own n).data (sb.allocationByteSizes (D.ino n).size) := by
  have hl := hv.laid n hn
  have hs : (D.ino n).size = (T.file n).body.length := by
    rw [hv.body_length g hn, hv.inode n hn]
  have hjl : j < (own n).data.length := (List.getElem?_eq_some_iff.mp hj).1
  have hb : (own n).data[j] = b := (List.getElem?_eq_some_iff.mp hj).2
  have hjs : j < (sb.allocationByteSizes (D.ino n).size).length := hl.sizes_length g ▸ hjl
  obtain ⟨-, ⟨hs0, -, hsd⟩, hsz, -⟩ : sb.Covers
      ((sb.allocationByteSizes (D.ino n).size)[j] ::
        (sb.allocationByteSizes (D.ino n).size).drop (j + 1)) ((D.ino n).size - j * sb.bsize) := by
    rw [← List.drop_eq_getElem_cons hjs]
    exact (hl.covers g).drop j
  rw [← hs]
  refine ⟨_, hs0, hsd, hsz, List.mem_iff_getElem?.mpr ⟨j, ?_⟩⟩
  simp [dataRuns, hjl, hjs, hb]

/-- Data runs, pointer runs and the runs of other files are apart. -/
theorem Volume.apart_at {sb : Superblock} {D : Disk} {own : ℕ → Owned} {T : Table} {n : ℕ}
    (hv : Volume sb D own T) (hn : n ∈ T.live) :
    (dataRuns (own n).data (sb.allocationByteSizes (D.ino n).size)).Pairwise Run.Apart ∧
      ∀ r ∈ dataRuns (own n).data (sb.allocationByteSizes (D.ino n).size),
        ∀ q ∈ blockRuns sb (own n).ptrs ++ ledger sb D own (T.live.erase n), r.Apart q := by
  have hp := (hv.space_at hn).apart
  rw [Owned.runs_eq, List.append_assoc] at hp
  obtain ⟨h1, -, h2⟩ := List.pairwise_append.mp hp
  exact ⟨h1, h2⟩

/-- Writing inside one block of a file changes its body in that range, and no other file. -/
theorem Volume.writeBlock {sb : Superblock} {D : Disk} {own : ℕ → Owned} {T : Table} {n j b o : ℕ}
    {src : Bytes} (g : sb.Geometry) (hv : Volume sb D own T) (hn : n ∈ T.live)
    (hj : (own n).data[j]? = some b)
    (ho : o + src.length ≤ min sb.bsize ((T.file n).body.length - j * sb.bsize)) :
    Volume sb (D.write (b * 512 + o) src) own
        (T.setBody n ((T.file n).body.overlay (j * sb.bsize + o) src)) ∧
      Beside sb own T.live n D (D.write (b * 512 + o) src) := by
  have hl := hv.laid n hn
  have hs : (D.ino n).size = (T.file n).body.length := by
    rw [hv.body_length g hn, hv.inode n hn]
  obtain ⟨hapart, hothers⟩ := hv.apart_at hn
  obtain ⟨s, -, hsd, hsz, hmem⟩ := hv.runAt g hn hj
  have hin : ∀ a, b * 512 + o ≤ a → a < b * 512 + o + src.length → Run.Mem (b, s / 512) (a / 512) :=
    fun a h1 h2 => Disk.mem_run le_rfl hsd ((Nat.le_add_right _ _).trans h1) (by lia)
  have honly := @Disk.write_dataOnly D (b * 512 + o) src _ fun a h1 h2 => ⟨_, hmem, hin a h1 h2⟩
  have hkeep : ∀ q ∈ blockRuns sb (own n).ptrs ++ ledger sb D own (T.live.erase n), ∀ a,
      Run.Mem q (a / 512) → (D.write (b * 512 + o) src).data a = D.data a := by
    intro q hq a ha
    refine honly.data a ?_
    rintro ⟨r, hr, hra⟩
    exact hothers r hr q hq _ hra ha
  have hrep : Replaced sb D (D.write (b * 512 + o) src) n (own n)
      (ledger sb D own (T.live.erase n)) := by
    refine ⟨honly.space (hv.space_at hn), hl.congr fun p hp => Disk.bytes_congr fun a h1 h2 => ?_,
      hv.blocks n hn, fun _ _ => rfl, fun _ => rfl, rfl, ?_⟩
    · have hb := g.bsize_eq
      refine hkeep (p, sb.frag) (List.mem_append_left _ (mem_blockRuns hp)) a ⟨?_, ?_⟩
      · simp only
        omega
      · simp only
        omega
    · rintro a ⟨q, hq, hqa⟩
      exact hkeep q (List.mem_append_right _ hq) a hqa
  have hcont : (D.write (b * 512 + o) src).contents sb ((D.write (b * 512 + o) src).ino n) (own n) =
      (T.file n).body.overlay (j * sb.bsize + o) src := by
    rw [Disk.write_ino, Disk.contents, Disk.body_write (hl.covers g) (hl.sizes_length g) hapart hj
      (by rw [hs]; exact ho), ← hv.body n hn]
    rfl
  have h := hv.replaced_same g hn hrep rfl hcont
  rw [Function.update_eq_self, Disk.write_ino, hv.inode n hn] at h
  exact ⟨h, hrep.beside⟩

/-- A directory block lies within one block of the file system. -/
theorem Superblock.Geometry.dirBlock_fits {sb : Superblock} (g : sb.Geometry) (k : ℕ) :
    k * ufsDirblksiz % sb.bsize + ufsDirblksiz ≤ sb.bsize := by
  have hb := g.bsize_eq
  have hf := g.frag_pos
  have hm := Nat.mod_lt k (by omega : 0 < sb.frag)
  rw [hb, ufsDirblksiz, Nat.mul_mod_mul_right]
  lia

/-- Where block `k` of a directory lies, and what writing it does. -/
structure BlockAt (sb : Superblock) (D : Disk) (own : ℕ → Owned) (T : Table) (n k b : ℕ) : Prop where
  found : (own n).data[k * ufsDirblksiz / sb.bsize]? = some b
  inData : sb.InData (b * 512 + k * ufsDirblksiz % sb.bsize) ufsDirblksiz
  bytes : D.bytes (b * 512 + k * ufsDirblksiz % sb.bsize) ufsDirblksiz =
    (T.file n).body.slice (k * ufsDirblksiz) ufsDirblksiz
  put : ∀ src : Bytes, src.length = ufsDirblksiz →
    Volume sb (D.write (b * 512 + k * ufsDirblksiz % sb.bsize) src) own
        (T.setBody n ((T.file n).body.overlay (k * ufsDirblksiz) src)) ∧
      Beside sb own T.live n D (D.write (b * 512 + k * ufsDirblksiz % sb.bsize) src)

theorem Volume.blockAt {sb : Superblock} {D : Disk} {own : ℕ → Owned} {T : Table} {n k : ℕ}
    (g : sb.Geometry) (hv : Volume sb D own T) (hn : n ∈ T.live)
    (hk : (k + 1) * ufsDirblksiz ≤ (T.file n).body.length) : ∃ b, BlockAt sb D own T n k b := by
  have hl := hv.laid n hn
  have hs : (D.ino n).size = (T.file n).body.length := by
    rw [hv.body_length g hn, hv.inode n hn]
  have hfits := g.dirBlock_fits k
  have hdm := Nat.div_add_mod' (k * ufsDirblksiz) sb.bsize
  set j := k * ufsDirblksiz / sb.bsize with hj
  set o := k * ufsDirblksiz % sb.bsize with ho
  simp only [ufsDirblksiz] at hk hdm hfits
  have hjl : j < (own n).data.length := by
    by_contra hge
    have hsz := (hl.covers g).size_le
    rw [← hl.sizes_length g, hs] at hsz
    have hm := Nat.mul_le_mul_right sb.bsize (Nat.le_of_not_lt hge)
    lia
  obtain ⟨s, -, hsd, hsz, hmem⟩ := hv.runAt g hn (List.getElem?_eq_getElem hjl)
  have hroom : o + 512 ≤ min sb.bsize ((T.file n).body.length - j * sb.bsize) := by lia
  refine ⟨(own n).data[j], List.getElem?_eq_getElem hjl, ?_, ?_, fun src hsrc => ?_⟩
  · have hrun := hv.isRun hn _ (List.mem_append_left _ hmem)
    refine (hrun.inData g (Nat.div_mul_cancel hsd).ge).mono (Nat.le_add_right _ _) ?_
    simp only [ufsDirblksiz]
    lia
  · have h := @Disk.body_slice sb D _ _ (D.ino n).size j _ o ufsDirblksiz (hl.covers g)
      (hl.sizes_length g) (hv.apart_at hn).1 (List.getElem?_eq_getElem hjl)
      (by rw [hs]; exact hroom) (by rw [hs]; simp only [ufsDirblksiz]; lia)
    rw [← h, show j * sb.bsize + o = k * ufsDirblksiz from hdm, ← hv.body n hn]
    rfl
  · have h := @Volume.writeBlock sb D own T n j _ o src g hv hn (List.getElem?_eq_getElem hjl)
      (by rw [hsrc]; exact hroom)
    rwa [show j * sb.bsize + o = k * ufsDirblksiz from hdm] at h

/-! ## One block -/

theorem Block.chains {b : Bytes} {rs : List Rec} (h : Block b rs) : Chains b [rs] := by
  refine ⟨by simpa using h.length_eq, fun k qs hk => ?_⟩
  cases k with
  | zero =>
    obtain rfl : rs = qs := by simpa using hk
    simpa using h.chain
  | succ k => simp at hk

namespace Chains
variable {body : Bytes} {blocks : List (List Rec)} {k : ℕ} {rs rs' : List Rec}

theorem end_le (h : Chains body blocks) (hk : blocks[k]? = some rs) :
    (k + 1) * ufsDirblksiz ≤ body.length := by
  obtain ⟨hk, -⟩ := List.getElem?_eq_some_iff.mp hk
  rw [h.length_eq]
  exact Nat.mul_le_mul_right ufsDirblksiz (Nat.succ_le_of_lt hk)

/-- A block of a directory, on its own. -/
theorem block (h : Chains body blocks) (hk : blocks[k]? = some rs) :
    Block (body.slice (k * ufsDirblksiz) ufsDirblksiz) rs := by
  have he := h.end_le hk
  rw [Nat.succ_mul] at he
  refine ⟨Bytes.slice_length he, ?_⟩
  have hc := h.chain k rs hk
  rw [Nat.succ_mul] at hc
  have hw := @Records.window ufsDirblksiz (body.slice (k * ufsDirblksiz) ufsDirblksiz) body
    (k * ufsDirblksiz) ufsDirblksiz (fun o n hon => Bytes.slice_slice hon) le_rfl rs 0
  rw [Nat.add_zero] at hw
  exact hw.mpr hc

/-- A directory with another chain in one block. -/
theorem putBlock (h : Chains body blocks) (hk : blocks[k]? = some rs) {b : Bytes} (hb : Block b rs') :
    Chains (body.overlay (k * ufsDirblksiz) b) (blocks.set k rs') := by
  have he := h.end_le hk
  rw [Nat.succ_mul] at he
  have hin : k * ufsDirblksiz + b.length ≤ body.length := by
    rw [hb.length_eq]
    exact he
  refine h.set (Bytes.SameOutside.overlay hin le_rfl ?_) ?_
  · rw [hb.length_eq, Nat.succ_mul]
  · rw [Nat.succ_mul]
    have hw := @Records.window ufsDirblksiz b (body.overlay (k * ufsDirblksiz) b)
      (k * ufsDirblksiz) ufsDirblksiz (fun o n hon => ?_) le_rfl rs' 0
    · rw [Nat.add_zero] at hw
      exact hw.mp hb.chain
    · have hlen := hb.length_eq
      rw [Bytes.slice_overlay_inside hin (Nat.le_add_right _ _) (by lia), Nat.add_sub_cancel_left]

end Chains

section Edits
variable {ufs : Ufs} {D : Disk} {own : ℕ → Owned} {T : Table} {n k : ℕ} {E : Fault → Bytes → Prop}

theorem Ufs.Stores.of_volume {image : Bytes} (hi : ufs.Holds image D) (hv : Volume ufs.sb D own T) :
    ufs.Stores image T := ⟨D, own, hi, hv⟩

/-- Writing back block `k` of a directory. -/
theorem putDirectoryBlock_hoare (g : ufs.sb.Geometry) (hv : Volume ufs.sb D own T) (hn : n ∈ T.live)
    (hk : (k + 1) * ufsDirblksiz ≤ (T.file n).body.length) {src : Bytes}
    (hsrc : src.length = ufsDirblksiz) :
    (putDirectoryBlock ufs (own n).data (k * ufsDirblksiz) src).hoare ufs.Holds D
      (fun _ D' => Volume ufs.sb D' own
          (T.setBody n ((T.file n).body.overlay (k * ufsDirblksiz) src)) ∧
        Beside ufs.sb own T.live n D D') E := by
  obtain ⟨b, hb⟩ := hv.blockAt g hn hk
  rw [putDirectoryBlock]
  refine Act.hoare_lift_bind (a := b) (by rw [hb.found]; rfl) ?_
  dsimp only
  rw [g.dataBlockOffset_eq, Nat.add_assoc]
  have hin := hb.inData.inside g (by norm_num)
  exact putData_hoare (hsrc ▸ hb.inData) (hsrc ▸ hin) (hb.put src hsrc)

/-- What an edit of single blocks does to a directory: it treats the first entry with `p` and
leaves a block with `post`. -/
def EditsFirst (edit : Bytes → ℕ → Outcome Fault (Option Bytes)) (p : Entry → Prop)
    [DecidablePred p] (f : Entry → List Entry) (post : List Rec → Prop) : Prop :=
  ∀ b rs, Block b rs → match editFirst p f (entriesOf rs) with
    | none => edit b ufsDirblksiz = .ok none
    | some es => ∃ b' rs', edit b ufsDirblksiz = .ok (some b') ∧ Block b' rs' ∧
        entriesOf rs' = es ∧ post rs'

/-- A directory with a block that satisfies `post`. -/
def DirectoryWith (post : List Rec → Prop) (body : Bytes) (es : List Entry) : Prop :=
  ∃ blocks, Chains body blocks ∧ entriesOf blocks.flatten = es ∧ ∃ rs ∈ blocks, post rs

theorem DirectoryWith.directory {post : List Rec → Prop} {body : Bytes} {es : List Entry}
    (h : DirectoryWith post body es) : Directory body es := by
  obtain ⟨blocks, hc, he, rs, hrs, -⟩ := h
  exact ⟨blocks, hc, List.ne_nil_of_mem hrs, he⟩

/-- The block loop of the two editing operations. -/
theorem editFirstBlock_hoare (g : ufs.sb.Geometry) (hv : Volume ufs.sb D own T) (hn : n ∈ T.live)
    {blocks : List (List Rec)} (hc : Chains (T.file n).body blocks) {p : Entry → Prop}
    [DecidablePred p] {f : Entry → List Entry} {post : List Rec → Prop}
    {edit : Bytes → ℕ → Outcome Fault (Option Bytes)} (hedit : EditsFirst edit p f post) : ∀ m j, j + m = blocks.length →
    (∀ e ∈ entriesOf (blocks.take j).flatten, ¬p e) →
    (editFirstBlock ufs (T.file n).body (T.file n).body.length (own n).data edit
      ((List.range' j m).map (· * ufsDirblksiz))).hoare ufs.Holds D
      (fun done D' => ∃ T', Volume ufs.sb D' own T' ∧
        match editFirst p f (entriesOf blocks.flatten) with
        | none => done = false ∧ T' = T
        | some es => done = true ∧ ∃ body, DirectoryWith post body es ∧
            body.length = (T.file n).body.length ∧ T' = T.setBody n body) E := by
  intro m
  induction m with
  | zero =>
    intro j hj hnone
    rw [List.take_of_length_le (by omega)] at hnone
    rw [List.range'_zero, List.map_nil, editFirstBlock, editFirst_of_not hnone]
    exact Act.hoare_pure ⟨T, hv, rfl, rfl⟩
  | succ m ih =>
    intro j hj hnone
    have hjl : j < blocks.length := by omega
    have hk : blocks[j]? = some blocks[j] := List.getElem?_eq_getElem hjl
    have hend := hc.end_le hk
    have hblock := hc.block hk
    have hspan : min ufsDirblksiz ((T.file n).body.length - j * ufsDirblksiz) = ufsDirblksiz := by
      rw [Nat.succ_mul] at hend
      exact Nat.min_eq_left (by omega)
    rw [List.range'_succ, List.map_cons, editFirstBlock]
    rw [hspan]
    refine Act.hoare_lift_bind (a := (T.file n).body.slice (j * ufsDirblksiz) ufsDirblksiz) ?_ ?_
    · rw [getSlice, Outcome.guard_true (by rwa [Nat.succ_mul] at hend)]
      rfl
    have he := hedit _ _ hblock
    rw [entriesOf_flatten_split hk]
    cases hfirst : editFirst p f (entriesOf blocks[j]) with
    | none =>
      rw [hfirst] at he
      refine Act.hoare_lift_bind he ?_
      dsimp only
      rw [← entriesOf_flatten_split hk]
      refine ih (j + 1) (by omega) fun e hm => ?_
      rw [List.take_add_one, hk, Option.toList_some, List.flatten_append, List.flatten_singleton,
        entriesOf_append] at hm
      cases List.mem_append.mp hm with
      | inl hm => exact hnone e hm
      | inr hm =>
        intro hp
        rcases exists_first (p := p) (entriesOf blocks[j]) with hno | ⟨xs, a, ys, hxs, hx, ha⟩
        · exact hno e hm hp
        · rw [hxs, editFirst_split hx ha] at hfirst
          cases hfirst
    | some es =>
      rw [hfirst] at he
      obtain ⟨b', rs', he, hb', hes, hpost⟩ := he
      refine Act.hoare_lift_bind he ?_
      dsimp only
      rw [List.append_assoc, editFirst_append_of_not hnone, editFirst_append_of_some hfirst,
        Option.map_some]
      have hput := @putDirectoryBlock_hoare ufs D own T n j E g hv hn hend b' hb'.length_eq
      refine hput.bind fun _ D' hD' => Act.hoare_pure ⟨_, hD'.1, rfl, _, ?_, ?_, rfl⟩
      · refine ⟨_, hc.putBlock hk hb', ?_, rs', List.mem_set hjl rs', hpost⟩
        rw [entriesOf_flatten_set hjl, hes, List.append_assoc]
      · rw [Bytes.overlay_length]
        rw [hb'.length_eq]
        rwa [Nat.succ_mul] at hend

end Edits

end UfsFuse
