import UfsFuse.Directory

/-!
# Operations on directories

What lookup, listing, removal, relinking and insertion do to the entries of a stored directory.
-/
namespace UfsFuse

section Reads
variable {ufs : Ufs} {image : Bytes} {D : Disk} {own : ℕ → Owned} {T : Table} {n : ℕ}

theorem Volume.readBlocks (hi : ufs.Holds image D) (hv : Volume ufs.sb D own T) (hn : n ∈ T.live) :
    inodeDataBlocks image ufs (T.file n).inode = .ok (own n).data := by
  rw [← hv.inode n hn]
  exact (hv.laid n hn).inodeDataBlocks hi (Owned.ptrs_isRun (hv.isRun hn))

theorem Volume.readBytes (hi : ufs.Holds image D) (hv : Volume ufs.sb D own T) (hn : n ∈ T.live) :
    readInodeBytes image ufs (T.file n).inode = .ok (T.file n).body :=
  Ufs.Stores.readInodeBytes ⟨D, own, hi, hv⟩ hn

/-- A file takes up no more than the slice. -/
theorem Volume.body_le {sb : Superblock} (g : sb.Geometry) (hv : Volume sb D own T)
    (hn : n ∈ T.live) : (T.file n).body.length ≤ sb.dsize * 512 := by
  have hl := hv.laid n hn
  have hc := hl.covers g
  have hsize := hc.size_le_sum
  have hsum := (hv.space_at hn).sum_counts_le g
  rw [Owned.runs_eq, List.append_assoc, List.map_append, List.sum_append] at hsum
  have hsnd : (dataRuns (own n).data (sb.allocationByteSizes (D.ino n).size)).map Prod.snd =
      (sb.allocationByteSizes (D.ino n).size).map (· / 512) := by
    rw [dataRuns, List.map_snd_zip (by rw [List.length_map, hl.sizes_length g])]
  have hmul : ((sb.allocationByteSizes (D.ino n).size).map (· / 512)).sum * 512 =
      (sb.allocationByteSizes (D.ino n).size).sum := by
    rw [← List.sum_map_mul_right]
    congr 1
    conv_rhs => rw [← List.map_id (sb.allocationByteSizes (D.ino n).size)]
    exact List.map_congr_left fun s hs => Nat.div_mul_cancel (hc.allocSize s hs).2.2
  rw [hsnd] at hsum
  rw [hv.body_length g hn, ← hv.inode n hn]
  omega

/-- The scan of one directory block for a name. -/
theorem Block.scan {b : Bytes} {rs : List Rec} (h : Block b rs) (name : Bytes) :
    scanBlockFor b name ufsDirblksiz ufsDirblksiz 0 =
      ((entriesOf rs).find? (·.name = name)).map Entry.inode := by
  have hs := h.chain.stop_eq
  rw [Nat.zero_add] at hs
  rw [scanBlockFor_eq h.chain hs.ge]
  clear h hs
  induction rs with
  | nil => rfl
  | cons r rs ih =>
    by_cases h0 : r.inode = 0
    · rw [entriesOf_cons_dead h0, List.find?_cons_of_neg (by simp [Rec.Named, h0]), ih]
    · rw [entriesOf_cons_live h0]
      by_cases hr : r.name = name
      · rw [List.find?_cons_of_pos (by simp [Rec.Named, h0, hr]),
          List.find?_cons_of_pos (by simp [hr])]
        rfl
      · rw [List.find?_cons_of_neg (by simp [Rec.Named, hr]),
          List.find?_cons_of_neg (by simp [hr]), ih]

theorem lookupLoop_eq (hi : ufs.Holds image D) (hv : Volume ufs.sb D own T) (hn : n ∈ T.live)
    {blocks : List (List Rec)} (hc : Chains (T.file n).body blocks) (name : Bytes) :
    ∀ m j, j + m = blocks.length →
    lookupLoop image ufs (T.file n).body.length (own n).data name
        ((List.range' j m).map (· * ufsDirblksiz)) =
      .ok (((entriesOf (blocks.drop j).flatten).find? (·.name = name)).bind fun e =>
        (readInode image ufs e.inode).map fun child => (e.inode, child)) := by
  have g := hi.geom
  intro m
  induction m with
  | zero =>
    intro j hj
    rw [List.drop_of_length_le (by omega)]
    rfl
  | succ m ih =>
    intro j hj
    have hjl : j < blocks.length := by omega
    have hk : blocks[j]? = some blocks[j] := List.getElem?_eq_getElem hjl
    have hend := hc.end_le hk
    obtain ⟨b, hb⟩ := hv.blockAt g hn hend
    have hspan : min ufsDirblksiz ((T.file n).body.length - j * ufsDirblksiz) = ufsDirblksiz := by
      rw [Nat.succ_mul] at hend
      exact Nat.min_eq_left (by omega)
    rw [List.range'_succ, List.map_cons, lookupLoop]
    dsimp only
    rw [hspan, hb.found]
    dsimp only
    rw [g.dataBlockOffset_eq, Nat.add_assoc, hi.getSlice hb.inData (by norm_num), Outcome.ok_bind,
      hb.bytes, (hc.block hk).scan, List.drop_eq_getElem_cons hjl, List.flatten_cons,
      entriesOf_append, List.find?_append, ih (j + 1) (by omega)]
    cases (entriesOf blocks[j]).find? (·.name = name) with
    | none => rfl
    | some e => rfl

/-- Lookup finds the first entry of that name, if its inode can be read. -/
theorem Ufs.Stores.lookupDirectoryEntry (h : ufs.Stores image T) (hn : n ∈ T.live) {es : List Entry}
    (hd : Directory (T.file n).body es) (name : Str) :
    lookupDirectoryEntry image ufs (T.file n).inode name =
      .ok ((es.find? (·.name = name)).bind fun e =>
        (UfsFuse.readInode image ufs e.inode).map fun child => (e.inode, child)) := by
  have hlen := h.body_length hn
  obtain ⟨D, own, hi, hv⟩ := h
  obtain ⟨blocks, hc, hne, rfl⟩ := hd
  have hpos := List.length_pos_of_ne_nil hne
  have hcl := hc.length_eq
  rw [UfsFuse.lookupDirectoryEntry, if_neg (by rw [← hlen, hcl]; simp only [ufsDirblksiz]; omega),
    hv.readBlocks hi hn, Outcome.ok_bind, ← hlen]
  have hl := @lookupLoop_eq ufs image D own T n hi hv hn blocks hc name blocks.length 0 (by omega)
  rw [List.drop_zero, ← List.range_eq_range', ← dirBlockOffsets_mul, ← hcl] at hl
  exact hl

/-- The records of a listing are the records of the blocks. -/
def Lists (records : List DirEntry) (rs : List Rec) : Prop :=
  List.Forall₂ (fun (d : DirEntry) (r : Rec) => ∃ off, d = r.entry off) records rs

theorem lists_placed (base : ℕ) : ∀ (rs : List Rec) (off : ℕ),
    Lists ((placed off rs).map fun record => { record with offset := record.offset + base }) rs := by
  intro rs
  induction rs with
  | nil => exact fun _ => .nil
  | cons r rs ih => exact fun off => .cons ⟨off + base, rfl⟩ (ih _)

theorem Ufs.Stores.iterInodeDirectoryRecords (h : ufs.Stores image T) (hn : n ∈ T.live)
    {es : List Entry} (hd : Directory (T.file n).body es) :
    ∃ records rs, iterInodeDirectoryRecords image ufs (T.file n).inode = .ok records ∧
      Lists records rs ∧ entriesOf rs = es ∧ ∀ r ∈ rs, r.Fits := by
  have hlen := h.body_length hn
  have hread := h.readInodeBytes hn
  obtain ⟨blocks, hc, hne, rfl⟩ := hd
  have hcl := hc.length_eq
  rw [UfsFuse.iterInodeDirectoryRecords, hread, Outcome.ok_bind, ← hlen, hcl, dirBlockOffsets_mul,
    ← hcl, List.range_eq_range']
  -- after the blocks below `j` the records of these blocks have been collected
  have hloop : ∀ m j records rs, j + m = blocks.length → rs = (blocks.take j).flatten →
      Lists records rs → (∀ r ∈ rs, r.Fits) → ∃ records' rs', Outcome.foldM
        (fun records blockOffset => do
          let blockSpan := min ufsDirblksiz ((T.file n).body.length - blockOffset)
          let blockEnd := min (blockOffset + blockSpan) (T.file n).body.length
          Outcome.guard (blockOffset ≤ blockEnd)
          let blockBytes := (T.file n).body.slice blockOffset (blockEnd - blockOffset)
          pure (records ++ (iterDirectoryRecords blockBytes blockSpan).map fun record =>
            { record with offset := record.offset + blockOffset }))
        records ((List.range' j m).map (· * ufsDirblksiz)) =
          (.ok records' : Outcome Fault (List DirEntry)) ∧
        Lists records' rs' ∧ rs' = blocks.flatten ∧ ∀ r ∈ rs', r.Fits := by
    intro m
    induction m with
    | zero =>
      intro j records rs hj hrs hl hf
      rw [List.take_of_length_le (by omega)] at hrs
      exact ⟨records, rs, rfl, hl, hrs, hf⟩
    | succ m ih =>
      intro j records rs hj hrs hl hf
      have hjl : j < blocks.length := by omega
      have hk : blocks[j]? = some blocks[j] := List.getElem?_eq_getElem hjl
      have hend := hc.end_le hk
      rw [Nat.succ_mul] at hend
      have hspan : min ufsDirblksiz ((T.file n).body.length - j * ufsDirblksiz) = ufsDirblksiz :=
        Nat.min_eq_left (by omega)
      have hstop : min (j * ufsDirblksiz + ufsDirblksiz) (T.file n).body.length =
          j * ufsDirblksiz + ufsDirblksiz := Nat.min_eq_left hend
      rw [List.range'_succ, List.map_cons, Outcome.foldM]
      dsimp only
      rw [hspan, hstop, Outcome.guard_true (Nat.le_add_right _ _), Outcome.ok_bind,
        Nat.add_sub_cancel_left, (hc.block hk).records]
      refine ih (j + 1) _ (rs ++ blocks[j]) (by omega) ?_ ?_ ?_
      · rw [List.take_add_one, hk, Option.toList_some, List.flatten_append, List.flatten_singleton,
          hrs]
      · exact List.rel_append hl (lists_placed _ _ _)
      · intro r hr
        cases List.mem_append.mp hr with
        | inl hr => exact hf r hr
        | inr hr =>
          obtain ⟨xs, ys, hxs⟩ := List.append_of_mem hr
          have hb := (hc.block hk).chain
          rw [hxs] at hb
          exact (records_bound hb).1
  obtain ⟨records, rs, he, hl, rfl, hf⟩ := hloop blocks.length 0 [] [] (by omega) rfl .nil (by simp)
  exact ⟨records, _, he, hl, rfl, hf⟩

/-- An entry as a listing shows it. -/
def Entry.IsDot (e : Entry) : Prop := e.Reads dotName ∨ e.Reads dotdotName

instance (e : Entry) : Decidable e.IsDot := inferInstanceAs (Decidable (_ ∨ _))

theorem Ufs.Stores.directoryIsEmpty (h : ufs.Stores image T) (hn : n ∈ T.live)
    {es : List Entry} (hd : Directory (T.file n).body es) :
    directoryIsEmpty image ufs (T.file n).inode = .ok (es.all fun e => decide e.IsDot) := by
  obtain ⟨records, rs, he, hl, rfl, -⟩ := h.iterInodeDirectoryRecords hn hd
  rw [UfsFuse.directoryIsEmpty, he]
  simp only [Outcome.ok_bind, Outcome.pure_def, Outcome.ok.injEq]
  clear he hd
  induction hl with
  | nil => rfl
  | @cons d r records rs hdr _ ih =>
    obtain ⟨off, rfl⟩ := hdr
    rw [List.all_cons, ih]
    by_cases h0 : r.inode = 0
    · simp [entriesOf_cons_dead h0, Rec.entry, h0]
    · rw [entriesOf_cons_live h0, List.all_cons]
      congr 1
      rw [Bool.eq_iff_iff, decide_eq_true_iff]
      simp [Rec.entry, Entry.IsDot, Entry.Reads, h0]

end Reads

section Edits
variable {ufs : Ufs} {T : Table} {n : ℕ} {es : List Entry}

/-- Taking away or rewriting the first entry with a property. -/
theorem editDirectory_stores (hn : n ∈ T.live) (hd : Directory (T.file n).body es)
    {p : Entry → Prop} [DecidablePred p] {f : Entry → List Entry} {post : List Rec → Prop}
    {edit : Bytes → ℕ → Outcome Fault (Option Bytes)} (hedit : EditsFirst edit p f post)
    {failure : Fault} :
    (do
      let size := (T.file n).inode.size
      let dirBytes ← Act.read fun image => readInodeBytes image ufs (T.file n).inode
      let dataBlocks ← Act.read fun image => inodeDataBlocks image ufs (T.file n).inode
      let done ← editFirstBlock ufs dirBytes size dataBlocks edit (dirBlockOffsets size)
      if done then pure () else Act.fail failure : Write Unit).hoare ufs.Stores T
      (fun _ T' => ∃ es' body, editFirst p f es = some es' ∧ DirectoryWith post body es' ∧
        body.length = (T.file n).body.length ∧ T' = T.setBody n body)
      (fun _ image => ufs.Stores image T ∧ editFirst p f es = none) := by
  refine hoare_stores fun g D own hv => ?_
  have hlen := hv.body_length g hn
  obtain ⟨blocks, hc, hne, rfl⟩ := hd
  have hcl := hc.length_eq
  dsimp only
  refine Act.hoare_read_bind (fun image hi => hv.readBytes hi hn) ?_
  refine Act.hoare_read_bind (fun image hi => hv.readBlocks hi hn) ?_
  rw [← hlen]
  have hloop := fun E => @editFirstBlock_hoare ufs D own T n E g hv hn blocks hc p _ f post edit hedit
    blocks.length 0 (by omega) (by simp)
  rw [← List.range_eq_range', ← dirBlockOffsets_mul, ← hcl] at hloop
  refine (hloop _).bind fun done D' hdone => ?_
  obtain ⟨T', hv', hcase⟩ := hdone
  cases hfirst : editFirst p f (entriesOf blocks.flatten) with
  | none =>
    rw [hfirst] at hcase
    obtain ⟨rfl, rfl⟩ := hcase
    exact Act.hoare_fail fun image hi => ⟨⟨D', own, hi, hv'⟩, rfl⟩
  | some es' =>
    rw [hfirst] at hcase
    obtain ⟨rfl, body, hbody, hl, rfl⟩ := hcase
    exact Act.hoare_pure ⟨own, _, hv', es', body, rfl, hbody, hl, rfl⟩

/-- Blocks that one more entry may need: none where a block of the directory has room. -/
def entryCost (sb : Superblock) (body : Bytes) (name : Str) : ℕ :=
  match findInsertSlot body body.length name with
  | none => 0
  | some slot =>
      if slot.blockOffset < body.length then 0 else sb.blocksNeeded (body.length + ufsDirblksiz)

/-- Where a record offers room, an entry costs nothing. -/
theorem DirectoryWith.entryCost_eq {sb : Superblock} {body : Bytes} {name : Str}
    (h : DirectoryWith (fun rs => ∃ r ∈ rs, r.Offers (ufsDirsiz name.length)) body es) :
    entryCost sb body name = 0 := by
  obtain ⟨blocks, hc, -, rs, hrs, r, hr, hoffer⟩ := h
  rcases findInsertSlot_eq hc (List.ne_nil_of_mem hrs) name with
    ⟨slot, ⟨k, xs, q, ys, hk, hslot⟩, he⟩ | ⟨hno, -⟩
  · have hoff : slot.blockOffset = k * ufsDirblksiz := by
      unfold slotOf at hslot
      split_ifs at hslot with h1 h2
      · rw [← Option.some.inj hslot]
      · rw [← Option.some.inj hslot]
    have hend := hc.end_le hk
    simp only [ufsDirblksiz] at hend hoff
    rw [entryCost, he]
    exact if_pos (by omega)
  · exact absurd hoffer (hno rs hrs r hr)

theorem deleteDirectoryEntry_stores (hn : n ∈ T.live) (hd : Directory (T.file n).body es)
    (name : Str) :
    (deleteDirectoryEntry ufs (T.file n).inode name).hoare ufs.Stores T
      (fun _ T' => ∃ es' body, editFirst (Entry.Reads name) (fun _ => []) es = some es' ∧
        Directory body es' ∧ (Ascii name → entryCost ufs.sb body name = 0) ∧ T' = T.setBody n body)
      (fun _ image => ufs.Stores image T ∧
        editFirst (Entry.Reads name) (fun _ => []) es = none) := by
  refine (editDirectory_stores hn hd fun _ _ hb => removeEntry_eq hb name).post ?_
  rintro - T' ⟨es', body, he, hb, -, rfl⟩
  refine ⟨es', body, he, hb.directory, fun ha => ?_, rfl⟩
  obtain ⟨blocks, hc, hes, rs, hrs, hpost⟩ := hb
  exact DirectoryWith.entryCost_eq ⟨blocks, hc, hes, rs, hrs, hpost ha⟩

theorem updateDirectoryDotdot_stores (hn : n ∈ T.live) (hd : Directory (T.file n).body es) {up : ℕ}
    (h0 : up ≠ 0) (h32 : up < 2 ^ 32) :
    (updateDirectoryDotdot ufs (T.file n).inode up).hoare ufs.Stores T
      (fun _ T' => ∃ es' body, editFirst (Entry.Reads dotdotName) (fun e => [⟨e.name, up⟩]) es =
        some es' ∧ Directory body es' ∧ T' = T.setBody n body)
      (fun _ image => ufs.Stores image T ∧
        editFirst (Entry.Reads dotdotName) (fun e => [⟨e.name, up⟩]) es = none) := by
  have hedit : EditsFirst (fun block span => rewriteEntryInode block span dotdotName up)
      (Entry.Reads dotdotName) (fun e => [⟨e.name, up⟩]) fun _ => True := by
    intro b rs hb
    have h := @rewriteEntryInode_eq _ _ hb dotdotName up h0 h32
    cases hf : editFirst (Entry.Reads dotdotName) (fun e => [⟨e.name, up⟩]) (entriesOf rs) with
    | none =>
      rw [hf] at h
      exact h
    | some es =>
      rw [hf] at h
      obtain ⟨b', rs', he, hb', hes⟩ := h
      exact ⟨b', rs', he, hb', hes, trivial⟩
  refine (editDirectory_stores hn hd hedit).post ?_
  rintro - T' ⟨es', body, he, hb, -, rfl⟩
  exact ⟨es', body, he, hb.directory, rfl⟩

end Edits

/-! ## Insertion -/

theorem Table.setBody_setBody (T : Table) (n : ℕ) (b b' : Bytes) :
    (T.setBody n b).setBody n b' = T.setBody n b' := by
  simp [Table.setBody, Table.setFile]

theorem Table.setBody_self (T : Table) (n : ℕ) : T.setBody n (T.file n).body = T := by
  simp [Table.setBody, Table.setFile]

@[simp] theorem Table.setBody_live (T : Table) (n : ℕ) (b : Bytes) : (T.setBody n b).live = T.live :=
  rfl
@[simp] theorem Table.setBody_body (T : Table) (n : ℕ) (b : Bytes) :
    ((T.setBody n b).file n).body = b := by
  simp [Table.setBody, Table.setFile]
@[simp] theorem Table.setBody_inode (T : Table) (n : ℕ) (b : Bytes) :
    ((T.setBody n b).file n).inode = (T.file n).inode := by
  simp [Table.setBody, Table.setFile]

theorem Chains.single {b : Bytes} {blocks : List (List Rec)} (h : Chains b blocks)
    (hl : b.length = ufsDirblksiz) : ∃ rs, Block b rs ∧ blocks = [rs] := by
  have hlen := h.length_eq
  rw [hl] at hlen
  have h1 : blocks.length = 1 := by
    simp only [ufsDirblksiz] at hlen
    omega
  obtain ⟨rs, rfl⟩ := List.length_eq_one_iff.mp h1
  have hb := h.block (k := 0) rfl
  rw [Nat.zero_mul, ← hl, Bytes.slice_full] at hb
  exact ⟨rs, hb, rfl⟩

theorem Inserted.subset {α : Type} {es es' : List α} {e : α} (h : Inserted es e es') :
    es'.Perm (e :: es) := by
  obtain ⟨us, vs, rfl, rfl⟩ := h
  exact List.perm_middle

section Insert
variable {ufs : Ufs} {T : Table} {n : ℕ} {es : List Entry} {E : Fault → Bytes → Prop}

/-- A directory with one more entry: its old inode but for size and blocks, a body as long as before or
one block longer, and the free blocks less the cost of the entry at most. -/
def Entered (ufs : Ufs) (T : Table) (n : ℕ) (es : List Entry) (e : Entry) (T' : Table) : Prop :=
  ∃ i body es' room, T' = T.setFile n ⟨i, body⟩ room ∧ i.core = (T.file n).inode.core ∧
    Directory body es' ∧ Inserted es e es' ∧
    (body.length = (T.file n).body.length ∨
      body.length = (T.file n).body.length + ufsDirblksiz) ∧
    ∀ m, T.room m ≤ room m + entryCost ufs.sb (T.file n).body e.name

/-- Only the file of inode `n` differs; the fields of the inode other than size and blocks do not. -/
def Altered (T : Table) (n : ℕ) (T' : Table) : Prop :=
  ∃ i body room, T' = T.setFile n ⟨i, body⟩ room ∧ i.core = (T.file n).inode.core

/-- A name of any length that is entered alters its directory; a name that a record can hold is then
among the entries. -/
def Put (ufs : Ufs) (T : Table) (n : ℕ) (es : List Entry) (e : Entry) (T' : Table) : Prop :=
  Altered T n T' ∧ (e.name.length ≤ 255 → Entered ufs T n es e T')

theorem Entered.of_setBody {body : Bytes} {es' : List Entry} {e : Entry} (hb : Directory body es')
    (hi : Inserted es e es') (hl : body.length = (T.file n).body.length) :
    Entered ufs T n es e (T.setBody n body) :=
  ⟨_, body, es', _, rfl, rfl, hb, hi, .inl hl, fun _ => Nat.le_add_right _ _⟩

/-- `b` is `new` before `off` and `old` from there on. -/
structure Merged (old new : Bytes) (off : ℕ) (b : Bytes) : Prop where
  length_eq : b.length = old.length
  byte_eq : ∀ i, b.byte i = if i < off then new.byte i else old.byte i

namespace Merged
variable {old new b : Bytes} {off len : ℕ}

theorem start (old new : Bytes) : Merged old new 0 old := ⟨rfl, fun _ => rfl⟩

theorem done (h : Merged old new off b) (hl : new.length = old.length) (ho : old.length ≤ off) :
    b = new := by
  refine Bytes.ext_byte (h.length_eq.trans hl.symm) fun i hi => ?_
  have hlen := h.length_eq
  rw [h.byte_eq, if_pos (by omega)]

theorem copy (h : Merged old new off b) (len : ℕ) (hl : new.length = old.length)
    (hin : off + len ≤ old.length) : Merged old new (off + len) (b.overlay off (new.slice off len)) := by
  have hs : (new.slice off len).length = len := Bytes.slice_length (by omega)
  have hfit : off + (new.slice off len).length ≤ b.length := by
    rw [hs, h.length_eq]
    exact hin
  refine ⟨(Bytes.overlay_length hfit).trans h.length_eq, fun i => ?_⟩
  rw [Bytes.byte_overlay hfit, h.byte_eq, hs]
  by_cases h1 : i < off
  · rw [if_neg (by omega), if_pos h1, if_pos (by omega)]
  · by_cases h2 : i < off + len
    · rw [if_pos (by omega), if_pos h2, Bytes.byte_slice (by omega)]
      congr 1
      omega
    · rw [if_neg (by omega), if_neg h1, if_neg h2]

theorem skip (h : Merged old new off b) (he : old.slice off len = new.slice off len) :
    Merged old new (off + len) b := by
  refine ⟨h.length_eq, fun i => ?_⟩
  rw [h.byte_eq]
  by_cases h1 : i < off
  · rw [if_pos h1, if_pos (by omega)]
  · by_cases h2 : i < off + len
    · have hb : (old.slice off len).byte (i - off) = (new.slice off len).byte (i - off) := by rw [he]
      rw [Bytes.byte_slice (by omega), Bytes.byte_slice (by omega),
        show off + (i - off) = i by omega] at hb
      rw [if_neg h1, if_pos h2, hb]
    · rw [if_neg h1, if_neg h2]

end Merged

/-- The fast path: the last block of a directory of several blocks, if it has room. -/
theorem addToLastBlock_hoare {D : Disk} {own : ℕ → Owned} (g : ufs.sb.Geometry)
    (hv : Volume ufs.sb D own T) (hn : n ∈ T.live) (hd : Directory (T.file n).body es)
    {name : Str} {child : ℕ} (h0 : child ≠ 0) (h32 : child < 2 ^ 32) :
    (addToLastBlock ufs (T.file n).inode name child).hoare ufs.Holds D
      (fun done D' => Beside ufs.sb own T.live n D D' ∧ ∃ T', Volume ufs.sb D' own T' ∧
        if done then Put ufs T n es ⟨name, child⟩ T' else T' = T) E := by
  have hlen := hv.body_length g hn
  obtain ⟨blocks, hc, hne, rfl⟩ := hd
  have hcl := hc.length_eq
  have hpos := List.length_pos_of_ne_nil hne
  have hno : (pure false : Write Bool).hoare ufs.Holds D
      (fun done D' => Beside ufs.sb own T.live n D D' ∧ ∃ T', Volume ufs.sb D' own T' ∧
        if done then Put ufs T n (entriesOf blocks.flatten) ⟨name, child⟩ T'
        else T' = T) E := Act.hoare_pure ⟨Beside.refl, T, hv, rfl⟩
  rw [addToLastBlock, ← hlen, hcl]
  dsimp only
  have hround : (blocks.length * ufsDirblksiz + ufsDirblksiz - 1) / ufsDirblksiz * ufsDirblksiz =
      blocks.length * ufsDirblksiz := by
    simp only [ufsDirblksiz]
    omega
  rw [hround]
  refine Act.hoare_ite (fun hmore => ?_) fun _ => hno
  obtain ⟨k, hk⟩ : ∃ k, blocks.length = k + 1 := ⟨blocks.length - 1, by omega⟩
  have hkb : blocks[k]? = some blocks[k] := List.getElem?_eq_getElem (by omega)
  have hend := hc.end_le hkb
  have hblock := hc.block hkb
  have hlast : blocks.length * ufsDirblksiz - ufsDirblksiz = k * ufsDirblksiz := by
    rw [hk, Nat.succ_mul, Nat.add_sub_cancel]
  have hspan : min (blocks.length * ufsDirblksiz - k * ufsDirblksiz) ufsDirblksiz = ufsDirblksiz := by
    rw [hk, Nat.succ_mul, Nat.add_sub_cancel_left, Nat.min_self]
  rw [hlast, hspan, if_pos (by norm_num)]
  refine Act.hoare_read_bind (a := (T.file n).body.slice (k * ufsDirblksiz) ufsDirblksiz)
    (fun image hi => Ufs.Stores.readInodeRange ⟨D, own, hi, hv⟩ hn _ _) ?_
  rcases insertEntry_eq hblock.chains (by simp) name h0 h32 with ⟨-, he⟩ | ⟨-, b', he, hput⟩
  · rw [hblock.length_eq] at he
    refine Act.hoare_lift_bind (a := none) (by rw [he]; rfl) hno
  rw [hblock.length_eq] at he
  refine Act.hoare_lift_bind (a := some b') (by rw [he]; rfl) ?_
  dsimp only
  refine Act.hoare_ite (fun hl => ?_) fun _ => hno
  rcases hput with ⟨j, hput⟩ | hput
  · refine Act.hoare_read_bind (fun image hi => hv.readBlocks hi hn) ?_
    refine (@putDirectoryBlock_hoare ufs D own T n k E g hv hn hend b' hl).bind fun _ D' hD' => ?_
    refine Act.hoare_pure ⟨hD'.2, _, hD'.1, ⟨_, _, _, rfl, rfl⟩, fun hname => ?_⟩
    obtain ⟨blocks', hc', hins⟩ := (hput.enters hname).chains
    obtain ⟨rs', hb', rfl⟩ := hc'.single hl
    simp only [List.flatten_singleton] at hins
    refine Entered.of_setBody ⟨_, hc.putBlock hkb hb', ?_, rfl⟩ ?_ (Bytes.overlay_length ?_)
    · rw [← List.length_pos_iff, List.length_set]
      exact hpos
    · rw [entriesOf_flatten_split hkb, entriesOf_flatten_set (by omega)]
      exact hins.around _ _
    · rw [hl]
      rwa [Nat.succ_mul] at hend
  · have hbehind := hput.length_eq
    rw [hblock.length_eq] at hbehind
    simp only [ufsDirblksiz] at hl hbehind
    omega

/-- Writing back, block after block, what the insertion changed. -/
theorem writeChanged_hoare {D : Disk} {own : ℕ → Owned} (g : ufs.sb.Geometry)
    (hv : Volume ufs.sb D own T) (hn : n ∈ T.live) {m : ℕ} {new : Bytes}
    (hm : (T.file n).body.length = m * ufsDirblksiz) (hl : new.length = (T.file n).body.length) :
    (Act.each
      (fun offset => do
        let stop := min (offset + ufsDirblksiz) (m * ufsDirblksiz)
        let old ← Act.lift (getSlice (T.file n).body offset (stop - offset))
        let new := new.slice offset (stop - offset)
        if old ≠ new then putDirectoryBlock ufs (own n).data offset new)
      (dirBlockOffsets (m * ufsDirblksiz)) : Write Unit).hoare ufs.Holds D
      (fun _ D' => Volume ufs.sb D' own (T.setBody n new) ∧ Beside ufs.sb own T.live n D D') E := by
  rw [dirBlockOffsets_mul, List.range_eq_range']
  refine (Act.hoare_each (fun (as : List ℕ) D' => ∃ j b, j ≤ m ∧
    as = (List.range' j (m - j)).map (· * ufsDirblksiz) ∧
    Merged (T.file n).body new (j * ufsDirblksiz) b ∧ Volume ufs.sb D' own (T.setBody n b) ∧
    Beside ufs.sb own T.live n D D') ?_ ?_).post ?_
  · rintro a as D' ⟨j, b, hj, has, hb, hv', hbeside⟩
    have hjm : j < m := by
      by_contra hge
      rw [show m - j = 0 by omega] at has
      simp at has
    rw [show m - j = (m - (j + 1)) + 1 by omega, List.range'_succ, List.map_cons] at has
    obtain ⟨rfl, rfl⟩ := List.cons.inj has
    have hstep : (j + 1) * ufsDirblksiz ≤ m * ufsDirblksiz := Nat.mul_le_mul_right ufsDirblksiz hjm
    have hend := hstep
    rw [Nat.succ_mul] at hend
    dsimp only
    rw [Nat.min_eq_left hend, Nat.add_sub_cancel_left]
    refine Act.hoare_lift_bind
      (a := (T.file n).body.slice (j * ufsDirblksiz) ufsDirblksiz) ?_ ?_
    · rw [getSlice, Outcome.guard_true (by rw [hm]; exact hend)]
      rfl
    have hslice : (new.slice (j * ufsDirblksiz) ufsDirblksiz).length = ufsDirblksiz :=
      Bytes.slice_length (by rw [hl, hm]; exact hend)
    refine Act.hoare_ite (fun _ => ?_) fun hsame => ?_
    · have hbl : (j + 1) * ufsDirblksiz ≤ ((T.setBody n b).file n).body.length := by
        rw [Table.setBody_body, hb.length_eq, hm]
        exact hstep
      refine (@putDirectoryBlock_hoare ufs D' own (T.setBody n b) n j E g hv' hn hbl _ hslice).post ?_
      rintro - D'' hD''
      rw [Table.setBody_setBody, Table.setBody_body] at hD''
      refine ⟨j + 1, _, hjm, rfl, ?_, hD''.1, hbeside.trans hD''.2⟩
      have hc := hb.copy ufsDirblksiz hl (by rw [hm]; exact hend)
      rwa [← Nat.succ_mul] at hc
    · have hs := hb.skip (not_not.mp hsame)
      rw [← Nat.succ_mul] at hs
      exact Act.hoare_pure ⟨j + 1, b, hjm, rfl, hs, hv', hbeside⟩
  · refine ⟨0, (T.file n).body, Nat.zero_le _, rfl, ?_, ?_, Beside.refl⟩
    · rw [Nat.zero_mul]
      exact Merged.start _ _
    · rw [Table.setBody_self]
      exact hv
  · rintro - D' ⟨j, b, hj, has, hb, hv', hbeside⟩
    have hjm : j = m := by
      by_contra hne
      rw [show m - j = (m - (j + 1)) + 1 by omega, List.range'_succ, List.map_cons] at has
      cases has
    subst hjm
    rw [hb.done hl hm.le] at hv'
    exact ⟨hv', hbeside⟩

/-- `add_directory_entry` puts the name in, whichever way it goes, and changes no other file; it
refuses a name that no block has room for. -/
theorem addDirectoryEntry_put {D : Disk} {own : ℕ → Owned} (g : ufs.sb.Geometry)
    (hv : Volume ufs.sb D own T) (hn : n ∈ T.live) (hd : Directory (T.file n).body es)
    {name : Str} {child : ℕ} (h0 : child ≠ 0) (h32 : child < 2 ^ 32) :
    (addDirectoryEntry ufs n (T.file n).inode name child).hoare ufs.Holds D
      (fun _ D' => Beside ufs.sb own T.live n D D' ∧ ∃ own' T', Volume ufs.sb D' own' T' ∧
        Put ufs T n es ⟨name, child⟩ T')
      (fun e image => ShortOf T n (entryCost ufs.sb (T.file n).body name) e image ∨
        ufsDirblksiz < ufsDirsiz name.length) := by
  rw [addDirectoryEntry]
  refine (addToLastBlock_hoare g hv hn hd h0 h32).bind ?_
  rintro done D₁ ⟨hbeside, T₁, hv₁, hcase⟩
  cases done with
  | true => exact Act.hoare_pure ⟨hbeside, own, T₁, hv₁, hcase⟩
  | false =>
    obtain rfl : T₁ = T := hcase
    have hlen := hv₁.body_length g hn
    have hle := hv₁.body_le g hn
    have hdl := g.dsize_lt
    obtain ⟨blocks, hc, hne, rfl⟩ := hd
    have hcl := hc.length_eq
    rw [if_neg (by simp)]
    dsimp only
    refine Act.hoare_read_bind (fun image hi => hv₁.readBytes hi hn) ?_
    rw [← hlen]
    rcases insertEntry_eq hc hne name h0 h32 with ⟨hlong, he⟩ | ⟨-, b', he, hput⟩
    · exact (Act.hoare_lift_err (Q := fun _ _ => False) he fun _ _ => .inr hlong).bind fun _ _ h => h.elim
    refine Act.hoare_lift_bind he ?_
    rcases hput with ⟨k, hput⟩ | hput
    · have hl := hput.same.length_eq
      rw [if_pos hl]
      refine Act.hoare_read_bind (fun image hi => hv₁.readBlocks hi hn) ?_
      rw [hcl]
      refine (writeChanged_hoare g hv₁ hn hcl hl).post ?_
      rintro - D' ⟨hv', hbeside'⟩
      refine ⟨hbeside.trans hbeside', own, _, hv', ⟨_, _, _, rfl, rfl⟩, fun hname => ?_⟩
      obtain ⟨blocks', hc', hins⟩ := (hput.enters hname).chains
      have hne' : blocks' ≠ [] := by
        rw [← List.length_pos_iff]
        have hcl' := hc'.length_eq
        have hpos := List.length_pos_of_ne_nil hne
        rw [hl, hcl] at hcl'
        simp only [ufsDirblksiz] at hcl'
        omega
      exact Entered.of_setBody ⟨blocks', hc', hne', rfl⟩ hins hl
    · have hl := hput.length_eq
      rw [if_neg (by simp only [ufsDirblksiz] at hl; omega)]
      refine Act.hoare_lift_bind (Outcome.guard_true (by omega)) ?_
      have hdrop : (b'.drop (T₁.file n).body.length).length = ufsDirblksiz := by
        rw [List.length_drop, hl, Nat.add_sub_cancel_left]
      have hover : (T₁.file n).body.overlay (T₁.file n).body.length
          (b'.drop (T₁.file n).body.length) = b' := by
        rw [Bytes.overlay, List.take_length, List.drop_of_length_le (Nat.le_add_right _ _),
          List.append_nil]
        have ht := List.take_append_drop (T₁.file n).body.length b'
        rwa [hput.front] at ht
      have hmax : max (T₁.file n).body.length
          ((T₁.file n).body.length + (b'.drop (T₁.file n).body.length).length) =
          (T₁.file n).body.length + ufsDirblksiz := by
        rw [hdrop]
        exact Nat.max_eq_right (Nat.le_add_right _ _)
      have h := @applyInodeWrite_volume ufs T₁ n D₁ own g hv₁ hn (T₁.file n).body.length
        (b'.drop (T₁.file n).body.length) le_rfl (by rw [hdrop]; simp only [ufsDirblksiz]; omega)
      have hcost : entryCost ufs.sb (T₁.file n).body name =
          ufs.sb.blocksNeeded ((T₁.file n).body.length + ufsDirblksiz) := by
        rw [entryCost, hput.slot_eq]
        exact if_neg (lt_irrefl _)
      rw [hmax, hover, ← hcost] at h
      refine h.mono ?_ fun _ _ he => .inl he
      rintro - D' ⟨o, hrep, hv', hcore, -, hroom⟩
      refine ⟨hbeside.trans hrep.beside, _, _, hv', ⟨_, _, _, rfl, hcore⟩, fun hname => ?_⟩
      obtain ⟨blocks', hc', hins⟩ := (hput.enters hname).chains
      have hne' : blocks' ≠ [] := by
        rw [← List.length_pos_iff]
        have hcl' := hc'.length_eq
        rw [hl] at hcl'
        simp only [ufsDirblksiz] at hcl'
        omega
      exact ⟨_, b', _, _, rfl, hcore, ⟨blocks', hc', hne', rfl⟩, hins, .inr hl, hroom.2⟩

/-- `add_directory_entry` enters a name that a record can hold. -/
theorem addDirectoryEntry_hoare {D : Disk} {own : ℕ → Owned} (g : ufs.sb.Geometry)
    (hv : Volume ufs.sb D own T) (hn : n ∈ T.live) (hd : Directory (T.file n).body es)
    {name : Str} {child : ℕ} (hname : name.length ≤ 255) (h0 : child ≠ 0) (h32 : child < 2 ^ 32) :
    (addDirectoryEntry ufs n (T.file n).inode name child).hoare ufs.Holds D
      (fun _ D' => Beside ufs.sb own T.live n D D' ∧ ∃ own' T', Volume ufs.sb D' own' T' ∧
        Entered ufs T n es ⟨name, child⟩ T')
      (ShortOf T n (entryCost ufs.sb (T.file n).body name)) := by
  refine (addDirectoryEntry_put g hv hn hd h0 h32).mono ?_ ?_
  · rintro - D' ⟨hbeside, own', T', hv', hput⟩
    exact ⟨hbeside, own', T', hv', hput.2 hname⟩
  · rintro e image (hshort | hlong)
    · exact hshort
    · simp only [ufsDirblksiz, ufsDirsiz, ufsDirentHeaderSize] at hlong
      omega

theorem addDirectoryEntry_stores (hn : n ∈ T.live) (hd : Directory (T.file n).body es)
    {name : Str} {child : ℕ} (hname : name.length ≤ 255) (h0 : child ≠ 0) (h32 : child < 2 ^ 32) :
    (addDirectoryEntry ufs n (T.file n).inode name child).hoare ufs.Stores T
      (fun _ T' => Entered ufs T n es ⟨name, child⟩ T')
      (ShortOf T n (entryCost ufs.sb (T.file n).body name)) :=
  hoare_stores fun g _ _ hv => (addDirectoryEntry_hoare g hv hn hd hname h0 h32).post
    fun _ _ h => h.2

end Insert

end UfsFuse
