import UfsFuse.Volume

/-!
# The write path on tables

Each call of the write path as a change of the table that the image stores.
-/
namespace UfsFuse

section Reads
variable {ufs : Ufs} {image : Bytes} {T : Table} {n : ℕ}

theorem Ufs.Stores.geom (h : ufs.Stores image T) : ufs.sb.Geometry := by
  obtain ⟨D, own, hi, -⟩ := h
  exact hi.geom

theorem Volume.body_length {sb : Superblock} {D : Disk} {own : ℕ → Owned} (g : sb.Geometry)
    (h : Volume sb D own T) (hn : n ∈ T.live) : (T.file n).body.length = (T.file n).inode.size := by
  rw [← h.body n hn, (h.laid n hn).contents_length g, h.inode n hn]

theorem Ufs.Stores.body_length (h : ufs.Stores image T) (hn : n ∈ T.live) :
    (T.file n).body.length = (T.file n).inode.size := by
  have g := h.geom
  obtain ⟨D, own, -, hv⟩ := h
  exact hv.body_length g hn

theorem Ufs.Stores.body_lt (h : ufs.Stores image T) (hn : n ∈ T.live) :
    (T.file n).body.length < 2 ^ 63 := by
  rw [h.body_length hn]
  obtain ⟨D, own, -, hv⟩ := h
  rw [← hv.inode n hn]
  exact (hv.laid n hn).size_lt

theorem Ufs.Stores.readInode (h : ufs.Stores image T) (hn : n ∈ T.live) :
    readInode image ufs n = some (T.file n).inode.toInode := by
  obtain ⟨D, own, hi, hv⟩ := h
  rw [hi.readInode (hv.live_lt hn), hv.inode n hn]

theorem Ufs.Stores.readInodeBytes (h : ufs.Stores image T) (hn : n ∈ T.live) :
    readInodeBytes image ufs (T.file n).inode = .ok (T.file n).body := by
  obtain ⟨D, own, hi, hv⟩ := h
  have hr := hi.readInodeBytes (hv.laid n hn) (hv.isRun hn)
  rwa [hv.body n hn, hv.inode n hn] at hr

theorem Ufs.Stores.readInodeRange (h : ufs.Stores image T) (hn : n ∈ T.live) (offset size : ℕ) :
    readInodeRange image ufs (T.file n).inode offset size =
      .ok ((T.file n).body.slice offset size) := by
  obtain ⟨D, own, hi, hv⟩ := h
  have hr := hi.readInodeRange (hv.laid n hn) (hv.isRun hn) offset size
  rwa [hv.body n hn, hv.inode n hn] at hr

end Reads

section Rules
variable {ufs : Ufs} {T : Table} {n : ℕ} {E : Fault → Bytes → Prop}

/-- A file that is not there has no blocks to give back. -/
theorem Ufs.Stores.room_eq {image : Bytes} (h : ufs.Stores image T) {m : ℕ} (hm : m ∉ T.used) :
    T.room m = T.room 0 := by
  obtain ⟨D, own, -, hv⟩ := h
  have h0 : 0 ∉ T.live := Finset.disjoint_left.mp hv.apart hv.reserved_zero
  have hml : m ∉ T.live := fun h => hm (Finset.mem_union_right _ h)
  rw [← hv.room m, ← hv.room 0, Finset.erase_eq_of_notMem h0, Finset.erase_eq_of_notMem hml]

/-- A rule about the view gives one about tables. -/
theorem hoare_stores {α : Type} {x : Write α} {Q : α → Table → Prop}
    (h : ufs.sb.Geometry → ∀ D own, Volume ufs.sb D own T →
      x.hoare ufs.Holds D (fun a D' => ∃ own' T', Volume ufs.sb D' own' T' ∧ Q a T') E) :
    x.hoare ufs.Stores T Q E := by
  constructor
  rintro image ⟨D, own, hi, hv⟩
  refine ((h hi.geom D own hv).run image hi).mono (fun a t ht => ?_) fun _ _ he => he
  obtain ⟨D', ht', own', T', hv', hq⟩ := ht
  exact ⟨T', ⟨D', own', ht', hv'⟩, hq⟩

/-- What holds of every stored table may be assumed of this one. -/
theorem hoare_stored {α : Type} {x : Write α} {Q : α → Table → Prop}
    (h : ∀ image, ufs.Stores image T → x.hoare ufs.Stores T Q E) : x.hoare ufs.Stores T Q E :=
  ⟨fun image hi => (h image hi).run image hi⟩

/-- A stored table comes with a geometry. -/
theorem hoare_geom {α : Type} {x : Write α} {Q : α → Table → Prop}
    (h : ufs.sb.Geometry → x.hoare ufs.Stores T Q E) : x.hoare ufs.Stores T Q E :=
  ⟨fun image hi => (h hi.geom).run image hi⟩

/-- A call that failed for want of blocks, with those of file `n` given back. -/
def ShortOf (T : Table) (n need : ℕ) (_ : Fault) (_ : Bytes) : Prop := T.room n < need

/-- The file that replaces file `n`, and the free blocks then. -/
theorem setInodeContents_volume {D : Disk} {own : ℕ → Owned} (g : ufs.sb.Geometry)
    (hv : Volume ufs.sb D own T) (hn : n ∈ T.live) {new : Bytes} (hnew : new.length < 2 ^ 63) :
    (setInodeContents ufs n new).hoare ufs.Holds D
      (fun _ D' => ∃ o, Replaced ufs.sb D D' n o (ledger ufs.sb D own (T.live.erase n)) ∧
        Volume ufs.sb D' (Function.update own n o) (T.setFile n ⟨D'.ino n, new⟩ fun m =>
          spare ufs.sb (ledger ufs.sb D' (Function.update own n o) (T.live.erase m))) ∧
        (D'.ino n).core = (T.file n).inode.core ∧ (D'.ino n).size = new.length ∧
        spare ufs.sb (ledger ufs.sb D' (Function.update own n o) (T.live.erase n)) = T.room n ∧
        ∀ m, T.room m ≤ spare ufs.sb (ledger ufs.sb D' (Function.update own n o) (T.live.erase m)) +
          ufs.sb.blocksNeeded new.length)
      (ShortOf T n (ufs.sb.blocksNeeded new.length)) := by
  refine (setInodeContents_hoare g hv.pointers (hv.live_lt hn) (hv.space_at hn) (hv.laid n hn)
    hnew).mono ?_ ?_
  · rintro - D' ⟨o, hr, hsize, hcore, hbody, hroom, hheads⟩
    obtain ⟨hown, hall⟩ := hv.room_replaced g hn hr
    rw [hroom] at hall
    refine ⟨o, hr, hv.replaced g hn hr (fun _ => hheads) hbody, ?_, hsize, hown, hall⟩
    rw [hcore, hv.inode n hn]
  · rintro e image ⟨D₁, hs₁, -, hout⟩
    rw [ShortOf, ← hv.room, ← hs₁.total_spare g]
    exact hout.nbfree_lt

theorem setInodeContents_stores (hn : n ∈ T.live) {new : Bytes} (hnew : new.length < 2 ^ 63) :
    (setInodeContents ufs n new).hoare ufs.Stores T
      (fun _ T' => ∃ i room, T' = T.setFile n ⟨i, new⟩ room ∧ i.core = (T.file n).inode.core ∧
        i.size = new.length ∧ room n = T.room n ∧
        ∀ m, T.room m ≤ room m + ufs.sb.blocksNeeded new.length)
      (ShortOf T n (ufs.sb.blocksNeeded new.length)) := by
  refine hoare_stores fun g D own hv => ?_
  refine (setInodeContents_volume g hv hn hnew).post ?_
  rintro - D' ⟨o, -, hv', hcore, hsize, hroom⟩
  exact ⟨_, _, hv', D'.ino n, _, rfl, hcore, hsize, hroom⟩

/-- The same for a write within file `n` or over its end. -/
theorem applyInodeWrite_volume {D : Disk} {own : ℕ → Owned} (g : ufs.sb.Geometry)
    (hv : Volume ufs.sb D own T) (hn : n ∈ T.live) {offset : ℕ} {data : Bytes}
    (ho : offset ≤ (T.file n).body.length) (hend : offset + data.length < 2 ^ 63) :
    (applyInodeWrite ufs n offset data).hoare ufs.Holds D
      (fun _ D' => ∃ o, Replaced ufs.sb D D' n o (ledger ufs.sb D own (T.live.erase n)) ∧
        Volume ufs.sb D' (Function.update own n o)
          (T.setFile n ⟨D'.ino n, (T.file n).body.overlay offset data⟩ fun m =>
            spare ufs.sb (ledger ufs.sb D' (Function.update own n o) (T.live.erase m))) ∧
        (D'.ino n).core = (T.file n).inode.core ∧
        (D'.ino n).size = max (T.file n).body.length (offset + data.length) ∧
        spare ufs.sb (ledger ufs.sb D' (Function.update own n o) (T.live.erase n)) = T.room n ∧
        ∀ m, T.room m ≤ spare ufs.sb (ledger ufs.sb D' (Function.update own n o) (T.live.erase m)) +
          ufs.sb.blocksNeeded (max (T.file n).body.length (offset + data.length)))
      (ShortOf T n (ufs.sb.blocksNeeded (max (T.file n).body.length (offset + data.length)))) := by
  have hsize : (D.ino n).size = (T.file n).body.length := by
    rw [hv.body_length g hn, hv.inode n hn]
  have h := applyInodeWrite_hoare g hv.pointers (hv.live_lt hn) (hv.space_at hn) (hv.laid n hn)
    (hv.blocks n hn) (ho.trans hsize.ge) hend
  rw [hsize, hv.body n hn] at h
  refine h.mono ?_ ?_
  · rintro - D' ⟨o, hr, hsize', hcore, hbody, hroom, hheads⟩
    obtain ⟨hown, hall⟩ := hv.room_replaced g hn hr
    refine ⟨o, hr, hv.replaced g hn hr (fun hp => hheads (hv.heads_at hn hp)) hbody, ?_, hsize', hown,
      fun m => ?_⟩
    · rw [hcore, hv.inode n hn]
    · cases hroom with
      | inr hlen =>
        rw [← hlen]
        exact hall m
      | inl hsame =>
        have hledger : ledger ufs.sb D' (Function.update own n o) (T.live.erase m) =
            ledger ufs.sb D own (T.live.erase m) := by
          refine ledger_congr_runs fun x _ => ?_
          by_cases hxn : x = n
          · rw [hxn, Function.update_self]
            exact hsame
          · rw [Function.update_of_ne hxn, hr.inodes x hxn]
        rw [← hv.room m, hledger]
        exact Nat.le_add_right _ _
  · intro e image hstr
    rw [ShortOf, ← hv.room]
    exact hstr.spare_lt g

theorem applyInodeWrite_stores (hn : n ∈ T.live) {offset : ℕ} {data : Bytes}
    (ho : offset ≤ (T.file n).body.length) (hend : offset + data.length < 2 ^ 63) :
    (applyInodeWrite ufs n offset data).hoare ufs.Stores T
      (fun _ T' => ∃ i room, T' = T.setFile n ⟨i, (T.file n).body.overlay offset data⟩ room ∧
        i.core = (T.file n).inode.core ∧
        i.size = max (T.file n).body.length (offset + data.length) ∧
        room n = T.room n ∧ ∀ m, T.room m ≤ room m +
          ufs.sb.blocksNeeded (max (T.file n).body.length (offset + data.length)))
      (ShortOf T n (ufs.sb.blocksNeeded (max (T.file n).body.length (offset + data.length)))) := by
  refine hoare_stores fun g D own hv => ?_
  refine (applyInodeWrite_volume g hv hn ho hend).post ?_
  rintro - D' ⟨o, -, hv', hcore, hsize, hroom⟩
  exact ⟨_, _, hv', D'.ino n, _, rfl, hcore, hsize, hroom⟩

theorem allocateInode_stores {near : ℕ} {directory : Bool} :
    (allocateInode ufs (some near) directory).hoare ufs.Stores T
      (fun m T' => m ∉ T.used ∧ m < ufs.sb.inodes ∧ T' = T.reserve m directory)
      (fun _ image => ufs.Stores image T ∧ T.used.card = ufs.sb.inodes) := by
  refine hoare_stores fun g D own hv => ?_
  refine (allocateInode_hoare g hv.map).mono ?_ ?_
  · intro m D' ht
    exact ⟨own, _, hv.reserve ht, ht.fresh, ht.lt, rfl⟩
  · rintro e image ⟨hi, hfull⟩
    exact ⟨⟨D, own, hi, hv⟩, hfull⟩

theorem initializeInode_stores (hn : n ∈ T.reserved) (hn2 : 2 ≤ n)
    {mode uid gid nlink timestamp : ℕ} :
    (initializeInode ufs n mode uid gid nlink timestamp).hoare ufs.Stores T
      (fun _ T' => T' = T.create n (Dinode.fresh mode uid gid nlink timestamp)) E := by
  refine hoare_stores fun g D own hv => ?_
  have hlt : n < ufs.sb.inodes := hv.map.inRange n (Finset.mem_union_left _ hn)
  exact initializeInode_hoare hlt ⟨_, _, hv.create hn hn2 rfl, rfl⟩

theorem writeInodeNlink_stores (hn : n ∈ T.live) {nlink : ℕ} :
    (writeInodeNlink ufs n nlink).hoare ufs.Stores T
      (fun _ T' => T' = T.setInode n { (T.file n).inode with nlink := nlink % 2 ^ 16 }) E := by
  refine hoare_stores fun g D own hv => writeInodeNlink_hoare (hv.live_lt hn) ?_
  rw [hv.inode n hn]
  exact ⟨own, _, hv.setInode g hn rfl, rfl⟩

theorem setInodeMode_stores (hn : n ∈ T.live) {mode : ℕ} :
    (setInodeMode ufs n mode).hoare ufs.Stores T
      (fun _ T' => T' = T.setInode n { (T.file n).inode with mode := mode % 2 ^ 32 }) E := by
  refine hoare_stores fun g D own hv => setInodeMode_hoare (hv.live_lt hn) ?_
  rw [hv.inode n hn]
  exact ⟨own, _, hv.setInode g hn rfl, rfl⟩

theorem setInodeOwner_stores (hn : n ∈ T.live) {uid gid : ℕ} :
    (setInodeOwner ufs n uid gid).hoare ufs.Stores T
      (fun _ T' => T' = T.setInode n { (T.file n).inode with
        uid := uid % 2 ^ 32
        gid := gid % 2 ^ 32
        suid := uid % 2 ^ 16
        sgid := gid % 2 ^ 16 }) E := by
  refine hoare_stores fun g D own hv => setInodeOwner_hoare (hv.live_lt hn) ?_
  rw [hv.inode n hn]
  exact ⟨own, _, hv.setInode g hn rfl, rfl⟩

theorem setInodeTimes_stores (hn : n ∈ T.live) {atime mtime ctime : Option ℕ} :
    (setInodeTimes ufs n atime mtime ctime).hoare ufs.Stores T
      (fun _ T' => T' = T.setInode n { (T.file n).inode with
        atime := timeOr atime (T.file n).inode.atime
        mtime := timeOr mtime (T.file n).inode.mtime
        ctime := timeOr ctime (T.file n).inode.ctime
        atimeMicros := microsOr atime (T.file n).inode.atimeMicros
        mtimeMicros := microsOr mtime (T.file n).inode.mtimeMicros
        ctimeMicros := microsOr ctime (T.file n).inode.ctimeMicros }) E := by
  refine hoare_stores fun g D own hv => setInodeTimes_hoare (hv.live_lt hn) ?_
  rw [hv.inode n hn]
  exact ⟨own, _, hv.setInode g hn rfl, rfl⟩

/-- Truncation to the size that the file has does nothing. -/
theorem truncate_stores (hn : n ∈ T.live) {size : ℕ} (hsize : size < 2 ^ 63) :
    (truncate ufs n size).hoare ufs.Stores T
      (fun _ T' => (T' = T ∧ (T.file n).body.length = size) ∨
        ∃ i room, T' = T.setFile n ⟨i, (T.file n).body.resize size⟩ room ∧
          i.core = (T.file n).inode.core ∧ i.size = size ∧ room n = T.room n ∧
          ∀ m, T.room m ≤ room m + ufs.sb.blocksNeeded size)
      (ShortOf T n (ufs.sb.blocksNeeded size)) := by
  refine hoare_stored fun image hst => ?_
  have hlen := hst.body_length hn
  rw [truncate, readInodeOr]
  refine Act.hoare.bind (P := fun i T' => T' = T ∧ i = (T.file n).inode) ?_ ?_
  · refine Act.hoare_read_bind (a := some (T.file n).inode.toInode)
      (fun image hi => by rw [hi.readInode hn]) ?_
    exact Act.hoare_pure ⟨rfl, rfl⟩
  rintro i T' ⟨rfl, rfl⟩
  refine Act.hoare_ite (fun h => Act.hoare_pure (.inl ⟨rfl, hlen.trans h⟩)) fun _ => ?_
  refine Act.hoare_read_bind (fun image hi => hi.readInodeBytes hn) ?_
  refine Act.hoare_lift_bind (Outcome.guard_true hsize) ?_
  have h := @setInodeContents_stores ufs T' n hn ((T'.file n).body.resize size)
    (by rw [Bytes.resize_length]; exact hsize)
  rw [Bytes.resize_length] at h
  exact h.post fun _ T'' hT'' => .inr hT''

/-- The size and the block count of an empty file are zero already. -/
theorem empty_fields (g : ufs.sb.Geometry) {D : Disk} {own : ℕ → Owned}
    (hv : Volume ufs.sb D own T) (hn : n ∈ T.live) (hb : (T.file n).body = []) :
    (D.ino n).size = 0 ∧ (D.ino n).blocks = 0 := by
  have hlen := hv.body_length g hn
  rw [hb, List.length_nil, ← hv.inode n hn] at hlen
  refine ⟨hlen.symm, ?_⟩
  rw [hv.blocks n hn, hv.own_of_empty g hn hb]
  rfl

theorem writeInodeSize_stores (hn : n ∈ T.live) (hb : (T.file n).body = []) :
    (writeInodeSize ufs n 0).hoare ufs.Stores T (fun _ T' => T' = T) E := by
  refine hoare_stores fun g D own hv => writeInodeSize_hoare (hv.live_lt hn) ?_
  have hsame : { D.ino n with size := 0 % 2 ^ 64 } = D.ino n := by
    rw [Nat.zero_mod, ← (empty_fields g hv hn hb).1]
  rw [hsame, Disk.setIno_self]
  exact ⟨own, T, hv, rfl⟩

theorem writeInodeBlocks_stores (hn : n ∈ T.live) (hb : (T.file n).body = []) :
    (writeInodeBlocks ufs n 0).hoare ufs.Stores T (fun _ T' => T' = T) E := by
  refine hoare_stores fun g D own hv => writeInodeBlocks_hoare (hv.live_lt hn) ?_
  have hsame : { D.ino n with blocks := 0 % 2 ^ 32 } = D.ino n := by
    rw [Nat.zero_mod, ← (empty_fields g hv hn hb).2]
  rw [hsame, Disk.setIno_self]
  exact ⟨own, T, hv, rfl⟩

/-- A device number in the direct pointers of an empty file. -/
theorem writeDevice_stores (hn : n ∈ T.live) (hb : (T.file n).body = []) {device : List ℕ}
    (hd : device.length ≤ ufsNdaddr) (h32 : ∀ v ∈ device, v < 2 ^ 32) :
    (writeBlockLists ufs n device [0, 0, 0]).hoare ufs.Stores T
      (fun _ T' => ∃ i, T' = T.setInode n i ∧ i.core = (T.file n).inode.core ∧ i.size = 0) E := by
  refine hoare_stores fun g D own hv => ?_
  obtain ⟨hsize, hblocks⟩ := empty_fields g hv hn hb
  refine writeBlockLists_hoare (hv.live_lt hn) hd rfl h32 (by simp) ?_
  refine ⟨own, _, hv.setDevice g hn hb hsize hblocks ?_ rfl, _, rfl, ?_, hsize⟩
  · simp only [List.length_append, List.length_replicate]
    omega
  · rw [← hv.inode n hn]
    rfl

/-- Contents, inode and number of a file are given back. -/
theorem dropInode_stores (hn : n ∈ T.live) (directory : Bool) (hdir : directory = true ↔ n ∈ T.dirs) :
    (do
      freeInodeContents ufs n
      clearInode ufs n
      freeInode ufs n directory).hoare ufs.Stores T
      (fun _ T' => ∃ f room, T' = (T.setFile n f room).remove n ∧ ∀ m, T.room m ≤ room m) E := by
  refine hoare_geom fun g => ?_
  have hzero : ufs.sb.blocksNeeded ([] : Bytes).length = 0 := Superblock.blocksNeeded_zero _
  refine Act.hoare.bind (P := fun _ T' => ∃ i room, T' = T.setFile n ⟨i, []⟩ room ∧
    ∀ m, T.room m ≤ room m)
    ?_ ?_
  · refine (@setInodeContents_stores ufs T n hn [] (by simp)).mono ?_ fun e image he => ?_
    · rintro - T' ⟨i, room, rfl, -, -, -, hroom⟩
      rw [hzero] at hroom
      exact ⟨i, room, rfl, hroom⟩
    · rw [ShortOf, hzero] at he
      exact absurd he (Nat.not_lt_zero _)
  rintro - T' ⟨i, room, rfl, hroom⟩
  have hlive : n ∈ (T.setFile n ⟨i, []⟩ room).live := hn
  have hbody : ((T.setFile n ⟨i, []⟩ room).file n).body = [] := by
    simp only [Table.setFile, Function.update_self]
  refine Act.hoare.bind (P := fun _ T' => T' = (T.setFile n ⟨i, []⟩ room).setInode n Dinode.blank) ?_ ?_
  · refine hoare_stores fun g D own hv => clearInode_hoare (hv.live_lt hlive) ⟨own, _, ?_, rfl⟩
    exact hv.setDevice g hlive hbody rfl rfl List.length_replicate rfl
  rintro - T' rfl
  refine hoare_stores fun g D own hv => ?_
  have hb2 : (((T.setFile n ⟨i, []⟩ room).setInode n Dinode.blank).file n).body = [] := by
    simp only [Table.setInode, Table.setFile, Function.update_self]
  have hused : n ∈ ((T.setFile n ⟨i, []⟩ room).setInode n Dinode.blank).used :=
    Finset.mem_union_right _ hn
  refine (freeInode_hoare g hv.map hused hdir).post ?_
  rintro - D' ⟨hm, ho⟩
  refine ⟨own, _, hv.remove hn (hv.own_of_empty g hn hb2) hm ho, ⟨Dinode.blank, []⟩, room, ?_, hroom⟩
  simp [Table.setInode, Table.setFile, Table.remove]

end Rules
end UfsFuse
