import UfsFuse.Calls

/-!
# One call

What the conditions on a call say about table and tree, and the step that follows: a call whose
conditions are met keeps a file system consistent, also when it is refused.
-/
namespace UfsFuse

/-! ## Conditions on the tree of names -/
section Bridge
variable {image : Bytes} {ufs : Ufs} {T : Table} {N : NameTree} {p q n : ℕ} {name : Str} {extra : ℕ}

theorem mem_usedDirs : n ∈ usedDirs image ufs ↔ isDir image ufs n = true := by
  rw [usedDirs, Finset.mem_filter, Finset.mem_range]
  refine and_iff_right_of_imp fun h => ?_
  unfold isDir inUse at h
  simp only [Bool.and_eq_true, decide_eq_true_iff] at h
  exact h.1.1.2

theorem Shows.isDir (h : Shows image ufs N) : UfsFuse.isDir image ufs n = true ↔ n ∈ N.dirs := by
  rw [← mem_usedDirs, h.dirs]

theorem Shows.nlinkOf (h : Shows image ufs N) (hn : n ∈ N.live) :
    UfsFuse.nlinkOf image ufs n = N.links n := by
  obtain ⟨i, hi, hl⟩ := h.nlink n hn
  rw [UfsFuse.nlinkOf, hi]
  exact hl

theorem Shows.mem_entriesAt (h : Shows image ufs N) (hp : p ∈ N.dirs) {e : Entry} :
    e ∈ entriesAt image ufs p ↔ e ∈ N.records p := by
  rw [← h.entries p hp, Multiset.mem_coe]

theorem Shows.fresh (h : Shows image ufs N) (hp : p ∈ N.dirs) :
    (∀ e ∈ entriesAt image ufs p, e.name ≠ name) ↔ N.Fresh p name := by
  constructor
  · intro hf hm
    obtain ⟨e, he, hname⟩ := Multiset.mem_map.mp hm
    exact hf e ((h.mem_entriesAt hp).mpr he) hname
  · intro hf e he hname
    exact hf (Multiset.mem_map.mpr ⟨e, (h.mem_entriesAt hp).mp he, hname⟩)

theorem Shows.canFind (h : Shows image ufs N) (hp : p ∈ N.dirs) :
    CanFind image ufs p name ↔ N.Sure p name := by
  refine or_congr Iff.rfl (forall_congr' fun e => ?_)
  rw [h.mem_entriesAt hp]

theorem Shows.parentOf (h : Shows image ufs N) (hs : N.Sound) (hp : p ∈ N.dirs) :
    UfsFuse.parentOf image ufs p = N.up p := by
  have hmem : (⟨dotdotName, N.up p⟩ : Entry) ∈ N.records p :=
    Multiset.mem_cons_of_mem (Multiset.mem_cons_self _ _)
  have hf := find_name (h.entries p hp) (hs.names p hp) hmem
  rw [UfsFuse.parentOf, hf]
  rfl

theorem Shows.parentOf_iterate (h : Shows image ufs N) (hs : N.Sound) (k : ℕ) :
    ∀ {q : ℕ}, q ∈ N.dirs → (UfsFuse.parentOf image ufs)^[k] q = N.up^[k] q := by
  induction k with
  | zero => exact fun _ => rfl
  | succ k ih =>
    intro q hq
    rw [Function.iterate_succ_apply, Function.iterate_succ_apply, h.parentOf hs hq,
      ih (hs.up_mem hq)]

theorem Ufs.Stores.entryNeeds (h : ufs.Stores image T) (hn : n ∈ T.live) :
    UfsFuse.entryNeeds image ufs n name = entryCost ufs.sb (T.file n).body name := by
  rw [UfsFuse.entryNeeds, h.readInode hn]
  dsimp only
  rw [h.readInodeBytes hn]

/-- What the conditions on one directory and one name say about the tree. -/
theorem CanEnter.facts (h : CanEnter image ufs p name) (hsh : Shows image ufs N) (hp : p ∈ N.dirs) :
    NameOk name ∧ N.Fresh p name :=
  ⟨⟨h.ne, h.le⟩, (hsh.fresh hp).mp h.fresh⟩

theorem RoomFor.roomy (h : RoomFor image ufs p name extra) (hi : ufs.Stores image T)
    (hp : p ∈ T.live) : Roomy ufs.sb T p name extra := by
  obtain ⟨h1, h2⟩ := h
  rw [hi.freeBlocks] at h1
  rw [hi.entryNeeds hp, hi.blocksBeside hp] at h2
  exact ⟨h1, h2⟩

theorem Carries.inodeFree {m : ℕ} (hc : Carries T N N.links) (hi : ufs.Stores image T)
    (hm : m < ufs.sb.inodes) (hu : m ∉ T.used) : InodeFree image ufs := by
  have hr : m ∉ T.reserved := fun h => hu (Finset.mem_union_left _ h)
  rw [hc.reserved] at hr
  simp only [Finset.mem_insert, Finset.mem_singleton, not_or] at hr
  refine ⟨m, by omega, hm, ?_⟩
  rw [← Bool.not_eq_true, hi.inUse]
  exact fun h => hu h.2

/-- Where there is room, nothing is cramped. -/
theorem Cramped.absurd (h : Cramped ufs.sb T p name extra) (hc : Carries T N N.links)
    (hi : ufs.Stores image T) (hp : p ∈ T.live)
    (hf : InodeFree image ufs → RoomFor image ufs p name extra) : False := by
  obtain ⟨⟨m, hm, hu⟩, hno⟩ := h
  exact hno ((hf (hc.inodeFree hi hm hu)).roomy hi hp)

theorem CanLink.links (h : CanLink image ufs n) (hi : ufs.Stores image T) (hc : Carries T N N.links)
    (hs : N.Sound) (hn : n ∈ N.live) : N.links n + 1 < 2 ^ 16 := by
  unfold CanLink at h
  rwa [(hc.shows hs hi).nlinkOf hn] at h

theorem Below.createsIn {path : Str} (hb : N.Below path p name) (hf : N.Fresh p name)
    (hi : ufs.Stores image T) (hc : Carries T N N.links) (hs : N.Sound)
    (hp : PathInDirs image ufs (splitParent path).1) :
    CreatesIn image ufs path p ∧ name = (splitParent path).2 := by
  obtain ⟨hparts, hlast⟩ := splitParent_parts path
  have hname : name = (splitParent path).2 := hb.last.trans hlast.symm
  have hres := hc.resolvePath hs hi hp
  rw [hparts] at hres
  cases hres with
  | inr h => exact absurd hb.walk (h.1 p)
  | inl h =>
    obtain ⟨q, hw, hr⟩ := h
    obtain rfl := hw.det hs hb.walk
    refine ⟨⟨_, hr, (hc.isDir q (hs.dirs_live hb.dir)).mpr hb.dir, ?_⟩, hname⟩
    rw [← hname]
    exact hc.lookup_fresh hs hi hb.dir hf

/-- What the conditions on a creation by path say. -/
theorem CanCreate.facts {path : Str} (h : CanCreate image ufs path) (hi : ufs.Stores image T)
    (hc : Carries T N N.links) (hs : N.Sound) (hb : N.Below path p name) (hf : N.Fresh p name) :
    NameOk name := by
  obtain ⟨hin, rfl⟩ := Below.createsIn hb hf hi hc hs h.inDirs
  exact ((h.enter p hin).facts (hc.shows hs hi) hb.dir).1

/-- With room for a creation by path, nothing is cramped. -/
theorem RoomToCreate.not_cramped {path : Str} (h : RoomToCreate image ufs path extra)
    (hcan : CanCreate image ufs path) (hi : ufs.Stores image T) (hc : Carries T N N.links)
    (hs : N.Sound) : ¬∃ p name, N.Below path p name ∧ N.Fresh p name ∧
      Cramped ufs.sb T p name extra := by
  rintro ⟨p, name, hb, hf, hcr⟩
  obtain ⟨hin, rfl⟩ := Below.createsIn hb hf hi hc hs hcan.inDirs
  exact hcr.absurd hc hi (hc.live ▸ hs.dirs_live hb.dir) (h p hin)

/-- A path that walks somewhere resolves to that inode. -/
theorem Carries.resolved {path : Str} (hc : Carries T N N.links) (hs : N.Sound)
    (hi : ufs.Stores image T) (hp : PathInDirs image ufs path)
    (hw : N.Walk ufsRootInode (pathParts path) n) :
    UfsFuse.resolvePath image ufs path = .ok (some (n, (T.file n).inode)) := by
  cases hc.resolvePath hs hi hp with
  | inr h => exact absurd hw (h.1 n)
  | inl h =>
    obtain ⟨m, hm, hr⟩ := h
    obtain rfl := hm.det hs hw
    exact hr

/-- What the conditions on a removal by path say. -/
theorem CanRemove.sure {path : Str} (h : CanRemove image ufs path) (hi : ufs.Stores image T)
    (hc : Carries T N N.links) (hs : N.Sound) (hb : N.Below path p name) : N.Sure p name := by
  obtain ⟨hparts, hlast⟩ := splitParent_parts path
  have hw : N.Walk ufsRootInode (pathParts (splitParent path).1) p := by
    rw [hparts]
    exact hb.walk
  have hf := h.find p _ (hc.resolved hs hi h.inDirs.parent hw)
  rw [hlast, ← hb.last] at hf
  exact ((hc.shows hs hi).canFind hb.dir).mp hf

theorem CanRename.canMove {srcName dstName : Str} {e : Entry}
    (h : CanRename image ufs p srcName q dstName) (hi : ufs.Stores image T)
    (hc : Carries T N N.links) (hs : N.Sound) (hp : p ∈ N.dirs) (hq : q ∈ N.dirs)
    (he : e ∈ N.kids p) (hname : e.name = srcName) : CanMove N p q e dstName := by
  have hsh := hc.shows hs hi
  have hmem := (hsh.mem_entriesAt hp).mpr (NameTree.kid_record he)
  refine ⟨fun hd k => ?_, fun hd hpq hno => ?_⟩
  · rw [← hsh.parentOf_iterate hs k hq]
    exact h.out e hmem hname (hsh.isDir.mpr hd) k
  · refine (h.links e hmem hname (hsh.isDir.mpr hd) hpq fun x hx hxn => ?_).links hi hc hs
      (hs.dirs_live hq)
    have hxk := NameTree.Sound.kid_of_record ((hsh.mem_entriesAt hq).mp hx)
      (hxn ▸ h.dst_ne.1) (hxn ▸ h.dst_ne.2)
    rw [← Bool.not_eq_true]
    exact fun hxd => hno x hxk hxn (hsh.isDir.mp hxd)

/-- A file in use is no directory of the tree. -/
theorem Shows.file (h : Shows image ufs N) (hf : IsFile image ufs n) : n ∈ N.live ∧ n ∉ N.dirs := by
  refine ⟨(h.live n).mp hf.1, fun hd => ?_⟩
  have hno := hf.2
  rw [h.isDir.mpr hd] at hno
  exact Bool.false_ne_true hno.symm

/-- The file type is in the low bits of a mode. -/
theorem isDirectory_mode_iff (i : Inode) (mode : ℕ) :
    ({ i with mode := mode % 2 ^ 32 } : Inode).isDirectory = true ↔ mode &&& ufsIfmt = ufsIfdir := by
  have hmask : mode % 2 ^ 32 &&& ufsIfmt = mode &&& ufsIfmt := by
    apply Nat.eq_of_testBit_eq
    intro k
    rw [Nat.testBit_land, Nat.testBit_land, Nat.testBit_mod_two_pow]
    by_cases hk : k < 32
    · simp [hk]
    · rw [ufsIfmt_testBit k (not_lt.mp hk), Bool.and_false, Bool.and_false]
  rw [Inode.isDirectory, Inode.fileType]
  dsimp only
  rw [hmask, beq_iff_eq]

theorem symlink_type (mode : ℕ) : fileTypeOf (ufsIflnk ||| mode) ≠ ufsIfdir := by
  have hbit : Nat.testBit ((ufsIflnk ||| mode) &&& ufsIfmt) 15 = true := by
    rw [Nat.testBit_land, Nat.testBit_lor, show Nat.testBit ufsIflnk 15 = true by decide,
      show Nat.testBit ufsIfmt 15 = true by decide]
    simp
  unfold fileTypeOf
  split_ifs with h
  · intro he
    rw [he] at hbit
    exact absurd hbit (by decide)
  · rw [not_not.mp h] at hbit
    exact absurd hbit (by decide)

end Bridge

/-- A file system in which everything fits: every allocated block has one owner, the directories form
a tree, every inode in use has a name and as many links as records. -/
def Consistent (image : Bytes) (ufs : Ufs) : Prop :=
  ∃ T N, ufs.Stores image T ∧ Carries T N N.links ∧ N.Sound

/-! ## One call -/

/-- The attributes that a call gives inode `n`, which had `i`. -/
def Call.setAttrs : Call → ℕ → Dinode → Dinode
  | .setInodeMode m mode, n, i => if n = m then { i with mode := mode % 2 ^ 32 } else i
  | .setInodeOwner m uid gid, n, i =>
      if n = m then
        { i with
          uid := uid % 2 ^ 32
          gid := gid % 2 ^ 32
          suid := uid % 2 ^ 16
          sgid := gid % 2 ^ 16 }
      else i
  | .setInodeTimes m atime mtime ctime, n, i =>
      if n = m then
        { i with
          atime := timeOr atime i.atime
          mtime := timeOr mtime i.mtime
          ctime := timeOr ctime i.ctime
          atimeMicros := microsOr atime i.atimeMicros
          mtimeMicros := microsOr mtime i.mtimeMicros
          ctimeMicros := microsOr ctime i.ctimeMicros }
      else i
  | _, _, i => i

/-- What a call does to the attributes in a table: new inodes get those that a creation gives, the
others keep theirs or get what the call sets. -/
structure Call.Effect (c : Call) (T T' : Table) : Prop where
  packed : T'.packed = T.packed
  slack : T'.slack = T.slack
  attrs : ∀ n ∈ T'.live,
    (n ∈ T.live ∧ (T'.file n).inode.attrs = c.setAttrs n (T.file n).inode.attrs) ∨
    (n ∉ T.live ∧ ∃ mode uid gid nlink timestamp,
      (T'.file n).inode.attrs = (Dinode.fresh mode uid gid nlink timestamp).attrs)

/-- The image after a call: it stores a table with a sound tree. -/
def Call.After (c : Call) (ufs : Ufs) (T : Table) (image : Bytes) : Prop :=
  ∃ T' N, ufs.Stores image T' ∧ Carries T' N N.links ∧ N.Sound ∧ c.Effect T T'

section Step
variable {image t : Bytes} {ufs : Ufs} {T T' : Table} {N : NameTree} {p m : ℕ} {name : Str} {e : Entry}
  {c : Call}

theorem Call.After.consistent (h : c.After ufs T t) : Consistent t ufs := by
  obtain ⟨T', N, ht, hc, hs, -⟩ := h
  exact ⟨T', N, ht, hc, hs⟩

/-- The effect of a call that sets no attributes. -/
theorem Table.Keeps.effect (hk : T.Keeps T') (hset : ∀ n i, c.setAttrs n i = i)
    (hnew : ∀ n ∈ T'.live, n ∉ T.live → ∃ mode uid gid nlink timestamp,
      (T'.file n).inode.attrs = (Dinode.fresh mode uid gid nlink timestamp).attrs) :
    c.Effect T T' := by
  refine ⟨hk.packed, hk.slack, fun n hn => ?_⟩
  by_cases hold : n ∈ T.live
  · rw [hset]
    exact .inl ⟨hold, (hk.files n hold hn).1⟩
  · exact .inr ⟨hold, hnew n hn hold⟩

theorem Table.Keeps.effect_sub (hk : T.Keeps T') (hset : ∀ n i, c.setAttrs n i = i)
    (hsub : T'.live ⊆ T.live) : c.Effect T T' :=
  hk.effect hset fun _ hn hno => absurd (hsub hn) hno

/-- The effect of setting attributes of one inode. -/
theorem Table.effect_setInode {i : Dinode} (hi : i.attrs = c.setAttrs p (T.file p).inode.attrs)
    (hset : ∀ n ≠ p, ∀ i, c.setAttrs n i = i) : c.Effect T (T.setInode p i) := by
  refine ⟨rfl, rfl, fun n hn => .inl ⟨hn, ?_⟩⟩
  by_cases hnp : n = p
  · subst hnp
    rw [Table.setInode, Table.setFile_self]
    exact hi
  · rw [Table.setInode, T.setFile_of_ne hnp, hset n hnp]

theorem NewFile.after (h : NewFile T N p name m T') (ht : ufs.Stores t T')
    (hc : Carries T N N.links) (hs : N.Sound) (hp : p ∈ N.dirs) (hf : N.Fresh p name)
    (hne : name ≠ []) {mode uid gid nlink timestamp : ℕ}
    (hcore : (T'.file m).inode.core = (Dinode.fresh mode uid gid nlink timestamp).core)
    (hset : ∀ n i, c.setAttrs n i = i) : c.After ufs T t := by
  have hm : m ∉ N.dirs := fun hd =>
    h.fresh (Finset.mem_union_right _ (hc.live ▸ hs.dirs_live hd))
  refine ⟨T', _, ht, h.carries, @NameTree.Sound.enter N p ⟨name, m⟩ hs hp hf hne hm,
    h.keeps.effect hset fun n hn hno => ?_⟩
  rw [h.carries.live, NameTree.enter] at hn
  rcases Finset.mem_insert.mp hn with rfl | hn
  · exact ⟨mode, uid, gid, nlink, timestamp, Dinode.attrs_of_core hcore⟩
  · exact absurd (hc.live ▸ hn) hno

theorem NewDir.after (h : NewDir T N p name m T') (ht : ufs.Stores t T')
    (hc : Carries T N N.links) (hs : N.Sound) (hp : p ∈ N.dirs) (hf : N.Fresh p name)
    (hne : name ≠ []) {mode uid gid nlink timestamp : ℕ}
    (hattrs : (T'.file m).inode.attrs = (Dinode.fresh mode uid gid nlink timestamp).attrs)
    (hset : ∀ n i, c.setAttrs n i = i) : c.After ufs T t := by
  have hm : m ∉ N.live := fun hd => h.fresh (Finset.mem_union_right _ (hc.live ▸ hd))
  refine ⟨T', _, ht, h.carries, @NameTree.Sound.enterDir N p ⟨name, m⟩ hs hp hf hne hm,
    h.keeps.effect hset fun n hn hno => ?_⟩
  rw [h.carries.live, NameTree.enterDir] at hn
  rcases Finset.mem_insert.mp hn with rfl | hn
  · exact ⟨mode, uid, gid, nlink, timestamp, hattrs⟩
  · exact absurd (hc.live ▸ hn) hno

/-- A new name of an old file. -/
theorem Carries.after_link (hc' : Carries T' (N.enter p ⟨name, m⟩) (N.enter p ⟨name, m⟩).links)
    (hk : T.Keeps T') (ht : ufs.Stores t T') (hc : Carries T N N.links) (hs : N.Sound)
    (hp : p ∈ N.dirs) (hf : N.Fresh p name) (hne : name ≠ []) (hm : m ∈ N.live) (hnd : m ∉ N.dirs)
    (hset : ∀ n i, c.setAttrs n i = i) : c.After ufs T t := by
  refine ⟨T', _, ht, hc', @NameTree.Sound.enter N p ⟨name, m⟩ hs hp hf hne hnd,
    hk.effect_sub hset ?_⟩
  rw [hc'.live, hc.live, NameTree.enter]
  exact Finset.insert_subset hm subset_rfl

theorem LeftFile.after (h : LeftFile T N p e T') (ht : ufs.Stores t T') (hc : Carries T N N.links)
    (hs : N.Sound) (hp : p ∈ N.dirs) (he : e ∈ N.kids p) (hd : e.inode ∉ N.dirs)
    (hset : ∀ n i, c.setAttrs n i = i) : c.After ufs T t := by
  refine ⟨T', _, ht, h.carries, hs.leave hp he hd, h.keeps.effect_sub hset ?_⟩
  rw [h.carries.live, hc.live, NameTree.leave]
  dsimp only
  split_ifs
  · exact Finset.erase_subset _ _
  · exact subset_rfl

theorem LeftDir.after (h : LeftDir T N p e T') (ht : ufs.Stores t T') (hc : Carries T N N.links)
    (hs : N.Sound) (hp : p ∈ N.dirs) (he : e ∈ N.kids p) (hd : e.inode ∈ N.dirs)
    (hz : N.kids e.inode = 0) (hset : ∀ n i, c.setAttrs n i = i) : c.After ufs T t := by
  refine ⟨T', _, ht, h.carries, hs.leaveDir hp he hd hz, h.keeps.effect_sub hset ?_⟩
  rw [h.carries.live, hc.live, NameTree.leaveDir]
  exact Finset.erase_subset _ _

/-- New contents leave the attributes. -/
theorem Table.after_setFile {i : Dinode} {body : Bytes} {room : ℕ → ℕ}
    (ht : ufs.Stores t (T.setFile m ⟨i, body⟩ room)) (hc : Carries T N N.links) (hs : N.Sound)
    (hm : m ∈ N.live) (hd : m ∉ N.dirs) (hi : i.core = (T.file m).inode.core)
    (hset : ∀ n i, c.setAttrs n i = i) : c.After ufs T t := by
  refine ⟨_, N, ht, hc.setContents hm hd i body room hi, hs, rfl, rfl, fun n hn => .inl ⟨hn, ?_⟩⟩
  rw [hset]
  by_cases hnm : n = m
  · subst hnm
    rw [Table.setFile_self]
    exact Dinode.attrs_of_core hi
  · rw [T.setFile_of_ne hnm]

/-- The tree after a rename has no other inodes than before. -/
theorem Renamed.live_subset {p q : ℕ} {e : Entry} {N' : NameTree} (h : Renamed N p q e name N')
    (hs : N.Sound) (hp : p ∈ N.dirs) (hq : q ∈ N.dirs) (he : e ∈ N.kids p) : N'.live ⊆ N.live := by
  rcases h with _ | _ | ⟨x, hx, _, hne, hempty⟩
  · exact subset_rfl
  · exact (move_live hs hp hq he).1.le
  · obtain ⟨hs', hp', hq', he', -⟩ := without_facts hs hp hq he hx hne hempty
    rw [(move_live hs' hp' hq' he').1, NameTree.without]
    split_ifs
    · exact Finset.erase_subset _ _
    · rw [NameTree.leave]
      dsimp only
      split_ifs
      · exact Finset.erase_subset _ _
      · exact subset_rfl

theorem Act.wp_discard {ε σ α : Type} {x : Act ε σ α} {s : σ} {Q : σ → Prop} {E : ε → σ → Prop}
    (h : x.wp s (fun _ t => Q t) E) : (discard x).wp s (fun _ t => Q t) E := by
  change (x >>= fun _ => pure ()).wp s (fun _ t => Q t) E
  rw [wp_bind]
  exact h

/-- A call whose conditions are met leaves a sound tree; a refused one leaves the table, unless it
ran out of blocks half-way. -/
theorem Call.step_table (hi : ufs.Stores image T) (hc : Carries T N N.links) (hs : N.Sound)
    (hm : c.Meets image ufs) : (c.perform ufs).wp image (fun _ t => c.After ufs T t)
      (fun _ t => ufs.Stores t T ∨ ¬c.Fits image ufs) := by
  have hsh := hc.shows hs hi
  -- a refusal leaves the table, unless what would have been short contradicts `Fits`
  have hrefused : ∀ {short : Prop} {e : Fault} {t : Bytes}, (short → ¬c.Fits image ufs) →
      Refused ufs T short e t → ufs.Stores t T ∨ ¬c.Fits image ufs :=
    fun hno hr => hr.imp_right hno
  have hlive : ∀ {p}, p ∈ N.dirs → p ∈ T.live := fun hp => hc.live ▸ hs.dirs_live hp
  cases c with
  | createFile path data mode uid gid ts =>
    obtain ⟨hmode, hdata, hcan⟩ := hm
    refine Act.wp_discard ((createFile_stores hi hc hs hcan.inDirs hmode hdata
      fun p name hb hf => (hcan.facts hi hc hs hb hf).le).mono ?_ fun _ t =>
        hrefused fun hshort hfit => hfit.not_cramped hcan hi hc hs hshort)
    rintro m t ⟨T', ht, p, name, hb, hf, hnew, -, hcore⟩
    exact hnew.after ht hc hs hb.dir hf (hcan.facts hi hc hs hb hf).ne hcore fun _ _ => rfl
  | makeDirectory path mode uid gid ts =>
    obtain ⟨hcan, hlink⟩ := hm
    refine Act.wp_discard ((makeDirectory_stores hi hc hs hcan.inDirs
      fun p name hb hf => ?_).mono ?_ fun _ t =>
        hrefused fun hshort hfit => hfit.not_cramped hcan hi hc hs hshort)
    · obtain ⟨hin, -⟩ := Below.createsIn hb hf hi hc hs hcan.inDirs
      exact ⟨hcan.facts hi hc hs hb hf, (hlink p hin).links hi hc hs (hs.dirs_live hb.dir)⟩
    · rintro m t ⟨T', ht, p, name, hb, hf, hnew, hattrs⟩
      exact hnew.after ht hc hs hb.dir hf (hcan.facts hi hc hs hb hf).ne hattrs fun _ _ => rfl
  | link source target =>
    obtain ⟨hsrc, hcan, hlink⟩ := hm
    have hfile : ∀ {n}, N.Walk ufsRootInode (pathParts source) n → n ∉ N.dirs →
        resolvePath image ufs source = .ok (some (n, (T.file n).inode.toInode)) ∧
          (T.file n).inode.isDirectory = false := fun hw hnd =>
      ⟨hc.resolved hs hi hsrc hw, eq_false_of_ne_true fun hd =>
        hnd ((hc.isDir _ (hw.live hs (hs.dirs_live hs.root))).mp hd)⟩
    refine Act.wp_discard ((link_stores hi hc hs hsrc hcan.inDirs
      fun n p name hw hnd hb hf => ?_).mono ?_ fun _ t => hrefused ?_)
    · obtain ⟨hr, hd⟩ := hfile hw hnd
      exact ⟨(hcan.facts hi hc hs hb hf).le,
        (hlink n _ hr hd).links hi hc hs (hw.live hs (hs.dirs_live hs.root))⟩
    · rintro n t ⟨T', ht, p, name, hw, hnd, hb, hf, hc', hk⟩
      exact hc'.after_link hk ht hc hs hb.dir hf (hcan.facts hi hc hs hb hf).ne
        (hw.live hs (hs.dirs_live hs.root)) hnd fun _ _ => rfl
    · rintro ⟨n, p, name, hw, hnd, hb, hf, hno⟩ hfit
      obtain ⟨hr, hd⟩ := hfile hw hnd
      obtain ⟨hin, rfl⟩ := Below.createsIn hb hf hi hc hs hcan.inDirs
      exact hno ((hfit n _ hr hd p hin).roomy hi (hlive hb.dir))
  | symlink target path mode uid gid ts =>
    obtain ⟨hdata, hcan⟩ := hm
    refine Act.wp_discard ((createFile_stores hi hc hs hcan.inDirs (symlink_type mode) hdata
      fun p name hb hf => (hcan.facts hi hc hs hb hf).le).mono ?_ fun _ t =>
        hrefused fun hshort hfit => hfit.not_cramped hcan hi hc hs hshort)
    rintro m t ⟨T', ht, p, name, hb, hf, hnew, -, hcore⟩
    exact hnew.after ht hc hs hb.dir hf (hcan.facts hi hc hs hb hf).ne hcore fun _ _ => rfl
  | unlink path =>
    refine Act.wp_discard ((unlink_stores hi hc hs hm.inDirs fun p name hb =>
      hm.sure hi hc hs hb).mono ?_ fun _ t ht => .inl ht)
    rintro n t ⟨T', ht, p, e, he, hb, rfl, hnd, hleft⟩
    exact hleft.after ht hc hs hb.dir he hnd fun _ _ => rfl
  | removeDirectory path =>
    obtain ⟨hcan, hdots⟩ := hm
    refine Act.wp_discard ((removeDirectory_stores hi hc hs hcan.inDirs
      (fun p name hb => hcan.sure hi hc hs hb) fun n p name hw hnd hz hb => ?_).mono ?_
      fun _ t ht => .inl ht)
    · have hempty := hc.directoryIsEmpty hs hi hnd
      rw [decide_eq_true hz] at hempty
      rw [hb.last, ← (splitParent_parts path).2]
      exact hdots n _ (hc.resolved hs hi hcan.inDirs hw) hempty
    · rintro n t ⟨T', ht, p, e, he, hb, rfl, hnd, hz, hleft⟩
      exact hleft.after ht hc hs hb.dir he hnd hz fun _ _ => rfl
  | createEmptyInParent p name mode uid gid ts =>
    obtain ⟨hmode, hp, hcan⟩ := hm
    have hp := hsh.isDir.mp hp
    obtain ⟨h1, h2⟩ := hcan.facts hsh hp
    refine Act.wp_discard (((createEmptyInParent_stores hc hs hp h1.le hmode).run image
      hi).mono ?_ fun _ t => hrefused fun hshort hfit => hshort.absurd hc hi (hlive hp) hfit)
    rintro m t ⟨T', ht, hnew, hfile⟩
    exact hnew.after ht hc hs hp h2 h1.ne (by rw [hfile]) fun _ _ => rfl
  | mkdirInParent p name mode uid gid ts =>
    obtain ⟨hp, hlink, hcan⟩ := hm
    have hp := hsh.isDir.mp hp
    obtain ⟨h1, h2⟩ := hcan.facts hsh hp
    refine Act.wp_discard (((mkdirInParent_stores hc hs hp h1 h2
      (hlink.links hi hc hs (hs.dirs_live hp))).run image hi).mono ?_ fun _ t =>
        hrefused fun hshort hfit => hshort.absurd hc hi (hlive hp) hfit)
    rintro m t ⟨T', ht, hnew, hattrs⟩
    exact hnew.after ht hc hs hp h2 h1.ne hattrs fun _ _ => rfl
  | symlinkInParent p name target mode uid gid ts =>
    obtain ⟨hp, hdata, hcan⟩ := hm
    have hp := hsh.isDir.mp hp
    obtain ⟨h1, h2⟩ := hcan.facts hsh hp
    refine Act.wp_discard (((symlinkInParent_stores hc hs hp h1.le hdata).run image hi).mono ?_
      fun _ t => hrefused fun hshort hfit => hshort.absurd hc hi (hlive hp) hfit)
    rintro m t ⟨T', ht, hnew, -, hcore⟩
    exact hnew.after ht hc hs hp h2 h1.ne hcore fun _ _ => rfl
  | mknodInParent p name type major minor mode uid gid ts =>
    obtain ⟨hp, hcan⟩ := hm
    have hp := hsh.isDir.mp hp
    obtain ⟨h1, h2⟩ := hcan.facts hsh hp
    refine Act.wp_discard (((mknodInParent_stores hc hs hp h1.le).run image hi).mono ?_
      fun _ t => hrefused fun hshort hfit => hshort.2.absurd hc hi (hlive hp) (hfit hshort.1))
    rintro m t ⟨T', ht, hnew, -, hcore⟩
    exact hnew.after ht hc hs hp h2 h1.ne hcore fun _ _ => rfl
  | linkInParent p name target =>
    obtain ⟨hp, ht, hcan, hlink⟩ := hm
    have hp := hsh.isDir.mp hp
    have htl := (hsh.live target).mp ht
    have hfile : target ∉ N.dirs → UfsFuse.isDir image ufs target = false := fun hnd =>
      eq_false_of_ne_true fun h => hnd (hsh.isDir.mp h)
    obtain ⟨h1, h2⟩ := hcan.facts hsh hp
    refine ((linkInParent_stores hc hs hp htl h1.le fun hnd =>
      (hlink (hfile hnd)).links hi hc hs htl).run image hi).mono ?_ fun _ t =>
        hrefused fun hshort hfit => hshort.2 ((hfit (hfile hshort.1)).roomy hi (hlive hp))
    rintro - t ⟨T', ht, hnd, hc', hk⟩
    exact hc'.after_link hk ht hc hs hp h2 h1.ne htl hnd fun _ _ => rfl
  | unlinkInParent p name =>
    obtain ⟨hp, ha⟩ := hm
    have hp := hsh.isDir.mp hp
    refine Act.wp_discard (((unlinkInParent_stores hc hs hp ha).run image hi).mono ?_
      fun _ t ht => .inl ht)
    rintro m t ⟨T', ht, e, he, -, rfl, hnd, hleft, -⟩
    exact hleft.after ht hc hs hp he hnd fun _ _ => rfl
  | rmdirInParent p name =>
    obtain ⟨hp, ha, hd1, hd2⟩ := hm
    have hp := hsh.isDir.mp hp
    refine Act.wp_discard (((rmdirInParent_stores hc hs hp ha hd1 hd2).run image hi).mono ?_
      fun _ t ht => .inl ht)
    rintro m t ⟨T', ht, e, he, -, rfl, hd, hz, hleft, -⟩
    exact hleft.after ht hc hs hp he hd hz fun _ _ => rfl
  | renameInParent p srcName q dstName =>
    obtain ⟨hp, hq, hcan⟩ := hm
    have hp := hsh.isDir.mp hp
    have hq := hsh.isDir.mp hq
    refine ((renameInParent_stores hc hs hp hq hcan.srcAscii hcan.dstAscii hcan.src_ne.1
      hcan.src_ne.2 hcan.dst_ne.1 hcan.dst_ne.2 hcan.dstOk fun e he hname =>
        hcan.canMove hi hc hs hp hq he hname).run image hi).mono ?_ fun _ t => hrefused ?_
    · rintro - t ⟨T', ht, N', hc', hs', hk, hren⟩
      refine ⟨T', N', ht, hc', hs', hk.effect_sub (fun _ _ => rfl) ?_⟩
      rw [hc'.live, hc.live]
      rcases hren with ⟨-, -, -, rfl⟩ | ⟨e, he, -, hren⟩
      · exact subset_rfl
      · exact hren.live_subset hs hp hq he
    · rintro ⟨hf, hroom, e, he, hname⟩ hfit
      have h := hfit ⟨e, (hsh.mem_entriesAt hp).mpr (NameTree.kid_record he), hname⟩
        ((hsh.fresh hq).mpr hf)
      rw [hi.entryNeeds (hlive hq), hi.blocksBeside (hlive hq)] at h
      omega
  | setInodeContents n data =>
    obtain ⟨hfile, hdata⟩ := hm
    obtain ⟨hn, hnd⟩ := hsh.file hfile
    refine ((setInodeContents_stores (hc.live ▸ hn) hdata).run image hi).mono ?_ ?_
    · rintro - t ⟨T', ht, i, room, rfl, hi', -, -, -⟩
      exact Table.after_setFile ht hc hs hn hnd hi' fun _ _ => rfl
    · intro e t hshort
      refine .inr fun hfit => absurd hshort (not_lt.mpr ?_)
      rw [← hi.blocksBeside (hc.live ▸ hn)]
      exact hfit
  | truncate n size =>
    obtain ⟨hfile, hsize⟩ := hm
    obtain ⟨hn, hnd⟩ := hsh.file hfile
    refine ((truncate_stores (hc.live ▸ hn) hsize).run image hi).mono ?_ ?_
    · rintro - t ⟨T', ht, hT'⟩
      cases hT' with
      | inl h =>
        obtain ⟨rfl, -⟩ := h
        exact ⟨T', N, ht, hc, hs, (Table.Keeps.refl T').effect_sub (fun _ _ => rfl) subset_rfl⟩
      | inr h =>
        obtain ⟨i, room, rfl, hi', -, -, -⟩ := h
        exact Table.after_setFile ht hc hs hn hnd hi' fun _ _ => rfl
    · intro e t hshort
      refine .inr fun hfit => absurd hshort (not_lt.mpr ?_)
      rw [← hi.blocksBeside (hc.live ▸ hn)]
      exact hfit
  | setInodeMode n mode =>
    obtain ⟨hu, hdir⟩ := hm
    have hn := (hsh.live n).mp hu
    refine ((setInodeMode_stores (hc.live ▸ hn)).run image hi).mono ?_ fun _ _ h => False.elim h
    rintro - t ⟨T', ht, rfl⟩
    refine ⟨_, N, ht, hc.setAttrs hn ?_ rfl, hs, Table.effect_setInode (if_pos rfl).symm
      fun x hx i => if_neg hx⟩
    rw [Bool.eq_iff_iff, hc.isDir n hn, ← hsh.isDir, ← hdir]
    exact isDirectory_mode_iff _ _
  | setInodeOwner n uid gid =>
    have hn := (hsh.live n).mp hm
    refine ((setInodeOwner_stores (hc.live ▸ hn)).run image hi).mono ?_ fun _ _ h => False.elim h
    rintro - t ⟨T', ht, rfl⟩
    exact ⟨_, N, ht, hc.setAttrs hn rfl rfl, hs, Table.effect_setInode (if_pos rfl).symm
      fun x hx i => if_neg hx⟩
  | setInodeTimes n atime mtime ctime =>
    have hn := (hsh.live n).mp hm
    refine ((setInodeTimes_stores (hc.live ▸ hn)).run image hi).mono ?_ fun _ _ h => False.elim h
    rintro - t ⟨T', ht, rfl⟩
    exact ⟨_, N, ht, hc.setAttrs hn rfl rfl, hs, Table.effect_setInode (if_pos rfl).symm
      fun x hx i => if_neg hx⟩

/-- A call whose conditions are met keeps a file system consistent, also when it is refused; only
one that runs out of blocks half-way may not. -/
theorem Call.step (h : Consistent image ufs) (hm : c.Meets image ufs) :
    (c.perform ufs).wp image (fun _ t => Consistent t ufs)
      (fun _ t => Consistent t ufs ∨ ¬c.Fits image ufs) := by
  obtain ⟨T, N, hi, hc, hs⟩ := h
  exact (Call.step_table hi hc hs hm).mono (fun _ _ h => h.consistent) fun _ t h =>
    h.imp_left fun ht => ⟨T, N, ht, hc, hs⟩

end Step
end UfsFuse
