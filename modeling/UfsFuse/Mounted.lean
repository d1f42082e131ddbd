import UfsFuse.Buffered

/-!
# The daemon serves the tree

Every request is a step of the tree that clients see, and is answered from it: one lemma for each
handler. A refused request leaves the tree; writing back may stamp a file and changes nothing else
that is seen.
-/
namespace UfsFuse

/-! ## Conditions on requests -/

namespace Request

/-- The name that a request may take away from a file, with its directory. -/
def dropped : Request → Option (ℕ × Bytes)
  | .unlink parent name => some (fuseToUfs parent, name)
  | .rename _ _ newparent newname => some (fuseToUfs newparent, newname)
  | _ => none

/-- A file whose body is buffered does not lose its last name. -/
def Spares (st : Daemon) (req : Request) : Prop :=
  ∀ p name, req.dropped = some (p, name) → ∀ e ∈ entriesAt st.img st.ufs p, e.name = name →
    st.buffers e.inode = none ∨ 1 < nlinkOf st.img st.ufs e.inode

/-- The inodes that a request is about are in use, contents are asked of files only, and sizes are in
range. The target of a link is ASCII. -/
def Targets (st : Daemon) : Request → Prop
  | .lookup parent _ => isDir st.img st.ufs (fuseToUfs parent) = true
  | .getattr ino | .access ino | .readdir ino _ _ => inUse st.img st.ufs (fuseToUfs ino) = true
  | .setattr ino _ _ _ size _ _ _ => inUse st.img st.ufs (fuseToUfs ino) = true ∧
      ∀ sz, size = some sz → IsFile st.img st.ufs (fuseToUfs ino) ∧ sz < 2 ^ 63
  | .readlink ino => inUse st.img st.ufs (fuseToUfs ino) = true ∧ st.buffers (fuseToUfs ino) = none ∧
      ∀ inode data, readInode st.img st.ufs (fuseToUfs ino) = some inode →
        readInodeBytes st.img st.ufs inode = .ok data → Ascii data
  | .read ino _ _ => IsFile st.img st.ufs (fuseToUfs ino)
  | .write ino offset data => IsFile st.img st.ufs (fuseToUfs ino) ∧ offset + data.length < 2 ^ 63
  | .destroy => st.ufs.sb.dsize < 2 ^ 31
  | _ => True

/-- What a request needs of the state before it, apart from free blocks. -/
structure Meets (c : Caller) (st : Daemon) (req : Request) : Prop where
  call : ∀ call, req.call c = some call → call.Meets st.img st.ufs
  spares : req.Spares st
  targets : req.Targets st

/-- A request does not run out of blocks half-way: neither its call nor the body that it stores. -/
structure Fits (c : Caller) (st : Daemon) (req : Request) : Prop where
  call : ∀ call, req.call c = some call → call.Fits st.img st.ufs
  size : ∀ ino mode uid gid size atime mtime ctime,
    req = .setattr ino mode uid gid (some size) atime mtime ctime →
      st.buffers (fuseToUfs ino) = none → (Call.truncate (fuseToUfs ino) size).Fits st.img st.ufs
  body : ∀ n b, req.writesBack = some n → st.buffers n = some b → b.dirty = true →
    (Call.setInodeContents n b.data).Fits st.img st.ufs

end Request

/-- The daemon replies as the tree does, and reflects what becomes of the tree. -/
def FileTree.Replied (V : FileTree) (ufs : Ufs) (c : Caller) (req : Request) (r : Reply)
    (st : Daemon) : Prop := ∃ V', V.Serves ufs.sb.bsize c req (.reply r) V' ∧ st.Reflects ufs V'

/-- The daemon refuses as the tree does, unless the request had to fit and does not. -/
def FileTree.Errs (V : FileTree) (ufs : Ufs) (c : Caller) (req : Request) (fits : Prop) (why : Refusal)
    (st : Daemon) : Prop :=
  (∃ V', V.Serves ufs.sb.bsize c req (.error why) V' ∧ st.Reflects ufs V') ∨ ¬fits

namespace Handler
variable {st st₁ : Daemon} {ufs : Ufs} {V V' : FileTree} {c : Caller} {req : Request} {call : Call}
  {stored : ℕ → Bytes} {fits : Prop} {n p m : ℕ} {name : Bytes}

/-- A call that fails leaves the tree. -/
theorem errs_call (h : st.Reflects ufs V) (hb : Buffered st.buffers V stored)
    (hc : req.call c = some call) {t : Bytes} {why : Fault} {short : Prop}
    (hs : (V.withBody stored).Stayed ufs short t) (hshort : short → ¬fits) :
    V.Errs ufs c req fits (.fault why) { st with img := t } := by
  rcases hs with hs | hs
  · exact .inl ⟨V, .refused hc, h.onImage _ hs hb⟩
  · exact .inr (hshort hs)

/-- A new name is answered with the attributes behind it. -/
theorem replyEntry_wp (h : st₁.Reflects ufs V') (hc : req.call c = some call) (hs : V.Step call V')
    (hn : req.entered = some (p, name)) (he : (⟨name, m⟩ : Entry) ∈ V'.names.records p)
    (hl : m ∈ V'.names.live)
    (hr : ∀ parent mode umask, req ≠ .create parent name mode umask) :
    (replyEntry m).wp st₁ (V.Replied ufs c req) (V.Errs ufs c req fits) := by
  obtain ⟨attr, hattr, ha⟩ := h.attrFor hl
  rw [replyEntry, wp_get_bind, hattr, wp_some_bind]
  exact ⟨V', .entered hc hs hn he ha hr, h⟩

theorem record_enter (N : NameTree) (p m : ℕ) (name : Str) :
    (⟨name, m⟩ : Entry) ∈ (N.enter p ⟨name, m⟩).records p := by
  refine Multiset.mem_cons_of_mem (Multiset.mem_cons_of_mem ?_)
  rw [NameTree.enter_kids, Function.update_self]
  exact Multiset.mem_cons_self _ _

theorem record_enterDir (N : NameTree) (p m : ℕ) (name : Str) :
    (⟨name, m⟩ : Entry) ∈ (N.enterDir p ⟨name, m⟩).records p := by
  refine Multiset.mem_cons_of_mem (Multiset.mem_cons_of_mem ?_)
  rw [NameTree.enterDir]
  dsimp only
  rw [Function.update_self]
  exact Multiset.mem_cons_self _ _

/-! ### New files -/
section New
variable {parent mode umask : ℕ}

/-- The body of a file that has just been made is empty. -/
theorem opened_body (V : FileTree) (p m : ℕ) (name : Str) (i : Dinode) :
    (V.create p ⟨name, m⟩ i []).write m [] = V.create p ⟨name, m⟩ i [] := by
  rw [FileTree.write, FileTree.create, Function.update_idem]

theorem mkdir_wp (h : st.Reflects ufs V)
    (hm : (Request.mkdir parent name mode umask).Meets c st) :
    (mkdir c parent name mode umask).wp st (V.Replied ufs c (.mkdir parent name mode umask))
      (V.Errs ufs c (.mkdir parent name mode umask)
        ((Request.mkdir parent name mode umask).Fits c st)) := by
  obtain ⟨hp, hlink, hcan⟩ := hm.call _ rfl
  obtain ⟨rfl, hro, stored, ⟨T, hi, hin⟩, hb⟩ := id h
  have hsh := hin.carries.shows hin.sound hi
  have hp := hsh.isDir.mp hp
  obtain ⟨hok, hf⟩ := hcan.facts hsh hp
  have hpl := hin.sound.dirs_live hp
  have hl := hlink.links hi hin.carries hin.sound hpl
  rw [mkdir, wp_writable_bind hro, Act.wp_bind]
  refine wp_onImage ((hin.mkdirInParent hi hp hok hf hl).mono ?_ fun why t hr => ?_)
  · rintro m t ⟨hm, hrep⟩
    refine replyEntry_wp (h.onImage (V.createDir _ ⟨name, m⟩ _) hrep (hb.createDir hm)) rfl
      (.mkdirInParent hp hf hm) rfl (record_enterDir _ _ _ _) (Finset.mem_insert_self _ _) ?_
    rintro _ _ _ ⟨⟩
  · exact errs_call h hb rfl hr fun hshort hfit =>
      hshort.absurd hin.carries hi (hin.live.mpr hpl) (hfit.call _ rfl)

theorem mknod_wp {rdev : ℕ} (h : st.Reflects ufs V)
    (hm : (Request.mknod parent name mode umask rdev).Meets c st) :
    (mknod c parent name mode umask rdev).wp st
      (V.Replied ufs c (.mknod parent name mode umask rdev))
      (V.Errs ufs c (.mknod parent name mode umask rdev)
        ((Request.mknod parent name mode umask rdev).Fits c st)) := by
  obtain ⟨hp, hcan⟩ := hm.call _ rfl
  obtain ⟨rfl, hro, stored, ⟨T, hi, hin⟩, hb⟩ := id h
  have hsh := hin.carries.shows hin.sound hi
  have hp := hsh.isDir.mp hp
  obtain ⟨hok, hf⟩ := hcan.facts hsh hp
  have hpl := hin.sound.dirs_live hp
  rw [mknod, wp_writable_bind hro]
  dsimp only
  by_cases hkind : mode &&& ufsIfmt = ufsIfchr ∨ mode &&& ufsIfmt = ufsIfblk
  · rw [if_pos hkind, Act.wp_bind]
    refine wp_onImage ((hin.mknodInParent hi hp hok hf).mono ?_ fun why t hr => ?_)
    · rintro m t ⟨hm, hrep⟩
      refine replyEntry_wp (h.onImage (V.create _ ⟨name, m⟩ _ _) hrep (hb.create hm)) rfl
        (.mknodInParent hp hf hm) rfl (record_enter _ _ _ _) (Finset.mem_insert_self _ _) ?_
      rintro _ _ _ ⟨⟩
    · exact errs_call h hb rfl hr fun hshort hfit =>
        hshort.2.absurd hin.carries hi (hin.live.mpr hpl) (hfit.call _ rfl hshort.1)
  · rw [if_neg hkind]
    exact .inl ⟨V, .refused rfl, h⟩

theorem symlink_wp {target : Bytes} (h : st.Reflects ufs V)
    (hm : (Request.symlink parent name target).Meets c st) :
    (symlink c parent name target).wp st (V.Replied ufs c (.symlink parent name target))
      (V.Errs ufs c (.symlink parent name target)
        ((Request.symlink parent name target).Fits c st)) := by
  obtain ⟨hp, hlen, hcan⟩ := hm.call _ rfl
  obtain ⟨rfl, hro, stored, ⟨T, hi, hin⟩, hb⟩ := id h
  have hsh := hin.carries.shows hin.sound hi
  have hp := hsh.isDir.mp hp
  obtain ⟨hok, hf⟩ := hcan.facts hsh hp
  have hpl := hin.sound.dirs_live hp
  rw [symlink, wp_writable_bind hro, Act.wp_bind]
  refine wp_onImage ((hin.symlinkInParent hi hp hok hf hlen).mono ?_ fun why t hr => ?_)
  · rintro m t ⟨hm, hrep⟩
    refine replyEntry_wp (h.onImage (V.create _ ⟨name, m⟩ _ _) hrep (hb.create hm)) rfl
      (.symlinkInParent hp hf hm) rfl (record_enter _ _ _ _) (Finset.mem_insert_self _ _) ?_
    rintro _ _ _ ⟨⟩
  · exact errs_call h hb rfl hr fun hshort hfit =>
      hshort.absurd hin.carries hi (hin.live.mpr hpl) (hfit.call _ rfl)

/-- The new file is opened, with an empty body that is not dirty. -/
theorem create_wp (h : st.Reflects ufs V)
    (hm : (Request.create parent name mode umask).Meets c st) :
    (create c parent name mode umask).wp st (V.Replied ufs c (.create parent name mode umask))
      (V.Errs ufs c (.create parent name mode umask)
        ((Request.create parent name mode umask).Fits c st)) := by
  obtain ⟨hmode, hp, hcan⟩ := hm.call _ rfl
  obtain ⟨rfl, hro, stored, ⟨T, hi, hin⟩, hb⟩ := id h
  have hsh := hin.carries.shows hin.sound hi
  have hp := hsh.isDir.mp hp
  obtain ⟨hok, hf⟩ := hcan.facts hsh hp
  have hpl := hin.sound.dirs_live hp
  rw [create, wp_writable_bind hro, Act.wp_bind]
  refine wp_onImage ((hin.createEmptyInParent hi hp hok hf hmode).mono ?_ fun why t hr => ?_)
  · rintro m t ⟨hm, hrep⟩
    have hml := Finset.mem_insert_self m V.names.live
    set V' := V.create (fuseToUfs parent) ⟨name, m⟩ (Dinode.fresh (fileTypeOf (Nat.ldiff mode umask) |||
      permissionsOf (Nat.ldiff mode umask)) c.uid c.gid 1 (systimeSecs c.now)) [] with hV'
    have hnew : Buffered st.buffers V' (Function.update stored m []) := hb.create hm
    have hempty : V'.write m [] = V' := opened_body V _ m name _
    have hopen : Buffered (Function.update st.buffers m (some ⟨[], false⟩)) (V'.write m [])
        (Function.update (Function.update stored m []) m []) :=
      hnew.insert hml (fun hd => hm (hin.sound.dirs_live hd)) (by decide) fun _ => rfl
    rw [hempty, Function.update_idem] at hopen
    have h' : Daemon.Reflects { st with
        img := t
        nextFh := st.nextFh + 1
        handles := (st.nextFh, m) :: st.handles.filter (·.1 ≠ st.nextFh)
        buffers := Function.update st.buffers m (some ⟨[], false⟩) } st.ufs V' :=
      ⟨rfl, hro, _, hrep, hopen⟩
    obtain ⟨attr, hattr, ha⟩ := h'.attrFor hml
    rw [wp_modify_bind, wp_newHandle_bind, wp_get_bind]
    change (orElse .eio (Daemon.attrFor { st with
        img := t
        nextFh := st.nextFh + 1
        handles := (st.nextFh, m) :: st.handles.filter (·.1 ≠ st.nextFh)
        buffers := Function.update st.buffers m (some ⟨[], false⟩) } m) >>= _).wp _ _ _
    rw [hattr, wp_some_bind]
    exact ⟨V', .created rfl (.createEmptyInParent hp hf hm) (record_enter _ _ _ _) ha, h'⟩
  · exact errs_call h hb rfl hr fun hshort hfit =>
      hshort.absurd hin.carries hi (hin.live.mpr hpl) (hfit.call _ rfl)

end New

/-! ### Other names -/
section Names
variable {parent newparent ino : ℕ} {newname : Bytes} {e : Entry}

/-- A buffered file that may lose a name has another. -/
theorem spares_links (h : st.Reflects ufs V) (hm : req.Spares st) (hd : req.dropped = some (p, e.name))
    (hp : p ∈ V.names.dirs) (he : e ∈ V.names.kids p) :
    st.buffers e.inode = none ∨ 1 < V.names.links e.inode := by
  obtain ⟨rfl, -, stored, ⟨T, hi, hin⟩, -⟩ := h
  have hsh := hin.carries.shows hin.sound hi
  have hmem := (hsh.mem_entriesAt hp).mpr (NameTree.kid_record he)
  rcases hm p e.name hd e hmem rfl with hnone | hmore
  · exact .inl hnone
  · rw [hsh.nlinkOf (hin.sound.target p hp e he)] at hmore
    exact .inr hmore

/-- The buffered files stay when a name goes that is not the last one of any of them. -/
theorem leave_live (hb : Buffered st.buffers V stored) (hs : V.names.Sound)
    (hn : e.inode ∉ V.names.dirs) (hspare : st.buffers e.inode = none ∨ 1 < V.names.links e.inode)
    {n : ℕ} {b : FileBuf} (hbuf : st.buffers n = some b) : n ∈ (V.names.leave p e).live := by
  have hl := hb.live n b hbuf
  rw [NameTree.leave]
  dsimp only
  split_ifs with hone
  · refine Finset.mem_erase.mpr ⟨?_, hl⟩
    rintro rfl
    rw [hbuf, hs.links_file hn, hone] at hspare
    simp at hspare
  · exact hl

theorem leaveDir_live (hb : Buffered st.buffers V stored) (hd : e.inode ∈ V.names.dirs) {n : ℕ}
    {b : FileBuf} (hbuf : st.buffers n = some b) : n ∈ (V.names.leaveDir p e).live := by
  refine Finset.mem_erase.mpr ⟨?_, hb.live n b hbuf⟩
  rintro rfl
  exact hb.file _ b hbuf hd

/-- They stay in a rename. -/
theorem renamed_live {q : ℕ} {names : NameTree} (h : st.Reflects ufs V)
    (hb : Buffered st.buffers V stored) (hm : req.Spares st) (hdrop : req.dropped = some (q, name))
    (hp : p ∈ V.names.dirs) (hq : q ∈ V.names.dirs) (he : e ∈ V.names.kids p)
    (hr : Renamed V.names p q e name names) {n : ℕ} {b : FileBuf} (hbuf : st.buffers n = some b) :
    n ∈ names.live := by
  have hs := h.sound
  rcases hr with _ | _ | ⟨x, hx, rfl, hne, hempty⟩
  · exact hb.live n b hbuf
  · rw [(move_live hs hp hq he).1]
    exact hb.live n b hbuf
  · obtain ⟨hs', hp', hq', he', -⟩ := without_facts hs hp hq he hx hne hempty
    rw [(move_live hs' hp' hq' he').1, NameTree.without]
    split_ifs with hd
    · exact leaveDir_live hb hd hbuf
    · exact leave_live hb hs hd (spares_links h hm hdrop hq hx) hbuf

theorem unlink_wp (h : st.Reflects ufs V) (hm : (Request.unlink parent name).Meets c st) :
    (unlink parent name).wp st (V.Replied ufs c (.unlink parent name))
      (V.Errs ufs c (.unlink parent name) fits) := by
  obtain ⟨rfl, hro, stored, hrep, hb⟩ := id h
  rw [unlink, wp_writable_bind hro, Act.wp_bind]
  refine wp_onImage (Act.wp_of_discard ((hrep.step (hm.call _ rfl)).mono ?_ fun why t hr => ?_))
  · rintro - t ⟨V₁, hstep, hV₁⟩
    cases hstep with
    | unlinkInParent hp he hn =>
      have hspare := spares_links h hm.spares rfl hp he
      exact ⟨_, .left rfl (.unlinkInParent hp he hn) rfl, h.onImage _ hV₁
        (hb.rename (fun n b => leave_live hb h.sound hn hspare) subset_rfl)⟩
  · exact errs_call h hb rfl hr fun hno => absurd trivial hno

theorem rmdir_wp (h : st.Reflects ufs V) (hm : (Request.rmdir parent name).Meets c st) :
    (rmdir parent name).wp st (V.Replied ufs c (.rmdir parent name))
      (V.Errs ufs c (.rmdir parent name) fits) := by
  obtain ⟨rfl, hro, stored, hrep, hb⟩ := id h
  rw [rmdir, wp_writable_bind hro, Act.wp_bind]
  refine wp_onImage (Act.wp_of_discard ((hrep.step (hm.call _ rfl)).mono ?_ fun why t hr => ?_))
  · rintro - t ⟨V₁, hstep, hV₁⟩
    cases hstep with
    | rmdirInParent hp he hn hz =>
      exact ⟨_, .left rfl (.rmdirInParent hp he hn hz) rfl, h.onImage _ hV₁
        (hb.rename (fun n b => leaveDir_live hb hn) (Finset.erase_subset _ _))⟩
  · exact errs_call h hb rfl hr fun hno => absurd trivial hno

theorem rename_wp (h : st.Reflects ufs V)
    (hm : (Request.rename parent name newparent newname).Meets c st) :
    (rename parent name newparent newname).wp st
      (V.Replied ufs c (.rename parent name newparent newname))
      (V.Errs ufs c (.rename parent name newparent newname)
        ((Request.rename parent name newparent newname).Fits c st)) := by
  obtain ⟨rfl, hro, stored, hrep, hb⟩ := id h
  rw [rename, wp_writable_bind hro, Act.wp_bind]
  refine wp_onImage ((hrep.step (hm.call _ rfl)).mono ?_ fun why t hr => ?_)
  · rintro - t ⟨V₁, hstep, hV₁⟩
    generalize hcall : Call.renameInParent (fuseToUfs parent) name (fuseToUfs newparent) newname = call
      at hstep
    cases hstep with
    | renameSame =>
      injection hcall with hp hname hq hname'
      refine ⟨V, .left rfl ?_ rfl, h.onImage _ hV₁ hb⟩
      rw [hp, hname, hq, hname']
      exact .renameSame
    | renameInParent hp hq he hren =>
      cases hcall
      have hlive := fun n b => @renamed_live _ _ _ _ _ _ _ _ _ _ h hb hm.spares rfl hp hq he hren n b
      exact ⟨_, .left rfl (.renameInParent hp hq he hren) rfl, h.onImage _ hV₁
        (hb.rename hlive (hren.dirs_subset h.sound hp hq he))⟩
    | _ => cases hcall
  · exact errs_call h hb rfl hr fun hno hfit => hno (hfit.call _ rfl)

theorem link_wp (h : st.Reflects ufs V) (hm : (Request.link ino newparent newname).Meets c st) :
    (link ino newparent newname).wp st (V.Replied ufs c (.link ino newparent newname))
      (V.Errs ufs c (.link ino newparent newname)
        ((Request.link ino newparent newname).Fits c st)) := by
  obtain ⟨rfl, hro, stored, hrep, hb⟩ := id h
  rw [link, wp_writable_bind hro]
  dsimp only
  rw [Act.wp_bind]
  refine wp_onImage ((hrep.step (hm.call _ rfl)).mono ?_ fun why t hr => ?_)
  · rintro - t ⟨V₁, hstep, hV₁⟩
    cases hstep with
    | linkInParent hp hf hl hn =>
      refine replyEntry_wp (h.onImage (V.rename _) hV₁ (hb.rename (fun n b hbuf => ?_)
        subset_rfl)) rfl (.linkInParent hp hf hl hn) rfl (record_enter _ _ _ _)
        (Finset.mem_insert_self _ _) ?_
      · exact Finset.mem_insert_of_mem (hb.live n b hbuf)
      · rintro _ _ _ ⟨⟩
  · exact errs_call h hb rfl hr fun hno hfit => hno (hfit.call _ rfl)

end Names

/-! ### Looking -/
section Looking
variable {parent ino offset size room : ℕ}

theorem lookup_wp (h : st.Reflects ufs V) (hm : (Request.lookup parent name).Meets c st) :
    (lookup parent name).wp st (V.Replied ufs c (.lookup parent name))
      (V.Errs ufs c (.lookup parent name) fits) := by
  obtain ⟨rfl, hro, stored, ⟨T, hi, hin⟩, hb⟩ := id h
  have hs := hin.sound
  have hp := h.isDir.mp hm.targets
  have hread := hi.readInode (hin.live.mpr (hs.dirs_live hp))
  rw [lookup, wp_get_bind, hread, wp_some_bind]
  rcases V.names.fresh_or_record (fuseToUfs parent) name with hf | ⟨e, he, rfl⟩
  · rw [wp_look_bind (hin.carries.lookup_fresh hs hi hp hf)]
    exact .inl ⟨V, .lookupMissing hf, h⟩
  · rw [wp_look_bind (hin.carries.lookup_some hs hi hp he), wp_some_bind]
    obtain ⟨attr, hattr, ha⟩ := h.attrFor (hs.record_live hp he)
    dsimp only
    rw [wp_get_bind, hattr, wp_some_bind]
    exact ⟨V, .lookup he ha, h⟩

theorem getattr_wp (h : st.Reflects ufs V) (hn : fuseToUfs ino ∈ V.names.live)
    {E : Refusal → Daemon → Prop} : (getattr ino).wp st
      (fun r st' => st' = st ∧ ∃ attr, r = .attr attr ∧ V.Attr ufs.sb.bsize (fuseToUfs ino) attr) E := by
  obtain ⟨attr, hattr, ha⟩ := h.attrFor hn
  rw [getattr, wp_get_bind, hattr, wp_some_bind]
  exact ⟨rfl, attr, rfl, ha⟩

theorem access_wp (h : st.Reflects ufs V) (hm : (Request.access ino).Meets c st) :
    (access ino).wp st (V.Replied ufs c (.access ino)) (V.Errs ufs c (.access ino) fits) := by
  have hn := h.inUse.mp hm.targets
  obtain ⟨i, hread, -⟩ := h.readInode hn
  rw [access, wp_get_bind, hread, wp_some_bind]
  exact ⟨V, .access hn, h⟩

theorem readlink_wp (h : st.Reflects ufs V) (hm : (Request.readlink ino).Meets c st) :
    (readlink ino).wp st (V.Replied ufs c (.readlink ino)) (V.Errs ufs c (.readlink ino) fits) := by
  obtain ⟨hu, hnone, hascii⟩ := hm.targets
  have hn := h.inUse.mp hu
  obtain ⟨stored, hr, hb⟩ := h.readFrom
  obtain ⟨hread, hattrs, -⟩ := hr.inode _ hn
  have hsame := congrArg (fun i : Dinode => i.isSymlink) hattrs
  have htype : (dinodeAt st.img st.ufs (fuseToUfs ino)).isSymlink =
      (V.attrs (fuseToUfs ino)).isSymlink := hsame
  rw [readlink, wp_get_bind, hread, wp_some_bind]
  by_cases hlink : (V.attrs (fuseToUfs ino)).isSymlink = true
  · -- a link is no directory
    have hnd : fuseToUfs ino ∉ V.names.dirs := by
      intro hd
      have hfile := (h.isDirectory hn).mpr hd
      simp only [Inode.isDirectory, Inode.isSymlink, beq_iff_eq] at hfile hlink
      rw [hfile] at hlink
      exact absurd hlink (by decide)
    have hbody := (hr.body _ hn hnd).1
    have htarget := hr.target _ hn hnd (hascii _ _ hread hbody)
    rw [if_pos (htype.trans hlink), wp_look_bind htarget]
    have hseen : (V.withBody stored).body (fuseToUfs ino) = V.body (fuseToUfs ino) :=
      hb.unbuffered _ hnone
    rw [hseen]
    exact ⟨V, .readlink hlink, h⟩
  · rw [if_neg (htype ▸ hlink)]
    exact .inl ⟨V, .readlinkOther (eq_false_of_ne_true hlink), h⟩

theorem readFile_wp (h : st.Reflects ufs V) (hm : (Request.read ino offset size).Meets c st) :
    (readFile ino offset size).wp st (V.Replied ufs c (.read ino offset size))
      (V.Errs ufs c (.read ino offset size) fits) := by
  obtain ⟨hn, hd⟩ := h.isFile hm.targets
  obtain ⟨rfl, -, stored, ⟨T, hi, hin⟩, hb⟩ := id h
  have hreply : V.Serves st.ufs.sb.bsize c (.read ino offset size)
      (.reply (.data ((V.body (fuseToUfs ino)).slice offset size))) V := .read hn hd
  rw [readFile, wp_get_bind]
  cases hbuf : st.buffers (fuseToUfs ino) with
  | some b =>
    rw [← hb.data _ b hbuf] at hreply
    exact ⟨V, hreply, h⟩
  | none =>
    have hT := hin.live.mpr hn
    have hrange := hi.readInodeRange hT offset size
    rw [hin.body _ hn hd, show (V.withBody stored).body (fuseToUfs ino) = V.body (fuseToUfs ino) from
      hb.unbuffered _ hbuf] at hrange
    dsimp only
    rw [wp_get_bind, hi.readInode hT, wp_some_bind, wp_look_bind hrange]
    exact ⟨V, hreply, h⟩

theorem readdir_wp (h : st.Reflects ufs V) (hm : (Request.readdir ino offset room).Meets c st) :
    (readdir ino offset room).wp st (V.Replied ufs c (.readdir ino offset room))
      (V.Errs ufs c (.readdir ino offset room) fits) := by
  have hn := h.inUse.mp hm.targets
  obtain ⟨rfl, -, stored, ⟨T, hi, hin⟩, hb⟩ := id h
  have hs := hin.sound
  have hread := hi.readInode (hin.live.mpr hn)
  have hdir := hin.carries.isDir _ hn
  rw [readdir, wp_get_bind, hread, wp_some_bind]
  by_cases hd : fuseToUfs ino ∈ V.names.dirs
  · rw [if_neg (not_not.mpr (hdir.mpr hd))]
    obtain ⟨es, hes, hnames⟩ := hin.carries.namesAt hi hs.dirs_live hd
    obtain ⟨⟨inode, entries, hinode, hentries⟩, -⟩ := hin.carries.wellListed hs hi hd
    rw [hread] at hinode
    obtain rfl := Option.some.inj hinode
    rw [namesAt, hread] at hnames
    dsimp only at hnames
    rw [hentries] at hnames
    dsimp only at hnames
    rw [wp_look_bind hentries, wp_get_bind]
    -- the inodes that are listed are in the tree
    have hkind : ∀ e ∈ entries, ((UfsFuse.readInode st.img st.ufs e.inode).map fun child =>
        fileKindOf child.mode).getD .regularFile = fileKindOf (V.attrs e.inode).mode := by
      intro e he
      have hmem : (e.name, e.inode) ∈ shownNames es :=
        (List.mergeSort_perm _ _).subset (hnames ▸ List.mem_map_of_mem he)
      obtain ⟨x, hx, hxe⟩ := List.mem_map.mp hmem
      have hrecord : x ∈ V.names.records (fuseToUfs ino) := by
        rw [show V.names.records _ = (es : Multiset Entry) from hes.symm]
        exact (List.mem_filter.mp hx).1
      obtain ⟨-, hinode⟩ := Prod.mk.inj hxe
      have hl : e.inode ∈ V.names.live := hinode ▸ hs.record_live hd hrecord
      obtain ⟨i, hi', hattrs, -⟩ := h.readInode hl
      rw [hi', ← hattrs]
      rfl
    have hreply : ∀ reply : DirListEntry × ℕ → DirReply, (∀ x, reply x = ⟨ufsToFuse x.1.inode, x.2 + 1,
        ((UfsFuse.readInode st.img st.ufs x.1.inode).map fun child => fileKindOf child.mode).getD
          .regularFile, x.1.name⟩) → ((entries.zipIdx.drop offset).take room).map reply =
        (((entries.map fun e => (e.name, e.inode)).zipIdx.drop offset).take room).map V.dirReply := by
      intro reply hreply
      rw [List.zipIdx_map, ← List.map_drop, ← List.map_take, List.map_map]
      refine List.map_congr_left fun x hx => (hreply x).trans ?_
      have hx := List.fst_mem_of_mem_zipIdx (List.mem_of_mem_drop (List.mem_of_mem_take hx))
      exact congrArg (DirReply.mk _ _ · _) (hkind x.1 hx)
    refine ⟨V, ?_, h⟩
    rw [hreply _ fun _ => rfl]
    exact .readdir hd ⟨es, hes, hnames⟩
  · rw [if_pos (fun hno => hd (hdir.mp hno))]
    exact .inl ⟨V, .readdirOther hd, h⟩

end Looking

/-! ### Bodies -/
section Bodies
variable {ino offset size fh : ℕ} {now : ℤ}

/-- A body that is written back is stored, and its file is stamped. -/
theorem commit_wp (h : st.Reflects ufs V) (hfit : ∀ b, st.buffers n = some b → b.dirty = true →
      fits → (Call.setInodeContents n b.data).Fits st.img st.ufs) :
    (commit now n).wp st (fun _ st' => ∃ V', V.WrittenBack now n V' ∧ st'.Reflects ufs V' ∧
      ∀ b, st'.buffers n = some b → b.dirty = false) fun _ _ => ¬fits := by
  obtain ⟨rfl, hro, stored, ⟨T, hi, hin⟩, hb⟩ := id h
  rw [commit, wp_get_bind]
  cases hbuf : st.buffers n with
  | none =>
    refine ⟨V, .inl rfl, h, fun b hb' => ?_⟩
    rw [hbuf] at hb'
    cases hb'
  | some b =>
    dsimp only
    cases hdirty : b.dirty with
    | false =>
      refine ⟨V, .inl rfl, h, fun b' hb' => ?_⟩
      rw [hbuf] at hb'
      rw [← Option.some.inj hb', hdirty]
    | true =>
      have hl := hb.live n b hbuf
      have hd := hb.file n b hbuf
      rw [if_pos rfl, Act.wp_bind]
      refine wp_onImage ((hin.setInodeContents hi hl hd (hb.short n b hbuf)).mono ?_ ?_)
      · rintro - t hrep
        have hu : inUse t st.ufs n = true := (hrep.readFrom.inUse n).mpr hl
        rw [Act.wp_bind]
        refine wp_onImage ((hrep.setAttrs (c := .setInodeTimes n none (some (systimeSecs now))
          (some (systimeSecs now))) hu trivial).mono ?_ fun _ _ => False.elim)
        rintro - t' ⟨-, hrep'⟩
        have hclean : Buffered (Function.update st.buffers n (some ⟨b.data, false⟩))
            (V.write n b.data) (Function.update stored n b.data) :=
          hb.insert hl hd (hb.short n b hbuf) fun _ => rfl
        have hsame : V.write n b.data = V := by
          rw [FileTree.write, hb.data n b hbuf, Function.update_eq_self]
        rw [hsame] at hclean
        refine ⟨_, .inr ⟨hl, rfl⟩, ⟨rfl, hro, _, hrep', hclean.setAttrs _⟩, fun b' hb' => ?_⟩
        have hself : Function.update st.buffers n (some ⟨b.data, false⟩) n = some b' := hb'
        rw [Function.update_self] at hself
        rw [← Option.some.inj hself]
      · intro _ t hshort hfits
        exact absurd hshort (not_lt.mpr (hfit b hbuf hdirty hfits))

/-- The body is in a buffer afterwards. -/
theorem ensureBuffer_wp (h : st.Reflects ufs V) (hn : n ∈ V.names.live) (hd : n ∉ V.names.dirs)
    {E : Refusal → Daemon → Prop} : (ensureBuffer n).wp st (fun _ st' => st'.Reflects ufs V ∧
      ∃ b, st'.buffers n = some b ∧ b.data = V.body n) E := by
  obtain ⟨rfl, hro, stored, ⟨T, hi, hin⟩, hb⟩ := id h
  rw [ensureBuffer, wp_get_bind]
  cases hbuf : st.buffers n with
  | some b => exact ⟨h, b, hbuf, hb.data n b hbuf⟩
  | none =>
    have hT := hin.live.mpr hn
    have hbody : (T.file n).body = V.body n := (hin.body n hn hd).trans (hb.unbuffered n hbuf)
    dsimp only
    rw [wp_look_bind (a := V.body n)]
    swap
    · rw [hi.readInode hT, ← hbody]
      exact hi.readInodeBytes hT
    have hloaded : Buffered (Function.update st.buffers n (some ⟨V.body n, false⟩))
        (V.write n (V.body n)) (Function.update stored n (V.body n)) :=
      hb.insert hn hd (hbody ▸ hi.body_lt hT) fun _ => rfl
    rw [FileTree.write, Function.update_eq_self, ← hb.unbuffered n hbuf, Function.update_eq_self,
      hb.unbuffered n hbuf] at hloaded
    exact ⟨⟨rfl, hro, stored, ⟨T, hi, hin⟩, hloaded⟩, _, Function.update_self _ _ _, rfl⟩

theorem writeFile_wp {data : Bytes} (h : st.Reflects ufs V)
    (hm : (Request.write ino offset data).Meets c st) :
    (writeFile ino offset data).wp st (V.Replied ufs c (.write ino offset data))
      (V.Errs ufs c (.write ino offset data) fits) := by
  obtain ⟨hfile, hlen⟩ := hm.targets
  obtain ⟨hn, hd⟩ := h.isFile hfile
  rw [writeFile, wp_writable_bind h.writable, Act.wp_bind]
  refine (ensureBuffer_wp h hn hd).mono ?_ fun _ _ he => he
  rintro - st₁ ⟨h₁, b, hbuf, hdata⟩
  obtain ⟨rfl, hro, stored, hrep, hb⟩ := h₁
  have hbody : (if offset + data.length > b.data.length then b.data.resize (offset + data.length)
      else b.data).overlay offset data = (V.body (fuseToUfs ino)).spliced offset data := by
    rw [hdata, Bytes.spliced]
  have hshort := hb.short _ b hbuf
  have hdirty : Buffered (Function.update st₁.buffers (fuseToUfs ino)
      (some ⟨(V.body (fuseToUfs ino)).spliced offset data, true⟩))
      (V.write (fuseToUfs ino) ((V.body (fuseToUfs ino)).spliced offset data))
      (Function.update stored (fuseToUfs ino) (stored (fuseToUfs ino))) := by
    refine hb.insert hn hd ?_ fun hno => by cases hno
    rw [Bytes.spliced_length, ← hdata]
    omega
  rw [Function.update_eq_self] at hdirty
  rw [wp_look_bind (congrArg Outcome.unwrap hbuf)]
  dsimp only
  rw [wp_modify_bind, hbody]
  exact ⟨_, .write hn hd, rfl, hro, stored, hrep, hdirty⟩

theorem flush_wp (h : st.Reflects ufs V) :
    (flush c ino).wp st (V.Replied ufs c (.flush ino))
      (V.Errs ufs c (.flush ino) ((Request.flush ino).Fits c st)) := by
  rw [flush, Act.wp_bind]
  refine (commit_wp h fun b hb hd hfit => hfit.body _ b rfl hb hd).mono ?_ fun _ _ hno => .inr hno
  rintro - st' ⟨V', hback, h', -⟩
  exact ⟨V', .flush hback, h'⟩

theorem fsync_wp (h : st.Reflects ufs V) :
    (fsync c ino).wp st (V.Replied ufs c (.fsync ino))
      (V.Errs ufs c (.fsync ino) ((Request.fsync ino).Fits c st)) := by
  rw [fsync, Act.wp_bind]
  refine (commit_wp h fun b hb hd hfit => hfit.body _ b rfl hb hd).mono ?_ fun _ _ hno => .inr hno
  rintro - st' ⟨V', hback, h', -⟩
  have hserves := @FileTree.Serves.fsync ufs.sb.bsize c V ino V' hback
  cases hsync : c.synced with
  | true =>
    rw [hsync] at hserves
    exact ⟨V', hserves, h'⟩
  | false =>
    rw [hsync] at hserves
    exact .inl ⟨V', hserves, h'⟩

/-- A body that is dropped has been written back. -/
theorem release_wp (h : st.Reflects ufs V) :
    (release c ino fh).wp st (V.Replied ufs c (.release ino fh))
      (V.Errs ufs c (.release ino fh) ((Request.release ino fh).Fits c st)) := by
  rw [release, Act.wp_bind]
  refine (commit_wp h fun b hb hd hfit => hfit.body _ b rfl hb hd).mono ?_ fun _ _ hno => .inr hno
  rintro - st' ⟨V', hback, ⟨rfl, hro, stored, hrep, hb⟩, hclean⟩
  rw [wp_modify_bind, wp_get_bind, Act.wp_ite]
  refine ⟨fun _ => ?_, fun _ => ?_⟩
  · exact ⟨V', .release hback, rfl, hro, stored, hrep, hb⟩
  · rw [wp_modify_bind]
    exact ⟨V', .release hback, rfl, hro, stored, hrep, hb.drop hclean⟩

end Bodies

/-! ### Attributes -/
section Attributes
variable {size mode uid gid : Option ℕ} {ino : ℕ}

/-- A new size goes to the buffered body or to the disk. -/
theorem setSize_wp (h : st.Reflects ufs V) (hfile : ∀ sz, size = some sz →
      IsFile st.img st.ufs n ∧ sz < 2 ^ 63)
    (hfit : ∀ sz, size = some sz → st.buffers n = none → fits →
      (Call.truncate n sz).Fits st.img st.ufs) :
    (whenSome size (setSize n)).wp st (fun _ st' => ∃ V', st'.Reflects ufs V' ∧
      V.Steps (size.map fun sz => Call.truncate n sz).toList V' ∧ V'.names = V.names ∧
        V'.attrs = V.attrs) fun _ _ => ¬fits := by
  cases size with
  | none => exact ⟨V, h, .nil V, rfl, rfl⟩
  | some sz =>
    obtain ⟨hf, hsz⟩ := hfile sz rfl
    obtain ⟨hn, hd⟩ := h.isFile hf
    obtain ⟨rfl, hro, stored, hrep, hb⟩ := id h
    have hstep : V.Step (.truncate n sz) (V.write n ((V.body n).resize sz)) := .truncate hn hd
    change (setSize n sz).wp st _ _
    rw [setSize, wp_get_bind]
    cases hbuf : st.buffers n with
    | some b =>
      have hdirty : Buffered (Function.update st.buffers n (some ⟨(V.body n).resize sz, true⟩))
          (V.write n ((V.body n).resize sz)) (Function.update stored n (stored n)) := by
        refine hb.insert hn hd ?_ fun hno => by cases hno
        rwa [Bytes.resize_length]
      rw [Function.update_eq_self] at hdirty
      rw [← hb.data n b hbuf] at hdirty hstep
      exact ⟨V.write n (b.data.resize sz), ⟨rfl, hro, stored, hrep, hdirty⟩, .cons hstep (.nil _), rfl,
        rfl⟩
    | none =>
      have hok := hrep.step (c := .truncate n sz) ⟨hf, hsz⟩
      obtain ⟨T, hi, hin⟩ := hrep
      have hshort := (truncate_stores (hin.live.mpr hn) hsz).run st.img hi
      refine wp_onImage ((hok.and hshort).mono ?_ ?_)
      · rintro - t ⟨⟨V₁, hstep₁, hV₁⟩, -⟩
        cases hstep₁ with
        | truncate hl hd' =>
          have hbody : (V.withBody stored).body n = V.body n := hb.unbuffered n hbuf
          rw [hbody] at hV₁
          refine ⟨V.write n ((V.body n).resize sz), h.onImage _ hV₁ ?_, .cons hstep (.nil _), rfl, rfl⟩
          refine hb.congr (fun m b hbm => ⟨hb.live m b hbm, hb.file m b hbm⟩) (fun m b hbm => ?_)
            fun m hbm => ?_
          · have hmn : m ≠ n := by
              rintro rfl
              rw [hbuf] at hbm
              cases hbm
            exact ⟨Function.update_of_ne hmn _ _, Function.update_of_ne hmn _ _⟩
          · change Function.update stored n _ m = Function.update V.body n _ m
            rw [Function.update_apply, Function.update_apply, hb.unbuffered m hbm]
      · rintro _ t ⟨-, hno⟩ hfits
        refine absurd hno (not_lt.mpr ?_)
        rw [← hi.blocksBeside (hin.live.mpr hn)]
        exact hfit sz rfl hbuf hfits

/-- A call that sets attributes, in a handler. -/
theorem setAttrs_wp (h : st.Reflects ufs V) (call : Call) (hm : call.Meets st.img st.ufs)
    (hc : call.OnAttrs) {E : Refusal → Daemon → Prop} :
    (onImage fun ufs => call.perform ufs).wp st (fun _ st' => st'.Reflects ufs (V.setAttrs call) ∧
      V.Step call (V.setAttrs call)) E := by
  obtain ⟨rfl, hro, stored, hrep, hb⟩ := id h
  refine wp_onImage ((hrep.setAttrs hm hc).mono ?_ fun _ _ => False.elim)
  rintro - t ⟨hstep, hV⟩
  refine ⟨h.onImage _ hV (hb.setAttrs call), ?_⟩
  generalize hV' : (V.withBody stored).setAttrs call = V' at hstep
  cases hstep with
  | setInodeMode hl => exact .setInodeMode hl
  | setInodeOwner hl => exact .setInodeOwner hl
  | setInodeTimes hl => exact .setInodeTimes hl
  | _ => exact hc.elim

/-- The mode keeps its type. -/
theorem setMode_wp (h : st.Reflects ufs V) (hn : n ∈ V.names.live) {E : Refusal → Daemon → Prop} :
    (whenSome mode (setMode n)).wp st (fun _ st' => ∃ V', st'.Reflects ufs V' ∧
      V.Steps (mode.map fun m =>
        Call.setInodeMode n (((V.attrs n).mode &&& ufsIfmt) ||| permissionsOf m)).toList V' ∧
      V'.names = V.names ∧ (V'.attrs n).uid = (V.attrs n).uid ∧
        (V'.attrs n).gid = (V.attrs n).gid) E := by
  cases mode with
  | none => exact ⟨V, h, .nil V, rfl, rfl, rfl⟩
  | some m =>
    obtain ⟨i, hread, hattrs, -⟩ := h.readInode hn
    have hmode : i.mode = (V.attrs n).mode := by
      rw [← hattrs]
      rfl
    change (setMode n m).wp st _ _
    rw [setMode, wp_get_bind, hread]
    dsimp only
    rw [hmode]
    refine (setAttrs_wp h (.setInodeMode n (((V.attrs n).mode &&& ufsIfmt) ||| permissionsOf m))
      ⟨h.inUse.mpr hn, ?_⟩ trivial).mono ?_ fun _ _ he => he
    · have htype : ((V.attrs n).mode &&& ufsIfmt) &&& ufsIfmt = (V.attrs n).mode &&& ufsIfmt := by
        rw [Nat.land_assoc, Nat.and_self]
      have hdir := isDirectory_mode_iff i (((V.attrs n).mode &&& ufsIfmt) ||| permissionsOf m)
      rw [Inode.isDirectory, Inode.fileType, fileType_or _ m htype] at hdir
      rw [← hdir, h.isDir]
      exact h.isDirectory hn
    · rintro - st' ⟨h', hstep⟩
      refine ⟨_, h', .cons hstep (.nil _), rfl, ?_, ?_⟩
      · simp [FileTree.setAttrs, Call.setAttrs]
      · simp [FileTree.setAttrs, Call.setAttrs]

theorem changeOwner_wp (h : st.Reflects ufs V) (hn : n ∈ V.names.live)
    {E : Refusal → Daemon → Prop} : (changeOwner n uid gid).wp st (fun _ st' => ∃ V',
      st'.Reflects ufs V' ∧ V.Steps (if uid.isSome ∨ gid.isSome then
        [.setInodeOwner n (uid.getD (V.attrs n).uid) (gid.getD (V.attrs n).gid)] else []) V' ∧
      V'.names = V.names) E := by
  rw [changeOwner]
  split_ifs
  · obtain ⟨i, hread, hattrs, -⟩ := h.readInode hn
    have huid : i.uid = (V.attrs n).uid := by
      rw [← hattrs]
      rfl
    have hgid : i.gid = (V.attrs n).gid := by
      rw [← hattrs]
      rfl
    rw [setOwner, wp_get_bind, hread]
    dsimp only
    rw [huid, hgid]
    refine (setAttrs_wp h (.setInodeOwner n (uid.getD (V.attrs n).uid)
      (gid.getD (V.attrs n).gid)) (h.inUse.mpr hn) trivial).mono ?_ fun _ _ he => he
    rintro - st' ⟨h', hstep⟩
    exact ⟨_, h', .cons hstep (.nil _), rfl⟩
  · exact ⟨V, h, .nil V, rfl⟩

theorem changeTimes_wp {a m t : Option ℕ} (h : st.Reflects ufs V) (hn : n ∈ V.names.live)
    {E : Refusal → Daemon → Prop} : (changeTimes n a m t).wp st (fun _ st' => ∃ V',
      st'.Reflects ufs V' ∧ V.Steps (if a.isSome ∨ m.isSome ∨ t.isSome then
        [.setInodeTimes n a m t] else []) V' ∧ V'.names = V.names) E := by
  rw [changeTimes]
  split_ifs
  · refine (setAttrs_wp h (.setInodeTimes n a m t) (h.inUse.mpr hn) trivial).mono ?_
      fun _ _ he => he
    rintro - st' ⟨h', hstep⟩
    exact ⟨_, h', .cons hstep (.nil _), rfl⟩
  · exact ⟨V, h, .nil V, rfl⟩

theorem setattr_wp {atime mtime : Option TimeOrNow} {ctime : Option ℤ} (h : st.Reflects ufs V)
    (hm : (Request.setattr ino mode uid gid size atime mtime ctime).Meets c st) :
    (setattr c.now ino mode uid gid size atime mtime ctime).wp st
      (V.Replied ufs c (.setattr ino mode uid gid size atime mtime ctime))
      (V.Errs ufs c (.setattr ino mode uid gid size atime mtime ctime)
        ((Request.setattr ino mode uid gid size atime mtime ctime).Fits c st)) := by
  obtain ⟨hu, hsize⟩ := hm.targets
  have hn := h.inUse.mp hu
  rw [setattr_eq, wp_writable_bind h.writable, Act.wp_bind]
  refine (setSize_wp h hsize fun sz hsz hnone hfits => ?_).mono ?_ fun _ _ hno => .inr hno
  · subst hsz
    exact hfits.size _ _ _ _ _ _ _ _ rfl hnone
  rintro - st₁ ⟨V₁, h₁, hs₁, hnames₁, hattrs₁⟩
  rw [Act.wp_bind]
  refine (setMode_wp h₁ (hnames₁ ▸ hn)).mono ?_ fun _ _ he => he
  rintro - st₂ ⟨V₂, h₂, hs₂, hnames₂, huid, hgid⟩
  rw [Act.wp_bind]
  have hn₂ : fuseToUfs ino ∈ V₂.names.live := by rwa [hnames₂, hnames₁]
  refine (changeOwner_wp h₂ hn₂).mono ?_ fun _ _ he => he
  rintro - st₃ ⟨V₃, h₃, hs₃, hnames₃⟩
  rw [Act.wp_bind]
  refine (changeTimes_wp h₃ (hnames₃ ▸ hn₂)).mono ?_ fun _ _ he => he
  rintro - st₄ ⟨V₄, h₄, hs₄, hnames₄⟩
  refine (getattr_wp h₄ (hnames₄ ▸ hnames₃ ▸ hn₂)).mono ?_ fun _ _ he => he
  rintro _ _ ⟨rfl, attr, rfl, ha⟩
  refine ⟨V₄, .setattr ?_ ha, h₄⟩
  rw [hattrs₁] at hs₂ huid hgid
  rw [huid, hgid] at hs₃
  exact (((hs₁.append hs₂).append hs₃).append hs₄)

end Attributes

/-! ### All requests -/

/-- Unmounting recounts the stored totals. -/
theorem destroy_run {t : Bytes} (hro : st.readOnly = false)
    (h : recomputeSummaryCounts st.ufs st.img = (.ok (), t)) :
    destroy st = (.ok .ok, { st with img := t }) := by
  have hlogged : logged (onImage recomputeSummaryCounts) st = (.ok (), { st with img := t }) := by
    rw [logged, onImage_run h]
  refine Act.bind_eq_ok.mpr ⟨false, st, congrArg (fun ro => (Outcome.ok ro, st)) hro, ?_⟩
  exact Act.bind_eq_ok.mpr ⟨(), _, hlogged, rfl⟩

theorem destroy_wp (h : st.Reflects ufs V) (hm : Request.destroy.Meets c st) :
    destroy.wp st (V.Replied ufs c .destroy) (V.Errs ufs c .destroy fits) := by
  obtain ⟨rfl, hro, stored, hrep, hb⟩ := id h
  rcases (hrep.recount hm.targets).ok_or_err with ⟨_, t, hrun, hrep'⟩ | ⟨_, _, _, hno⟩
  · rw [Act.wp, destroy_run hro hrun]
    exact ⟨V, .destroy, h.onImage V hrep' hb⟩
  · exact hno.elim

/-- Every request is a step of the tree, and is answered from it. -/
theorem handle_wp (h : st.Reflects ufs V) (hm : req.Meets c st) :
    (handle c req).wp st (V.Replied ufs c req) (V.Errs ufs c req (req.Fits c st)) := by
  cases req with
  | lookup => exact lookup_wp h hm
  | getattr ino =>
    refine (getattr_wp h (h.inUse.mp hm.targets)).mono ?_ fun _ _ he => he
    rintro _ _ ⟨rfl, attr, rfl, ha⟩
    exact ⟨V, .getattr ha, h⟩
  | access => exact access_wp h hm
  | getxattr => exact .inl ⟨V, .getxattr, h⟩
  | listxattr => exact ⟨V, .listxattr, h⟩
  | setattr => exact setattr_wp h hm
  | readlink => exact readlink_wp h hm
  | mkdir => exact mkdir_wp h hm
  | mknod => exact mknod_wp h hm
  | unlink => exact unlink_wp h hm
  | rmdir => exact rmdir_wp h hm
  | symlink => exact symlink_wp h hm
  | rename => exact rename_wp h hm
  | link => exact link_wp h hm
  | create => exact create_wp h hm
  | «open» =>
    obtain ⟨rfl, hro, stored, hrep, hb⟩ := h
    exact ⟨V, .open, rfl, hro, stored, hrep, hb⟩
  | read => exact readFile_wp h hm
  | write => exact writeFile_wp h hm
  | flush => exact flush_wp h
  | fsync => exact fsync_wp h
  | release => exact release_wp h
  | readdir => exact readdir_wp h hm
  | statfs => exact ⟨V, .statfs, h⟩
  | destroy => exact destroy_wp h hm

end Handler
end UfsFuse
