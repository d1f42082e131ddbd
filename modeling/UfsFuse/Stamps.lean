import UfsFuse.ReadOnlyMount
import UfsFuse.NameRoundTrip
import UfsFuse.Serve

/-!
# Modification times that clients set

A body that is buffered and dirty is stamped with the time of day when it is written back. So the
modification time that a client sets lasts exactly if nothing of its file waits to be written back.
-/
namespace UfsFuse

/-! ## The stored time -/
section Stored
variable {ufs : Ufs} {image image' : Bytes} {n : ℕ}

/-- The modification time in the record of inode `n`. -/
def storedMtime (image : Bytes) (ufs : Ufs) (n : ℕ) : ℕ := image.u32 (inodeOffset ufs n + DiOff.mtime)

theorem readInode_mtime {inode : Inode} (h : readInode image ufs n = some inode) :
    inode.mtime = storedMtime image ufs n := by
  unfold readInode at h
  dsimp only at h
  split_ifs at h with hout
  rw [← Option.some.inj h]
  exact Bytes.u32_slice (by decide)

theorem putInodeField_ok {field : ℕ} {value : Bytes}
    (h : putInodeField ufs n field value image = (.ok (), image')) :
    inodeOffset ufs n + field + value.length ≤ image.length ∧
      image' = image.overlay (inodeOffset ufs n + field) value := by
  unfold putInodeField putSlice at h
  obtain ⟨_, hguard, hput⟩ := Outcome.bind_eq_ok.mp (Act.update_eq_ok.mp h)
  exact ⟨Outcome.guard_eq_ok.mp hguard, (Outcome.ok.inj hput).symm⟩

/-- Another field of the record. -/
theorem putInodeField_mtime {field : ℕ} {value : Bytes}
    (h : putInodeField ufs n field value image = (.ok (), image'))
    (hd : DiOff.mtime + 4 ≤ field ∨ field + value.length ≤ DiOff.mtime) :
    storedMtime image' ufs n = storedMtime image ufs n := by
  obtain ⟨hin, rfl⟩ := putInodeField_ok h
  exact Bytes.u32_overlay_of_disjoint hin (by omega)

theorem writeInodeTime_mtime {t : ℕ}
    (h : writeInodeTime ufs n DiOff.mtime t image = (.ok (), image')) :
    storedMtime image' ufs n = t % 2 ^ 32 := by
  obtain ⟨_, image₁, hput, hmicros⟩ := Act.bind_eq_ok.mp h
  rw [putInodeField_mtime hmicros (.inl (by decide))]
  obtain ⟨hin, rfl⟩ := putInodeField_ok hput
  exact Bytes.u32_putU32_same hin

theorem writeInodeTime_other {field t : ℕ} (hd : DiOff.mtime + 4 ≤ field ∨ field + 8 ≤ DiOff.mtime)
    (h : writeInodeTime ufs n field t image = (.ok (), image')) :
    storedMtime image' ufs n = storedMtime image ufs n := by
  obtain ⟨_, image₁, hput, hmicros⟩ := Act.bind_eq_ok.mp h
  rw [putInodeField_mtime hmicros (by rw [Bytes.le_length]; omega),
    putInodeField_mtime hput (by rw [Bytes.le_length]; omega)]

/-- Setting the times of an inode sets the modification time. -/
theorem setInodeTimes_mtime {atime ctime : Option ℕ} {t : ℕ}
    (h : setInodeTimes ufs n atime (some t) ctime image = (.ok (), image')) :
    storedMtime image' ufs n = t % 2 ^ 32 := by
  unfold setInodeTimes at h
  dsimp only at h
  obtain ⟨_, image₁, -, h⟩ := Act.bind_eq_ok.mp h
  obtain ⟨_, image₂, hmtime, hctime⟩ := Act.bind_eq_ok.mp h
  rw [← writeInodeTime_mtime hmtime]
  cases ctime with
  | none => rw [(Prod.mk.inj hctime).2]
  | some c => exact writeInodeTime_other (.inl (by decide)) hctime

/-- Writing back one file of a consistent slice leaves the record of another alone. -/
theorem Consistent.writeBack {m secs : ℕ} {data : Bytes} (h : Consistent image ufs)
    (hn : inUse image ufs n = true) (hm : inUse image ufs m = true) (hmn : m ≠ n)
    (hlen : data.length < 2 ^ 63) (hroom : ufs.sb.blocksNeeded data.length ≤ blocksBeside image ufs m) :
    ∃ image₁ image₂, setInodeContents ufs m data image = (.ok (), image₁) ∧
      setInodeTimes ufs m none (some secs) (some secs) image₁ = (.ok (), image₂) ∧
      readInode image₂ ufs n = readInode image ufs n := by
  obtain ⟨T, N, hst, hc, -⟩ := h
  have hlive := hc.live_of_inUse hst hn
  have hmlive := hc.live_of_inUse hst hm
  rw [hst.blocksBeside hmlive] at hroom
  rcases ((setInodeContents_stores hmlive hlen).run image hst).ok_or_err with
    ⟨_, image₁, hset, T₁, hst₁, i, room, rfl, -⟩ | ⟨e, image₁, -, hshort⟩
  · have hmlive₁ : m ∈ (T.setFile m ⟨i, data⟩ room).live := hmlive
    rcases ((setInodeTimes_stores hmlive₁ (E := fun _ _ => False)).run image₁ hst₁).ok_or_err with
      ⟨_, image₂, htimes, T₂, hst₂, rfl⟩ | ⟨_, _, -, hno⟩
    · refine ⟨image₁, image₂, hset, htimes, ?_⟩
      have hread := @Ufs.Stores.readInode _ _ _ n hst₂ hlive
      rw [hst.readInode hlive, hread, Table.setInode,
        Table.setFile_of_ne _ hmn.symm, Table.setFile_of_ne _ hmn.symm]
    · exact hno.elim
  · exact absurd hshort (not_lt.mpr hroom)

end Stored

/-! ## Requests that ask for nothing new -/

/-- What a client does with an open file besides changing it. -/
def Request.Idle : Request → Prop
  | .flush _ | .fsync _ | .release _ _ | .open _ | .read _ _ _ | .getattr _ => True
  | _ => False

/-- The inode whose body a request writes back. -/
def Request.writesBack : Request → Option ℕ
  | .flush ino | .fsync ino | .release ino _ => some (fuseToUfs ino)
  | _ => none

/-- If the body of another file `m` is written back, that happens in a consistent file system that has
room for it. -/
def WriteBackApart (st : Daemon) (n m : ℕ) : Prop :=
  m ≠ n → ∀ b, st.buffers m = some b → b.dirty = true →
    Consistent st.img st.ufs ∧ inUse st.img st.ufs n = true ∧ inUse st.img st.ufs m = true ∧
      b.data.length < 2 ^ 63 ∧ st.ufs.sb.blocksNeeded b.data.length ≤ blocksBeside st.img st.ufs m

/-- Requests after which inode `n` should have the modification time it had. -/
def Session.Idles (n : ℕ) : Session → List (Caller × Request) → Prop
  | _, [] => True
  | s, (c, req) :: rest => req.Idle ∧
      (∀ m, req.writesBack = some m → WriteBackApart s.daemon n m) ∧ Idles n (s.serve c req).2 rest

/-- After a `setattr` nothing of the file waits to be written back: the body was not dirty, and a new
size does not go to a buffered body. -/
def NothingWaits (st : Daemon) (n : ℕ) (size : Option ℕ) : Prop :=
  ∀ b, st.buffers n = some b → b.dirty = false ∧ size = none

/-- Inode `n` has modification time `t`, and no dirty body. -/
structure KeepsMtime (n t : ℕ) (st : Daemon) : Prop where
  clean : ∀ b, st.buffers n = some b → b.dirty = false
  read : ∃ inode, readInode st.img st.ufs n = some inode ∧ inode.mtime = t

theorem timeornowSecs_mod (now : ℤ) (time : TimeOrNow) :
    timeornowSecs now time % 2 ^ 32 = timeornowSecs now time := by
  cases time with
  | specificTime t => exact Nat.mod_mod _ _
  | now => exact Nat.mod_mod _ _

namespace Handler
variable {α : Type} {n t : ℕ}

/-- Without a dirty body there is nothing to write back. -/
theorem commit_clean {st : Daemon} {now : ℤ} {m : ℕ}
    (h : ∀ b, st.buffers m = some b → b.dirty = false) : commit now m st = (.ok (), st) := by
  refine Act.bind_eq_ok.mpr ⟨st.buffers m, st, rfl, ?_⟩
  cases hb : st.buffers m with
  | none => rfl
  | some b =>
    dsimp only
    rw [if_neg (by rw [h b hb]; exact Bool.false_ne_true)]
    rfl

theorem commit_dirty {st : Daemon} {now : ℤ} {m : ℕ} {b : FileBuf} {image₁ image₂ : Bytes}
    (hb : st.buffers m = some b) (hd : b.dirty = true)
    (hset : setInodeContents st.ufs m b.data st.img = (.ok (), image₁))
    (htimes : setInodeTimes st.ufs m none (some (systimeSecs now)) (some (systimeSecs now)) image₁ =
      (.ok (), image₂)) :
    commit now m st =
      (.ok (), ({ st with img := image₂ } : Daemon).insertBuffer m { b with dirty := false }) := by
  have hcontents := @onImage_run _ (fun ufs => setInodeContents ufs m b.data) st () image₁ hset
  have hstamp := @onImage_run _ (fun ufs => setInodeTimes ufs m none (some (systimeSecs now))
    (some (systimeSecs now))) { st with img := image₁ } () image₂ htimes
  refine Act.bind_eq_ok.mpr ⟨some b, st, congrArg (fun o => (Outcome.ok o, st)) hb, ?_⟩
  dsimp only
  rw [if_pos hd]
  exact Act.bind_eq_ok.mpr ⟨_, _, hcontents, Act.bind_eq_ok.mpr ⟨_, _, hstamp, rfl⟩⟩

/-- Writing back a body keeps the time of inode `n`, unless it is the dirty body of `n`. -/
theorem commit_keepsMtime {st : Daemon} {now : ℤ} {m : ℕ} (h : KeepsMtime n t st)
    (hapart : WriteBackApart st n m) : KeepsMtime n t (commit now m st).2 := by
  by_cases hclean : ∀ b, st.buffers m = some b → b.dirty = false
  · rw [commit_clean hclean]
    exact h
  · simp only [not_forall, Bool.not_eq_false] at hclean
    obtain ⟨b, hb, hd⟩ := hclean
    have hmn : m ≠ n := by
      rintro rfl
      exact Bool.false_ne_true ((h.clean b hb).symm.trans hd)
    obtain ⟨hcons, hn, hm, hlen, hroom⟩ := hapart hmn b hb hd
    obtain ⟨image₁, image₂, hset, htimes, hread⟩ :=
      @Consistent.writeBack _ _ n m (systimeSecs now) _ hcons hn hm hmn hlen hroom
    rw [commit_dirty hb hd hset htimes]
    constructor
    · intro b' hb'
      exact h.clean b' ((Function.update_of_ne hmn.symm _ _).symm.trans hb')
    · obtain ⟨inode, hinode, hmtime⟩ := h.read
      exact ⟨inode, hread.trans hinode, hmtime⟩

/-- Opening, reading and looking change neither the image nor a body. -/
theorem keeps_newHandle_mtime (m : ℕ) : (newHandle m).Keeps (KeepsMtime n t) := by
  unfold newHandle
  refine (keeps_look _).bind fun fh => Act.Keeps.bind (Act.keeps_update fun st st' hst ht => ?_)
    fun _ => Act.keeps_pure fh
  cases ht
  exact ⟨hst.clean, hst.read⟩

theorem release_keepsMtime {st : Daemon} {c : Caller} {ino fh : ℕ} (h : KeepsMtime n t st)
    (hapart : WriteBackApart st n (fuseToUfs ino)) : KeepsMtime n t (release c ino fh st).2 := by
  refine Act.bind_keeps (commit_keepsMtime h hapart) fun _ => ?_
  refine Act.Keeps.bind (Act.keeps_update fun st st' hst ht => ?_) fun _ =>
    (keeps_look _).bind fun more => Act.keeps_ite (fun _ => Act.keeps_pure _) fun _ =>
      Act.Keeps.bind (Act.keeps_update fun st st' hst ht => ?_) fun _ => Act.keeps_pure _
  · cases ht
    exact ⟨hst.clean, hst.read⟩
  · cases ht
    refine ⟨fun b hb => hst.clean b ?_, hst.read⟩
    dsimp only at hb
    by_cases hn : n = fuseToUfs ino
    · rw [hn, Function.update_self] at hb
      cases hb
    · rwa [Function.update_of_ne hn] at hb

/-- No idle request changes the time. -/
theorem handle_keepsMtime {st : Daemon} (c : Caller) {req : Request} (hidle : req.Idle)
    (h : KeepsMtime n t st) (hapart : ∀ m, req.writesBack = some m → WriteBackApart st n m) :
    KeepsMtime n t (handle c req st).2 := by
  cases req with
  | getattr ino =>
    exact ((keeps_look _).bind fun a => (keeps_orElse _ a).bind fun attr => Act.keeps_pure _) st h
  | «open» ino => exact ((keeps_newHandle_mtime _).bind fun fh => Act.keeps_pure _) st h
  | read ino offset size =>
    refine ((keeps_look _).bind fun buffer => ?_ : (readFile ino offset size).Keeps _) st h
    cases buffer with
    | some b => exact Act.keeps_pure _
    | none =>
      refine (keeps_look _).bind fun i => (keeps_orElse _ i).bind fun inode => ?_
      exact (keeps_look _).bind fun data => Act.keeps_pure _
  | flush ino =>
    exact Act.bind_keeps (commit_keepsMtime h (hapart _ rfl)) fun _ => Act.keeps_pure _
  | fsync ino =>
    refine Act.bind_keeps (commit_keepsMtime h (hapart _ rfl)) fun _ => ?_
    exact Act.keeps_ite (fun _ => Act.keeps_pure _) fun _ => Act.keeps_fail _
  | release ino fh => exact release_keepsMtime h (hapart _ rfl)
  | _ => exact hidle.elim

/-- The attributes of an inode that can be read. -/
theorem getattr_run {st : Daemon} {ino : ℕ} {inode : Inode}
    (h : readInode st.img st.ufs (fuseToUfs ino) = some inode) :
    ∃ attr, getattr ino st = (.ok (.attr attr), st) ∧ attr.mtime = inode.mtime := by
  have hattr : st.attrFor (fuseToUfs ino) = some (makeAttr inode (fuseToUfs ino)
      (((st.buffers (fuseToUfs ino)).map fun b => b.data.length).getD inode.size)
      st.ufs.sb.bsize) := by
    rw [Daemon.attrFor, h]
    rfl
  refine ⟨makeAttr inode (fuseToUfs ino) (((st.buffers (fuseToUfs ino)).map fun b =>
    b.data.length).getD inode.size) st.ufs.sb.bsize, ?_, rfl⟩
  refine Act.bind_eq_ok.mpr ⟨_, st, congrArg (fun o => (Outcome.ok o, st)) hattr, ?_⟩
  exact Act.bind_eq_ok.mpr ⟨_, st, rfl, rfl⟩

theorem getattr_ok {st st' : Daemon} {ino : ℕ} {r : Reply} (h : getattr ino st = (.ok r, st')) :
    st' = st ∧ ∃ inode attr, readInode st.img st.ufs (fuseToUfs ino) = some inode ∧
      r = .attr attr ∧ attr.mtime = inode.mtime := by
  cases hread : readInode st.img st.ufs (fuseToUfs ino) with
  | none =>
    obtain ⟨found, st₁, hlook, hrest₁⟩ := Act.bind_eq_ok.mp h
    obtain ⟨found', st₂, horElse, -⟩ := Act.bind_eq_ok.mp hrest₁
    obtain ⟨hfound, rfl⟩ := look_ok hlook
    have hnone : found = none := by
      rw [← Outcome.ok.inj hfound, Daemon.attrFor, hread]
      rfl
    subst hnone
    exact absurd horElse Act.fail_ne_ok
  | some inode =>
    obtain ⟨attr, hrun, hmtime⟩ := getattr_run hread
    obtain ⟨hr, hst⟩ := Prod.mk.inj (h.symm.trans hrun)
    exact ⟨hst, inode, attr, rfl, Outcome.ok.inj hr, hmtime⟩

/-! ## Setting the time -/

/-- One optional part of a `setattr`. -/
def whenSome (o : Option α) (f : α → Handler Unit) : Handler Unit :=
  match o with
  | some a => f a
  | none => pure ()

def changeOwner (n : ℕ) (uid gid : Option ℕ) : Handler Unit :=
  if uid.isSome ∨ gid.isSome then setOwner n uid gid else pure ()

def changeTimes (n : ℕ) (atime mtime ctime : Option ℕ) : Handler Unit :=
  if atime.isSome ∨ mtime.isSome ∨ ctime.isSome then
    onImage fun ufs => setInodeTimes ufs n atime mtime ctime
  else pure ()

/-- The parts of a `setattr`, one after the other. -/
theorem setattr_eq (now : ℤ) (ino : ℕ) (mode uid gid size : Option ℕ) (atime mtime : Option TimeOrNow)
    (ctime : Option ℤ) : setattr now ino mode uid gid size atime mtime ctime = (do
      writable
      whenSome size (setSize (fuseToUfs ino))
      whenSome mode (setMode (fuseToUfs ino))
      changeOwner (fuseToUfs ino) uid gid
      changeTimes (fuseToUfs ino) (atime.map (timeornowSecs now)) (mtime.map (timeornowSecs now))
        (ctime.map systimeSecs)
      getattr ino) := by
  unfold setattr changeOwner changeTimes getattr
  by_cases howner : uid.isSome ∨ gid.isSome
  · by_cases htimes : (atime.map (timeornowSecs now)).isSome ∨ (mtime.map (timeornowSecs now)).isSome ∨
        (ctime.map systimeSecs).isSome
    · simp only [if_pos howner, if_pos htimes]
      cases size <;> cases mode <;> rfl
    · simp only [if_pos howner, if_neg htimes]
      cases size <;> cases mode <;> rfl
  · by_cases htimes : (atime.map (timeornowSecs now)).isSome ∨ (mtime.map (timeornowSecs now)).isSome ∨
        (ctime.map systimeSecs).isSome
    · simp only [if_neg howner, if_pos htimes]
      cases size <;> cases mode <;> rfl
    · simp only [if_neg howner, if_neg htimes]
      cases size <;> cases mode <;> rfl

theorem keeps_onImage {x : Ufs → Write α} {B : ℕ → Option FileBuf} :
    (onImage x).Keeps fun st => st.buffers = B := by
  intro st hst
  unfold onImage
  rcases x st.ufs st.img with ⟨a | e | _, img⟩
  · exact hst
  · exact hst
  · exact hst

theorem keeps_setMode {B : ℕ → Option FileBuf} (m mode : ℕ) :
    (setMode m mode).Keeps fun st => st.buffers = B := by
  refine (keeps_look _).bind fun i => ?_
  cases i with
  | some cur => exact keeps_onImage
  | none => exact Act.keeps_pure _

theorem keeps_setOwner {B : ℕ → Option FileBuf} (m : ℕ) (uid gid : Option ℕ) :
    (setOwner m uid gid).Keeps fun st => st.buffers = B := by
  refine (keeps_look _).bind fun i => ?_
  cases i with
  | some cur => exact keeps_onImage
  | none => exact Act.keeps_pure _

/-- A new size makes a buffered body dirty. -/
theorem setSize_waits {st st' : Daemon} {size : Option ℕ}
    (h : whenSome size (setSize n) st = (.ok (), st')) :
    (NothingWaits st n size → ∀ b, st'.buffers n = some b → b.dirty = false) ∧
      (¬NothingWaits st n size → ∃ b, st'.buffers n = some b ∧ b.dirty = true) := by
  cases size with
  | none =>
    obtain rfl : st = st' := (Prod.mk.inj h).2
    refine ⟨fun hw b hb => (hw b hb).1, fun hw => ?_⟩
    unfold NothingWaits at hw
    simp only [and_true, not_forall, Bool.not_eq_false] at hw
    obtain ⟨b, hb, hd⟩ := hw
    exact ⟨b, hb, hd⟩
  | some size =>
    obtain ⟨buffer, st₁, hlook, hset⟩ := Act.bind_eq_ok.mp h
    obtain ⟨hbuffer, rfl⟩ := look_ok hlook
    have hbuffer := Outcome.ok.inj hbuffer
    cases buffer with
    | some b =>
      obtain rfl := Outcome.ok.inj (Act.update_eq_ok.mp hset)
      refine ⟨fun hw => absurd (hw b hbuffer).2 (by simp), fun _ => ?_⟩
      exact ⟨_, Function.update_self _ _ _, rfl⟩
    | none =>
      have hbuffers : st'.buffers = st₁.buffers := by
        exact (congrArg (fun r => r.2.buffers) hset).symm.trans
          (@keeps_onImage _ (fun ufs => truncate ufs n size) st₁.buffers st₁ rfl)
      rw [hbuffers, hbuffer]
      refine ⟨fun _ b hb => (by cases hb), fun hw => absurd ?_ hw⟩
      intro b hb
      rw [hbuffer] at hb
      cases hb

/-- A `setattr` that is answered has set the time that it was given. -/
theorem setattr_ok {now : ℤ} {ino : ℕ} {mode uid gid size : Option ℕ} {atime : Option TimeOrNow}
    {time : TimeOrNow} {ctime : Option ℤ} {st st' : Daemon} {r : Reply}
    (h : setattr now ino mode uid gid size atime (some time) ctime st = (.ok r, st')) :
    (∃ attr, r = .attr attr ∧ attr.mtime = timeornowSecs now time) ∧
      (∃ inode, readInode st'.img st'.ufs (fuseToUfs ino) = some inode ∧
        inode.mtime = timeornowSecs now time) ∧
      (NothingWaits st (fuseToUfs ino) size →
        ∀ b, st'.buffers (fuseToUfs ino) = some b → b.dirty = false) ∧
      (¬NothingWaits st (fuseToUfs ino) size →
        ∃ b, st'.buffers (fuseToUfs ino) = some b ∧ b.dirty = true) := by
  rw [setattr_eq] at h
  obtain ⟨_, st₀, hwritable, hrest₀⟩ := Act.bind_eq_ok.mp h
  obtain ⟨_, st₁, hsize, hrest₁⟩ := Act.bind_eq_ok.mp hrest₀
  obtain ⟨_, st₂, hmode, hrest₂⟩ := Act.bind_eq_ok.mp hrest₁
  obtain ⟨_, st₃, howner, hrest₃⟩ := Act.bind_eq_ok.mp hrest₂
  obtain ⟨_, st₄, htimes, hrest₄⟩ := Act.bind_eq_ok.mp hrest₃
  obtain ⟨rfl, inode, attr, hread, hr, hattr⟩ := getattr_ok hrest₄
  obtain rfl := writable_ok hwritable
  -- only a new size touches the bodies
  have hbodies₂ : st₂.buffers = st₁.buffers := by
    cases mode with
    | none => exact (congrArg (fun r => r.2.buffers) hmode).symm
    | some m => exact (congrArg (fun r => r.2.buffers) hmode).symm.trans (keeps_setMode _ m st₁ rfl)
  have hbodies₃ : st₃.buffers = st₂.buffers := by
    have hkeep : (changeOwner (fuseToUfs ino) uid gid).Keeps fun st => st.buffers = st₂.buffers :=
      Act.keeps_ite (fun _ => keeps_setOwner _ uid gid) fun _ => Act.keeps_pure _
    exact (congrArg (fun r => r.2.buffers) howner).symm.trans (hkeep st₂ rfl)
  have hstamp : changeTimes (fuseToUfs ino) (atime.map (timeornowSecs now))
      (some (timeornowSecs now time)) (ctime.map systimeSecs) =
      onImage fun ufs => setInodeTimes ufs (fuseToUfs ino) (atime.map (timeornowSecs now))
        (some (timeornowSecs now time)) (ctime.map systimeSecs) := if_pos (.inr (.inl rfl))
  obtain ⟨img, hset, rfl⟩ := onImage_ok (hstamp ▸ htimes)
  have hstored := setInodeTimes_mtime hset
  rw [timeornowSecs_mod] at hstored
  have hmtime := (readInode_mtime hread).trans hstored
  have hbodies : st₃.buffers = st₁.buffers := hbodies₃.trans hbodies₂
  obtain ⟨hclean, hwaits⟩ := setSize_waits hsize
  refine ⟨⟨attr, hr, hattr.trans hmtime⟩, ⟨inode, hread, hmtime⟩, ?_, ?_⟩
  · rw [hbodies]
    exact hclean
  · rw [hbodies]
    exact hwaits

/-- A dirty body that is written back is stamped with the time of day. -/
theorem commit_stamps {now : ℤ} {st st' : Daemon} {b : FileBuf} (hb : st.buffers n = some b)
    (hd : b.dirty = true) (h : commit now n st = (.ok (), st')) :
    storedMtime st'.img st'.ufs n = systimeSecs now := by
  obtain ⟨buffer, st₁, hlook, hrest₁⟩ := Act.bind_eq_ok.mp h
  obtain ⟨hbuffer, rfl⟩ := look_ok hlook
  obtain rfl : buffer = some b := (Outcome.ok.inj hbuffer).symm.trans hb
  dsimp only at hrest₁
  rw [if_pos hd] at hrest₁
  obtain ⟨_, st₂, hset, hrest₂⟩ := Act.bind_eq_ok.mp hrest₁
  obtain ⟨_, st₃, hstamp, hrest₃⟩ := Act.bind_eq_ok.mp hrest₂
  obtain rfl := Outcome.ok.inj (Act.update_eq_ok.mp hrest₃)
  obtain ⟨image₂, htimes, rfl⟩ := onImage_ok hstamp
  exact (setInodeTimes_mtime htimes).trans (Nat.mod_mod _ _)

end Handler

/-! ## Sessions -/
namespace Session
variable {s s' : Session} {c : Caller} {req : Request} {n t : ℕ}

/-- The modification time that `getattr` reports. -/
theorem serve_getattr {ino : ℕ} {inode : Inode} (hp : s.poisoned = false)
    (h : readInode s.daemon.img s.daemon.ufs (fuseToUfs ino) = some inode) (ht : inode.mtime = t) :
    ∃ attr, (s.serve c (.getattr ino)).1 = .reply (.attr attr) ∧ attr.mtime = t := by
  obtain ⟨attr, hattr, hsame⟩ := Handler.getattr_run h
  refine ⟨attr, ?_, hsame.trans ht⟩
  rw [@serve_run _ c (.getattr ino) _ _ (by simp [Request.names]) hp hattr]

theorem serve_keepsMtime (hidle : req.Idle) (h : KeepsMtime n t s.daemon)
    (hapart : ∀ m, req.writesBack = some m → WriteBackApart s.daemon n m) :
    KeepsMtime n t (s.serve c req).2.daemon :=
  serve_keeps h (Handler.handle_keepsMtime c hidle h hapart)

theorem run_keepsMtime {later : List (Caller × Request)} : ∀ {s : Session},
    KeepsMtime n t s.daemon → s.Idles n later → KeepsMtime n t (s.run later).daemon := by
  induction later with
  | nil => exact fun h _ => h
  | cons request rest ih =>
    obtain ⟨c, req⟩ := request
    intro s h hidles
    obtain ⟨hidle, hapart, hrest⟩ := hidles
    exact ih (serve_keepsMtime hidle h hapart) hrest

end Session

/-! ## A file that is opened, cut off, stamped and closed -/
namespace Handler
variable {st : Daemon} {n : ℕ}

/-- A new size for a buffered body. -/
theorem setattr_size_run {now : ℤ} {ino size : ℕ} {b : FileBuf} {inode : Inode}
    (hro : st.readOnly = false) (hb : st.buffers (fuseToUfs ino) = some b)
    (hread : readInode st.img st.ufs (fuseToUfs ino) = some inode) :
    ∃ r, setattr now ino none none none (some size) none none none st =
      (.ok r, st.insertBuffer (fuseToUfs ino) ⟨b.data.resize size, true⟩) := by
  obtain ⟨attr, hr, -⟩ := @getattr_run (st.insertBuffer (fuseToUfs ino) ⟨b.data.resize size, true⟩)
    ino inode hread
  have hsize : whenSome (some size) (setSize (fuseToUfs ino)) st =
      (.ok (), st.insertBuffer (fuseToUfs ino) ⟨b.data.resize size, true⟩) :=
    Act.bind_eq_ok.mpr ⟨some b, st, congrArg (fun o => (Outcome.ok o, st)) hb, rfl⟩
  refine ⟨.attr attr, ?_⟩
  rw [setattr_eq]
  exact Act.bind_eq_ok.mpr ⟨(), _, writable_run hro, Act.bind_eq_ok.mpr ⟨(), _, hsize,
    Act.bind_eq_ok.mpr ⟨(), _, rfl, Act.bind_eq_ok.mpr ⟨(), _, rfl,
      Act.bind_eq_ok.mpr ⟨(), _, rfl, hr⟩⟩⟩⟩⟩

theorem setattr_mtime_run {now : ℤ} {ino : ℕ} {time : TimeOrNow} {image : Bytes} {inode : Inode}
    (hro : st.readOnly = false)
    (hset : setInodeTimes st.ufs (fuseToUfs ino) none (some (timeornowSecs now time)) none st.img =
      (.ok (), image)) (hread : readInode image st.ufs (fuseToUfs ino) = some inode) :
    ∃ r, setattr now ino none none none none none (some time) none st =
      (.ok r, { st with img := image }) := by
  obtain ⟨attr, hr, -⟩ := @getattr_run { st with img := image } ino inode hread
  have htimes := @onImage_run _ (fun ufs => setInodeTimes ufs (fuseToUfs ino) none
    (some (timeornowSecs now time)) none) st () image hset
  refine ⟨.attr attr, ?_⟩
  rw [setattr_eq]
  exact Act.bind_eq_ok.mpr ⟨(), _, writable_run hro, Act.bind_eq_ok.mpr ⟨(), _, rfl,
    Act.bind_eq_ok.mpr ⟨(), _, rfl, Act.bind_eq_ok.mpr ⟨(), _, rfl,
      Act.bind_eq_ok.mpr ⟨(), _, htimes, hr⟩⟩⟩⟩⟩

theorem create_run {c : Caller} {parent mode umask : ℕ} {name : Bytes} {image : Bytes} {inode : Inode}
    (hro : st.readOnly = false)
    (hnew : createEmptyInParent st.ufs (fuseToUfs parent) name (Nat.ldiff mode umask) c.uid c.gid
      (systimeSecs c.now) st.img = (.ok n, image)) (hread : readInode image st.ufs n = some inode) :
    ∃ r st', create c parent name mode umask st = (.ok r, st') ∧ st'.img = image ∧
      st'.ufs = st.ufs ∧ st'.readOnly = false ∧
      st'.buffers = Function.update st.buffers n (some ⟨[], false⟩) := by
  have hcreated := @onImage_run _ (fun ufs => createEmptyInParent ufs (fuseToUfs parent) name
    (Nat.ldiff mode umask) c.uid c.gid (systimeSecs c.now)) st n image hnew
  have hattr : Daemon.attrFor { st with
      img := image
      nextFh := st.nextFh + 1
      handles := (st.nextFh, n) :: st.handles.filter (·.1 ≠ st.nextFh)
      buffers := Function.update st.buffers n (some ⟨[], false⟩) } n =
      some (makeAttr inode n 0 st.ufs.sb.bsize) := by
    unfold Daemon.attrFor
    rw [hread]
    simp
  refine ⟨_, _, Act.bind_eq_ok.mpr ⟨(), _, writable_run hro, Act.bind_eq_ok.mpr ⟨n, _, hcreated,
    Act.bind_eq_ok.mpr ⟨(), _, rfl, Act.bind_eq_ok.mpr ⟨st.nextFh, _, rfl,
      Act.bind_eq_ok.mpr ⟨_, _, congrArg (fun o => (Outcome.ok o, _)) hattr,
        Act.bind_eq_ok.mpr ⟨_, _, rfl, rfl⟩⟩⟩⟩⟩⟩, rfl, rfl, hro, rfl⟩

theorem flush_run {c : Caller} {ino : ℕ} {st' : Daemon}
    (h : commit c.now (fuseToUfs ino) st = (.ok (), st')) : flush c ino st = (.ok .ok, st') :=
  Act.bind_eq_ok.mpr ⟨(), _, h, rfl⟩

end Handler

/-- The times of a stored inode can be set, and it can be read afterwards. -/
theorem Ufs.Stores.setInodeTimes_run {ufs : Ufs} {image : Bytes} {T : Table} {n : ℕ}
    (h : ufs.Stores image T) (hn : n ∈ T.live) (atime mtime ctime : Option ℕ) :
    ∃ image' T' inode, setInodeTimes ufs n atime mtime ctime image = (.ok (), image') ∧
      ufs.Stores image' T' ∧ n ∈ T'.live ∧ T'.room = T.room ∧
      UfsFuse.readInode image' ufs n = some inode := by
  rcases ((setInodeTimes_stores hn (E := fun _ _ => False)).run image h).ok_or_err with
    ⟨_, image', hrun, T', hst', rfl⟩ | ⟨_, _, -, hno⟩
  · exact ⟨image', _, _, hrun, hst', hn, rfl, @Ufs.Stores.readInode _ _ _ n hst' hn⟩
  · exact hno.elim

/-- File `m` has just been created and is open: its body is empty and not dirty. -/
structure Opened (s : Session) (m : ℕ) : Prop where
  number : fuseToUfs m = m
  sound : s.poisoned = false
  writable : s.daemon.readOnly = false
  body : s.daemon.buffers m = some ⟨[], false⟩
  stored : ∃ T, s.daemon.ufs.Stores s.daemon.img T ∧ m ∈ T.live

section Opened
variable {ufs : Ufs} {image image' : Bytes} {s : Session} {m : ℕ} {now : ℤ}

/-- A new file is stored, under a new number. -/
theorem createEmptyInParent_newFile {T : Table} {N : NameTree} {parent mode uid gid timestamp : ℕ}
    {name : Str} (hst : ufs.Stores image T) (hc : Carries T N N.links) (hs : N.Sound)
    (hp : parent ∈ N.dirs) (hname : name.length ≤ 255) (hmode : fileTypeOf mode ≠ ufsIfdir)
    (h : createEmptyInParent ufs parent name mode uid gid timestamp image = (.ok m, image')) :
    m ∉ T.used ∧ ∃ T', ufs.Stores image' T' ∧ m ∈ T'.live := by
  have hspec := @createEmptyInParent_stores ufs T N parent hc hs hp name hname mode uid gid timestamp
    hmode
  obtain ⟨T', hst', hnew, -⟩ := (hspec.run image hst).ok h
  refine ⟨hnew.fresh, T', hst', ?_⟩
  rw [hnew.carries.live]
  exact Finset.mem_insert_self _ _

/-- A request that creates a file in a new mount. -/
theorem Session.create_run {c : Caller} {parent mode umask : ℕ} {name : Str} {inode : Inode}
    (hutf : ByteArray.validateUTF8 ⟨name.toArray⟩ = true)
    (h : createEmptyInParent ufs (fuseToUfs parent) name (Nat.ldiff mode umask) c.uid c.gid
      (systimeSecs c.now) image = (.ok m, image'))
    (hread : readInode image' ufs m = some inode) : ∃ st,
    (Session.mount image ufs false).run [(c, .create parent name mode umask)] = ⟨st, false⟩ ∧
      st.img = image' ∧ st.ufs = ufs ∧ st.readOnly = false ∧ st.buffers m = some ⟨[], false⟩ := by
  obtain ⟨r, st, hrun, himg, hufs, hro, hbuffers⟩ :=
    @Handler.create_run (Session.mount image ufs false).daemon m c parent mode umask name image' _ rfl
      h hread
  have hserve := @Session.serve_run (Session.mount image ufs false) c (.create parent name mode umask)
    r st (fun x hx => List.mem_singleton.mp hx ▸ hutf) rfl hrun
  refine ⟨st, congrArg Prod.snd hserve, himg, hufs, hro, ?_⟩
  rw [hbuffers]
  exact Function.update_self _ _ _

/-- It leaves the file open. -/
theorem Session.create_opens {T : Table} {c : Caller} {parent mode umask : ℕ} {name : Str}
    (hutf : ByteArray.validateUTF8 ⟨name.toArray⟩ = true) (hm : 2 < m)
    (h : createEmptyInParent ufs (fuseToUfs parent) name (Nat.ldiff mode umask) c.uid c.gid
      (systimeSecs c.now) image = (.ok m, image'))
    (hst : ufs.Stores image' T) (hlive : m ∈ T.live) :
    Opened ((Session.mount image ufs false).run [(c, .create parent name mode umask)]) m := by
  obtain ⟨st, hdone, rfl, hufs, hro, hbuffers⟩ := Session.create_run hutf h (hst.readInode hlive)
  rw [hdone]
  exact ⟨if_neg (by omega), rfl, hro, hbuffers, T, hufs ▸ hst, hlive⟩

/-- The time of an open file can be set. -/
theorem Opened.stamp (h : Opened s m) (c : Caller) (time : TimeOrNow) : ∃ r img,
    s.serve c (.setattr m none none none none none (some time) none) =
      (.reply r, { s with daemon := { s.daemon with img := img } }) := by
  obtain ⟨T, hst, hlive⟩ := h.stored
  obtain ⟨img, T', inode, htimes, -, -, -, hread⟩ :=
    hst.setInodeTimes_run hlive none (some (timeornowSecs c.now time)) none
  rw [← h.number] at htimes hread
  obtain ⟨r, hset⟩ := Handler.setattr_mtime_run h.writable htimes hread
  exact ⟨r, img, Session.serve_run (by simp [Request.names]) h.sound hset⟩

theorem Opened.nothingWaits (h : Opened s m) : NothingWaits s.daemon (fuseToUfs m) none := by
  intro b hb
  rw [h.number, h.body] at hb
  rw [← Option.some.inj hb]
  exact ⟨rfl, rfl⟩

/-- Closed after that, nothing is written back. -/
theorem Opened.stamp_close (h : Opened s m) (c : Caller) (time : TimeOrNow) (c' : Caller) : ∃ r s',
    s.serve c (.setattr m none none none none none (some time) none) = (.reply r, s') ∧
      s'.Idles (fuseToUfs m) [(c', .flush m)] ∧ (s'.run [(c', .flush m)]).poisoned = false := by
  obtain ⟨r, img, hserve⟩ := h.stamp c time
  have hcommit : Handler.commit c'.now (fuseToUfs m) { s.daemon with img := img } =
      (.ok (), { s.daemon with img := img }) :=
    Handler.commit_clean fun b hb => (h.nothingWaits b hb).1
  have hflush := @Session.serve_run { s with daemon := { s.daemon with img := img } } c'
    (.flush m) .ok _ (by simp [Request.names]) h.sound (Handler.flush_run hcommit)
  refine ⟨r, _, hserve, ⟨trivial, fun k hk hne => ?_, trivial⟩, ?_⟩
  · exact absurd (Option.some.inj hk).symm hne
  · rw [Session.run, Session.run, hflush]
    exact h.sound

/-- Cut off, stamped and closed: the file has the time at which it was closed. -/
theorem Opened.cut_stamp_flush (h : Opened s m) (c : Caller) (time : TimeOrNow) (c' : Caller) :
    ∃ r₁ s₁ r₂ s₂ s₃,
      s.serve c (.setattr m none none none (some 0) none none none) = (.reply r₁, s₁) ∧
      s₁.serve c (.setattr m none none none none none (some time) none) = (.reply r₂, s₂) ∧
      s₂.serve c' (.flush m) = (.reply .ok, s₃) ∧
      ∃ attr, (s₃.serve c' (.getattr m)).1 = .reply (.attr attr) ∧
        attr.mtime = systimeSecs c'.now := by
  obtain ⟨T, hst, hlive⟩ := h.stored
  -- the body is cut off in its buffer
  have hbody : s.daemon.buffers (fuseToUfs m) = some ⟨[], false⟩ := h.number.symm ▸ h.body
  have hread := hst.readInode hlive
  rw [← h.number] at hread
  obtain ⟨r₁, hcut⟩ := @Handler.setattr_size_run s.daemon c.now m 0 _ _ h.writable hbody hread
  -- the time is set on the disk
  obtain ⟨img, T₁, inode₁, htimes, hst₁, hlive₁, -, hread₁⟩ :=
    hst.setInodeTimes_run hlive none (some (timeornowSecs c.now time)) none
  rw [← h.number] at htimes hread₁
  obtain ⟨r₂, hstamp⟩ := @Handler.setattr_mtime_run
    (s.daemon.insertBuffer (fuseToUfs m) ⟨Bytes.resize [] 0, true⟩) c.now m time img inode₁ h.writable
    htimes hread₁
  -- and the empty body is written back
  have hlen : ([] : Bytes).length < 2 ^ 63 := by decide
  have hneeds : s.daemon.ufs.sb.blocksNeeded ([] : Bytes).length ≤ T₁.room m := by
    rw [List.length_nil, Superblock.blocksNeeded_zero]
    exact Nat.zero_le _
  obtain ⟨image₁, hset⟩ := hst₁.setInodeContents_ok hlive₁ hlen hneeds
  obtain ⟨T₂, hst₂, i, room, rfl, -⟩ := ((setInodeContents_stores hlive₁ hlen).run img hst₁).ok hset
  have hlive₂ : m ∈ (T₁.setFile m ⟨i, []⟩ room).live := hlive₁
  obtain ⟨image₂, T₃, inode₃, htimes₃, -, -, -, hread₃⟩ :=
    hst₂.setInodeTimes_run hlive₂ none (some (systimeSecs c'.now)) (some (systimeSecs c'.now))
  rw [← h.number] at hset htimes₃ hread₃
  have hcommit := @Handler.commit_dirty
    { s.daemon.insertBuffer (fuseToUfs m) ⟨Bytes.resize [] 0, true⟩ with img := img } c'.now
    (fuseToUfs m) ⟨Bytes.resize [] 0, true⟩ image₁ image₂ (Function.update_self _ _ _) rfl hset htimes₃
  have hmtime : inode₃.mtime = systimeSecs c'.now :=
    (readInode_mtime hread₃).trans ((setInodeTimes_mtime htimes₃).trans (Nat.mod_mod _ _))
  refine ⟨r₁, _, r₂, _, _, Session.serve_run (by simp [Request.names]) h.sound hcut,
    Session.serve_run (by simp [Request.names]) h.sound hstamp,
    Session.serve_run (by simp [Request.names]) h.sound (Handler.flush_run hcommit), ?_⟩
  exact Session.serve_getattr h.sound hread₃ hmtime

end Opened

/-- The client that makes a file at second 1, and the one that closes it at second 7. -/
def clientAt (now : ℤ) : Caller := ⟨0, 0, now, true⟩

/-- A mount of a blank slice in which a file "a" has been created. -/
theorem blank_opened : ∃ m s, s = (Session.mount blankImage blankUfs false).run
    [(clientAt 1, .create 1 [97] 0o100644 0)] ∧ Opened s m := by
  have hfresh := blankImage_formatted.fresh
  generalize blankImage = image at hfresh ⊢
  obtain ⟨-, -, m, image', hrun⟩ := @blank_createEmpty image [97] hfresh (by decide) (by decide)
    (by decide) (Nat.ldiff 0o100644 0) 0 0 (systimeSecs 1)
  obtain ⟨T, hst, hc, -⟩ := hfresh
  have hroot : ufsRootInode ∈ NameTree.fresh.dirs := Finset.mem_singleton_self _
  obtain ⟨hused, T', hst', hlive⟩ := createEmptyInParent_newFile hst hc NameTree.fresh_sound hroot
    (by decide) (by decide +kernel) hrun
  rw [Table.used, hc.reserved, hc.live] at hused
  simp only [NameTree.fresh, Finset.mem_union, Finset.mem_insert, Finset.mem_singleton, not_or] at hused
  have hroot2 : ufsRootInode = 2 := rfl
  exact ⟨m, _, rfl, Session.create_opens (by decide) (by omega) hrun hst' hlive⟩

end UfsFuse
