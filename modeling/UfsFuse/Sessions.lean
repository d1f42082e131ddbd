import UfsFuse.EmptyVolume
import UfsFuse.Mounted

/-!
# Sessions

A mount takes requests one after the other. What its clients see is a run of the tree: every answer is
that of the tree, contents of files are what the writes and new sizes made of them in the order in
which they came, and when all is written back the tree is on the disk.
-/
namespace UfsFuse

/-- What clients keep to: the conditions of a request, and room for one that is refused. A name that
is not UTF-8 is refused at once. -/
def Request.Sane (st : Daemon) (c : Caller) (req : Request) (a : Answer) : Prop :=
  (∃ name ∈ req.names, ¬ByteArray.validateUTF8 ⟨name.toArray⟩) ∨
    req.Meets c st ∧ ((∃ r, a = .reply r) ∨ req.Fits c st)

/-- Requests one after the other, each allowed in the state that it finds, with their answers. -/
inductive Session.Served (ok : Daemon → Caller → Request → Answer → Prop) :
    Session → List (Caller × Request × Answer) → Session → Prop
  | nil (s : Session) : Served ok s [] s
  | cons {s s' t : Session} {c : Caller} {req : Request} {a : Answer}
      {log : List (Caller × Request × Answer)} (hok : ok s.daemon c req a)
      (hdo : s.serve c req = (a, s')) (h : Served ok s' log t) : Served ok s ((c, req, a) :: log) t

section Run
variable {ufs : Ufs} {V V' : FileTree} {s s' t : Session} {c : Caller} {req : Request} {a : Answer}
  {log : List (Caller × Request × Answer)}

/-- One request is a step of the tree, and nothing panics. -/
theorem Session.serve_step (h : s.daemon.Reflects ufs V) (hp : s.poisoned = false)
    (hok : req.Sane s.daemon c a) (hdo : s.serve c req = (a, s')) :
    ∃ V', V.Serves ufs.sb.bsize c req a V' ∧ s'.daemon.Reflects ufs V' ∧ s'.poisoned = false := by
  rw [Session.serve] at hdo
  by_cases hname : ∃ name ∈ req.names, ¬ByteArray.validateUTF8 ⟨name.toArray⟩
  · rw [if_pos hname] at hdo
    obtain ⟨rfl, rfl⟩ := Prod.mk.inj hdo
    exact ⟨V, .badName hname, h, hp⟩
  · obtain ⟨hmeets, hfits⟩ := hok.resolve_left hname
    rw [if_neg hname, if_neg (by simp [hp])] at hdo
    rcases (Handler.handle_wp h hmeets).ok_or_err with
      ⟨r, st', hrun, V', hserves, h'⟩ | ⟨why, st', hrun, herr⟩
    · rw [hrun] at hdo
      obtain ⟨rfl, rfl⟩ := Prod.mk.inj hdo
      exact ⟨V', hserves, h', hp⟩
    · rw [hrun] at hdo
      obtain ⟨rfl, rfl⟩ := Prod.mk.inj hdo
      have hfits : req.Fits c s.daemon := hfits.resolve_left fun ⟨r, hr⟩ => by cases hr
      obtain ⟨V', hserves, h'⟩ := herr.resolve_right (not_not.mpr hfits)
      exact ⟨V', hserves, h', hp⟩

/-- A session is a run of the tree. -/
theorem Session.Served.steps (hs : Session.Served Request.Sane s log t) :
    ∀ {V : FileTree}, s.daemon.Reflects ufs V → s.poisoned = false →
      ∃ V', V.ServesAll ufs.sb.bsize log V' ∧ t.daemon.Reflects ufs V' ∧ t.poisoned = false := by
  induction hs with
  | nil => exact fun {V} h hp => ⟨V, .nil V, h, hp⟩
  | cons hok hdo _ ih =>
    intro V h hp
    obtain ⟨V₁, hserves, h₁, hp₁⟩ := Session.serve_step h hp hok hdo
    obtain ⟨V', hall, h', hp'⟩ := ih h₁ hp₁
    exact ⟨V', .cons hserves hall, h', hp'⟩

/-- A mount shows the stored tree. -/
theorem Session.mount_reflects {image : Bytes} (h : V.Represents ufs image) :
    (Session.mount image ufs false).daemon.Reflects ufs V := by
  refine ⟨rfl, rfl, V.body, h, fun _ _ => rfl, ?_, ?_, ?_, ?_, ?_⟩ <;> intro n b hb <;> cases hb

end Run

/-! ## One file -/

namespace FileTree
variable {V V' : FileTree} {cs : List Call} {c : Call} {n : ℕ}

/-- The call is about one file and no names. -/
def OnFile (c : Call) : Prop := c.OnAttrs ∨ ∃ m size, c = .truncate m size

theorem Step.onFile (h : V.Step c V') (hc : OnFile c) : V'.names = V.names := by
  rcases hc with hc | ⟨m, size, rfl⟩
  · cases h with
    | setInodeMode => rfl
    | setInodeOwner => rfl
    | setInodeTimes => rfl
    | _ => exact hc.elim
  · cases h
    rfl

theorem Steps.onFile (h : V.Steps cs V') : (∀ c ∈ cs, OnFile c) → n ∈ V.names.live →
    V'.names = V.names ∧ V'.body n = cs.foldl (fun data c => c.setBody n data) (V.body n) := by
  induction h with
  | nil => exact fun _ _ => ⟨rfl, rfl⟩
  | cons hstep _ ih =>
    intro hcs hn
    have hnames := hstep.onFile (hcs _ List.mem_cons_self)
    obtain ⟨hnames', hbody⟩ := ih (fun c hc => hcs c (List.mem_cons_of_mem _ hc)) (hnames ▸ hn)
    refine ⟨hnames'.trans hnames, hbody.trans ?_⟩
    rw [(hstep.old hn).2]
    rfl

/-- A `setattr` is about one file, and only a new size changes contents. -/
theorem setattrCalls_onFile (V : FileTree) (now : ℤ) (m : ℕ) (mode uid gid size : Option ℕ)
    (atime mtime : Option TimeOrNow) (ctime : Option ℤ) :
    ∀ c ∈ V.setattrCalls now m mode uid gid size atime mtime ctime, OnFile c := by
  intro c hc
  simp only [setattrCalls, List.mem_append, Option.mem_toList, Option.map_eq_some_iff] at hc
  rcases hc with ((⟨sz, -, rfl⟩ | ⟨md, -, rfl⟩) | hc) | hc
  · exact .inr ⟨m, sz, rfl⟩
  · exact .inl trivial
  · split_ifs at hc
    · rw [List.mem_singleton.mp hc]
      exact .inl trivial
    · cases hc
  · split_ifs at hc
    · rw [List.mem_singleton.mp hc]
      exact .inl trivial
    · cases hc

theorem setattrCalls_body (V : FileTree) (now : ℤ) (ino : ℕ) (mode uid gid size : Option ℕ)
    (atime mtime : Option TimeOrNow) (ctime : Option ℤ) (data : Bytes) :
    (V.setattrCalls now (fuseToUfs ino) mode uid gid size atime mtime ctime).foldl
      (fun data c => c.setBody n data) data =
        (Request.setattr ino mode uid gid size atime mtime ctime).setBody n data := by
  have hmode : ∀ d : Bytes, (mode.map fun m => Call.setInodeMode (fuseToUfs ino)
      (((V.attrs (fuseToUfs ino)).mode &&& ufsIfmt) ||| permissionsOf m)).toList.foldl
        (fun data c => c.setBody n data) d = d := by
    cases mode <;> exact fun d => rfl
  rw [setattrCalls, List.foldl_append, List.foldl_append, List.foldl_append, hmode]
  have hother : ∀ (p : Prop) [Decidable p] (k : Call), (∀ d, k.setBody n d = d) → ∀ d : Bytes,
      (if p then [k] else []).foldl (fun data c => c.setBody n data) d = d := by
    intro p _ k hk d
    split_ifs
    · exact hk d
    · rfl
  rw [hother _ (.setInodeTimes ..) fun _ => rfl, hother _ (.setInodeOwner ..) fun _ => rfl]
  cases size with
  | none => rfl
  | some size =>
    change (if n = fuseToUfs ino then data.resize size else data) =
      if fuseToUfs ino = n then data.resize size else data
    simp only [eq_comm]

/-- A request for another name changes no contents. -/
theorem call_setBody {c : Caller} {req : Request} {call : Call} (h : req.call c = some call)
    (data : Bytes) : call.setBody n data = data ∧ req.setBody n data = data := by
  cases req with
  | mkdir => cases h; exact ⟨rfl, rfl⟩
  | mknod => cases h; exact ⟨rfl, rfl⟩
  | unlink => cases h; exact ⟨rfl, rfl⟩
  | rmdir => cases h; exact ⟨rfl, rfl⟩
  | symlink => cases h; exact ⟨rfl, rfl⟩
  | rename => cases h; exact ⟨rfl, rfl⟩
  | link => cases h; exact ⟨rfl, rfl⟩
  | create => cases h; exact ⟨rfl, rfl⟩
  | _ => cases h

/-- What a request does to a file that stays: only writes and new sizes change its contents. -/
theorem Serves.kept {bsize : ℕ} {c : Caller} {req : Request} {a : Answer} (hs : V.names.Sound)
    (h : V.Serves bsize c req a V') (hn : n ∈ V.names.live) (hn' : n ∈ V'.names.live) :
    (n ∈ V'.names.dirs ↔ n ∈ V.names.dirs) ∧ V'.body n = req.setBody n (V.body n) := by
  have hcall : ∀ {call}, req.call c = some call → V.Step call V' →
      (n ∈ V'.names.dirs ↔ n ∈ V.names.dirs) ∧ V'.body n = req.setBody n (V.body n) := by
    intro call hc hstep
    obtain ⟨hsame, hsame'⟩ := @call_setBody n c req call hc (V.body n)
    exact ⟨hstep.dirs hs hn hn', (hstep.old hn).2.trans (hsame.trans hsame'.symm)⟩
  have hback : ∀ {now m}, V.WrittenBack now m V' →
      (n ∈ V'.names.dirs ↔ n ∈ V.names.dirs) ∧ V'.body n = V.body n := by
    rintro now m (rfl | ⟨-, rfl⟩) <;> exact ⟨Iff.rfl, rfl⟩
  cases h with
  | badName h =>
    obtain ⟨name, hname, -⟩ := h
    refine ⟨Iff.rfl, ?_⟩
    cases req with
    | write => cases hname
    | setattr => cases hname
    | _ => rfl
  | setattr hsteps =>
    obtain ⟨hnames, hbody⟩ := hsteps.onFile (V.setattrCalls_onFile _ _ _ _ _ _ _ _ _) hn
    rw [setattrCalls_body] at hbody
    exact ⟨hnames ▸ Iff.rfl, hbody⟩
  | entered hc hstep => exact hcall hc hstep
  | created hc hstep => exact hcall hc hstep
  | left hc hstep => exact hcall hc hstep
  | refused hc => exact ⟨Iff.rfl, (call_setBody hc _).2.symm⟩
  | @write ino offset data hl hd =>
    refine ⟨Iff.rfl, (write_body V _ _ n).trans ?_⟩
    rw [Request.setBody]
    split_ifs with h₁ h₂ h₂
    · rw [h₁]
    · exact absurd h₁.symm h₂
    · exact absurd h₂.symm h₁
    · rfl
  | flush hwritten => exact hback hwritten
  | fsync hwritten => exact hback hwritten
  | release hwritten => exact hback hwritten
  | _ => exact ⟨Iff.rfl, rfl⟩

end FileTree

/-! ## What is stored -/
section Stored
variable {ufs : Ufs} {V V' : FileTree} {st : Daemon} {s s' t : Session} {c : Caller} {req : Request}
  {a : Answer} {log : List (Caller × Request × Answer)} {n : ℕ} {data : Bytes}

/-- The image has these contents for inode `n`. -/
def HasContents (image : Bytes) (ufs : Ufs) (n : ℕ) (data : Bytes) : Prop :=
  ∃ inode, readInode image ufs n = some inode ∧ readInodeBytes image ufs inode = .ok data

/-- A file of which nothing waits to be written back is stored. -/
theorem Daemon.Reflects.hasContents (h : st.Reflects ufs V) (hn : n ∈ V.names.live)
    (hd : n ∉ V.names.dirs) (hc : ∀ b, st.buffers n = some b → b.dirty = false) :
    HasContents st.img st.ufs n (V.body n) := by
  obtain ⟨stored, hr, hb⟩ := h.readFrom
  refine ⟨_, (hr.inode n hn).1, ?_⟩
  have hsame : stored n = V.body n := by
    cases hbuf : st.buffers n with
    | none => exact hb.unbuffered n hbuf
    | some b => rw [hb.clean n b hbuf (hc b hbuf), hb.data n b hbuf]
  rw [← hsame]
  exact (hr.body n hn hd).1

/-- Writing back a file stores it. -/
theorem Handler.writesBack_stores (h : st.Reflects ufs V) (hn : n ∈ V.names.live)
    (hd : n ∉ V.names.dirs) (hreq : req.writesBack = some n) : (Handler.handle c req).wp st
      (fun _ st' => HasContents st'.img st'.ufs n (V.body n)) fun _ _ => True := by
  have hcommit : (Handler.commit c.now n).wp st
      (fun _ st' => HasContents st'.img st'.ufs n (V.body n)) fun _ _ => True := by
    have hwritten : (Handler.commit c.now n).wp st (fun _ st' => ∃ V', V.WrittenBack c.now n V' ∧
        st'.Reflects ufs V' ∧ ∀ b, st'.buffers n = some b → b.dirty = false) fun _ _ => ¬False :=
      Handler.commit_wp h fun _ _ _ hno => hno.elim
    refine hwritten.mono ?_ fun _ _ _ => trivial
    rintro - st' ⟨V', rfl | ⟨-, rfl⟩, h', hclean⟩
    · exact h'.hasContents hn hd hclean
    · exact h'.hasContents hn hd hclean
  cases req with
  | flush ino =>
    obtain rfl := Option.some.inj hreq
    rw [Handler.handle, Handler.flush, Act.wp_bind]
    exact hcommit
  | fsync ino =>
    obtain rfl := Option.some.inj hreq
    rw [Handler.handle, Handler.fsync, Act.wp_bind]
    refine hcommit.mono (fun _ st' hst => ?_) fun _ _ he => he
    exact Act.wp_ite.mpr ⟨fun _ => hst, fun _ => trivial⟩
  | release ino fh =>
    obtain rfl := Option.some.inj hreq
    rw [Handler.handle, Handler.release, Act.wp_bind]
    refine hcommit.mono (fun _ st' hst => ?_) fun _ _ he => he
    rw [Handler.wp_modify_bind, Handler.wp_get_bind, Act.wp_ite]
    exact ⟨fun _ => hst, fun _ => hst⟩
  | _ => cases hreq

/-- What clients are told about the contents of inode `n`, and what is stored when it is written
back. -/
structure Session.Serving (s : Session) (n : ℕ) (data : Bytes) : Prop where
  read : ∀ c ino offset size, fuseToUfs ino = n →
    (s.serve c (.read ino offset size)).1 = .reply (.data (data.slice offset size))
  getattr : ∀ c ino, fuseToUfs ino = n →
    ∃ attr, (s.serve c (.getattr ino)).1 = .reply (.attr attr) ∧ attr.size = data.length
  stored : ∀ c req r s', req.writesBack = some n → s.serve c req = (.reply r, s') →
    HasContents s'.daemon.img s'.daemon.ufs n data

/-- A request about one inode that makes no call. -/
theorem Request.meets_of_quiet (hcall : req.call c = none) (hdrop : req.dropped = none)
    (ht : req.Targets st) : req.Meets c st := by
  refine ⟨fun call hc => ?_, fun p name hc => ?_, ht⟩
  · rw [hcall] at hc
    cases hc
  · rw [hdrop] at hc
    cases hc

theorem Session.serving (h : s.daemon.Reflects ufs V) (hp : s.poisoned = false)
    (hn : n ∈ V.names.live) (hd : n ∉ V.names.dirs) : s.Serving n (V.body n) := by
  have hu := h.inUse.mpr hn
  have hfile : IsFile s.daemon.img s.daemon.ufs n := by
    refine ⟨hu, eq_false_of_ne_true fun hdir => hd (h.isDir.mp hdir)⟩
  constructor
  · rintro c ino offset size rfl
    have hmeets : (Request.read ino offset size).Meets c s.daemon :=
      Request.meets_of_quiet rfl rfl hfile
    have hfits : (Request.read ino offset size).Fits c s.daemon :=
      ⟨by simp [Request.call], by simp, by simp [Request.writesBack]⟩
    generalize hdo : s.serve c (.read ino offset size) = out
    obtain ⟨V', hserves, -⟩ := Session.serve_step h hp (.inr ⟨hmeets, .inr hfits⟩) hdo
    generalize out.1 = a at hserves
    cases hserves with
    | badName h => simp [Request.names] at h
    | refused hc => cases hc
    | read => rfl
    | left hc => cases hc
    | entered hc => cases hc
  · rintro c ino rfl
    have hmeets : (Request.getattr ino).Meets c s.daemon := Request.meets_of_quiet rfl rfl hu
    have hfits : (Request.getattr ino).Fits c s.daemon :=
      ⟨by simp [Request.call], by simp, by simp [Request.writesBack]⟩
    generalize hdo : s.serve c (.getattr ino) = out
    obtain ⟨V', hserves, -⟩ := Session.serve_step h hp (.inr ⟨hmeets, .inr hfits⟩) hdo
    generalize out.1 = a at hserves
    cases hserves with
    | badName h => simp [Request.names] at h
    | refused hc => cases hc
    | getattr ha =>
      obtain ⟨i, -, -, size, hsize, rfl⟩ := ha
      exact ⟨_, rfl, hsize hd⟩
    | left hc => cases hc
    | entered hc => cases hc
  · intro c req r s' hreq hdo
    have hlocks : req.locks = true := by
      cases req with
      | getxattr => cases hreq
      | listxattr => cases hreq
      | _ => rfl
    have hnot : req ≠ .destroy := by
      rintro rfl
      cases hreq
    obtain ⟨hrun, -⟩ := Session.serve_reply hlocks hnot hdo
    exact (Handler.writesBack_stores h hn hd hreq).ok hrun

end Stored

/-! ## Sessions on a formatted slice -/
section Results
variable {image₀ image : Bytes} {ufs : Ufs} {cs : List (Call × Outcome Fault Unit)} {s t : Session}
  {log₀ log : List (Caller × Request × Answer)} {n : ℕ}

/-- The headers of an image that stores a tree are valid. -/
theorem FileTree.Represents.headerValid {V : FileTree} (h : V.Represents ufs image) :
    ∀ c < ufs.sb.ncg, HeaderValid image ufs c := by
  obtain ⟨T, ⟨D, own, hi, hv⟩, -⟩ := h
  exact fun c hc => hi.headerValid hc (hv.space.magic c hc) (hv.space.ndblk c hc)

theorem Formatted.shaped (hf : Formatted ufs image₀) : ufs.Shaped := by
  obtain ⟨_, _, _, _, h, hsize, -⟩ := hf
  exact format_shaped hsize h

/-- What is in use in every state is so in the first. -/
theorem Session.Served.inUse_first
    (h : Session.Served (fun st c req a => req.Sane st c a ∧ inUse st.img st.ufs n = true) s log t)
    (hn : inUse t.daemon.img t.daemon.ufs n = true) : inUse s.daemon.img s.daemon.ufs n = true := by
  cases h with
  | nil => exact hn
  | cons hok => exact hok.2

/-- While a file is in use, its contents are what the requests about it made of them. -/
theorem Session.Served.kept
    (h : Session.Served (fun st c req a => req.Sane st c a ∧ inUse st.img st.ufs n = true) s log t)
    (hn : inUse t.daemon.img t.daemon.ufs n = true) :
    ∀ {V : FileTree}, s.daemon.Reflects ufs V → s.poisoned = false → ∃ V',
      t.daemon.Reflects ufs V' ∧ t.poisoned = false ∧ (n ∈ V'.names.dirs ↔ n ∈ V.names.dirs) ∧
        V'.body n = log.foldl (fun data x => x.2.1.setBody n data) (V.body n) := by
  induction h with
  | nil => exact fun {V} h hp => ⟨V, h, hp, Iff.rfl, rfl⟩
  | cons hok hdo hrest ih =>
    intro V h hp
    obtain ⟨V₁, hserves, h₁, hp₁⟩ := Session.serve_step h hp hok.1 hdo
    have hn₁ := h₁.inUse.mp (hrest.inUse_first hn)
    obtain ⟨hd₁, hbody₁⟩ := hserves.kept h.sound (h.inUse.mp hok.2) hn₁
    obtain ⟨V', h', hp', hd, hbody⟩ := ih hn h₁ hp₁
    refine ⟨V', h', hp', hd.trans hd₁, hbody.trans ?_⟩
    rw [hbody₁]
    rfl

end Results

/-! ## A file on a blank slice -/
section Blank
variable {image image' : Bytes} {ufs : Ufs} {m : ℕ}

/-- A client makes "a" in a new mount. -/
structure MadeA (ufs : Ufs) (image : Bytes) (m : ℕ) (r : Reply) (s : Session) : Prop where
  served : Session.Served Request.Sane (Session.mount image ufs false)
    [(clientAt 0, .create 1 [97] 0o100644 0, .reply r)] s
  sound : s.poisoned = false
  mounted : s.daemon.ufs = ufs
  clean : ∀ n b, s.daemon.buffers n = some b → b.dirty = false
  file : IsFile s.daemon.img s.daemon.ufs m

theorem FileTree.Represents.madeA {timestamp : ℕ} (hV : (FileTree.fresh timestamp).Represents ufs image)
    (hmeets : Call.makeA.Meets image ufs)
    (hrun : createEmptyInParent ufs ufsRootInode [97] 0o100644 0 0 0 image = (.ok m, image')) :
    ∃ r s, MadeA ufs image m r s := by
  obtain ⟨hmode, hdir, hcan⟩ := id hmeets
  obtain ⟨T, hi, hin⟩ := hV
  have hroot : ufsRootInode ∈ (FileTree.fresh timestamp).names.dirs := Finset.mem_singleton_self _
  obtain ⟨hok, hf⟩ := hcan.facts (hin.carries.shows hin.sound hi) hroot
  obtain ⟨hm, hrep⟩ := (hin.createEmptyInParent hi hroot hok hf hmode).ok hrun
  have hr := hrep.readFrom
  have hfile : IsFile image' ufs m := by
    refine ⟨(hr.inUse m).mpr (Finset.mem_insert_self _ _), eq_false_of_ne_true fun hd => hm ?_⟩
    exact hin.sound.dirs_live ((hr.isDir m).mp hd)
  have hplain : Nat.ldiff 0o100644 0 = 0o100644 := by decide +kernel
  have hcall : (Request.create 1 [97] 0o100644 0).call (clientAt 0) = some .makeA := by
    rw [Request.call, hplain]
    rfl
  have hrun' : createEmptyInParent ufs (fuseToUfs 1) [97] (Nat.ldiff 0o100644 0) 0 0 (systimeSecs 0)
      image = (.ok m, image') := by
    rw [hplain]
    exact hrun
  obtain ⟨r, st, hcreate, rfl, hufs, -, hbuffers⟩ :=
    @Handler.create_run (Session.mount image ufs false).daemon m (clientAt 0) 1 0o100644 0 [97]
      image' _ rfl hrun' (hr.inode m (Finset.mem_insert_self _ _)).1
  have hserve := @Session.serve_run (Session.mount image ufs false) (clientAt 0)
    (.create 1 [97] 0o100644 0) r st (by decide) rfl hcreate
  refine ⟨r, ⟨st, false⟩, .cons (.inr ⟨⟨?_, ?_, trivial⟩, .inl ⟨r, rfl⟩⟩) hserve (.nil _), rfl, hufs, ?_,
    hufs ▸ hfile⟩
  · intro call hc
    rw [hcall] at hc
    exact Option.some.inj hc ▸ hmeets
  · intro p name hdrop
    cases hdrop
  · intro n b hb
    rw [hbuffers, Function.update_apply] at hb
    split_ifs at hb
    · rw [← Option.some.inj hb]
    · cases hb

theorem FreshVolume.madeA (h : FreshVolume blankUfs image)
    (hV : ∃ timestamp, (FileTree.fresh timestamp).Represents blankUfs image) :
    ∃ m r s, MadeA blankUfs image m r s := by
  obtain ⟨hvalid, t, hdo⟩ := h.makeA
  obtain ⟨-, -, m, image', hrun⟩ := @blank_createEmpty image [97] h (by decide) (by decide) (by decide)
    0o100644 0 0 0
  obtain ⟨timestamp, hV⟩ := hV
  obtain ⟨r, s, hmade⟩ := hV.madeA (hvalid.meets h.consistent hdo) hrun
  exact ⟨m, r, s, hmade⟩

theorem inUse_ge {n : ℕ} (h : inUse image ufs n = true) : 2 ≤ n := by
  rw [inUse, Bool.and_eq_true] at h
  exact (of_decide_eq_true h.1).1

/-- One byte is written to "a". -/
theorem MadeA.write {r : Reply} {s : Session} {timestamp : ℕ} (h : MadeA ufs image m r s)
    (hV : (FileTree.fresh timestamp).Represents ufs image) : ∃ a t,
      Session.Served (fun st c req a => req.Sane st c a ∧ inUse st.img st.ufs m = true) s
        [(clientAt 0, .write m 0 [104], a)] t ∧ inUse t.daemon.img t.daemon.ufs m = true := by
  have hm : fuseToUfs m = m := if_neg (by have := inUse_ge h.file.1; omega)
  obtain ⟨V, -, hs, hp⟩ := h.served.steps (Session.mount_reflects hV) rfl
  have hmeets : (Request.write m 0 [104]).Meets (clientAt 0) s.daemon :=
    Request.meets_of_quiet rfl rfl ⟨hm.symm ▸ h.file, by decide⟩
  have hfits : (Request.write m 0 [104]).Fits (clientAt 0) s.daemon :=
    ⟨by simp [Request.call], by simp, by simp [Request.writesBack]⟩
  generalize hdo : s.serve (clientAt 0) (.write m 0 [104]) = out
  obtain ⟨a, t⟩ := out
  obtain ⟨V', hserves, ht, -⟩ := Session.serve_step hs hp (.inr ⟨hmeets, .inr hfits⟩) hdo
  refine ⟨a, t, .cons ⟨.inr ⟨hmeets, .inr hfits⟩, h.file.1⟩ hdo (.nil t), ht.inUse.mpr ?_⟩
  have hn := hs.inUse.mp h.file.1
  cases hserves with
  | badName h => simp [Request.names] at h
  | refused hc => cases hc
  | left hc => cases hc
  | entered hc => cases hc
  | write => exact hn

end Blank
end UfsFuse
