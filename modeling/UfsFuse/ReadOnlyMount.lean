import UfsFuse.Serve

/-!
# Read-only mounts

A daemon that was started read-only never writes: the requests that change the image are refused, and
no request leaves a dirty body behind that a flush, an fsync or a release would write back.
-/
namespace UfsFuse

/-- The daemon is read-only, holds no dirty body and still has this image. -/
structure Unwritten (img : Bytes) (st : Daemon) : Prop where
  img_eq : st.img = img
  readOnly : st.readOnly = true
  clean : ∀ n b, st.buffers n = some b → b.dirty = false

namespace Handler
variable {α : Type} {img : Bytes}

/-- A request that asks for a writable mount changes nothing on a read-only one. -/
theorem keeps_writable {k : Handler α} : (do writable; k : Handler α).Keeps (Unwritten img) := by
  intro st hst
  have hrefused : writable st = (.err (.errno .erofs), st) := by
    unfold writable
    change Act.bind _ _ st = _
    unfold Act.bind look Act.read
    dsimp only
    rw [hst.readOnly]
    rfl
  change Unwritten img (Act.bind writable (fun _ => k) st).2
  unfold Act.bind
  rw [hrefused]
  exact hst

/-- Without a dirty body there is nothing to write back. -/
theorem keeps_commit (now : ℤ) (n : ℕ) : (commit now n).Keeps (Unwritten img) := by
  unfold commit
  refine keeps_look_bind fun st buffer hst hbuffer => ?_
  cases buffer with
  | none => exact hst
  | some b =>
    have hclean := hst.clean n b (Outcome.ok.inj hbuffer)
    dsimp only
    rw [if_neg (by rw [hclean]; exact Bool.false_ne_true)]
    exact hst

theorem keeps_newHandle (n : ℕ) : (newHandle n).Keeps (Unwritten img) := by
  unfold newHandle
  refine (keeps_look _).bind fun fh => ?_
  refine Act.Keeps.bind (Act.keeps_update fun st t hst ht => ?_) fun _ => Act.keeps_pure fh
  cases ht
  exact ⟨hst.img_eq, hst.readOnly, hst.clean⟩

theorem keeps_lookup (parent : ℕ) (name : Bytes) : (lookup parent name).Keeps (Unwritten img) := by
  unfold lookup
  refine (keeps_look _).bind fun i => (keeps_orElse _ i).bind fun inode => ?_
  refine (keeps_look _).bind fun found => (keeps_orElse _ found).bind fun child => ?_
  exact (keeps_look _).bind fun a => (keeps_orElse _ a).bind fun attr => Act.keeps_pure _

theorem keeps_readlink (ino : ℕ) : (readlink ino).Keeps (Unwritten img) := by
  unfold readlink
  refine (keeps_look _).bind fun i => (keeps_orElse _ i).bind fun inode => ?_
  refine Act.keeps_ite (fun _ => ?_) fun _ => Act.keeps_fail _
  exact (keeps_look _).bind fun target => Act.keeps_pure _

theorem keeps_readFile (ino offset size : ℕ) : (readFile ino offset size).Keeps (Unwritten img) := by
  unfold readFile
  refine (keeps_look _).bind fun buffer => ?_
  cases buffer with
  | some b => exact Act.keeps_pure _
  | none =>
    refine (keeps_look _).bind fun i => (keeps_orElse _ i).bind fun inode => ?_
    exact (keeps_look _).bind fun data => Act.keeps_pure _

/-- Listing a directory changes nothing. -/
theorem keeps_readdir (ino offset room : ℕ) {P : Daemon → Prop} :
    (readdir ino offset room).Keeps P := by
  unfold readdir
  refine (keeps_look _).bind fun i => (keeps_orElse _ i).bind fun inode => ?_
  refine Act.keeps_ite (fun _ => Act.keeps_fail _) fun _ => ?_
  exact (keeps_look _).bind fun entries => (keeps_look _).bind fun replies => Act.keeps_pure _

/-- A release drops the body, if any, and the handle. -/
theorem keeps_release (c : Caller) (ino fh : ℕ) : (release c ino fh).Keeps (Unwritten img) := by
  unfold release
  refine (keeps_commit _ _).bind fun _ => Act.Keeps.bind (Act.keeps_update fun st t hst ht => ?_)
    fun _ => (keeps_look _).bind fun more => Act.keeps_ite (fun _ => Act.keeps_pure _) fun _ => ?_
  · cases ht
    exact ⟨hst.img_eq, hst.readOnly, hst.clean⟩
  refine Act.Keeps.bind (Act.keeps_update fun st t hst ht => ?_) fun _ => Act.keeps_pure _
  cases ht
  refine ⟨hst.img_eq, hst.readOnly, fun n b hb => hst.clean n b ?_⟩
  dsimp only at hb
  by_cases hn : n = fuseToUfs ino
  · rw [hn, Function.update_self] at hb
    cases hb
  · rwa [Function.update_of_ne hn] at hb

theorem keeps_destroy : destroy.Keeps (Unwritten img) := by
  unfold destroy
  refine keeps_look_bind fun st ro hst hro => ?_
  obtain rfl : st.readOnly = ro := Outcome.ok.inj hro
  rw [if_pos hst.readOnly]
  exact hst

/-- No request changes the image, or what keeps it unchanged. -/
theorem keeps_handle (c : Caller) (req : Request) : (handle c req).Keeps (Unwritten img) := by
  cases req with
  | lookup parent name => exact keeps_lookup parent name
  | getattr ino =>
    exact (keeps_look _).bind fun a => (keeps_orElse _ a).bind fun attr => Act.keeps_pure _
  | access ino =>
    exact (keeps_look _).bind fun i => (keeps_orElse _ i).bind fun inode => Act.keeps_pure _
  | getxattr ino name size => exact Act.keeps_fail _
  | listxattr ino size => exact Act.keeps_pure _
  | setattr ino mode uid gid size atime mtime ctime => exact keeps_writable
  | readlink ino => exact keeps_readlink ino
  | mkdir parent name mode umask => exact keeps_writable
  | mknod parent name mode umask rdev => exact keeps_writable
  | unlink parent name => exact keeps_writable
  | rmdir parent name => exact keeps_writable
  | symlink parent linkName target => exact keeps_writable
  | rename parent name newparent newname => exact keeps_writable
  | link ino newparent newname => exact keeps_writable
  | create parent name mode umask => exact keeps_writable
  | «open» ino => exact (keeps_newHandle _).bind fun fh => Act.keeps_pure _
  | read ino offset size => exact keeps_readFile ino offset size
  | write ino offset data => exact keeps_writable
  | flush ino => exact (keeps_commit _ _).bind fun _ => Act.keeps_pure _
  | fsync ino =>
    refine (keeps_commit _ _).bind fun _ => ?_
    exact Act.keeps_ite (fun _ => Act.keeps_pure _) fun _ => Act.keeps_fail _
  | release ino fh => exact keeps_release c ino fh
  | readdir ino offset room => exact keeps_readdir ino offset room
  | statfs => exact (keeps_look _).bind fun st => Act.keeps_pure _
  | destroy => exact keeps_destroy

end Handler

namespace Session
variable {img : Bytes}

theorem serve_unwritten {s : Session} (h : Unwritten img s.daemon) (c : Caller) (req : Request) :
    Unwritten img (s.serve c req).2.daemon :=
  serve_keeps h (Handler.keeps_handle c req s.daemon h)

theorem run_unwritten (requests : List (Caller × Request)) : ∀ {s : Session},
    Unwritten img s.daemon → Unwritten img (s.run requests).daemon := by
  induction requests with
  | nil => exact fun h => h
  | cons request rest ih =>
    intro s h
    obtain ⟨c, req⟩ := request
    exact ih (serve_unwritten h c req)

/-- After any requests in any order a daemon started read-only has the image that it was started
with. -/
theorem run_readOnly_img (img : Bytes) (ufs : Ufs) (requests : List (Caller × Request)) :
    ((mount img ufs true).run requests).daemon.img = img := by
  have hstart : Unwritten img (mount img ufs true).daemon :=
    ⟨rfl, rfl, fun n b hb => by cases hb⟩
  exact (run_unwritten requests hstart).img_eq

end Session

end UfsFuse
