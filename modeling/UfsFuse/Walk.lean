import UfsFuse.Cursor
import UfsFuse.Stamps

/-!
# Chunked directory walks

A `readdir` goes on at a position in the sorted listing, which moves when an entry is removed. A walk
returns every entry exactly if nothing is removed before its end.
-/
namespace UfsFuse

/-! ## Byte order on strings -/

theorem strLe_total (a : Str) : ∀ b : Str, (strLe a b || strLe b a) = true := by
  induction a with
  | nil => exact fun b => rfl
  | cons x xs ih =>
    intro b
    cases b with
    | nil => rfl
    | cons y ys =>
      by_cases hxy : x = y
      · subst hxy
        simpa [strLe] using ih ys
      · have hlt : x < y ∨ y < x := UInt8.lt_or_lt_of_ne hxy
        simpa [strLe, hxy, Ne.symm hxy] using hlt

theorem strLe_trans (a : Str) : ∀ b c : Str, strLe a b = true → strLe b c = true →
    strLe a c = true := by
  induction a with
  | nil => exact fun b c _ _ => rfl
  | cons x xs ih =>
    intro b c hab hbc
    cases b with
    | nil => cases hab
    | cons y ys =>
      cases c with
      | nil => cases hbc
      | cons z zs =>
        simp only [strLe] at hab hbc ⊢
        by_cases hxy : x = y
        · subst hxy
          rw [if_pos rfl] at hab
          by_cases hxz : x = z
          · rw [if_pos hxz] at hbc ⊢
            exact ih ys zs hab hbc
          · rw [if_neg hxz] at hbc ⊢
            exact hbc
        · rw [if_neg hxy] at hab
          by_cases hyz : y = z
          · subst hyz
            rw [if_neg hxy]
            exact hab
          · rw [if_neg hyz] at hbc
            have hlt := UInt8.lt_trans (of_decide_eq_true hab) (of_decide_eq_true hbc)
            rw [if_neg (UInt8.ne_of_lt hlt)]
            exact decide_eq_true hlt

theorem strLe_antisymm (a : Str) : ∀ b : Str, strLe a b = true → strLe b a = true → a = b := by
  induction a with
  | nil =>
    intro b _ hba
    cases b with
    | nil => rfl
    | cons y ys => cases hba
  | cons x xs ih =>
    intro b hab hba
    cases b with
    | nil => cases hab
    | cons y ys =>
      simp only [strLe] at hab hba
      by_cases hxy : x = y
      · subst hxy
        rw [if_pos rfl] at hab hba
        rw [ih ys hab hba]
      · rw [if_neg hxy] at hab
        rw [if_neg (Ne.symm hxy)] at hba
        exact absurd (UInt8.lt_trans (of_decide_eq_true hab) (of_decide_eq_true hba))
          (UInt8.lt_irrefl x)

/-! ## The listing of a directory -/
section Listing
variable {ufs : Ufs} {image image' : Bytes} {T T' : Table} {N N' : NameTree} {p : ℕ} {name : Str}

/-- Sorted by name. -/
def NameSorted (l : List (Str × ℕ)) : Prop := l.Pairwise fun a b => strLe a.1 b.1 = true

theorem nameSorted_mergeSort (l : List (Str × ℕ)) :
    NameSorted (l.mergeSort fun a b => strLe a.1 b.1) :=
  List.pairwise_mergeSort (fun a b c => strLe_trans a.1 b.1 c.1) (fun a b => strLe_total a.1 b.1) l

/-- With different names there is one way to sort. -/
theorem NameSorted.eq_of_perm {l l' : List (Str × ℕ)} (h : NameSorted l) (h' : NameSorted l')
    (hp : l.Perm l') (hnames : (l'.map Prod.fst).Nodup) : l = l' := by
  refine hp.eq_of_pairwise (fun a b ha hb hab hba => ?_) h h'
  exact List.inj_on_of_nodup_map hnames (hp.subset ha) hb (strLe_antisymm _ _ hab hba)

theorem Carries.namesAt {links : ℕ → ℕ} (hc : Carries T N links) (hst : ufs.Stores image T)
    (hlive : N.dirs ⊆ N.live) (hp : p ∈ N.dirs) : ∃ es : List Entry, (es : Multiset Entry) = N.records p ∧
      UfsFuse.namesAt image ufs p = (shownNames es).mergeSort fun a b => strLe a.1 b.1 := by
  obtain ⟨es, hbody, hes⟩ := hc.body p hp
  exact ⟨es, hes, hst.namesAt (hc.live ▸ hlive hp) hbody⟩

theorem Consistent.nameSorted (h : Consistent image ufs) (hp : isDir image ufs p = true) :
    NameSorted (namesAt image ufs p) := by
  obtain ⟨T, N, hst, hc, hs⟩ := h
  obtain ⟨es, -, hnames⟩ := hc.namesAt hst hs.dirs_live ((hc.shows hs hst).isDir.mp hp)
  rw [hnames]
  exact nameSorted_mergeSort _

theorem shownNames_perm {es es' : List Entry} (h : es.Perm es') :
    (shownNames es).Perm (shownNames es') := (h.filter _).map _

/-- The name was taken out of directory `p`: its listing is one entry shorter. -/
structure TookName (ufs : Ufs) (p : ℕ) (name : Str) (image image' : Bytes) : Prop where
  consistent : Consistent image' ufs
  isDir : isDir image' ufs p = true
  listing : ∃ n, ((name, n) :: namesAt image' ufs p).Perm (namesAt image ufs p)

/-- A tree without one of its entries. -/
theorem tookName_of_kids {e : Entry} (hst : ufs.Stores image T) (hc : Carries T N N.links) (hs : N.Sound)
    (hp : p ∈ N.dirs) (he : e ∈ N.kids p) (ha : Ascii e.name) (hst' : ufs.Stores image' T')
    (hc' : Carries T' N' N'.links) (hs' : N'.Sound) (hp' : p ∈ N'.dirs) (hup : N'.up = N.up)
    (hkids : N'.kids = Function.update N.kids p ((N.kids p).erase e)) :
    TookName ufs p e.name image image' := by
  refine ⟨⟨T', N', hst', hc', hs'⟩, (hc'.shows hs' hst').isDir.mpr hp', e.inode, ?_⟩
  obtain ⟨es, hes, hnames⟩ := hc.namesAt hst hs.dirs_live hp
  obtain ⟨es', hes', hnames'⟩ := hc'.namesAt hst' hs'.dirs_live hp'
  have hperm : (e :: es').Perm es := by
    apply Multiset.coe_eq_coe.mp
    rw [← Multiset.cons_coe, hes, hes', NameTree.records, NameTree.records, hup, hkids,
      Function.update_self, Multiset.cons_swap, Multiset.cons_swap e, Multiset.cons_erase he]
  have hne := hs.named p hp e he
  have hcons : shownNames (e :: es') = (e.name, e.inode) :: shownNames es' := by
    unfold shownNames
    rw [List.filter_cons_of_pos (by simp [hne]), List.map_cons, decodeAsciiReplace_of_ascii ha]
  have hshown := shownNames_perm hperm
  rw [hcons] at hshown
  rw [hnames, hnames']
  exact ((List.mergeSort_perm _ _).cons _).trans (hshown.trans (List.mergeSort_perm _ _).symm)

theorem unlinkInParent_tookName {t : ℕ} (h : Consistent image ufs) (hp : isDir image ufs p = true)
    (ha : Ascii name) (hrun : unlinkInParent ufs p name image = (.ok t, image')) :
    TookName ufs p name image image' := by
  obtain ⟨T, N, hst, hc, hs⟩ := h
  have hp := (hc.shows hs hst).isDir.mp hp
  obtain ⟨T', hst', e, he, rfl, rfl, hnd, hleft, -⟩ :=
    ((unlinkInParent_stores hc hs hp ha).run image hst).ok hrun
  exact tookName_of_kids hst hc hs hp he ha hst' hleft.carries (hs.leave hp he hnd) hp rfl
    (N.leave_kids p e)

theorem rmdirInParent_tookName {t : ℕ} (h : Consistent image ufs) (hp : isDir image ufs p = true)
    (ha : Ascii name) (h1 : name ≠ dotName) (h2 : name ≠ dotdotName)
    (hrun : rmdirInParent ufs p name image = (.ok t, image')) : TookName ufs p name image image' := by
  obtain ⟨T, N, hst, hc, hs⟩ := h
  have hp := (hc.shows hs hst).isDir.mp hp
  obtain ⟨T', hst', e, he, rfl, rfl, hd, hempty, hleft, -⟩ :=
    ((rmdirInParent_stores hc hs hp ha h1 h2).run image hst).ok hrun
  have hpe : p ≠ e.inode := by
    intro hpe
    rw [hpe, hempty] at he
    exact absurd he (Multiset.notMem_zero _)
  exact tookName_of_kids hst hc hs hp he ha hst' hleft.carries (hs.leaveDir hp he hd hempty)
    (Finset.mem_erase.mpr ⟨hpe, hp⟩) rfl (N.leaveDir_kids p e)

end Listing

/-! ## What the daemon answers -/

/-- What a client sees of an entry: its name and its number. -/
def seen (x : Str × ℕ) : Str × ℕ := (x.1, ufsToFuse x.2)

/-- The entries of directory `ino`, in the order in which `readdir` returns them. -/
def Daemon.listing (st : Daemon) (ino : ℕ) : List (Str × ℕ) :=
  (namesAt st.img st.ufs (fuseToUfs ino)).map seen

def DirReply.seen (reply : DirReply) : Str × ℕ := (reply.name, reply.ino)

/-- The offset that was returned with the last of these entries. -/
def resumeAt (offset : ℕ) (replies : List DirReply) : ℕ :=
  (replies.getLast?.map DirReply.offset).getD offset

/-- Entries that are numbered from `offset` on resume after the last of them. -/
theorem resumeAt_eq {α : Type} (entries : List α) (offset room : ℕ) {f : α × ℕ → DirReply}
    (hf : ∀ x, (f x).offset = x.2 + 1) :
    resumeAt offset (((entries.zipIdx.drop offset).take room).map f) =
      offset + (((entries.zipIdx.drop offset).take room).map f).length := by
  unfold resumeAt
  rw [List.getLast?_map, List.length_map, Option.map_map]
  cases hlast : ((entries.zipIdx.drop offset).take room).getLast? with
  | none => rw [List.getLast?_eq_none_iff.mp hlast]; rfl
  | some x =>
    rw [List.getLast?_eq_getElem?] at hlast
    obtain ⟨hlt, -⟩ := List.getElem?_eq_some_iff.mp hlast
    have hroom := (List.length_take_le _ _).trans_lt' hlt
    rw [List.getElem?_take_of_lt hroom, List.getElem?_drop, List.getElem?_zipIdx] at hlast
    obtain ⟨a, -, rfl⟩ := Option.map_eq_some_iff.mp hlast
    change (f (a, _)).offset = _
    rw [hf]
    omega

namespace Handler
variable {st st' : Daemon} {ino offset room : ℕ} {name : Bytes} {r : Reply}

/-- A listing is answered from the position that was asked for. -/
theorem readdir_ok (h : readdir ino offset room st = (.ok r, st')) : st' = st ∧
    ∃ replies, r = .directory replies ∧
      replies.map DirReply.seen = ((st.listing ino).drop offset).take room ∧
      resumeAt offset replies = offset + replies.length := by
  refine ⟨(congrArg Prod.snd h).symm.trans (keeps_readdir ino offset room (P := (· = st)) st rfl), ?_⟩
  obtain ⟨found, st₁, hlook₁, hrest₁⟩ := Act.bind_eq_ok.mp h
  obtain ⟨hfound, rfl⟩ := look_ok hlook₁
  obtain ⟨inode, st₂, horElse, hrest₂⟩ := Act.bind_eq_ok.mp hrest₁
  obtain ⟨rfl, rfl⟩ := orElse_ok horElse
  have hinode := Outcome.ok.inj hfound
  by_cases hdir : ¬inode.isDirectory = true
  · rw [if_pos hdir] at hrest₂
    exact absurd hrest₂ Act.fail_ne_ok
  rw [if_neg hdir] at hrest₂
  obtain ⟨entries, st₃, hlook₃, hrest₃⟩ := Act.bind_eq_ok.mp hrest₂
  obtain ⟨hentries, rfl⟩ := look_ok hlook₃
  obtain ⟨replies, st₄, hlook₄, hrest₄⟩ := Act.bind_eq_ok.mp hrest₃
  obtain ⟨hreplies, rfl⟩ := look_ok hlook₄
  have hreplies := Outcome.ok.inj hreplies
  refine ⟨replies, (Outcome.ok.inj (Prod.mk.inj hrest₄).1).symm, ?_, ?_⟩
  · have hlisting : st₄.listing ino = entries.map fun e => (e.name, ufsToFuse e.inode) := by
      unfold Daemon.listing namesAt
      rw [hinode]
      dsimp only
      rw [hentries]
      exact List.map_map
    rw [← hreplies, List.map_map, hlisting, ← List.map_drop, ← List.map_take]
    nth_rewrite 2 [← List.zipIdx_map_fst 0 entries]
    rw [← List.map_drop, ← List.map_take, List.map_map]
    rfl
  · rw [← hreplies]
    exact resumeAt_eq entries offset room fun x => rfl

/-- A directory of a consistent file system can be listed. -/
theorem readdir_run (hc : Consistent st.img st.ufs)
    (hd : isDir st.img st.ufs (fuseToUfs ino) = true) :
    ∃ replies, readdir ino offset room st = (.ok (.directory replies), st) := by
  obtain ⟨T, N, hst, hcarries, hs⟩ := hc
  have hp := (hcarries.shows hs hst).isDir.mp hd
  have hlive : fuseToUfs ino ∈ T.live := hcarries.live ▸ hs.dirs_live hp
  obtain ⟨es, hbody, -⟩ := hcarries.body _ hp
  obtain ⟨records, rs, hrecords, -⟩ := hst.iterInodeDirectoryRecords hlive hbody
  have hread := hst.readInode hlive
  have hentries : ∃ entries, iterDirectoryEntries st.img st.ufs
      (T.file (fuseToUfs ino)).inode.toInode = .ok entries := by
    rw [iterDirectoryEntries, hrecords]
    exact ⟨_, rfl⟩
  obtain ⟨entries, hentries⟩ := hentries
  have hisDir : (T.file (fuseToUfs ino)).inode.toInode.isDirectory = true :=
    (hcarries.isDir _ (hs.dirs_live hp)).mpr hp
  have hlook : look (fun st => .ok (readInode st.img st.ufs (fuseToUfs ino))) st =
      (.ok (some (T.file (fuseToUfs ino)).inode.toInode), st) :=
    congrArg (fun o => (Outcome.ok o, st)) hread
  have hlook' : look (fun st => iterDirectoryEntries st.img st.ufs
      (T.file (fuseToUfs ino)).inode.toInode) st = (.ok entries, st) := by
    unfold look Act.read
    dsimp only
    rw [hentries]
  have hlist : ∃ replies, (do
      if ¬(T.file (fuseToUfs ino)).inode.toInode.isDirectory then refuse .enotdir
      else do
        let entries ← look fun st => iterDirectoryEntries st.img st.ufs
          (T.file (fuseToUfs ino)).inode.toInode
        let replies ← look fun st => .ok (((entries.zipIdx.drop offset).take room).map
          fun entry => (⟨ufsToFuse entry.1.inode, entry.2 + 1,
            ((readInode st.img st.ufs entry.1.inode).map fun child => fileKindOf child.mode).getD
              .regularFile, entry.1.name⟩ : DirReply))
        pure (.directory replies) : Handler Reply) st = (.ok (.directory replies), st) := by
    rw [if_neg (not_not.mpr hisDir)]
    exact ⟨_, Act.bind_eq_ok.mpr ⟨entries, st, hlook', Act.bind_eq_ok.mpr ⟨_, st, rfl, rfl⟩⟩⟩
  obtain ⟨replies, hlist⟩ := hlist
  exact ⟨replies, Act.bind_eq_ok.mpr ⟨_, st, hlook, Act.bind_eq_ok.mpr ⟨_, st, rfl, hlist⟩⟩⟩

theorem unlink_ok {parent : ℕ} (h : unlink parent name st = (.ok r, st')) : ∃ n img,
    unlinkInParent st.ufs (fuseToUfs parent) name st.img = (.ok n, img) ∧ st' = { st with img := img } := by
  obtain ⟨_, st₁, hwritable, hrest₁⟩ := Act.bind_eq_ok.mp h
  obtain rfl := writable_ok hwritable
  obtain ⟨n, st₂, hrun, hrest₂⟩ := Act.bind_eq_ok.mp hrest₁
  obtain ⟨img, himg, rfl⟩ := onImage_ok hrun
  exact ⟨n, img, himg, (Prod.mk.inj hrest₂).2.symm⟩

theorem unlink_run {parent n : ℕ} {img : Bytes} (hro : st.readOnly = false)
    (h : unlinkInParent st.ufs (fuseToUfs parent) name st.img = (.ok n, img)) :
    unlink parent name st = (.ok .ok, { st with img := img }) := by
  have hrun := @onImage_run _ (fun ufs => unlinkInParent ufs (fuseToUfs parent) name) st n img h
  exact Act.bind_eq_ok.mpr ⟨(), st, writable_run hro, Act.bind_eq_ok.mpr ⟨n, _, hrun, rfl⟩⟩

theorem rmdir_ok {parent : ℕ} (h : rmdir parent name st = (.ok r, st')) : ∃ n img,
    rmdirInParent st.ufs (fuseToUfs parent) name st.img = (.ok n, img) ∧ st' = { st with img := img } := by
  obtain ⟨_, st₁, hwritable, hrest₁⟩ := Act.bind_eq_ok.mp h
  obtain rfl := writable_ok hwritable
  obtain ⟨n, st₂, hrun, hrest₂⟩ := Act.bind_eq_ok.mp hrest₁
  obtain ⟨img, himg, rfl⟩ := onImage_ok hrun
  exact ⟨n, img, himg, (Prod.mk.inj hrest₂).2.symm⟩

end Handler

/-! ## Walks -/

/-- What a client asks for during a walk. -/
inductive WalkRequest where
  | readdir (room : ℕ)
  | unlink (name : Bytes)
  | rmdir (name : Bytes)
  deriving DecidableEq, Repr

namespace WalkRequest

/-- A walk of directory `d` that goes on at `offset`. -/
def toRequest (d offset : ℕ) : WalkRequest → Request
  | readdir room => .readdir d offset room
  | unlink name => .unlink d name
  | rmdir name => .rmdir d name

def removes : WalkRequest → Option Bytes
  | readdir _ => none
  | unlink name | rmdir name => some name

end WalkRequest

/-- How far a walk has come, and what it has returned. -/
structure Walk where
  session : Session
  offset : ℕ
  returned : List (Str × ℕ)

namespace Walk

def start (s : Session) : Walk := ⟨s, 0, []⟩

def listing (d : ℕ) (w : Walk) : List (Str × ℕ) := w.session.daemon.listing d

def receive (w : Walk) : Answer × Session → Walk
  | (.reply (.directory replies), s) =>
      ⟨s, resumeAt w.offset replies, w.returned ++ replies.map DirReply.seen⟩
  | (_, s) => { w with session := s }

def step (d : ℕ) (w : Walk) (x : Caller × WalkRequest) : Walk :=
  w.receive (w.session.serve x.1 (x.2.toRequest d w.offset))

def run (d : ℕ) (w : Walk) (requests : List (Caller × WalkRequest)) : Walk :=
  requests.foldl (step d) w

/-- `P` holds whenever a request of the walk is sent. -/
def Along (P : Walk → Caller × WalkRequest → Prop) (d : ℕ) : Walk → List (Caller × WalkRequest) → Prop
  | _, [] => True
  | w, x :: rest => P w x ∧ Along P d (w.step d x) rest

/-- The entry is there during the whole walk. -/
def Present (d : ℕ) (entry : Str × ℕ) : Walk → List (Caller × WalkRequest) → Prop
  | w, [] => entry ∈ w.listing d
  | w, x :: rest => entry ∈ w.listing d ∧ Present d entry (w.step d x) rest

/-- What is removed was returned before. -/
def RemovesReturned (d : ℕ) (w : Walk) (x : Caller × WalkRequest) : Prop :=
  ∀ name, x.2.removes = some name →
    (w.session.serve x.1 (x.2.toRequest d w.offset)).1 = .reply .ok ∧ ∃ n, (name, n) ∈ w.returned

/-- The last answer is an empty one, though there was room for an entry. -/
def Ended (d : ℕ) (w : Walk) : Prop :=
  ∃ c room, 0 < room ∧ (w.session.serve c (.readdir d w.offset room)).1 = .reply (.directory [])

/-- Every entry that is there during the whole walk was returned, as often as it is listed. -/
def MissesNothing (d : ℕ) (s : Session) (requests : List (Caller × WalkRequest)) : Prop :=
  ∀ entry, Present d entry (start s) requests →
    ((start s).run d requests).returned.count entry = (s.daemon.listing d).count entry

/-- Nothing is left to return when an entry is removed from a consistent file system. -/
structure RemovesLate (d : ℕ) (w : Walk) (x : Caller × WalkRequest) : Prop where
  consistent : x.2.removes.isSome → Consistent w.session.daemon.img w.session.daemon.ufs
  isDir : x.2.removes.isSome →
    UfsFuse.isDir w.session.daemon.img w.session.daemon.ufs (fuseToUfs d) = true
  late : x.2.removes.isSome → (w.listing d).length ≤ w.offset

/-- The names "." and ".." are not removed, and the names that are removed are ASCII. -/
def Plain (x : Caller × WalkRequest) : Prop :=
  ∀ name, x.2.removes = some name → Ascii name ∧ name ≠ dotName ∧ name ≠ dotdotName

theorem Present.mem {d : ℕ} {entry : Str × ℕ} {w : Walk} {requests : List (Caller × WalkRequest)}
    (h : Present d entry w requests) : entry ∈ w.listing d := by
  cases requests with
  | nil => exact h
  | cons x rest => exact h.1

section Steps
variable {d room : ℕ} {w : Walk} {c : Caller} {name : Bytes} {entry : Str × ℕ}

/-- A walk is a cursor in the listing. -/
def cursor (d : ℕ) (w : Walk) : Cursor (Str × ℕ) := ⟨w.listing d, w.offset, w.returned⟩

/-- A chunk that is answered moves the cursor; nothing else changes. -/
theorem step_readdir (d : ℕ) (w : Walk) (c : Caller) (room : ℕ) :
    (w.step d (c, .readdir room)).session.daemon = w.session.daemon ∧
      ((w.step d (c, .readdir room)).cursor d = w.cursor d ∨
        (w.step d (c, .readdir room)).cursor d = (w.cursor d).read room) := by
  have hsame : (w.session.serve c (.readdir d w.offset room)).2.daemon = w.session.daemon :=
    Session.serve_keeps (P := (· = w.session.daemon)) rfl
      (Handler.keeps_readdir _ _ _ (P := (· = w.session.daemon)) w.session.daemon rfl)
  change (w.receive (w.session.serve c (.readdir d w.offset room))).session.daemon = _ ∧
    ((w.receive (w.session.serve c (.readdir d w.offset room))).cursor d = _ ∨
      (w.receive (w.session.serve c (.readdir d w.offset room))).cursor d = _)
  rcases hserve : w.session.serve c (.readdir d w.offset room) with ⟨answer, s⟩
  rw [hserve] at hsame
  have hother : ({ w with session := s } : Walk).cursor d = w.cursor d := by
    unfold cursor listing
    rw [hsame]
  cases answer with
  | reply r =>
    obtain ⟨hrun, -⟩ := Session.serve_reply rfl (by simp) hserve
    obtain ⟨-, replies, rfl, hseen, hresume⟩ := Handler.readdir_ok hrun
    refine ⟨hsame, .inr ?_⟩
    have hchunk : (w.cursor d).chunk room = replies.map DirReply.seen := hseen.symm
    have hdaemon : s.daemon = w.session.daemon := hsame
    unfold Cursor.read
    rw [hchunk, List.length_map]
    change Cursor.mk (s.daemon.listing d) (resumeAt w.offset replies) _ = _
    rw [hdaemon, hresume]
    rfl
  | error why => exact ⟨hsame, .inl hother⟩
  | panicked => exact ⟨hsame, .inl hother⟩

/-- In a consistent file system a chunk is answered. -/
theorem step_readdir_run (hp : w.session.poisoned = false)
    (hc : Consistent w.session.daemon.img w.session.daemon.ufs)
    (hd : UfsFuse.isDir w.session.daemon.img w.session.daemon.ufs (fuseToUfs d) = true)
    (c : Caller) (room : ℕ) : ∃ replies,
    w.session.serve c (.readdir d w.offset room) = (.reply (.directory replies), w.session) ∧
      replies.map DirReply.seen = (w.cursor d).chunk room ∧
      w.step d (c, .readdir room) =
        ⟨w.session, w.offset + ((w.cursor d).chunk room).length, w.returned ++ (w.cursor d).chunk room⟩ := by
  obtain ⟨replies, hrun⟩ := @Handler.readdir_run w.session.daemon d w.offset room hc hd
  obtain ⟨-, replies', hsame, hseen, hresume⟩ := Handler.readdir_ok hrun
  obtain rfl := Reply.directory.inj hsame
  have hserve := @Session.serve_run w.session c (.readdir d w.offset room) _ _
    (by simp [Request.names]) hp hrun
  have hchunk : replies.map DirReply.seen = (w.cursor d).chunk room := hseen
  refine ⟨replies, hserve, hchunk, ?_⟩
  change w.receive (w.session.serve c (.readdir d w.offset room)) = _
  rw [hserve, ← hchunk, List.length_map, ← hresume]
  rfl

theorem ended_of_done (hp : w.session.poisoned = false)
    (hc : Consistent w.session.daemon.img w.session.daemon.ufs)
    (hd : UfsFuse.isDir w.session.daemon.img w.session.daemon.ufs (fuseToUfs d) = true)
    (hdone : (w.cursor d).Done) (c : Caller) : w.Ended d := by
  obtain ⟨replies, hserve, hchunk, -⟩ := step_readdir_run hp hc hd c 1
  rw [Cursor.chunk_done hdone, List.map_eq_nil_iff] at hchunk
  subst hchunk
  exact ⟨c, 1, Nat.one_pos, congrArg Prod.fst hserve⟩

/-- What a removal that is answered does to a walk. -/
structure Removed (d : ℕ) (name : Str) (w w' : Walk) : Prop where
  offset : w'.offset = w.offset
  returned : w'.returned = w.returned
  ufs : w'.session.daemon.ufs = w.session.daemon.ufs
  took : TookName w.session.daemon.ufs (fuseToUfs d) name w.session.daemon.img w'.session.daemon.img

theorem step_removes {x : Caller × WalkRequest} (hx : x.2.removes = some name) (hplain : Plain x)
    (hc : Consistent w.session.daemon.img w.session.daemon.ufs)
    (hd : UfsFuse.isDir w.session.daemon.img w.session.daemon.ufs (fuseToUfs d) = true)
    (hok : (w.session.serve x.1 (x.2.toRequest d w.offset)).1 = .reply .ok) :
    Removed d name w (w.step d x) := by
  obtain ⟨c, req⟩ := x
  obtain ⟨ha, h1, h2⟩ := hplain name hx
  have hserve : w.session.serve c (req.toRequest d w.offset) =
      (.reply .ok, (w.session.serve c (req.toRequest d w.offset)).2) := Prod.ext hok rfl
  have hstep : w.step d (c, req) =
      { w with session := (w.session.serve c (req.toRequest d w.offset)).2 } := by
    unfold step
    dsimp only
    rw [hserve]
    rfl
  rw [hstep]
  cases req with
  | readdir room => cases hx
  | unlink name' =>
    obtain rfl := Option.some.inj hx
    obtain ⟨hrun, -⟩ := Session.serve_reply rfl (by simp [WalkRequest.toRequest]) hserve
    obtain ⟨n, img, hunlink, hdaemon⟩ := Handler.unlink_ok hrun
    have hufs := congrArg Daemon.ufs hdaemon
    have himg := congrArg Daemon.img hdaemon
    refine ⟨rfl, rfl, hufs, ?_⟩
    dsimp only
    rw [himg]
    exact unlinkInParent_tookName hc hd ha hunlink
  | rmdir name' =>
    obtain rfl := Option.some.inj hx
    obtain ⟨hrun, -⟩ := Session.serve_reply rfl (by simp [WalkRequest.toRequest]) hserve
    obtain ⟨n, img, hrmdir, hdaemon⟩ := Handler.rmdir_ok hrun
    have hufs := congrArg Daemon.ufs hdaemon
    have himg := congrArg Daemon.img hdaemon
    refine ⟨rfl, rfl, hufs, ?_⟩
    dsimp only
    rw [himg]
    exact rmdirInParent_tookName hc hd ha h1 h2 hrmdir

namespace Removed
variable {w' : Walk}

theorem consistent (h : Removed d name w w') :
    Consistent w'.session.daemon.img w'.session.daemon.ufs := by
  rw [h.ufs]
  exact h.took.consistent

theorem isDir (h : Removed d name w w') :
    UfsFuse.isDir w'.session.daemon.img w'.session.daemon.ufs (fuseToUfs d) = true := by
  rw [h.ufs]
  exact h.took.isDir

theorem listing (h : Removed d name w w') :
    ∃ n, ((name, n) :: w'.listing d).Perm (w.listing d) := by
  obtain ⟨n, hperm⟩ := h.took.listing
  refine ⟨ufsToFuse n, ?_⟩
  unfold Walk.listing Daemon.listing
  rw [h.ufs]
  exact hperm.map seen

end Removed

/-! ## A walk that removes late -/
section Late
variable {l₀ : List (Str × ℕ)} {x : Caller × WalkRequest} {requests : List (Caller × WalkRequest)}

theorem complete_step (h : (w.cursor d).Complete l₀) (hplain : Plain x)
    (hreturned : RemovesReturned d w x) (hlate : RemovesLate d w x) :
    ((w.step d x).cursor d).Complete l₀ := by
  cases hx : x.2.removes with
  | none =>
    obtain ⟨c, req⟩ := x
    cases req with
    | readdir room =>
      obtain ⟨-, hsame | hread⟩ := step_readdir d w c room
      · rw [hsame]
        exact h
      · rw [hread]
        exact h.read room
    | unlink name => cases hx
    | rmdir name => cases hx
  | some name =>
    have hsome : x.2.removes.isSome := by rw [hx]; rfl
    have hr := step_removes hx hplain (hlate.consistent hsome) (hlate.isDir hsome) (hreturned name hx).1
    obtain ⟨n, hperm⟩ := hr.listing
    have hlen := hperm.length_eq
    rw [List.length_cons] at hlen
    have hcursor : (w.step d x).cursor d = (w.cursor d).relist ((w.step d x).listing d) := by
      unfold cursor Cursor.relist
      rw [hr.offset, hr.returned]
    rw [hcursor]
    refine h.relist (hlate.late hsome) ?_
    change ((w.step d x).listing d).length ≤ (w.listing d).length
    omega

theorem complete_run : ∀ {w : Walk}, (w.cursor d).Complete l₀ → (∀ x ∈ requests, Plain x) →
    Along (RemovesReturned d) d w requests → Along (RemovesLate d) d w requests →
    ((w.run d requests).cursor d).Complete l₀ := by
  induction requests with
  | nil => exact fun h _ _ _ => h
  | cons x rest ih =>
    intro w h hplain hreturned hlate
    exact ih (complete_step h (hplain x (List.mem_cons_self ..)) hreturned.1 hlate.1)
      (fun y hy => hplain y (List.mem_cons_of_mem _ hy)) hreturned.2 hlate.2

theorem Ended.done (h : Ended d w) : (w.cursor d).Done := by
  obtain ⟨c, room, hroom, hanswer⟩ := h
  obtain ⟨hrun, -⟩ := Session.serve_reply rfl (by simp) (Prod.ext hanswer rfl :
    w.session.serve c (.readdir d w.offset room) = (.reply (.directory []), _))
  obtain ⟨-, replies, hnil, hseen, -⟩ := Handler.readdir_ok hrun
  obtain rfl := Reply.directory.inj hnil
  exact Cursor.done_of_chunk hroom hseen.symm

end Late

/-! ## A walk that removes early -/
section Early
variable {l₀ : List (Str × ℕ)} {x : Caller × WalkRequest} {requests : List (Caller × WalkRequest)}

/-- A walk of a directory of a consistent file system that began with listing `l₀`. -/
structure Tidy (d : ℕ) (l₀ : List (Str × ℕ)) (w : Walk) : Prop where
  consistent : Consistent w.session.daemon.img w.session.daemon.ufs
  isDir : UfsFuse.isDir w.session.daemon.img w.session.daemon.ufs (fuseToUfs d) = true
  listed : (w.listing d).Sublist l₀
  returned : w.returned ⊆ l₀

theorem Tidy.sorted (h : Tidy d l₀ w) : NameSorted (w.listing d) := by
  have hsorted := h.consistent.nameSorted h.isDir
  exact hsorted.map seen fun a b hab => hab

theorem Tidy.names (h : Tidy d l₀ w) (hl : (l₀.map Prod.fst).Nodup) :
    ((w.listing d).map Prod.fst).Nodup := hl.sublist (h.listed.map _)

/-- Removing takes the entry out of the listing. -/
theorem Removed.erase {w' : Walk} (hr : Removed d name w w') (h : Tidy d l₀ w)
    (hl : (l₀.map Prod.fst).Nodup) (hreturned : ∃ n, (name, n) ∈ w.returned) :
    Tidy d l₀ w' ∧ ∃ y ∈ w.returned, y ∈ w.listing d ∧
      w'.cursor d = (w.cursor d).relist ((w.listing d).erase y) := by
  obtain ⟨n, hperm⟩ := hr.listing
  obtain ⟨n', hn'⟩ := hreturned
  obtain ⟨hmem, hrest⟩ := List.cons_perm_iff_perm_erase.mp hperm
  have hsub : ((w.listing d).erase (name, n)).Sublist (w.listing d) := List.erase_sublist
  have hnames : (((w.listing d).erase (name, n)).map Prod.fst).Nodup :=
    (h.names hl).sublist (hsub.map _)
  have hsorted' : NameSorted (w'.listing d) := by
    have hsorted := hr.consistent.nameSorted hr.isDir
    exact hsorted.map seen fun a b hab => hab
  have hlisting : w'.listing d = (w.listing d).erase (name, n) :=
    hsorted'.eq_of_perm (h.sorted.sublist hsub) hrest hnames
  -- the names of a listing tell its entries apart
  have hsame : (name, n) = (name, n') :=
    List.inj_on_of_nodup_map hl (h.listed.subset hmem) (h.returned hn') rfl
  refine ⟨⟨hr.consistent, hr.isDir, ?_, ?_⟩, (name, n), hsame ▸ hn', hmem, ?_⟩
  · rw [hlisting]
    exact hsub.trans h.listed
  · rw [hr.returned]
    exact h.returned
  · unfold cursor Cursor.relist
    rw [hr.offset, hr.returned, hlisting]

theorem Tidy.readdir (h : Tidy d l₀ w) (c : Caller) (room : ℕ) :
    Tidy d l₀ (w.step d (c, .readdir room)) := by
  obtain ⟨hdaemon, hcursor⟩ := step_readdir d w c room
  refine ⟨hdaemon ▸ h.consistent, hdaemon ▸ h.isDir, ?_, ?_⟩
  · unfold Walk.listing
    rw [hdaemon]
    exact h.listed
  · cases hcursor with
    | inl hsame =>
      rw [show (w.step d (c, .readdir room)).returned = w.returned from congrArg Cursor.returned hsame]
      exact h.returned
    | inr hread =>
      rw [show (w.step d (c, .readdir room)).returned = w.returned ++ (w.cursor d).chunk room from
        congrArg Cursor.returned hread]
      exact List.append_subset.mpr ⟨h.returned, fun y hy =>
        h.listed.subset (List.mem_of_mem_drop (Cursor.chunk_subset hy))⟩

/-- What one request does to the cursor of a tidy walk. -/
theorem Tidy.step (h : Tidy d l₀ w) (hl : (l₀.map Prod.fst).Nodup) (hplain : Plain x)
    (hreturned : RemovesReturned d w x) : Tidy d l₀ (w.step d x) ∧
      (x.2.removes = none ∧ ((w.step d x).cursor d = w.cursor d ∨
        ∃ room, (w.step d x).cursor d = (w.cursor d).read room) ∨
      x.2.removes.isSome ∧ ∃ y ∈ w.returned, y ∈ w.listing d ∧
        (w.step d x).cursor d = (w.cursor d).relist ((w.listing d).erase y)) := by
  cases hx : x.2.removes with
  | none =>
    obtain ⟨c, req⟩ := x
    cases req with
    | readdir room =>
      refine ⟨h.readdir c room, .inl ⟨rfl, ?_⟩⟩
      exact (step_readdir d w c room).2.imp_right fun hread => ⟨room, hread⟩
    | unlink name => cases hx
    | rmdir name => cases hx
  | some name =>
    obtain ⟨hok, hname⟩ := hreturned name hx
    have hr := step_removes hx hplain h.consistent h.isDir hok
    obtain ⟨htidy, herase⟩ := hr.erase h hl hname
    exact ⟨htidy, .inr ⟨rfl, herase⟩⟩

/-- An entry that the cursor has passed by is never returned. -/
theorem missed_run {entry : Str × ℕ} (hl : (l₀.map Prod.fst).Nodup) : ∀ {w : Walk}, Tidy d l₀ w →
    Cursor.Missed entry (w.cursor d) → (∀ x ∈ requests, Plain x) →
    Along (RemovesReturned d) d w requests →
    Present d entry w requests ∧ entry ∉ (w.run d requests).returned := by
  induction requests with
  | nil => exact fun _ hm _ _ => ⟨hm.mem, hm.unreturned⟩
  | cons x rest ih =>
    intro w h hm hplain hreturned
    obtain ⟨htidy, hstep⟩ := h.step hl (hplain x (List.mem_cons_self ..)) hreturned.1
    have hm' : Cursor.Missed entry ((w.step d x).cursor d) := by
      rcases hstep with ⟨-, hsame | ⟨room, hread⟩⟩ | ⟨-, y, hy, -, herase⟩
      · rw [hsame]
        exact hm
      · rw [hread]
        exact hm.read (h.names hl).of_map room
      · rw [herase]
        exact hm.erase hy
    obtain ⟨hpresent, hnever⟩ := ih htidy hm'
      (fun y hy => hplain y (List.mem_cons_of_mem _ hy)) hreturned.2
    exact ⟨⟨hm.mem, hpresent⟩, hnever⟩

/-- After the end every removal is late. -/
theorem late_of_done (hl : (l₀.map Prod.fst).Nodup) : ∀ {w : Walk}, Tidy d l₀ w →
    (w.cursor d).Done → (∀ x ∈ requests, Plain x) → Along (RemovesReturned d) d w requests →
    Along (RemovesLate d) d w requests := by
  induction requests with
  | nil => exact fun _ _ _ _ => trivial
  | cons x rest ih =>
    intro w h hdone hplain hreturned
    obtain ⟨htidy, hstep⟩ := h.step hl (hplain x (List.mem_cons_self ..)) hreturned.1
    have hdone' : ((w.step d x).cursor d).Done := by
      rcases hstep with ⟨-, hsame | ⟨room, hread⟩⟩ | ⟨-, y, hy, -, herase⟩
      · rw [hsame]
        exact hdone
      · rw [hread]
        exact hdone.trans (Nat.le_add_right _ _)
      · rw [herase]
        exact (List.erase_sublist.length_le).trans hdone
    exact ⟨⟨fun _ => h.consistent, fun _ => h.isDir, fun _ => hdone⟩,
      ih htidy hdone' (fun y hy => hplain y (List.mem_cons_of_mem _ hy)) hreturned.2⟩

/-- The first removal that is early loses an entry. -/
theorem early_misses (hl : (l₀.map Prod.fst).Nodup) : ∀ {w : Walk}, Tidy d l₀ w →
    w.returned = (w.listing d).take w.offset → (∀ x ∈ requests, Plain x) →
    Along (RemovesReturned d) d w requests → ¬Along (RemovesLate d) d w requests →
    ∃ entry, Present d entry w requests ∧ entry ∉ (w.run d requests).returned := by
  induction requests with
  | nil => exact fun _ _ _ _ hearly => absurd trivial hearly
  | cons x rest ih =>
    intro w h hfront hplain hreturned hearly
    have hplain' : ∀ y ∈ rest, Plain y := fun y hy => hplain y (List.mem_cons_of_mem _ hy)
    obtain ⟨htidy, hstep⟩ := h.step hl (hplain x (List.mem_cons_self ..)) hreturned.1
    have hrest : RemovesLate d w x → ¬Along (RemovesLate d) d (w.step d x) rest :=
      fun hx hall => hearly ⟨hx, hall⟩
    rcases hstep with ⟨hnone, hcursor⟩ | ⟨hsome, y, hy, -, herase⟩
    · have hx : RemovesLate d w x := by
        constructor <;> exact fun hsome => by simp [hnone] at hsome
      have hlisting : (w.step d x).listing d = w.listing d := by
        rcases hcursor with hsame | ⟨room, hread⟩
        · exact congrArg Cursor.listing hsame
        · exact congrArg Cursor.listing hread
      have hfront' : (w.step d x).returned = ((w.step d x).listing d).take (w.step d x).offset := by
        rcases hcursor with hsame | ⟨room, hread⟩
        · rw [hlisting, show (w.step d x).returned = _ from congrArg Cursor.returned hsame,
            show (w.step d x).offset = _ from congrArg Cursor.offset hsame]
          exact hfront
        · rw [hlisting, show (w.step d x).returned = _ from congrArg Cursor.returned hread,
            show (w.step d x).offset = _ from congrArg Cursor.offset hread]
          exact (congrArg (· ++ _) hfront).trans (@Cursor.take_chunk _ (w.cursor d) room).symm
      obtain ⟨entry, hpresent, hnever⟩ := ih htidy hfront' hplain' hreturned.2 (hrest hx)
      refine ⟨entry, ⟨?_, hpresent⟩, hnever⟩
      rw [← hlisting]
      exact hpresent.mem
    · by_cases hdone : (w.cursor d).Done
      · have hx : RemovesLate d w x := ⟨fun _ => h.consistent, fun _ => h.isDir, fun _ => hdone⟩
        refine absurd (late_of_done hl htidy ?_ hplain' hreturned.2) (hrest hx)
        rw [herase]
        exact (List.erase_sublist.length_le).trans hdone
      · obtain ⟨entry, hmem, hmissed⟩ :=
          Cursor.missed_of_erase (c := w.cursor d) (h.names hl).of_map hfront hdone hy
        obtain ⟨hpresent, hnever⟩ := missed_run hl htidy (herase ▸ hmissed) hplain' hreturned.2
        exact ⟨entry, ⟨hmem, hpresent⟩, hnever⟩

end Early

/-- A walk to the end, during which only entries are removed that were returned before, misses nothing
if everything was returned before the first removal. In a directory of a consistent file system whose
entries have different names, an earlier removal makes it miss an entry. -/
theorem misses_nothing {s : Session} {requests : List (Caller × WalkRequest)}
    (hreturned : Along (RemovesReturned d) d (start s) requests)
    (hend : ((start s).run d requests).Ended d) :
    ((∀ x ∈ requests, Plain x) → Along (RemovesLate d) d (start s) requests →
      MissesNothing d s requests) ∧
    (Consistent s.daemon.img s.daemon.ufs →
      UfsFuse.isDir s.daemon.img s.daemon.ufs (fuseToUfs d) = true →
      ((s.daemon.listing d).map Prod.fst).Nodup → (∀ x ∈ requests, Plain x) →
      ¬Along (RemovesLate d) d (start s) requests → ¬MissesNothing d s requests) := by
  constructor
  · intro hplain hlate entry _
    have hcomplete := complete_run (w := start s) Cursor.complete_start hplain hreturned hlate
    have hall : ((start s).run d requests).returned = s.daemon.listing d :=
      hcomplete.returned_eq hend.done
    rw [hall]
  · intro hc hd hnames hplain hearly hnothing
    have htidy : Tidy d (s.daemon.listing d) (start s) :=
      ⟨hc, hd, List.Sublist.refl _, List.nil_subset _⟩
    obtain ⟨entry, hpresent, hnever⟩ := early_misses hnames htidy rfl hplain hreturned hearly
    have hcount := hnothing entry hpresent
    rw [List.count_eq_zero_of_not_mem hnever] at hcount
    exact (List.count_pos_iff.mpr hpresent.mem).ne hcount

end Steps
end Walk

/-! ## A file that sorts before "." -/
section Bang
variable {ufs : Ufs} {image image' : Bytes}

/-- The listing of a new root. -/
theorem FreshVolume.namesAt (h : FreshVolume ufs image) :
    UfsFuse.namesAt image ufs ufsRootInode = [(dotName, 2), (dotdotName, 2)] := by
  obtain ⟨T, hst, hc, -⟩ := h
  have hroot : ufsRootInode ∈ NameTree.fresh.dirs := Finset.mem_singleton_self _
  obtain ⟨es, hes, hnames⟩ := hc.namesAt hst NameTree.fresh_sound.dirs_live hroot
  have hperm : es.Perm [⟨dotName, 2⟩, ⟨dotdotName, 2⟩] := Multiset.coe_eq_coe.mp hes
  rw [hnames]
  refine (nameSorted_mergeSort _).eq_of_perm (List.Pairwise.cons ?_ (List.pairwise_singleton _ _))
    ((List.mergeSort_perm _ _).trans (shownNames_perm hperm)) (by decide)
  intro x hx
  rw [List.mem_singleton.mp hx]
  rfl

/-- The listing with the file "!" in it, and after it is removed. -/
theorem FreshVolume.bang (h : FreshVolume ufs image) {m mode uid gid timestamp : ℕ}
    (hmode : fileTypeOf mode ≠ ufsIfdir)
    (hrun : createEmptyInParent ufs ufsRootInode [33] mode uid gid timestamp image = (.ok m, image')) :
    ∃ n image'', unlinkInParent ufs ufsRootInode [33] image' = (.ok m, image'') ∧
      Consistent image' ufs ∧ isDir image' ufs ufsRootInode = true ∧
      TookName ufs ufsRootInode [33] image' image'' ∧
      UfsFuse.namesAt image' ufs ufsRootInode = [([33], n), (dotName, 2), (dotdotName, 2)] ∧
      UfsFuse.namesAt image'' ufs ufsRootInode = [(dotName, 2), (dotdotName, 2)] := by
  have hnames := h.namesAt
  have hcons := h.consistent
  obtain ⟨T, hst, hc, -⟩ := h
  have hroot : ufsRootInode ∈ NameTree.fresh.dirs := Finset.mem_singleton_self _
  have hsh := hc.shows NameTree.fresh_sound hst
  have hnew : NameTree.fresh.Fresh ufsRootInode [33] := by
    unfold NameTree.Fresh NameTree.records NameTree.fresh
    simp [dotName, dotdotName]
  have hdir := hsh.isDir.mpr hroot
  have hround := @roundTrips_of_ascii ufs image image' ufsRootInode m [33]
    (.createEmpty mode uid gid timestamp) hcons hdir (by decide) ((hsh.fresh hroot).mpr hnew) trivial
    hrun (by decide) (by decide) (decide_eq_false hmode)
  obtain ⟨image'', hunlink, hrestored⟩ := hround.restored
  obtain ⟨T', hst', hfile, -⟩ := ((createEmptyInParent_stores hc NameTree.fresh_sound hroot (by decide)
    hmode).run image hst).ok hrun
  have hsound' : (NameTree.fresh.enter ufsRootInode ⟨[33], m⟩).Sound := by
    refine NameTree.fresh_sound.enter hroot hnew (List.cons_ne_nil _ _) fun hd => hfile.fresh ?_
    exact Finset.mem_union_right _ (hc.live ▸ NameTree.fresh_sound.dirs_live hd)
  have hcons' : Consistent image' ufs := ⟨T', _, hst', hfile.carries, hsound'⟩
  have hdir' : isDir image' ufs ufsRootInode = true :=
    (hfile.carries.shows hsound' hst').isDir.mpr hroot
  have htook := unlinkInParent_tookName hcons' hdir' (by decide) hunlink
  obtain ⟨n, hperm⟩ := htook.listing
  have hnames'' := hrestored.trans hnames
  rw [hnames''] at hperm
  refine ⟨n, image'', hunlink, hcons', hdir', htook, ?_, hnames''⟩
  refine (hcons'.nameSorted hdir').eq_of_perm ?_ hperm.symm (by simp [dotName, dotdotName])
  refine List.Pairwise.cons ?_ (List.Pairwise.cons ?_ (List.pairwise_singleton _ _))
  · intro x hx
    simp only [List.mem_cons, List.not_mem_nil, or_false] at hx
    cases hx with
    | inl hx => rw [hx]; rfl
    | inr hx => rw [hx]; rfl
  · intro x hx
    rw [List.mem_singleton.mp hx]
    rfl

/-- The file "!" in the root of a mount, before and after it is removed. -/
structure Banged (s s' : Session) (n : ℕ) : Prop where
  sound : s.poisoned = false
  consistent : Consistent s.daemon.img s.daemon.ufs
  isDir : UfsFuse.isDir s.daemon.img s.daemon.ufs (fuseToUfs 1) = true
  listing : s.daemon.listing 1 = [([33], n), (dotName, 1), (dotdotName, 1)]
  unlink : s.serve (clientAt 1) (.unlink 1 [33]) = (.reply .ok, s')
  sound' : s'.poisoned = false
  consistent' : Consistent s'.daemon.img s'.daemon.ufs
  isDir' : UfsFuse.isDir s'.daemon.img s'.daemon.ufs (fuseToUfs 1) = true
  listing' : s'.daemon.listing 1 = [(dotName, 1), (dotdotName, 1)]

theorem FreshVolume.banged (h : FreshVolume ufs image) {m : ℕ}
    (hrun : createEmptyInParent ufs (fuseToUfs 1) [33] (Nat.ldiff 0o100644 0) 0 0 (systimeSecs 1) image =
      (.ok m, image')) :
    ∃ s s' n, s = (Session.mount image ufs false).run [(clientAt 1, .create 1 [33] 0o100644 0)] ∧
      Banged s s' n := by
  have hmode : fileTypeOf (Nat.ldiff 0o100644 0) ≠ ufsIfdir := by decide +kernel
  obtain ⟨n, image'', hunlink, hcons, hdir, htook, hnames, hnames'⟩ := h.bang hmode hrun
  obtain ⟨T, hst, hc, -⟩ := h
  have hroot : ufsRootInode ∈ NameTree.fresh.dirs := Finset.mem_singleton_self _
  obtain ⟨-, T', hst', hlive⟩ := createEmptyInParent_newFile hst hc NameTree.fresh_sound hroot
    (by decide) hmode hrun
  obtain ⟨st, hdone, himg, hufs, hro, -⟩ := Session.create_run (c := clientAt 1) (by decide) hrun
    (hst'.readInode hlive)
  have hroot' : fuseToUfs 1 = ufsRootInode := rfl
  rw [← hufs, ← himg, ← hroot'] at hunlink
  have hserve := @Session.serve_run ⟨st, false⟩ (clientAt 1) (.unlink 1 [33]) _ _ (by decide) rfl
    (Handler.unlink_run hro hunlink)
  refine ⟨⟨st, false⟩, _, ufsToFuse n, hdone.symm, rfl, ?_, ?_, ?_, hserve, rfl, ?_, ?_, ?_⟩
  · rwa [hufs, himg]
  · rwa [hufs, himg]
  · rw [Daemon.listing, hufs, himg, hroot', hnames]
    rfl
  · rw [hufs]
    exact htook.consistent
  · rw [hufs]
    exact htook.isDir
  · rw [Daemon.listing, hufs, hroot', hnames']
    rfl

namespace Banged
variable {s s' : Session} {n : ℕ}

theorem step_readdir (h : Banged s s' n) (room : ℕ) :
    (Walk.start s).step 1 (clientAt 1, .readdir room) =
      ⟨s, ((s.daemon.listing 1).take room).length, (s.daemon.listing 1).take room⟩ := by
  obtain ⟨replies, -, -, hstep⟩ := @Walk.step_readdir_run 1 (Walk.start s) h.sound h.consistent h.isDir
    (clientAt 1) room
  rw [hstep]
  change Walk.mk s (0 + ((s.daemon.listing 1).take room).length) _ = _
  rw [Nat.zero_add]
  rfl

theorem step_unlink (h : Banged s s' n) (offset : ℕ) (returned : List (Str × ℕ)) :
    (⟨s, offset, returned⟩ : Walk).step 1 (clientAt 1, .unlink [33]) = ⟨s', offset, returned⟩ := by
  change (⟨s, offset, returned⟩ : Walk).receive (s.serve (clientAt 1) (.unlink 1 [33])) = _
  rw [h.unlink]
  rfl

/-- Removed after the whole listing has been returned. -/
theorem late (h : Banged s s' n) :
    Walk.Along (Walk.RemovesReturned 1) 1 (Walk.start s)
      [(clientAt 1, .readdir 9), (clientAt 1, .unlink [33])] ∧
    Walk.Along (Walk.RemovesLate 1) 1 (Walk.start s)
      [(clientAt 1, .readdir 9), (clientAt 1, .unlink [33])] ∧
    ((Walk.start s).run 1 [(clientAt 1, .readdir 9), (clientAt 1, .unlink [33])]).Ended 1 := by
  have hchunk : (s.daemon.listing 1).take 9 = [([33], n), (dotName, 1), (dotdotName, 1)] := by
    rw [h.listing]
    rfl
  have hread := h.step_readdir 9
  rw [hchunk] at hread
  refine ⟨⟨fun name hname => (by cases hname), ?_, trivial⟩, ⟨?_, ?_, trivial⟩, ?_⟩
  · rw [hread]
    intro name hname
    rw [← Option.some.inj hname]
    exact ⟨congrArg Prod.fst h.unlink, n, List.mem_cons_self ..⟩
  · constructor <;> exact fun hsome => (by cases hsome)
  · rw [hread]
    refine ⟨fun _ => h.consistent, fun _ => h.isDir, fun _ => ?_⟩
    change (s.daemon.listing 1).length ≤ 3
    rw [h.listing]
    rfl
  · change (((Walk.start s).step 1 (clientAt 1, .readdir 9)).step 1
      (clientAt 1, .unlink [33])).Ended 1
    rw [hread, h.step_unlink]
    refine Walk.ended_of_done h.sound' h.consistent' h.isDir' ?_ (clientAt 1)
    change (s'.daemon.listing 1).length ≤ 3
    rw [h.listing']
    decide

/-- Removed after the first entry: the second takes its place, and is passed over. -/
theorem early (h : Banged s s' n) :
    Walk.Along (Walk.RemovesReturned 1) 1 (Walk.start s)
      [(clientAt 1, .readdir 1), (clientAt 1, .unlink [33]), (clientAt 1, .readdir 9)] ∧
    ((Walk.start s).run 1
      [(clientAt 1, .readdir 1), (clientAt 1, .unlink [33]), (clientAt 1, .readdir 9)]).Ended 1 ∧
    Walk.Present 1 (dotName, 1) (Walk.start s)
      [(clientAt 1, .readdir 1), (clientAt 1, .unlink [33]), (clientAt 1, .readdir 9)] ∧
    ((Walk.start s).run 1
      [(clientAt 1, .readdir 1), (clientAt 1, .unlink [33]), (clientAt 1, .readdir 9)]).returned =
        [([33], n), (dotdotName, 1)] := by
  have hchunk : (s.daemon.listing 1).take 1 = [([33], n)] := by
    rw [h.listing]
    rfl
  have hread := h.step_readdir 1
  rw [hchunk] at hread
  have hunlink := h.step_unlink 1 [([33], n)]
  have hsecond : (⟨s', 1, [([33], n)]⟩ : Walk).step 1 (clientAt 1, .readdir 9) =
      ⟨s', 2, [([33], n), (dotdotName, 1)]⟩ := by
    obtain ⟨replies, -, -, hstep⟩ := @Walk.step_readdir_run 1 ⟨s', 1, [([33], n)]⟩ h.sound'
      h.consistent' h.isDir' (clientAt 1) 9
    have hrest : (Walk.cursor 1 ⟨s', 1, [([33], n)]⟩).chunk 9 = [(dotdotName, 1)] := by
      change ((s'.daemon.listing 1).drop 1).take 9 = _
      rw [h.listing']
      rfl
    rw [hstep, hrest]
    rfl
  have hrun : (Walk.start s).run 1
      [(clientAt 1, .readdir 1), (clientAt 1, .unlink [33]), (clientAt 1, .readdir 9)] =
      ⟨s', 2, [([33], n), (dotdotName, 1)]⟩ := by
    change (((Walk.start s).step 1 (clientAt 1, .readdir 1)).step 1
      (clientAt 1, .unlink [33])).step 1 (clientAt 1, .readdir 9) = _
    rw [hread]
    exact (congrArg (Walk.step 1 · (clientAt 1, .readdir 9)) hunlink).trans hsecond
  have hdot : (dotName, 1) ∈ s.daemon.listing 1 := by
    rw [h.listing]
    simp
  have hdot' : (dotName, 1) ∈ s'.daemon.listing 1 := by
    rw [h.listing']
    simp
  refine ⟨⟨fun name hname => (by cases hname), ?_, fun name hname => (by cases hname), trivial⟩,
    ?_, ⟨hdot, ?_⟩, congrArg Walk.returned hrun⟩
  · rw [hread]
    intro name hname
    rw [← Option.some.inj hname]
    exact ⟨congrArg Prod.fst h.unlink, n, List.mem_cons_self ..⟩
  · rw [hrun]
    refine Walk.ended_of_done h.sound' h.consistent' h.isDir' ?_ (clientAt 1)
    change (s'.daemon.listing 1).length ≤ 2
    rw [h.listing']
    rfl
  · rw [hread]
    refine ⟨hdot, ?_⟩
    change Walk.Present 1 (dotName, 1) ((⟨s, 1, [([33], n)]⟩ : Walk).step 1 (clientAt 1, .unlink [33])) _
    rw [hunlink]
    refine ⟨hdot', ?_⟩
    rw [hsecond]
    exact hdot'

end Banged

/-- A file that sorts before "." in a blank slice. -/
theorem blank_banged : ∃ s s' n, s = (Session.mount blankImage blankUfs false).run
    [(clientAt 1, .create 1 [33] 0o100644 0)] ∧ Banged s s' n := by
  have hfresh := blankImage_formatted.fresh
  generalize blankImage = image at hfresh ⊢
  obtain ⟨-, -, m, image', hrun⟩ := @blank_createEmpty image [33] hfresh (by decide) (by decide)
    (by decide) (Nat.ldiff 0o100644 0) 0 0 (systimeSecs 1)
  exact hfresh.banged hrun

/-- Removed at the end of the walk, the file is all that is missing afterwards. -/
theorem misses_nothing_blank : ∃ s, s = (Session.mount blankImage blankUfs false).run
      [(clientAt 1, .create 1 [33] 0o100644 0)] ∧
    Walk.MissesNothing 1 s [(clientAt 1, .readdir 9), (clientAt 1, .unlink [33])] := by
  obtain ⟨s, s', n, hs, h⟩ := blank_banged
  obtain ⟨hreturned, hlate, hend⟩ := h.late
  refine ⟨s, hs, (Walk.misses_nothing hreturned hend).1 ?_ hlate⟩
  intro x hx name hname
  simp only [List.mem_cons, List.not_mem_nil, or_false] at hx
  rcases hx with rfl | rfl
  · cases hname
  · rw [← Option.some.inj hname]
    decide

/-- Removed after it was returned alone: the walk goes on with "..", and "." is never returned. -/
theorem early_removal_misses : ∃ s, s = (Session.mount blankImage blankUfs false).run
      [(clientAt 1, .create 1 [33] 0o100644 0)] ∧
    Walk.Along (Walk.RemovesReturned 1) 1 (Walk.start s)
      [(clientAt 1, .readdir 1), (clientAt 1, .unlink [33]), (clientAt 1, .readdir 9)] ∧
    ((Walk.start s).run 1
      [(clientAt 1, .readdir 1), (clientAt 1, .unlink [33]), (clientAt 1, .readdir 9)]).Ended 1 ∧
    ¬Walk.MissesNothing 1 s
      [(clientAt 1, .readdir 1), (clientAt 1, .unlink [33]), (clientAt 1, .readdir 9)] := by
  obtain ⟨s, s', n, hs, h⟩ := blank_banged
  obtain ⟨hreturned, hend, hpresent, hlist⟩ := h.early
  refine ⟨s, hs, hreturned, hend, fun hnothing => ?_⟩
  have hcount := hnothing (dotName, 1) hpresent
  rw [hlist, h.listing] at hcount
  simp [dotName, dotdotName] at hcount

end Bang

end UfsFuse
