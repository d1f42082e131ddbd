import UfsFuse.Mount

/-!
# Buffers over a stored tree

The daemon keeps bodies of files in buffers and writes them back later. What its clients see is one
tree all the same: the stored tree with the buffered bodies in place of the stored ones. Here is how
that tree changes with the buffers, and how a handler is followed from one part to the next.
-/
namespace UfsFuse

/-! ## The buffers over the stored tree -/

/-- Other contents for the same files. -/
def FileTree.withBody (V : FileTree) (body : ℕ → Bytes) : FileTree := { V with body := body }

/-- The stored contents beside those of the tree: what is not buffered is stored, and what is buffered
and not dirty is stored too. -/
structure Buffered (buffers : ℕ → Option FileBuf) (V : FileTree) (stored : ℕ → Bytes) : Prop where
  unbuffered : ∀ n, buffers n = none → stored n = V.body n
  live : ∀ n b, buffers n = some b → n ∈ V.names.live
  file : ∀ n b, buffers n = some b → n ∉ V.names.dirs
  data : ∀ n b, buffers n = some b → b.data = V.body n
  short : ∀ n b, buffers n = some b → b.data.length < 2 ^ 63
  clean : ∀ n b, buffers n = some b → b.dirty = false → stored n = b.data

/-- The clients of the daemon see the tree. -/
structure Daemon.Reflects (st : Daemon) (ufs : Ufs) (V : FileTree) : Prop where
  mounted : st.ufs = ufs
  writable : st.readOnly = false
  stored : ∃ stored, (V.withBody stored).Represents ufs st.img ∧ Buffered st.buffers V stored

namespace Buffered
variable {buffers : ℕ → Option FileBuf} {V : FileTree} {stored : ℕ → Bytes} {n p m : ℕ} {e : Entry}
  {i : Dinode} {data : Bytes} {name : Str}

/-- The tree changes in nothing that is buffered. -/
theorem congr (h : Buffered buffers V stored) {V' : FileTree} {stored' : ℕ → Bytes}
    (hlive : ∀ n b, buffers n = some b → n ∈ V'.names.live ∧ n ∉ V'.names.dirs)
    (hbody : ∀ n b, buffers n = some b → V'.body n = V.body n ∧ stored' n = stored n)
    (hnone : ∀ n, buffers n = none → stored' n = V'.body n) : Buffered buffers V' stored' := by
  refine ⟨hnone, fun n b hb => (hlive n b hb).1, fun n b hb => (hlive n b hb).2, fun n b hb => ?_,
    h.short, fun n b hb hd => ?_⟩
  · exact (h.data n b hb).trans (hbody n b hb).1.symm
  · exact (hbody n b hb).2.trans (h.clean n b hb hd)

theorem create (h : Buffered buffers V stored) (hm : m ∉ V.names.live) :
    Buffered buffers (V.create p ⟨name, m⟩ i data) (Function.update stored m data) := by
  refine h.congr (fun n b hb => ?_) (fun n b hb => ?_) fun n hb => ?_
  · exact ⟨Finset.mem_insert_of_mem (h.live n b hb), h.file n b hb⟩
  · have hnm : n ≠ m := fun he => hm (he ▸ h.live n b hb)
    exact ⟨Function.update_of_ne hnm _ _, Function.update_of_ne hnm _ _⟩
  · change Function.update stored m data n = Function.update V.body m data n
    rw [Function.update_apply, Function.update_apply, h.unbuffered n hb]

theorem createDir (h : Buffered buffers V stored) (hm : m ∉ V.names.live) :
    Buffered buffers (V.createDir p ⟨name, m⟩ i) stored := by
  refine h.congr (fun n b hb => ?_) (fun n b hb => ⟨rfl, rfl⟩) fun n hb => h.unbuffered n hb
  refine ⟨Finset.mem_insert_of_mem (h.live n b hb), fun hd => ?_⟩
  rcases Finset.mem_insert.mp hd with rfl | hd
  · exact hm (h.live _ b hb)
  · exact h.file n b hb hd

/-- Other names, while the buffered files keep one. -/
theorem rename (h : Buffered buffers V stored) {names : NameTree}
    (hlive : ∀ n b, buffers n = some b → n ∈ names.live) (hdirs : names.dirs ⊆ V.names.dirs) :
    Buffered buffers (V.rename names) stored :=
  h.congr (fun n b hb => ⟨hlive n b hb, fun hd => h.file n b hb (hdirs hd)⟩) (fun _ _ _ => ⟨rfl, rfl⟩)
    fun n hb => h.unbuffered n hb

theorem setAttrs (h : Buffered buffers V stored) (c : Call) : Buffered buffers (V.setAttrs c) stored :=
  h.congr (fun n b hb => ⟨h.live n b hb, h.file n b hb⟩) (fun _ _ _ => ⟨rfl, rfl⟩)
    fun n hb => h.unbuffered n hb

/-- A body is buffered, dirty or as it is stored. -/
theorem insert (h : Buffered buffers V stored) (hl : n ∈ V.names.live) (hd : n ∉ V.names.dirs)
    (hs : data.length < 2 ^ 63) {dirty : Bool} {disk : Bytes} (hdisk : dirty = false → disk = data) :
    Buffered (Function.update buffers n (some ⟨data, dirty⟩)) (V.write n data)
      (Function.update stored n disk) := by
  have hother : ∀ x, x ≠ n → Function.update buffers n (some ⟨data, dirty⟩) x = buffers x :=
    fun x hx => Function.update_of_ne hx _ _
  have hself : ∀ b, Function.update buffers n (some ⟨data, dirty⟩) n = some b → ⟨data, dirty⟩ = b := by
    intro b hb
    rw [Function.update_self] at hb
    exact Option.some.inj hb
  constructor
  · intro x hx
    rcases eq_or_ne x n with rfl | hxn
    · rw [Function.update_self] at hx
      cases hx
    · rw [hother x hxn] at hx
      rw [Function.update_of_ne hxn, h.unbuffered x hx]
      exact (Function.update_of_ne hxn _ _).symm
  · intro x b hb
    rcases eq_or_ne x n with rfl | hxn
    · exact hl
    · exact h.live x b (hother x hxn ▸ hb)
  · intro x b hb
    rcases eq_or_ne x n with rfl | hxn
    · exact hd
    · exact h.file x b (hother x hxn ▸ hb)
  · intro x b hb
    rcases eq_or_ne x n with rfl | hxn
    · rw [← hself b hb]
      exact (Function.update_self x data V.body).symm
    · rw [h.data x b (hother x hxn ▸ hb)]
      exact (Function.update_of_ne hxn _ _).symm
  · intro x b hb
    rcases eq_or_ne x n with rfl | hxn
    · rw [← hself b hb]
      exact hs
    · exact h.short x b (hother x hxn ▸ hb)
  · intro x b hb hb'
    rcases eq_or_ne x n with rfl | hxn
    · obtain rfl := hself b hb
      rw [Function.update_self]
      exact hdisk hb'
    · rw [Function.update_of_ne hxn]
      exact h.clean x b (hother x hxn ▸ hb) hb'

/-- A clean body is dropped. -/
theorem drop (h : Buffered buffers V stored) (hc : ∀ b, buffers n = some b → b.dirty = false) :
    Buffered (Function.update buffers n none) V stored := by
  have hsome : ∀ x b, Function.update buffers n none x = some b → buffers x = some b := by
    intro x b hb
    rw [Function.update_apply] at hb
    split_ifs at hb
    exact hb
  refine ⟨fun x hx => ?_, fun x b hb => h.live x b (hsome x b hb),
    fun x b hb => h.file x b (hsome x b hb), fun x b hb => h.data x b (hsome x b hb),
    fun x b hb => h.short x b (hsome x b hb), fun x b hb => h.clean x b (hsome x b hb)⟩
  cases hb : buffers x with
  | none => exact h.unbuffered x hb
  | some b =>
    have hxn : x = n := by
      by_contra hxn
      rw [Function.update_of_ne hxn, hb] at hx
      cases hx
    rw [h.clean x b hb (hc b (hxn ▸ hb)), h.data x b hb]

/-- If nothing is dirty, the tree is stored. -/
theorem settled (h : Buffered buffers V stored) (hc : ∀ n b, buffers n = some b → b.dirty = false) :
    V.withBody stored = V := by
  have hbody : stored = V.body := by
    funext n
    cases hb : buffers n with
    | none => exact h.unbuffered n hb
    | some b => rw [h.clean n b hb (hc n b hb), h.data n b hb]
  rw [hbody]
  rfl

end Buffered

/-! ## Calls on the stored tree -/

/-- The call sets attributes of an inode. -/
def Call.OnAttrs : Call → Prop
  | .setInodeMode _ _ | .setInodeOwner _ _ _ | .setInodeTimes _ _ _ _ => True
  | _ => False

/-- Attributes can always be set. -/
theorem FileTree.Represents.setAttrs {V : FileTree} {ufs : Ufs} {image : Bytes} {c : Call}
    (h : V.Represents ufs image) (hm : c.Meets image ufs) (hc : c.OnAttrs) :
    (c.perform ufs).wp image
      (fun _ t => V.Step c (V.setAttrs c) ∧ (V.setAttrs c).Represents ufs t) fun _ _ => False := by
  have hstep := h.step hm
  have hno : (c.perform ufs).wp image (fun _ _ => True) fun _ _ => False := by
    obtain ⟨T, hi, h⟩ := h
    have hsh := h.carries.shows h.sound hi
    have hlive : ∀ {n}, inUse image ufs n = true → n ∈ T.live := fun hn =>
      h.live.mpr ((hsh.live _).mp hn)
    cases c with
    | setInodeMode n mode =>
      exact ((setInodeMode_stores (hlive hm.1)).run image hi).mono (fun _ _ _ => trivial) fun _ _ => id
    | setInodeOwner n uid gid =>
      exact ((setInodeOwner_stores (hlive hm)).run image hi).mono (fun _ _ _ => trivial) fun _ _ => id
    | setInodeTimes n atime mtime ctime =>
      exact ((setInodeTimes_stores (hlive hm)).run image hi).mono (fun _ _ _ => trivial) fun _ _ => id
    | _ => exact hc.elim
  refine (hstep.and hno).mono (fun _ t ht => ?_) fun _ _ he => he.2
  obtain ⟨⟨V', hs, hV'⟩, -⟩ := ht
  cases hs with
  | setInodeMode hl => exact ⟨.setInodeMode hl, hV'⟩
  | setInodeOwner hl => exact ⟨.setInodeOwner hl, hV'⟩
  | setInodeTimes hl => exact ⟨.setInodeTimes hl, hV'⟩
  | _ => exact hc.elim

namespace Act
variable {ε σ α : Type} {s : σ} {x : Act ε σ α}

theorem wp_of_discard {Q : σ → Prop} {E : ε → σ → Prop}
    (h : (discard x : Act ε σ Unit).wp s (fun _ t => Q t) E) : x.wp s (fun _ t => Q t) E := by
  have hd : (discard x : Act ε σ Unit) = x >>= fun _ => pure () := rfl
  rw [hd, wp_bind] at h
  exact h

end Act

/-! ## Handlers -/

namespace Handler
variable {α β : Type} {st : Daemon} {Q : β → Daemon → Prop} {E : Refusal → Daemon → Prop}

theorem wp_look_bind {f : Daemon → Outcome Fault α} {k : α → Handler β} {a : α} (h : f st = .ok a) :
    (look f >>= k).wp st Q E ↔ (k a).wp st Q E := by
  unfold Act.wp
  rw [look_bind h]

/-- A part of the state is looked at. -/
theorem wp_get_bind {f : Daemon → α} {k : α → Handler β} :
    (look (fun st => .ok (f st)) >>= k).wp st Q E ↔ (k (f st)).wp st Q E := wp_look_bind rfl

theorem wp_some_bind {e : Errno} {a : α} {k : α → Handler β} :
    (orElse e (some a) >>= k).wp st Q E ↔ (k a).wp st Q E := Act.wp_bind _ _

theorem wp_modify_bind {f : Daemon → Daemon} {k : Unit → Handler β} :
    (modify f >>= k).wp st Q E ↔ (k ()).wp (f st) Q E := Act.wp_bind _ _

theorem wp_newHandle_bind {n : ℕ} {k : ℕ → Handler β} : (newHandle n >>= k).wp st Q E ↔
    (k st.nextFh).wp { st with
      nextFh := st.nextFh + 1
      handles := (st.nextFh, n) :: st.handles.filter (·.1 ≠ st.nextFh) } Q E := Act.wp_bind _ _

theorem wp_onImage {x : Ufs → Write β}
    (h : (x st.ufs).wp st.img (fun b t => Q b { st with img := t })
      fun e t => E (.fault e) { st with img := t }) : (onImage x).wp st Q E := by
  rcases hx : x st.ufs st.img with ⟨b | e | _, t⟩
  · rw [Act.wp, onImage_run hx]
    exact h.ok hx
  · have hrun : onImage x st = (.err (.fault e), { st with img := t }) := by
      rw [onImage, hx]
    rw [Act.wp, hrun]
    exact h.err hx
  · exact absurd hx h.no_panic

theorem wp_writable_bind (h : st.readOnly = false) {k : Unit → Handler β} :
    (writable >>= k).wp st Q E ↔ (k ()).wp st Q E := by
  rw [Act.wp_bind]
  unfold Act.wp
  rw [writable_run h]

end Handler

namespace Daemon.Reflects
variable {st : Daemon} {ufs : Ufs} {V : FileTree} {n : ℕ}

theorem onImage (h : st.Reflects ufs V) (V' : FileTree) {t : Bytes} {stored : ℕ → Bytes}
    (hV : (V'.withBody stored).Represents ufs t) (hb : Buffered st.buffers V' stored) :
    ({ st with img := t } : Daemon).Reflects ufs V' := ⟨h.mounted, h.writable, stored, hV, hb⟩

theorem readFrom (h : st.Reflects ufs V) :
    ∃ stored, (V.withBody stored).ReadFrom st.ufs st.img ∧ Buffered st.buffers V stored := by
  obtain ⟨rfl, -, stored, hV, hb⟩ := h
  exact ⟨stored, hV.readFrom, hb⟩

theorem inUse (h : st.Reflects ufs V) : UfsFuse.inUse st.img st.ufs n = true ↔ n ∈ V.names.live := by
  obtain ⟨stored, hr, -⟩ := h.readFrom
  exact hr.inUse n

theorem isDir (h : st.Reflects ufs V) : UfsFuse.isDir st.img st.ufs n = true ↔ n ∈ V.names.dirs := by
  obtain ⟨stored, hr, -⟩ := h.readFrom
  exact hr.isDir n

theorem isFile (h : st.Reflects ufs V) (hf : IsFile st.img st.ufs n) :
    n ∈ V.names.live ∧ n ∉ V.names.dirs := by
  refine ⟨h.inUse.mp hf.1, fun hd => ?_⟩
  have hno := hf.2
  rw [h.isDir.mpr hd] at hno
  cases hno

theorem sound (h : st.Reflects ufs V) : V.names.Sound := by
  obtain ⟨-, -, stored, ⟨T, -, hin⟩, -⟩ := h
  exact hin.sound

theorem isDirectory (h : st.Reflects ufs V) (hn : n ∈ V.names.live) :
    (V.attrs n).isDirectory = true ↔ n ∈ V.names.dirs := by
  obtain ⟨-, -, stored, ⟨T, -, hin⟩, -⟩ := h
  have hattrs := congrArg (fun i : Dinode => i.isDirectory) (hin.attrs n hn)
  have hsame : (T.file n).inode.isDirectory = (V.attrs n).isDirectory := hattrs
  rw [← hsame]
  exact hin.carries.isDir n hn

/-- The inode of a file, with the attributes of the tree. -/
theorem readInode (h : st.Reflects ufs V) (hn : n ∈ V.names.live) : ∃ i : Dinode,
    UfsFuse.readInode st.img st.ufs n = some i.toInode ∧ i.attrs = V.attrs n ∧
      i.nlink = V.names.links n := by
  obtain ⟨stored, hr, -⟩ := h.readFrom
  exact ⟨_, hr.inode n hn⟩

/-- The attributes of a file, with the size of its buffered body. -/
theorem attrFor (h : st.Reflects ufs V) (hn : n ∈ V.names.live) :
    ∃ attr, st.attrFor n = some attr ∧ V.Attr ufs.sb.bsize n attr := by
  have hmounted := h.mounted
  obtain ⟨stored, hr, hb⟩ := h.readFrom
  obtain ⟨hread, hattrs, hnlink⟩ := hr.inode n hn
  refine ⟨_, ?_, dinodeAt st.img st.ufs n, hattrs, hnlink,
    ((st.buffers n).map fun b => b.data.length).getD (dinodeAt st.img st.ufs n).size, fun hd => ?_, rfl⟩
  · rw [Daemon.attrFor, hread, hmounted]
    rfl
  · cases hbuf : st.buffers n with
    | none =>
      have hbody : V.body n = stored n := (hb.unbuffered n hbuf).symm
      rw [hbody]
      exact (hr.body n hn hd).2
    | some b =>
      rw [← hb.data n b hbuf]
      rfl

end Daemon.Reflects

end UfsFuse
