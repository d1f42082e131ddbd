import UfsFuse.Dirent

/-!
# Entries of a directory block

The live records of a block are its entries. Removing a name and rewriting the inode of a name
change the first entry that matches; inserting puts one entry among the others.
-/
namespace UfsFuse

/-- Replace the first element that satisfies `p` by what `g` makes of it. -/
def editFirst {α : Type} (p : α → Prop) [DecidablePred p] (g : α → List α) :
    List α → Option (List α)
  | [] => none
  | a :: as => if p a then some (g a ++ as) else (editFirst p g as).map (a :: ·)

section EditFirst
variable {α : Type} {p : α → Prop} [DecidablePred p] {g : α → List α}

theorem editFirst_of_not {l : List α} (h : ∀ x ∈ l, ¬p x) : editFirst p g l = none := by
  induction l with
  | nil => rfl
  | cons a as ih =>
    rw [editFirst, if_neg (h a (by simp)), ih fun x hx => h x (by simp [hx])]
    rfl

theorem editFirst_split {a : α} {xs ys : List α} (h : ∀ x ∈ xs, ¬p x) (ha : p a) :
    editFirst p g (xs ++ a :: ys) = some (xs ++ g a ++ ys) := by
  induction xs with
  | nil => rw [List.nil_append, editFirst, if_pos ha, List.nil_append]
  | cons x xs ih =>
    rw [List.cons_append, editFirst, if_neg (h x (by simp)), ih fun y hy => h y (by simp [hy])]
    rfl

/-- The first match, or none. -/
theorem exists_first (l : List α) :
    (∀ x ∈ l, ¬p x) ∨ ∃ xs a ys, l = xs ++ a :: ys ∧ (∀ x ∈ xs, ¬p x) ∧ p a := by
  induction l with
  | nil => exact .inl fun x hx => absurd hx List.not_mem_nil
  | cons a as ih =>
    by_cases ha : p a
    · exact .inr ⟨[], a, as, rfl, fun x hx => absurd hx List.not_mem_nil, ha⟩
    · rcases ih with hn | ⟨xs, b, ys, rfl, hx, hb⟩
      · refine .inl fun x hx => ?_
        rcases List.mem_cons.mp hx with rfl | hx
        · exact ha
        · exact hn x hx
      · refine .inr ⟨a :: xs, b, ys, rfl, fun x hm => ?_, hb⟩
        rcases List.mem_cons.mp hm with rfl | hm
        · exact ha
        · exact hx x hm

theorem editFirst_append_of_not {xs ys : List α} (h : ∀ x ∈ xs, ¬p x) :
    editFirst p g (xs ++ ys) = (editFirst p g ys).map (xs ++ ·) := by
  induction xs with
  | nil => simp
  | cons x xs ih =>
    rw [List.cons_append, editFirst, if_neg (h x (by simp)), ih fun y hy => h y (by simp [hy]),
      Option.map_map]
    rfl

theorem editFirst_append_of_some {xs xs' : List α} (h : editFirst p g xs = some xs')
    (ys : List α) : editFirst p g (xs ++ ys) = some (xs' ++ ys) := by
  rcases exists_first (p := p) xs with hn | ⟨us, a, vs, rfl, hu, ha⟩
  · rw [editFirst_of_not hn] at h
    cases h
  · rw [editFirst_split hu ha] at h
    obtain rfl := Option.some.inj h
    rw [List.append_assoc, List.cons_append, editFirst_split hu ha]
    simp

/-- An edit of labelled elements, without the labels. -/
theorem editFirst_map {β : Type} {f : β → α} {g' : β → List β}
    (hg : ∀ b, (g' b).map f = g (f b)) (l : List β) :
    editFirst p g (l.map f) = (editFirst (fun b => p (f b)) g' l).map (List.map f) := by
  induction l with
  | nil => rfl
  | cons b l ih =>
    rw [List.map_cons, editFirst, editFirst, ih]
    split_ifs
    · rw [Option.map_some, List.map_append, hg]
    · rw [Option.map_map, Option.map_map]
      rfl

end EditFirst

/-- A name in a directory and the inode it stands for. -/
structure Entry where
  name : Str
  inode : ℕ
  deriving DecidableEq, Repr

/-- The live records of a chain. -/
def entriesOf (rs : List Rec) : List Entry :=
  rs.flatMap fun r => if r.inode = 0 then [] else [⟨r.name, r.inode⟩]

@[simp] theorem entriesOf_nil : entriesOf [] = [] := rfl

@[simp] theorem entriesOf_append (xs ys : List Rec) :
    entriesOf (xs ++ ys) = entriesOf xs ++ entriesOf ys := List.flatMap_append

theorem entriesOf_cons_dead {r : Rec} (h : r.inode = 0) (rs : List Rec) :
    entriesOf (r :: rs) = entriesOf rs := by
  simp [entriesOf, h]

theorem entriesOf_cons_live {r : Rec} (h : r.inode ≠ 0) (rs : List Rec) :
    entriesOf (r :: rs) = ⟨r.name, r.inode⟩ :: entriesOf rs := by
  simp [entriesOf, h]

theorem entriesOf_relength (r : Rec) (len : ℕ) (rs : List Rec) :
    entriesOf ({ r with length := len } :: rs) = entriesOf [r] ++ entriesOf rs := by
  simp [entriesOf]

theorem mem_entriesOf {e : Entry} {rs : List Rec} :
    e ∈ entriesOf rs ↔ ∃ r ∈ rs, r.inode ≠ 0 ∧ e = ⟨r.name, r.inode⟩ := by
  rw [entriesOf, List.mem_flatMap]
  refine exists_congr fun r => and_congr_right fun _ => ?_
  by_cases h : r.inode = 0 <;> simp [h]

/-- The live records of a chain that starts at `off`, with the offset of each. -/
def liveAt : ℕ → List Rec → List (ℕ × Entry)
  | _, [] => []
  | off, r :: rs =>
      (if r.inode = 0 then [] else [(off, ⟨r.name, r.inode⟩)]) ++ liveAt (off + r.length) rs

theorem liveAt_append (ys : List Rec) : ∀ (xs : List Rec) (off : ℕ),
    liveAt off (xs ++ ys) = liveAt off xs ++ liveAt (off + chainLength xs) ys := by
  intro xs
  induction xs with
  | nil => exact fun _ => rfl
  | cons r xs ih =>
    intro off
    rw [List.cons_append, liveAt, liveAt, ih, chainLength_cons, List.append_assoc, Nat.add_assoc]

theorem liveAt_cons_dead {r : Rec} (h : r.inode = 0) (off : ℕ) (rs : List Rec) :
    liveAt off (r :: rs) = liveAt (off + r.length) rs := by
  rw [liveAt, if_pos h, List.nil_append]

theorem liveAt_cons_live {r : Rec} (h : r.inode ≠ 0) (off : ℕ) (rs : List Rec) :
    liveAt off (r :: rs) = (off, ⟨r.name, r.inode⟩) :: liveAt (off + r.length) rs := by
  rw [liveAt, if_neg h, List.singleton_append]

/-- Another length of a record moves what is behind it only. -/
theorem liveAt_relength (r : Rec) (len off : ℕ) :
    liveAt off [{ r with length := len }] = liveAt off [r] := rfl

theorem liveAt_entries : ∀ (rs : List Rec) (off : ℕ), (liveAt off rs).map Prod.snd = entriesOf rs := by
  intro rs
  induction rs with
  | nil => exact fun _ => rfl
  | cons r rs ih =>
    intro off
    by_cases h : r.inode = 0
    · rw [liveAt_cons_dead h, entriesOf_cons_dead h, ih]
    · rw [liveAt_cons_live h, entriesOf_cons_live h, List.map_cons, ih]

/-- Records that are live entries with a property of theirs. -/
def Rec.Entered (p : Entry → Prop) (r : Rec) : Prop := r.inode ≠ 0 ∧ p ⟨r.name, r.inode⟩

instance (p : Entry → Prop) [DecidablePred p] : DecidablePred (Rec.Entered p) := fun r =>
  inferInstanceAs (Decidable (r.inode ≠ 0 ∧ p _))

section Entered
variable {p : Entry → Prop}

theorem not_entered : ∀ {rs : List Rec} {off : ℕ}, (∀ r ∈ rs, ¬r.Entered p) →
    ∀ x ∈ liveAt off rs, ¬p x.2 := by
  intro rs
  induction rs with
  | nil => exact fun _ x hx => absurd hx List.not_mem_nil
  | cons r rs ih =>
    intro off h x hx
    have hrest : ∀ q ∈ rs, ¬q.Entered p := fun q hq => h q (List.mem_cons_of_mem _ hq)
    by_cases h0 : r.inode = 0
    · rw [liveAt_cons_dead h0] at hx
      exact ih hrest x hx
    · rw [liveAt_cons_live h0] at hx
      cases List.mem_cons.mp hx with
      | inl hx =>
        rw [hx]
        exact fun hp => h r (List.mem_cons_self ..) ⟨h0, hp⟩
      | inr hx => exact ih hrest x hx

/-- The first live record with the property carries the first entry with it. -/
theorem editFirst_liveAt [DecidablePred p] {g : ℕ × Entry → List (ℕ × Entry)} {xs ys : List Rec}
    {r : Rec} {off : ℕ} (h : ∀ x ∈ xs, ¬x.Entered p) (hr : r.Entered p) :
    editFirst (fun x : ℕ × Entry => p x.2) g (liveAt off (xs ++ r :: ys)) =
      some (liveAt off xs ++ g (off + chainLength xs, ⟨r.name, r.inode⟩) ++
        liveAt (off + chainLength xs + r.length) ys) := by
  rw [liveAt_append, liveAt_cons_live hr.1]
  exact editFirst_split (not_entered h) hr.2

/-- An edit of the entries, with offsets. -/
theorem editFirst_entriesOf [DecidablePred p] {f : Entry → List Entry}
    {g : ℕ × Entry → List (ℕ × Entry)} (hg : ∀ x, (g x).map Prod.snd = f x.2) (rs : List Rec) :
    editFirst p f (entriesOf rs) =
      (editFirst (fun x : ℕ × Entry => p x.2) g (liveAt 0 rs)).map (List.map Prod.snd) := by
  rw [← liveAt_entries rs 0, editFirst_map hg]

end Entered

/-- A name as `remove_entry` and its kin compare it. -/
def Entry.Reads (name : Str) (e : Entry) : Prop := decodeAsciiReplace e.name = name

instance (name : Str) : DecidablePred (Entry.Reads name) := fun e =>
  inferInstanceAs (Decidable (decodeAsciiReplace e.name = name))

/-- An ASCII string: every byte is below 0x80. -/
def Ascii (name : Str) : Prop := ∀ b ∈ name, b < 0x80

instance (name : Str) : Decidable (Ascii name) := List.decidableBAll (fun b => b < 0x80) name

theorem decodeAsciiReplace_of_ascii {raw : Bytes} (h : Ascii raw) : decodeAsciiReplace raw = raw := by
  induction raw with
  | nil => rfl
  | cons b bs ih =>
    have hb : b < 0x80 := h b (by simp)
    rw [decodeAsciiReplace, List.flatMap_cons, if_pos hb]
    exact congrArg (b :: ·) (ih fun c hc => h c (by simp [hc]))

/-- A field padded with NULs. -/
theorem takeWhile_name {name : Str} (h : 0 ∉ name) (n : ℕ) :
    (name ++ Bytes.zeros n).takeWhile (· ≠ 0) = name := by
  rw [List.takeWhile_append_of_pos fun b hb => ?_]
  · have hz : (Bytes.zeros n).takeWhile (fun b => decide (b ≠ 0)) = [] := by
      cases n with
      | zero => rfl
      | succ n => rfl
    rw [hz, List.append_nil]
  · have hne : b ≠ 0 := fun he => h (he ▸ hb)
    simpa using hne

theorem ascii_of_decode {raw : Bytes} (h : Ascii (decodeAsciiReplace raw)) : Ascii raw := by
  intro b hb
  by_contra hlt
  have hm : (0xEF : UInt8) ∈ decodeAsciiReplace raw := by
    refine List.mem_flatMap.mpr ⟨b, hb, ?_⟩
    rw [if_neg hlt]
    simp
  exact absurd (h _ hm) (by decide)

/-- For an ASCII name decoding makes no difference. -/
theorem Entry.reads_iff {name : Str} (h : Ascii name) (e : Entry) : e.Reads name ↔ e.name = name := by
  constructor
  · intro he
    have ha : Ascii e.name := ascii_of_decode (he ▸ h)
    rwa [Entry.Reads, decodeAsciiReplace_of_ascii ha] at he
  · rintro rfl
    exact decodeAsciiReplace_of_ascii h

/-! ## Removing and rewriting -/

/-- A directory block: 512 bytes and the chain in them. -/
structure Block (b : Bytes) (rs : List Rec) : Prop where
  length_eq : b.length = ufsDirblksiz
  chain : Records b ufsDirblksiz 0 rs

theorem Block.records {b : Bytes} {rs : List Rec} (h : Block b rs) :
    iterDirectoryRecords b ufsDirblksiz = placed 0 rs := by
  have hr := h.chain
  have hl := h.length_eq
  rw [← hl] at hr ⊢
  exact iterDirectoryRecords_eq hr

theorem findEntryToRemove_eq (name : Str) : ∀ (rs : List Rec) (prev : Option DirEntry) (off : ℕ),
    (∀ r ∈ rs, ¬r.Entered (Entry.Reads name)) ∧
        findEntryToRemove name prev (placed off rs) = none ∨
      ∃ xs r ys before, rs = xs ++ r :: ys ∧ (∀ x ∈ xs, ¬x.Entered (Entry.Reads name)) ∧
        r.Entered (Entry.Reads name) ∧
        findEntryToRemove name prev (placed off rs) =
          some (before, r.entry (off + chainLength xs)) ∧
        (xs = [] ∧ before = prev ∨ ∃ us q, xs = us ++ [q] ∧
          (before = none ∨ before = some (q.entry (off + chainLength us)))) := by
  intro rs
  induction rs with
  | nil => exact fun _ _ => .inl ⟨fun r hr => absurd hr List.not_mem_nil, rfl⟩
  | cons r rs ih =>
    intro prev off
    by_cases hr : r.Entered (Entry.Reads name)
    · refine .inr ⟨[], r, rs, prev, rfl, fun x hx => absurd hx List.not_mem_nil, hr, ?_,
        .inl ⟨rfl, rfl⟩⟩
      rw [placed, findEntryToRemove, if_neg]
      · rfl
      · rintro (h | h)
        · exact h hr.2
        · exact hr.1 h
    · have hskip : (r.entry off).name ≠ name ∨ (r.entry off).inode = 0 := by
        by_contra hno
        obtain ⟨h1, h2⟩ := not_or.mp hno
        exact hr ⟨h2, not_not.mp h1⟩
      rw [placed, findEntryToRemove, if_pos hskip]
      rcases ih (if (r.entry off).offset % ufsDirblksiz = 0 then none else some (r.entry off))
        (off + r.length) with ⟨hn, he⟩ | ⟨xs, q, ys, before, rfl, hx, hq, he, hb⟩
      · refine .inl ⟨fun x hx => ?_, he⟩
        rcases List.mem_cons.mp hx with rfl | hx
        · exact hr
        · exact hn x hx
      · refine .inr ⟨r :: xs, q, ys, before, rfl, fun x hm => ?_, hq, ?_, .inr ?_⟩
        · rcases List.mem_cons.mp hm with rfl | hm
          · exact hr
          · exact hx x hm
        · rw [he, chainLength_cons, Nat.add_assoc]
        · rcases hb with ⟨rfl, rfl⟩ | ⟨us, u, rfl, hb⟩
          · refine ⟨[], r, rfl, ?_⟩
            split_ifs
            · exact .inl rfl
            · exact .inr rfl
          · refine ⟨r :: us, u, rfl, ?_⟩
            rwa [chainLength_cons, ← Nat.add_assoc]

theorem records_bound {b : Bytes} {stop off : ℕ} {xs ys : List Rec} {r : Rec}
    (h : Records b stop off (xs ++ r :: ys)) : r.Fits ∧ r.At b (off + chainLength xs) ∧
      off + chainLength xs + r.length + chainLength ys = stop := by
  obtain ⟨-, hf, ha, hr⟩ := Records.append.mp h
  exact ⟨hf, ha, hr.stop_eq.symm⟩

/-- A record is emptied: its place is kept by a dead record. -/
theorem Block.empty {b : Bytes} {xs ys : List Rec} {r : Rec} (h : Block b (xs ++ r :: ys)) :
    ∃ filler, encodeEntry 0 [] r.length = .ok filler ∧
      patch b (chainLength xs) filler = .ok (b.overlay (chainLength xs) filler) ∧
      Block (b.overlay (chainLength xs) filler) (xs ++ ⟨0, r.length, []⟩ :: ys) := by
  obtain ⟨hf, ha, hstop⟩ := records_bound h.chain
  have h8 := hf.length_ge
  have hl := h.length_eq
  simp only [ufsDirblksiz] at hstop hl
  obtain ⟨filler, he, hlen, hat⟩ := @encodeEntry_eq 0 r.length [] h8
  have hin : chainLength xs + filler.length ≤ b.length := by omega
  refine ⟨filler, he, patch_eq hin, ?_⟩
  constructor
  · rw [Bytes.overlay_length hin]
    exact h.length_eq
  · have hs := h.chain
    rw [← List.singleton_append, ← List.append_assoc] at hs ⊢
    refine hs.splice (Bytes.SameOutside.overlay hin (by omega) ?_) ?_
    · rw [hlen, chainLength_cons, chainLength_nil]
      omega
    · refine ⟨⟨h8, Nat.zero_le _, fun h0 => absurd rfl h0, hf.aligned⟩, ?_, ?_⟩
      · rw [Nat.zero_add]
        exact hat (by omega) (by norm_num) (by omega)
      · rw [chainLength_cons, chainLength_nil]
        rfl

/-- A record swallows the one behind it. -/
theorem Block.merge {b : Bytes} {us ys : List Rec} {q r : Rec}
    (h : Block b (us ++ q :: r :: ys)) :
    patch b (chainLength us + DirentOff.reclen) (Bytes.le 2 (q.length + r.length)) =
        .ok (b.overlay (chainLength us + DirentOff.reclen) (Bytes.le 2 (q.length + r.length))) ∧
      Block (b.overlay (chainLength us + DirentOff.reclen) (Bytes.le 2 (q.length + r.length)))
        (us ++ { q with length := q.length + r.length } :: ys) := by
  obtain ⟨hf, ha, hstop⟩ := records_bound h.chain
  have hsecond : us ++ q :: r :: ys = (us ++ [q]) ++ r :: ys := by simp
  obtain ⟨hf', -⟩ := records_bound (hsecond ▸ h.chain)
  have h8 := hf.length_ge
  have hh := hf.header
  have hl := h.length_eq
  rw [chainLength_cons] at hstop
  simp only [ufsDirblksiz, ufsDirentHeaderSize, Nat.zero_add] at hstop hl hh ha
  have hin : chainLength us + DirentOff.reclen + (Bytes.le 2 (q.length + r.length)).length ≤
      b.length := by
    simp only [DirentOff.reclen, Bytes.le_length]
    omega
  refine ⟨patch_eq hin, ?_, ?_⟩
  · rw [Bytes.overlay_length hin]
    exact h.length_eq
  · have hs := h.chain
    have hsplit : us ++ q :: r :: ys = us ++ [q, r] ++ ys := by simp
    have hsplit' : us ++ { q with length := q.length + r.length } :: ys =
      us ++ [{ q with length := q.length + r.length }] ++ ys := by simp
    rw [hsplit] at hs
    rw [hsplit']
    refine hs.splice (Bytes.SameOutside.overlay hin ?_ ?_) ?_
    · simp only [DirentOff.reclen]
      omega
    · simp only [DirentOff.reclen, Bytes.le_length, chainLength_cons, chainLength_nil]
      omega
    · refine ⟨⟨?_, hf.name_le, fun h0 => (hf.room h0).trans (Nat.le_add_right _ _),
        Nat.dvd_add hf.aligned hf'.aligned⟩, ?_, ?_⟩
      · exact hf.header.trans (Nat.le_add_right _ _)
      · rw [Nat.zero_add]
        exact ha.relength (by omega) (by omega)
      · simp only [Records, chainLength_cons, chainLength_nil]
        omega

/-- The record has room for another one of `needed` bytes. -/
def Rec.Offers (needed : ℕ) (r : Rec) : Prop :=
  r.inode = 0 ∧ r.length ≥ needed ∨ r.inode ≠ 0 ∧ r.length - ufsDirsiz r.name.length ≥ needed

/-- `remove_entry` takes away the first entry that reads as the name, which leaves room for that
name; the others stay where they are. -/
theorem removeEntry_live {b : Bytes} {rs : List Rec} (h : Block b rs) (name : Str) :
    match editFirst (fun x : ℕ × Entry => x.2.Reads name) (fun _ => []) (liveAt 0 rs) with
    | none => removeEntry b ufsDirblksiz name = .ok none
    | some live => ∃ b' rs', removeEntry b ufsDirblksiz name = .ok (some b') ∧ Block b' rs' ∧
        liveAt 0 rs' = live ∧ (Ascii name → ∃ r ∈ rs', r.Offers (ufsDirsiz name.length)) := by
  rw [removeEntry, h.records]
  rcases findEntryToRemove_eq name rs none 0 with ⟨hn, he⟩ |
    ⟨xs, r, ys, before, rfl, hx, hr, he, hb⟩
  · rw [editFirst_of_not (not_entered hn), he]
  · rw [editFirst_liveAt hx hr, he]
    dsimp only
    have hsize : Ascii name → ufsDirsiz name.length ≤ r.length := by
      intro ha
      rw [← (Entry.reads_iff ha _).mp hr.2]
      exact (records_bound h.chain).1.room hr.1
    have hempty : ∃ b' rs', (do
        let filler ← encodeEntry 0 [] (r.entry (0 + chainLength xs)).recordLength
        let updated ← patch b (r.entry (0 + chainLength xs)).offset filler
        pure (some updated)) = (.ok (some b') : Outcome Fault (Option Bytes)) ∧ Block b' rs' ∧
        liveAt 0 rs' = liveAt 0 xs ++ [] ++ liveAt (0 + chainLength xs + r.length) ys ∧
        (Ascii name → ∃ r ∈ rs', r.Offers (ufsDirsiz name.length)) := by
      obtain ⟨filler, h1, h2, h3⟩ := h.empty
      refine ⟨_, _, ?_, h3, ?_, fun ha => ⟨_, List.mem_append_right _ (List.mem_cons_self ..),
        .inl ⟨rfl, hsize ha⟩⟩⟩
      · simp only [Rec.entry, Nat.zero_add]
        rw [h1, Outcome.ok_bind, h2]
        rfl
      · rw [liveAt_append, liveAt_cons_dead rfl, List.append_nil]
    cases before with
    | none => exact hempty
    | some prev =>
      dsimp only
      obtain ⟨us, q, rfl, rfl⟩ : ∃ us q, xs = us ++ [q] ∧ prev = q.entry (0 + chainLength us) := by
        rcases hb with ⟨-, hb⟩ | ⟨us, q, hxs, hb | hb⟩
        · cases hb
        · cases hb
        · exact ⟨us, q, hxs, Option.some.inj hb⟩
      have hm : Block b (us ++ q :: r :: ys) := by
        have := h
        rwa [List.append_assoc, List.singleton_append] at this
      obtain ⟨hp, hblock⟩ := hm.merge
      obtain ⟨-, -, hstop⟩ := records_bound hm.chain
      rw [chainLength_cons] at hstop
      have hlr := (records_bound h.chain).1.length_ge
      simp only [ufsDirblksiz] at hstop
      have hsame : (q.entry (0 + chainLength us)).offset / ufsDirblksiz =
          (r.entry (0 + chainLength (us ++ [q]))).offset / ufsDirblksiz := by
        simp only [Rec.entry, ufsDirblksiz, chainLength_append, chainLength_cons, chainLength_nil]
        omega
      rw [if_pos hsame]
      have hoffer : Ascii name → ∃ x ∈ us ++ { q with length := q.length + r.length } :: ys,
          x.Offers (ufsDirsiz name.length) := by
        intro ha
        have hs := hsize ha
        have hqf := (records_bound hm.chain).1
        refine ⟨_, List.mem_append_right _ (List.mem_cons_self ..), ?_⟩
        by_cases h0 : q.inode = 0
        · exact .inl ⟨h0, hs.trans (Nat.le_add_left _ _)⟩
        · have hq := hqf.room h0
          refine .inr ⟨h0, ?_⟩
          simp only [ge_iff_le]
          omega
      refine ⟨_, _, ?_, hblock, ?_, hoffer⟩
      · simp only [Rec.entry, Nat.zero_add]
        rw [hp]
        rfl
      · rw [← List.singleton_append, liveAt_append, liveAt_append, liveAt_append, liveAt_relength,
          List.append_nil, List.append_assoc]
        simp only [chainLength_append, chainLength_cons, chainLength_nil, Nat.add_assoc, Nat.add_zero]

/-- The same without the offsets. -/
theorem removeEntry_eq {b : Bytes} {rs : List Rec} (h : Block b rs) (name : Str) :
    match editFirst (Entry.Reads name) (fun _ => []) (entriesOf rs) with
    | none => removeEntry b ufsDirblksiz name = .ok none
    | some es => ∃ b' rs', removeEntry b ufsDirblksiz name = .ok (some b') ∧ Block b' rs' ∧
        entriesOf rs' = es ∧ (Ascii name → ∃ r ∈ rs', r.Offers (ufsDirsiz name.length)) := by
  have hlive := removeEntry_live h name
  rw [@editFirst_entriesOf (Entry.Reads name) _ _ (fun _ => []) fun _ => rfl]
  cases hf : editFirst (fun x : ℕ × Entry => x.2.Reads name) (fun _ => []) (liveAt 0 rs) with
  | none =>
    rw [hf] at hlive
    exact hlive
  | some live =>
    rw [hf] at hlive
    obtain ⟨b', rs', he, hb, hl, hroom⟩ := hlive
    exact ⟨b', rs', he, hb, by rw [← liveAt_entries rs' 0, hl], hroom⟩

theorem placed_find {q : DirEntry → Bool} {p : Rec → Prop} [DecidablePred p]
    (hq : ∀ r off, q (r.entry off) = decide (p r)) : ∀ (rs : List Rec) (off : ℕ),
    (∀ r ∈ rs, ¬p r) ∧ (placed off rs).find? q = none ∨
      ∃ xs r ys, rs = xs ++ r :: ys ∧ (∀ x ∈ xs, ¬p x) ∧ p r ∧
        (placed off rs).find? q = some (r.entry (off + chainLength xs)) := by
  intro rs
  induction rs with
  | nil => exact fun _ => .inl ⟨fun r hr => absurd hr List.not_mem_nil, rfl⟩
  | cons r rs ih =>
    intro off
    by_cases hr : p r
    · refine .inr ⟨[], r, rs, rfl, fun x hx => absurd hx List.not_mem_nil, hr, ?_⟩
      rw [placed, List.find?_cons_of_pos (by rw [hq]; simpa using hr)]
      rfl
    · rw [placed, List.find?_cons_of_neg (by rw [hq]; simpa using hr)]
      rcases ih (off + r.length) with ⟨hn, he⟩ | ⟨xs, q, ys, rfl, hx, hq, he⟩
      · refine .inl ⟨fun x hx => ?_, he⟩
        rcases List.mem_cons.mp hx with rfl | hx
        · exact hr
        · exact hn x hx
      · refine .inr ⟨r :: xs, q, ys, rfl, fun x hm => ?_, hq, ?_⟩
        · rcases List.mem_cons.mp hm with rfl | hm
          · exact hr
          · exact hx x hm
        · rw [he, chainLength_cons, Nat.add_assoc]

/-- `rewrite_entry_inode` changes the inode of the first entry that reads as the name, four bytes of
it. -/
theorem rewriteEntryInode_live {b : Bytes} {rs : List Rec} (h : Block b rs) (name : Str) {ino : ℕ}
    (h0 : ino ≠ 0) (h32 : ino < 2 ^ 32) :
    match editFirst (fun x : ℕ × Entry => x.2.Reads name) (fun x => [(x.1, ⟨x.2.name, ino⟩)])
        (liveAt 0 rs) with
    | none => rewriteEntryInode b ufsDirblksiz name ino = .ok none
    | some live => ∃ off rs', off + 4 ≤ b.length ∧
        rewriteEntryInode b ufsDirblksiz name ino = .ok (some (b.overlay off (Bytes.le 4 ino))) ∧
        (∃ x ∈ liveAt 0 rs, x.2.Reads name ∧ x.1 = off) ∧
        Block (b.overlay off (Bytes.le 4 ino)) rs' ∧ liveAt 0 rs' = live := by
  rw [rewriteEntryInode, h.records]
  rcases placed_find (p := Rec.Entered (Entry.Reads name))
    (q := fun r => decide (r.inode ≠ 0 ∧ r.name = name)) (fun _ _ => rfl) rs 0 with
    ⟨hn, he⟩ | ⟨xs, r, ys, rfl, hx, hr, he⟩
  · rw [editFirst_of_not (not_entered hn), he]
  · rw [editFirst_liveAt hx hr, he]
    dsimp only
    obtain ⟨hf, ha, hstop⟩ := records_bound h.chain
    have h8 := hf.length_ge
    have hh := hf.header
    have hl := h.length_eq
    simp only [ufsDirblksiz, ufsDirentHeaderSize, Nat.zero_add] at hstop hl hh ha
    have hin : chainLength xs + (Bytes.le 4 ino).length ≤ b.length := by
      rw [Bytes.le_length]
      omega
    refine ⟨chainLength xs, xs ++ { r with inode := ino } :: ys, by rwa [Bytes.le_length] at hin, ?_,
      ⟨(chainLength xs, ⟨r.name, r.inode⟩), ?_, hr.2, rfl⟩, ⟨?_, ?_⟩, ?_⟩
    · simp only [Rec.entry, Nat.zero_add]
      rw [patch_eq hin]
      rfl
    · rw [liveAt_append, liveAt_cons_live hr.1, Nat.zero_add]
      exact List.mem_append_right _ (List.mem_cons_self ..)
    · rw [Bytes.overlay_length hin]
      exact h.length_eq
    · have hs := h.chain
      rw [← List.singleton_append, ← List.append_assoc] at hs ⊢
      refine hs.splice (Bytes.SameOutside.overlay hin (by omega) ?_) ?_
      · rw [Bytes.le_length, chainLength_cons, chainLength_nil]
        omega
      · refine ⟨⟨hf.header, hf.name_le, fun _ => hf.room hr.1, hf.aligned⟩, ?_, ?_⟩
        · rw [Nat.zero_add]
          exact ha.renumber (by omega) h32
        · rw [chainLength_cons, chainLength_nil]
          rfl
    · rw [liveAt_append, liveAt_cons_live h0, List.append_assoc, List.singleton_append]

/-- The same without the offsets. -/
theorem rewriteEntryInode_eq {b : Bytes} {rs : List Rec} (h : Block b rs) (name : Str) {ino : ℕ}
    (h0 : ino ≠ 0) (h32 : ino < 2 ^ 32) :
    match editFirst (Entry.Reads name) (fun e => [⟨e.name, ino⟩]) (entriesOf rs) with
    | none => rewriteEntryInode b ufsDirblksiz name ino = .ok none
    | some es => ∃ b' rs', rewriteEntryInode b ufsDirblksiz name ino = .ok (some b') ∧
        Block b' rs' ∧ entriesOf rs' = es := by
  have hlive := rewriteEntryInode_live h name h0 h32
  rw [@editFirst_entriesOf (Entry.Reads name) _ _ (fun x => [(x.1, ⟨x.2.name, ino⟩)]) fun _ => rfl]
  cases hf : editFirst (fun x : ℕ × Entry => x.2.Reads name) (fun x => [(x.1, ⟨x.2.name, ino⟩)])
      (liveAt 0 rs) with
  | none =>
    rw [hf] at hlive
    exact hlive
  | some live =>
    rw [hf] at hlive
    obtain ⟨off, rs', -, he, -, hb, hl⟩ := hlive
    exact ⟨_, rs', he, hb, by rw [← liveAt_entries rs' 0, hl]⟩

end UfsFuse
