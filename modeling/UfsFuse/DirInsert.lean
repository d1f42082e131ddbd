import UfsFuse.DirBlock

/-!
# Inserting an entry

A directory body is a sequence of blocks, each with its chain. A new entry goes into a dead record
or into the slack of a live one, or else into a block of its own behind the last.
-/
namespace UfsFuse

/-- A directory body and the chains of its blocks. -/
structure Chains (body : Bytes) (blocks : List (List Rec)) : Prop where
  length_eq : body.length = blocks.length * ufsDirblksiz
  chain : ∀ k rs, blocks[k]? = some rs →
    Records body ((k + 1) * ufsDirblksiz) (k * ufsDirblksiz) rs

/-- `es'` is `es` with `e` put in. -/
def Inserted {α : Type} (es : List α) (e : α) (es' : List α) : Prop :=
  ∃ us vs, es = us ++ vs ∧ es' = us ++ e :: vs

section Inserted
variable {α β : Type} {es es' : List α} {e : α}

theorem Inserted.around (h : Inserted es e es') (xs ys : List α) :
    Inserted (xs ++ es ++ ys) e (xs ++ es' ++ ys) := by
  obtain ⟨us, vs, rfl, rfl⟩ := h
  exact ⟨xs ++ us, vs ++ ys, by simp, by simp⟩

theorem Inserted.map (h : Inserted es e es') (f : α → β) :
    Inserted (es.map f) (f e) (es'.map f) := by
  obtain ⟨us, vs, rfl, rfl⟩ := h
  exact ⟨us.map f, vs.map f, by simp, by simp⟩

end Inserted

/-! ## Slots -/

/-- The slot that a record at `off` offers. -/
def slotOf (blockOffset needed off : ℕ) (r : Rec) : Option InsertSlot :=
  if r.inode = 0 ∧ r.length ≥ needed then some ⟨blockOffset, off, r.length, none⟩
  else if r.inode ≠ 0 ∧ r.length - ufsDirsiz r.name.length ≥ needed then
    some ⟨blockOffset, off + ufsDirsiz r.name.length, r.length - ufsDirsiz r.name.length,
      some (off, ufsDirsiz r.name.length)⟩
  else none

theorem slotOf_needed {blockOffset needed off : ℕ} {r : Rec} {slot : InsertSlot}
    (h : slotOf blockOffset needed off r = some slot) : needed ≤ r.length := by
  unfold slotOf at h
  split_ifs at h with h1 h2
  · exact h1.2
  · exact h2.2.trans (Nat.sub_le _ _)

theorem scanSlots_eq {bytes : Bytes} {blockOffset limit needed : ℕ} :
    ∀ {rs : List Rec} {fuel cursor : ℕ} {found : Bool}, Records bytes limit cursor rs →
    chainLength rs ≤ fuel →
    (∃ xs r ys slot, rs = xs ++ r :: ys ∧
      slotOf blockOffset needed (cursor + chainLength xs) r = some slot ∧
      scanSlots bytes blockOffset limit needed fuel cursor found = (some slot, true)) ∨
    (∀ r ∈ rs, ¬r.Offers needed) ∧
      scanSlots bytes blockOffset limit needed fuel cursor found = (none, found || !rs.isEmpty) := by
  intro rs
  induction rs with
  | nil =>
    intro fuel cursor found h _
    have he : cursor = limit := h
    refine .inr ⟨fun r hr => absurd hr List.not_mem_nil, ?_⟩
    cases fuel with
    | zero => simp [scanSlots]
    | succ fuel =>
      rw [scanSlots, if_neg (by omega)]
      simp
  | cons r rs ih =>
    rintro fuel cursor found ⟨hf, ha, hr⟩ hfuel
    have hlen := hf.length_ge
    have hstop := hr.stop_eq
    rw [chainLength_cons] at hfuel
    obtain ⟨fuel, rfl⟩ : ∃ k, fuel = k + 1 := ⟨fuel - 1, by omega⟩
    rw [scanSlots, if_pos (by omega), decodeDirectoryHeader_eq hf ha (by omega)]
    dsimp only
    by_cases h1 : r.inode = 0 ∧ r.length ≥ needed
    · rw [if_pos h1]
      exact .inl ⟨[], r, rs, _, rfl, if_pos h1, rfl⟩
    · rw [if_neg h1]
      by_cases h2 : r.inode ≠ 0 ∧ r.length - ufsDirsiz r.name.length ≥ needed
      · rw [if_pos h2]
        exact .inl ⟨[], r, rs, _, rfl, (if_neg h1).trans (if_pos h2), rfl⟩
      · rw [if_neg h2]
        have hnext := @ih fuel (cursor + r.length) true hr (by omega)
        rcases hnext with ⟨xs, q, ys, slot, rfl, hs, he⟩ | ⟨hno, he⟩
        · refine .inl ⟨r :: xs, q, ys, slot, rfl, ?_, he⟩
          rwa [chainLength_cons, ← Nat.add_assoc]
        · refine .inr ⟨fun x hx => ?_, he.trans (by simp)⟩
          cases List.mem_cons.mp hx with
          | inl hx =>
            subst hx
            exact fun ho => ho.elim h1 h2
          | inr hx => exact hno x hx

theorem dirBlockOffsets_mul (m : ℕ) :
    dirBlockOffsets (m * ufsDirblksiz) = (List.range m).map (· * ufsDirblksiz) := by
  have h : (m * ufsDirblksiz + ufsDirblksiz - 1) / ufsDirblksiz = m := by
    simp only [ufsDirblksiz]
    omega
  rw [dirBlockOffsets, h]

/-- The slots that the blocks of a directory offer. -/
def SlotIn (blocks : List (List Rec)) (needed : ℕ) (slot : InsertSlot) : Prop :=
  ∃ k xs r ys, blocks[k]? = some (xs ++ r :: ys) ∧
    slotOf (k * ufsDirblksiz) needed (k * ufsDirblksiz + chainLength xs) r = some slot

theorem scanBlocksForSlot_eq {body : Bytes} {blocks : List (List Rec)} (h : Chains body blocks)
    (needed : ℕ) : ∀ m j, j + m ≤ blocks.length →
    (∃ slot, SlotIn blocks needed slot ∧ scanBlocksForSlot body body.length needed
      ((List.range' j m).map (· * ufsDirblksiz)) = some slot) ∨
    (∀ rs ∈ (blocks.drop j).take m, ∀ r ∈ rs, ¬r.Offers needed) ∧
      scanBlocksForSlot body body.length needed ((List.range' j m).map (· * ufsDirblksiz)) = none := by
  intro m
  induction m with
  | zero => exact fun _ _ => .inr ⟨by simp, rfl⟩
  | succ m ih =>
    intro j hj
    obtain ⟨rs, hrs⟩ : ∃ rs, blocks[j]? = some rs := ⟨blocks[j], List.getElem?_eq_getElem (by omega)⟩
    have hr := h.chain j rs hrs
    have hstop := hr.stop_eq
    have hl := h.length_eq
    simp only [ufsDirblksiz] at hr hstop hl
    rw [List.range'_succ, List.map_cons, scanBlocksForSlot]
    dsimp only [ufsDirblksiz]
    have hlim : min (j * 512 + 512) body.length = (j + 1) * 512 := by omega
    rw [hlim, if_neg (by omega)]
    rcases @scanSlots_eq body (j * 512) _ needed rs 512 _ false hr
      (show chainLength rs ≤ 512 by omega) with ⟨xs, r, ys, slot, rfl, hs, he⟩ | ⟨hno, he⟩
    · rw [he]
      exact .inl ⟨slot, ⟨j, xs, r, ys, hrs, hs⟩, rfl⟩
    · rw [he]
      have hne : rs ≠ [] := by
        rintro rfl
        rw [chainLength_nil] at hstop
        omega
      have hfound : (false || !rs.isEmpty) = true := by
        cases rs with
        | nil => exact absurd rfl hne
        | cons _ _ => rfl
      rw [hfound]
      dsimp only
      rw [if_neg (by simp)]
      refine (ih (j + 1) (by omega)).imp_right fun ⟨hrest, he'⟩ => ⟨fun qs hqs => ?_, he'⟩
      obtain ⟨hjl, hget⟩ := List.getElem?_eq_some_iff.mp hrs
      rw [List.drop_eq_getElem_cons hjl, hget, List.take_succ_cons] at hqs
      cases List.mem_cons.mp hqs with
      | inl hq =>
        subst hq
        exact hno
      | inr hq => exact hrest qs hq

theorem findInsertSlot_eq {body : Bytes} {blocks : List (List Rec)} (h : Chains body blocks)
    (hne : blocks ≠ []) (name : Str) :
    (∃ slot, SlotIn blocks (ufsDirsiz name.length) slot ∧
      findInsertSlot body body.length name = some slot) ∨
    (∀ rs ∈ blocks, ∀ r ∈ rs, ¬r.Offers (ufsDirsiz name.length)) ∧
      findInsertSlot body body.length name = if ufsDirsiz name.length ≤ ufsDirblksiz then
        some ⟨body.length, body.length, ufsDirblksiz, none⟩ else none := by
  have hl := h.length_eq
  have hpos := List.length_pos_of_ne_nil hne
  have hround : (body.length + ufsDirblksiz - 1) / ufsDirblksiz * ufsDirblksiz = body.length := by
    simp only [ufsDirblksiz] at hl ⊢
    omega
  rw [findInsertSlot]
  rw [Nat.min_self, hround, if_neg (by simp only [ufsDirblksiz] at hl; omega)]
  have hoffs : dirBlockOffsets body.length =
      (List.range' 0 blocks.length).map (· * ufsDirblksiz) := by
    rw [hl, dirBlockOffsets_mul, List.range_eq_range']
  rw [hoffs]
  rcases scanBlocksForSlot_eq h (ufsDirsiz name.length) blocks.length 0 (by omega) with
    ⟨slot, hs, he⟩ | ⟨hno, he⟩
  · rw [he]
    exact .inl ⟨slot, hs, rfl⟩
  · rw [he]
    rw [List.drop_zero, List.take_length] at hno
    exact .inr ⟨hno, rfl⟩

/-! ## The new record -/

theorem liveRec_fits {ino len : ℕ} {name : Bytes} (hn : name.length ≤ 255)
    (h : ufsDirsiz name.length ≤ len) (ha : 4 ∣ len) : (⟨ino, len, name⟩ : Rec).Fits := by
  have hd := ufsDirsiz_ge name.length
  exact ⟨by simp only [ufsDirentHeaderSize] at hd ⊢; omega, hn, fun _ => h, ha⟩

/-- Fill a free range of `len` bytes: the record, and a dead one behind it when there is room. -/
theorem fillSlot_eq {b : Bytes} {off len ino : ℕ} {name : Str} (hneed : ufsDirsiz name.length ≤ len)
    (halign : 4 ∣ len) (hin : off + len ≤ b.length) (hlen : len < 2 ^ 16) (h0 : ino ≠ 0) (h32 : ino < 2 ^ 32) :
    ∃ b', (do
        Outcome.guard (ufsDirsiz name.length ≤ len)
        let remaining := len - ufsDirsiz name.length
        if remaining ≥ 8 then do
          let filler ← encodeEntry 0 [] remaining
          let updated ← patch b (off + ufsDirsiz name.length) filler
          let record ← encodeEntry ino name (ufsDirsiz name.length)
          patch updated off record
        else do
          let record ← encodeEntry ino name (max (ufsDirsiz name.length) len)
          patch b off record) = .ok b' ∧
      Bytes.SameOutside b b' off (off + len) ∧
      (name.length ≤ 255 → ∃ rs, Records b' (off + len) off rs ∧
        liveAt off rs = [(off, ⟨name, ino⟩)]) := by
  have hge := ufsDirsiz_ge name.length
  simp only [ufsDirentHeaderSize] at hge
  rw [Outcome.guard_true hneed, Outcome.ok_bind]
  dsimp only
  by_cases h8 : len - ufsDirsiz name.length ≥ 8
  · rw [if_pos h8]
    obtain ⟨filler, hf, hfl, hfat⟩ := @encodeEntry_eq 0 (len - ufsDirsiz name.length) [] h8
    obtain ⟨record, hr, hrl, hrat⟩ := @encodeEntry_eq ino (ufsDirsiz name.length) name
      (by simp only [DirentOff.name]; omega)
    have hin1 : off + ufsDirsiz name.length + filler.length ≤ b.length := by omega
    have hl1 : (b.overlay (off + ufsDirsiz name.length) filler).length = b.length :=
      Bytes.overlay_length hin1
    have hin2 : off + record.length ≤ (b.overlay (off + ufsDirsiz name.length) filler).length := by
      omega
    refine ⟨(b.overlay (off + ufsDirsiz name.length) filler).overlay off record, ?_, ?_,
      fun hn => ?_⟩
    · rw [hf, Outcome.ok_bind, patch_eq hin1, Outcome.ok_bind, hr, Outcome.ok_bind, patch_eq hin2]
    · exact (Bytes.SameOutside.overlay hin1 (by omega) (by omega)).trans
        (Bytes.SameOutside.overlay hin2 (by omega) (by omega))
    · refine ⟨[⟨ino, ufsDirsiz name.length, name⟩, ⟨0, len - ufsDirsiz name.length, []⟩], ?_, ?_⟩
      · refine ⟨liveRec_fits hn le_rfl (ufsDirsiz_aligned _), hrat (by omega) h32 (by omega), ?_⟩
        have hdead : Records (b.overlay (off + ufsDirsiz name.length) filler) (off + len)
            (off + ufsDirsiz name.length) [⟨0, len - ufsDirsiz name.length, []⟩] := by
          refine ⟨⟨h8, Nat.zero_le _, fun h => absurd rfl h,
              Nat.dvd_sub halign (ufsDirsiz_aligned _)⟩,
            hfat (by omega) (by norm_num) (by omega), ?_⟩
          simp only [Records]
          omega
        exact hdead.outside (Bytes.SameOutside.overlay hin2 (le_refl off) le_rfl)
          (.inr (by rw [hrl]))
      · rw [liveAt_cons_live h0, liveAt_cons_dead rfl]
        rfl
  · rw [if_neg h8, Nat.max_eq_right hneed]
    obtain ⟨record, hr, hrl, hrat⟩ := @encodeEntry_eq ino len name
      (by simp only [DirentOff.name]; omega)
    have hin2 : off + record.length ≤ b.length := by omega
    refine ⟨b.overlay off record, ?_, Bytes.SameOutside.overlay hin2 le_rfl (by omega),
      fun hn => ?_⟩
    · rw [hr, Outcome.ok_bind, patch_eq hin2]
    · refine ⟨[⟨ino, len, name⟩], ⟨liveRec_fits hn hneed halign, hrat hin h32 hlen, rfl⟩, ?_⟩
      rw [liveAt_cons_live h0]
      rfl

/-- Use the slack of a live record: it shrinks to its minimum, and the new one takes the rest. -/
theorem useSlack_eq {b : Bytes} {off stop ino : ℕ} {name : Str} {r : Rec} (hf : r.Fits)
    (ha : r.At b off) (hlive : r.inode ≠ 0)
    (hneed : ufsDirsiz name.length ≤ r.length - ufsDirsiz r.name.length)
    (hstop : off + r.length = stop) (hin : stop ≤ b.length) (hlen : r.length < 2 ^ 16)
    (h0 : ino ≠ 0) (h32 : ino < 2 ^ 32) :
    ∃ b', (do
        let updated ← patch b (off + DirentOff.reclen) (Bytes.le 2 (ufsDirsiz r.name.length))
        let record ← encodeEntry ino name (r.length - ufsDirsiz r.name.length)
        patch updated (off + ufsDirsiz r.name.length) record) = .ok b' ∧
      Bytes.SameOutside b b' off stop ∧
      (name.length ≤ 255 → ∃ rs, Records b' stop off rs ∧
        liveAt off rs =
          [(off, ⟨r.name, r.inode⟩), (off + ufsDirsiz r.name.length, ⟨name, ino⟩)]) := by
  have hge := ufsDirsiz_ge name.length
  have hge' := ufsDirsiz_ge r.name.length
  have hroom := hf.room hlive
  simp only [ufsDirentHeaderSize] at hge hge'
  obtain ⟨record, hr, hrl, hrat⟩ := @encodeEntry_eq ino (r.length - ufsDirsiz r.name.length) name
    (by simp only [DirentOff.name]; omega)
  set size := ufsDirsiz r.name.length with hsize
  have hle2 : (Bytes.le 2 size).length = 2 := Bytes.le_length 2 size
  have hin1 : off + DirentOff.reclen + (Bytes.le 2 size).length ≤ b.length := by
    simp only [DirentOff.reclen]
    omega
  have hl1 : (b.overlay (off + DirentOff.reclen) (Bytes.le 2 size)).length = b.length :=
    Bytes.overlay_length hin1
  have hin2 : off + size + record.length ≤
      (b.overlay (off + DirentOff.reclen) (Bytes.le 2 size)).length := by omega
  refine ⟨(b.overlay (off + DirentOff.reclen) (Bytes.le 2 size)).overlay (off + size) record, ?_,
    ?_, fun hn => ?_⟩
  · rw [patch_eq hin1, Outcome.ok_bind, hr, Outcome.ok_bind, patch_eq hin2]
  · refine (Bytes.SameOutside.overlay hin1 (Nat.le_add_right _ _) ?_).trans
      (Bytes.SameOutside.overlay hin2 (by omega) (by omega))
    simp only [DirentOff.reclen]
    omega
  · refine ⟨[{ r with length := size }, ⟨ino, r.length - size, name⟩], ⟨?_, ?_, ?_⟩, ?_⟩
    · refine ⟨?_, hf.name_le, fun _ => le_rfl, ufsDirsiz_aligned _⟩
      simp only [ufsDirentHeaderSize]
      omega
    · have hold : ({ r with length := size } : Rec).At
          (b.overlay (off + DirentOff.reclen) (Bytes.le 2 size)) off :=
        ha.relength (by omega) (by omega)
      have hone : Records (b.overlay (off + DirentOff.reclen) (Bytes.le 2 size)) (off + size) off
          [{ r with length := size }] :=
        ⟨⟨by simp only [ufsDirentHeaderSize]; omega, hf.name_le, fun _ => le_rfl,
          ufsDirsiz_aligned _⟩, hold, rfl⟩
      exact (hone.outside (Bytes.SameOutside.overlay hin2 (le_refl (off + size)) le_rfl)
        (.inl le_rfl)).2.1
    · refine ⟨liveRec_fits hn hneed (Nat.dvd_sub hf.aligned (ufsDirsiz_aligned _)),
        hrat (by omega) h32 (by omega), ?_⟩
      simp only [Records]
      omega
    · rw [liveAt, if_neg hlive, liveAt_cons_live h0]
      rfl

/-! ## The directory with the new entry -/

theorem Chains.set {body body' : Bytes} {blocks : List (List Rec)} (h : Chains body blocks) {k : ℕ}
    {rs' : List Rec} (hs : Bytes.SameOutside body body' (k * ufsDirblksiz) ((k + 1) * ufsDirblksiz))
    (hr : Records body' ((k + 1) * ufsDirblksiz) (k * ufsDirblksiz) rs') :
    Chains body' (blocks.set k rs') := by
  constructor
  · rw [hs.length_eq, List.length_set]
    exact h.length_eq
  · intro j rs hj
    rw [List.getElem?_set] at hj
    split_ifs at hj with hkj hlt
    · obtain rfl := Option.some.inj hj
      rwa [← hkj]
    · refine (h.chain j rs hj).outside hs ?_
      simp only [ufsDirblksiz]
      omega

theorem entriesOf_flatten_split {blocks : List (List Rec)} {k : ℕ} {rs : List Rec}
    (h : blocks[k]? = some rs) : entriesOf blocks.flatten =
      entriesOf (blocks.take k).flatten ++ entriesOf rs ++ entriesOf (blocks.drop (k + 1)).flatten := by
  obtain ⟨hk, rfl⟩ := List.getElem?_eq_some_iff.mp h
  conv_lhs => rw [← List.take_append_drop k blocks, List.drop_eq_getElem_cons hk]
  rw [List.flatten_append, List.flatten_cons, entriesOf_append, entriesOf_append,
    List.append_assoc]

theorem entriesOf_flatten_set {blocks : List (List Rec)} {k : ℕ} (hk : k < blocks.length)
    (rs' : List Rec) : entriesOf (blocks.set k rs').flatten =
      entriesOf (blocks.take k).flatten ++ entriesOf rs' ++ entriesOf (blocks.drop (k + 1)).flatten := by
  rw [List.set_eq_take_append_cons_drop, if_pos hk, List.flatten_append, List.flatten_cons,
    entriesOf_append, entriesOf_append, List.append_assoc]

theorem Chains.take_length {body : Bytes} {blocks : List (List Rec)} (h : Chains body blocks) :
    ∀ k ≤ blocks.length, chainLength (blocks.take k).flatten = k * ufsDirblksiz := by
  intro k
  induction k with
  | zero => exact fun _ => (Nat.zero_mul _).symm
  | succ k ih =>
    intro hk
    have hb : blocks[k]? = some blocks[k] := List.getElem?_eq_getElem hk
    have hstop := (h.chain k _ hb).stop_eq
    rw [List.take_add_one, hb, Option.toList_some, List.flatten_append, List.flatten_singleton,
      chainLength_append, ih (by omega), hstop]

theorem liveAt_flatten_split {body : Bytes} {blocks : List (List Rec)} (h : Chains body blocks)
    {k : ℕ} {rs : List Rec} (hk : blocks[k]? = some rs) : liveAt 0 blocks.flatten =
      liveAt 0 (blocks.take k).flatten ++ liveAt (k * ufsDirblksiz) rs ++
        liveAt ((k + 1) * ufsDirblksiz) (blocks.drop (k + 1)).flatten := by
  obtain ⟨hlt, rfl⟩ := List.getElem?_eq_some_iff.mp hk
  have hstop := (h.chain k _ hk).stop_eq
  conv_lhs => rw [← List.take_append_drop k blocks, List.drop_eq_getElem_cons hlt]
  rw [List.flatten_append, List.flatten_cons, liveAt_append, liveAt_append,
    h.take_length k hlt.le, Nat.zero_add, ← hstop, List.append_assoc]

theorem liveAt_flatten_set {body : Bytes} {blocks : List (List Rec)} (h : Chains body blocks) {k : ℕ}
    (hk : k < blocks.length) {rs' : List Rec}
    (hr : k * ufsDirblksiz + chainLength rs' = (k + 1) * ufsDirblksiz) :
    liveAt 0 (blocks.set k rs').flatten =
      liveAt 0 (blocks.take k).flatten ++ liveAt (k * ufsDirblksiz) rs' ++
        liveAt ((k + 1) * ufsDirblksiz) (blocks.drop (k + 1)).flatten := by
  rw [List.set_eq_take_append_cons_drop, if_pos hk, List.flatten_append, List.flatten_cons,
    liveAt_append, liveAt_append, h.take_length k hk.le, Nat.zero_add, hr, List.append_assoc]

/-- The chains of a body with one more entry, put somewhere among the others. -/
def Enters (body' : Bytes) (blocks : List (List Rec)) (e : Entry) : Prop :=
  ∃ blocks' off, Chains body' blocks' ∧
    Inserted (liveAt 0 blocks.flatten) (off, e) (liveAt 0 blocks'.flatten)

theorem Enters.chains {body' : Bytes} {blocks : List (List Rec)} {e : Entry}
    (h : Enters body' blocks e) : ∃ blocks', Chains body' blocks' ∧
      Inserted (entriesOf blocks.flatten) e (entriesOf blocks'.flatten) := by
  obtain ⟨blocks', off, hc, hins⟩ := h
  have hm := hins.map Prod.snd
  rw [liveAt_entries, liveAt_entries] at hm
  exact ⟨blocks', hc, hm⟩

/-- The directory body with the entry in a slot of one of its blocks. -/
structure PutInBlock (body body' : Bytes) (blocks : List (List Rec)) (e : Entry) (k : ℕ) : Prop where
  k_lt : k < blocks.length
  same : Bytes.SameOutside body body' (k * ufsDirblksiz) ((k + 1) * ufsDirblksiz)
  enters : e.name.length ≤ 255 → Enters body' blocks e

/-- The directory body with the entry in a block of its own. -/
structure PutBehind (body body' : Bytes) (blocks : List (List Rec)) (e : Entry) : Prop where
  slot_eq : findInsertSlot body body.length e.name =
    some ⟨body.length, body.length, ufsDirblksiz, none⟩
  length_eq : body'.length = body.length + ufsDirblksiz
  front : body'.take body.length = body
  enters : e.name.length ≤ 255 → Enters body' blocks e

theorem PutInBlock.mk_of {body body' : Bytes} {blocks : List (List Rec)} {e : Entry} {k : ℕ}
    {xs ys mid mid' : List Rec} (h : Chains body blocks)
    (hk : blocks[k]? = some (xs ++ mid ++ ys))
    (hs : Bytes.SameOutside body body' (k * ufsDirblksiz + chainLength xs)
      (k * ufsDirblksiz + chainLength xs + chainLength mid))
    (hr : e.name.length ≤ 255 → Records body' (k * ufsDirblksiz + chainLength xs + chainLength mid)
      (k * ufsDirblksiz + chainLength xs) mid' ∧ ∃ off,
        Inserted (liveAt (k * ufsDirblksiz + chainLength xs) mid) (off, e)
          (liveAt (k * ufsDirblksiz + chainLength xs) mid')) :
    PutInBlock body body' blocks e k := by
  have hc := h.chain k _ hk
  have hstop := hc.stop_eq
  rw [chainLength_append, chainLength_append] at hstop
  have hs' : Bytes.SameOutside body body' (k * ufsDirblksiz) ((k + 1) * ufsDirblksiz) :=
    ⟨hs.length_eq, fun i hi => hs.byte_eq i (by lia)⟩
  refine ⟨(List.getElem?_eq_some_iff.mp hk).1, hs', fun hn => ?_⟩
  obtain ⟨hmid, off, hins⟩ := hr hn
  have hlen : chainLength mid' = chainLength mid := (Nat.add_left_cancel hmid.stop_eq).symm
  have hnew : k * ufsDirblksiz + chainLength (xs ++ mid' ++ ys) = (k + 1) * ufsDirblksiz := by
    rw [chainLength_append, chainLength_append, hlen]
    exact hstop.symm
  refine ⟨blocks.set k (xs ++ mid' ++ ys), off, h.set hs' (hc.splice hs hmid), ?_⟩
  rw [liveAt_flatten_split h hk, liveAt_flatten_set h (List.getElem?_eq_some_iff.mp hk).1 hnew,
    liveAt_append, liveAt_append, liveAt_append, liveAt_append, chainLength_append,
    chainLength_append, hlen]
  exact (hins.around _ _).around _ _

theorem insertEntry_eq {body : Bytes} {blocks : List (List Rec)} (h : Chains body blocks)
    (hne : blocks ≠ []) (name : Str) {ino : ℕ} (h0 : ino ≠ 0) (h32 : ino < 2 ^ 32) :
    (ufsDirblksiz < ufsDirsiz name.length ∧
      insertEntry body body.length ino name = .err (.noDirectorySlot name)) ∨
    (ufsDirsiz name.length ≤ ufsDirblksiz ∧ ∃ body', insertEntry body body.length ino name = .ok body' ∧
      ((∃ k, PutInBlock body body' blocks ⟨name, ino⟩ k) ∨ PutBehind body body' blocks ⟨name, ino⟩)) := by
  rw [insertEntry]
  rcases findInsertSlot_eq h hne name with ⟨slot, ⟨k, xs, r, ys, hk, hslot⟩, he⟩ | ⟨-, he⟩
  · rw [he]
    dsimp only
    have hc := h.chain k _ hk
    obtain ⟨hf, ha, hstop⟩ := records_bound hc
    have hklt := (List.getElem?_eq_some_iff.mp hk).1
    have hl := h.length_eq
    have hneed := slotOf_needed hslot
    have hm : (k + 1) * 512 ≤ blocks.length * 512 := Nat.mul_le_mul_right _ hklt
    simp only [ufsDirblksiz] at hstop hl
    have hsplit : xs ++ r :: ys = xs ++ [r] ++ ys := by simp
    rw [hsplit] at hk
    refine .inr ⟨by simp only [ufsDirblksiz]; omega, ?_⟩
    unfold slotOf at hslot
    split_ifs at hslot with h1 h2
    · obtain rfl := Option.some.inj hslot
      dsimp only [ufsDirblksiz]
      rw [Nat.max_eq_right hneed, Nat.max_eq_left (by omega), Nat.max_eq_left (by omega),
        Nat.sub_self, show Bytes.zeros 0 = [] from rfl, List.append_nil]
      obtain ⟨body', hb', hs, hr⟩ := @fillSlot_eq body (k * 512 + chainLength xs) r.length ino name hneed
        hf.aligned (by omega) (by omega) h0 h32
      rw [Nat.max_eq_right hneed] at hb'
      refine ⟨body', hb', .inl ⟨k, ?_⟩⟩
      by_cases hn : name.length ≤ 255
      · obtain ⟨rs, hrs, hent⟩ := hr hn
        refine @PutInBlock.mk_of _ _ _ _ _ _ _ _ rs h hk ?_ fun _ => ⟨?_, ?_⟩
        · simpa only [ufsDirblksiz, chainLength_cons, chainLength_nil, Nat.add_zero] using hs
        · simpa only [ufsDirblksiz, chainLength_cons, chainLength_nil, Nat.add_zero] using hrs
        · refine ⟨k * ufsDirblksiz + chainLength xs, ?_⟩
          simp only [ufsDirblksiz]
          rw [hent, liveAt_cons_dead h1.1]
          exact ⟨[], [], rfl, rfl⟩
      · refine @PutInBlock.mk_of _ _ _ _ _ _ _ _ [] h hk ?_ fun hn' => absurd hn' hn
        simpa only [ufsDirblksiz, chainLength_cons, chainLength_nil, Nat.add_zero] using hs
    · obtain rfl := Option.some.inj hslot
      dsimp only [ufsDirblksiz]
      have hroom := hf.room h2.1
      rw [Nat.max_eq_right h2.2, Nat.max_eq_left (by omega), Nat.max_eq_left (by omega),
        Nat.sub_self, show Bytes.zeros 0 = [] from rfl, List.append_nil]
      obtain ⟨body', hb', hs, hr⟩ := @useSlack_eq body (k * 512 + chainLength xs)
        (k * 512 + chainLength xs + r.length) ino name r hf ha h2.1 h2.2 rfl
        (by omega) (by omega) h0 h32
      refine ⟨body', hb', .inl ⟨k, ?_⟩⟩
      by_cases hn : name.length ≤ 255
      · obtain ⟨rs, hrs, hent⟩ := hr hn
        refine @PutInBlock.mk_of _ _ _ _ _ _ _ _ rs h hk ?_ fun _ => ⟨?_, ?_⟩
        · simpa only [ufsDirblksiz, chainLength_cons, chainLength_nil, Nat.add_zero] using hs
        · simpa only [ufsDirblksiz, chainLength_cons, chainLength_nil, Nat.add_zero] using hrs
        · refine ⟨k * ufsDirblksiz + chainLength xs + ufsDirsiz r.name.length, ?_⟩
          simp only [ufsDirblksiz]
          rw [hent, liveAt_cons_live h2.1]
          exact ⟨[(_, ⟨r.name, r.inode⟩)], [], rfl, rfl⟩
      · refine @PutInBlock.mk_of _ _ _ _ _ _ _ _ [] h hk ?_ fun hn' => absurd hn' hn
        simpa only [ufsDirblksiz, chainLength_cons, chainLength_nil, Nat.add_zero] using hs
  · by_cases hfit : ufsDirsiz name.length ≤ ufsDirblksiz
    · rw [if_pos hfit] at he
      rw [he]
      refine .inr ⟨hfit, ?_⟩
      dsimp only [ufsDirblksiz]
      simp only [ufsDirblksiz] at hfit
      rw [Nat.max_eq_right hfit, Nat.max_eq_right (Nat.le_add_right _ _), Nat.max_self,
        Nat.add_sub_cancel_left]
      have hlb : (body ++ Bytes.zeros 512).length = body.length + 512 := by
        rw [List.length_append, Bytes.zeros_length]
      obtain ⟨body', hb', hs, hr⟩ := @fillSlot_eq (body ++ Bytes.zeros 512) body.length 512 ino name hfit
        (by norm_num) (by omega) (by norm_num) h0 h32
      rw [Nat.max_eq_right hfit] at hb'
      have hl' : body'.length = body.length + 512 := hs.length_eq.trans hlb
      have hfront : body'.take body.length = body := by
        have h1 := hs.slice (o := 0) (n := body.length) (.inl (by omega))
        rwa [Bytes.slice, Bytes.slice, List.drop_zero, List.drop_zero, List.take_left] at h1
      refine ⟨body', hb', .inr ⟨he, hl', hfront, fun hn => ?_⟩⟩
      obtain ⟨rs, hrs, hent⟩ := hr hn
      have hl := h.length_eq
      simp only [ufsDirblksiz] at hl
      refine ⟨blocks ++ [rs], body.length, ⟨?_, ?_⟩, ?_⟩
      · rw [hl', hl, List.length_append, List.length_singleton, Nat.add_mul, Nat.one_mul]
      · intro k cs hk
        rw [List.getElem?_append] at hk
        split_ifs at hk with hlt
        · have hw := (@Records.window ((k + 1) * 512) body body' 0 body.length (fun o n ho => by
              have hsl := @Bytes.slice_slice body' 0 body.length o n ho
              have hz : body'.slice 0 body.length = body := hfront
              rwa [hz] at hsl)
            (by omega)).mp (h.chain k cs hk)
          simpa only [Nat.zero_add] using hw
        · have hkeq : k - blocks.length = 0 := by
            by_contra hne'
            rw [List.getElem?_eq_none (by simp; omega)] at hk
            cases hk
          rw [hkeq] at hk
          obtain rfl : rs = cs := by simpa using hk
          have hk' : k = blocks.length := by omega
          simp only [ufsDirblksiz]
          rw [hk', ← hl, Nat.add_mul, ← hl, Nat.one_mul]
          exact hrs
      · have hall := h.take_length blocks.length le_rfl
        rw [List.take_length] at hall
        simp only [ufsDirblksiz] at hall
        rw [List.flatten_append, liveAt_append, List.flatten_singleton, Nat.zero_add, hall, ← hl, hent]
        exact ⟨liveAt 0 blocks.flatten, [], by simp, rfl⟩
    · rw [if_neg hfit] at he
      rw [he]
      exact .inl ⟨not_le.mp hfit, rfl⟩

end UfsFuse
