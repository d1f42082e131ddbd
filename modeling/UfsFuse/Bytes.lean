import UfsFuse.Outcome

/-!
# Byte buffers

A `&[u8]` is a list of bytes. `slice` and `overlay` are the two range operations; every range
the programs use is either disjoint from, inside or around the range that was written, and one
lemma covers each case. Integers are stored least significant byte first.
-/
namespace UfsFuse

abbrev Bytes : Type := List UInt8

namespace Bytes

def zeros (n : ℕ) : Bytes := List.replicate n 0

/-- `&b[off..off + len]`, cut short at the end of the buffer. -/
def slice (b : Bytes) (off len : ℕ) : Bytes := (b.drop off).take len

/-- `b[off..off + src.len()].copy_from_slice(src)` for a range inside the buffer. -/
def overlay (b : Bytes) (off : ℕ) (src : Bytes) : Bytes :=
  b.take off ++ src ++ b.drop (off + src.length)

/-- The byte at `i`, zero past the end. -/
def byte (b : Bytes) (i : ℕ) : UInt8 := b.getD i 0

@[simp] theorem zeros_length (n : ℕ) : (zeros n).length = n := List.length_replicate

@[simp] theorem byte_zeros (n i : ℕ) : (zeros n).byte i = 0 := by
  simp only [Bytes.byte, zeros, List.getD_eq_getElem?_getD, List.getElem?_replicate]
  split_ifs <;> rfl

theorem slice_length {b : Bytes} {off len : ℕ} (h : off + len ≤ b.length) :
    (b.slice off len).length = len := by
  simp only [slice, List.length_take, List.length_drop]
  omega

theorem slice_length_le (b : Bytes) (off len : ℕ) : (b.slice off len).length ≤ len := by
  simp [slice]

theorem overlay_length {b src : Bytes} {off : ℕ} (h : off + src.length ≤ b.length) :
    (b.overlay off src).length = b.length := by
  simp only [overlay, List.length_append, List.length_take, List.length_drop]
  omega

@[simp] theorem overlay_nil (b : Bytes) (off : ℕ) : b.overlay off [] = b := by simp [overlay]

theorem byte_of_length_le {b : Bytes} {i : ℕ} (h : b.length ≤ i) : b.byte i = 0 := by
  simp [Bytes.byte, List.getD_eq_getElem?_getD, List.getElem?_eq_none h]

theorem byte_slice {b : Bytes} {off len i : ℕ} (h : i < len) :
    (b.slice off len).byte i = b.byte (off + i) := by
  simp [Bytes.byte, slice, List.getD_eq_getElem?_getD, h]

theorem byte_overlay {b src : Bytes} {off : ℕ} (h : off + src.length ≤ b.length) (i : ℕ) :
    (b.overlay off src).byte i =
      if off ≤ i ∧ i < off + src.length then src.byte (i - off) else b.byte i := by
  have ht : (b.take off).length = off := by
    rw [List.length_take]
    omega
  simp only [Bytes.byte, overlay, List.getD_eq_getElem?_getD, List.append_assoc]
  split_ifs with hi
  · rw [List.getElem?_append_right (by omega), ht, List.getElem?_append_left (by omega)]
  · by_cases hlt : i < off
    · rw [List.getElem?_append_left (by omega), List.getElem?_take_of_lt hlt]
    · rw [List.getElem?_append_right (by omega), ht, List.getElem?_append_right (by omega),
        List.getElem?_drop]
      congr 2
      omega

/-- Two buffers of one length with the same bytes are equal. -/
theorem ext_byte {a b : Bytes} (hl : a.length = b.length) (h : ∀ i < a.length, a.byte i = b.byte i) :
    a = b := by
  apply List.ext_getElem hl
  intro i ha hb
  simpa [Bytes.byte, List.getD_eq_getElem?_getD, ha, hb] using h i ha

theorem slice_overlay_disjoint {b src : Bytes} {off o n : ℕ}
    (h : off + src.length ≤ b.length) (hd : o + n ≤ off ∨ off + src.length ≤ o) :
    (b.overlay off src).slice o n = b.slice o n := by
  apply ext_byte
  · simp only [slice, List.length_take, List.length_drop, overlay_length h]
  · intro i hi
    have hin : i < n := hi.trans_le (slice_length_le _ _ _)
    rw [byte_slice hin, byte_slice hin, byte_overlay h, if_neg (by omega)]

theorem slice_overlay_inside {b src : Bytes} {off o n : ℕ}
    (h : off + src.length ≤ b.length) (ho : off ≤ o) (hn : o + n ≤ off + src.length) :
    (b.overlay off src).slice o n = src.slice (o - off) n := by
  apply ext_byte
  · rw [slice_length (by rw [overlay_length h]; omega), slice_length (by omega)]
  · intro i hi
    have hin : i < n := hi.trans_le (slice_length_le _ _ _)
    rw [byte_slice hin, byte_slice hin, byte_overlay h, if_pos (by omega)]
    congr 1
    omega

theorem slice_overlay_around {b src : Bytes} {off o n : ℕ}
    (hb : o + n ≤ b.length) (ho : o ≤ off) (hn : off + src.length ≤ o + n) :
    (b.overlay off src).slice o n = (b.slice o n).overlay (off - o) src := by
  have hs : off - o + src.length ≤ (b.slice o n).length := by
    rw [slice_length hb]
    omega
  have h : off + src.length ≤ b.length := by omega
  apply ext_byte
  · rw [slice_length (by rw [overlay_length h]; omega), overlay_length hs, slice_length hb]
  · intro i hi
    have hin : i < n := hi.trans_le (slice_length_le _ _ _)
    rw [byte_slice hin, byte_overlay h, byte_overlay hs, byte_slice hin]
    by_cases hc : off ≤ o + i ∧ o + i < off + src.length
    · rw [if_pos hc, if_pos (by omega)]
      congr 1
      omega
    · rw [if_neg hc, if_neg (by omega)]

theorem slice_slice {b : Bytes} {off len o n : ℕ} (h : o + n ≤ len) :
    (b.slice off len).slice o n = b.slice (off + o) n := by
  simp only [slice, List.drop_take, List.take_take, List.drop_drop]
  congr 1
  omega

/-- Two slices next to each other. -/
theorem slice_add (b : Bytes) (off m n : ℕ) :
    b.slice off (m + n) = b.slice off m ++ b.slice (off + m) n := by
  rw [slice, slice, slice, List.take_add, List.drop_drop]

@[simp] theorem slice_full (b : Bytes) : b.slice 0 b.length = b := by simp [slice]

theorem slice_zeros {n off len : ℕ} (h : off + len ≤ n) : (zeros n).slice off len = zeros len := by
  apply ext_byte
  · rw [slice_length (by simpa using h), zeros_length]
  · intro i hi
    rw [byte_slice (hi.trans_le (slice_length_le _ _ _)), byte_zeros, byte_zeros]

/-- Two neighbouring writes are one. -/
theorem overlay_append {b x y : Bytes} {off : ℕ} (h : off + (x ++ y).length ≤ b.length) :
    (b.overlay off x).overlay (off + x.length) y = b.overlay off (x ++ y) := by
  rw [List.length_append] at h
  have hfront : (b.take off ++ x).length = off + x.length := by
    rw [List.length_append, List.length_take]
    omega
  unfold overlay
  have hback : List.drop (off + x.length + y.length)
      (b.take off ++ x ++ b.drop (off + x.length)) = b.drop (off + (x ++ y).length) := by
    rw [← List.drop_drop, List.drop_left' hfront, List.drop_drop, List.length_append,
      Nat.add_assoc]
  rw [List.take_left' hfront, hback]
  simp only [List.append_assoc]

theorem overlay_slice_self {b : Bytes} {off len : ℕ} (h : off + len ≤ b.length) :
    b.overlay off (b.slice off len) = b := by
  have hl := slice_length h
  apply ext_byte
  · exact overlay_length (by omega)
  · intro i _
    rw [byte_overlay (by omega)]
    split_ifs with hi
    · rw [byte_slice (by omega)]
      congr 1
      omega
    · rfl

/-- `Vec::resize(n, 0)`. -/
def resize (b : Bytes) (n : ℕ) : Bytes := b.take n ++ zeros (n - b.length)

@[simp] theorem resize_length (b : Bytes) (n : ℕ) : (b.resize n).length = n := by
  simp only [resize, List.length_append, List.length_take, zeros_length]
  omega

theorem byte_resize (b : Bytes) (n i : ℕ) : (b.resize n).byte i = if i < n then b.byte i else 0 := by
  by_cases hi : i < n
  · rw [if_pos hi]
    by_cases hb : i < b.length
    · simp only [Bytes.byte, resize, List.getD_eq_getElem?_getD]
      rw [List.getElem?_append_left (by rw [List.length_take]; omega),
        List.getElem?_take_of_lt hi]
    · rw [byte_of_length_le (not_lt.mp hb)]
      simp only [resize, Bytes.byte, List.getD_eq_getElem?_getD]
      rw [List.getElem?_append_right (by rw [List.length_take]; omega), ← List.getD_eq_getElem?_getD]
      exact byte_zeros _ _
  · rw [if_neg hi, byte_of_length_le (by simpa using hi)]

@[simp] theorem resize_self (b : Bytes) : b.resize b.length = b := by simp [resize, zeros]

/-! ## Little-endian integers -/

/-- The `w` low bytes of `v`. -/
def le : ℕ → ℕ → Bytes
  | 0, _ => []
  | w + 1, v => UInt8.ofNat (v % 256) :: le w (v / 256)

def leNat : Bytes → ℕ
  | [] => 0
  | b :: bs => b.toNat + 256 * leNat bs

@[simp] theorem le_length (w v : ℕ) : (le w v).length = w := by
  induction w generalizing v with
  | zero => rfl
  | succ w ih => simp [le, ih]

theorem leNat_le (w v : ℕ) : leNat (le w v) = v % 256 ^ w := by
  induction w generalizing v with
  | zero => simp [le, leNat, Nat.mod_one]
  | succ w ih =>
    have hb : (UInt8.ofNat (v % 256)).toNat = v % 256 := by
      simp only [UInt8.toNat_ofNat']
      omega
    rw [le, leNat, ih, hb, pow_succ', Nat.mod_mul]

theorem leNat_lt (b : Bytes) : leNat b < 256 ^ b.length := by
  induction b with
  | nil => simp [leNat]
  | cons x xs ih =>
    have hx : x.toNat < 256 := x.toNat_lt
    rw [leNat, List.length_cons, pow_succ']
    omega

@[simp] theorem leNat_zeros (n : ℕ) : leNat (zeros n) = 0 := by
  induction n with
  | zero => rfl
  | succ n ih =>
    change leNat (0 :: zeros n) = 0
    simp [leNat, ih]

def u16 (b : Bytes) (off : ℕ) : ℕ := leNat (b.slice off 2)
def u32 (b : Bytes) (off : ℕ) : ℕ := leNat (b.slice off 4)
def u64 (b : Bytes) (off : ℕ) : ℕ := leNat (b.slice off 8)

def i32 (b : Bytes) (off : ℕ) : ℤ :=
  if b.u32 off < 2 ^ 31 then b.u32 off else (b.u32 off : ℤ) - 2 ^ 32

def putU16 (b : Bytes) (off v : ℕ) : Bytes := b.overlay off (le 2 v)
def putU32 (b : Bytes) (off v : ℕ) : Bytes := b.overlay off (le 4 v)
def putU64 (b : Bytes) (off v : ℕ) : Bytes := b.overlay off (le 8 v)

theorem u16_lt (b : Bytes) (off : ℕ) : b.u16 off < 2 ^ 16 :=
  (leNat_lt _).trans_le (Nat.pow_le_pow_right (by norm_num) (slice_length_le b off 2))

theorem u32_lt (b : Bytes) (off : ℕ) : b.u32 off < 2 ^ 32 :=
  (leNat_lt _).trans_le (Nat.pow_le_pow_right (by norm_num) (slice_length_le b off 4))

theorem u64_lt (b : Bytes) (off : ℕ) : b.u64 off < 2 ^ 64 :=
  (leNat_lt _).trans_le (Nat.pow_le_pow_right (by norm_num) (slice_length_le b off 8))

@[simp] theorem putU16_length {b : Bytes} {off v : ℕ} (h : off + 2 ≤ b.length) :
    (b.putU16 off v).length = b.length := overlay_length (by simpa using h)

@[simp] theorem putU32_length {b : Bytes} {off v : ℕ} (h : off + 4 ≤ b.length) :
    (b.putU32 off v).length = b.length := overlay_length (by simpa using h)

theorem u16_overlay_of_disjoint {b src : Bytes} {off o : ℕ}
    (h : off + src.length ≤ b.length) (hd : o + 2 ≤ off ∨ off + src.length ≤ o) :
    (b.overlay off src).u16 o = b.u16 o := by
  rw [u16, slice_overlay_disjoint h hd, u16]

theorem u32_overlay_of_disjoint {b src : Bytes} {off o : ℕ}
    (h : off + src.length ≤ b.length) (hd : o + 4 ≤ off ∨ off + src.length ≤ o) :
    (b.overlay off src).u32 o = b.u32 o := by
  rw [u32, slice_overlay_disjoint h hd, u32]

theorem slice_drop (b : Bytes) (k off len : ℕ) :
    slice (b.drop k) off len = b.slice (k + off) len := by
  rw [slice, slice, List.drop_drop]

theorem u16_drop (b : Bytes) (k off : ℕ) : u16 (b.drop k) off = b.u16 (k + off) := by
  rw [u16, slice_drop, u16]

theorem u32_drop (b : Bytes) (k off : ℕ) : u32 (b.drop k) off = b.u32 (k + off) := by
  rw [u32, slice_drop, u32]

theorem i32_drop (b : Bytes) (k off : ℕ) : i32 (b.drop k) off = b.i32 (k + off) := by
  rw [i32, u32_drop, i32]

theorem u16_slice {b : Bytes} {off len o : ℕ} (h : o + 2 ≤ len) :
    (b.slice off len).u16 o = b.u16 (off + o) := by rw [u16, slice_slice h, u16]

theorem u32_slice {b : Bytes} {off len o : ℕ} (h : o + 4 ≤ len) :
    (b.slice off len).u32 o = b.u32 (off + o) := by rw [u32, slice_slice h, u32]

theorem i32_slice {b : Bytes} {off len o : ℕ} (h : o + 4 ≤ len) :
    (b.slice off len).i32 o = b.i32 (off + o) := by rw [i32, u32_slice h, i32]

/-- A range put back with a change in it. -/
theorem overlay_slice_overlay {b src : Bytes} {off n o : ℕ} (h : off + n ≤ b.length)
    (ho : o + src.length ≤ n) :
    b.overlay off ((b.slice off n).overlay o src) = b.overlay (off + o) src := by
  have hs : (b.slice off n).length = n := slice_length h
  have hin : o + src.length ≤ (b.slice off n).length := by
    rw [hs]
    exact ho
  have hl := overlay_length hin
  have h1 : off + ((b.slice off n).overlay o src).length ≤ b.length := by
    rw [hl, hs]
    exact h
  have h2 : off + o + src.length ≤ b.length := by omega
  refine ext_byte ((overlay_length h1).trans (overlay_length h2).symm) fun i _ => ?_
  rw [byte_overlay h1, byte_overlay h2, hl, hs]
  by_cases hi : off ≤ i ∧ i < off + n
  · rw [if_pos hi, byte_overlay hin, byte_slice (by omega), Nat.add_sub_cancel' hi.1]
    by_cases hj : off + o ≤ i ∧ i < off + o + src.length
    · rw [if_pos hj, if_pos (by omega), Nat.sub_sub]
    · rw [if_neg hj, if_neg (by omega)]
  · rw [if_neg hi, if_neg (by omega)]

theorem slice_overlay_same {b src : Bytes} {off : ℕ} (h : off + src.length ≤ b.length) :
    (b.overlay off src).slice off src.length = src := by
  rw [slice_overlay_inside h le_rfl le_rfl, Nat.sub_self, slice_full]

theorem u16_putU16_same {b : Bytes} {off v : ℕ} (h : off + 2 ≤ b.length) :
    (b.putU16 off v).u16 off = v % 2 ^ 16 := by
  have hs := @slice_overlay_same b (le 2 v) off (by simpa using h)
  rw [le_length] at hs
  rw [u16, putU16, hs, leNat_le]
  norm_num

theorem u32_putU32_same {b : Bytes} {off v : ℕ} (h : off + 4 ≤ b.length) :
    (b.putU32 off v).u32 off = v % 2 ^ 32 := by
  have hs := @slice_overlay_same b (le 4 v) off (by simpa using h)
  rw [le_length] at hs
  rw [u32, putU32, hs, leNat_le]
  norm_num

theorem u64_putU64_same {b : Bytes} {off v : ℕ} (h : off + 8 ≤ b.length) :
    (b.putU64 off v).u64 off = v % 2 ^ 64 := by
  have hs := @slice_overlay_same b (le 8 v) off (by simpa using h)
  rw [le_length] at hs
  rw [u64, putU64, hs, leNat_le]
  norm_num

/-! ## Words -/

/-- Consecutive 32-bit words. -/
def words (vs : List ℕ) : Bytes := vs.flatMap (le 4)

@[simp] theorem words_length (vs : List ℕ) : (words vs).length = 4 * vs.length := by
  induction vs with
  | nil => rfl
  | cons v vs ih =>
    simp only [words, List.flatMap_cons, List.length_append, le_length, List.length_cons] at ih ⊢
    omega

theorem words_u32 : ∀ {vs : List ℕ} {i : ℕ}, i < vs.length →
    (words vs).u32 (i * 4) = vs.getD i 0 % 2 ^ 32 := by
  intro vs
  induction vs with
  | nil => exact fun hi => absurd hi (Nat.not_lt_zero _)
  | cons v vs ih =>
    intro i hi
    cases i with
    | zero =>
      have hs : (words (v :: vs)).slice (0 * 4) 4 = le 4 v := by
        simp only [words, List.flatMap_cons, slice, Nat.zero_mul, List.drop_zero]
        exact List.take_left' (le_length 4 v)
      rw [u32, hs, leNat_le, List.getD_cons_zero]
      norm_num
    | succ i =>
      have hs : (words (v :: vs)).slice ((i + 1) * 4) 4 = (words vs).slice (i * 4) 4 := by
        simp only [words, List.flatMap_cons, slice, Nat.succ_mul]
        have hd : (le 4 v ++ vs.flatMap (le 4)).drop (i * 4 + 4) = (vs.flatMap (le 4)).drop (i * 4) := by
          rw [Nat.add_comm, ← List.drop_drop, List.drop_left' (le_length 4 v)]
        rw [hd]
      rw [u32, hs, List.getD_cons_succ]
      exact ih (by simpa using hi)

/-- A word read inside stored words. -/
theorem u32_overlay_words {b : Bytes} {off i : ℕ} {vs : List ℕ}
    (h : off + 4 * vs.length ≤ b.length) (hi : i < vs.length) :
    (b.overlay off (words vs)).u32 (off + i * 4) = vs.getD i 0 % 2 ^ 32 := by
  rw [← words_u32 hi, u32, u32, slice_overlay_inside (by rw [words_length]; exact h) (by omega)
    (by rw [words_length]; omega), Nat.add_sub_cancel_left]

/-! ## Fields of a buffer -/

/-- Store fields one after the other, each given by its offset and its bytes. -/
def overlays (b : Bytes) (fields : List (ℕ × Bytes)) : Bytes :=
  fields.foldl (fun b field => b.overlay field.1 field.2) b

/-- Two fields do not meet. -/
def FieldsApart (f f' : ℕ × Bytes) : Prop :=
  f.1 + f.2.length ≤ f'.1 ∨ f'.1 + f'.2.length ≤ f.1

theorem overlays_length : ∀ {fields : List (ℕ × Bytes)} {b : Bytes},
    (∀ f ∈ fields, f.1 + f.2.length ≤ b.length) → (b.overlays fields).length = b.length := by
  intro fields
  induction fields with
  | nil => exact fun _ => rfl
  | cons f fields ih =>
    intro b h
    have hl : (b.overlay f.1 f.2).length = b.length := overlay_length (h f (by simp))
    have hr := @ih (b.overlay f.1 f.2) fun f' hf' => by
      rw [hl]
      exact h f' (by simp [hf'])
    exact hr.trans hl

theorem overlays_slice_apart {o n : ℕ} : ∀ {fields : List (ℕ × Bytes)} {b : Bytes},
    (∀ f ∈ fields, f.1 + f.2.length ≤ b.length) →
    (∀ f ∈ fields, o + n ≤ f.1 ∨ f.1 + f.2.length ≤ o) →
    (b.overlays fields).slice o n = b.slice o n := by
  intro fields
  induction fields with
  | nil => exact fun _ _ => rfl
  | cons f fields ih =>
    intro b h hd
    have hl : (b.overlay f.1 f.2).length = b.length := overlay_length (h f (by simp))
    have hr := @ih (b.overlay f.1 f.2) (fun f' hf' => by
      rw [hl]
      exact h f' (by simp [hf'])) fun f' hf' => hd f' (by simp [hf'])
    exact hr.trans (slice_overlay_disjoint (h f (by simp)) (hd f (by simp)))

theorem overlays_byte_apart {fields : List (ℕ × Bytes)} {b : Bytes} {i : ℕ}
    (h : ∀ f ∈ fields, f.1 + f.2.length ≤ b.length)
    (hd : ∀ f ∈ fields, i + 1 ≤ f.1 ∨ f.1 + f.2.length ≤ i) :
    (b.overlays fields).byte i = b.byte i := by
  have hs := @overlays_slice_apart i 1 fields b h hd
  have h1 : ∀ x : Bytes, (x.slice i 1).byte 0 = x.byte i := fun x => byte_slice Nat.zero_lt_one
  rw [← h1, ← h1, hs]

/-- Fields that are apart can all be read back. -/
theorem overlays_slice : ∀ {fields : List (ℕ × Bytes)} {b : Bytes},
    (∀ f ∈ fields, f.1 + f.2.length ≤ b.length) → fields.Pairwise FieldsApart →
    ∀ f ∈ fields, (b.overlays fields).slice f.1 f.2.length = f.2 := by
  intro fields
  induction fields with
  | nil => exact fun _ _ f hf => absurd hf List.not_mem_nil
  | cons f₀ fields ih =>
    intro b h hp f hf
    have hl : (b.overlay f₀.1 f₀.2).length = b.length := overlay_length (h f₀ (by simp))
    have hin : ∀ f' ∈ fields, f'.1 + f'.2.length ≤ (b.overlay f₀.1 f₀.2).length := fun f' hf' => by
      rw [hl]
      exact h f' (by simp [hf'])
    obtain ⟨hfirst, hrest⟩ := List.pairwise_cons.mp hp
    cases List.mem_cons.mp hf with
    | inl he =>
      subst he
      have hs := @overlays_slice_apart f.1 f.2.length fields _ hin hfirst
      exact hs.trans (slice_overlay_same (h f (by simp)))
    | inr hm => exact @ih _ hin hrest f hm

/-- A stored `u32` is read back. -/
theorem overlays_u32 {fields : List (ℕ × Bytes)} {b : Bytes} {o v : ℕ}
    (h : ∀ f ∈ fields, f.1 + f.2.length ≤ b.length) (hp : fields.Pairwise FieldsApart)
    (hm : (o, le 4 v) ∈ fields) : (b.overlays fields).u32 o = v % 2 ^ 32 := by
  have hs := overlays_slice h hp _ hm
  simp only [le_length] at hs
  rw [u32, hs, leNat_le]
  norm_num

theorem overlays_u16 {fields : List (ℕ × Bytes)} {b : Bytes} {o v : ℕ}
    (h : ∀ f ∈ fields, f.1 + f.2.length ≤ b.length) (hp : fields.Pairwise FieldsApart)
    (hm : (o, le 2 v) ∈ fields) : (b.overlays fields).u16 o = v % 2 ^ 16 := by
  have hs := overlays_slice h hp _ hm
  simp only [le_length] at hs
  rw [u16, hs, leNat_le]
  norm_num

/-- A word read as the signed value it was stored from. -/
theorem i32_of_u32 {b : Bytes} {off : ℕ} {v : ℤ} (h : b.u32 off = (v % 2 ^ 32).toNat) :
    b.i32 off = v.bmod (2 ^ 32) := by
  have hpos : 0 ≤ v % 2 ^ 32 := Int.emod_nonneg v (by norm_num)
  have hcast : ((v % 2 ^ 32).toNat : ℤ) = v % 2 ^ 32 := Int.toNat_of_nonneg hpos
  rw [i32, h, hcast, Int.bmod_def]
  by_cases hlt : (v % 2 ^ 32).toNat < 2 ^ 31
  · rw [if_pos hlt, if_pos]
    · norm_num
    · norm_num
      omega
  · rw [if_neg hlt, if_neg]
    · norm_num
    · norm_num
      omega

theorem overlays_i32 {fields : List (ℕ × Bytes)} {b : Bytes} {o : ℕ} {v : ℤ}
    (hin : ∀ f ∈ fields, f.1 + f.2.length ≤ b.length) (hapart : fields.Pairwise FieldsApart)
    (hmem : (o, le 4 (v % 2 ^ 32).toNat) ∈ fields) :
    (b.overlays fields).i32 o = v.bmod (2 ^ 32) := by
  refine i32_of_u32 ((overlays_u32 hin hapart hmem).trans (Nat.mod_eq_of_lt ?_))
  have hlt : v % 2 ^ 32 < 2 ^ 32 := Int.emod_lt_of_pos v (by norm_num)
  omega

/-- The ranges of fields are apart, seen from offsets and lengths alone. -/
theorem pairwise_fieldsApart {fields : List (ℕ × Bytes)} {ranges : List (ℕ × ℕ)}
    (h : (fields.map fun f => (f.1, f.2.length)) = ranges)
    (hp : ranges.Pairwise fun r r' => r.1 + r.2 ≤ r'.1 ∨ r'.1 + r'.2 ≤ r.1) :
    fields.Pairwise FieldsApart := by
  subst h
  rw [List.pairwise_map] at hp
  exact hp

theorem fields_inside {fields : List (ℕ × Bytes)} {ranges : List (ℕ × ℕ)} {n : ℕ}
    (h : (fields.map fun f => (f.1, f.2.length)) = ranges) (hr : ∀ r ∈ ranges, r.1 + r.2 ≤ n) :
    ∀ f ∈ fields, f.1 + f.2.length ≤ n := by
  subst h
  exact fun f hf => hr _ (List.mem_map.mpr ⟨f, hf, rfl⟩)

end Bytes
end UfsFuse
