import UfsFuse.Daemon

/-!
# Requests that are answered

What the parts of a handler did if they succeeded, and the session around a handler.
-/
namespace UfsFuse
namespace Handler
variable {α : Type} {st : Daemon}

theorem keeps_look (f : Daemon → Outcome Fault α) {P : Daemon → Prop} : (look f).Keeps P :=
  Act.keeps_read _

theorem keeps_orElse (e : Errno) (r : Option α) {P : Daemon → Prop} : (orElse e r).Keeps P := by
  cases r with
  | some a => exact Act.keeps_pure a
  | none => exact Act.keeps_fail _

/-- What was looked up is known in the rest of the handler. -/
theorem keeps_look_bind {β : Type} {f : Daemon → Outcome Fault α} {k : α → Handler β}
    {P : Daemon → Prop} (h : ∀ st a, P st → f st = .ok a → P (k a st).2) : (look f >>= k).Keeps P := by
  refine Act.keeps_read_bind fun st a hst ha => ?_
  cases hf : f st with
  | ok b =>
    rw [hf] at ha
    cases ha
    exact h st a hst hf
  | err e =>
    rw [hf] at ha
    cases ha
  | panic =>
    rw [hf] at ha
    cases ha

theorem onImage_ok {x : Ufs → Write α} {st st' : Daemon} {a : α}
    (h : onImage x st = (.ok a, st')) :
    ∃ img, x st.ufs st.img = (.ok a, img) ∧ st' = { st with img := img } := by
  unfold onImage at h
  rcases hx : x st.ufs st.img with ⟨b | e | _, img⟩ <;> rw [hx] at h <;> cases h
  exact ⟨img, rfl, rfl⟩

theorem onImage_run {x : Ufs → Write α} {st : Daemon} {a : α} {img : Bytes}
    (h : x st.ufs st.img = (.ok a, img)) : onImage x st = (.ok a, { st with img := img }) := by
  unfold onImage
  rw [h]

theorem look_ok {f : Daemon → Outcome Fault α} {st st' : Daemon} {a : α}
    (h : look f st = (.ok a, st')) : f st = .ok a ∧ st' = st := by
  obtain ⟨hf, rfl⟩ := Act.read_eq_ok.mp h
  refine ⟨?_, rfl⟩
  cases hfs : f st with
  | ok b =>
    rw [hfs] at hf
    exact congrArg Outcome.ok (Outcome.ok.inj hf)
  | err e =>
    rw [hfs] at hf
    cases hf
  | panic =>
    rw [hfs] at hf
    cases hf

theorem look_bind {β : Type} {f : Daemon → Outcome Fault α} {k : α → Handler β} {st : Daemon} {a : α}
    (h : f st = .ok a) : (look f >>= k) st = k a st := by
  unfold look
  apply Act.read_ok_bind
  rw [h]

theorem orElse_ok {e : Errno} {found : Option α} {st' : Daemon} {a : α}
    (h : orElse e found st = (.ok a, st')) : found = some a ∧ st' = st := by
  cases found with
  | none => exact absurd h Act.fail_ne_ok
  | some b =>
    obtain ⟨ha, hst⟩ := Prod.mk.inj h
    exact ⟨congrArg some (Outcome.ok.inj ha), hst.symm⟩

/-- A handler that changes something is only answered on a writable mount. -/
theorem writable_ok {st' : Daemon} {u : Unit} (h : writable st = (.ok u, st')) : st' = st := by
  obtain ⟨ro, st₁, hro, hrest⟩ := Act.bind_eq_ok.mp h
  obtain ⟨-, rfl⟩ := look_ok hro
  cases ro with
  | true => exact absurd hrest Act.fail_ne_ok
  | false => exact (Prod.mk.inj hrest).2.symm

theorem writable_run (h : st.readOnly = false) : writable st = (.ok (), st) := by
  refine Act.bind_eq_ok.mpr ⟨false, st, congrArg (fun ro => (Outcome.ok ro, st)) h, ?_⟩
  rfl

end Handler

namespace Session
variable {s s' : Session} {c : Caller} {req : Request}

/-- A request that was answered ran its handler. -/
theorem serve_reply {r : Reply} (hlocks : req.locks = true) (hreq : req ≠ .destroy)
    (h : s.serve c req = (.reply r, s')) :
    Handler.handle c req s.daemon = (.ok r, s'.daemon) ∧ s'.poisoned = false := by
  unfold serve at h
  by_cases hname : ∃ name ∈ req.names, ¬ByteArray.validateUTF8 ⟨name.toArray⟩
  · rw [if_pos hname] at h
    cases (Prod.mk.inj h).1
  rw [if_neg hname] at h
  cases hp : s.poisoned with
  | true =>
    rw [if_pos ⟨hp, hlocks⟩, if_neg hreq] at h
    cases (Prod.mk.inj h).1
  | false =>
    rw [if_neg (by simp [hp])] at h
    rcases hrun : Handler.handle c req s.daemon with ⟨r' | why | _, daemon⟩
    · rw [hrun] at h
      obtain ⟨hr, rfl⟩ := Prod.mk.inj h
      exact ⟨congrArg (fun r => (Outcome.ok r, daemon)) (Answer.reply.inj hr), hp⟩
    · rw [hrun] at h
      cases (Prod.mk.inj h).1
    · rw [hrun] at h
      cases (Prod.mk.inj h).1

theorem serve_run {r : Reply} {st : Daemon}
    (hnames : ∀ name ∈ req.names, ByteArray.validateUTF8 ⟨name.toArray⟩ = true)
    (hp : s.poisoned = false) (h : Handler.handle c req s.daemon = (.ok r, st)) :
    s.serve c req = (.reply r, { s with daemon := st }) := by
  have hvalid : ¬∃ name ∈ req.names, ¬ByteArray.validateUTF8 ⟨name.toArray⟩ := by
    rintro ⟨name, hname, hnot⟩
    exact hnot (hnames name hname)
  unfold serve
  rw [if_neg hvalid, if_neg (by simp [hp]), h]

/-- A session keeps what the handler keeps. -/
theorem serve_keeps {P : Daemon → Prop} (hs : P s.daemon) (h : P (Handler.handle c req s.daemon).2) :
    P (s.serve c req).2.daemon := by
  unfold serve
  by_cases hname : ∃ name ∈ req.names, ¬ByteArray.validateUTF8 ⟨name.toArray⟩
  · rw [if_pos hname]
    exact hs
  rw [if_neg hname]
  by_cases hlock : s.poisoned ∧ req.locks
  · rw [if_pos hlock]
    exact hs
  · rw [if_neg hlock]
    rcases hrun : Handler.handle c req s.daemon with ⟨r | why | _, daemon⟩
    · rw [hrun] at h
      exact h
    · rw [hrun] at h
      exact h
    · rw [hrun] at h
      exact h

end Session
end UfsFuse
