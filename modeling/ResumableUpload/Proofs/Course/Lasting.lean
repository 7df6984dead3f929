import ResumableUpload.Proofs.Course.Ledger

/-
  Lasting — what holds from a moment on

  Some things are true of a course only from a moment on: that an upload is
  gone, that a pump serves nobody any more, that a caller was told to rely on a
  pump. They last if every change of a sound view keeps them.

  What is held:
    1. `Sound` — what the views of all runs obey.
    2. `Registry.Holds` — a registration that was not removed; `Gone` — one that
       was.

  What is proved:
    1. `sound_run` — every run is sound; `keep_onward` — what every change of a
       sound view keeps lasts.
    2. `registry_change`, `history_change` — what a change does to the records,
       and of which registration it tells.
    3. `holds_change`, `gone_change` — a registration that was removed does not
       come back; `nextId_change` and `nextPump_change` — no number is given
       twice.
-/

namespace ResumableUpload

/-- What the views of all runs obey. -/
structure Sound (ceiling : Nat) (v : View) : Prop where
  identity : Identity v
  numbering : Numbering v
  slots : Slots ceiling v
  ledgers : Ledgers v

theorem sound_change {ceiling : Nat} {v w : View} (hc : Change ceiling v w) (h : Sound ceiling v) :
    Sound ceiling w where
  identity := identity_change hc h.identity
  numbering := numbering_change hc h.numbering
  slots := slots_change hc h.identity h.slots
  ledgers := ledgers_change hc h.identity h.slots h.ledgers

/-- A course with a sound view. -/
abbrev Course.Sound (c : Course) : Prop := ResumableUpload.Sound c.engine.slots.ceiling c.view

namespace Course

theorem Sound.run {c : Course} (h : c.Sound) (moves : List Move) : (c.run moves).Sound := by
  show ResumableUpload.Sound (c.run moves).engine.slots.ceiling _
  rw [(later_run c moves).engine.slots]
  exact keep_run (fun _ _ => sound_change) h moves

theorem sound_run (e : Engine) (hempty : e.registry = .empty) (moves : List Move) :
    ((new e).run moves).Sound :=
  Sound.run ⟨identity_run e hempty [], numbering_run e [], slots_run e hempty [],
    ledgers_run e hempty []⟩ moves

/-- From a sound view on, what every change of a sound view keeps lasts. -/
theorem keep_onward {P : View → Prop} {c : Course} (hsound : c.Sound)
    (hkeep : ∀ v w, Change c.engine.slots.ceiling v w →
      ResumableUpload.Sound c.engine.slots.ceiling v → P v → P w)
    (hstart : P c.view) (moves : List Move) : P (c.run moves).view := by
  refine (keep_run (P := fun v => ResumableUpload.Sound c.engine.slots.ceiling v ∧ P v) ?_
    ⟨hsound, hstart⟩ moves).2
  intro v w hc h
  exact ⟨sound_change hc h.1, hkeep v w hc h.1 h.2⟩

end Course

/-! ## Registrations that are not removed -/

namespace Registry

/-- The registration is one of the uploads in progress. -/
def Holds (g : Registry) (id : UploadId) : Prop := ∃ q r, g.find? q = some r ∧ r.id = id

end Registry

/-- A change registers or removes an upload, or changes one that keeps its number and its size. -/
theorem registry_change {ceiling : Nat} {v w : View} (hc : Change ceiling v w) :
    w.registry = v.registry ∨
    (∃ path change keeps, w.registry = v.registry.modify path change keeps ∧
      ∀ r, (change r).id = r.id ∧ (change r).size = r.size) ∨
    (∃ path size owner clientPath t,
      v.registry.register path size owner clientPath = .ok (w.registry, t)) ∨
    ∃ path r, v.registry.find? path = some r ∧ w.registry = v.registry.remove path ∧
      w.history = v.history.noting r.id [.told (.removed path)] := by
  have hsame : ∀ r : Record, r.id = r.id ∧ r.size = r.size := fun _ => ⟨rfl, rfl⟩
  cases hc with
  | register hreg => exact .inr (.inr (.inl ⟨_, _, _, _, _, hreg⟩))
  | @accept path r f hr hfit =>
    exact .inr (.inl ⟨path, fun r => r.enqueue f, fun _ => rfl, rfl, hsame⟩)
  | @grant path r hr hfree hroom =>
    exact .inr (.inl ⟨path, fun r => r.withWriting true, fun _ => rfl, rfl, hsame⟩)
  | @take n path id r f queue rest hh hr hpop =>
    exact .inr (.inl ⟨path, fun r => r.withQueue queue, fun _ => rfl, rfl, hsame⟩)
  | @release n path id r rest hh hr hempty =>
    exact .inr (.inl ⟨path, fun r => r.withWriting false, fun _ => rfl, rfl, hsame⟩)
  | @write n path id r f rest hh hr =>
    exact .inr (.inl ⟨path, fun r => r.recordWrite f.range, fun _ => rfl, rfl, hsame⟩)
  | @abandon n path id r f rest hh hr =>
    exact .inr (.inl ⟨path, fun r => r.withWriting false, fun _ => rfl, rfl, hsame⟩)
  | remove hr => exact .inr (.inr (.inr ⟨_, _, hr, rfl, rfl⟩))
  | _ => exact .inl rfl

/-- A change notes something of one registration; it tells events only of one that is there, or that
comes with it. -/
theorem history_change {ceiling : Nat} {v w : View} (hc : Change ceiling v w) :
    ∃ id log, w.history = v.history.noting id log ∧
      (log.told = [] ∨ v.registry.Holds id ∨ id = v.registry.nextId) := by
  have hquiet : ∃ id log, v.history = v.history.noting id log ∧
      (log.told = [] ∨ v.registry.Holds id ∨ id = v.registry.nextId) :=
    ⟨0, [], (History.noting_nil _ _).symm, .inl rfl⟩
  have howned : ∀ {path id r}, v.registry.owned? path id = some r → v.registry.Holds id := by
    intro path id r hr
    exact ⟨path, r, Registry.owned?_eq_some_iff.mp hr⟩
  cases hc with
  | register hreg =>
    obtain ⟨-, -, rfl⟩ := Registry.register_eq_ok hreg
    exact ⟨_, _, rfl, .inr (.inr rfl)⟩
  | accept hr hfit => exact ⟨_, _, rfl, .inl rfl⟩
  | write hh hr => exact ⟨_, _, rfl, .inr (.inl (howned hr))⟩
  | fail cause hh hr => exact ⟨_, _, rfl, .inr (.inl (howned hr))⟩
  | abandon hh hr => exact ⟨_, _, rfl, .inl rfl⟩
  | stray hh hr => exact ⟨_, _, rfl, .inl rfl⟩
  | remove hr => exact ⟨_, _, rfl, .inr (.inl ⟨_, _, hr, rfl⟩)⟩
  | _ => exact hquiet

/-- No registration comes back, and none takes a number that was given. -/
theorem holds_change {ceiling : Nat} {v w : View} (hc : Change ceiling v w) {id : UploadId}
    (hid : w.registry.Holds id) : v.registry.Holds id ∨ v.registry.nextId ≤ id := by
  obtain ⟨q, s, hs, rfl⟩ := hid
  rcases registry_change hc with hw | ⟨path, change, keeps, hw, hkeep⟩ | ⟨_, _, _, _, _, hreg⟩ |
    ⟨path, r, -, hw, -⟩
  · rw [hw] at hs
    exact .inl ⟨q, s, hs, rfl⟩
  · rw [hw] at hs
    obtain ⟨r, hr, hrs⟩ := Identity.find?_of_modify (fun r => (hkeep r).1) q s hs
    exact .inl ⟨q, r, hr, hrs⟩
  · obtain ⟨-, rfl⟩ | ⟨-, hs⟩ := Registry.find?_register_some hreg hs
    · exact .inr (Nat.le_refl _)
    · exact .inl ⟨q, s, hs, rfl⟩
  · rw [hw] at hs
    exact .inl ⟨q, s, (Registry.find?_remove_some hs).2, rfl⟩

/-- Numbers are only given. -/
theorem nextId_change {ceiling : Nat} {v w : View} (hc : Change ceiling v w) :
    v.registry.nextId ≤ w.registry.nextId := by
  rcases registry_change hc with hw | ⟨path, change, keeps, hw, hkeep⟩ | ⟨_, _, _, _, _, hreg⟩ |
    ⟨path, r, -, hw, -⟩
  · rw [hw]
  · rw [hw]
    exact Nat.le_refl _
  · obtain ⟨-, hnext, -⟩ := Registry.register_eq_ok hreg
    rw [hnext]
    exact Nat.le_succ _
  · rw [hw]
    exact Nat.le_refl _

theorem nextPump_change {ceiling : Nat} {v w : View} (hc : Change ceiling v w) :
    v.nextPump ≤ w.nextPump := by
  cases hc with
  | grant hr hfree hroom => exact Nat.le_succ _
  | arrange hh hn => exact hn
  | _ => exact Nat.le_refl _

/-- A registration that was removed. -/
structure Gone (id : UploadId) (v : View) : Prop where
  absent : ¬ v.registry.Holds id
  id_lt : id < v.registry.nextId

theorem gone_change {id : UploadId} {ceiling : Nat} {v w : View} (hc : Change ceiling v w)
    (h : Gone id v) : Gone id w := by
  refine ⟨?_, Nat.lt_of_lt_of_le h.id_lt (nextId_change hc)⟩
  intro hholds
  exact (holds_change hc hholds).elim h.absent (Nat.not_le.mpr h.id_lt)

theorem Gone.owned? {id : UploadId} {v : View} (h : Gone id v) (path : String) :
    v.registry.owned? path id = none := by
  apply Registry.owned?_eq_none_iff.mpr
  intro r hr hid
  exact h.absent ⟨path, r, hr, hid⟩

end ResumableUpload
