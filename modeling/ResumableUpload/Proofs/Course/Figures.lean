import ResumableUpload.Proofs.Course.Agree
import ResumableUpload.Proofs.Engine.Admission
import Mathlib.Data.List.Induction

/-
  Figures — what the figures of an upload obey, and how they move

  A record keeps figures that follow from others: the bytes saved are the
  lengths of the ranges written, and the upload is complete when they reach its
  size. Nothing reaches past the size, neither what was written nor what waits
  or is on its way. And whatever happens to an upload, its figures only move
  one way: bytes are added, ranges are appended, and what is complete stays so.

  What is held:
    1. `Figures` — what the figures of a record obey, with the fragments in
       hand.
    2. `Record.Onward` — a record of the same upload at a later time.

  What is proved:
    1. `kept_figures` — each happening of an upload keeps its figures in order.
    2. `record_change`, `onward_run` — where a record after a change comes from,
       and after any moves.
    3. `record_of_step`, `origin_of_run` — a record that comes from none was
       registered by a move; `admitted_run` — so each has the path of a file,
       and a size within the limit.
    4. `figures_of_run` — the same, said of runs.
-/

namespace ResumableUpload

/-- What the figures of a record obey, where the fragments `held` are on their way. -/
structure Figures (held : List Fragment) (r : Record) : Prop where
  /-- No range is inverted, and none reaches past the size. -/
  ranges : ∀ x ∈ r.coverage.ranges, x.start ≤ x.stop ∧ x.stop ≤ r.size
  fits : ∀ f ∈ held ++ r.queue.toList, f.stop ≤ r.size
  saved : r.saved = coveredBytes r.coverage.ranges
  completed : r.completed = true ↔ r.size ≤ r.saved

namespace Figures

variable {held : List Fragment} {r : Record} {f : Fragment}

theorem fresh (id : UploadId) (path : String) (size : Nat) (owner : Int) (clientPath : String) :
    Figures [] (.new id path size owner clientPath) where
  ranges := fun _ hx => nomatch hx
  fits := fun _ hf => nomatch hf
  saved := rfl
  completed := Coverage.isComplete_iff _ _

theorem accept (h : Figures held r) (hfit : f.stop ≤ r.size) : Figures held (r.enqueue f) where
  ranges := h.ranges
  fits := by
    intro g hg
    have hlist : (r.enqueue f).queue.toList = r.queue.toList ++ [f] := FragmentQueue.toList_push _ f
    rw [hlist, ← List.append_assoc] at hg
    rcases List.mem_append.mp hg with hg | hg
    · exact h.fits g hg
    · rw [List.mem_singleton.mp hg]
      exact hfit
  saved := h.saved
  completed := h.completed

theorem take {queue : FragmentQueue} (h : Figures [] r) (hpop : r.queue.pop? = some (f, queue)) :
    Figures [f] (r.withQueue queue) where
  ranges := h.ranges
  fits := by
    intro g hg
    apply h.fits g
    rw [List.nil_append, FragmentQueue.toList_of_pop? hpop]
    exact hg
  saved := h.saved
  completed := h.completed

theorem settle (h : Figures [f] r) : Figures [] r where
  ranges := h.ranges
  fits := fun g hg => h.fits g (List.mem_cons_of_mem f hg)
  saved := h.saved
  completed := h.completed

theorem write (h : Figures [f] r) : Figures [] (r.recordWrite f.range) where
  ranges := by
    intro x hx
    rcases List.mem_append.mp (show x ∈ r.coverage.ranges ++ [f.range] from hx) with hx | hx
    · exact h.ranges x hx
    · rw [List.mem_singleton.mp hx]
      exact ⟨Nat.le_add_right _ _, h.fits f List.mem_cons_self⟩
  fits := h.settle.fits
  saved := Coverage.saved_record h.saved f.range
  completed := Coverage.isComplete_iff _ _

end Figures

theorem kept_figures : Kept fun _ held r => Figures held r where
  fresh := .fresh
  accept := fun _ _ _ _ h hfit => h.accept hfit
  mark := fun _ _ _ _ h => ⟨h.ranges, h.fits, h.saved, h.completed⟩
  take := fun _ _ _ _ h hpop => h.take hpop
  write := fun _ _ _ _ h => h.write
  fail := fun _ _ _ _ _ h => h.settle
  abandon := fun _ _ _ _ h => h.settle

/-- The path text under which a move asks for an upload. -/
def Move.opens : Move → Option String
  | .init path _ _ _ => some path
  | .initWithin _ path _ _ _ => some path
  | _ => none

/-! ## How the figures move -/

/-- A record of the same upload at a later time. -/
structure Record.Onward (r s : Record) : Prop where
  id : s.id = r.id
  path : s.path = r.path
  name : s.name = r.name
  size : s.size = r.size
  owner : s.owner = r.owner
  clientPath : s.clientPath = r.clientPath
  received : r.received ≤ s.received
  /-- Ranges are only added, at the end. -/
  ranges : r.coverage.ranges <+: s.coverage.ranges
  saved : r.saved ≤ s.saved
  completed : r.completed = true → s.completed = true

namespace Record.Onward

variable {r s t : Record}

theorem of_same (hid : s.id = r.id) (hpath : s.path = r.path) (hname : s.name = r.name)
    (hsize : s.size = r.size) (howner : s.owner = r.owner) (hclient : s.clientPath = r.clientPath)
    (hreceived : s.received = r.received) (hcoverage : s.coverage = r.coverage)
    (hcompleted : s.completed = r.completed) : r.Onward s := by
  refine ⟨hid, hpath, hname, hsize, howner, hclient, hreceived.ge, ?_, ?_, ?_⟩
  · exact ⟨[], by rw [hcoverage, List.append_nil]⟩
  · rw [Record.saved, Record.saved, hcoverage]
  · rw [hcompleted]
    exact fun h => h

theorem refl (r : Record) : r.Onward r := .of_same rfl rfl rfl rfl rfl rfl rfl rfl rfl

theorem trans (hrs : r.Onward s) (hst : s.Onward t) : r.Onward t where
  id := hst.id.trans hrs.id
  path := hst.path.trans hrs.path
  name := hst.name.trans hrs.name
  size := hst.size.trans hrs.size
  owner := hst.owner.trans hrs.owner
  clientPath := hst.clientPath.trans hrs.clientPath
  received := hrs.received.trans hst.received
  ranges := hrs.ranges.trans hst.ranges
  saved := hrs.saved.trans hst.saved
  completed := fun h => hst.completed (hrs.completed h)

theorem enqueue (r : Record) (f : Fragment) : r.Onward (r.enqueue f) :=
  ⟨rfl, rfl, rfl, rfl, rfl, rfl, Nat.le_add_right _ _, List.prefix_refl _, Nat.le_refl _,
    fun h => h⟩

theorem mark (r : Record) (writing : Bool) : r.Onward (r.withWriting writing) :=
  .of_same rfl rfl rfl rfl rfl rfl rfl rfl rfl

theorem withQueue (r : Record) (queue : FragmentQueue) : r.Onward (r.withQueue queue) :=
  .of_same rfl rfl rfl rfl rfl rfl rfl rfl rfl

theorem recordWrite (hcompleted : r.completed = true ↔ r.size ≤ r.saved) (range : ByteRange) :
    r.Onward (r.recordWrite range) := by
  have hgrown : r.saved ≤ (r.recordWrite range).saved := Nat.le_add_right _ _
  refine ⟨rfl, rfl, rfl, rfl, rfl, rfl, Nat.le_refl _, List.prefix_append _ _, hgrown, ?_⟩
  intro h
  exact (Coverage.isComplete_iff _ _).mpr ((hcompleted.mp h).trans hgrown)

end Record.Onward

theorem Registry.onward_of_modify {g : Registry} {path q : String} {change : Record → Record}
    {s : Record} (honward : ∀ r, g.find? path = some r → r.Onward (change r))
    (keeps : ∀ r, (change r).path = r.path)
    (hs : (g.modify path change keeps).find? q = some s) :
    ∃ r, g.find? q = some r ∧ r.Onward s := by
  rcases Registry.find?_modify_some hs with ⟨rfl, r, hr, rfl⟩ | ⟨-, hs⟩
  · exact ⟨r, hr, honward r hr⟩
  · exact ⟨s, hs, .refl s⟩

/-- A record after a change comes from one of the same upload, or is new. -/
theorem record_change {ceiling : Nat} {v w : View} (hc : Change ceiling v w)
    (hfigures : Each (fun _ held r => Figures held r) v) {q : String} {s : Record}
    (hs : w.registry.find? q = some s) :
    (∃ r, v.registry.find? q = some r ∧ r.Onward s) ∨ s.id = v.registry.nextId := by
  cases hc with
  | register hreg =>
    rcases Registry.find?_register_some hreg hs with ⟨-, rfl⟩ | ⟨-, hs⟩
    · exact .inr rfl
    · exact .inl ⟨s, hs, .refl s⟩
  | @accept path r f hr hfit =>
    exact .inl (Registry.onward_of_modify (fun t _ => .enqueue t f) (fun _ => rfl) hs)
  | grant hr hfree hroom =>
    exact .inl (Registry.onward_of_modify (fun t _ => .mark t true) (fun _ => rfl) hs)
  | @take n path id r f queue rest hh hr hpop =>
    exact .inl (Registry.onward_of_modify (fun t _ => .withQueue t queue) (fun _ => rfl) hs)
  | release hh hr hempty =>
    exact .inl (Registry.onward_of_modify (fun t _ => .mark t false) (fun _ => rfl) hs)
  | @write n path id r f rest hh hr =>
    have honward : ∀ t, v.registry.find? path = some t → t.Onward (t.recordWrite f.range) :=
      fun t ht => .recordWrite (hfigures path t ht).completed f.range
    exact .inl (Registry.onward_of_modify honward (fun _ => rfl) hs)
  | abandon hh hr => exact .inl (Registry.onward_of_modify (fun t _ => .mark t false) (fun _ => rfl) hs)
  | remove hr => exact .inl ⟨s, (Registry.find?_remove_some hs).2, .refl s⟩
  | _ => exact .inl ⟨s, hs, .refl s⟩

namespace Course

/-- The figures of all uploads are in order. -/
abbrev Figured (c : Course) : Prop := Each (fun _ held r => Figures held r) c.view

theorem figured_run (e : Engine) (hempty : e.registry = .empty) (moves : List Move) :
    ((new e).run moves).Figured := each_run kept_figures e hempty moves

/-- While an upload is registered, its record goes onward, whatever the moves. -/
theorem onward_run {c : Course} (hsound : c.Sound) (hfigured : c.Figured) {q p : String}
    {r s : Record} (hr : c.engine.registry.find? q = some r) {more : List Move}
    (hs : (c.run more).engine.registry.find? p = some s) (hid : s.id = r.id) :
    p = q ∧ r.Onward s := by
  -- what is kept: whoever has the number of the upload is at its path, and goes on from `r`
  let P (v : View) : Prop := Each (fun _ held r => Figures held r) v ∧
    r.id < v.registry.nextId ∧
    ∀ p s, v.registry.find? p = some s → s.id = r.id → p = q ∧ r.Onward s
  have hstart : P c.view := by
    refine ⟨hfigured, hsound.identity.id_lt q r hr, ?_⟩
    intro p s hs hid
    obtain rfl : p = q := hsound.identity.id_inj p q s r hs hr hid
    obtain rfl : s = r := Option.some.inj (hs.symm.trans hr)
    exact ⟨rfl, .refl s⟩
  have hlasts : P (c.run more).view := by
    refine keep_onward hsound ?_ hstart more
    rintro v w hc hv ⟨hfigures, hlt, hrecord⟩
    refine ⟨each_change kept_figures hc hv.identity hv.slots hfigures,
      Nat.lt_of_lt_of_le hlt (nextId_change hc), ?_⟩
    intro p s hs hid
    rcases record_change hc hfigures hs with ⟨t, ht, honward⟩ | hnew
    · obtain ⟨hp, hrt⟩ := hrecord p t ht (honward.id.symm.trans hid)
      exact ⟨hp, hrt.trans honward⟩
    · exact absurd (hnew.symm.trans hid) (Nat.ne_of_gt hlt)
  exact hlasts.2.2 p s hs hid

/-! ## Where a record comes from -/

theorem registers_eq_some {c : Course} {m : Move} {t : Ticket} (h : c.registers m = some t) :
    m.opens = some t.path ∧ c.engine.checkNew t.path t.size = .ok () ∧
      ∃ registry notice clientPath,
        c.engine.registry.register t.path t.size t.owner clientPath = .ok (registry, t) ∧
        c.step m =
          c.onward (({ c.engine with registry }.note notice).announceIfEmpty t) t.id [.registered] := by
  cases m with
  | init path size owner clientPath =>
    obtain ⟨e, he⟩ := eq_ok_of_ticket h
    obtain ⟨registry, notice, hreg, rfl⟩ := Engine.init_eq_ok he
    obtain ⟨-, -, rfl⟩ := Registry.register_eq_ok hreg
    refine ⟨rfl, Engine.init_checked he, registry, notice, clientPath, hreg, ?_⟩
    rw [step, he, registered]
  | initWithin quota path size owner clientPath =>
    obtain ⟨e, he⟩ := eq_ok_of_ticket h
    obtain ⟨registry, notice, hreg, rfl⟩ := Engine.initWithin_eq_ok he
    obtain ⟨-, -, rfl⟩ := Registry.register_eq_ok hreg
    refine ⟨rfl, (Engine.initWithin_checked he).1, registry, notice, clientPath, hreg, ?_⟩
    rw [step, he, registered]
  | _ => cases h

theorem find?_of_registers {c : Course} {m : Move} {t : Ticket} (h : c.registers m = some t) :
    ∃ r, (c.step m).engine.registry.find? t.path = some r ∧ r.ticket = t := by
  obtain ⟨-, -, registry, notice, clientPath, hreg, hstep⟩ := registers_eq_some h
  obtain ⟨-, -, hticket⟩ := Registry.register_eq_ok hreg
  refine ⟨.new c.engine.registry.nextId t.path t.size t.owner clientPath, ?_, hticket.symm⟩
  rw [hstep]
  show (Engine.announceIfEmpty _ t).registry.find? t.path = _
  rw [Engine.registry_announceIfEmpty]
  show registry.find? t.path = _
  rw [Registry.find?_register hreg, if_pos rfl]

theorem kept_noted (n : UploadId) : Kept fun l _ r => n ≤ r.id → .registered ∈ l where
  fresh := fun _ _ _ _ _ _ => List.mem_cons_self
  accept := fun _ _ _ _ h _ hid => List.mem_append_left _ (h hid)
  mark := fun _ _ _ _ h hid => h hid
  take := fun _ _ _ _ h _ hid => h hid
  write := fun _ _ _ _ h hid => List.mem_append_left _ (h hid)
  fail := fun _ _ _ _ _ h hid => List.mem_append_left _ (h hid)
  abandon := fun _ _ _ _ h hid => List.mem_append_left _ (h hid)

theorem registers_of_noted {c : Course} (hsound : c.Sound) {m : Move} {q : String} {s : Record}
    (hs : (c.step m).engine.registry.find? q = some s)
    (hid : c.engine.registry.nextId ≤ s.id)
    (hnoted : .registered ∈ (c.step m).history.of s.id) : c.registers m = some s.ticket := by
  have hmem := History.mem_of.mp hnoted
  rw [history_step] at hmem
  have hnotes := (List.mem_append.mp hmem).resolve_left fun h =>
    Nat.not_lt.mpr hid (hsound.identity.history_lt _ h)
  obtain ⟨t, ht, htid⟩ := registers_of_mem_notes hnotes
  obtain ⟨r, hr, rfl⟩ := find?_of_registers ht
  have hidentity : Identity (c.step m).view := (hsound.run [m]).identity
  obtain rfl : q = r.ticket.path := hidentity.id_inj q _ s r hs hr htid.symm
  obtain rfl : s = r := Option.some.inj (hs.symm.trans hr)
  exact ht

/-- A record after a move goes on from one before it, or the move registers it. -/
theorem record_of_step {c : Course} (hsound : c.Sound) (hfigured : c.Figured) {m : Move} {q : String}
    {s : Record} (hs : (c.step m).engine.registry.find? q = some s) :
    (∃ r, c.engine.registry.find? q = some r ∧ r.Onward s) ∨ c.registers m = some s.ticket := by
  -- what is kept: a number that is old is of an old record, and one that is new was noted
  let New : Log → List Fragment → Record → Prop := fun l _ r =>
    c.engine.registry.nextId ≤ r.id → .registered ∈ l
  let Old (v : View) : Prop := ∀ p s, v.registry.find? p = some s →
    s.id < c.engine.registry.nextId → ∃ r, c.engine.registry.find? p = some r ∧ r.Onward s
  let P (v : View) : Prop := c.engine.registry.nextId ≤ v.registry.nextId ∧
    Each (fun _ held r => Figures held r) v ∧ Each New v ∧ Old v
  have hstart : P c.view := by
    refine ⟨Nat.le_refl _, hfigured, ?_, fun p s hs _ => ⟨s, hs, .refl s⟩⟩
    intro p r hr hid
    exact absurd (hsound.identity.id_lt p r hr) (Nat.not_lt.mpr hid)
  have hlasts : P (c.run [m]).view := by
    refine keep_onward hsound ?_ hstart [m]
    rintro v w hc hv ⟨hle, hfigures, hnew, hold⟩
    refine ⟨hle.trans (nextId_change hc), each_change kept_figures hc hv.identity hv.slots hfigures,
      each_change (kept_noted _) hc hv.identity hv.slots hnew, ?_⟩
    intro p s hs hlt
    rcases record_change hc hfigures hs with ⟨t, ht, honward⟩ | hid
    · obtain ⟨r, hr, hrt⟩ := hold p t ht (by rwa [← honward.id])
      exact ⟨r, hr, hrt.trans honward⟩
    · exact absurd (hid ▸ hlt) (Nat.not_lt.mpr hle)
  obtain ⟨-, -, hnew, hold⟩ := hlasts
  by_cases hid : s.id < c.engine.registry.nextId
  · exact .inl (hold q s hs hid)
  · have hle := Nat.not_lt.mp hid
    exact .inr (registers_of_noted hsound hs hle (hnew q s hs hle))

/-- Each upload of a run was registered by one of the moves. -/
theorem origin_of_run {e : Engine} (hempty : e.registry = .empty) (moves : List Move) :
    ∀ q r, ((new e).run moves).engine.registry.find? q = some r →
      ∃ before m later, moves = before ++ m :: later ∧
        ((new e).run before).registers m = some r.ticket := by
  induction moves using List.reverseRecOn with
  | nil =>
    intro q r hr
    have hnone : ((new e).run []).engine.registry.find? q = none := by
      show e.registry.find? q = none
      rw [hempty]
      rfl
    rw [hnone] at hr
    cases hr
  | append_singleton moves m ih =>
    intro q r hr
    rw [run_concat] at hr
    rcases record_of_step (sound_run e hempty moves) (figured_run e hempty moves) hr with
      ⟨s, hs, honward⟩ | hregisters
    · obtain ⟨before, x, later, rfl, hx⟩ := ih q s hs
      refine ⟨before, x, later ++ [m], by rw [List.append_assoc]; rfl, ?_⟩
      rw [hx, Record.ticket, Record.ticket, honward.id, honward.path, honward.size, honward.owner]
    · exact ⟨moves, m, [], rfl, hregisters⟩

/-- Each upload of a run has the path of a file, as a move asked for it, and a size within the limit. -/
theorem admitted_run {e : Engine} (hempty : e.registry = .empty) {moves : List Move} {q : String}
    {r : Record} (hr : ((new e).run moves).engine.registry.find? q = some r) :
    (∃ m ∈ moves, m.opens = some q) ∧ (∃ names, Storage.resolve q = .ok names) ∧
      r.size ≤ e.maxUploadSize := by
  obtain ⟨before, m, later, rfl, hregisters⟩ := origin_of_run hempty moves q r hr
  obtain ⟨hopens, hchecked, -⟩ := registers_eq_some hregisters
  obtain ⟨hresolve, hsize⟩ := Engine.checkNew_eq_ok_iff.mp hchecked
  have hpath : r.ticket.path = q := Registry.path_of_find? hr
  rw [hpath] at hopens hresolve
  rw [(later_run (new e) before).engine.maxUploadSize] at hsize
  exact ⟨⟨m, by simp, hopens⟩, hresolve, hsize⟩

end Course

/-- The figures of an upload are in order, and only go onward. Whatever the moves, no range of an upload
is inverted, neither a range nor a fragment that waits or is on its way reaches past its size, and the
size is within the limit; the bytes saved are the lengths of the ranges, and the upload is complete
where they reach its size. As long as it is registered, whatever the moves, its figures only grow, its
ranges are only added to, and what it was registered with stays. -/
theorem figures_of_run (disk : Disk) (storage : Storage) (writers maxSize capacity : Nat)
    (moves : List Move) :
    let c := (Course.new (.new disk storage writers maxSize capacity)).run moves
    ∀ q r, c.engine.registry.find? q = some r →
      (∀ x ∈ r.coverage.ranges, x.start ≤ x.stop ∧ x.stop ≤ r.size) ∧
      (∀ f ∈ r.queue.toList, f.position + f.len ≤ r.size) ∧
      (∀ u ∈ c.serving r.id, u.flight.fragment.position + u.flight.fragment.len ≤ r.size) ∧
      r.size ≤ maxSize ∧
      r.saved = coveredBytes r.coverage.ranges ∧
      (r.completed = true ↔ r.size ≤ r.saved) ∧
      ∀ more p s, (c.run more).engine.registry.find? p = some s → s.id = r.id →
        p = q ∧ r.Onward s := by
  intro c q r hr
  have hfigured : c.Figured := Course.figured_run (.new disk storage writers maxSize capacity) rfl moves
  have hfigures : Figures (inHand c.view.hands r.id) r := hfigured q r hr
  have hsound : c.Sound := Course.sound_run (.new disk storage writers maxSize capacity) rfl moves
  refine ⟨hfigures.ranges, ?_, ?_, ?_, hfigures.saved, hfigures.completed, ?_⟩
  · exact fun f hf => hfigures.fits f (List.mem_append_right _ hf)
  · intro u hu
    apply hfigures.fits u.flight.fragment
    rw [inHand_view]
    exact List.mem_append_left _ (List.mem_map_of_mem hu)
  · exact (Course.admitted_run (e := .new disk storage writers maxSize capacity) rfl hr).2.2
  · exact fun more p s hs hid => Course.onward_run hsound hfigured hr hs hid

/-- The upload of four bytes whose last operation is left goes onward to its completion. -/
theorem whole_upload_goes_onward :
    let r := (nearlyWhole.engine.registry.find? "a").get nearlyWhole_there
    let s := ((nearlyWhole.step (.turn 0)).engine.registry.find? "a").get whole_there
    (∀ u ∈ nearlyWhole.serving r.id,
      u.flight.fragment.position + u.flight.fragment.len ≤ r.size) ∧
    r.completed = false ∧ s.completed = true ∧ r.Onward s := by
  intro r s
  have hr : nearlyWhole.engine.registry.find? "a" = some r := (Option.some_get nearlyWhole_there).symm
  have hs : (nearlyWhole.run [.turn 0]).engine.registry.find? "a" = some s :=
    (Option.some_get whole_there).symm
  obtain ⟨-, -, hhand, -, -, -, honward⟩ :=
    figures_of_run .empty ⟨"up"⟩ 1 100 16 wholeSubmitted "a" r hr
  exact ⟨hhand, by decide, by decide, (honward [.turn 0] "a" s hs (by decide)).2⟩

end ResumableUpload
