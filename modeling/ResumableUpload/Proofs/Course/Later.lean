import ResumableUpload.Proofs.Course.Basic
import ResumableUpload.Proofs.Engine.Steps

/-
  Later — what a move keeps

  The engine of a course keeps its storage, its slots and its limit, and its
  feed only grows. Whatever is sent is noted in the history, so the events of
  the history are those of the feed.

  What is proved:
    1. `Course.Later` — a course after some moves of another; `later_step` and
       `later_run`.
    2. `events_run` — the history of a run tells the events sent, all of them
       and in their order.
-/

namespace ResumableUpload

theorem Engine.news_of_sent {e e' : Engine} {l : List Event}
    (h : e'.feed.sent = e.feed.sent ++ l) : e.news e' = l := by
  rw [news, h, List.drop_left]

namespace Course

/-- A course after some moves of another: what its engine keeps is kept, and its history tells the
events sent meanwhile. -/
structure Later (c c' : Course) : Prop where
  engine : Engine.Later c.engine c'.engine
  events : c'.history.all.told = c.history.all.told ++ c.engine.news c'.engine

namespace Later

theorem refl (c : Course) : Later c c := by
  refine ⟨.refl _, ?_⟩
  rw [Engine.news, List.drop_length, List.append_nil]

theorem trans {a b c : Course} (hab : Later a b) (hbc : Later b c) : Later a c := by
  refine ⟨hab.engine.trans hbc.engine, ?_⟩
  obtain ⟨l, hl⟩ := hab.engine.sent
  obtain ⟨m, hm⟩ := hbc.engine.sent
  have hsent : c.engine.feed.sent = a.engine.feed.sent ++ (l ++ m) := by
    rw [← hm, ← hl, List.append_assoc]
  rw [hbc.events, hab.events, Engine.news_of_sent hl.symm, Engine.news_of_sent hm.symm,
    Engine.news_of_sent hsent, List.append_assoc]

theorem onward {c : Course} {e : Engine} (h : Engine.Later c.engine e) (id : UploadId)
    {happened : Log} (hquiet : happened.told = [])
    (live adrift : List Underway) :
    Later c { c.onward e id happened with live := live, adrift := adrift } := by
  refine ⟨h, ?_⟩
  simp only [Course.onward, History.all_noting, Log.told_append, Log.told_told, hquiet,
    List.nil_append]

theorem of_sent {c c' : Course} (h : Engine.Later c.engine c'.engine)
    (hsent : c'.engine.feed.sent = c.engine.feed.sent) (hhistory : c'.history = c.history) :
    Later c c' := by
  refine ⟨h, ?_⟩
  rw [Engine.news, hsent, hhistory, List.drop_length, List.append_nil]

end Later

theorem later_begin (c : Course) (path : String) : Later c (c.begin path) :=
  .of_sent (Engine.later_begin c.engine path) (congrArg Feed.sent (Engine.feed_begin c.engine path)) rfl

theorem later_land (c : Course) (u : Underway) (result : Except OsError FileWriter) :
    Later c (c.land u result) := by
  refine .onward (Engine.later_land _ _ _) _ ?_ _ c.adrift
  unfold Engine.landed
  split <;> rfl

theorem later_withDisk (c : Course) (disk : Disk) : Later c (c.withDisk disk) :=
  .of_sent (.of_feed rfl rfl rfl rfl) rfl rfl

theorem later_turn (c : Course) (u : Underway) : Later c (c.turn u) := by
  unfold turn
  split
  · exact .of_sent (.of_feed rfl rfl rfl rfl) rfl rfl
  · exact (later_withDisk c _).trans (later_land _ _ _)

theorem later_abandon (c : Course) (u : Underway) : Later c (c.abandon u) :=
  .onward (Engine.later_abandon _ _) _ rfl _ _

theorem later_fault (c : Course) (u : Underway) (fault : DiskFault) : Later c (c.fault u fault) :=
  (later_withDisk c _).trans (later_land _ u _)

theorem later_overdue (c : Course) (fault : Option DiskFault) (u : Underway) :
    Later c (c.overdue u fault) :=
  .of_sent (.of_feed rfl rfl rfl rfl) rfl rfl

theorem later_accept {c c' : Course} {path : String} {f : Fragment}
    (h : c.accept path f = some c') : Later c c' := by
  unfold accept at h
  split at h
  · rename_i e r he hr
    obtain ⟨s, notice, hs, hfit, rfl⟩ := Engine.accept_eq_ok he
    cases h
    have hlater : Engine.Later c.engine ((c.engine.modify path fun r => r.enqueue f).note notice) :=
      .of_feed rfl rfl rfl rfl
    exact .onward hlater r.id (show Log.told [.accepted f] = [] from rfl) c.live c.adrift
  · cases h

theorem later_registered {ε : Type} {c : Course} {x : Except ε (Engine × Ticket)}
    (h : ∀ e t, x = .ok (e, t) → Engine.Later c.engine e) : Later c (c.registered x) := by
  unfold registered
  split
  · exact .refl c
  · exact .onward (h _ _ rfl) _ rfl c.live c.adrift

theorem later_removed {c : Course} {path : String} {e : Engine}
    (h : Engine.Later (c.engine.remove path) e) (hfeed : e.feed = (c.engine.remove path).feed) :
    Later c (c.removed path e) := by
  have hlater := (Engine.later_remove c.engine path).trans h
  unfold removed
  split
  · rename_i hr
    unfold Engine.remove at hfeed
    simp only [hr] at hfeed
    exact .of_sent hlater (congrArg Feed.sent hfeed) rfl
  · exact .onward hlater _ rfl c.live c.adrift

theorem later_beginMany (paths : List String) (c : Course) : Later c (paths.foldl begin c) := by
  induction paths generalizing c with
  | nil => exact .refl c
  | cons path rest ih => exact (later_begin c path).trans (ih _)

theorem later_elim {c : Course} {f : Underway → Course} (h : ∀ u, Later c (f u))
    (x : Option Underway) : Later c (x.elim c f) := by
  cases x with
  | none => exact .refl c
  | some u => exact h u

theorem later_step (c : Course) (m : Move) : Later c (c.step m) := by
  cases m with
  | init path size owner clientPath =>
    exact later_registered fun _ _ => Engine.later_init
  | initWithin quota path size owner clientPath =>
    exact later_registered fun _ _ => Engine.later_initWithin
  | submit path f =>
    simp only [step]
    cases h : c.accept path f with
    | none => exact .refl c
    | some c' => exact (later_accept h).trans (later_begin c' path)
  | pump path => exact later_begin c path
  | pumpPending => exact later_beginMany _ c
  | turn n => exact later_elim (later_turn c) _
  | fault n fault => exact later_elim (fun u => later_fault c u fault) _
  | drop n => exact later_elim (later_abandon c) _
  | late n fault => exact later_elim (later_overdue c fault) _
  | remove path => exact later_removed (.refl _) rfl
  | discard path => exact later_removed (.of_feed rfl rfl rfl rfl) rfl
  | outside disk => exact later_withDisk c disk
  | listen cursors => exact .of_sent ⟨rfl, rfl, rfl, List.prefix_refl _⟩ rfl rfl

theorem later_run (c : Course) (moves : List Move) : Later c (c.run moves) := by
  induction moves generalizing c with
  | nil => exact .refl c
  | cons m rest ih => exact (later_step c m).trans (ih _)

/-- The history of a run tells the events sent. -/
theorem events_run (e : Engine) (hnone : e.feed.sent = []) (moves : List Move) :
    ((new e).run moves).history.all.told = ((new e).run moves).engine.feed.sent := by
  have h := (later_run (new e) moves).events
  rw [h, Engine.news]
  show [] ++ _ = _
  rw [show (new e).engine.feed.sent = [] from hnone]
  rfl

end Course

end ResumableUpload
