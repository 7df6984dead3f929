import ResumableUpload.Proofs.Course.Identity
import ResumableUpload.Proofs.Course.Noted

/-
  Dropped — the pumps that a run drops

  A fragment is abandoned in one way only: the pump that had it in hand is
  dropped. So the pumps with which the history of a run abandons a fragment are
  the pumps that its moves drop, in their order, and no pump is dropped twice.

  What is held:
    1. `Course.drops` — the pumps that the moves of a run drop.

  What is proved:
    1. `dropped_notes`, `dropped_run` — they are the pumps of the history.
    2. `nodup_drops` — no pump is dropped twice.
-/

namespace ResumableUpload

namespace Course

/-- The pump that a move drops, if it is under way. -/
def droppedBy (c : Course) : Move → List Nat
  | .drop n => ((c.find? n).map Underway.number).toList
  | _ => []

/-- The pumps that moves drop, in their order. -/
def drops (c : Course) : List Move → List Nat
  | [] => []
  | m :: rest => c.droppedBy m ++ (c.step m).drops rest

theorem dropped_notedDelivered (c : Course) (x : Underway × Except OsError FileWriter) :
    (c.notedDelivered x).all.dropped = [] := by
  have hlanded : Log.dropped (c.engine.landed x.1.number x.1.flight x.2) = [] := by
    unfold Engine.landed
    split
    · cases x.2 <;> rfl
    · rfl
  rw [notedDelivered, History.all_only, Log.dropped_append, hlanded]
  exact congrArg (List.map _) (Log.ended_told .abandoned _)

theorem dropped_land (c : Course) (u : Underway) (result : Except OsError FileWriter) :
    (c.land u result).history.all.dropped = c.history.all.dropped := by
  rw [history_land, History.all_append, Log.dropped_append, dropped_notedDelivered, List.append_nil]

/-- What a move notes names the pump that it drops, and no other. -/
theorem dropped_notes (c : Course) (m : Move) : (c.notes m).all.dropped = c.droppedBy m := by
  have hregistered : Log.dropped (History.all ((c.registers m).elim [] notedRegistered)) = [] := by
    cases c.registers m with
    | none => rfl
    | some t =>
      rw [Option.elim_some, notedRegistered, History.all_only]
      exact congrArg (List.map _) (Log.ended_told .abandoned t.news)
  have haccepted : Log.dropped (History.all ((c.accepts m).elim [] notedAccepted)) = [] := by
    cases c.accepts m <;> rfl
  have hdelivered : Log.dropped (History.all ((c.delivers m).elim [] c.notedDelivered)) = [] := by
    cases c.delivers m with
    | none => rfl
    | some x => exact dropped_notedDelivered c x
  have hremoved : Log.dropped (History.all ((c.removes m).elim [] notedRemoved)) = [] := by
    cases c.removes m <;> rfl
  simp only [notes, History.all_append, Log.dropped_append, hregistered, haccepted, hdelivered,
    hremoved, List.nil_append, List.append_nil]
  cases m with
  | drop n =>
    simp only [abandons, droppedBy]
    cases c.find? n <;> rfl
  | _ => rfl

theorem dropped_run (c : Course) (moves : List Move) :
    (c.run moves).history.all.dropped = c.history.all.dropped ++ c.drops moves := by
  induction moves generalizing c with
  | nil => exact (List.append_nil _).symm
  | cons m rest ih =>
    show ((c.step m).run rest).history.all.dropped = _ ++ (c.droppedBy m ++ (c.step m).drops rest)
    rw [ih, history_step, History.all_append, Log.dropped_append, dropped_notes, List.append_assoc]

/-- A run drops no pump twice. -/
theorem nodup_drops (e : Engine) (moves : List Move) : ((new e).drops moves).Nodup := by
  have hpumps := (numbering_run e moves).nodup
  have hdropped := dropped_run (new e) moves
  rw [show (new e).history.all.dropped = [] from rfl, List.nil_append] at hdropped
  rw [← hdropped]
  exact (List.nodup_append.mp hpumps).2.1

end Course

theorem Log.dropped_of_sublist (id : UploadId) (h : History) :
    (h.of id).dropped.Sublist h.all.dropped := by
  have hof : (h.of id).Sublist h.all := List.filter_sublist.map Prod.snd
  exact ((hof.filterMap _).filter _).map _

end ResumableUpload
