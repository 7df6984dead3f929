import ResumableUpload.Proofs.Course.Noted

/-
  Tells — what a move tells, and of which upload

  An event names a path, and a path may have named several uploads. Which of
  them the event is of can be read off the move that sends it: a registration,
  the end of a delivery, or a removal.

  What is held:
    1. `Tale` — events with the registrations they are told of.
    2. `Course.tells` — what a move tells; `Course.failures` — the writes that
       fail while their uploads are there.

  What is proved:
    1. `tale_step`, `tale_run` — the history tells what the moves tell; `mem_tale` —
       one of them told it.
    2. `failed_tells`, `failed_run` — the failures told are those of the writes
       that fail.
-/

namespace ResumableUpload

namespace Event

def isCompleted : Event → Bool
  | completed _ _ => true
  | _ => false

def isFailed : Event → Bool
  | failed _ _ _ _ => true
  | _ => false

def isRemoved : Event → Bool
  | removed _ => true
  | _ => false

end Event

/-- Events, each with the registration it is told of, the earliest first. -/
abbrev Tale := List (UploadId × Event)

namespace Tale

/-- What is told of one registration. -/
def of (id : UploadId) (t : Tale) : List Event := (t.filter fun x => x.1 = id).map Prod.snd

/-- The failures told. -/
def failed (t : Tale) : Tale := t.filter fun x => x.2.isFailed

theorem of_append (id : UploadId) (s t : Tale) : Tale.of id (s ++ t) = s.of id ++ t.of id := by
  simp [of]

theorem failed_append (s t : Tale) : Tale.failed (s ++ t) = s.failed ++ t.failed := by
  simp [failed]

theorem of_failed (id : UploadId) (t : Tale) : t.failed.of id = (t.of id).filter Event.isFailed := by
  simp only [of, failed, List.filter_filter, List.filter_map, Function.comp_def]
  congr 1
  apply List.filter_congr
  intro x _
  exact Bool.and_comm _ _

end Tale

namespace History

/-- The events told, each with the registration it was told of. -/
def tale (h : History) : Tale := h.filterMap fun x => x.2.told?.map fun e => (x.1, e)

theorem tale_append (h k : History) : History.tale (h ++ k) = h.tale ++ k.tale :=
  List.filterMap_append

theorem tale_only (id : UploadId) (l : Log) : (only id l).tale = l.told.map fun e => (id, e) := by
  rw [tale, only, Log.told, List.filterMap_map, List.map_filterMap]
  rfl

theorem told_of (id : UploadId) (h : History) : (h.of id).told = h.tale.of id := by
  induction h with
  | nil => rfl
  | cons x rest ih =>
    obtain ⟨n, y⟩ := x
    simp only [of, Log.told, tale, Tale.of] at ih ⊢
    by_cases hn : n = id <;> cases hy : y.told? <;> simp [hn, hy, ih]

theorem told_all (h : History) : h.all.told = h.tale.map Prod.snd := by
  simp [all, Log.told, tale, List.map_filterMap, List.filterMap_map, Function.comp_def]

end History

namespace Course

/-! ## What a move tells -/

def tellsRegistered (t : Ticket) : Tale := t.news.map fun e => (t.id, e)

def tellsDelivered (c : Course) (x : Underway × Except OsError FileWriter) : Tale :=
  (c.engine.tidings x.1.flight x.2).map fun e => (x.1.flight.pump.id, e)

def tellsRemoved (r : Record) : Tale := [(r.id, .removed r.path)]

/-- What a move tells. -/
def tells (c : Course) (m : Move) : Tale :=
  (c.registers m).elim [] tellsRegistered ++ (c.delivers m).elim [] c.tellsDelivered ++
    (c.removes m).elim [] tellsRemoved

/-- What moves tell, in their order. -/
def tale (c : Course) : List Move → Tale
  | [] => []
  | m :: rest => c.tells m ++ (c.step m).tale rest

/-- A write that fails while its upload is there. -/
def failsDelivered (c : Course) : Underway × Except OsError FileWriter → Tale
  | (_, .ok _) => []
  | (u, .error cause) =>
    if (c.engine.registry.owned? u.flight.pump.path u.flight.pump.id).isSome then
      [(u.flight.pump.id, .failed u.flight.pump.path u.flight.fragment.position
        u.flight.fragment.len cause.message)]
    else []

/-- The writes that fail with moves while their uploads are there, in their order. -/
def failures (c : Course) : List Move → Tale
  | [] => []
  | m :: rest => (c.delivers m).elim [] c.failsDelivered ++ (c.step m).failures rest

/-! ## The history tells it -/

theorem tale_notes (c : Course) (m : Move) : (c.notes m).tale = c.tells m := by
  have hregistered : History.tale ((c.registers m).elim [] notedRegistered) =
      (c.registers m).elim [] tellsRegistered := by
    cases c.registers m with
    | none => rfl
    | some t =>
      rw [Option.elim_some, notedRegistered, History.tale_only]
      exact congrArg (List.map _) (Log.told_told t.news)
  have haccepted : History.tale ((c.accepts m).elim [] notedAccepted) = [] := by
    cases c.accepts m <;> rfl
  have hdelivered : History.tale ((c.delivers m).elim [] c.notedDelivered) =
      (c.delivers m).elim [] c.tellsDelivered := by
    cases c.delivers m with
    | none => rfl
    | some x =>
      have hlanded : Log.told (c.engine.landed x.1.number x.1.flight x.2) = [] := by
        unfold Engine.landed
        split <;> rfl
      rw [Option.elim_some, notedDelivered, History.tale_only, Log.told_append, hlanded,
        Log.told_told]
      rfl
  have habandoned : History.tale ((c.abandons m).elim [] notedAbandoned) = [] := by
    cases c.abandons m <;> rfl
  have hremoved : History.tale ((c.removes m).elim [] notedRemoved) =
      (c.removes m).elim [] tellsRemoved := by
    cases c.removes m <;> rfl
  simp only [notes, History.tale_append, hregistered, haccepted, hdelivered, habandoned, hremoved,
    List.append_nil]
  rfl

/-- The history tells what a move tells. -/
theorem tale_step (c : Course) (m : Move) :
    (c.step m).history.tale = c.history.tale ++ c.tells m := by
  rw [history_step, History.tale_append, tale_notes]

theorem tale_run (c : Course) (moves : List Move) :
    (c.run moves).history.tale = c.history.tale ++ c.tale moves := by
  induction moves generalizing c with
  | nil => exact (List.append_nil _).symm
  | cons m rest ih =>
    calc ((c.step m).run rest).history.tale
        = (c.history.tale ++ c.tells m) ++ (c.step m).tale rest := by rw [ih, tale_step]
      _ = c.history.tale ++ c.tale (m :: rest) := List.append_assoc _ _ _

/-- What moves tell is told by one of them. -/
theorem mem_tale {c : Course} {moves : List Move} {x : UploadId × Event} (h : x ∈ c.tale moves) :
    ∃ before m later, moves = before ++ m :: later ∧ x ∈ (c.run before).tells m := by
  induction moves generalizing c with
  | nil => cases h
  | cons m rest ih =>
    rcases List.mem_append.mp h with hnow | hrest
    · exact ⟨[], m, rest, rfl, hnow⟩
    · obtain ⟨before, k, later, rfl, hk⟩ := ih hrest
      exact ⟨m :: before, k, later, rfl, hk⟩

/-! ## Failures -/

theorem failed_tellsDelivered (c : Course) (x : Underway × Except OsError FileWriter) :
    (c.tellsDelivered x).failed = c.failsDelivered x := by
  obtain ⟨u, cause | w⟩ := x
  · simp only [tellsDelivered, failsDelivered, Engine.tidings]
    cases c.engine.registry.owned? u.flight.pump.path u.flight.pump.id <;> rfl
  · simp only [tellsDelivered, failsDelivered, Engine.tidings, Record.news]
    cases c.engine.registry.owned? u.flight.pump.path u.flight.pump.id with
    | none => rfl
    | some r =>
      dsimp only
      split <;> rfl

/-- Of the events that a move tells, the failures are of the writes that fail. -/
theorem failed_tells (c : Course) (m : Move) :
    (c.tells m).failed = (c.delivers m).elim [] c.failsDelivered := by
  have hregistered : Tale.failed ((c.registers m).elim [] tellsRegistered) = [] := by
    cases c.registers m with
    | none => rfl
    | some t =>
      simp only [Option.elim_some, tellsRegistered, Ticket.news]
      split <;> rfl
  have hremoved : Tale.failed ((c.removes m).elim [] tellsRemoved) = [] := by
    cases c.removes m <;> rfl
  rw [tells, Tale.failed_append, Tale.failed_append, hregistered, hremoved, List.append_nil]
  cases c.delivers m with
  | none => rfl
  | some x => exact failed_tellsDelivered c x

theorem failed_run (c : Course) (moves : List Move) : (c.tale moves).failed = c.failures moves := by
  induction moves generalizing c with
  | nil => rfl
  | cons m rest ih =>
    show Tale.failed (c.tells m ++ (c.step m).tale rest) = _ ++ (c.step m).failures rest
    rw [Tale.failed_append, failed_tells, ih]

end Course

end ResumableUpload
