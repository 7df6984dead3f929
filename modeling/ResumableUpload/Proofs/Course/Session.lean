import ResumableUpload.Engine.Session
import ResumableUpload.Proofs.Course.Reached
import ResumableUpload.Proofs.Course.Slots

/-
  Session — what holds of every course holds of every session

  A session leaves pumps only at their pauses, where nothing of the fragment in
  hand is written yet. Each call of a session is moves, so a session never
  shows an engine that no course shows. Where every call is run to its end no
  pump is ever left at a pause, and the moves are those of calls that come one
  after another.

  What is held:
    1. `Session.Reached` — moves that keep to a rule lead to the session.
    2. `Call.runsToEnd` — a call that leaves no pump at a pause.

  What is proved:
    1. `reached_of_runsToEnd`, `reached_perform`, `reached_run` — every call, and
       every run, keeps it.
    2. `course_of_run` — the engine and the pumps of a session are those of a
       course, so whatever holds of every course holds of them.
    3. `orderly_of_run` — calls that are run to their ends are an orderly course,
       so whatever holds of every orderly course holds of them.
    4. `writing_iff_at_pause` — the slots, said of sessions.
-/

namespace ResumableUpload

/-- A call that is run to its end: it leaves no pump at a pause, and takes up none. -/
def Call.runsToEnd : Call → Bool
  | .startSubmit _ _ => false
  | .startPump _ => false
  | .resume _ => false
  | .finish _ => false
  | .drop _ => false
  | _ => true

namespace Session

/-- The fragments in the hands of the pumps at their pauses, and all operations for them. -/
def carried (s : Session) : List (Flight × Delivery) :=
  s.flights.map fun x => (x.2, .start x.2.pump.writer)

/-- Moves that keep to a rule lead to the session, and its pumps are told apart by their numbers. -/
structure Reached (rule : Course → Move → Prop) (start : Engine) (s : Session) : Prop where
  moves : ResumableUpload.Reached rule start s.engine s.carried
  nodup : (s.flights.map Prod.fst).Nodup
  lt : ∀ x ∈ s.flights, x.1 < s.nextPump

theorem perm_of_mem {flights : List (Nat × Flight)} (hnodup : (flights.map Prod.fst).Nodup) {n : Nat}
    {flight : Flight} (hmem : (n, flight) ∈ flights) :
    flights.Perm ((n, flight) :: flights.filter fun entry => entry.1 ≠ n) := by
  induction flights with
  | nil => cases hmem
  | cons x rest ih =>
    rw [List.map_cons, List.nodup_cons] at hnodup
    rcases List.mem_cons.mp hmem with rfl | hmem
    · have hothers : (rest.filter fun entry => entry.1 ≠ n) = rest := by
        rw [List.filter_eq_self]
        intro y hy
        simp only [decide_eq_true_eq]
        rintro rfl
        exact hnodup.1 (List.mem_map.mpr ⟨y, hy, rfl⟩)
      rw [List.filter_cons_of_neg (by simp), hothers]
    · have hne : x.1 ≠ n := by
        rintro rfl
        exact hnodup.1 (List.mem_map.mpr ⟨_, hmem, rfl⟩)
      rw [List.filter_cons_of_pos (by simpa using hne)]
      exact ((ih hnodup.2 hmem).cons x).trans (List.Perm.swap _ _ _)

theorem mem_of_find? {s : Session} {pump : PumpRef} {n : Nat} {flight : Flight}
    (h : s.find? pump = some (n, flight)) : (n, flight) ∈ s.flights := by
  obtain ⟨m, -, hfind⟩ := Option.bind_eq_some_iff.mp h
  exact List.mem_of_find?_eq_some hfind

namespace Reached

variable {rule : Course → Move → Prop} {start e : Engine} {s : Session} {n : Nat} {flight : Flight}

theorem withEngine (h : s.Reached rule start) (hmoves : ResumableUpload.Reached rule start e s.carried) :
    (s.withEngine e).Reached rule start := ⟨hmoves, h.nodup, h.lt⟩

theorem answered (h : s.Reached rule start) {x : Engine × PumpResult}
    (hmoves : ResumableUpload.Reached rule start x.1 s.carried) : (s.answered x).1.Reached rule start :=
  h.withEngine hmoves

theorem started (h : s.Reached rule start) {x : Engine × Pumping}
    (hmoves : ResumableUpload.Reached rule start x.1 ((Lane.of x.2).carried ++ s.carried)) :
    (s.start x).1.Reached rule start := by
  obtain ⟨e, state⟩ := x
  cases state with
  | ended result => exact h.withEngine hmoves
  | inFlight flight =>
    refine ⟨?_, ?_, ?_⟩
    · show ResumableUpload.Reached rule start e (List.map _ (s.flights ++ [(s.nextPump, flight)]))
      rw [List.map_append]
      exact hmoves.perm List.perm_append_comm
    · show ((s.flights ++ [(s.nextPump, flight)]).map Prod.fst).Nodup
      rw [List.map_append]
      apply h.nodup.append (List.nodup_singleton _)
      intro k hk hlast
      obtain ⟨x, hx, rfl⟩ := List.mem_map.mp hk
      have hlt := h.lt x hx
      simp at hlast
      omega
    · intro x hx
      rcases List.mem_append.mp hx with hx | hx
      · exact Nat.lt_succ_of_lt (h.lt x hx)
      · obtain rfl := List.mem_singleton.mp hx
        exact Nat.lt_succ_self _

theorem front (h : s.Reached rule start) (hmem : (n, flight) ∈ s.flights) :
    ResumableUpload.Reached rule start s.engine
      ((flight, .start flight.pump.writer) :: (s.forget n).carried) :=
  h.moves.perm ((perm_of_mem h.nodup hmem).map _)

theorem forget (h : s.Reached rule start)
    (hmoves : ResumableUpload.Reached rule start e (s.forget n).carried) :
    ((s.forget n).withEngine e).Reached rule start := by
  refine ⟨hmoves, h.nodup.sublist (List.filter_sublist.map _), ?_⟩
  intro x hx
  exact h.lt x (List.mem_of_mem_filter hx)

theorem replace (h : s.Reached rule start) (hmem : (n, flight) ∈ s.flights) {next : Flight}
    (hmoves : ResumableUpload.Reached rule start e
      ((next, .start next.pump.writer) :: (s.forget n).carried)) :
    ((s.replace n next).withEngine e).Reached rule start := by
  have hnumbers : (s.replace n next).flights.map Prod.fst = s.flights.map Prod.fst := by
    show (s.flights.map _).map Prod.fst = _
    rw [List.map_map]
    apply List.map_congr_left
    intro x hx
    simp only [Function.comp_apply]
    split <;> simp_all
  have hothers : ((s.forget n).flights.map fun entry => if entry.1 = n then (n, next) else entry) =
      (s.forget n).flights := by
    refine (List.map_congr_left ?_).trans (List.map_id _)
    intro x hx
    have hne : x.1 ≠ n := by simpa using List.of_mem_filter hx
    exact if_neg hne
  have hperm : (s.replace n next).flights.Perm ((n, next) :: (s.forget n).flights) := by
    have hmap := (perm_of_mem h.nodup hmem).map fun entry => if entry.1 = n then (n, next) else entry
    rw [List.map_cons, if_pos rfl] at hmap
    rw [← hothers]
    exact hmap
  have hcarried : (s.replace n next).carried.Perm
      ((next, .start next.pump.writer) :: (s.forget n).carried) := hperm.map _
  refine ⟨hmoves.perm hcarried.symm, ?_, ?_⟩
  · show ((s.replace n next).flights.map Prod.fst).Nodup
    rw [hnumbers]
    exact h.nodup
  · intro x hx
    have hn : x.1 ∈ s.flights.map Prod.fst := by
      rw [← hnumbers]
      exact List.mem_map_of_mem hx
    obtain ⟨y, hy, hyx⟩ := List.mem_map.mp hn
    rw [← hyx]
    exact h.lt y hy

end Reached

/-! ## Calls -/

variable {rule : Course → Move → Prop} {start : Engine} {s : Session} {call : Call}
  {calls : List Call}

theorem reached_of_runsToEnd (h : s.Reached rule start) (hrule : Admits rule s.carried)
    (hcall : call.runsToEnd = true) : (s.perform call).1.Reached rule start := by
  cases call with
  | init path size owner clientPath =>
    cases hinit : s.engine.init path size owner clientPath with
    | error err =>
      simp only [perform, hinit]
      exact h
    | ok x =>
      simp only [perform, hinit]
      exact h.withEngine (h.moves.init hrule hinit)
  | initWithin quota path size owner clientPath =>
    cases hinit : s.engine.initWithin quota path size owner clientPath with
    | error err =>
      simp only [perform, hinit]
      exact h
    | ok x =>
      simp only [perform, hinit]
      exact h.withEngine (h.moves.initWithin hrule hinit)
  | report quota =>
    unfold perform
    dsimp only
    split <;> exact h
  | submit path f => exact h.answered (h.moves.submit hrule path f)
  | pump path => exact h.answered (h.moves.pump hrule path)
  | pumpPending => exact h.withEngine (h.moves.pumpPending hrule)
  | status path =>
    unfold perform
    dsimp only
    split <;> exact h
  | remove path => exact h.withEngine (h.moves.remove hrule path)
  | discard path =>
    have hmoves := h.moves.discard hrule path
    unfold perform
    dsimp only
    split
    · rename_i hdiscard
      rw [hdiscard] at hmoves
      exact h.withEngine hmoves
    · rename_i hdiscard
      rw [hdiscard] at hmoves
      exact h.withEngine hmoves
  | isUploading path => exact h
  | subscribe => exact h.withEngine (h.moves.listen hrule _)
  | readEvents subscriber =>
    cases hcursor : s.engine.feed.cursors[subscriber]? with
    | none =>
      simp only [perform, Feed.read, hcursor]
      exact h
    | some cursor =>
      simp only [perform, Feed.read, hcursor]
      exact h.withEngine (h.moves.listen hrule _)
  | startSubmit path f => cases hcall
  | startPump path => cases hcall
  | resume pump => cases hcall
  | finish pump => cases hcall
  | drop pump => cases hcall

theorem reached_perform (h : s.Reached (fun _ _ => True) start) (call : Call) :
    (s.perform call).1.Reached (fun _ _ => True) start := by
  have hrule := admits_any s.carried
  have hturn : ∀ (c : Course) (n : Nat), True := fun _ _ => trivial
  cases call with
  | startSubmit path f => exact h.started (h.moves.beginSubmit hrule path f)
  | startPump path => exact h.started (h.moves.begin hrule path)
  | resume pump =>
    cases hfind : s.find? pump with
    | none =>
      simp only [perform, hfind]
      exact h
    | some x =>
      obtain ⟨n, flight⟩ := x
      have hmoves := (h.front (mem_of_find? hfind)).resume hturn
      simp only [perform, hfind]
      cases hresume : s.engine.resume flight with
      | mk e state =>
        rw [hresume] at hmoves
        cases state with
        | ended result => exact h.forget hmoves
        | inFlight next => exact h.replace (mem_of_find? hfind) hmoves
  | finish pump =>
    cases hfind : s.find? pump with
    | none =>
      simp only [perform, hfind]
      exact h
    | some x =>
      obtain ⟨n, flight⟩ := x
      simp only [perform, hfind]
      exact h.forget ((h.front (mem_of_find? hfind)).drive hturn)
  | drop pump =>
    cases hfind : s.find? pump with
    | none =>
      simp only [perform, hfind]
      exact h
    | some x =>
      obtain ⟨n, flight⟩ := x
      simp only [perform, hfind]
      exact h.forget ((h.front (mem_of_find? hfind)).abandon hturn)
  | _ => exact reached_of_runsToEnd h hrule rfl

theorem reached_run (h : s.Reached (fun _ _ => True) start) (calls : List Call) :
    (s.run calls).1.Reached (fun _ _ => True) start := by
  induction calls generalizing s with
  | nil => exact h
  | cons call rest ih => exact ih (reached_perform h call)

theorem reached_new (rule : Course → Move → Prop) (start : Engine) : (new start).Reached rule start :=
  ⟨.refl rule start, List.nodup_nil, by simp [new]⟩

theorem flights_of_runsToEnd (hcall : call.runsToEnd = true) :
    (s.perform call).1.flights = s.flights := by
  have hregistered : ∀ x, (s.registered x).1.flights = s.flights := by
    intro x
    cases x <;> rfl
  cases call with
  | init path size owner clientPath => exact hregistered _
  | initWithin quota path size owner clientPath => exact hregistered _
  | report quota =>
    unfold perform
    dsimp only
    split <;> rfl
  | status path =>
    unfold perform
    dsimp only
    split <;> rfl
  | discard path =>
    unfold perform
    dsimp only
    split <;> rfl
  | readEvents subscriber =>
    unfold perform
    dsimp only
    split <;> rfl
  | startSubmit path f => cases hcall
  | startPump path => cases hcall
  | resume pump => cases hcall
  | finish pump => cases hcall
  | drop pump => cases hcall
  | _ => rfl

theorem orderly_reached_run (h : s.Reached Course.Orderly start) (hflights : s.flights = [])
    (hcalls : ∀ call ∈ calls, call.runsToEnd = true) :
    (s.run calls).1.Reached Course.Orderly start ∧ (s.run calls).1.flights = [] := by
  induction calls generalizing s with
  | nil => exact ⟨h, hflights⟩
  | cons call rest ih =>
    have hcall := hcalls call List.mem_cons_self
    have hnone : s.carried = [] := by rw [carried, hflights, List.map_nil]
    have hnext := reached_of_runsToEnd h (hnone ▸ admits_orderly) hcall
    exact ih hnext ((flights_of_runsToEnd hcall).trans hflights)
      fun call hmem => hcalls call (List.mem_cons_of_mem _ hmem)

/-- What holds of the engine and the pumps of every course holds of those of every session. -/
theorem course_of_run (start : Engine) (calls : List Call) :
    ∃ moves, let c := (Course.new start).run moves
      c.engine = ((new start).run calls).1.engine ∧
      (c.live.map Underway.flight).Perm (((new start).run calls).1.flights.map Prod.snd) := by
  obtain ⟨moves, -, hengine, hlive⟩ := (reached_run (reached_new _ start) calls).moves
  refine ⟨moves, hengine, ?_⟩
  have hflights := hlive.map Prod.fst
  rw [carried, List.map_map, List.map_map] at hflights
  exact hflights

/-- What holds of every orderly course holds of the engine of every session whose calls are all run to
their ends. -/
theorem orderly_of_run (start : Engine) (hcalls : ∀ call ∈ calls, call.runsToEnd = true) :
    ∃ moves, let c := (Course.new start).run moves
      (Course.new start).Obeys Course.Orderly moves ∧
        c.engine = ((new start).run calls).1.engine ∧ c.live = [] := by
  obtain ⟨hreached, hflights⟩ := orderly_reached_run (reached_new _ start) rfl hcalls
  obtain ⟨moves, hobeys, hengine, hlive⟩ := hreached.moves
  rw [carried, hflights] at hlive
  exact ⟨moves, hobeys, hengine, List.map_eq_nil_iff.mp hlive.eq_nil⟩

/-- An upload has its mark exactly where one pump at its pause serves its registration. -/
theorem writing_iff_at_pause (disk : Disk) (storage : Storage) (writers maxSize capacity : Nat)
    (calls : List Call) :
    let s := ((new (.new disk storage writers maxSize capacity)).run calls).1
    (∀ q r, s.engine.registry.find? q = some r →
      s.flights.countP (fun x => x.2.pump.id = r.id) = r.writing.toNat) ∧
    s.engine.registry.writingCount ≤ max writers 1 := by
  intro s
  obtain ⟨moves, hengine, hperm⟩ := course_of_run (.new disk storage writers maxSize capacity) calls
  have hslots := slots_run (.new disk storage writers maxSize capacity) rfl moves
  rw [← hengine]
  refine ⟨?_, hslots.within⟩
  intro q r hr
  have hcount := hperm.countP_eq fun flight => decide (flight.pump.id = r.id)
  rw [List.countP_map, List.countP_map] at hcount
  have hserved := hslots.served q r hr
  rw [servers_view, Course.serving, ← List.countP_eq_length_filter] at hserved
  exact hcount.symm.trans hserved

end Session

end ResumableUpload
