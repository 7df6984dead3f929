import ResumableUpload.Proofs.Engine.Progress

/-
  Pending — calls that pump all queues nobody writes

  A call of `pump_pending` begins a pump for each pending queue, in the order of
  the paths, and waits for all of them. They go on in any order: which of them
  hears of its operation first is up to the scheduler, operations may fail, and
  the disk changes under them. Who got a slot was settled before any of them
  wrote, so what the call comes to is the same in every order.

  What is held:
    1. `Move.between` — a move that is no call; `Course.endings` — the pumps that
       come to their end along a run.
    2. `Course.Joins` — what a call answers.
    3. `Course.InLanes` — the lanes of a call, by the numbers of its pumps.
    4. `Course.work`, `Course.progress` — the turns that are left, and those that
       were taken.
    5. `Course.PendingRounds` — so many calls, one after another.

  What is proved:
    1. `inLanes_begins`, `inLanes_step`, `inLanes_run` — the pumps that begin, one
       move, and any number of them.
    2. `pendingRound_of_run` — what a call comes to, in any order.
    3. `progress_le`, `exists_end` — pumps that go on come to their ends.
    4. `exists_pumpPending` — rounds of all pumps are one such order.
    5. `pending_in_path_order` — the same for every state there can be.

  ── ASSUMED ──────────────────────────────────────────────────────────────────
  Every pump of a call asks for its slot before any of them ends. The first thing
  that a pump with a slot does is to open its file, for which it pauses, and
  `join_all` lets every pump go on to its first pause before it hears of any.

  Correspondence (engine ↔ moves):
    `pump_pending`, up to the first pauses    ↔ `Move.pumpPending`
    `join_all`, and whatever else goes on     ↔ moves that are `between`
    the results, in the order of the paths    ↔ `Course.Joins`
-/

namespace ResumableUpload

/-- No call: a pump goes on, or its operation fails; the disk changes; a subscriber reads. -/
def Move.between : Move → Bool
  | .turn _ => true
  | .fault _ _ => true
  | .late _ _ => true
  | .outside _ => true
  | .listen _ => true
  | _ => false

namespace Lane

/-- The pump of a lane by its number, while it is under way. -/
def live (n : Nat) : Lane → List Underway
  | ended _ => []
  | underway flight delivery => [⟨n, flight, delivery⟩]

/-- The pump of a lane by its number, once it has ended. -/
def ending (n : Nat) (path : String) : Lane → List Ending
  | ended result => [⟨n, path, result⟩]
  | underway _ _ => []

theorem live_of (n : Nat) (state : Pumping) : (of state).live n = Course.standing n state := by
  cases state <;> rfl

theorem ending_of (n : Nat) (path : String) (state : Pumping) :
    (of state).ending n path = Course.ending n path state := by
  cases state <;> rfl

end Lane

namespace Course

variable {c c' : Course} {m : Move} {moves before later turns : List Move} {first : Nat}
  {lanes : List (String × Lane)} {ended : List Ending} {u : Underway}

/-- The pumps that come to their end along a run, the earliest first. -/
def endings (c : Course) : List Move → List Ending
  | [] => []
  | m :: rest => c.ends m ++ (c.step m).endings rest

theorem endings_append :
    c.endings (before ++ later) = c.endings before ++ (c.run before).endings later := by
  induction before generalizing c with
  | nil => rfl
  | cons m rest ih =>
    show c.ends m ++ (c.step m).endings (rest ++ later) = _
    rw [ih, ← List.append_assoc]
    rfl

/-- All pumps that a call of `pump_pending` began have ended, in any order, and no other has. The call
answers with the results in the order in which the pumps began. -/
def Joins (c : Course) (turns : List Move) (results : List (String × PumpResult)) : Prop :=
  (c.endings (.pumpPending :: turns)).Perm
    ((results.zipIdx c.nextPump).map fun x => ⟨x.2, x.1.1, x.1.2⟩)

/-! ## A step of a pump is that of its lane -/

theorem land_lane (c : Course) (u : Underway) (result : Except OsError FileWriter) :
    let x := c.engine.land u.flight result
    (c.land u result).engine = x.1 ∧
      (c.land u result).live = (Lane.of x.2).live u.number ++ without u.number c.live ∧
      c.endsLand u result = (Lane.of x.2).ending u.number u.flight.pump.path := by
  intro x
  rw [Lane.live_of, Lane.ending_of]
  exact ⟨rfl, rfl, rfl⟩

theorem turn_lane (c : Course) (u : Underway) :
    let x := c.engine.turn (.underway u.flight u.delivery)
    (c.turn u).engine = x.1 ∧
      (c.turn u).live = x.2.live u.number ++ without u.number c.live ∧
      c.endsTurn u = x.2.ending u.number u.flight.pump.path := by
  unfold Course.turn endsTurn
  cases hadvance : u.delivery.advance c.engine.storage u.flight.pump.path u.flight.fragment
      c.engine.disk with
  | mk disk step =>
    cases step with
    | onward next =>
      rw [Engine.turn_of_onward hadvance]
      exact ⟨rfl, rfl, rfl⟩
    | ended result =>
      rw [Engine.turn_of_ended hadvance]
      exact (c.withDisk disk).land_lane u result

/-! ## Lanes, and the pumps of a course -/

/-- The pumps of lanes that are under way, by their numbers. -/
def liveOf (first : Nat) (lanes : List (String × Lane)) : List Underway :=
  (lanes.zipIdx first).flatMap fun x => x.1.2.live x.2

/-- The pumps of lanes that have ended, by their numbers. -/
def endingsOf (first : Nat) (lanes : List (String × Lane)) : List Ending :=
  (lanes.zipIdx first).flatMap fun x => x.1.2.ending x.2 x.1.1

theorem liveOf_cons (first : Nat) (path : String) (lane : Lane) (lanes : List (String × Lane)) :
    liveOf first ((path, lane) :: lanes) = lane.live first ++ liveOf (first + 1) lanes := rfl

theorem endingsOf_cons (first : Nat) (path : String) (lane : Lane) (lanes : List (String × Lane)) :
    endingsOf first ((path, lane) :: lanes) = lane.ending first path ++ endingsOf (first + 1) lanes := rfl

theorem liveOf_append (first : Nat) (before after : List (String × Lane)) :
    liveOf first (before ++ after) = liveOf first before ++ liveOf (first + before.length) after := by
  rw [liveOf, List.zipIdx_append, List.flatMap_append]
  rfl

theorem endingsOf_append (first : Nat) (before after : List (String × Lane)) :
    endingsOf first (before ++ after) = endingsOf first before ++ endingsOf (first + before.length) after := by
  rw [endingsOf, List.zipIdx_append, List.flatMap_append]
  rfl

theorem exists_lane (h : u ∈ liveOf first lanes) : ∃ before path after,
    lanes = before ++ (path, .underway u.flight u.delivery) :: after ∧
      u.number = first + before.length := by
  induction lanes generalizing first with
  | nil => cases h
  | cons x rest ih =>
    obtain ⟨path, lane⟩ := x
    rcases List.mem_append.mp (liveOf_cons first path lane rest ▸ h) with hfirst | hrest
    · cases lane with
      | ended result => cases hfirst
      | underway flight delivery =>
        obtain rfl := List.mem_singleton.mp hfirst
        exact ⟨[], path, rest, rfl, rfl⟩
    · obtain ⟨before, q, after, rfl, hnumber⟩ := ih hrest
      refine ⟨(path, lane) :: before, q, after, rfl, ?_⟩
      rw [hnumber, List.length_cons]
      omega

theorem ended_of_liveOf_eq_nil (h : liveOf first lanes = []) :
    lanes = (lanes.map fun x => (x.1, x.2.result)).map fun x => (x.1, .ended x.2) := by
  induction lanes generalizing first with
  | nil => rfl
  | cons x rest ih =>
    obtain ⟨path, lane⟩ := x
    obtain ⟨hfirst, hrest⟩ := List.append_eq_nil_iff.mp (liveOf_cons first path lane rest ▸ h)
    cases lane with
    | ended result => exact congrArg ((path, .ended result) :: ·) (ih hrest)
    | underway flight delivery => cases hfirst

theorem liveOf_ended (first : Nat) (results : List (String × PumpResult)) :
    liveOf first (results.map fun x => (x.1, .ended x.2)) = [] := by
  induction results generalizing first with
  | nil => rfl
  | cons x rest ih => exact ih (first + 1)

theorem endingsOf_ended (first : Nat) (results : List (String × PumpResult)) :
    endingsOf first (results.map fun x => (x.1, .ended x.2)) =
      (results.zipIdx first).map fun x => ⟨x.2, x.1.1, x.1.2⟩ := by
  induction results generalizing first with
  | nil => rfl
  | cons x rest ih => exact congrArg (⟨first, x.1, x.2⟩ :: ·) (ih (first + 1))

/-- The pumps of the lanes are those under way, and those that have ended; and the lanes are those of
paths of which some got a slot. -/
structure InLanes (e₀ : Engine) (taken : List String) (first : Nat) (lanes : List (String × Lane))
    (c : Course) (ended : List Ending) : Prop where
  live : c.live.Perm (liveOf first lanes)
  ended : ended.Perm (endingsOf first lanes)
  rounding : e₀.Rounding c.engine e₀.registry.pendingPaths taken lanes

/-! ## The pumps begin -/

theorem begins_lanes (paths : List String) (c : Course) :
    (paths.foldl begin c).engine = (c.engine.beginAll paths).1 ∧
      (paths.foldl begin c).live.Perm (liveOf c.nextPump (c.engine.beginAll paths).2 ++ c.live) ∧
      c.endsBegins paths = endingsOf c.nextPump (c.engine.beginAll paths).2 := by
  induction paths generalizing c with
  | nil => exact ⟨rfl, .refl _, rfl⟩
  | cons path rest ih =>
    obtain ⟨hengine, hlive, hends⟩ := ih (c.begin path)
    have hown := Lane.live_of c.nextPump (c.engine.begin path).2
    have hending := Lane.ending_of c.nextPump path (c.engine.begin path).2
    refine ⟨hengine, ?_, ?_⟩
    · show ((rest.foldl begin (c.begin path)).live).Perm
        (((Lane.of (c.engine.begin path).2).live c.nextPump ++ liveOf (c.nextPump + 1) _) ++ c.live)
      rw [hown, List.append_assoc]
      exact hlive.trans (List.perm_append_comm_assoc _ _ _)
    · show ending c.nextPump path (c.engine.begin path).2 ++ (c.begin path).endsBegins rest =
        (Lane.of (c.engine.begin path).2).ending c.nextPump path ++ endingsOf (c.nextPump + 1) _
      rw [hending, hends]
      rfl

/-- Of the pumps of a call, as many as there are slots get one. -/
theorem inLanes_begins (hlive : c.live = []) (hidle : c.engine.Idle) :
    InLanes c.engine (c.engine.registry.pendingPaths.take c.engine.slots.ceiling) c.nextPump
      (c.engine.beginAll c.engine.registry.pendingPaths).2 (c.step .pumpPending)
      (c.ends .pumpPending) := by
  obtain ⟨hengine, hbegun, hends⟩ := begins_lanes c.engine.registry.pendingPaths c
  have hrounding := Engine.rounding_beginAll (e := c.engine)
    ((Engine.sorted_pendingPaths c.engine.registry).imp Std.ne_of_lt)
    fun p hp => Engine.mem_pendingPaths.mp hp
  rw [Engine.idle_iff.mp hidle, Nat.sub_zero, ← hengine] at hrounding
  rw [hlive, List.append_nil] at hbegun
  exact ⟨hbegun, .of_eq hends, hrounding⟩

/-! ## They go on, in any order -/

namespace InLanes

variable {e₀ : Engine} {taken : List String} {front back : List (String × Lane)} {path : String}
  {lane : Lane} {flight : Flight} {delivery : Delivery}

theorem find?_of_lane
    (h : InLanes e₀ taken first (front ++ (path, .underway flight delivery) :: back) c ended) :
    c.find? (first + front.length) = some ⟨first + front.length, flight, delivery⟩ := by
  have hmem : (⟨first + front.length, flight, delivery⟩ : Underway) ∈ c.live := by
    rw [h.live.mem_iff, liveOf_append, liveOf_cons]
    exact List.mem_append_right _ (List.mem_append_left _ (List.mem_singleton.mpr rfl))
  obtain ⟨u, hu⟩ : ∃ u, c.find? (first + front.length) = some u :=
    Option.isSome_iff_exists.mp (List.find?_isSome.mpr ⟨_, hmem, by simp⟩)
  -- no other lane has that number
  obtain ⟨before, q, after, hlanes, hnumber⟩ :=
    exists_lane (h.live.mem_iff.mp (List.mem_of_find?_eq_some hu))
  rw [number_of_find? hu, Nat.add_left_cancel_iff] at hnumber
  obtain ⟨-, hlane⟩ := List.append_inj hlanes hnumber
  obtain ⟨-, hflight, hdelivery⟩ : path = q ∧ flight = u.flight ∧ delivery = u.delivery := by
    simpa using (List.cons.inj hlane).1
  have hself := number_of_find? hu
  rw [hu, hflight, hdelivery, ← hself]

theorem attends
    (h : InLanes e₀ taken first (front ++ (path, .underway flight delivery) :: back) c ended) :
    path ∈ taken ∧ c.engine.Attends path (.underway flight delivery) := by
  have hlane := h.rounding.proceeds (path, .underway flight delivery)
    (List.mem_append_right _ List.mem_cons_self)
  exact hlane.resolve_right fun hout => by cases hout.2

theorem replace
    (h : InLanes e₀ taken first (front ++ (path, .underway flight delivery) :: back) c ended)
    (hlive : c'.live = lane.live (first + front.length) ++ without (first + front.length) c.live)
    (hstep : c'.engine.Attends path lane ∧ c'.engine.slots = c.engine.slots ∧
      ∀ q, q ≠ path → c'.engine.registry.find? q = c.engine.registry.find? q) :
    InLanes e₀ taken first (front ++ (path, lane) :: back) c'
      (ended ++ lane.ending (first + front.length) path) := by
  have hlive' := h.live
  have hended' := h.ended
  rw [liveOf_append, liveOf_cons] at hlive'
  rw [endingsOf_append, endingsOf_cons] at hended'
  have hothers : (without (first + front.length) c.live).Perm
      (liveOf first front ++ liveOf (first + front.length + 1) back) :=
    ((perm_of_find? h.find?_of_lane).symm.trans (hlive'.trans List.perm_middle)).cons_inv
  have hnodup : e₀.registry.pendingPaths.Nodup :=
    (Engine.sorted_pendingPaths e₀.registry).imp Std.ne_of_lt
  refine ⟨?_, ?_, h.rounding.replace hnodup h.attends.1 hstep.1 hstep.2.1 hstep.2.2⟩
  · rw [hlive, liveOf_append, liveOf_cons]
    exact (hothers.append_left _).trans (List.perm_append_comm_assoc _ _ _)
  · rw [endingsOf_append, endingsOf_cons]
    exact (hended'.append_right _).trans
      (List.perm_append_comm.trans (List.perm_append_comm_assoc _ _ _))

theorem turn
    (h : InLanes e₀ taken first (front ++ (path, .underway flight delivery) :: back) c ended) :
    let x := c.engine.turn (.underway flight delivery)
    let m := Move.turn (first + front.length)
    (c.step m).engine = x.1 ∧
      InLanes e₀ taken first (front ++ (path, x.2) :: back) (c.step m) (ended ++ c.ends m) := by
  intro x m
  obtain ⟨-, hattends⟩ := h.attends
  obtain ⟨hengine, hlive, hends⟩ := c.turn_lane ⟨first + front.length, flight, delivery⟩
  have hstep : c.step m = c.turn ⟨first + front.length, flight, delivery⟩ := by
    simp only [step, m, h.find?_of_lane, Option.elim]
  have hending : c.ends m = x.2.ending (first + front.length) path := by
    simp only [ends, m, h.find?_of_lane, Option.elim]
    rw [hends, ← hattends.1]
  rw [hstep, hending]
  refine ⟨hengine, h.replace hlive ?_⟩
  rw [hengine]
  exact Engine.attends_turn hattends

theorem fault
    (h : InLanes e₀ taken first (front ++ (path, .underway flight delivery) :: back) c ended)
    (fault : DiskFault) :
    let m := Move.fault (first + front.length) fault
    ∃ lane, InLanes e₀ taken first (front ++ (path, lane) :: back) (c.step m) (ended ++ c.ends m) := by
  intro m
  obtain ⟨-, hattends⟩ := h.attends
  let u : Underway := ⟨first + front.length, flight, delivery⟩
  obtain ⟨hengine, hlive, hends⟩ :=
    (c.withDisk (u.effect c.engine fault)).land_lane u (.error fault.cause)
  have hstep : c.step m = c.fault u fault := by
    simp only [step, m, h.find?_of_lane, Option.elim]
    rfl
  refine ⟨.of ((c.withDisk (u.effect c.engine fault)).engine.land flight (.error fault.cause)).2, ?_⟩
  have hending : c.ends m = (Lane.of ((c.withDisk (u.effect c.engine fault)).engine.land flight
      (.error fault.cause)).2).ending (first + front.length) path := by
    simp only [ends, m, h.find?_of_lane, Option.elim]
    exact hattends.1 ▸ hends
  rw [hstep, hending]
  refine h.replace hlive ?_
  have hlanding := Engine.attends_landing hattends (u.effect c.engine fault) (.error fault.cause)
  exact hengine ▸ hlanding

theorem congr (h : InLanes e₀ taken first lanes c ended) (hlive : c'.live = c.live)
    (hregistry : c'.engine.registry = c.engine.registry) (hslots : c'.engine.slots = c.engine.slots) :
    InLanes e₀ taken first lanes c' (ended ++ []) := by
  rw [List.append_nil]
  exact ⟨hlive ▸ h.live, h.ended, h.rounding.congr hregistry hslots⟩

end InLanes

/-- A move between calls leaves the lanes side by side. -/
theorem inLanes_step {e₀ : Engine} {taken : List String}
    (h : ∃ lanes, InLanes e₀ taken first lanes c ended) (hm : m.between = true) :
    ∃ lanes, InLanes e₀ taken first lanes (c.step m) (ended ++ c.ends m) := by
  obtain ⟨lanes, h⟩ := h
  -- a pump that goes on is that of a lane
  have hlane : ∀ {n u}, c.find? n = some u → ∃ front path back,
      lanes = front ++ (path, .underway u.flight u.delivery) :: back ∧ n = first + front.length := by
    intro n u hu
    have hmem := h.live.mem_iff.mp (List.mem_of_find?_eq_some hu)
    exact number_of_find? hu ▸ exists_lane hmem
  cases m with
  | turn n =>
    cases hu : c.find? n with
    | none =>
      simp only [step, ends, hu, Option.elim]
      exact ⟨lanes, h.congr rfl rfl rfl⟩
    | some u =>
      obtain ⟨front, path, back, rfl, rfl⟩ := hlane hu
      exact ⟨_, h.turn.2⟩
  | fault n fault =>
    cases hu : c.find? n with
    | none =>
      simp only [step, ends, hu, Option.elim]
      exact ⟨lanes, h.congr rfl rfl rfl⟩
    | some u =>
      obtain ⟨front, path, back, rfl, rfl⟩ := hlane hu
      obtain ⟨lane, hlane⟩ := h.fault fault
      exact ⟨_, hlane⟩
  | late n fault =>
    refine ⟨lanes, ?_⟩
    simp only [step, ends]
    cases c.owing? n <;> exact h.congr rfl rfl rfl
  | outside disk => exact ⟨lanes, h.congr rfl rfl rfl⟩
  | listen cursors => exact ⟨lanes, h.congr rfl rfl rfl⟩
  | _ => cases hm

theorem inLanes_run {e₀ : Engine} {taken : List String}
    (h : ∃ lanes, InLanes e₀ taken first lanes c ended) (hturns : ∀ m ∈ turns, m.between = true) :
    ∃ lanes, InLanes e₀ taken first lanes (c.run turns) (ended ++ c.endings turns) := by
  induction turns generalizing c ended with
  | nil =>
    rw [endings, List.append_nil]
    exact h
  | cons m rest ih =>
    have hstep := inLanes_step h (hturns m List.mem_cons_self)
    have hrest := ih hstep fun m hm => hturns m (List.mem_cons_of_mem _ hm)
    rw [List.append_assoc] at hrest
    exact hrest

/-- What a call comes to, in whatever order its pumps go on. -/
theorem pendingRound_of_run (hlive : c.live = []) (hidle : c.engine.Idle)
    (hturns : ∀ m ∈ turns, m.between = true) (hend : (c.run (.pumpPending :: turns)).live = []) :
    (c.run (.pumpPending :: turns)).engine.slots = c.engine.slots ∧
      ∃ results, c.Joins turns results ∧
        c.engine.PendingRound c.engine.slots.ceiling (c.run (.pumpPending :: turns)).engine results := by
  obtain ⟨lanes, h⟩ := inLanes_run ⟨_, inLanes_begins hlive hidle⟩ hturns
  have hlanes : liveOf c.nextPump lanes = [] := by
    have hlive' := h.live
    rw [show (c.step .pumpPending).run turns = c.run (.pumpPending :: turns) from rfl, hend] at hlive'
    exact hlive'.nil_eq.symm
  obtain ⟨results, rfl⟩ : ∃ results : List (String × PumpResult),
      lanes = results.map fun x => (x.1, .ended x.2) := ⟨_, ended_of_liveOf_eq_nil hlanes⟩
  refine ⟨h.rounding.slots, results, ?_, h.rounding.pendingRound⟩
  rw [Joins, ← endingsOf_ended]
  exact h.ended

/-! ## They come to their ends -/

/-- The most turns that the pumps under way still take. -/
def work (c : Course) : Nat :=
  (c.live.map fun u => c.engine.turnsLeft (.underway u.flight u.delivery)).sum

/-- The moves of a run that let a pump under way go on. -/
def progress (c : Course) : List Move → Nat
  | [] => 0
  | m :: rest => (m.pump?.bind c.find?).elim 0 (fun _ => 1) + (c.step m).progress rest

theorem work_of_step (hu : c.find? u.number = some u) {lane : Lane}
    (hlive : c'.live = lane.live u.number ++ without u.number c.live)
    (hown : c'.engine.turnsLeft lane + 1 ≤ c.engine.turnsLeft (.underway u.flight u.delivery))
    (hothers : ∀ other, c'.engine.turnsLeft other ≤ c.engine.turnsLeft other) :
    c'.work + 1 ≤ c.work := by
  have hlane : ((lane.live u.number).map fun v =>
      c'.engine.turnsLeft (.underway v.flight v.delivery)).sum = c'.engine.turnsLeft lane := by
    cases lane <;> rfl
  have hrest : ((without u.number c.live).map fun v =>
      c'.engine.turnsLeft (.underway v.flight v.delivery)).sum ≤
        ((without u.number c.live).map fun v =>
          c.engine.turnsLeft (.underway v.flight v.delivery)).sum :=
    List.sum_le_sum fun v _ => hothers _
  have hbefore := ((perm_of_find? hu).map fun v =>
    c.engine.turnsLeft (.underway v.flight v.delivery)).sum_eq
  rw [List.map_cons, List.sum_cons] at hbefore
  rw [work, work, hlive, List.map_append, List.sum_append, hlane, hbefore]
  omega

theorem work_turn (hu : c.find? u.number = some u) : (c.turn u).work + 1 ≤ c.work := by
  obtain ⟨hengine, hlive, -⟩ := c.turn_lane u
  have hleft := Engine.turnsLeft_turn c.engine (.underway u.flight u.delivery)
  have hpos : 0 < c.engine.turnsLeft (.underway u.flight u.delivery) :=
    Nat.add_pos_left (Delivery.left_pos _ _) _
  refine work_of_step hu hlive ?_ fun other => ?_
  · rw [hengine]
    omega
  · rw [hengine]
    exact Engine.turnsLeft_le (Engine.waiting_turn c.engine _) other

theorem work_fault (hu : c.find? u.number = some u) (fault : DiskFault) :
    (c.fault u fault).work + 1 ≤ c.work := by
  obtain ⟨hengine, hlive, -⟩ :=
    (c.withDisk (u.effect c.engine fault)).land_lane u (.error fault.cause)
  have hland := Engine.turnsLeft_land { c.engine with disk := u.effect c.engine fault } u.flight
    (.error fault.cause)
  have hpos := Delivery.left_pos u.flight.fragment u.delivery
  refine work_of_step hu hlive ?_ fun other => ?_
  · rw [Course.fault, hengine]
    refine (Nat.add_le_add_right hland 1).trans ?_
    show c.engine.operationsBehind u.flight + 1 ≤ _ + c.engine.operationsBehind u.flight
    omega
  · rw [Course.fault, hengine]
    exact Engine.turnsLeft_le (Engine.waiting_land _ u.flight (.error fault.cause)) other

theorem work_step (hm : m.between = true) :
    (m.pump?.bind c.find?).elim 0 (fun _ => 1) + (c.step m).work ≤ c.work := by
  cases m with
  | turn n =>
    simp only [Move.pump?, Option.bind_some, step]
    cases hu : c.find? n with
    | none => exact (Nat.zero_add _).le
    | some u =>
      have hwork := work_turn (number_of_find? hu ▸ hu)
      exact (Nat.add_comm _ _).le.trans hwork
  | fault n fault =>
    simp only [Move.pump?, Option.bind_some, step]
    cases hu : c.find? n with
    | none => exact (Nat.zero_add _).le
    | some u =>
      have hwork := work_fault (number_of_find? hu ▸ hu) fault
      exact (Nat.add_comm _ _).le.trans hwork
  | late n fault =>
    simp only [Move.pump?, Option.bind_none, step]
    cases c.owing? n <;> exact (Nat.zero_add _).le
  | outside disk => exact (Nat.zero_add _).le
  | listen cursors => exact (Nat.zero_add _).le
  | _ => cases hm

/-- Pumps that go on come to their ends: there is no more progress than work. -/
theorem progress_le (hturns : ∀ m ∈ turns, m.between = true) : c.progress turns ≤ c.work := by
  induction turns generalizing c with
  | nil => exact Nat.zero_le _
  | cons m rest ih =>
    have hrest := ih (c := c.step m) fun m hm => hturns m (List.mem_cons_of_mem _ hm)
    exact (Nat.add_le_add_left hrest _).trans (work_step (hturns m List.mem_cons_self))

/-- At any time turns of the pumps are enough to let all of them end. -/
theorem exists_end (c : Course) : ∃ turns, (∀ m ∈ turns, ∃ n, m = .turn n) ∧ (c.run turns).live = [] := by
  induction hwork : c.work using Nat.strongRecOn generalizing c with
  | ind work ih =>
    by_cases hlive : c.live = []
    · exact ⟨[], nofun, hlive⟩
    · obtain ⟨v, hv⟩ := List.exists_mem_of_ne_nil _ hlive
      obtain ⟨u, hu⟩ : ∃ u, c.find? v.number = some u :=
        Option.isSome_iff_exists.mp (List.find?_isSome.mpr ⟨v, hv, by simp⟩)
      have hstep : c.step (.turn v.number) = c.turn u := by
        simp only [step, hu, Option.elim]
      have hless : (c.turn u).work + 1 ≤ c.work := work_turn (number_of_find? hu ▸ hu)
      obtain ⟨turns, hturns, hend⟩ := ih _ (by omega) (c.turn u) rfl
      refine ⟨.turn v.number :: turns, ?_, ?_⟩
      · exact List.forall_mem_cons.mpr ⟨⟨_, rfl⟩, hturns⟩
      · rw [← hstep] at hend
        exact hend

/-! ## Rounds of all pumps -/

theorem between_of_turn (h : ∃ n, m = .turn n) : m.between = true := by
  obtain ⟨n, rfl⟩ := h
  rfl

variable {e₀ : Engine} {taken : List String}

/-- One turn of each lane, in their order, is turns of their pumps. -/
theorem exists_round {front : List (String × Lane)}
    (h : InLanes e₀ taken first (front ++ lanes) c ended) :
    ∃ turns, (∀ m ∈ turns, ∃ n, m = .turn n) ∧
      (c.run turns).engine = (c.engine.round lanes).1 ∧
      InLanes e₀ taken first (front ++ (c.engine.round lanes).2) (c.run turns)
        (ended ++ c.endings turns) := by
  induction lanes generalizing front c ended with
  | nil => exact ⟨[], nofun, rfl, h.congr rfl rfl rfl⟩
  | cons x rest ih =>
    obtain ⟨path, lane⟩ := x
    -- the first lane takes its turn, if it has not ended, and stands in front of the others
    obtain ⟨turns, hturns, hengine, hfirst⟩ : ∃ turns, (∀ m ∈ turns, ∃ n, m = .turn n) ∧
        (c.run turns).engine = (c.engine.turn lane).1 ∧
        InLanes e₀ taken first ((front ++ [(path, (c.engine.turn lane).2)]) ++ rest) (c.run turns)
          (ended ++ c.endings turns) := by
      rw [List.append_assoc]
      cases lane with
      | ended result => exact ⟨[], nofun, rfl, h.congr rfl rfl rfl⟩
      | underway flight delivery =>
        obtain ⟨hengine, hturn⟩ := h.turn
        refine ⟨[.turn (first + front.length)], by simp, hengine, ?_⟩
        rw [endings, endings, List.append_nil]
        exact hturn
    obtain ⟨more, hmore, hengine', hrest⟩ := ih hfirst
    rw [hengine] at hengine' hrest
    refine ⟨turns ++ more, List.forall_mem_append.mpr ⟨hturns, hmore⟩, ?_, ?_⟩
    · rw [run, List.foldl_append]
      exact hengine'
    · rw [endings_append, run, List.foldl_append, ← List.append_assoc]
      rw [List.append_assoc] at hrest
      exact hrest

theorem exists_roundsFor (count : Nat) (h : InLanes e₀ taken first lanes c ended) :
    ∃ turns, (∀ m ∈ turns, ∃ n, m = .turn n) ∧
      (c.run turns).engine = (Engine.roundsFor count c.engine lanes).1 ∧
      InLanes e₀ taken first (Engine.roundsFor count c.engine lanes).2 (c.run turns)
        (ended ++ c.endings turns) := by
  induction count generalizing c lanes ended with
  | zero => exact ⟨[], nofun, rfl, h.congr rfl rfl rfl⟩
  | succ count ih =>
    have hall : InLanes e₀ taken first ([] ++ lanes) c ended := h
    obtain ⟨turns, hturns, hengine, hround⟩ := exists_round hall
    obtain ⟨more, hmore, hengine', hrest⟩ := ih hround
    rw [hengine] at hengine' hrest
    refine ⟨turns ++ more, List.forall_mem_append.mpr ⟨hturns, hmore⟩, ?_, ?_⟩
    · rw [run, List.foldl_append]
      exact hengine'
    · rw [endings_append, run, List.foldl_append, ← List.append_assoc]
      exact hrest

/-- Rounds of all pumps until each has ended are one order in which they may go on, and the answer is the
same. -/
theorem exists_pumpPending (hlive : c.live = []) (hidle : c.engine.Idle) :
    ∃ turns, (∀ m ∈ turns, m.between = true) ∧ (c.run (.pumpPending :: turns)).live = [] ∧
      (c.run (.pumpPending :: turns)).engine = c.engine.pumpPending.1 ∧
      c.Joins turns c.engine.pumpPending.2 := by
  obtain ⟨hengine, -, -⟩ := begins_lanes c.engine.registry.pendingPaths c
  obtain ⟨count, hrounds, hlanes⟩ := Engine.rounds_end
    (c.engine.beginAll c.engine.registry.pendingPaths).1
    (c.engine.beginAll c.engine.registry.pendingPaths).2
  obtain ⟨turns, hturns, hafter, h⟩ := exists_roundsFor count (inLanes_begins hlive hidle)
  have hlanes' : (Engine.roundsFor count (c.step .pumpPending).engine
      (c.engine.beginAll c.engine.registry.pendingPaths).2).2 =
        c.engine.pumpPending.2.map fun x => (x.1, .ended x.2) :=
    (congrArg (fun e => (Engine.roundsFor count e _).2) hengine).trans hlanes
  rw [hlanes'] at h
  refine ⟨turns, fun m hm => between_of_turn (hturns m hm), ?_, ?_, ?_⟩
  · have hnone := h.live
    rw [liveOf_ended] at hnone
    exact hnone.eq_nil
  · exact hafter.trans ((congrArg (fun e => (Engine.roundsFor count e _).1) hengine).trans hrounds.symm)
  · rw [Joins, ← endingsOf_ended]
    exact h.ended

/-! ## Calls, one after another -/

/-- So many calls of `pump_pending`, with no other call between them; each is over before the next one. -/
inductive PendingRounds : Nat → Course → Course → Prop
  | none (c : Course) : PendingRounds 0 c c
  | more {count : Nat} {c c' : Course} (turns : List Move) (hturns : ∀ m ∈ turns, m.between = true)
      (hend : (c.run (.pumpPending :: turns)).live = [])
      (rest : PendingRounds count (c.run (.pumpPending :: turns)) c') :
      PendingRounds (count + 1) c c'

theorem PendingRounds.pendingPaths {count : Nat} (h : PendingRounds count c c') (hlive : c.live = [])
    (hidle : c.engine.Idle) : c'.engine.registry.pendingPaths =
      c.engine.registry.pendingPaths.drop (count * c.engine.slots.ceiling) := by
  induction h with
  | none c => rw [Nat.zero_mul, List.drop_zero]
  | more turns hturns hend rest ih =>
    obtain ⟨hslots, results, -, hround⟩ := pendingRound_of_run hlive hidle hturns hend
    rw [ih hend (hround.idle hidle), hround.pendingPaths, hslots, List.drop_drop, Nat.succ_mul,
      Nat.add_comm]

theorem exists_pendingRounds (count : Nat) (c : Course) : ∃ c', PendingRounds count c c' := by
  induction count generalizing c with
  | zero => exact ⟨c, .none c⟩
  | succ count ih =>
    obtain ⟨turns, hturns, hend⟩ := (c.step .pumpPending).exists_end
    obtain ⟨c', hrest⟩ := ih (c.run (.pumpPending :: turns))
    exact ⟨c', .more turns (fun m hm => between_of_turn (hturns m hm)) hend hrest⟩

end Course

/-- In every state that calls and turns of pumps lead to, while no pump is under way, one call pumps all
pending uploads, and its pumps go on in any order, whatever becomes of the disk meanwhile. When all have
ended the call answers in the order of the paths. As many uploads as there are slots come first, and are
written out or come to a failed write; nothing waits for them then, and their slots are free. The others are
put off, and no record changes but those of the first. Pumps that go on come to their ends, after no more
moves than there is work. So of several calls, with no other between them, each takes as many as there are
slots, and none waits after as many calls as that takes, and not before. -/
theorem pending_in_path_order (disk : Disk) (storage : Storage) (writers maxSize capacity : Nat)
    (moves : List Move) :
    let c := (Course.new (.new disk storage writers maxSize capacity)).run moves
    c.live = [] →
    let n := max writers 1
    let paths := c.engine.registry.pendingPaths
    paths.Pairwise (· < ·) ∧
    (∀ turns : List Move, (∀ m ∈ turns, m.between = true) →
      let after := c.run (.pumpPending :: turns)
      (after.live = [] → ∃ results, c.Joins turns results ∧
        c.engine.PendingRound n after.engine results) ∧
      (c.step .pumpPending).progress turns ≤ (c.step .pumpPending).work ∧
      ∃ more, (∀ m ∈ more, ∃ k, m = .turn k) ∧ (after.run more).live = []) ∧
    (∃ turns : List Move, (∀ m ∈ turns, m.between = true) ∧
      (c.run (.pumpPending :: turns)).live = [] ∧
      (c.run (.pumpPending :: turns)).engine = c.engine.pumpPending.1 ∧
      c.Joins turns c.engine.pumpPending.2) ∧
    (∀ count c', Course.PendingRounds count c c' →
      (c'.engine.registry.pendingPaths = [] ↔ (paths.length + n - 1) / n ≤ count)) ∧
    ∀ count, ∃ c', Course.PendingRounds count c c' := by
  intro c hquiet n paths
  have hidle : c.engine.Idle := Engine.idle_iff.mpr (Course.writingCount_of_quiet _ rfl moves hquiet)
  have hceiling : c.engine.slots.ceiling = n :=
    congrArg WriteSlots.ceiling (Course.later_run _ moves).engine.slots
  have hpos : 0 < n := hceiling ▸ c.engine.slots.ceiling_pos
  refine ⟨Engine.sorted_pendingPaths _, fun turns hturns => ⟨fun hend => ?_, ?_, ?_⟩,
    Course.exists_pumpPending hquiet hidle, fun count c' hrounds => ?_,
    fun count => Course.exists_pendingRounds count c⟩
  · obtain ⟨-, results, hjoins, hround⟩ := Course.pendingRound_of_run hquiet hidle hturns hend
    exact ⟨results, hjoins, hceiling ▸ hround⟩
  · exact Course.progress_le hturns
  · exact Course.exists_end _
  · rw [hrounds.pendingPaths hquiet hidle, hceiling, List.drop_eq_nil_iff,
      Nat.div_le_iff_le_mul_add_pred hpos, Nat.mul_comm]
    show paths.length ≤ n * count ↔ _
    omega

/-- Fragments wait for two uploads, one may write at a time, and no pump is under way. -/
def twoPutOff : List Move :=
  [.init "a" 4 0 "", .init "b" 2 0 "", .submit "a" ⟨0, #[1, 2]⟩, .submit "a" ⟨2, #[3, 4]⟩,
    .submit "b" ⟨0, #[5, 6]⟩, .drop 0]

def twoPending : Course := (Course.new (.new .empty ⟨"up"⟩ 1 100 16)).run twoPutOff

/-- One call writes the first out and puts the second off, in any order; two write both. -/
theorem second_call_writes_second :
    twoPending.live = [] ∧ twoPending.engine.registry.pendingPaths = ["a", "b"] ∧
      (∃ turns results, twoPending.Joins turns results ∧ results.map Prod.fst = ["a", "b"] ∧
        ∀ x ∈ results.drop 1, x.2 = .ok .deferred) ∧
      (∀ c', Course.PendingRounds 1 twoPending c' → c'.engine.registry.pendingPaths ≠ []) ∧
      ∃ c', Course.PendingRounds 2 twoPending c' ∧ c'.engine.registry.pendingPaths = [] := by
  have hquiet : twoPending.live = [] := rfl
  have hpending : twoPending.engine.registry.pendingPaths = ["a", "b"] := by decide
  have hall := pending_in_path_order .empty ⟨"up"⟩ 1 100 16 twoPutOff hquiet
  rw [← twoPending] at hall
  obtain ⟨-, hround, ⟨turns, hturns, hend, -, -⟩, hcount, hcalls⟩ := hall
  rw [hpending] at hcount
  refine ⟨hquiet, hpending, ?_, fun c' hone hnone => ?_, ?_⟩
  · obtain ⟨results, hjoins, hresults⟩ := (hround turns hturns).1 hend
    exact ⟨turns, results, hjoins, hresults.order.trans hpending, hresults.putOff⟩
  · exact absurd ((hcount 1 c' hone).mp hnone) (by decide)
  · obtain ⟨c', htwo⟩ := hcalls 2
    exact ⟨c', htwo, (hcount 2 c' htwo).mpr (by decide)⟩

/-- A fragment waits for an upload, and one for another whose path leads through it; both may write. -/
def onePathInAnother : Course := (Course.new (.new emptyBase ⟨"up"⟩ 2 100 16)).run
  [.init "x" 2 0 "", .init "x/y" 2 0 "", .submit "x" ⟨0, #[1]⟩, .submit "x" ⟨1, #[2]⟩,
    .submit "x/y" ⟨0, #[3]⟩, .submit "x/y" ⟨1, #[4]⟩, .drop 0, .drop 2]

-- the one that is first to make its way is written, and the other fails; both had a slot
example :
    (onePathInAnother.endings [.pumpPending, .turn 4, .turn 4, .turn 4, .turn 4, .turn 5]).map
        (fun x => (x.path, x.result.isOk)) = [("x", true), ("x/y", false)] ∧
      (onePathInAnother.endings [.pumpPending, .turn 5, .turn 5, .turn 5, .turn 5, .turn 4,
        .turn 4]).map (fun x => (x.path, x.result.isOk)) = [("x/y", true), ("x", false)] := by
  decide +kernel

end ResumableUpload
