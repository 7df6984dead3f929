import ResumableUpload.Proofs.Course.Pending

/-
  Reached — the calls of an engine are moves

  What a call does to an engine in one go, moves do one after another: a pump
  that is run to its end takes its turns, and pumps that run side by side take
  turns by turns. So whatever holds of every course holds of an engine that was
  only ever called; and where each call is over before the next one begins, so is
  what holds of the runs that keep to such a rule.

  What is held:
    1. `Reached` — moves that keep to a rule lead to the engine, with such
       fragments on their way.
    2. `Admits` — a rule that lets pumps go on, and calls be made.

  What is proved:
    1. `admits_any`, `admits_orderly` — two such rules.
    2. `Reached.turn`, `Reached.finish` — a turn of a pump is a move, and the
       rest of a delivery is moves.
    3. `Reached.resume`, `drive`, `settle` — so are the steps of a pump.
    4. `Reached.rounds`, `Reached.pumpPending` — so are pumps side by side.
-/

namespace ResumableUpload

/-- The fragment of a pump, and what is left of its delivery. -/
def Underway.carried (u : Underway) : Flight × Delivery := (u.flight, u.delivery)

/-- The fragment of a lane, and what is left of its delivery. -/
def Lane.carried : Lane → List (Flight × Delivery)
  | ended _ => []
  | underway flight delivery => [(flight, delivery)]

/-- Moves that keep to a rule lead from `start` to `e`, and leave such fragments on their way, whatever
the numbers of their pumps. -/
def Reached (rule : Course → Move → Prop) (start e : Engine) (carried : List (Flight × Delivery)) :
    Prop :=
  ∃ moves, (Course.new start).Obeys rule moves ∧ ((Course.new start).run moves).engine = e ∧
    (((Course.new start).run moves).live.map Underway.carried).Perm carried

/-- What is asked of an engine, rather than what happens to it. -/
def Move.isCall : Move → Bool
  | .init _ _ _ _ => true
  | .initWithin _ _ _ _ _ => true
  | .submit _ _ => true
  | .pump _ => true
  | .pumpPending => true
  | .remove _ => true
  | .discard _ => true
  | .listen _ => true
  | _ => false

/-- The rule lets a pump take its turn at any time, and calls be made while such fragments are on their
way. -/
structure Admits (rule : Course → Move → Prop) (carried : List (Flight × Delivery)) : Prop where
  turn : ∀ c n, rule c (.turn n)
  call : ∀ c m, m.isCall = true → (c.live.map Underway.carried).Perm carried → rule c m

theorem admits_any (carried : List (Flight × Delivery)) : Admits (fun _ _ => True) carried :=
  ⟨fun _ _ => trivial, fun _ _ _ _ => trivial⟩

/-- Calls come one after another where nothing is on its way when one is made. -/
theorem admits_orderly : Admits Course.Orderly [] where
  turn := fun _ _ => .of_pump rfl
  call := by
    intro c m hm hlive
    refine ⟨?_, ?_, fun _ => List.map_eq_nil_iff.mp hlive.eq_nil⟩
    · rintro disk rfl
      cases hm
    · rintro n fault rfl
      cases hm

theorem Lane.carried_live (n : Nat) (lane : Lane) :
    (lane.live n).map Underway.carried = lane.carried := by
  cases lane <;> rfl

namespace Course

theorem map_carried_standing (n : Nat) (state : Pumping) :
    (standing n state).map Underway.carried = (Lane.of state).carried := by
  cases state <;> rfl

end Course

namespace Reached

variable {rule : Course → Move → Prop} {start e : Engine} {flight : Flight} {delivery : Delivery}
  {carried rest : List (Flight × Delivery)}

theorem refl (rule : Course → Move → Prop) (start : Engine) : Reached rule start start [] :=
  ⟨[], trivial, rfl, .refl _⟩

theorem perm (h : Reached rule start e carried) (hperm : carried.Perm rest) :
    Reached rule start e rest := by
  obtain ⟨moves, hobeys, hengine, hlive⟩ := h
  exact ⟨moves, hobeys, hengine, hlive.trans hperm⟩

theorem move {e' : Engine} {more : List (Flight × Delivery)} (h : Reached rule start e carried)
    (m : Move) (hrule : ∀ c : Course, (c.live.map Underway.carried).Perm carried → rule c m)
    (hm : ∀ c : Course, c.engine = e → (c.step m).engine = e' ∧
      ((c.step m).live.map Underway.carried).Perm (more ++ c.live.map Underway.carried)) :
    Reached rule start e' (more ++ carried) := by
  obtain ⟨moves, hobeys, hengine, hlive⟩ := h
  obtain ⟨hstep, hmore⟩ := hm _ hengine
  refine ⟨moves ++ [m], Course.obeys_append.mpr ⟨hobeys, hrule _ hlive, trivial⟩, ?_, ?_⟩
  · rw [Course.run_concat, hstep]
  · rw [Course.run_concat]
    exact hmore.trans (hlive.append_left more)

theorem quiet {e' : Engine} (h : Reached rule start e carried) (hrule : Admits rule carried) (m : Move)
    (hcall : m.isCall = true)
    (hm : ∀ c : Course, c.engine = e → (c.step m).engine = e' ∧ (c.step m).live = c.live) :
    Reached rule start e' carried := by
  show Reached rule start e' ([] ++ carried)
  apply h.move m fun c hlive => hrule.call c m hcall hlive
  intro c hc
  obtain ⟨hengine, hlive⟩ := hm c hc
  exact ⟨hengine, .of_eq (by rw [hlive]; rfl)⟩

theorem moveFirst {e' : Engine} {more : List (Flight × Delivery)}
    (h : Reached rule start e ((flight, delivery) :: rest)) (m : Nat → Move)
    (hrule : ∀ c n, rule c (m n))
    (hm : ∀ (c : Course) (u : Underway), c.engine = e → c.find? u.number = some u →
      u.flight = flight → u.delivery = delivery →
      (c.step (m u.number)).engine = e' ∧ (c.step (m u.number)).live.map Underway.carried =
        more ++ (Course.without u.number c.live).map Underway.carried) :
    Reached rule start e' (more ++ rest) := by
  obtain ⟨moves, hobeys, hengine, hlive⟩ := h
  obtain ⟨u, hu, hcarried⟩ := List.mem_map.mp (hlive.mem_iff.mpr List.mem_cons_self)
  have hfind := Course.find?_of_mem (numbering_run start moves) hu
  have hrest : ((Course.without u.number ((Course.new start).run moves).live).map
      Underway.carried).Perm rest := by
    have hfront := ((Course.perm_of_find? hfind).map Underway.carried).symm.trans hlive
    rw [List.map_cons, hcarried] at hfront
    exact hfront.cons_inv
  obtain ⟨hflight, hdelivery⟩ := Prod.mk.inj hcarried
  obtain ⟨hstep, hmore⟩ := hm _ u hengine hfind hflight hdelivery
  refine ⟨moves ++ [m u.number], Course.obeys_append.mpr ⟨hobeys, hrule _ _, trivial⟩, ?_, ?_⟩
  · rw [Course.run_concat, hstep]
  · rw [Course.run_concat, hmore]
    exact hrest.append_left more

/-! ## The steps of a pump -/

section Turns

variable (hturn : ∀ c n, rule c (.turn n))
include hturn

theorem turn (h : Reached rule start e ((flight, delivery) :: rest)) :
    Reached rule start (e.turn (.underway flight delivery)).1
      ((e.turn (.underway flight delivery)).2.carried ++ rest) := by
  apply h.moveFirst .turn hturn
  rintro c u rfl hfind rfl rfl
  have hstep : c.step (.turn u.number) = c.turn u := by
    simp only [Course.step, hfind, Option.elim]
  obtain ⟨hengine, hlive, -⟩ := c.turn_lane u
  rw [hstep, hlive, List.map_append, Lane.carried_live]
  exact ⟨hengine, rfl⟩

theorem finish (h : Reached rule start e ((flight, delivery) :: rest)) :
    let x := delivery.finish e.storage flight.pump.path flight.fragment e.disk
    let y := { e with disk := x.1 }.land flight x.2
    Reached rule start y.1 ((Lane.of y.2).carried ++ rest) := by
  induction hleft : delivery.left flight.fragment using Nat.strongRecOn generalizing e delivery with
  | ind n ih =>
    have hnext := h.turn hturn
    rw [Delivery.finish_eq]
    cases hadvance : delivery.advance e.storage flight.pump.path flight.fragment e.disk with
    | mk disk step =>
      cases step with
      | onward next =>
        rw [Engine.turn_of_onward hadvance] at hnext
        have hless := Delivery.left_of_onward hadvance
        exact ih _ (hleft ▸ hless) hnext rfl
      | ended result =>
        rw [Engine.turn_of_ended hadvance] at hnext
        exact hnext

theorem resume (h : Reached rule start e ((flight, .start flight.pump.writer) :: rest)) :
    Reached rule start (e.resume flight).1 ((Lane.of (e.resume flight).2).carried ++ rest) :=
  h.finish hturn

/-- A pump run to its end makes moves. -/
theorem drive (h : Reached rule start e ((flight, .start flight.pump.writer) :: rest)) :
    Reached rule start (e.drive flight).1 rest := by
  induction hbehind : e.waitingBehind flight using Nat.strongRecOn generalizing e flight with
  | ind n ih =>
    have hresume := h.resume hturn
    rw [Engine.drive_eq]
    cases hstep : e.resume flight with
    | mk e' state =>
      rw [hstep] at hresume
      cases state with
      | ended result => exact hresume
      | inFlight next =>
        have hless : e'.waitingBehind next < n := by
          rw [← hbehind, Engine.waitingBehind_of_resume hstep]
          exact Nat.lt_succ_self _
        exact ih _ hless hresume rfl

theorem settle {state : Pumping} (h : Reached rule start e ((Lane.of state).carried ++ rest)) :
    Reached rule start (e.settle state).1 rest := by
  cases state with
  | ended result => exact h
  | inFlight flight => exact h.drive hturn

end Turns

theorem abandon (h : Reached rule start e ((flight, delivery) :: rest))
    (hdrop : ∀ c n, rule c (.drop n)) : Reached rule start (e.abandon flight) rest := by
  show Reached rule start (e.abandon flight) ([] ++ rest)
  apply h.moveFirst .drop hdrop
  rintro c u rfl hfind rfl rfl
  have hstep : c.step (.drop u.number) = c.abandon u := by
    simp only [Course.step, hfind, Option.elim]
  rw [hstep]
  exact ⟨rfl, rfl⟩

/-! ## Calls -/

theorem begin (h : Reached rule start e carried) (hrule : Admits rule carried) (path : String) :
    Reached rule start (e.begin path).1 ((Lane.of (e.begin path).2).carried ++ carried) := by
  apply h.move (.pump path) fun c hlive => hrule.call c _ rfl hlive
  rintro c rfl
  refine ⟨rfl, .of_eq ?_⟩
  show (Course.standing c.nextPump (c.engine.begin path).2 ++ c.live).map Underway.carried = _
  rw [List.map_append, Course.map_carried_standing]

theorem beginSubmit (h : Reached rule start e carried) (hrule : Admits rule carried) (path : String)
    (f : Fragment) : Reached rule start (e.beginSubmit path f).1
      ((Lane.of (e.beginSubmit path f).2).carried ++ carried) := by
  cases haccept : e.accept path f with
  | error err =>
    simp only [Engine.beginSubmit, haccept]
    exact h
  | ok e' =>
    simp only [Engine.beginSubmit, haccept]
    apply h.move (.submit path f) fun c hlive => hrule.call c _ rfl hlive
    rintro c rfl
    obtain ⟨r, notice, hr, -, -⟩ := Engine.accept_eq_ok haccept
    have hstep : c.step (.submit path f) = (c.onward e' r.id [.accepted f]).begin path := by
      show ((c.accept path f).map fun c => c.begin path).getD c = _
      unfold Course.accept
      rw [haccept, hr]
      rfl
    rw [hstep]
    refine ⟨rfl, .of_eq ?_⟩
    show (Course.standing c.nextPump (e'.begin path).2 ++ c.live).map Underway.carried = _
    rw [List.map_append, Course.map_carried_standing]

theorem submit (h : Reached rule start e carried) (hrule : Admits rule carried) (path : String)
    (f : Fragment) : Reached rule start (e.submit path f).1 carried :=
  (h.beginSubmit hrule path f).settle hrule.turn

theorem pump (h : Reached rule start e carried) (hrule : Admits rule carried) (path : String) :
    Reached rule start (e.pump path).1 carried := (h.begin hrule path).settle hrule.turn

theorem init {e' : Engine} {t : Ticket} (h : Reached rule start e carried)
    (hrule : Admits rule carried) {path clientPath : String} {size : Nat} {owner : Int}
    (hinit : e.init path size owner clientPath = .ok (e', t)) : Reached rule start e' carried := by
  apply h.quiet hrule (.init path size owner clientPath) rfl
  rintro c rfl
  have hstep : c.step (.init path size owner clientPath) = c.onward e' t.id [.registered] := by
    show c.registered (c.engine.init path size owner clientPath) = _
    rw [hinit]
    rfl
  rw [hstep]
  exact ⟨rfl, rfl⟩

theorem initWithin {e' : Engine} {t : Ticket} (h : Reached rule start e carried)
    (hrule : Admits rule carried) {quota : Quota} {path clientPath : String} {size : Nat} {owner : Int}
    (hinit : e.initWithin quota path size owner clientPath = .ok (e', t)) :
    Reached rule start e' carried := by
  apply h.quiet hrule (.initWithin quota path size owner clientPath) rfl
  rintro c rfl
  have hstep : c.step (.initWithin quota path size owner clientPath) =
      c.onward e' t.id [.registered] := by
    show c.registered (c.engine.initWithin quota path size owner clientPath) = _
    rw [hinit]
    rfl
  rw [hstep]
  exact ⟨rfl, rfl⟩

theorem remove (h : Reached rule start e carried) (hrule : Admits rule carried) (path : String) :
    Reached rule start (e.remove path) carried := by
  apply h.quiet hrule (.remove path) rfl
  rintro c rfl
  show (c.removed path (c.engine.remove path)).engine = _ ∧ (c.removed path _).live = _
  unfold Course.removed
  split <;> exact ⟨rfl, rfl⟩

theorem discard (h : Reached rule start e carried) (hrule : Admits rule carried) (path : String) :
    Reached rule start (e.discard path).1 carried := by
  apply h.quiet hrule (.discard path) rfl
  rintro c rfl
  show (c.removed path (c.engine.discard path).1).engine = _ ∧ (c.removed path _).live = _
  unfold Course.removed
  split <;> exact ⟨rfl, rfl⟩

theorem listen (h : Reached rule start e carried) (hrule : Admits rule carried) (cursors : List Nat) :
    Reached rule start { e with feed := { e.feed with cursors } } carried := by
  apply h.quiet hrule (.listen cursors) rfl
  rintro c rfl
  exact ⟨rfl, rfl⟩

/-! ## Pumps side by side -/

/-- The fragments of all lanes, and what is left of their deliveries. -/
def allCarried (lanes : List (String × Lane)) : List (Flight × Delivery) :=
  lanes.flatMap fun lane => lane.2.carried

theorem map_carried_liveOf (first : Nat) (lanes : List (String × Lane)) :
    (Course.liveOf first lanes).map Underway.carried = allCarried lanes := by
  induction lanes generalizing first with
  | nil => rfl
  | cons x rest ih =>
    obtain ⟨path, lane⟩ := x
    rw [Course.liveOf_cons, List.map_append, Lane.carried_live, ih]
    rfl

section Rounds

variable (hturn : ∀ c n, rule c (.turn n))
include hturn

theorem laneTurn {lane : Lane} (h : Reached rule start e (lane.carried ++ rest)) :
    Reached rule start (e.turn lane).1 ((e.turn lane).2.carried ++ rest) := by
  cases lane with
  | ended result => exact h
  | underway flight delivery => exact h.turn hturn

theorem round {lanes : List (String × Lane)} (h : Reached rule start e (allCarried lanes ++ rest)) :
    Reached rule start (e.round lanes).1 (allCarried (e.round lanes).2 ++ rest) := by
  induction lanes generalizing e rest with
  | nil => exact h
  | cons lane others ih =>
    -- the lane that had its turn goes behind the others
    have hnext : Reached rule start (e.turn lane.2).1
        ((e.turn lane.2).2.carried ++ (allCarried others ++ rest)) := by
      apply laneTurn hturn
      rw [← List.append_assoc]
      exact h
    have hothers := ih (hnext.perm (List.perm_append_comm_assoc _ _ _))
    have hall := hothers.perm (List.perm_append_comm_assoc _ _ _)
    rw [← List.append_assoc] at hall
    exact hall

theorem roundsFor {lanes : List (String × Lane)} (count : Nat)
    (h : Reached rule start e (allCarried lanes ++ rest)) :
    Reached rule start (Engine.roundsFor count e lanes).1
      (allCarried (Engine.roundsFor count e lanes).2 ++ rest) := by
  induction count generalizing e lanes with
  | zero => exact h
  | succ count ih => exact ih (h.round hturn)

theorem rounds {lanes : List (String × Lane)} (h : Reached rule start e (allCarried lanes ++ rest)) :
    Reached rule start (e.rounds lanes).1 rest := by
  obtain ⟨count, hengine, hlanes⟩ := e.rounds_end lanes
  have hnone : allCarried (Engine.roundsFor count e lanes).2 = [] := by
    rw [hlanes, allCarried, List.flatMap_map]
    exact List.flatMap_eq_nil_iff.mpr fun _ _ => rfl
  have hrounds := h.roundsFor hturn count
  rw [hnone, ← hengine] at hrounds
  exact hrounds

end Rounds

theorem pumpPending (h : Reached rule start e carried) (hrule : Admits rule carried) :
    Reached rule start e.pumpPending.1 carried := by
  have hbegun : Reached rule start (e.beginAll e.registry.pendingPaths).1
      (allCarried (e.beginAll e.registry.pendingPaths).2 ++ carried) := by
    apply h.move .pumpPending fun c hlive => hrule.call c _ rfl hlive
    rintro c rfl
    obtain ⟨hengine, hlive, -⟩ := Course.begins_lanes c.engine.registry.pendingPaths c
    refine ⟨hengine, (hlive.map Underway.carried).trans (.of_eq ?_)⟩
    rw [List.map_append, map_carried_liveOf]
  exact hbegun.rounds hrule.turn

end Reached

end ResumableUpload
