import ResumableUpload.Proofs.Course.Refusals
import ResumableUpload.Proofs.Engine.Attempt

/-
  Afresh — a pump that opens its file for each fragment

  A pump that keeps its file open from one fragment to the next comes to the
  same as one that opens it for each fragment anew: the same disk, the same
  records, the same events, the same end. What a file that is open remembers,
  the bytes that went through it, is told in a notice and nowhere else.

  What is held:
    1. `Pump.closed` — a pump that has no file open.
    2. `pumpAfresh` — a pump run to its end that opens its file for each
       fragment.

  What is proved:
    1. `bare_resume` — a step of the two comes to the same, but for notices and
       the file that is open.
    2. `driveAfreshFor_alike` — by it, so does a run to the end.
    3. `pump_eq_pumpAfresh` — the above for pumps that have only begun.
-/

namespace ResumableUpload

/-- A pump that has no file open. -/
def Pump.closed (p : Pump) : Pump := { p with writer := none }

/-- A fragment in the hand of a pump that has no file open. -/
def Flight.closed (flight : Flight) : Flight := { flight with pump := flight.pump.closed }

namespace Engine

/-! ## A pump that opens its file for each fragment -/

/-- Resumes a pump until it ends, `left` times after the first at most. Whenever it goes on it has no file
open, so each delivery begins by opening it. -/
def driveAfreshFor (left : Nat) (e : Engine) (flight : Flight) : Engine × PumpResult :=
  match e.resume flight.closed with
  | (e, .ended result) => (e, result)
  | (e, .inFlight flight) =>
    match left with
    -- never reached from `pumpAfresh`, as in `driveFor`
    | 0 => (e, .ok .cancelled)
    | left + 1 => driveAfreshFor left e flight

/-- Runs on from where a pump stands. -/
def settleAfresh (e : Engine) : Pumping → Engine × PumpResult
  | .ended result => (e, result)
  | .inFlight flight => driveAfreshFor (e.waitingBehind flight) e flight

/-- Writes out the queue of the upload at `path`, and opens its file for each fragment. -/
def pumpAfresh (e : Engine) (path : String) : Engine × PumpResult :=
  let (e, state) := e.begin path
  e.settleAfresh state

/-! ## What the open file makes no difference to -/

/-- Where a pump stands, but for the file it has open. -/
def closed : Pumping → Pumping
  | .ended result => .ended result
  | .inFlight flight => .inFlight flight.closed

/-- A step of a pump, but for the notices and the file that is open. -/
def bare (x : Engine × Pumping) : Engine × Pumping := (x.1.unnoted, closed x.2)

variable {e a : Engine} {p q : Pump} {flight other : Flight}

theorem bare_takeNext (e : Engine) (p : Pump) :
    bare (e.takeNext p) = bare (e.unnoted.takeNext p.closed) := by
  simp only [takeNext, show e.unnoted.registry = e.registry from rfl, Pump.closed]
  cases e.registry.owned? p.path p.id with
  | none => rfl
  | some r =>
    cases hpop : r.queue.pop? with
    | some x =>
      simp only [hpop]
      rfl
    | none =>
      simp only [hpop]
      cases p.failure <;> rfl

theorem takeNext_alike (hengine : e.unnoted = a.unnoted) (hpump : p.closed = q.closed) :
    bare (e.takeNext p) = bare (a.takeNext q) := by
  rw [bare_takeNext, hengine, hpump, ← bare_takeNext]

theorem unnoted_accountWrite (e : Engine) (flight : Flight) (r : Record) (w v : FileWriter) :
    (e.accountWrite flight r w).1.unnoted = (e.unnoted.accountWrite flight.closed r v).1.unnoted := by
  unfold accountWrite
  dsimp only [Flight.closed, Pump.closed]
  split <;> rfl

theorem bare_land {x y : Except OsError FileWriter}
    (h : x.map (fun _ => ()) = y.map fun _ => ()) (e : Engine) (flight : Flight) :
    bare (e.land flight x) = bare (e.unnoted.land flight.closed y) := by
  have hsame : e.unnoted.registry.owned? flight.closed.pump.path flight.closed.pump.id =
      e.registry.owned? flight.pump.path flight.pump.id := rfl
  cases hr : e.registry.owned? flight.pump.path flight.pump.id with
  | none =>
    simp only [land, hsame, hr]
    rfl
  | some r =>
    rw [land_of_owned x hr, land_of_owned y (hsame.trans hr)]
    cases x with
    | error cause =>
      cases y with
      | error other =>
        obtain rfl : cause = other := Except.error.inj h
        exact takeNext_alike rfl rfl
      | ok v => cases h
    | ok w =>
      cases y with
      | error cause => cases h
      | ok v => exact takeNext_alike (unnoted_accountWrite e flight r w v) rfl

/-! ## Step by step, and to the end -/

/-- A step of a pump that keeps its file open comes to what a step comes to that opens it. -/
theorem bare_resume (hkeeps : e.Keeps flight.pump) (hengine : e.unnoted = a.unnoted)
    (hflight : flight.closed = other.closed) :
    bare (e.resume flight) = bare (a.resume other.closed) := by
  have hattempt : e.attempt flight = a.attempt other.closed := by
    show e.unnoted.attempt flight.closed = a.unnoted.attempt other.closed
    rw [hengine, hflight]
  have hunnoted : ∀ (e : Engine) (flight : Flight), (e.attempted flight).unnoted =
      { e.unnoted with disk := (e.attempt flight).1 } := fun _ _ => rfl
  obtain ⟨x, hx, -, hresume⟩ := resume_eq_land hkeeps
  have hclosed : a.Keeps other.closed.pump := Storage.current_none
  obtain ⟨y, hy, -, hagain⟩ := resume_eq_land hclosed
  have hsame : x.map (fun _ => ()) = y.map fun _ => () := by rw [hx, hy, hattempt]
  rw [hresume, hagain, bare_land hsame, hunnoted, hengine, hattempt, ← hunnoted, hflight]
  exact (bare_land (x := y) rfl (a.attempted other.closed) other.closed).symm

/-- Two pumps, one of which keeps its file open, come to the same end. -/
theorem driveAfreshFor_alike {left : Nat} {e a : Engine} {flight other : Flight}
    (hkeeps : e.Keeps flight.pump) (hengine : e.unnoted = a.unnoted)
    (hflight : flight.closed = other.closed) :
    (driveFor left e flight).1.unnoted = (driveAfreshFor left a other).1.unnoted ∧
      (driveFor left e flight).2 = (driveAfreshFor left a other).2 := by
  -- by the steps that are left: after each, the file that is open is the one the path leads to
  have hbare := bare_resume hkeeps hengine hflight
  have hafter : ∀ next, (e.resume flight).2 = .inFlight next →
      (e.resume flight).1.Keeps next.pump := fun next => current_of_resume hkeeps
  rw [driveFor.eq_def, driveAfreshFor.eq_def]
  generalize e.resume flight = x at hbare hafter ⊢
  generalize a.resume other.closed = y at hbare ⊢
  obtain ⟨e', result | next⟩ := x <;> obtain ⟨a', result' | next'⟩ := y
  · exact ⟨congrArg Prod.fst hbare, Pumping.ended.inj (congrArg Prod.snd hbare)⟩
  · cases congrArg Prod.snd hbare
  · cases congrArg Prod.snd hbare
  · have hengine' : e'.unnoted = a'.unnoted := congrArg Prod.fst hbare
    have hnext : next.closed = next'.closed := Pumping.inFlight.inj (congrArg Prod.snd hbare)
    cases left with
    | zero => exact ⟨hengine', rfl⟩
    | succ left => exact driveAfreshFor_alike (hafter next rfl) hengine' hnext

theorem writer_of_begin {path : String} (h : (e.begin path).2 = .inFlight flight) :
    flight.pump.writer = none := by
  obtain ⟨-, hbegin⟩ | ⟨r, -, ⟨-, hbegin⟩ | ⟨-, hbegin⟩ | ⟨-, -, hbegin⟩⟩ := e.begin_cases path
  · rw [hbegin] at h
    cases h
  · rw [hbegin] at h
    cases h
  · rw [hbegin] at h
    cases h
  · rw [hbegin] at h
    rw [Course.pump_of_takeNext h]

end Engine

/-- For every engine and every path: a pump that keeps its file open from one fragment to the next, and
opens it again after a failure only, leaves the disk, the records and the events, and comes to the end,
that a pump does which opens the file for each fragment. -/
theorem pump_eq_pumpAfresh (e : Engine) (path : String) :
    let kept := e.pump path
    let afresh := e.pumpAfresh path
    kept.1.disk = afresh.1.disk ∧ kept.1.registry = afresh.1.registry ∧
      kept.1.feed = afresh.1.feed ∧ kept.2 = afresh.2 := by
  intro kept afresh
  have hsame : kept.1.unnoted = afresh.1.unnoted ∧ kept.2 = afresh.2 := by
    unfold kept afresh Engine.pump Engine.pumpAfresh
    cases hstate : e.begin path with
    | mk e' state =>
      cases state with
      | ended result => exact ⟨rfl, rfl⟩
      | inFlight flight =>
        have hkeeps : e'.Keeps flight.pump := by
          rw [Engine.Keeps, Engine.writer_of_begin (congrArg Prod.snd hstate)]
          exact Storage.current_none
        exact Engine.driveAfreshFor_alike hkeeps rfl rfl
  obtain ⟨hengine, hresult⟩ := hsame
  obtain ⟨-, hdisk, hregistry, -, -, hfeed, -⟩ := Engine.mk.inj hengine
  exact ⟨hdisk, hregistry, hfeed, hresult⟩

end ResumableUpload
