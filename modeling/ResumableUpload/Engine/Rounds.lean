import ResumableUpload.Engine.Pump

/-
  Rounds — pumps side by side

  Pumps that begin together run side by side. They take turns in the order in
  which they began, and a turn is one operation of the disk. The turn that ends
  a delivery also accounts the fragment and takes the next one, so a pump that
  has ended leaves the round at once, and those behind it move up.

  What is held:
    1. `Lane` — a pump among those that run side by side.
    2. `turn`, `round`, `rounds` — one operation of a lane, one of each lane,
       and rounds until every lane has ended.
    3. `pumpPending` — the pumps of all queues that nobody writes.

  ── ASSUMED ──────────────────────────────────────────────────────────────────
  This is one order in which the operations may come back, out of many: all of
  them take equally long. The program hears of them as they are done; which order
  that is does not matter to what a call answers, as long as every pump has asked
  for its slot before any of them goes on. A course has the pumps of such a call
  in any order.

  Correspondence (engine ↔ library):
    `pending_paths`                          ↔ `Registry.pendingPaths`
    `pump_pending`                           ↔ `pumpPending`
    the first pass of `join_all`             ↔ `beginAll`
-/

namespace ResumableUpload

/-- A pump among those that run side by side. -/
inductive Lane where
  | ended (result : PumpResult)
  /-- A fragment is on its way, and this much of its delivery is left. -/
  | underway (flight : Flight) (delivery : Delivery)

namespace Lane

/-- A pump after a step, before any operation for its fragment. -/
def of : Pumping → Lane
  | .ended result => ended result
  | .inFlight flight => underway flight (.start flight.pump.writer)

/-- What the pump came to. -/
def result : Lane → PumpResult
  | ended result => result
  -- never asked of a lane that is underway: `rounds` lets every lane end
  | underway _ _ => .ok .cancelled

end Lane

namespace Engine

/-- The most operations for the fragments that wait behind the one in flight. -/
def operationsBehind (e : Engine) (flight : Flight) : Nat :=
  (e.registry.owned? flight.pump.path flight.pump.id).elim 0 fun r =>
    (r.queue.toList.map Delivery.most).foldr (· + ·) 0

/-- The most turns a lane takes until it ends. -/
def turnsLeft (e : Engine) : Lane → Nat
  | .ended _ => 0
  | .underway flight delivery => delivery.left flight.fragment + e.operationsBehind flight

/-- The turn of one lane. -/
def turn (e : Engine) : Lane → Engine × Lane
  | .ended result => (e, .ended result)
  | .underway flight delivery =>
    match delivery.advance e.storage flight.pump.path flight.fragment e.disk with
    | (disk, .onward next) => ({ e with disk }, .underway flight next)
    | (disk, .ended result) =>
      let (e, state) := { e with disk }.land flight result
      (e, .of state)

/-- One turn of each lane, in their order. -/
def round (e : Engine) : List (String × Lane) → Engine × List (String × Lane)
  | [] => (e, [])
  | (path, lane) :: rest =>
    let (e, lane) := e.turn lane
    let (e, lanes) := e.round rest
    (e, (path, lane) :: lanes)

/-- So many rounds, one after another. -/
def roundsFor : Nat → Engine → List (String × Lane) → Engine × List (String × Lane)
  | 0, e, lanes => (e, lanes)
  | count + 1, e, lanes =>
    let (e, lanes) := e.round lanes
    roundsFor count e lanes

/-- Rounds until every lane has ended. A lane's turns leave the queues of the others as they are, so
the lane that needs most turns tells how many rounds suffice. -/
def rounds (e : Engine) (lanes : List (String × Lane)) : Engine × List (String × PumpResult) :=
  let count := lanes.foldr (fun lane count => max (e.turnsLeft lane.2) count) 0
  let (e, lanes) := roundsFor count e lanes
  (e, lanes.map fun (path, lane) => (path, lane.result))

/-- Begins a pump for each of the paths, one after another. -/
def beginAll (e : Engine) : List String → Engine × List (String × Lane)
  | [] => (e, [])
  | path :: rest =>
    let (e, state) := e.begin path
    let (e, lanes) := e.beginAll rest
    (e, (path, .of state) :: lanes)

/-- Pumps every upload whose queue nobody writes. All pumps begin, in the order of the paths, before
any of them gets to write. -/
def pumpPending (e : Engine) : Engine × List (String × PumpResult) :=
  let (e, lanes) := e.beginAll e.registry.pendingPaths
  e.rounds lanes

end Engine

end ResumableUpload
