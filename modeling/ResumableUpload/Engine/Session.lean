import ResumableUpload.Engine.Rounds

/-
  Session — an engine with pumps at their pauses

  A session runs calls one after another. A pump may be begun and left at its
  first pause; it then has a number, and later calls let it go on, run it to
  its end or drop it. Any order of such calls is a cooperative run.

  What is held:
    1. `Session` — the engine and the pumps at their pauses, in the order in
       which they began.
    2. `Call`, `Reply`, `Session.perform`, `Session.run`.

  ── ASSUMED ──────────────────────────────────────────────────────────────────
  A pump at a pause has asked nothing of the disk yet: its operations are carried
  out when it goes on, all of them for one fragment at once, and a pump that is
  dropped at its pause leaves none behind. Pauses between two operations, and
  operations that outlast their pump, are the business of a course.
-/

namespace ResumableUpload

/-- An engine with pumps at their pauses. -/
structure Session where
  engine : Engine
  /-- The pumps at their pauses, with their numbers, in the order in which they began. -/
  flights : List (Nat × Flight)
  /-- The number of the next pump left at a pause. -/
  nextPump : Nat

/-- How a call names a pump. -/
inductive PumpRef where
  | number (n : Nat)
  /-- The `k`-th of those at a pause, counted round and round. -/
  | live (k : Nat)
  deriving DecidableEq, Repr

/-- What can be asked of a session. -/
inductive Call where
  | init (path : String) (size : Nat) (owner : Int) (clientPath : String)
  | initWithin (quota : Quota) (path : String) (size : Nat) (owner : Int) (clientPath : String)
  | report (quota : Quota)
  | submit (path : String) (fragment : Fragment)
  | pump (path : String)
  /-- As `submit`, up to the first pause. -/
  | startSubmit (path : String) (fragment : Fragment)
  /-- As `pump`, up to the first pause. -/
  | startPump (path : String)
  /-- Lets a pump go on to its next pause or its end. -/
  | resume (pump : PumpRef)
  /-- Lets a pump go on to its end. -/
  | finish (pump : PumpRef)
  /-- Drops a pump at its pause; whether there was one. -/
  | drop (pump : PumpRef)
  | pumpPending
  | status (path : String)
  | remove (path : String)
  | discard (path : String)
  | isUploading (path : String)
  | subscribe
  | readEvents (subscriber : Nat)

/-- What a session answers. -/
inductive Reply where
  | ticket (t : Ticket)
  | failed (e : Error)
  | report (r : QuotaReport)
  | outcome (o : PumpOutcome)
  /-- The pump is at its first pause, under this number. -/
  | started (pump : Nat)
  /-- The pump is at its next pause. -/
  | suspended
  | noSuchPump
  | pumped (results : List (String × PumpResult))
  | status (s : Status)
  | done
  | flag (b : Bool)
  | subscriber (n : Nat)
  | events (batch : Feed.Batch)
  | noSuchSubscriber

namespace Reply

/-- The end of a pump. -/
def ofResult : PumpResult → Reply
  | .ok o => outcome o
  | .error e => failed (.upload e)

end Reply

namespace Session

/-- A session that nothing was asked of. -/
def new (engine : Engine) : Session := ⟨engine, [], 0⟩

/-- The number of the pump that is meant. -/
def number? (s : Session) : PumpRef → Option Nat
  | .number n => some n
  -- with no pump at a pause the remainder is `k`, and nothing is found
  | .live k => (s.flights[k % s.flights.length]?).map Prod.fst

/-- The pump that is meant, with its number. -/
def find? (s : Session) (pump : PumpRef) : Option (Nat × Flight) :=
  (s.number? pump).bind fun n => s.flights.find? fun entry => entry.1 = n

/-- The session with another engine. -/
def withEngine (s : Session) (engine : Engine) : Session := { s with engine }

/-- The session without a pump. -/
def forget (s : Session) (n : Nat) : Session :=
  { s with flights := s.flights.filter fun entry => entry.1 ≠ n }

/-- The session with a pump at another pause. -/
def replace (s : Session) (n : Nat) (flight : Flight) : Session :=
  { s with flights := s.flights.map fun entry => if entry.1 = n then (n, flight) else entry }

/-- Keeps a pump that has begun, if it is at a pause. -/
def start (s : Session) : Engine × Pumping → Session × Reply
  | (engine, .ended result) => (s.withEngine engine, .ofResult result)
  | (engine, .inFlight flight) =>
    ({ engine, flights := s.flights ++ [(s.nextPump, flight)], nextPump := s.nextPump + 1 },
      .started s.nextPump)

/-- A registration that may have been refused. -/
def registered (s : Session) : Except Error (Engine × Ticket) → Session × Reply
  | .ok (engine, ticket) => (s.withEngine engine, .ticket ticket)
  | .error e => (s, .failed e)

/-- A result with the engine that gave it. -/
def answered (s : Session) : Engine × PumpResult → Session × Reply
  | (engine, result) => (s.withEngine engine, .ofResult result)

/-- Runs one call. -/
def perform (s : Session) : Call → Session × Reply
  | .init path size owner clientPath =>
    s.registered ((s.engine.init path size owner clientPath).mapError .upload)
  | .initWithin quota path size owner clientPath =>
    s.registered (s.engine.initWithin quota path size owner clientPath)
  | .report quota =>
    match s.engine.quotaReport quota with
    | .ok r => (s, .report r)
    | .error e => (s, .failed e)
  | .submit path fragment => s.answered (s.engine.submit path fragment)
  | .pump path => s.answered (s.engine.pump path)
  | .startSubmit path fragment => s.start (s.engine.beginSubmit path fragment)
  | .startPump path => s.start (s.engine.begin path)
  | .resume pump =>
    match s.find? pump with
    | none => (s, .noSuchPump)
    | some (n, flight) =>
      match s.engine.resume flight with
      | (engine, .ended result) => ((s.forget n).withEngine engine, .ofResult result)
      | (engine, .inFlight flight) => ((s.replace n flight).withEngine engine, .suspended)
  | .finish pump =>
    match s.find? pump with
    | none => (s, .noSuchPump)
    | some (n, flight) => (s.forget n).answered (s.engine.drive flight)
  | .drop pump =>
    match s.find? pump with
    | none => (s, .flag false)
    | some (n, flight) => ((s.forget n).withEngine (s.engine.abandon flight), .flag true)
  | .pumpPending =>
    let (engine, results) := s.engine.pumpPending
    (s.withEngine engine, .pumped results)
  | .status path =>
    match s.engine.registry.status path with
    | .ok status => (s, .status status)
    | .error e => (s, .failed (.upload e))
  | .remove path => (s.withEngine (s.engine.remove path), .done)
  | .discard path =>
    match s.engine.discard path with
    | (engine, .ok deleted) => (s.withEngine engine, .flag deleted)
    | (engine, .error e) => (s.withEngine engine, .failed e)
  | .isUploading path => (s, .flag (s.engine.registry.contains path))
  | .subscribe =>
    let (feed, n) := s.engine.feed.subscribe
    (s.withEngine { s.engine with feed }, .subscriber n)
  | .readEvents subscriber =>
    match s.engine.feed.read subscriber with
    | none => (s, .noSuchSubscriber)
    | some (feed, batch) => (s.withEngine { s.engine with feed }, .events batch)

/-- Runs calls one after another. -/
def run (s : Session) : List Call → Session × List Reply
  | [] => (s, [])
  | call :: rest =>
    let (s, reply) := s.perform call
    let (s, replies) := s.run rest
    (s, reply :: replies)

end Session

end ResumableUpload
