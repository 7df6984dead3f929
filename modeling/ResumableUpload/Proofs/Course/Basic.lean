import ResumableUpload.Engine.Faults

/-
  Course — what can happen to an engine, in any order

  The calls on an engine come in any order, and each pump under way goes on at
  any time: one operation of the disk, then whatever else, then the next one. A
  course is an engine with its pumps under way and the history of what happened
  so far; a move is the smallest thing that happens to it. Every cooperative
  run is a list of moves.

  The disk is not ours alone. An operation may fail for a cause of its own, when
  a part of it is done, and other programs may change the disk between two moves.

  What is held:
    1. `Verdict`, `Settlement`, `Happening`, `Log`, `History` — what is noted of
       each registration: what it accepted, what became of it, what was told.
       `of_noting_self` and `of_noting_of_ne` say where a note goes.
    2. `Course`, `Move`, `Course.step`, `Course.run`.

  ── ASSUMED ──────────────────────────────────────────────────────────────────
  The scheduler is free: a pump at its pause has asked the disk for the next
  operation of its delivery, and any of the pumps may be the next to hear of
  its own, so no order of completion is assumed. What is assumed of runtime and
  operating system:
    - an operation takes effect at one moment, that of its `turn`, and until
      then the disk knows nothing of it; what the disk does meanwhile are moves
      of their own;
    - an operation that fails does a part of what it was asked for, as
      `Delivery.fail` has it, and does nothing later;
    - a pump that is dropped takes nothing back: what it has asked for is
      carried out at any later moment (`late`), once, or never. A pump asks
      for one operation at a time, so one is all that it leaves behind;
    - a write fails by a `fault` and for no other cause: the disk of the model
      has no end. A full disk is a fault like any other;
    - everything between two pauses happens at once, as on one thread.

  Correspondence (engine ↔ moves):
    `init_upload`, `init_upload_within`, `submit_fragment`, `pump`,
    `pump_pending`, `remove_upload`, `discard` ↔ the moves of these names, those
      that write up to their first pause
    a wake-up of a pump ↔ `turn`, or `fault`
    the end of a pump that nobody awaits any more ↔ `drop`
    `subscribe`, and a subscriber that reads ↔ `listen`
  A `discard` that fails to delete the file is a `remove`.
-/

namespace ResumableUpload

/-- What became of a fragment that a pump had taken. -/
inductive Verdict where
  | written
  | failed
  /-- Its pump was dropped. -/
  | abandoned
  deriving DecidableEq, Repr

/-- A fragment that a pump is done with. -/
structure Settlement where
  /-- The number of the pump that had taken it. -/
  pump : Nat
  fragment : Fragment
  verdict : Verdict
  deriving DecidableEq, Repr

/-- What happened to a registration. -/
inductive Happening where
  | registered
  | accepted (fragment : Fragment)
  | settled (s : Settlement)
  | told (event : Event)
  deriving DecidableEq, Repr

namespace Happening

def accepted? : Happening → Option Fragment
  | accepted f => some f
  | _ => none

def settled? : Happening → Option Settlement
  | settled s => some s
  | _ => none

def told? : Happening → Option Event
  | told e => some e
  | _ => none

end Happening

/-- What happened to one registration, the earliest first. -/
abbrev Log := List Happening

namespace Log

/-- The fragments accepted, in their order. -/
def accepted (l : Log) : List Fragment := l.filterMap Happening.accepted?

/-- What became of the fragments that pumps had taken, in their order. -/
def settled (l : Log) : List Settlement := l.filterMap Happening.settled?

/-- The fragments that ended with a verdict. -/
def ended (v : Verdict) (l : Log) : List Settlement := l.settled.filter fun s => s.verdict = v

/-- The events told, in their order. -/
def told (l : Log) : List Event := l.filterMap Happening.told?

/-- The pumps dropped, in their order. -/
def dropped (l : Log) : List Nat := (l.ended .abandoned).map Settlement.pump

@[simp] theorem accepted_append (l m : Log) : Log.accepted (l ++ m) = l.accepted ++ m.accepted :=
  List.filterMap_append

@[simp] theorem settled_append (l m : Log) : Log.settled (l ++ m) = l.settled ++ m.settled :=
  List.filterMap_append

@[simp] theorem told_append (l m : Log) : Log.told (l ++ m) = l.told ++ m.told :=
  List.filterMap_append

@[simp] theorem ended_append (v : Verdict) (l m : Log) :
    Log.ended v (l ++ m) = l.ended v ++ m.ended v := by
  rw [ended, settled_append, List.filter_append]
  rfl

@[simp] theorem dropped_append (l m : Log) : Log.dropped (l ++ m) = l.dropped ++ m.dropped := by
  rw [dropped, ended_append, List.map_append]
  rfl

@[simp] theorem accepted_told (events : List Event) : Log.accepted (events.map .told) = [] := by
  rw [accepted, List.filterMap_map]
  exact List.filterMap_eq_nil_iff.mpr fun _ _ => rfl

@[simp] theorem settled_told (events : List Event) : Log.settled (events.map .told) = [] := by
  rw [settled, List.filterMap_map]
  exact List.filterMap_eq_nil_iff.mpr fun _ _ => rfl

@[simp] theorem ended_told (v : Verdict) (events : List Event) :
    Log.ended v (events.map .told) = [] := by
  rw [ended, settled_told]
  rfl

@[simp] theorem told_told (events : List Event) : Log.told (events.map .told) = events := by
  rw [told, List.filterMap_map]
  exact List.filterMap_some

end Log

/-- What happened, each with the registration it happened to, the earliest first. -/
abbrev History := List (UploadId × Happening)

namespace History

/-- What happened to one registration. -/
def of (id : UploadId) (h : History) : Log := (h.filter fun x => x.1 = id).map Prod.snd

def all (h : History) : Log := h.map Prod.snd

/-- The history after more happened to one registration. -/
def noting (h : History) (id : UploadId) (l : Log) : History := h ++ l.map fun x => (id, x)

@[simp] theorem noting_nil (h : History) (id : UploadId) : h.noting id [] = h := List.append_nil h

@[simp] theorem of_noting_self (h : History) (id : UploadId) (l : Log) :
    (h.noting id l).of id = h.of id ++ l := by
  simp [noting, of, List.filter_map, Function.comp_def]

theorem of_noting_of_ne {id q : UploadId} (hne : q ≠ id) (h : History) (l : Log) :
    (h.noting id l).of q = h.of q := by
  simp [noting, of, List.filter_map, Function.comp_def, Ne.symm hne]

theorem of_eq_nil {h : History} {id : UploadId} (hnone : ∀ x ∈ h, x.1 ≠ id) : h.of id = [] := by
  have hfilter : (h.filter fun x => x.1 = id) = [] := by
    rw [List.filter_eq_nil_iff]
    intro x hx
    simpa using hnone x hx
  rw [of, hfilter]
  rfl

@[simp] theorem all_noting (h : History) (id : UploadId) (l : Log) :
    (h.noting id l).all = h.all ++ l := by
  simp [noting, all, Function.comp_def]

theorem mem_noting {h : History} {id : UploadId} {l : Log} {x : UploadId × Happening}
    (hx : x ∈ h.noting id l) : x ∈ h ∨ x.1 = id := by
  rcases List.mem_append.mp hx with hx | hx
  · exact .inl hx
  · obtain ⟨y, -, rfl⟩ := List.mem_map.mp hx
    exact .inr rfl

end History

/-- A pump under way: a fragment in its hand, and what is left of the delivery. -/
structure Underway where
  number : Nat
  flight : Flight
  delivery : Delivery

/-- What the next operation for a pump makes of the disk, if it goes its way or fails. -/
def Underway.effect (u : Underway) (e : Engine) (fault : Option DiskFault) : Disk :=
  u.delivery.effect e.storage u.flight.pump.path u.flight.fragment fault e.disk

/-- An engine with its pumps under way, and what happened so far. -/
structure Course where
  engine : Engine
  live : List Underway
  /-- The pumps that were dropped; the disk still owes the operation that each had asked for. -/
  adrift : List Underway
  /-- The number of the next pump. -/
  nextPump : Nat
  history : History

/-- The smallest things that happen to an engine. -/
inductive Move where
  | init (path : String) (size : Nat) (owner : Int) (clientPath : String)
  | initWithin (quota : Quota) (path : String) (size : Nat) (owner : Int) (clientPath : String)
  /-- A fragment is submitted, and a pump begun for it, up to its first pause. -/
  | submit (path : String) (fragment : Fragment)
  /-- A pump is begun, up to its first pause. -/
  | pump (path : String)
  /-- A pump is begun for each upload whose queue nobody writes, in the order of the paths. -/
  | pumpPending
  /-- One operation of the disk for the fragment of a pump; after the last one the fragment is
  accounted and the next one taken. -/
  | turn (n : Nat)
  /-- The operation fails for a cause of its own. -/
  | fault (n : Nat) (fault : DiskFault)
  /-- A pump is dropped at its pause. -/
  | drop (n : Nat)
  /-- The operation that a dropped pump had asked for is carried out, or fails; nobody hears of it. -/
  | late (n : Nat) (fault : Option DiskFault)
  | remove (path : String)
  | discard (path : String)
  /-- Another program changes the disk. -/
  | outside (disk : Disk)
  /-- Subscribers come, and read. -/
  | listen (cursors : List Nat)

/-- What a delivery that has ended makes of its fragment. -/
def Verdict.of : Except OsError FileWriter → Verdict
  | .ok _ => written
  | .error _ => failed

/-- The events sent between two engines. -/
def Engine.news (before after : Engine) : List Event :=
  after.feed.sent.drop before.feed.sent.length

/-- What is noted of a delivery that has ended: nothing where the upload is gone. -/
def Engine.landed (e : Engine) (n : Nat) (flight : Flight) (result : Except OsError FileWriter) :
    Log :=
  if (e.registry.owned? flight.pump.path flight.pump.id).isSome then
    [.settled ⟨n, flight.fragment, .of result⟩]
  else []

namespace Course

/-- An engine to which nothing happened. -/
def new (engine : Engine) : Course := ⟨engine, [], [], 0, []⟩

def find? (c : Course) (n : Nat) : Option Underway := c.live.find? fun u => u.number = n

/-- A dropped pump whose operation is still owed. -/
def owing? (c : Course) (n : Nat) : Option Underway := c.adrift.find? fun u => u.number = n

/-- The pumps under way without one of them. -/
def without (n : Nat) (live : List Underway) : List Underway := live.eraseP fun u => u.number = n

/-- The pumps under way, where pump `n` stands after a step. -/
def standing (n : Nat) : Pumping → List Underway
  | .ended _ => []
  | .inFlight flight => [⟨n, flight, .start flight.pump.writer⟩]

/-- The course with another engine: something happened to the registration `id`, and events were sent
on its behalf. -/
def onward (c : Course) (e : Engine) (id : UploadId) (happened : Log) : Course :=
  { c with
    engine := e
    history := c.history.noting id (happened ++ (c.engine.news e).map .told) }

def withDisk (c : Course) (disk : Disk) : Course := { c with engine := { c.engine with disk } }

/-- A registration that may have been refused. -/
def registered {ε : Type} (c : Course) : Except ε (Engine × Ticket) → Course
  | .error _ => c
  | .ok (e, t) => c.onward e t.id [.registered]

/-- A fragment is accepted, or refused. -/
def accept (c : Course) (path : String) (f : Fragment) : Option Course :=
  match c.engine.accept path f, c.engine.registry.find? path with
  | .ok e, some r => some (c.onward e r.id [.accepted f])
  | _, _ => none

/-- A pump is begun; it keeps its number also where it ends at once. -/
def begin (c : Course) (path : String) : Course :=
  let (e, state) := c.engine.begin path
  { c with
    engine := e
    live := standing c.nextPump state ++ c.live
    nextPump := c.nextPump + 1 }

/-- The delivery of a pump has ended: its fragment is accounted, if the upload is still there, and the
next one taken. -/
def land (c : Course) (u : Underway) (result : Except OsError FileWriter) : Course :=
  let (e, state) := c.engine.land u.flight result
  { c.onward e u.flight.pump.id (c.engine.landed u.number u.flight result) with
    live := standing u.number state ++ without u.number c.live }

/-- A pump is dropped, and the fragment in its hand with it. The disk was asked already. -/
def abandon (c : Course) (u : Underway) : Course :=
  let happened := [Happening.settled ⟨u.number, u.flight.fragment, .abandoned⟩]
  { c.onward (c.engine.abandon u.flight) u.flight.pump.id happened with
    live := without u.number c.live
    adrift := u :: c.adrift }

/-- What a dropped pump had asked for is done with. -/
def overdue (c : Course) (u : Underway) (fault : Option DiskFault) : Course :=
  { c.withDisk (u.effect c.engine fault) with adrift := without u.number c.adrift }

/-- An upload has been taken out of the registry. -/
def removed (c : Course) (path : String) (e : Engine) : Course :=
  match c.engine.registry.find? path with
  | none => { c with engine := e }
  | some r => c.onward e r.id []

/-- One operation of the disk for the fragment of a pump. -/
def turn (c : Course) (u : Underway) : Course :=
  match u.delivery.advance c.engine.storage u.flight.pump.path u.flight.fragment c.engine.disk with
  | (disk, .onward next) =>
    { c.withDisk disk with live := { u with delivery := next } :: without u.number c.live }
  | (disk, .ended result) => (c.withDisk disk).land u result

/-- One operation of the disk for the fragment of a pump, which fails: what it did stays. -/
def fault (c : Course) (u : Underway) (fault : DiskFault) : Course :=
  (c.withDisk (u.effect c.engine fault)).land u (.error fault.cause)

/-- What a move makes of a course. A pump that is not under way takes no turn. -/
def step (c : Course) : Move → Course
  | .init path size owner clientPath => c.registered (c.engine.init path size owner clientPath)
  | .initWithin quota path size owner clientPath =>
    c.registered (c.engine.initWithin quota path size owner clientPath)
  | .submit path f => ((c.accept path f).map fun c => c.begin path).getD c
  | .pump path => c.begin path
  | .pumpPending => c.engine.registry.pendingPaths.foldl begin c
  | .turn n => (c.find? n).elim c c.turn
  | .fault n fault => (c.find? n).elim c fun u => c.fault u fault
  | .drop n => (c.find? n).elim c c.abandon
  | .late n fault => (c.owing? n).elim c fun u => c.overdue u fault
  | .remove path => c.removed path (c.engine.remove path)
  | .discard path => c.removed path (c.engine.discard path).1
  | .outside disk => c.withDisk disk
  | .listen cursors => { c with engine := { c.engine with feed := { c.engine.feed with cursors } } }

/-- What moves make of a course, one after another. -/
def run (c : Course) (moves : List Move) : Course := moves.foldl step c

theorem run_concat (c : Course) (moves : List Move) (m : Move) :
    c.run (moves ++ [m]) = (c.run moves).step m := by
  rw [run, List.foldl_append]
  rfl

/-- The pumps under way that serve a registration. -/
def serving (c : Course) (id : UploadId) : List Underway :=
  c.live.filter fun u => u.flight.pump.id = id

end Course

end ResumableUpload
