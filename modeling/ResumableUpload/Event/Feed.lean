import ResumableUpload.Event.Basic

/-
  Feed — events on their way to subscribers

  A feed numbers the events sent from zero and keeps the latest ones, as many
  as its capacity. A subscriber has a cursor, the number of the event it reads
  next; one that falls behind further than the capacity is told how many events
  it lost and goes on with the oldest one kept.

  What is held:
    1. `Feed` — the events sent, all of them, so that the feed is its own log.
    2. `send`, `subscribe`, `read`.

  ── ASSUMED ──────────────────────────────────────────────────────────────────
  The channel keeps the latest events in the order in which they were sent, and
  tells a receiver that was too slow how many it lost. Events with nobody to hear
  them are lost.
-/

namespace ResumableUpload

/-- Events on their way to subscribers. -/
structure Feed where
  /-- How many of the latest events can still be read. -/
  capacity : Nat
  /-- All events sent, the oldest first. -/
  sent : List Event
  /-- The number of the event each subscriber reads next. -/
  cursors : List Nat
  deriving DecidableEq, Repr

/-- What a subscriber reads: how many events it lost, and the events after them. -/
structure Feed.Batch where
  lagged : Nat
  events : List Event
  deriving DecidableEq, Repr

namespace Feed

/-- The least power of two that is `n` or more. -/
def roundUp (n : Nat) : Nat := if n ≤ 1 then 1 else Nat.pow 2 (Nat.log2 (n - 1) + 1)

/-- A feed that keeps `n` events at least, and one in any case. -/
def ofCapacity (n : Nat) : Feed := ⟨roundUp n, [], []⟩

instance : Inhabited Feed := ⟨ofCapacity 1⟩

/-- The feed with one more event. -/
def send (f : Feed) (e : Event) : Feed := { f with sent := f.sent ++ [e] }

/-- The feed with a subscriber that sees what is sent from now on, and its number. -/
def subscribe (f : Feed) : Feed × Nat :=
  ({ f with cursors := f.cursors ++ [f.sent.length] }, f.cursors.length)

/-- What a subscriber has not seen yet; `none` if there is no such subscriber. -/
def read (f : Feed) (subscriber : Nat) : Option (Feed × Batch) :=
  match f.cursors[subscriber]? with
  | none => none
  | some cursor =>
    -- nothing is lost while no more events were sent than the feed keeps
    let oldest := f.sent.length - f.capacity
    some ({ f with cursors := f.cursors.set subscriber f.sent.length },
      ⟨oldest - cursor, f.sent.drop (max oldest cursor)⟩)

end Feed

end ResumableUpload
