import ResumableUpload.Proofs.Course.Figures
import ResumableUpload.Proofs.Engine.Attempt
import ResumableUpload.Proofs.Registry.Balance

/-
  In turn — a queue is written from its front to its end

  A pump that nothing comes between makes one attempt at each fragment of its
  queue, in their order, and each at the disk that the attempt before it left.
  What it leaves is said by these attempts alone: the ranges of those that
  succeeded are added to the record, each that failed is told of, and the
  first failure is what the pump comes to.

  What is held:
    1. `Attempt`, `Storage.attempts` — attempts, each at the disk that the one
       before it left.
    2. `writtenRanges`, `firstFailure`, `tellings` — what is read off them.
    3. `pumpDeliveries` — the disk and the fragment with which each delivery of
       a pump starts.
    4. `Engine.WritesOut` — what a pump makes of the fragments that wait.

  What is proved:
    1. `drive_eq_settle`, `deliveries_inFlight` — a pump with a fragment in its
       hand delivers it, and goes on from where it stands then.
    2. `WritesOut.of_failure`, `WritesOut.of_write` — what one more attempt in
       front makes of the rest.
    3. `writesOut_takeNext` — by them, what a pump makes of a queue.
    4. `pump_in_turn` — the same for every state there can be.
-/

namespace ResumableUpload

/-- An attempt at a fragment: the disk it found, and what it came to. -/
structure Attempt where
  found : Disk
  fragment : Fragment
  result : Except OsError Unit

namespace Attempt

/-- The range that was written, if one was. -/
def range? (a : Attempt) : Option ByteRange :=
  match a.result with
  | .ok () => some a.fragment.range
  | .error _ => none

/-- What a pump remembers of an attempt that failed. -/
def failure? (path : String) (a : Attempt) : Option UploadError :=
  match a.result with
  | .ok () => none
  | .error cause => some (.writeFailure path a.fragment.position a.fragment.len cause)

end Attempt

/-- The attempts at fragments, one after another, each at the disk that the one before it left; and the
disk that the last one leaves. -/
def Storage.attempts (s : Storage) (path : String) : Disk → List Fragment → Disk × List Attempt
  | d, [] => (d, [])
  | d, f :: rest =>
    let (next, result) := s.attempt path d f
    let (last, attempts) := s.attempts path next rest
    (last, ⟨d, f, result⟩ :: attempts)

/-- The ranges written, in their order. -/
def writtenRanges (attempts : List Attempt) : List ByteRange := attempts.filterMap Attempt.range?

/-- The failure of the first attempt that failed. -/
def firstFailure (path : String) (attempts : List Attempt) : Option UploadError :=
  attempts.findSome? (Attempt.failure? path)

/-- What is told of attempts for an upload of which `saved` bytes are written: each that fails, and the
one that first writes as many bytes as the upload has. -/
def tellings (path : String) (size : Nat) : Nat → List Attempt → List Event
  | _, [] => []
  | saved, a :: rest =>
    match a.result with
    | .error cause =>
      .failed path a.fragment.position a.fragment.len cause.message :: tellings path size saved rest
    | .ok () =>
      (if saved < size ∧ size ≤ saved + a.fragment.len then [.completed path size] else []) ++
        tellings path size (saved + a.fragment.len) rest

/-- The record after writes of these ranges. -/
def Record.afterWrites (r : Record) (ranges : List ByteRange) : Record :=
  { r with
    coverage := ⟨r.coverage.ranges ++ ranges, r.saved + coveredBytes ranges⟩
    completed := decide (r.size ≤ r.saved + coveredBytes ranges) }

/-- The record is marked complete when as many bytes are written as it has. -/
def Record.Marked (r : Record) : Prop := r.completed = decide (r.size ≤ r.saved)

namespace Storage

variable {s : Storage} {path : String} {d : Disk} {f : Fragment} {rest : List Fragment}

theorem fragments_attempts (fs : List Fragment) :
    (s.attempts path d fs).2.map Attempt.fragment = fs := by
  induction fs generalizing d with
  | nil => rfl
  | cons f rest ih => exact congrArg (f :: ·) ih

end Storage

namespace Record

variable {r : Record}

theorem afterWrites_nil (h : r.Marked) : r.afterWrites [] = r := by
  show { r with
    coverage := ⟨r.coverage.ranges ++ [], r.saved⟩
    completed := decide (r.size ≤ r.saved) } = r
  rw [List.append_nil, ← h]
  rfl

theorem marked_recordWrite (r : Record) (range : ByteRange) : (r.recordWrite range).Marked := rfl

theorem afterWrites_recordWrite (r : Record) (range : ByteRange) (rest : List ByteRange) :
    (r.recordWrite range).afterWrites rest = r.afterWrites (range :: rest) := by
  have hsaved : (r.recordWrite range).saved + coveredBytes rest =
      r.saved + coveredBytes (range :: rest) := Nat.add_assoc _ _ _
  have hranges : (r.recordWrite range).coverage.ranges ++ rest =
      r.coverage.ranges ++ range :: rest := List.append_assoc _ _ _
  unfold afterWrites
  rw [hsaved, hranges]
  rfl

theorem news_of_marked (h : r.Marked) (f : Fragment) :
    r.news f.range =
      if r.saved < r.size ∧ r.size ≤ r.saved + f.len then [.completed r.path r.size] else [] := by
  have hnew : (r.recordWrite f.range).completed = decide (r.size ≤ r.saved + f.len) := by
    rw [← f.length_range]
    rfl
  unfold news
  rw [hnew, h]
  simp [and_comm]

end Record

namespace Engine

/-! ## The deliveries of a pump -/

/-- The disk and the fragment with which each delivery starts of a pump that is resumed until it ends,
`left` times after the first at most. -/
def deliveriesFor (left : Nat) (e : Engine) (flight : Flight) : List (Disk × Fragment) :=
  (e.disk, flight.fragment) ::
    match e.resume flight with
    | (_, .ended _) => []
    | (e, .inFlight flight) =>
      match left with
      | 0 => []
      | left + 1 => deliveriesFor left e flight

/-- The deliveries of a pump that runs on from where it stands. -/
def deliveries (e : Engine) : Pumping → List (Disk × Fragment)
  | .ended _ => []
  | .inFlight flight => deliveriesFor (e.waitingBehind flight) e flight

/-- The deliveries of a pump that writes out the queue of the upload at `path`. -/
def pumpDeliveries (e : Engine) (path : String) : List (Disk × Fragment) :=
  let (e, state) := e.begin path
  e.deliveries state

variable {e : Engine} {path : String} {p : Pump} {flight : Flight} {r : Record} {f : Fragment}

theorem drive_eq_settle (e : Engine) (flight : Flight) :
    e.drive flight = (e.resume flight).1.settle (e.resume flight).2 := by
  rw [drive_eq]
  cases e.resume flight with
  | mk e' state => cases state <;> rfl

theorem deliveries_inFlight (e : Engine) (flight : Flight) :
    e.deliveries (.inFlight flight) =
      (e.disk, flight.fragment) :: (e.resume flight).1.deliveries (e.resume flight).2 := by
  cases h : e.resume flight with
  | mk e' state =>
    cases state with
    | ended result =>
      simp only [deliveries]
      rw [deliveriesFor.eq_def, h]
    | inFlight next =>
      simp only [deliveries]
      rw [waitingBehind_of_resume h, deliveriesFor, h]

/-! ## A queue written out -/

/-- What a pump makes of the fragments that wait: it attempts each, and the rest is read off the
attempts. -/
structure WritesOut (e : Engine) (path : String) (r : Record) (failure : Option UploadError)
    (x : Disk × List Attempt) (deliveries : List (Disk × Fragment)) (after : Engine × PumpResult) :
    Prop where
  deliveries : deliveries = x.2.map fun a => (a.found, a.fragment)
  disk : after.1.disk = x.1
  told : after.1.feed.sent = e.feed.sent ++ tellings path r.size r.saved x.2
  record : ∃ queue : FragmentQueue, queue.toList = [] ∧ after.1.registry.find? path =
    some (((r.afterWrites (writtenRanges x.2)).withQueue queue).withWriting false)
  others : ∀ q, q ≠ path → after.1.registry.find? q = e.registry.find? q
  result : after.2 =
    .ofRecord (failure.or (firstFailure path x.2)) (r.afterWrites (writtenRanges x.2))

theorem writesOut_at_end (hr : e.registry.owned? p.path p.id = some r) (hmarked : r.Marked)
    (hempty : r.queue.toList = []) :
    e.WritesOut p.path r p.failure (e.disk, []) ((e.takeNext p).1.deliveries (e.takeNext p).2)
      ((e.takeNext p).1.settle (e.takeNext p).2) := by
  have hsame : r.afterWrites (writtenRanges []) = r := r.afterWrites_nil hmarked
  have hfind := (Registry.owned?_eq_some_iff.mp hr).1
  obtain ⟨notice, hend⟩ := takeNext_at_end hr ((FragmentQueue.pop?_eq_none_iff _).mpr hempty)
  rw [hend]
  refine ⟨rfl, rfl, (List.append_nil _).symm, ⟨r.queue, hempty, ?_⟩, fun q hq => ?_, ?_⟩
  · rw [hsame]
    exact Registry.find?_modify_self hfind (fun r => r.withWriting false) fun _ => rfl
  · show (e.registry.modify p.path fun r => r.withWriting false).find? q = _
    rw [Registry.find?_modify, if_neg hq]
  · rw [hsame, show firstFailure p.path [] = none from rfl, Option.or_none]
    rfl

section Front

variable {found : Disk} {failure : Option UploadError} {x : Disk × List Attempt}
  {deliveries : List (Disk × Fragment)} {after : Engine × PumpResult}

theorem WritesOut.of_taken {e' : Engine} {queue : FragmentQueue}
    (h : e'.WritesOut path (r.withQueue queue) failure x deliveries after)
    (hfeed : e'.feed = e.feed)
    (hothers : ∀ q, q ≠ path → e'.registry.find? q = e.registry.find? q) :
    e.WritesOut path r failure x deliveries after where
  deliveries := h.deliveries
  disk := h.disk
  told := by rw [← hfeed]; exact h.told
  record := h.record
  others := fun q hq => (h.others q hq).trans (hothers q hq)
  result := h.result

/-- A failed attempt in front is told of, and is the first failure if there was none. -/
theorem WritesOut.of_failure {cause : OsError}
    (h : (e.accountFailure flight cause).1.WritesOut flight.pump.path r
      (e.accountFailure flight cause).2.failure x deliveries after) :
    e.WritesOut flight.pump.path r flight.pump.failure
      (x.1, ⟨found, flight.fragment, .error cause⟩ :: x.2) ((found, flight.fragment) :: deliveries)
      after where
  deliveries := by rw [h.deliveries, List.map_cons]
  disk := h.disk
  told := h.told.trans (List.append_assoc _ _ _)
  record := h.record
  others := h.others
  result := by
    rw [h.result]
    cases hfirst : flight.pump.failure <;> simp only [accountFailure, hfirst] <;> rfl

/-- A written fragment in front adds its range, and is told of if it completes the upload. -/
theorem WritesOut.of_write {w : FileWriter}
    (hr : e.registry.owned? flight.pump.path flight.pump.id = some r) (hmarked : r.Marked)
    (h : (e.accountWrite flight r w).1.WritesOut flight.pump.path
      (r.recordWrite flight.fragment.range) flight.pump.failure x deliveries after) :
    e.WritesOut flight.pump.path r flight.pump.failure
      (x.1, ⟨found, flight.fragment, .ok ()⟩ :: x.2) ((found, flight.fragment) :: deliveries)
      after := by
  have hpath : r.path = flight.pump.path :=
    Registry.path_of_find? (Registry.owned?_eq_some_iff.mp hr).1
  have hsaved : (r.recordWrite flight.fragment.range).saved = r.saved + flight.fragment.len := by
    rw [← flight.fragment.length_range]
    rfl
  have hsame : (r.recordWrite flight.fragment.range).afterWrites (writtenRanges x.2) =
      r.afterWrites (writtenRanges (⟨found, flight.fragment, .ok ()⟩ :: x.2)) :=
    r.afterWrites_recordWrite _ _
  refine ⟨?_, h.disk, ?_, hsame ▸ h.record, fun q hq => ?_, hsame ▸ h.result⟩
  · rw [h.deliveries, List.map_cons]
  · rw [h.told, sent_accountWrite hr, List.append_assoc, r.news_of_marked hmarked, hpath, hsaved]
    rfl
  · exact (h.others q hq).trans ((leaves_account (.ok w) hr).record q hq)

end Front

/-- What a pump makes of the fragments that wait, that has the file open its path leads to, if one. -/
theorem writesOut_takeNext (hr : e.registry.owned? p.path p.id = some r) (hmarked : r.Marked)
    (hkeeps : e.Keeps p) :
    e.WritesOut p.path r p.failure (e.storage.attempts p.path e.disk r.queue.toList)
      ((e.takeNext p).1.deliveries (e.takeNext p).2)
      ((e.takeNext p).1.settle (e.takeNext p).2) := by
  -- by the fragments that wait; the file stays the one that the path leads to
  generalize hwaiting : r.queue.toList = fragments
  induction fragments generalizing e p r with
  | nil => exact writesOut_at_end hr hmarked hwaiting
  | cons f rest ih =>
    obtain ⟨queue, hpop, hrest⟩ := FragmentQueue.exists_pop? hwaiting
    let flight : Flight := ⟨p, f⟩
    let e₁ : Engine := e.modify p.path fun r => r.withQueue queue
    have hr₁ : e₁.registry.owned? p.path p.id = some (r.withQueue queue) :=
      Registry.owned?_modify_self hr (fun r => r.withQueue queue) (fun _ => rfl) rfl
    have hothers : ∀ q, q ≠ p.path → e₁.registry.find? q = e.registry.find? q :=
      (e.leaves_modify p.path (fun r => r.withQueue queue) fun _ => rfl).record
    have hkeeps₁ : e₁.Keeps flight.pump := hkeeps
    have hsplit : e.storage.attempts p.path e.disk (f :: rest) =
        ((e.storage.attempts p.path (e₁.attempt flight).1 rest).1,
          ⟨e.disk, f, (e₁.attempt flight).2⟩ ::
            (e.storage.attempts p.path (e₁.attempt flight).1 rest).2) := rfl
    obtain ⟨result, hresult, hnext, hresume⟩ := resume_eq_account hkeeps₁ hr₁
    rw [takeNext_of_pop? hr hpop, hsplit, ← hresult]
    show e.WritesOut p.path r p.failure _ (e₁.deliveries (.inFlight flight)) (e₁.drive flight)
    rw [deliveries_inFlight, drive_eq_settle, hresume]
    suffices h : (e₁.attempted flight).WritesOut p.path (r.withQueue queue) p.failure _ _ _ from
      h.of_taken rfl hothers
    cases result with
    | error cause =>
      let next := (e₁.attempted flight).accountFailure flight cause
      have hthere : next.1.registry.owned? next.2.path next.2.id = some (r.withQueue queue) := hr₁
      exact (ih hthere hmarked hnext hrest).of_failure
    | ok w =>
      let next := (e₁.attempted flight).accountWrite flight (r.withQueue queue) w
      have hthere : next.1.registry.owned? next.2.path next.2.id =
          some ((r.withQueue queue).recordWrite f.range) := owned?_accountWrite hr₁ w
      have hdisk : next.1.disk = (e₁.attempt flight).1 := disk_accountWrite _ _ _ _
      have hstorage : next.1.storage = e.storage := (later_accountWrite _ _ _ _).storage
      have hafter := ih hthere (Record.marked_recordWrite _ _) hnext hrest
      rw [hdisk, hstorage] at hafter
      exact WritesOut.of_write (r := r.withQueue queue) hr₁ hmarked hafter

end Engine

/-- In every state that calls and turns of pumps lead to, whatever comes to the disk from outside: a pump
that is granted a slot, and that nothing comes between, starts one delivery for each fragment of its
queue, in their order, each at the disk that the attempt before it left. The ranges of the attempts that
succeed are added to those of the record, in their order; each attempt that fails is told of with its
cause, and the one that first writes as many bytes as the upload has is followed by the news of its
completion. Then nothing waits and the slot is free; and the pump comes to its first failure, or to the
figures of the record. -/
theorem pump_in_turn (disk : Disk) (storage : Storage) (writers maxSize capacity : Nat)
    (moves : List Move) (path : String) (g : Registry) :
    let c := (Course.new (.new disk storage writers maxSize capacity)).run moves
    c.engine.slots.acquire c.engine.registry path = .ok (g, .granted) →
    ∃ r, c.engine.registry.find? path = some r ∧
      let x := c.engine.storage.attempts path c.engine.disk r.queue.toList
      let after := c.engine.pump path
      (c.engine.pumpDeliveries path = x.2.map fun a => (a.found, a.fragment)) ∧
      x.2.map Attempt.fragment = r.queue.toList ∧
      after.1.disk = x.1 ∧
      after.1.feed.sent = c.engine.feed.sent ++ tellings path r.size r.saved x.2 ∧
      (∃ s, after.1.registry.find? path = some s ∧
        s.coverage.ranges = r.coverage.ranges ++ writtenRanges x.2 ∧
        s.queue.toList = [] ∧ s.writing = false ∧
        after.2 = (firstFailure path x.2).elim (.ok (.drained s.saved s.completed)) .error) ∧
      ∀ q, q ≠ path → after.1.registry.find? q = c.engine.registry.find? q := by
  intro c hgranted
  obtain ⟨-, hanswer⟩ | ⟨r, hr, ⟨-, hanswer⟩ | ⟨-, -, hanswer⟩ | ⟨hfree, hroom, -⟩⟩ :=
    c.engine.slots.acquire_cases c.engine.registry path
  · rw [hanswer] at hgranted
    cases hgranted
  · rw [hanswer] at hgranted
    cases hgranted
  · rw [hanswer] at hgranted
    cases hgranted
  · have hfigures : Figures (inHand c.view.hands r.id) r :=
      Course.figured_run (.new disk storage writers maxSize capacity) rfl moves path r hr
    have hmarked : r.Marked := by
      rw [Record.Marked, Bool.eq_iff_iff, decide_eq_true_iff]
      exact hfigures.completed
    have hwrites := Engine.writesOut_takeNext (e := c.engine.modify path fun r => r.withWriting true)
      (p := ⟨path, r.id, none, none⟩) (Registry.owned?_withWriting hr true) hmarked
      Storage.current_none
    have hbegin := Engine.begin_eq_takeNext hr hfree hroom
    rw [← hbegin] at hwrites
    obtain ⟨hdeliveries, hdisk, htold, ⟨queue, hempty, hrecord⟩, hothers, hresult⟩ := hwrites
    refine ⟨r, hr, hdeliveries, Storage.fragments_attempts _, hdisk, htold,
      ⟨_, hrecord, rfl, hempty, rfl, hresult⟩, fun q hq => (hothers q hq).trans ?_⟩
    exact (c.engine.leaves_modify path (fun r => r.withWriting true) fun _ => rfl).record q hq

/-- Three fragments wait for an upload, and its slot is free; the second lies where no file reaches. -/
def secondOutOfReach : List Move :=
  [.init "a" (Disk.offsetLimit + 1) 0 "", .init "b" 1 0 "", .submit "b" ⟨0, #[9]⟩,
    .submit "a" ⟨0, #[1]⟩, .submit "a" ⟨Disk.offsetLimit, #[2]⟩, .submit "a" ⟨1, #[3]⟩, .drop 0]

def threeWait : Course := (Course.new (.new .empty ⟨"up"⟩ 1 UInt64.size 16)).run secondOutOfReach

theorem threeWait_granted : threeWait.engine.slots.acquire threeWait.engine.registry "a" =
    .ok (threeWait.engine.registry.modify "a" fun r => r.withWriting true, .granted) := rfl

/-- The first and the third are written, and the pump comes to the failure of the second. -/
theorem third_is_written_after_failure :
    (∃ s, (threeWait.engine.pump "a").1.registry.find? "a" = some s ∧
      s.coverage.ranges = [⟨0, 1⟩, ⟨1, 2⟩]) ∧
    (threeWait.engine.pump "a").1.feed.sent =
      [.failed "a" Disk.offsetLimit 1 OsError.invalidArgument.message] ∧
    (threeWait.engine.pump "a").2 =
      .error (.writeFailure "a" Disk.offsetLimit 1 .invalidArgument) := by
  have hpump := pump_in_turn .empty ⟨"up"⟩ 1 UInt64.size 16 secondOutOfReach "a" _ threeWait_granted
  rw [← threeWait] at hpump
  obtain ⟨r, hr, -, -, -, htold, ⟨s, hs, hranges, -, -, hresult⟩, -⟩ := hpump
  have hfigures : (threeWait.engine.registry.find? "a").map
      (fun r => (r.queue.toList, r.coverage.ranges, r.size, r.saved)) =
    some ([⟨0, #[1]⟩, ⟨Disk.offsetLimit, #[2]⟩, ⟨1, #[3]⟩], [], Disk.offsetLimit + 1, 0) := by decide
  rw [hr] at hfigures
  obtain ⟨hwaiting, hnone, hsize, hsaved⟩ : r.queue.toList = _ ∧ r.coverage.ranges = [] ∧
      r.size = Disk.offsetLimit + 1 ∧ r.saved = 0 := by simpa using hfigures
  rw [hwaiting] at hranges htold hresult
  rw [hnone] at hranges
  rw [hsize, hsaved] at htold
  refine ⟨⟨s, hs, hranges.trans ?_⟩, htold.trans ?_, hresult.trans ?_⟩
  · decide
  · decide
  · have hfirst : firstFailure "a" (threeWait.engine.storage.attempts "a" threeWait.engine.disk
        [⟨0, #[1]⟩, ⟨Disk.offsetLimit, #[2]⟩, ⟨1, #[3]⟩]).2 =
      some (.writeFailure "a" Disk.offsetLimit 1 .invalidArgument) := by decide
    rw [hfirst]
    rfl

end ResumableUpload
