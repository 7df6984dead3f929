import ResumableUpload.Proofs.Course.Dropped
import ResumableUpload.Proofs.Course.Each
import ResumableUpload.Proofs.Fragment.Waiting

/-
  Ledger — where every fragment is

  A fragment that was accepted waits in the queue, is in the hand of a pump, or
  was settled: written, failed, or abandoned when its pump was dropped. The
  order of acceptance is the order of settling, and the figures of a record are
  sums over these lists.

  What is held:
    1. `Ledger` — the account of one registration: its log, the fragments in
       hand, and its record.

  What is proved:
    1. `Ledger.accept`, `take`, `write`, `fail`, `abandon` — each step of a
       fragment keeps the account.
    2. `kept_ledger`, `ledgers_run` — so every run keeps the accounts of all
       uploads.
    3. `ledger_of_run` — the same, said of courses, with the events sent and the
       pumps dropped.
-/

namespace ResumableUpload

/-- The place of the fragment that an event reports as failed, with the path. -/
def Event.failure? : Event → Option (String × Nat × Nat)
  | .failed path position len _ => some (path, position, len)
  | _ => none

/-- The account of one registration. -/
structure Ledger (log : Log) (held : List Fragment) (r : Record) : Prop where
  /-- What was accepted was settled, is in hand, or waits, in the order in which it came. -/
  accepted : log.accepted = log.settled.map Settlement.fragment ++ (held ++ r.queue.toList)
  coverage : r.coverage.ranges = (log.ended .written).map fun s => s.fragment.range
  /-- One event for each fragment that failed. -/
  failures : log.told.filterMap Event.failure? =
    (log.ended .failed).map fun s => (r.path, s.fragment.position, s.fragment.len)
  received : r.received = (log.accepted.map Fragment.len).sum
  saved : r.saved = ((log.ended .written).map fun s => s.fragment.len).sum
  queued : r.queue.queuedBytes = (r.queue.toList.map Fragment.len).sum

/-! ## The steps of a fragment -/

theorem Record.failures_news (r : Record) (range : ByteRange) :
    (r.news range).filterMap Event.failure? = [] := by
  unfold Record.news
  split <;> rfl

theorem Ticket.failures_news (t : Ticket) : t.news.filterMap Event.failure? = [] := by
  unfold Ticket.news
  split <;> rfl

namespace Ledger

variable {log : Log} {held : List Fragment} {r : Record} {f : Fragment} {n : Nat}

theorem fresh (id : UploadId) (path clientPath : String) (size : Nat) (owner : Int) (t : Ticket) :
    Ledger (.registered :: t.news.map .told) [] (.new id path size owner clientPath) := by
  have haccepted : Log.accepted (.registered :: t.news.map .told) = [] := Log.accepted_told t.news
  have hsettled : Log.settled (.registered :: t.news.map .told) = [] := Log.settled_told t.news
  have hended : ∀ v, Log.ended v (.registered :: t.news.map .told) = [] :=
    fun v => Log.ended_told v t.news
  have htold : Log.told (.registered :: t.news.map .told) = t.news := Log.told_told t.news
  constructor
  · rw [haccepted, hsettled]
    rfl
  · rw [hended]
    rfl
  · rw [htold, hended, t.failures_news]
    rfl
  · rw [haccepted]
    rfl
  · rw [hended]
    rfl
  · rfl

theorem accept (h : Ledger log held r) (f : Fragment) :
    Ledger (log ++ [.accepted f]) held (r.enqueue f) := by
  have haccepted : Log.accepted [.accepted f] = [f] := rfl
  have hsettled : Log.settled [.accepted f] = [] := rfl
  have hended : ∀ v, Log.ended v [.accepted f] = [] := fun _ => rfl
  have htold : Log.told [.accepted f] = [] := rfl
  constructor
  · show _ = _ ++ (held ++ (r.queue.push f).toList)
    rw [Log.accepted_append, Log.settled_append, haccepted, hsettled, List.append_nil,
      FragmentQueue.toList_push, h.accepted]
    simp only [List.append_assoc]
  · rw [Log.ended_append, hended, List.append_nil]
    exact h.coverage
  · rw [Log.told_append, Log.ended_append, htold, hended, List.append_nil, List.append_nil]
    exact h.failures
  · show r.received + f.len = _
    rw [Log.accepted_append, haccepted, List.map_append, List.sum_append, h.received]
    simp
  · rw [Log.ended_append, hended, List.append_nil]
    exact h.saved
  · exact FragmentQueue.Counted.push h.queued f

theorem mark (h : Ledger log held r) (b : Bool) : Ledger log held (r.withWriting b) :=
  ⟨h.accepted, h.coverage, h.failures, h.received, h.saved, h.queued⟩

theorem take {queue : FragmentQueue} (h : Ledger log [] r) (hpop : r.queue.pop? = some (f, queue)) :
    Ledger log [f] (r.withQueue queue) := by
  have hlist : r.queue.toList = f :: queue.toList := FragmentQueue.toList_of_pop? hpop
  have hcounted : queue.Counted := FragmentQueue.Counted.of_pop? h.queued hpop
  refine ⟨?_, h.coverage, h.failures, h.received, h.saved, hcounted⟩
  show _ = _ ++ ([f] ++ queue.toList)
  rw [h.accepted, hlist]
  rfl

theorem settle {more : Log} {v : Verdict} {after : Record} (h : Ledger log [f] r)
    (haccepted : more.accepted = []) (hsettled : more.settled = [⟨n, f, v⟩])
    (htold : more.told.filterMap Event.failure? =
      (more.ended .failed).map fun s => (r.path, s.fragment.position, s.fragment.len))
    (hsame : after.path = r.path ∧ after.received = r.received ∧ after.queue = r.queue)
    (hcoverage : after.coverage.ranges = r.coverage.ranges ++
      (more.ended .written).map fun s => s.fragment.range)
    (hsaved : after.saved = r.saved + ((more.ended .written).map fun s => s.fragment.len).sum) :
    Ledger (log ++ more) [] after := by
  obtain ⟨hpath, hreceived, hqueue⟩ := hsame
  constructor
  · rw [hqueue, Log.accepted_append, Log.settled_append, haccepted, hsettled, List.append_nil,
      h.accepted, List.map_append, List.append_assoc]
    rfl
  · rw [hcoverage, h.coverage, Log.ended_append, List.map_append]
  · rw [hpath, Log.told_append, List.filterMap_append, htold, h.failures, Log.ended_append,
      List.map_append]
  · rw [hreceived, h.received, Log.accepted_append, haccepted, List.append_nil]
  · rw [hsaved, h.saved, Log.ended_append, List.map_append, List.sum_append]
  · rw [hqueue]
    exact h.queued

theorem write (h : Ledger log [f] r) (n : Nat) :
    Ledger (log ++ .settled ⟨n, f, .written⟩ :: (r.news f.range).map .told) []
      (r.recordWrite f.range) := by
  generalize hmore : Happening.settled ⟨n, f, .written⟩ :: (r.news f.range).map .told = more
  have hsettled : Log.settled more = [⟨n, f, .written⟩] := by
    rw [← hmore]
    exact congrArg _ (Log.settled_told _)
  have hwritten : Log.ended .written more = [⟨n, f, .written⟩] := by
    rw [Log.ended, hsettled]
    rfl
  have hfailed : Log.ended .failed more = [] := by
    rw [Log.ended, hsettled]
    rfl
  have htold : Log.told more = r.news f.range := by
    rw [← hmore]
    exact Log.told_told _
  have hsame : (r.recordWrite f.range).path = r.path ∧ (r.recordWrite f.range).received = r.received ∧
      (r.recordWrite f.range).queue = r.queue := ⟨rfl, rfl, rfl⟩
  refine h.settle ?_ hsettled ?_ hsame ?_ ?_
  · rw [← hmore]
    exact Log.accepted_told _
  · rw [htold, hfailed]
    exact r.failures_news _
  · rw [hwritten]
    rfl
  · rw [hwritten]
    show r.saved + f.range.length = _
    rw [f.length_range]
    rfl

theorem fail (h : Ledger log [f] r) (n : Nat) (message : String) :
    Ledger (log ++ [.settled ⟨n, f, .failed⟩, .told (.failed r.path f.position f.len message)]) []
      r :=
  h.settle rfl rfl rfl ⟨rfl, rfl, rfl⟩ (List.append_nil _).symm rfl

theorem abandon (h : Ledger log [f] r) (n : Nat) :
    Ledger (log ++ [.settled ⟨n, f, .abandoned⟩]) [] r :=
  h.settle rfl rfl rfl ⟨rfl, rfl, rfl⟩ (List.append_nil _).symm rfl

end Ledger

/-! ## The accounts of all uploads -/

theorem kept_ledger : Kept Ledger where
  fresh := fun _ _ _ _ _ => Ledger.fresh _ _ _ _ _ _
  accept := fun _ _ _ f h _ => h.accept f
  mark := fun _ _ _ writing h => h.mark writing
  take := fun _ _ _ _ h hpop => h.take hpop
  write := fun _ _ n _ h => h.write n
  fail := fun _ _ n _ message h => h.fail n message
  abandon := fun _ _ n _ h => h.abandon n

/-- The accounts of all uploads. -/
def Ledgers (v : View) : Prop :=
  ∀ q r, v.registry.find? q = some r → Ledger (v.history.of r.id) (inHand v.hands r.id) r

theorem ledgers_change {ceiling : Nat} {v w : View} (hc : Change ceiling v w) (hid : Identity v)
    (hslots : Slots ceiling v) (h : Ledgers v) : Ledgers w :=
  each_change kept_ledger hc hid hslots h

theorem ledgers_run (e : Engine) (hempty : e.registry = .empty) (moves : List Move) :
    Ledgers ((Course.new e).run moves).view := each_run kept_ledger e hempty moves

/-- Every fragment is accounted for: whatever the moves, the history tells the events sent, and names
each pump dropped once; and for every upload what was accepted is what was settled, then the one
fragment in hand at most, then the queue, with the coverage, the failures reported and the figures of
the record to match. -/
theorem ledger_of_run (disk : Disk) (storage : Storage) (writers maxSize capacity : Nat)
    (moves : List Move) :
    let start := Course.new (.new disk storage writers maxSize capacity)
    let c := start.run moves
    c.history.all.told = c.engine.feed.sent ∧
    c.history.all.dropped = start.drops moves ∧ (start.drops moves).Nodup ∧
    ∀ q r, c.engine.registry.find? q = some r →
      (c.serving r.id).length ≤ 1 ∧
      Ledger (c.history.of r.id) ((c.serving r.id).map fun u => u.flight.fragment) r ∧
      (c.history.of r.id).dropped.Sublist (start.drops moves) := by
  intro start c
  have hdropped : c.history.all.dropped = start.drops moves := start.dropped_run moves
  refine ⟨Course.events_run _ rfl moves, hdropped, Course.nodup_drops _ moves, ?_⟩
  intro q r hr
  refine ⟨?_, ?_, ?_⟩
  · have hslots : Slots start.engine.slots.ceiling c.view := slots_run start.engine rfl moves
    rw [← servers_view, hslots.served q r hr]
    exact Bool.toNat_le _
  · rw [← inHand_view]
    exact ledgers_run start.engine rfl moves q r hr
  · rw [← hdropped]
    exact Log.dropped_of_sublist r.id c.history

end ResumableUpload
