import ResumableUpload.Proofs.Course.Later

/-
  Noted — what a move notes

  What a move adds to the history can be read off the course before it: an
  upload is registered, a fragment accepted, a delivery ends, a pump is dropped
  or an upload removed. All else notes nothing.

  What is held:
    1. `Course.registers`, `accepts`, `delivers`, `abandons`, `removes` — what
       happens with a move; `Course.notes` — what is noted of it.

  What is proved:
    1. `mem_notes` — what is noted is noted of one of them;
       `registers_of_mem_notes`, `delivers_of_mem_notes` — of which one.
    2. `history_step` — the history grows by what the move notes.
-/

namespace ResumableUpload

namespace History

/-- What happened to one registration, as a history. -/
def only (id : UploadId) (l : Log) : History := l.map fun x => (id, x)

theorem all_append (h k : History) : History.all (h ++ k) = h.all ++ k.all := List.map_append

@[simp] theorem all_only (id : UploadId) (l : Log) : (only id l).all = l := by
  simp [only, all, Function.comp_def]

theorem mem_only {i id : UploadId} {x : Happening} {l : Log} :
    (i, x) ∈ only id l ↔ i = id ∧ x ∈ l := by
  constructor
  · intro h
    obtain ⟨y, hy, heq⟩ := List.mem_map.mp h
    cases heq
    exact ⟨rfl, hy⟩
  · rintro ⟨rfl, hx⟩
    exact List.mem_map_of_mem hx

theorem mem_of {id : UploadId} {x : Happening} {h : History} : x ∈ h.of id ↔ (id, x) ∈ h := by
  simp [of]

end History

theorem Log.mem_ended {v : Verdict} {s : Settlement} {l : Log} :
    s ∈ l.ended v ↔ .settled s ∈ l ∧ s.verdict = v := by
  have hsettled : ∀ x : Happening, x.settled? = some s ↔ x = .settled s := by
    intro x
    cases x <;> simp [Happening.settled?]
  simp [ended, settled, hsettled]

namespace Course

/-- The upload that a move registers. -/
def registers (c : Course) : Move → Option Ticket
  | .init path size owner clientPath =>
    (c.engine.init path size owner clientPath).toOption.map Prod.snd
  | .initWithin quota path size owner clientPath =>
    (c.engine.initWithin quota path size owner clientPath).toOption.map Prod.snd
  | _ => none

theorem eq_ok_of_ticket {ε : Type} {x : Except ε (Engine × Ticket)} {t : Ticket}
    (h : x.toOption.map Prod.snd = some t) : ∃ e, x = .ok (e, t) := by
  cases x with
  | error err => cases h
  | ok y =>
    obtain rfl : y.2 = t := Option.some.inj h
    exact ⟨y.1, rfl⟩

/-- The fragment that a move brings, if it is accepted, and its upload. -/
def accepts (c : Course) : Move → Option (Record × Fragment)
  | .submit path f =>
    match c.engine.accept path f, c.engine.registry.find? path with
    | .ok _, some r => some (r, f)
    | _, _ => none
  | _ => none

/-- The delivery that ends with a turn of a pump. -/
def deliversTurn (c : Course) (u : Underway) : Option (Underway × Except OsError FileWriter) :=
  match u.delivery.advance c.engine.storage u.flight.pump.path u.flight.fragment c.engine.disk with
  | (_, .onward _) => none
  | (_, .ended result) => some (u, result)

/-- The pump whose delivery ends with a move, and how it ends. -/
def delivers (c : Course) : Move → Option (Underway × Except OsError FileWriter)
  | .turn n => (c.find? n).bind c.deliversTurn
  | .fault n fault => (c.find? n).map fun u => (u, .error fault.cause)
  | _ => none

/-- The pump that a move drops. -/
def abandons (c : Course) : Move → Option Underway
  | .drop n => c.find? n
  | _ => none

/-- The upload that a move removes. -/
def removes (c : Course) : Move → Option Record
  | .remove path => c.engine.registry.find? path
  | .discard path => c.engine.registry.find? path
  | _ => none

theorem removes_eq_some {c : Course} {m : Move} {r : Record} (h : c.removes m = some r) :
    (m = .remove r.path ∨ m = .discard r.path) ∧ c.engine.registry.find? r.path = some r := by
  cases m with
  | remove path =>
    obtain rfl : r.path = path := Registry.path_of_find? h
    exact ⟨.inl rfl, h⟩
  | discard path =>
    obtain rfl : r.path = path := Registry.path_of_find? h
    exact ⟨.inr rfl, h⟩
  | _ => cases h

def notedRegistered (t : Ticket) : History := .only t.id (.registered :: t.news.map .told)

def notedAccepted (x : Record × Fragment) : History := .only x.1.id [.accepted x.2]

def notedDelivered (c : Course) (x : Underway × Except OsError FileWriter) : History :=
  .only x.1.flight.pump.id (c.engine.landed x.1.number x.1.flight x.2 ++
    (c.engine.tidings x.1.flight x.2).map .told)

def notedAbandoned (u : Underway) : History :=
  .only u.flight.pump.id [.settled ⟨u.number, u.flight.fragment, .abandoned⟩]

def notedRemoved (r : Record) : History := .only r.id [.told (.removed r.path)]

/-- What a move notes. -/
def notes (c : Course) (m : Move) : History :=
  (c.registers m).elim [] notedRegistered ++ (c.accepts m).elim [] notedAccepted ++
    (c.delivers m).elim [] c.notedDelivered ++ (c.abandons m).elim [] notedAbandoned ++
    (c.removes m).elim [] notedRemoved

/-- What a move notes is noted of one of the things that happen with it. -/
theorem mem_notes {c : Course} {m : Move} {x : UploadId × Happening} (h : x ∈ c.notes m) :
    (∃ t, c.registers m = some t ∧ x ∈ notedRegistered t) ∨
    (∃ y, c.accepts m = some y ∧ x ∈ notedAccepted y) ∨
    (∃ y, c.delivers m = some y ∧ x ∈ c.notedDelivered y) ∨
    (∃ u, c.abandons m = some u ∧ x ∈ notedAbandoned u) ∨
    ∃ r, c.removes m = some r ∧ x ∈ notedRemoved r := by
  have helim : ∀ {α : Type} {o : Option α} {f : α → History}, x ∈ o.elim [] f →
      ∃ a, o = some a ∧ x ∈ f a := by
    intro α o f hx
    cases o with
    | none => cases hx
    | some a => exact ⟨a, rfl, hx⟩
  simp only [notes, List.mem_append] at h
  rcases h with (((h | h) | h) | h) | h
  · exact .inl (helim h)
  · exact .inr (.inl (helim h))
  · exact .inr (.inr (.inl (helim h)))
  · exact .inr (.inr (.inr (.inl (helim h))))
  · exact .inr (.inr (.inr (.inr (helim h))))

/-- What is noted as registered is registered by the move. -/
theorem registers_of_mem_notes {c : Course} {m : Move} {id : UploadId}
    (h : (id, .registered) ∈ c.notes m) : ∃ t, c.registers m = some t ∧ t.id = id := by
  obtain ⟨t, ht, h⟩ | ⟨y, -, h⟩ | ⟨y, -, h⟩ | ⟨u, -, h⟩ | ⟨r, -, h⟩ := mem_notes h
  · exact ⟨t, ht, (History.mem_only.mp h).1.symm⟩
  · simpa using (History.mem_only.mp h).2
  · have hmem := (History.mem_only.mp h).2
    unfold Engine.landed at hmem
    split at hmem <;> simp at hmem
  · simpa using (History.mem_only.mp h).2
  · simpa using (History.mem_only.mp h).2

/-- What is noted as written is delivered with the move, to an upload that is there. -/
theorem delivers_of_mem_notes {c : Course} {m : Move} {id : UploadId} {s : Settlement}
    (h : (id, .settled s) ∈ c.notes m) (hwritten : s.verdict = .written) :
    ∃ u w, c.delivers m = some (u, .ok w) ∧ u.flight.pump.id = id ∧
      u.flight.fragment = s.fragment ∧
      ∃ r, c.engine.registry.owned? u.flight.pump.path id = some r := by
  obtain ⟨t, -, h⟩ | ⟨y, -, h⟩ | ⟨⟨u, result⟩, hdelivers, h⟩ | ⟨u, -, h⟩ | ⟨r, -, h⟩ := mem_notes h
  · simpa using (History.mem_only.mp h).2
  · simpa using (History.mem_only.mp h).2
  · obtain ⟨rfl, hmem⟩ := History.mem_only.mp h
    unfold Engine.landed at hmem
    split at hmem
    · rename_i hthere
      obtain rfl : s = ⟨u.number, u.flight.fragment, .of result⟩ := by simpa using hmem
      cases result with
      | error cause => cases hwritten
      | ok w => exact ⟨u, w, hdelivers, rfl, rfl, Option.isSome_iff_exists.mp hthere⟩
    · simp at hmem
  · obtain rfl : s = ⟨u.number, u.flight.fragment, .abandoned⟩ := by
      simpa using (History.mem_only.mp h).2
    cases hwritten
  · simpa using (History.mem_only.mp h).2

theorem history_onward {c : Course} {e : Engine} {events : List Event}
    (hsent : e.feed.sent = c.engine.feed.sent ++ events) (id : UploadId) (happened : Log) :
    (c.onward e id happened).history =
      c.history ++ .only id (happened ++ events.map .told) := by
  show c.history ++ .only id (happened ++ (c.engine.news e).map .told) = _
  rw [Engine.news_of_sent hsent]

theorem history_registered {ε : Type} {c : Course} {x : Except ε (Engine × Ticket)}
    (h : ∀ e t, x = .ok (e, t) → e.feed.sent = c.engine.feed.sent ++ t.news) :
    (c.registered x).history =
      c.history ++ (x.toOption.map Prod.snd).elim [] notedRegistered := by
  cases x with
  | error err => exact (List.append_nil _).symm
  | ok y => exact history_onward (h y.1 y.2 rfl) y.2.id [.registered]

theorem history_submit (c : Course) (path : String) (f : Fragment) :
    (c.step (.submit path f)).history =
      c.history ++ (c.accepts (.submit path f)).elim [] notedAccepted := by
  simp only [step, accept, accepts]
  cases he : c.engine.accept path f with
  | error err => exact (List.append_nil _).symm
  | ok e =>
    obtain ⟨r, notice, hr, -, rfl⟩ := Engine.accept_eq_ok he
    simp only [hr]
    have hsent : ((c.engine.modify path fun r => r.enqueue f).note notice).feed.sent =
        c.engine.feed.sent ++ [] := (List.append_nil _).symm
    exact history_onward hsent r.id [.accepted f]

theorem history_land (c : Course) (u : Underway) (result : Except OsError FileWriter) :
    (c.land u result).history = c.history ++ c.notedDelivered (u, result) :=
  history_onward (Engine.sent_land c.engine u.flight result) _ _

theorem history_turn (c : Course) (u : Underway) :
    (c.turn u).history = c.history ++ (c.deliversTurn u).elim [] c.notedDelivered := by
  unfold turn deliversTurn
  cases u.delivery.advance c.engine.storage u.flight.pump.path u.flight.fragment c.engine.disk with
  | mk disk state =>
    cases state with
    | onward next => exact (List.append_nil _).symm
    | ended result => exact history_land (c.withDisk disk) u result

theorem history_abandon (c : Course) (u : Underway) :
    (c.abandon u).history = c.history ++ notedAbandoned u := by
  have hsent : (c.engine.abandon u.flight).feed.sent = c.engine.feed.sent ++ [] := by
    rw [Engine.feed_abandon, List.append_nil]
  exact history_onward hsent _ _

theorem history_removed {c : Course} {path : String} {e : Engine}
    (hfeed : e.feed = (c.engine.remove path).feed) :
    (c.removed path e).history =
      c.history ++ (c.engine.registry.find? path).elim [] notedRemoved := by
  unfold removed
  unfold Engine.remove at hfeed
  cases hr : c.engine.registry.find? path with
  | none => exact (List.append_nil _).symm
  | some r =>
    obtain rfl := Registry.path_of_find? hr
    simp only [hr] at hfeed
    have hsent : e.feed.sent = c.engine.feed.sent ++ [.removed r.path] := by
      rw [hfeed]
      rfl
    exact history_onward hsent r.id []

theorem history_beginMany (paths : List String) (c : Course) :
    (paths.foldl begin c).history = c.history := by
  induction paths generalizing c with
  | nil => rfl
  | cons path rest ih => exact ih (c.begin path)

/-- The history grows by what the move notes. -/
theorem history_step (c : Course) (m : Move) : (c.step m).history = c.history ++ c.notes m := by
  have hnone : c.history = c.history ++ [] := (List.append_nil _).symm
  cases m with
  | init path size owner clientPath =>
    simp only [notes, registers, accepts, delivers, abandons, removes, Option.elim_none,
      List.append_nil]
    apply history_registered
    intro e t h
    obtain ⟨registry, notice, -, rfl⟩ := Engine.init_eq_ok h
    exact Engine.sent_announceIfEmpty _ t
  | initWithin quota path size owner clientPath =>
    simp only [notes, registers, accepts, delivers, abandons, removes, Option.elim_none,
      List.append_nil]
    apply history_registered
    intro e t h
    obtain ⟨registry, notice, -, rfl⟩ := Engine.initWithin_eq_ok h
    exact Engine.sent_announceIfEmpty _ t
  | submit path f =>
    rw [history_submit]
    simp only [notes, registers, delivers, abandons, removes, Option.elim_none, List.append_nil,
      List.nil_append]
  | pump path => exact hnone
  | pumpPending => exact (history_beginMany _ c).trans hnone
  | turn n =>
    simp only [step, notes, registers, accepts, delivers, abandons, removes, Option.elim_none,
      List.append_nil, List.nil_append]
    cases c.find? n with
    | none => exact hnone
    | some u => exact history_turn c u
  | fault n fault =>
    simp only [step, notes, registers, accepts, delivers, abandons, removes, Option.elim_none,
      List.append_nil, List.nil_append]
    cases c.find? n with
    | none => exact hnone
    | some u => exact history_land (c.withDisk _) u _
  | drop n =>
    simp only [step, notes, registers, accepts, delivers, abandons, removes, Option.elim_none,
      List.append_nil, List.nil_append]
    cases c.find? n with
    | none => exact hnone
    | some u => exact history_abandon c u
  | late n fault =>
    simp only [step]
    cases c.owing? n <;> exact hnone
  | remove path => exact history_removed rfl
  | discard path => exact history_removed rfl
  | outside disk => exact hnone
  | listen cursors => exact hnone

end Course

end ResumableUpload
