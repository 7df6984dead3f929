import ResumableUpload.Engine.Rounds

/-
  Engine steps — what the steps of an engine make of it

  Every step of an engine keeps its storage, its slots and its limit, and only
  adds to the events it sent.

  What is proved:
    1. `Later` — an engine after some steps of another; one lemma for each
       step, `later_begin`, `later_land` and so on.
    2. `feed_begin`, `feed_takeNext`, `feed_abandon` — steps that tell nothing;
       `sent_land` — what the end of a delivery tells.
    3. `accept_eq_ok`, `init_eq_ok`, `initWithin_eq_ok` — what a step that is
       not refused makes of the engine.
    4. `begin_cases` — how a pump begins; `begin_eq_takeNext`,
       `takeNext_of_pop?`, `takeNext_at_end` — how it goes on.
-/

namespace ResumableUpload

/-- What is told when an upload is registered. -/
def Ticket.news (t : Ticket) : List Event := if t.size = 0 then [.completed t.path 0] else []

/-- What is told when a write of `range` is accounted: whether it completes the upload. -/
def Record.news (r : Record) (range : ByteRange) : List Event :=
  if (r.recordWrite range).completed && !r.completed then [.completed r.path r.size] else []

/-- What a pump tells that has written out the queue of a record: its first failure, or the figures. -/
def PumpResult.ofRecord (failure : Option UploadError) (r : Record) : PumpResult :=
  failure.elim (.ok (.drained r.saved r.completed)) .error

/-- The range of a fragment. -/
def Fragment.range (f : Fragment) : ByteRange := ⟨f.position, f.stop⟩

/-- What is told when a delivery has ended: nothing where the upload is gone. -/
def Engine.tidings (e : Engine) (flight : Flight) (result : Except OsError FileWriter) :
    List Event :=
  match e.registry.owned? flight.pump.path flight.pump.id, result with
  | none, _ => []
  | some _, .error cause =>
    [.failed flight.pump.path flight.fragment.position flight.fragment.len cause.message]
  | some r, .ok _ => r.news flight.fragment.range

theorem Fragment.length_range (f : Fragment) : f.range.length = f.len :=
  Nat.add_sub_cancel_left f.position f.len

namespace Engine

/-! ## Steps that are not refused -/

/-- A fragment that was accepted lies within the upload, and waits at the end of its queue. -/
theorem accept_eq_ok {e e' : Engine} {path : String} {f : Fragment} (h : e.accept path f = .ok e') :
    ∃ r notice, e.registry.find? path = some r ∧ f.stop ≤ r.size ∧
      e' = (e.modify path fun r => r.enqueue f).note notice := by
  unfold accept Registry.enqueue Registry.get at h
  cases hr : e.registry.find? path with
  | none => simp [hr] at h
  | some r =>
    simp only [hr] at h
    by_cases hfit : f.stop ≤ r.size
    · simp only [hfit, if_true, Except.ok.injEq] at h
      exact ⟨r, _, rfl, hfit, h.symm⟩
    · simp [hfit] at h

theorem init_eq_ok {e e' : Engine} {path clientPath : String} {size : Nat} {owner : Int}
    {t : Ticket} (h : e.init path size owner clientPath = .ok (e', t)) :
    ∃ registry notice, e.registry.register path size owner clientPath = .ok (registry, t) ∧
      e' = ({ e with registry }.note notice).announceIfEmpty t := by
  unfold init at h
  simp only [bind, Except.bind] at h
  split at h
  · cases h
  · split at h
    · cases h
    · rename_i x hx
      cases h
      exact ⟨_, _, hx, rfl⟩

theorem initWithin_eq_ok {e e' : Engine} {quota : Quota} {path clientPath : String} {size : Nat}
    {owner : Int} {t : Ticket} (h : e.initWithin quota path size owner clientPath = .ok (e', t)) :
    ∃ registry notice, e.registry.register path size owner clientPath = .ok (registry, t) ∧
      e' = ({ e with registry }.note notice).announceIfEmpty t := by
  unfold initWithin at h
  simp only [bind, Except.bind] at h
  split at h
  · cases h
  · split at h
    · cases h
    · split at h
      · cases h
      · split at h
        · cases h
        · rename_i x hx
          cases h
          cases hreg : e.registry.register path size owner clientPath with
          | error err =>
            rw [hreg] at hx
            cases hx
          | ok y =>
            rw [hreg] at hx
            cases hx
            exact ⟨_, _, rfl, rfl⟩

theorem sent_announceIfEmpty (e : Engine) (t : Ticket) :
    (e.announceIfEmpty t).feed.sent = e.feed.sent ++ t.news := by
  unfold announceIfEmpty Ticket.news
  split
  · rename_i h
    rfl
  · exact (List.append_nil _).symm

theorem registry_announceIfEmpty (e : Engine) (t : Ticket) :
    (e.announceIfEmpty t).registry = e.registry := by
  unfold announceIfEmpty
  split <;> rfl

theorem disk_announceIfEmpty (e : Engine) (t : Ticket) : (e.announceIfEmpty t).disk = e.disk := by
  unfold announceIfEmpty
  split <;> rfl

/-! ## The steps of a pump -/

theorem begin_eq_takeNext {e : Engine} {path : String} {r : Record}
    (hr : e.registry.find? path = some r) (hfree : r.writing = false)
    (hroom : e.registry.writingCount < e.slots.ceiling) :
    e.begin path =
      (e.modify path fun r => r.withWriting true).takeNext ⟨path, r.id, none, none⟩ := by
  have hget : e.registry.get path = .ok r := by rw [Registry.get, hr]
  have hacquire : e.slots.acquire e.registry path =
      .ok (e.registry.modify path fun r => r.withWriting true, .granted) := by
    rw [WriteSlots.acquire, hget]
    simp [hfree, WriteSlots.mayStart, hroom]
  have hthere : (e.registry.modify path fun r => r.withWriting true).find? path =
      some (r.withWriting true) := by
    rw [Registry.find?_modify, if_pos rfl, hr]
    rfl
  rw [begin, hacquire]
  simp only [Registry.get, hthere]
  rfl

/-- A pump is refused, as its upload is unknown, is written already or gets no slot; or it takes a slot
and looks for its first fragment. -/
theorem begin_cases (e : Engine) (path : String) :
    (e.registry.find? path = none ∧ e.begin path = (e, .ended (.error (.unknownUpload path)))) ∨
    ∃ r, e.registry.find? path = some r ∧
      ((r.writing = true ∧ e.begin path = (e, .ended (.ok .busy))) ∨
        (r.writing = false ∧ e.begin path = (e.note (.slotDenied path), .ended (.ok .deferred))) ∨
        (r.writing = false ∧ e.registry.writingCount < e.slots.ceiling ∧
          e.begin path =
            (e.modify path fun r => r.withWriting true).takeNext ⟨path, r.id, none, none⟩)) := by
  cases hr : e.registry.find? path with
  | none =>
    left
    simp [begin, WriteSlots.acquire, Registry.get, hr]
  | some r =>
    right
    refine ⟨r, rfl, ?_⟩
    cases hwriting : r.writing with
    | true =>
      left
      simp [begin, WriteSlots.acquire, Registry.get, hr, hwriting]
    | false =>
      right
      by_cases hroom : e.registry.writingCount < e.slots.ceiling
      · right
        exact ⟨rfl, hroom, begin_eq_takeNext hr hwriting hroom⟩
      · left
        simp [begin, WriteSlots.acquire, WriteSlots.mayStart, Registry.get, hr, hwriting, hroom]

theorem takeNext_of_pop? {e : Engine} {p : Pump} {r : Record} {f : Fragment} {queue : FragmentQueue}
    (hr : e.registry.owned? p.path p.id = some r) (hpop : r.queue.pop? = some (f, queue)) :
    e.takeNext p = (e.modify p.path fun r => r.withQueue queue, .inFlight ⟨p, f⟩) := by
  simp only [takeNext, hr, hpop]

/-- Where nothing waits, a pump gives its slot back. It tells its first failure, or how far the upload
is. -/
theorem takeNext_at_end {e : Engine} {p : Pump} {r : Record}
    (hr : e.registry.owned? p.path p.id = some r) (hempty : r.queue.pop? = none) :
    ∃ notice, e.takeNext p = ((e.modify p.path fun r => r.withWriting false).note notice,
      .ended (.ofRecord p.failure r)) := by
  cases hfailure : p.failure <;> simp only [takeNext, hr, hempty, hfailure] <;> exact ⟨_, rfl⟩

theorem takeNext_of_empty {e : Engine} {p : Pump} {r : Record}
    (hr : e.registry.owned? p.path p.id = some r) (hempty : r.queue.pop? = none)
    (hnone : p.failure = none) :
    ∃ notice, e.takeNext p = ((e.modify p.path fun r => r.withWriting false).note notice,
      .ended (.ok (.drained r.saved r.completed))) := by
  obtain ⟨notice, hend⟩ := takeNext_at_end hr hempty
  rw [hnone] at hend
  exact ⟨notice, hend⟩

theorem registry_accountWrite (e : Engine) (flight : Flight) (r : Record) (w : FileWriter) :
    (e.accountWrite flight r w).1.registry =
      e.registry.modify flight.pump.path fun r => r.recordWrite flight.fragment.range := by
  unfold accountWrite Fragment.range
  dsimp only
  split <;> rfl

theorem owned?_accountWrite {e : Engine} {flight : Flight} {r : Record}
    (hr : e.registry.owned? flight.pump.path flight.pump.id = some r) (w : FileWriter) :
    (e.accountWrite flight r w).1.registry.owned? flight.pump.path flight.pump.id =
      some (r.recordWrite flight.fragment.range) := by
  rw [registry_accountWrite]
  exact Registry.owned?_modify_self hr (fun r => r.recordWrite flight.fragment.range)
    (fun _ => rfl) rfl

theorem disk_accountWrite (e : Engine) (flight : Flight) (r : Record) (w : FileWriter) :
    (e.accountWrite flight r w).1.disk = e.disk := by
  unfold accountWrite
  dsimp only
  split <;> rfl

theorem sent_accountWrite {e : Engine} {flight : Flight} {r : Record}
    (hr : e.registry.owned? flight.pump.path flight.pump.id = some r) (w : FileWriter) :
    (e.accountWrite flight r w).1.feed.sent = e.feed.sent ++ r.news flight.fragment.range := by
  have hpath : r.path = flight.pump.path :=
    Registry.path_of_find? (Registry.owned?_eq_some_iff.mp hr).1
  unfold accountWrite Record.news Fragment.range
  rw [hpath]
  dsimp only
  split
  · rfl
  · exact (List.append_nil _).symm

/-! ## What a step keeps -/

/-- An engine after some steps of another. -/
structure Later (e e' : Engine) : Prop where
  storage : e'.storage = e.storage
  slots : e'.slots = e.slots
  maxUploadSize : e'.maxUploadSize = e.maxUploadSize
  sent : e.feed.sent <+: e'.feed.sent

namespace Later

theorem refl (e : Engine) : Later e e := ⟨rfl, rfl, rfl, List.prefix_refl _⟩

theorem trans {a b c : Engine} (hab : Later a b) (hbc : Later b c) : Later a c :=
  ⟨hbc.storage.trans hab.storage, hbc.slots.trans hab.slots,
    hbc.maxUploadSize.trans hab.maxUploadSize, hab.sent.trans hbc.sent⟩

theorem of_feed {e e' : Engine} (hstorage : e'.storage = e.storage) (hslots : e'.slots = e.slots)
    (hsize : e'.maxUploadSize = e.maxUploadSize) (hfeed : e'.feed = e.feed) : Later e e' :=
  ⟨hstorage, hslots, hsize, [], by rw [hfeed, List.append_nil]⟩

end Later

theorem feed_takeNext (e : Engine) (p : Pump) : (e.takeNext p).1.feed = e.feed := by
  unfold takeNext
  split
  · rfl
  · split
    · rfl
    · split <;> rfl

theorem later_takeNext (e : Engine) (p : Pump) : Later e (e.takeNext p).1 := by
  unfold takeNext
  split
  · exact .refl e
  · split
    · exact .of_feed rfl rfl rfl rfl
    · split <;> exact .of_feed rfl rfl rfl rfl

theorem feed_begin (e : Engine) (path : String) : (e.begin path).1.feed = e.feed := by
  obtain ⟨-, hbegin⟩ | ⟨r, -, ⟨-, hbegin⟩ | ⟨-, hbegin⟩ | ⟨-, -, hbegin⟩⟩ := e.begin_cases path
  · rw [hbegin]
  · rw [hbegin]
  · rw [hbegin]
    rfl
  · rw [hbegin, feed_takeNext]
    rfl

theorem later_begin (e : Engine) (path : String) : Later e (e.begin path).1 := by
  have hslot : Later e (e.modify path fun r => r.withWriting true) := .of_feed rfl rfl rfl rfl
  obtain ⟨-, hbegin⟩ | ⟨r, -, ⟨-, hbegin⟩ | ⟨-, hbegin⟩ | ⟨-, -, hbegin⟩⟩ := e.begin_cases path
  · rw [hbegin]
    exact .refl e
  · rw [hbegin]
    exact .refl e
  · rw [hbegin]
    exact .of_feed rfl rfl rfl rfl
  · rw [hbegin]
    exact hslot.trans (later_takeNext _ _)

theorem later_accountWrite (e : Engine) (flight : Flight) (r : Record) (w : FileWriter) :
    Later e (e.accountWrite flight r w).1 := by
  unfold accountWrite
  dsimp only
  split
  · exact ⟨rfl, rfl, rfl, List.prefix_append _ _⟩
  · exact .of_feed rfl rfl rfl rfl

theorem later_land (e : Engine) (flight : Flight) (result : Except OsError FileWriter) :
    Later e (e.land flight result).1 := by
  unfold land
  cases e.registry.owned? flight.pump.path flight.pump.id with
  | none => exact .of_feed rfl rfl rfl rfl
  | some r =>
    cases result with
    | error cause =>
      have haccount : Later e (e.accountFailure flight cause).1 :=
        ⟨rfl, rfl, rfl, List.prefix_append _ _⟩
      exact haccount.trans (later_takeNext _ _)
    | ok w => exact (later_accountWrite e flight r w).trans (later_takeNext _ _)

theorem sent_land (e : Engine) (flight : Flight) (result : Except OsError FileWriter) :
    (e.land flight result).1.feed.sent = e.feed.sent ++ e.tidings flight result := by
  unfold land tidings
  cases hr : e.registry.owned? flight.pump.path flight.pump.id with
  | none => exact (List.append_nil _).symm
  | some r =>
    cases result with
    | error cause =>
      dsimp only
      rw [feed_takeNext]
      rfl
    | ok w =>
      dsimp only
      rw [feed_takeNext, sent_accountWrite hr]

theorem feed_abandon (e : Engine) (flight : Flight) : (e.abandon flight).feed = e.feed := by
  unfold abandon
  split <;> rfl

theorem later_abandon (e : Engine) (flight : Flight) : Later e (e.abandon flight) := by
  unfold abandon
  split
  · exact .refl e
  · exact .of_feed rfl rfl rfl rfl

theorem later_registered (e : Engine) (registry : Registry) (notice : Notice) (t : Ticket) :
    Later e (({ e with registry }.note notice).announceIfEmpty t) := by
  have hnote : Later e ({ e with registry }.note notice) := .of_feed rfl rfl rfl rfl
  unfold announceIfEmpty
  split
  · exact hnote.trans ⟨rfl, rfl, rfl, List.prefix_append _ _⟩
  · exact hnote

theorem later_init {e e' : Engine} {path clientPath : String} {size : Nat} {owner : Int}
    {t : Ticket} (h : e.init path size owner clientPath = .ok (e', t)) : Later e e' := by
  obtain ⟨registry, notice, -, rfl⟩ := init_eq_ok h
  exact later_registered e registry notice t

theorem later_initWithin {e e' : Engine} {quota : Quota} {path clientPath : String} {size : Nat}
    {owner : Int} {t : Ticket} (h : e.initWithin quota path size owner clientPath = .ok (e', t)) :
    Later e e' := by
  obtain ⟨registry, notice, -, rfl⟩ := initWithin_eq_ok h
  exact later_registered e registry notice t

theorem later_remove (e : Engine) (path : String) : Later e (e.remove path) := by
  unfold remove
  split
  · exact .refl e
  · exact ⟨rfl, rfl, rfl, List.prefix_append _ _⟩

end Engine

end ResumableUpload
