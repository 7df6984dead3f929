import ResumableUpload.Engine.Session
import ResumableUpload.Proofs.Course.Destinations
import ResumableUpload.Proofs.Course.Endings
import ResumableUpload.Proofs.Course.Orderly
import ResumableUpload.Words

/-
  Refusals — a call that is refused leaves no trace

  A call passes several checks before it changes anything. The one change that
  comes before another check is the fragment that a submission queues: the slot
  is asked for afterwards. But an upload that has just taken a fragment is known,
  so that request may be put off and is never refused; the pump of a submission
  fails by a failed write only, or not at all.

  What is held:
    1. `PumpResult.Held` — what a pump can come to that held a slot.
    2. `Reply.Refuses`, `Call.Asks` — the calls of which nothing is left where
       they are refused.
    3. `Record.Queued`, `Engine.Queued` — what there is once a fragment was
       queued, field by field.
    4. `Engine.unnoted` — the engine without its notices.

  What is proved:
    1. `drive_held` — a pump that holds a slot fails by a failed write only.
    2. `pump_cases` — a pump is refused, put off, or comes to what a pump with a
       slot can come to.
    3. `perform_of_refused` — a refused call leaves the session as it was.
    4. `candid_run`, `held_of_ends` — the same of pumps that other calls come
       between.
    5. `refused_calls_change_nothing` — the above for every state there can be,
       and what a fragment is accepted for.
-/

namespace ResumableUpload

/-- The failure of a write. -/
def UploadError.IsWriteFailure : UploadError → Prop
  | writeFailure _ _ _ _ => True
  | _ => False

/-- What a pump can come to that held a slot. -/
def PumpResult.Held : PumpResult → Prop
  | .ok .busy => False
  | .ok .deferred => False
  | .ok _ => True
  | .error err => err.IsWriteFailure

/-- A pump remembers failures of writes only. -/
def Pump.Candid (p : Pump) : Prop := ∀ err, p.failure = some err → err.IsWriteFailure

/-- The call was refused; a failed write is no refusal. -/
def Reply.Refuses : Reply → Prop
  | failed (.upload err) => ¬ err.IsWriteFailure
  | failed _ => True
  | _ => False

/-- The pump of the call was put off: another one writes the queue, or no slot is free. -/
def Reply.PutsOff : Reply → Prop
  | outcome .busy => True
  | outcome .deferred => True
  | _ => False

/-- The calls that register an upload, submit to it, pump it or ask for figures. -/
def Call.Asks : Call → Prop
  | init _ _ _ _ => True
  | initWithin _ _ _ _ _ => True
  | report _ => True
  | submit _ _ => True
  | pump _ => True
  | startSubmit _ _ => True
  | startPump _ => True
  | status _ => True
  | _ => False

/-- The record `s` is `r` once a fragment was queued: the fragment waits last and its bytes are counted,
and no other field differs. -/
structure Record.Queued (f : Fragment) (r s : Record) : Prop where
  waiting : s.queue.toList = r.queue.toList ++ [f]
  queuedBytes : s.queue.queuedBytes = r.queue.queuedBytes + f.len
  received : s.received = r.received + f.len
  others : s = { r with queue := s.queue, received := s.received }

/-- The engine `e'` is `e` once a fragment was queued: the upload at `path` has it, and no other record,
no file, no slot and no event differs. -/
structure Engine.Queued (path : String) (f : Fragment) (e e' : Engine) : Prop where
  record : ∃ r s, e.registry.find? path = some r ∧ e'.registry.find? path = some s ∧ r.Queued f s
  others : ∀ q, q ≠ path → e'.registry.find? q = e.registry.find? q
  nextId : e'.registry.nextId = e.registry.nextId
  disk : e'.disk = e.disk
  feed : e'.feed = e.feed
  fixed : e'.storage = e.storage ∧ e'.slots = e.slots ∧ e'.maxUploadSize = e.maxUploadSize

namespace Engine

variable {e : Engine} {path : String} {flight : Flight}

/-- The engine without its notices. -/
def unnoted (e : Engine) : Engine := { e with journal := [] }

/-! ## Pumps that hold a slot -/

theorem takeNext_held {p : Pump} (hp : p.Candid) {result : PumpResult}
    (h : (e.takeNext p).2 = .ended result) : result.Held := by
  unfold takeNext at h
  split at h
  · cases h
    trivial
  · split at h
    · cases h
    · split at h
      · rename_i failure hfailure
        cases h
        exact hp failure hfailure
      · cases h
        trivial

theorem candid_accountFailure (hcandid : flight.pump.Candid) (cause : OsError) :
    (e.accountFailure flight cause).2.Candid := by
  intro err herr
  cases hfailure : flight.pump.failure with
  | none =>
    simp only [accountFailure, hfailure, Option.getD_none, Option.some.injEq] at herr
    rw [← herr]
    trivial
  | some first =>
    simp only [accountFailure, hfailure, Option.getD_some, Option.some.injEq] at herr
    exact herr ▸ hcandid first hfailure

/-- The end of a delivery adds a failed write at most to what its pump remembers. -/
theorem land_held (hcandid : flight.pump.Candid) (result : Except OsError FileWriter) :
    (∀ outcome, (e.land flight result).2 = .ended outcome → outcome.Held) ∧
      ∀ next, (e.land flight result).2 = .inFlight next → next.pump.Candid := by
  have htake : ∀ (e : Engine) (p : Pump), p.Candid →
      (∀ outcome, (e.takeNext p).2 = .ended outcome → outcome.Held) ∧
        ∀ next, (e.takeNext p).2 = .inFlight next → next.pump.Candid := by
    intro e p hp
    refine ⟨fun outcome h => takeNext_held hp h, fun next h => ?_⟩
    rw [Course.pump_of_takeNext h]
    exact hp
  cases hr : e.registry.owned? flight.pump.path flight.pump.id with
  | none =>
    simp only [land, hr]
    refine ⟨fun outcome h => ?_, fun _ h => by cases h⟩
    cases h
    trivial
  | some r =>
    cases result with
    | error cause =>
      simp only [land, hr]
      exact htake _ _ (candid_accountFailure hcandid cause)
    | ok w =>
      simp only [land, hr]
      exact htake _ _ hcandid

theorem driveFor_held {left : Nat} (hcandid : flight.pump.Candid) :
    (driveFor left e flight).2.Held := by
  induction left generalizing e flight with
  | zero =>
    unfold driveFor
    cases hresume : e.resume flight with
    | mk e' state =>
      cases state with
      | ended result => exact (land_held hcandid _).1 result (congrArg Prod.snd hresume)
      | inFlight next => trivial
  | succ left ih =>
    unfold driveFor
    cases hresume : e.resume flight with
    | mk e' state =>
      cases state with
      | ended result => exact (land_held hcandid _).1 result (congrArg Prod.snd hresume)
      | inFlight next => exact ih ((land_held hcandid _).2 next (congrArg Prod.snd hresume))

/-- A pump that holds a slot comes to figures, finds its upload gone, or tells of a failed write. -/
theorem drive_held (hcandid : flight.pump.Candid) : (e.drive flight).2.Held := driveFor_held hcandid

/-! ## Pumps that ask for a slot -/

theorem begin_held {r : Record} (hbegin : e.begin path =
    (e.modify path fun r => r.withWriting true).takeNext ⟨path, r.id, none, none⟩) :
    (∀ outcome, (e.begin path).2 = .ended outcome → outcome.Held) ∧
      ∀ next, (e.begin path).2 = .inFlight next → next.pump.Candid := by
  rw [hbegin]
  have hcandid : (Pump.mk path r.id none none).Candid := by
    intro err herr
    cases herr
  refine ⟨fun outcome h => takeNext_held hcandid h, fun next h => ?_⟩
  rw [Course.pump_of_takeNext h]
  exact hcandid

theorem candid_of_begin (h : (e.begin path).2 = .inFlight flight) : flight.pump.Candid := by
  obtain ⟨-, hbegin⟩ | ⟨r, -, ⟨-, hbegin⟩ | ⟨-, hbegin⟩ | ⟨-, -, hbegin⟩⟩ := e.begin_cases path
  · rw [hbegin] at h
    cases h
  · rw [hbegin] at h
    cases h
  · rw [hbegin] at h
    cases h
  · exact (begin_held hbegin).2 flight h

/-- A pump is refused where its upload is unknown, put off where nothing can be written, and else comes
to what a pump with a slot can come to. -/
theorem pump_cases (e : Engine) (path : String) :
    (e.registry.find? path = none ∧ e.pump path = (e, .error (.unknownUpload path))) ∨
    (∃ r, e.registry.find? path = some r) ∧
      (e.pump path = (e, .ok .busy) ∨ e.pump path = (e.note (.slotDenied path), .ok .deferred) ∨
        (e.pump path).2.Held) := by
  obtain ⟨hnone, hbegin⟩ | ⟨r, hr, ⟨-, hbegin⟩ | ⟨-, hbegin⟩ | ⟨-, -, hbegin⟩⟩ := e.begin_cases path
  · left
    refine ⟨hnone, ?_⟩
    rw [pump, hbegin]
    rfl
  · right
    refine ⟨⟨r, hr⟩, .inl ?_⟩
    rw [pump, hbegin]
    rfl
  · right
    refine ⟨⟨r, hr⟩, .inr (.inl ?_)⟩
    rw [pump, hbegin]
    rfl
  · right
    refine ⟨⟨r, hr⟩, .inr (.inr ?_)⟩
    obtain ⟨hended, hflight⟩ := begin_held hbegin
    unfold pump
    cases hstate : e.begin path with
    | mk e' state =>
      cases state with
      | ended outcome => exact hended outcome (congrArg Prod.snd hstate)
      | inFlight next => exact drive_held (hflight next (congrArg Prod.snd hstate))

theorem known_begin {q : String} (h : e.registry.find? q ≠ none) :
    (e.begin path).1.registry.find? q ≠ none := by
  have hmodify : ∀ (g : Registry) (change : Record → Record) (keeps : ∀ r, (change r).path = r.path),
      g.find? q ≠ none → (g.modify path change keeps).find? q ≠ none := by
    intro g change keeps hg
    rw [Registry.find?_modify]
    split
    · rwa [ne_eq, Option.map_eq_none_iff]
    · exact hg
  obtain ⟨-, hbegin⟩ | ⟨r, -, ⟨-, hbegin⟩ | ⟨-, hbegin⟩ | ⟨-, -, hbegin⟩⟩ := e.begin_cases path
  · rwa [hbegin]
  · rwa [hbegin]
  · rwa [hbegin]
  · have hmarked := hmodify e.registry (fun r => r.withWriting true) (fun _ => rfl) h
    rw [hbegin]
    unfold takeNext
    split
    · exact hmarked
    · split
      · rename_i queue _
        exact hmodify _ (fun r => r.withQueue queue) (fun _ => rfl) hmarked
      · split <;> exact hmodify _ (fun r => r.withWriting false) (fun _ => rfl) hmarked

/-! ## Fragments -/

theorem accept_iff {f : Fragment} : (∃ e', e.accept path f = .ok e') ↔
    ∃ r, e.registry.find? path = some r ∧ f.position + f.len ≤ r.size := by
  constructor
  · intro ⟨e', he'⟩
    obtain ⟨r, notice, hr, hfits, -⟩ := accept_eq_ok he'
    exact ⟨r, hr, hfits⟩
  · intro ⟨r, hr, hfits⟩
    have hfits : f.stop ≤ r.size := hfits
    simp only [accept, Registry.enqueue, Registry.get, hr, if_pos hfits]
    exact ⟨_, rfl⟩

theorem queued_of_accept {e' : Engine} {f : Fragment} (h : e.accept path f = .ok e') :
    e.Queued path f e' := by
  obtain ⟨r, notice, hr, -, rfl⟩ := accept_eq_ok h
  have hqueued : r.Queued f (r.enqueue f) :=
    ⟨FragmentQueue.toList_push r.queue f, rfl, rfl, rfl⟩
  have hrecord : (e.registry.modify path fun r => r.enqueue f).find? path = some (r.enqueue f) :=
    Registry.find?_modify_self hr (fun r => r.enqueue f) fun _ => rfl
  refine ⟨⟨r, r.enqueue f, hr, hrecord, hqueued⟩, ?_, rfl, rfl, rfl, rfl, rfl, rfl⟩
  intro q hq
  show (e.registry.modify path fun r => r.enqueue f).find? q = _
  rw [Registry.find?_modify, if_neg hq]

theorem Queued.of_unnoted {e' e'' : Engine} {f : Fragment} (h : e.Queued path f e')
    (hsame : e''.unnoted = e'.unnoted) : e.Queued path f e'' := by
  have hunnoted : e.Queued path f e'.unnoted :=
    ⟨h.record, h.others, h.nextId, h.disk, h.feed, h.fixed⟩
  rw [← hsame] at hunnoted
  exact ⟨hunnoted.record, hunnoted.others, hunnoted.nextId, hunnoted.disk, hunnoted.feed,
    hunnoted.fixed⟩

theorem known_of_accept {e' : Engine} {f : Fragment} (h : e.accept path f = .ok e') :
    e'.registry.find? path ≠ none := by
  obtain ⟨r, notice, hr, -, rfl⟩ := accept_eq_ok h
  show (e.registry.modify path fun r => r.enqueue f).find? path ≠ none
  rw [Registry.find?_modify, if_pos rfl, hr]
  exact Option.some_ne_none _

theorem accept_error {f : Fragment} {err : UploadError} (h : e.accept path f = .error err) :
    ¬ err.IsWriteFailure := by
  unfold accept Registry.enqueue Registry.get at h
  cases hr : e.registry.find? path with
  | none =>
    simp only [hr] at h
    cases h
    exact id
  | some r =>
    simp only [hr] at h
    split at h
    · rename_i err' herr
      split at herr
      · cases herr
      · cases herr
        cases h
        exact id
    · cases h

end Engine

namespace Session

variable {s : Session} {call : Call} {path : String} {f : Fragment}

/-- What becomes of a session, with the engine `e`, that is asked for a pump: nothing, where the upload
is unknown or where the pump is put off; else the pump has had a slot. -/
inductive Meets (s : Session) (e : Engine) (path : String) : Session × Reply → Prop where
  | unknown (h : e.registry.find? path = none) :
    Meets s e path (s.withEngine e, .failed (.upload (.unknownUpload path)))
  | putOff {e' : Engine} {o : PumpOutcome} (h : e'.unnoted = e.unnoted) :
    Meets s e path (s.withEngine e', .outcome o)
  | held {x : Session × Reply} (hrefuses : ¬ x.2.Refuses) (hputsOff : ¬ x.2.PutsOff) :
    Meets s e path x

theorem Meets.of_held {e : Engine} {result : PumpResult} {s' : Session} (h : result.Held) :
    s.Meets e path (s', .ofResult result) := by
  cases result with
  | ok o =>
    refine .held id fun hputsOff => ?_
    cases o with
    | busy => exact h
    | deferred => exact h
    | _ => exact hputsOff
  | error err => exact .held (fun hrefuses => hrefuses h) id

theorem meets_answered (s : Session) (e : Engine) (path : String) :
    s.Meets e path (s.answered (e.pump path)) := by
  obtain ⟨hnone, hpump⟩ | ⟨-, hpump | hpump | hheld⟩ := e.pump_cases path
  · rw [hpump]
    exact .unknown hnone
  · rw [hpump]
    exact .putOff rfl
  · rw [hpump]
    exact .putOff rfl
  · exact .of_held hheld

theorem meets_start (s : Session) (e : Engine) (path : String) :
    s.Meets e path (s.start (e.begin path)) := by
  obtain ⟨hnone, hbegin⟩ | ⟨r, -, ⟨-, hbegin⟩ | ⟨-, hbegin⟩ | ⟨-, -, hbegin⟩⟩ := e.begin_cases path
  · rw [hbegin]
    exact .unknown hnone
  · rw [hbegin]
    exact .putOff rfl
  · rw [hbegin]
    exact .putOff rfl
  · obtain ⟨hended, -⟩ := Engine.begin_held hbegin
    cases hstate : e.begin path with
    | mk e' state =>
      cases state with
      | ended outcome => exact .of_held (hended outcome (congrArg Prod.snd hstate))
      | inFlight flight => exact .held id id

/-- A submission is refused with its fragment, or asks for a pump once the fragment is accepted. -/
theorem submit_cases (s : Session) (hcall : call = .submit path f ∨ call = .startSubmit path f) :
    (∃ err, s.engine.accept path f = .error err ∧ s.perform call = (s, .failed (.upload err))) ∨
      ∃ e, s.engine.accept path f = .ok e ∧ s.Meets e path (s.perform call) := by
  cases haccept : s.engine.accept path f with
  | error err =>
    refine .inl ⟨err, rfl, ?_⟩
    have hbegin : s.engine.beginSubmit path f = (s.engine, .ended (.error err)) := by
      simp only [Engine.beginSubmit, haccept]
    rcases hcall with rfl | rfl
    · show s.answered (s.engine.submit path f) = _
      rw [Engine.submit, hbegin]
      rfl
    · show s.start (s.engine.beginSubmit path f) = _
      rw [hbegin]
      rfl
  | ok e =>
    refine .inr ⟨e, rfl, ?_⟩
    have hbegin : s.engine.beginSubmit path f = e.begin path := by
      simp only [Engine.beginSubmit, haccept]
    rcases hcall with rfl | rfl
    · show s.Meets e path (s.answered (s.engine.submit path f))
      rw [Engine.submit, hbegin]
      exact s.meets_answered e path
    · show s.Meets e path (s.start (s.engine.beginSubmit path f))
      rw [hbegin]
      exact s.meets_start e path

theorem refuses_submit_iff (hcall : call = .submit path f ∨ call = .startSubmit path f) :
    (s.perform call).2.Refuses ↔ ¬ ∃ e, s.engine.accept path f = .ok e := by
  obtain ⟨err, haccept, hperform⟩ | ⟨e, haccept, hmeets⟩ := s.submit_cases hcall
  · have hrefuses : (Reply.failed (.upload err)).Refuses := Engine.accept_error haccept
    rw [hperform, haccept]
    exact iff_of_true hrefuses (by simp)
  · refine iff_of_false (fun hrefuses => ?_) fun hnot => hnot ⟨e, haccept⟩
    cases hmeets' : s.perform call with
    | mk s' reply =>
      rw [hmeets'] at hmeets hrefuses
      cases hmeets with
      | unknown hnone => exact Engine.known_of_accept haccept hnone
      | putOff => exact hrefuses
      | held hnot => exact hnot hrefuses

theorem Meets.refused {e : Engine} {x : Session × Reply} (h : s.Meets e path x)
    (hrefuses : x.2.Refuses) : x.1 = s.withEngine e := by
  cases h with
  | unknown => rfl
  | putOff => cases hrefuses
  | held hnot => exact absurd hrefuses hnot

/-- A refused call leaves the session as it was. -/
theorem perform_of_refused (hasks : call.Asks) (h : (s.perform call).2.Refuses) :
    (s.perform call).1 = s := by
  have hregistered : ∀ x, (s.registered x).2.Refuses → (s.registered x).1 = s := by
    intro x hx
    cases x with
    | ok y => cases hx
    | error err => rfl
  have hsubmit : ∀ path f, call = .submit path f ∨ call = .startSubmit path f →
      (s.perform call).1 = s := by
    intro path f hcall
    obtain ⟨err, -, hperform⟩ | ⟨e, haccept, -⟩ := s.submit_cases hcall
    · rw [hperform]
    · exact absurd ⟨e, haccept⟩ ((refuses_submit_iff hcall).mp h)
  cases call with
  | init path size owner clientPath => exact hregistered _ h
  | initWithin quota path size owner clientPath => exact hregistered _ h
  | report quota =>
    simp only [perform]
    split <;> rfl
  | status path =>
    simp only [perform]
    split <;> rfl
  | submit path f => exact hsubmit path f (.inl rfl)
  | startSubmit path f => exact hsubmit path f (.inr rfl)
  | pump path => exact (s.meets_answered s.engine path).refused h
  | startPump path => exact (s.meets_start s.engine path).refused h
  | _ => cases hasks

theorem perform_of_put_off (hcall : call = .submit path f ∨ call = .startSubmit path f)
    (h : (s.perform call).2.PutsOff) :
    ∃ e, s.perform call = (s.withEngine e, (s.perform call).2) ∧ s.engine.Queued path f e := by
  obtain ⟨err, -, hperform⟩ | ⟨e, haccept, hmeets⟩ := s.submit_cases hcall
  · rw [hperform] at h
    cases h
  · cases hperform : s.perform call with
    | mk s' reply =>
      rw [hperform] at h hmeets
      cases hmeets with
      | unknown => cases h
      | putOff hsame => exact ⟨_, rfl, (Engine.queued_of_accept haccept).of_unnoted hsame⟩
      | held _ hnot => exact absurd h hnot

end Session

namespace Course

variable {c : Course} {m : Move} {u : Underway} {path : String}

/-! ## Pumps that other calls come between -/

/-- The pumps under way remember failures of writes only. -/
def Candid (c : Course) : Prop := ∀ u ∈ c.live, u.flight.pump.Candid

theorem candid_begin (h : c.Candid) (path : String) : (c.begin path).Candid := by
  intro u hu
  rcases List.mem_append.mp hu with hu | hu
  · exact Engine.candid_of_begin (mem_standing hu).1
  · exact h u hu

theorem candid_beginMany (h : c.Candid) (paths : List String) : (paths.foldl begin c).Candid := by
  induction paths generalizing c with
  | nil => exact h
  | cons path rest ih => exact ih (candid_begin h path)

theorem candid_land (h : c.Candid) (hu : u.flight.pump.Candid) (result : Except OsError FileWriter) :
    (c.land u result).Candid := by
  intro v hv
  rcases List.mem_append.mp hv with hv | hv
  · exact (Engine.land_held hu result).2 v.flight (mem_standing hv).1
  · exact h v (List.mem_of_mem_eraseP hv)

theorem candid_turn (h : c.Candid) (hu : u ∈ c.live) : (c.turn u).Candid := by
  obtain ⟨next, -, hturn, -⟩ | ⟨result, -, hturn, -⟩ := c.turn_cases u
  · rw [hturn]
    intro v hv
    rcases List.mem_cons.mp hv with rfl | hv
    · exact h u hu
    · exact h v (List.mem_of_mem_eraseP hv)
  · rw [hturn]
    exact candid_land (c := c.withDisk (u.effect c.engine none)) h (h u hu) result

theorem candid_step (h : c.Candid) (m : Move) : (c.step m).Candid := by
  cases c.stirs m with
  | rests hlive _ => rwa [Candid, hlive]
  | begins c₀ hlive _ _ _ hstep =>
    rw [hstep]
    exact candid_begin (c := c₀) (by rwa [Candid, hlive]) _
  | beginsMany _ hstep =>
    rw [hstep]
    exact candid_beginMany h _
  | turns _ hu hstep =>
    rw [hstep]
    exact candid_turn h (List.mem_of_find?_eq_some hu)
  | @faults u fault _ hu hstep =>
    rw [hstep]
    exact candid_land (c := c.withDisk (u.effect c.engine fault)) h
      (h u (List.mem_of_find?_eq_some hu)) (.error fault.cause)
  | drops _ _ hstep =>
    rw [hstep]
    exact fun v hv => h v (List.mem_of_mem_eraseP hv)
  | catches _ _ hstep =>
    rw [hstep]
    exact h

theorem candid_run (e : Engine) (moves : List Move) : ((new e).run moves).Candid := by
  induction moves using List.reverseRecOn with
  | nil =>
    intro u hu
    cases hu
  | append_singleton moves m ih =>
    rw [run_concat]
    exact candid_step ih m

theorem held_of_endsBegin {x : Ending} (hknown : c.engine.registry.find? path ≠ none)
    (hx : x ∈ c.endsBegin path) :
    x.result.Held ∨ x.result = .ok .busy ∨ x.result = .ok .deferred := by
  obtain ⟨-, -, hstate⟩ := mem_ending hx
  obtain ⟨hnone, -⟩ | ⟨r, -, ⟨-, hbegin⟩ | ⟨-, hbegin⟩ | ⟨-, -, hbegin⟩⟩ :=
    c.engine.begin_cases path
  · exact absurd hnone hknown
  · rw [hbegin] at hstate
    exact .inr (.inl (Pumping.ended.inj hstate).symm)
  · rw [hbegin] at hstate
    exact .inr (.inr (Pumping.ended.inj hstate).symm)
  · exact .inl ((Engine.begin_held hbegin).1 x.result hstate)

theorem held_of_endsBegins {paths : List String} {x : Ending}
    (hknown : ∀ q ∈ paths, c.engine.registry.find? q ≠ none) (hx : x ∈ c.endsBegins paths) :
    x.result.Held ∨ x.result = .ok .busy ∨ x.result = .ok .deferred := by
  induction paths generalizing c with
  | nil => cases hx
  | cons path rest ih =>
    rcases List.mem_append.mp hx with hx | hx
    · exact held_of_endsBegin (hknown path List.mem_cons_self) hx
    · refine ih (c := c.begin path) (fun q hq => ?_) hx
      exact Engine.known_begin (hknown q (List.mem_cons_of_mem path hq))

/-- A pump that ends has held a slot, is put off, or is asked for an upload that is unknown. -/
theorem held_of_ends (hcandid : c.Candid) {x : Ending} (hx : x ∈ c.ends m) :
    x.result.Held ∨ (x.result = .ok .busy ∨ x.result = .ok .deferred) ∨
      (x.result = .error (.unknownUpload x.path) ∧ m = .pump x.path ∧
        c.step m = { c with nextPump := c.nextPump + 1 }) := by
  cases m with
  | submit path f =>
    simp only [ends, accept] at hx
    cases haccept : c.engine.accept path f with
    | error err =>
      simp only [haccept] at hx
      cases hx
    | ok e =>
      obtain ⟨r, notice, hr, -⟩ := Engine.accept_eq_ok haccept
      simp only [haccept, hr, Option.elim_some] at hx
      have hknown := Engine.known_of_accept haccept
      exact (held_of_endsBegin (c := c.onward e r.id [.accepted f]) hknown hx).imp_right .inl
  | pump path =>
    have hx : x ∈ c.endsBegin path := hx
    cases hr : c.engine.registry.find? path with
    | none =>
      obtain ⟨-, rfl, hstate⟩ := mem_ending hx
      obtain ⟨-, hbegin⟩ | ⟨r, hsome, -⟩ := c.engine.begin_cases x.path
      · right
        right
        rw [hbegin] at hstate
        refine ⟨(Pumping.ended.inj hstate).symm, rfl, ?_⟩
        show c.begin x.path = _
        simp only [begin, hbegin]
        rfl
      · rw [hr] at hsome
        cases hsome
    | some r => exact (held_of_endsBegin (hr ▸ Option.some_ne_none r) hx).imp_right .inl
  | pumpPending => exact (held_of_endsBegins (fun _ => Registry.known_of_pending) hx).imp_right .inl
  | turn n =>
    left
    simp only [ends] at hx
    cases hn : c.find? n with
    | none =>
      rw [hn] at hx
      cases hx
    | some u =>
      rw [hn, Option.elim_some] at hx
      obtain ⟨next, -, -, hends⟩ | ⟨result, -, -, hends⟩ := c.turn_cases u
      · rw [hends] at hx
        cases hx
      · rw [hends] at hx
        obtain ⟨-, -, hstate⟩ := mem_ending hx
        exact (Engine.land_held (hcandid u (List.mem_of_find?_eq_some hn)) result).1 _ hstate
  | fault n fault =>
    left
    simp only [ends] at hx
    cases hn : c.find? n with
    | none =>
      rw [hn] at hx
      cases hx
    | some u =>
      rw [hn] at hx
      obtain ⟨-, -, hstate⟩ := mem_ending hx
      exact (Engine.land_held (hcandid u (List.mem_of_find?_eq_some hn)) _).1 _ hstate
  | _ => cases hx

end Course

/-- In every state that calls and turns of pumps lead to: a call that registers, submits, pumps or asks
for figures leaves engine and pumps as they were if it is refused; a pump that other calls come between
fails by a failed write, or because its upload was unknown when it was asked for. A fragment is accepted
if and only if its upload is known and it lies within the declared size, and the sum in words tests that
for every offset. It then waits last in the queue of its upload, its bytes are counted as received, and
nothing else is changed before a pump runs; where the pump of the submission is put off, that is all that
happened. -/
theorem refused_calls_change_nothing (disk : Disk) (storage : Storage)
    (writers maxSize capacity : Nat) (moves : List Move) :
    let c := (Course.new (.new disk storage writers maxSize capacity)).run moves
    (∀ (s : Session) (call : Call), s.engine = c.engine → call.Asks → (s.perform call).2.Refuses →
      (s.perform call).1 = s) ∧
    (∀ m x err, x ∈ c.ends m → x.result = .error err → ¬ err.IsWriteFailure →
      err = .unknownUpload x.path ∧ c.step m = { c with nextPump := c.nextPump + 1 }) ∧
    ∀ (s : Session) (call : Call) (path : String) (f : Fragment), s.engine = c.engine →
      call = .submit path f ∨ call = .startSubmit path f →
      (¬ (s.perform call).2.Refuses ↔
        ∃ r, c.engine.registry.find? path = some r ∧ f.position + f.len ≤ r.size) ∧
      (∀ (r : Record) (position len size : UInt64), c.engine.registry.find? path = some r →
        f.position = position.toNat → f.len = len.toNat → r.size = size.toNat →
        (¬ (s.perform call).2.Refuses ↔ Fragment.fitsWords position len size = true)) ∧
      (∀ e, c.engine.accept path f = .ok e → c.engine.Queued path f e) ∧
      ((s.perform call).2.PutsOff → ∃ e, s.perform call = (s.withEngine e, (s.perform call).2) ∧
        c.engine.Queued path f e) := by
  intro c
  refine ⟨fun s call _ hasks hrefuses => Session.perform_of_refused hasks hrefuses, ?_, ?_⟩
  · intro m x err hx herr hnot
    obtain hheld | (hbusy | hdeferred) | ⟨hresult, -, hstep⟩ :=
      Course.held_of_ends (Course.candid_run _ moves) hx
    · rw [herr] at hheld
      exact absurd hheld hnot
    · rw [herr] at hbusy
      cases hbusy
    · rw [herr] at hdeferred
      cases hdeferred
    · rw [herr] at hresult
      exact ⟨Except.error.inj hresult, hstep⟩
  · intro s call path f hs hcall
    have haccepted : ¬ (s.perform call).2.Refuses ↔
        ∃ r, c.engine.registry.find? path = some r ∧ f.position + f.len ≤ r.size := by
      rw [Session.refuses_submit_iff hcall, not_not, hs]
      exact Engine.accept_iff
    refine ⟨haccepted, ?_, fun e => Engine.queued_of_accept, ?_⟩
    · intro r position len size hr hposition hlen hsize
      rw [haccepted, Fragment.fitsWords_iff, hposition, hlen, hr]
      constructor
      · intro ⟨r', hr', hfits⟩
        obtain rfl := Option.some.inj hr'
        rwa [hsize] at hfits
      · intro hfits
        exact ⟨r, rfl, hsize ▸ hfits⟩
    · intro hputsOff
      rw [← hs]
      exact Session.perform_of_put_off hcall hputsOff

/-- An upload of four bytes, of which the first two are on their way. -/
def halfOnItsWay : List Move := [.init "a" 4 0 "", .submit "a" ⟨0, #[1, 2]⟩]

/-- A byte at the last offset of all is refused, and the session stays as it was; the other two bytes
are queued behind the pump under way. -/
theorem last_offset_is_refused :
    let c := (Course.new (.new .empty ⟨"up"⟩ 1 100 16)).run halfOnItsWay
    let s : Session := ⟨c.engine, [(0, ⟨⟨"a", 0, none, none⟩, ⟨0, #[1, 2]⟩⟩)], 1⟩
    (s.perform (.submit "a" ⟨UInt64.size - 1, #[5]⟩)).1 = s ∧
      c.engine.Queued "a" ⟨2, #[3, 4]⟩ (s.perform (.submit "a" ⟨2, #[3, 4]⟩)).1.engine := by
  intro c s
  obtain ⟨hrefused, -, hsubmits⟩ := refused_calls_change_nothing .empty ⟨"up"⟩ 1 100 16 halfOnItsWay
  constructor
  · apply hrefused s (.submit "a" ⟨UInt64.size - 1, #[5]⟩) rfl trivial
    by_contra hnot
    obtain ⟨r, hr, hfits⟩ :=
      (hsubmits s _ "a" ⟨UInt64.size - 1, #[5]⟩ rfl (.inl rfl)).1.mp hnot
    have hsize : 4 = r.size := congrArg (fun x => x.elim 4 Record.size) hr
    rw [← hsize] at hfits
    exact absurd hfits (by decide)
  · obtain ⟨-, -, -, hputOff⟩ := hsubmits s _ "a" ⟨2, #[3, 4]⟩ rfl (.inl rfl)
    obtain ⟨e, hperform, hqueued⟩ := hputOff trivial
    rw [hperform]
    exact hqueued

end ResumableUpload
