import ResumableUpload.Proofs.Course.Session
import ResumableUpload.Proofs.Path.Operations

/-
  Confined — a storage path leads below the base, and nowhere else

  What the operations of the engine ask of the disk, put together to what the
  calls on it ask, in any order and with pumps at their pauses in between. Each
  call names only the locations of the paths it works on, and a pump writes
  through no file but the one it opened at its own location.

  What is held:
    1. `Session.works`, `Call.quota?`, `Session.May` — the paths of a call, its
       quota, and what it may ask.
    2. `Session.met` — a call as the disk meets it.
    3. `Session.Holds` — the files that the pumps have open.
    4. `Session.Confined` — a run of calls that ask only what they may.

  What is proved:
    1. `asks_perform` — a call asks only what it may; `confined_of_holds` — and
       so does a run.
    2. `paths_lead_below_the_base` — where storage paths lead, and that all that
       is done with one stays there.
-/

namespace ResumableUpload

open Disk (Request Held Asks)

/-- The quota that a call looks at. -/
def Call.quota? : Call → Option Quota
  | .initWithin quota _ _ _ _ => some quota
  | .report quota => some quota
  | _ => none

namespace Session

variable {t : Session} {call : Call} {held held' : Held}

/-- The paths that a call works on. -/
def works (t : Session) : Call → List String
  | .init path _ _ _ => [path]
  | .initWithin _ path _ _ _ => [path]
  | .submit path _ => [path]
  | .pump path => [path]
  | .startSubmit path _ => [path]
  | .startPump path => [path]
  | .resume pump => ((t.find? pump).map fun entry => entry.2.pump.path).toList
  | .finish pump => ((t.find? pump).map fun entry => entry.2.pump.path).toList
  | .drop pump => ((t.find? pump).map fun entry => entry.2.pump.path).toList
  | .pumpPending => t.engine.registry.pendingPaths
  | .status path => [path]
  | .remove path => [path]
  | .discard path => [path]
  | .isUploading path => [path]
  | .report _ => []
  | .subscribe => []
  | .readEvents _ => []

/-- What a call may ask: for the locations of its paths, and for the figure of its quota. -/
def May (t : Session) (call : Call) (r : Request) : Prop :=
  Engine.NamesAny t.engine.storage (t.works call) r ∨ ∃ quota ∈ call.quota?, r = .figure quota

/-- The session over another disk. -/
def upon (t : Session) (d : Disk) : Session := t.withEngine (t.engine.upon d)

@[simp] theorem engine_upon (t : Session) (d : Disk) : (t.upon d).engine = t.engine.upon d := rfl

@[simp] theorem find?_upon (t : Session) (d : Disk) (pump : PumpRef) :
    (t.upon d).find? pump = t.find? pump := rfl

/-- A call as the disk meets it. -/
def met (call : Call) (t : Session) (d : Disk) : Disk × (Session × Reply) :=
  let x := (t.upon d).perform call
  (x.1.engine.disk, (x.1.upon .empty, x.2))

/-- The files that the pumps have open were opened at the locations of their paths. -/
def Holds (t : Session) (held : Held) : Prop :=
  ∀ entry ∈ t.flights, entry.2.Holds t.engine.storage held

/-- Each call of a run asks only what it may, and writes through no file but one that was opened in
the run at the location of its path. -/
def Confined : List Call → Session → Held → Prop
  | [], _, _ => True
  | call :: rest, t, held =>
    Asks (t.May call) (fun held' x => Confined rest x.1 held') held (met call t)

theorem Holds.of (h : t.Holds held) {t' : Session} (hsub : held ⊆ held')
    (hstorage : t'.engine.storage = t.engine.storage)
    (hflights : ∀ entry ∈ t'.flights,
      entry ∈ t.flights ∨ entry.2.Holds t.engine.storage held') : t'.Holds held' := by
  intro entry hentry
  rw [hstorage]
  rcases hflights entry hentry with hold | hnew
  · exact (h entry hold).mono hsub
  · exact hnew

theorem Holds.mono (h : t.Holds held) (hsub : held ⊆ held') : t.Holds held' :=
  h.of hsub rfl fun _ hentry => .inl hentry

theorem Holds.withEngine (h : t.Holds held) (hsub : held ⊆ held') {e : Engine}
    (hstorage : e.storage = t.engine.storage) : (t.withEngine e).Holds held' :=
  h.of hsub hstorage fun _ hentry => .inl hentry

theorem Holds.forget (h : t.Holds held) (n : Nat) : (t.forget n).Holds held :=
  h.of (List.Subset.refl _) rfl fun _ hentry => .inl (List.mem_filter.mp hentry).1

theorem Holds.replace (h : t.Holds held) {n : Nat} {flight : Flight}
    (hflight : flight.Holds t.engine.storage held) : (t.replace n flight).Holds held := by
  refine h.of (List.Subset.refl _) rfl fun entry hentry => ?_
  obtain ⟨old, hold, rfl⟩ := List.mem_map.mp hentry
  split
  · exact .inr hflight
  · exact .inl hold

theorem Holds.start (h : t.Holds held) {path : String} {x : Engine × Pumping}
    (hstorage : x.1.storage = t.engine.storage)
    (hstate : x.2.Holds t.engine.storage path held) : (t.start x).1.Holds held := by
  obtain ⟨e, result | flight⟩ := x
  · exact h.withEngine (List.Subset.refl _) hstorage
  · refine h.of (List.Subset.refl _) hstorage fun entry hentry => ?_
    rcases List.mem_append.mp hentry with hold | hnew
    · exact .inl hold
    · obtain rfl := List.mem_singleton.mp hnew
      exact .inr hstate.2

theorem asks_of_aloof (h : t.Holds held) (x : Session × Reply)
    (hmet : ∀ d, met call t d = (d, x)) (hflights : x.1.flights ⊆ t.flights)
    (hstorage : x.1.engine.storage = t.engine.storage) :
    Asks (t.May call) (fun held x => x.1.Holds held) held (met call t) := by
  refine Asks.congr (.answer (a := x) ?_) hmet
  exact h.of (List.Subset.refl _) hstorage fun _ hentry => .inl (hflights hentry)

theorem asks_of_unchanged (h : t.Holds held) (reply : Reply)
    (hperform : ∀ d, (t.upon d).perform call = (t.upon d, reply)) :
    Asks (t.May call) (fun held x => x.1.Holds held) held (met call t) := by
  apply asks_of_aloof h (t.upon .empty, reply) _ (List.Subset.refl _) rfl
  intro d
  rw [met, hperform d]
  rfl

theorem asks_of_engine {α : Type} {op : Engine → Engine × α} {may : Request → Prop}
    {ends : Held → α → Prop}
    (h : Asks may (Engine.Ends t.engine.storage ends) held (Engine.met op t.engine))
    (hmay : ∀ r, may r → Engine.NamesAny t.engine.storage (t.works call) r)
    (finish : Engine × α → Session × Reply)
    (hfinish : ∀ held' x, held ⊆ held' → x.1.storage = t.engine.storage → ends held' x.2 →
      (finish x).1.Holds held')
    (hmet : ∀ d, met call t d =
      ((Engine.met op t.engine d).1, finish (Engine.met op t.engine d).2)) :
    Asks (t.May call) (fun held x => x.1.Holds held) held (met call t) := by
  refine Asks.congr ?_ hmet
  refine (h.grown.mono (fun r hr => .inl (hmay r hr)) fun _ _ hend => hend).bind
    (k := fun x d => (d, finish x)) fun held' x hend => ?_
  exact .answer (hfinish held' x hend.1 hend.2.1 hend.2.2)

/-! ## Registrations and figures -/

theorem holds_registered (h : t.Holds held) {r : Except Error (Engine × Ticket)}
    (hr : ∀ e ticket, r = .ok (e, ticket) → e.storage = t.engine.storage) :
    ((t.registered r).1.upon .empty).Holds held := by
  cases r with
  | error err => exact h.withEngine (List.Subset.refl _) rfl
  | ok x => exact h.withEngine (List.Subset.refl _) (hr x.1 x.2 rfl)

theorem registered_upon (t : Session) (d : Disk) (r : Except Error (Engine × Ticket)) :
    (((t.upon d).registered (r.map fun x => (x.1.upon d, x.2))).1.engine.disk,
      ((t.upon d).registered (r.map fun x => (x.1.upon d, x.2))).1.upon .empty,
      ((t.upon d).registered (r.map fun x => (x.1.upon d, x.2))).2) =
    (d, (t.registered r).1.upon .empty, (t.registered r).2) := by
  cases r <;> rfl

variable (path clientPath : String) (size : Nat) (owner : Int) (quota : Quota)

theorem asks_init (h : t.Holds held) :
    Asks (t.May (.init path size owner clientPath)) (fun held x => x.1.Holds held) held
      (met (.init path size owner clientPath) t) := by
  let r := (t.engine.init path size owner clientPath).mapError Error.upload
  have hr : ∀ e ticket, r = .ok (e, ticket) → e.storage = t.engine.storage := by
    intro e ticket hok
    cases hinit : t.engine.init path size owner clientPath with
    | error err => simp [r, hinit, Except.mapError] at hok
    | ok x =>
      obtain rfl : x = (e, ticket) := by simpa [r, hinit, Except.mapError] using hok
      exact (Engine.later_init hinit).storage
  refine Asks.congr (.answer (a := ((t.registered r).1.upon .empty, (t.registered r).2))
    (holds_registered h hr)) fun d => ?_
  rw [← registered_upon t d r]
  simp only [met, perform, engine_upon, Engine.init_upon, r]
  cases t.engine.init path size owner clientPath <;> rfl

theorem asks_initWithin (h : t.Holds held) :
    Asks (t.May (.initWithin quota path size owner clientPath)) (fun held x => x.1.Holds held) held
      (met (.initWithin quota path size owner clientPath) t) := by
  let result (used : Except Error Nat) : Except Error (Engine × Ticket) :=
    t.engine.initWithin (.figures used quota.dedicatedBytes) path size owner clientPath
  refine Asks.congr (.ask (.figure quota) (k := fun (used : Except Error Nat) d =>
    (d, (t.registered (result used)).1.upon .empty, (t.registered (result used)).2))
    (.inr ⟨quota, rfl, rfl⟩) trivial fun used => .answer ?_) fun d => ?_
  · exact holds_registered h fun e ticket hr => (Engine.later_initWithin hr).storage
  · simp only [met, perform, engine_upon, Engine.initWithin_upon]
    exact registered_upon t d (result (quota.usedBytes d))

theorem asks_report (h : t.Holds held) :
    Asks (t.May (.report quota)) (fun held x => x.1.Holds held) held (met (.report quota) t) := by
  let reply (used : Nat) : Reply :=
    .report ⟨used, t.engine.registry.reservedBytes, quota.dedicatedBytes⟩
  let result (used : Except Error Nat) : Session × Reply :=
    (t.upon .empty, Disk.either .failed reply used)
  refine Asks.congr (.ask (.figure quota) (k := fun (used : Except Error Nat) d => (d, result used))
    (.inr ⟨quota, rfl, rfl⟩) trivial fun used => .answer ?_) fun d => ?_
  · exact h.withEngine (List.Subset.refl _) rfl
  · simp only [met, perform, engine_upon, Engine.quotaReport, QuotaReport.collect, Engine.disk_upon,
      Request.carryOut]
    cases quota.usedBytes d <;> rfl

/-! ## Pumps at their pauses -/

theorem start_upon (t : Session) (d : Disk) (y : Engine × Pumping) :
    (((t.upon d).start y).1.engine.disk, ((t.upon d).start y).1.upon .empty, ((t.upon d).start y).2) =
      (y.1.disk, t.start (y.1.upon .empty, y.2)) := by
  obtain ⟨e, result | flight⟩ := y <;> rfl

theorem namesAny_of_find? {pump : PumpRef} {n : Nat} {flight : Flight}
    (hfind : t.find? pump = some (n, flight)) (r : Request)
    (hr : t.engine.storage.Names flight.pump.path r) :
    Engine.NamesAny t.engine.storage
      ((t.find? pump).map fun entry => entry.2.pump.path).toList r :=
  ⟨flight.pump.path, by simp [hfind], hr⟩

theorem asks_resume (h : t.Holds held) (pump : PumpRef) :
    Asks (t.May (.resume pump)) (fun held x => x.1.Holds held) held (met (.resume pump) t) := by
  cases hfind : t.find? pump with
  | none =>
    apply asks_of_unchanged h .noSuchPump
    intro d
    simp only [perform, find?_upon, hfind]
  | some entry =>
    obtain ⟨n, flight⟩ := entry
    refine asks_of_engine (Engine.asks_resume (h _ (mem_of_find? hfind))) (namesAny_of_find? hfind)
      (fun x => x.2.either (fun result => ((t.forget n).withEngine x.1, .ofResult result))
        fun next => ((t.replace n next).withEngine x.1, .suspended)) ?_ fun d => ?_
    · rintro held' ⟨e, result | next⟩ hsub hstorage hstate
      · exact ((h.mono hsub).forget n).withEngine (List.Subset.refl _) hstorage
      · exact ((h.mono hsub).replace hstate.2).withEngine (List.Subset.refl _) hstorage
    · simp only [met, perform, find?_upon, hfind, engine_upon, Engine.met]
      rcases (t.engine.upon d).resume flight with ⟨e, result | next⟩ <;> rfl

theorem asks_finish (h : t.Holds held) (pump : PumpRef) :
    Asks (t.May (.finish pump)) (fun held x => x.1.Holds held) held (met (.finish pump) t) := by
  cases hfind : t.find? pump with
  | none =>
    apply asks_of_unchanged h .noSuchPump
    intro d
    simp only [perform, find?_upon, hfind]
  | some entry =>
    obtain ⟨n, flight⟩ := entry
    refine asks_of_engine (Engine.asks_drive (h _ (mem_of_find? hfind))) (namesAny_of_find? hfind)
      (fun x => ((t.forget n).withEngine x.1, .ofResult x.2))
      (fun _ _ hsub hstorage _ => ((h.mono hsub).forget n).withEngine (List.Subset.refl _) hstorage)
      fun d => ?_
    simp only [met, perform, find?_upon, hfind]
    rfl

theorem asks_drop (h : t.Holds held) (pump : PumpRef) :
    Asks (t.May (.drop pump)) (fun held x => x.1.Holds held) held (met (.drop pump) t) := by
  cases hfind : t.find? pump with
  | none =>
    apply asks_of_unchanged h (.flag false)
    intro d
    simp only [perform, find?_upon, hfind]
  | some entry =>
    obtain ⟨n, flight⟩ := entry
    refine asks_of_aloof h
      (((t.forget n).withEngine (t.engine.abandon flight)).upon .empty, .flag true) (fun d => ?_)
      List.filter_sublist.subset (t.engine.later_abandon flight).storage
    simp only [met, perform, find?_upon, hfind, engine_upon, Engine.abandon_upon]
    rfl

/-! ## Every call -/

/-- A call asks only what it may, and leaves no pump with another file open. -/
theorem asks_perform (h : t.Holds held) (call : Call) :
    Asks (t.May call) (fun held x => x.1.Holds held) held (met call t) := by
  have hone {path : String} (r : Request) (hr : t.engine.storage.Names path r) :
      Engine.NamesAny t.engine.storage [path] r := ⟨path, List.mem_singleton_self path, hr⟩
  cases call with
  | init path size owner clientPath => exact asks_init path clientPath size owner h
  | initWithin quota path size owner clientPath =>
    exact asks_initWithin path clientPath size owner quota h
  | report quota => exact asks_report quota h
  | submit path f =>
    exact asks_of_engine (Engine.asks_submit t.engine path f held) hone
      (fun x => (t.withEngine x.1, .ofResult x.2))
      (fun _ _ hsub hstorage _ => h.withEngine hsub hstorage) fun d => rfl
  | pump path =>
    exact asks_of_engine (Engine.asks_pump t.engine path held) hone
      (fun x => (t.withEngine x.1, .ofResult x.2))
      (fun _ _ hsub hstorage _ => h.withEngine hsub hstorage) fun d => rfl
  | startSubmit path f =>
    exact asks_of_engine (Engine.asks_beginSubmit path f) (fun r hr => hr) t.start
      (fun _ x hsub hstorage hstate => (h.mono hsub).start hstorage hstate) fun d =>
        start_upon t d ((t.engine.upon d).beginSubmit path f)
  | startPump path =>
    exact asks_of_engine (Engine.asks_begin path) (fun r hr => hr) t.start
      (fun _ x hsub hstorage hstate => (h.mono hsub).start hstorage hstate) fun d =>
        start_upon t d ((t.engine.upon d).begin path)
  | resume pump => exact asks_resume h pump
  | finish pump => exact asks_finish h pump
  | drop pump => exact asks_drop h pump
  | pumpPending =>
    exact asks_of_engine (Engine.asks_pumpPending t.engine held) (fun r hr => hr)
      (fun x => (t.withEngine x.1, .pumped x.2))
      (fun _ _ hsub hstorage _ => h.withEngine hsub hstorage) fun d => rfl
  | status path =>
    cases hstatus : t.engine.registry.status path with
    | ok status =>
      apply asks_of_unchanged h (.status status)
      intro d
      simp only [perform, engine_upon, Engine.registry_upon, hstatus]
    | error err =>
      apply asks_of_unchanged h (.failed (.upload err))
      intro d
      simp only [perform, engine_upon, Engine.registry_upon, hstatus]
  | remove path =>
    refine asks_of_aloof h ((t.withEngine (t.engine.remove path)).upon .empty, .done) (fun d => ?_)
      (List.Subset.refl _) (t.engine.later_remove path).storage
    simp only [met, perform, engine_upon, Engine.remove_upon]
    rfl
  | discard path =>
    refine asks_of_engine (Engine.asks_discard t.engine path held) hone
      (fun x => (t.withEngine x.1, Disk.either .failed .flag x.2))
      (fun _ _ hsub hstorage _ => h.withEngine hsub hstorage) fun d => ?_
    · simp only [met, perform, engine_upon, Engine.met]
      rcases (t.engine.upon d).discard path with ⟨e, err | deleted⟩ <;> rfl
  | isUploading path =>
    exact asks_of_unchanged h (.flag (t.engine.registry.contains path)) fun d => rfl
  | subscribe =>
    exact asks_of_aloof h (met .subscribe t .empty).2 (fun d => rfl) (List.Subset.refl _) rfl
  | readEvents subscriber =>
    cases hread : t.engine.feed.read subscriber with
    | none =>
      apply asks_of_unchanged h .noSuchSubscriber
      intro d
      have hread' : (t.upon d).engine.feed.read subscriber = none := hread
      simp only [perform, hread']
    | some x =>
      obtain ⟨feed, batch⟩ := x
      refine asks_of_aloof h ((t.withEngine { t.engine with feed }).upon .empty, .events batch)
        (fun d => ?_) (List.Subset.refl _) rfl
      have hread' : (t.upon d).engine.feed.read subscriber = some (feed, batch) := hread
      simp only [met, perform, hread']
      rfl

/-- Every call of a run asks for the paths it names only. -/
theorem confined_of_holds (h : t.Holds held) (calls : List Call) : Confined calls t held := by
  induction calls generalizing t held with
  | nil => trivial
  | cons call rest ih => exact (asks_perform h call).mono (fun _ hr => hr) fun _ _ hx => ih hx

end Session

/-- For every base: a text that is empty, begins with a slash or has a step up among its pieces is no
storage path, and nothing is asked of the disk for it. Any other that is accepted leads to the base
with names behind it, one at least, and these are the pieces of the text that lead on; with one slash
between them they are accepted for the same location, and two texts have one location just if their
names agree. Whatever a storage is asked to do with a path, and whatever is called on an engine, names
to the disk only the location of the path, and directories on the way to it as they are made; beside
that, a call within a quota has the quota look for its figure. -/
theorem paths_lead_below_the_base (s : Storage) :
    (∀ path, "/".intercalate (Path.pieces path) = path ∧
      ∀ x ∈ Path.pieces path, '/' ∉ x.toList) ∧
    (∀ path, (path = "" ∨ path.toList.head? = some '/' ∨ ".." ∈ Path.pieces path) →
      (∃ why, s.location path = .error (.validation why)) ∧ ∀ r, ¬ s.Names path r) ∧
    (∀ path p, s.location path = .ok p →
      Path.kept path ≠ [] ∧ (∀ x ∈ Path.kept path, IsName x ∧ '/' ∉ x.toList) ∧
      p.text = s.base ++ (if (Path.pieces s.base).getLast? = some "" then "" else "/") ++
        "/".intercalate (Path.kept path) ∧
      Path.parts p.text = Path.parts s.base ++ (Path.kept path).map .name ∧
      s.location ("/".intercalate (Path.kept path)) = .ok p) ∧
    (∀ path path' p q, s.location path = .ok p → s.location path' = .ok q →
      (p.text = q.text ↔ Path.kept path = Path.kept path') ∧
      (Path.parts p.text = Path.parts q.text ↔ Path.kept path = Path.kept path')) ∧
    (∀ path held,
      Asks (s.Names path) (fun held result => ∀ file, result = .ok file → s.Holds path held file) held
        (fun d => s.openForWrite d path) ∧
      Asks (s.Names path) (fun _ _ => True) held (fun d => s.delete d path) ∧
      Asks (s.Names path) (fun _ _ => True) held (fun d => (d, s.hasFile d path)) ∧
      Asks (s.Names path) (fun _ _ => True) held (fun d => (d, s.fileSize d path))) ∧
    ∀ (e : Engine) (calls : List Call), Session.Confined calls (.new e) [] := by
  refine ⟨fun path => ⟨Path.intercalate_pieces path, fun x hx => Path.pieces_no_slash hx⟩,
    fun path hrefused => ?_, fun path p hp => ?_, fun path path' p q hp hq => ?_, fun path held => ?_,
    fun e calls => ?_⟩
  · obtain ⟨why, hwhy⟩ := Storage.resolve_of_refused hrefused
    refine ⟨⟨why, ?_⟩, Storage.not_names_of_refused hwhy⟩
    rw [Storage.location, hwhy]
    rfl
  · obtain ⟨hne, hnames⟩ := Storage.names_of_location hp
    exact ⟨hne, hnames, Storage.text_location hp, Storage.parts_location hp,
      Storage.location_intercalate hp⟩
  · exact ⟨Storage.text_location_inj hp hq, Storage.parts_location_inj hp hq⟩
  · exact ⟨Storage.asks_openForWrite s path held, Storage.asks_delete s path held,
      Storage.asks_hasFile s path held, Storage.asks_fileSize s path held⟩
  · have hnone : (Session.new e).Holds [] := fun entry hentry => absurd hentry List.not_mem_nil
    exact Session.confined_of_holds hnone calls

/-- A path with pieces that lead nowhere, below a base that ends in a slash. -/
theorem beach_lies_below_up :
    (Storage.mk "up/").location "photos//./beach.jpg" = .ok ⟨["up", "photos", "beach.jpg"]⟩ ∧
      (OsPath.mk ["up", "photos", "beach.jpg"]).text = "up/photos/beach.jpg" ∧
      (Storage.mk "up/").location "photos/beach.jpg" = .ok ⟨["up", "photos", "beach.jpg"]⟩ := by
  have hlocation : (Storage.mk "up/").location "photos//./beach.jpg" =
      .ok ⟨["up", "photos", "beach.jpg"]⟩ := by rfl
  obtain ⟨-, -, haccepted, -⟩ := paths_lead_below_the_base ⟨"up/"⟩
  obtain ⟨-, -, htext, -, hagain⟩ := haccepted _ _ hlocation
  exact ⟨hlocation, htext, hagain⟩

end ResumableUpload
