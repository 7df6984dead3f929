import ResumableUpload.Engine.Session
import ResumableUpload.Proofs.Course.Recreated
import ResumableUpload.Proofs.Engine.Afresh
import ResumableUpload.Proofs.Path.Asking

/-
  Operations — what the operations of the engine ask of the disk

  The engine leaves the disk to its storage. Registering, beginning a pump,
  accounting a write and giving up do not look at it; a pump that goes on
  carries out a delivery to the location of its path, through a file that it
  opened there; and pumps side by side do so each for its own path.

  What is held:
    1. `Engine.met` — an operation of the engine as the disk meets it.
    2. `Flight.Holds`, `Pumping.Holds`, `Lane.Holds` — the files that pumps have
       open were opened at the locations of their paths.
    3. `Engine.Aloof` — an operation that leaves the disk alone.
    4. `Engine.NamesAny` — the questions that name the location of one of some
       paths.

  What is proved:
    1. `init_upon`, `abandon_upon`, `remove_upon`, `aloof_begin`, `aloof_land` —
       what leaves the disk alone; `initWithin_upon` — what looks at it for the
       figure of a quota only.
    2. `asks_resume`, `asks_drive`, `asks_pump`, `asks_submit` — one pump.
    3. `asks_turn`, `asks_round`, `asks_pumpPending` — pumps side by side.
    4. `asks_discard` — a removal with the file.
-/

namespace ResumableUpload

open Disk (Request Held Asks)

/-! ## Pumps -/

/-- The file that a pump has open was opened at the location of its path. -/
def Flight.Holds (s : Storage) (held : Held) (flight : Flight) : Prop :=
  ∀ w, flight.pump.writer = some w → s.Holds flight.pump.path held w.file

/-- A pump for a path, with no other file open. -/
def Pumping.Holds (s : Storage) (path : String) (held : Held) : Pumping → Prop
  | .ended _ => True
  | .inFlight flight => flight.pump.path = path ∧ flight.Holds s held

/-- So for a pump among others. -/
def Lane.Holds (s : Storage) (path : String) (held : Held) : Lane → Prop
  | .ended _ => True
  | .underway flight delivery =>
    flight.pump.path = path ∧ ∀ w, delivery.writer? = some w → s.Holds path held w.file

/-- What is made of where a pump stands. -/
def Pumping.either {α : Type} (ended : PumpResult → α) (inFlight : Flight → α) : Pumping → α
  | .ended result => ended result
  | .inFlight flight => inFlight flight

section Holding

variable {s : Storage} {path : String} {held held' : Held}

theorem Flight.Holds.mono {flight : Flight} (h : flight.Holds s held) (hsub : held ⊆ held') :
    flight.Holds s held' := fun w hw => (h w hw).mono hsub

theorem Lane.Holds.mono {lane : Lane} (h : lane.Holds s path held) (hsub : held ⊆ held') :
    lane.Holds s path held' := by
  cases lane with
  | ended result => trivial
  | underway flight delivery => exact ⟨h.1, fun w hw => (h.2 w hw).mono hsub⟩

theorem Flight.Holds.start {flight : Flight} (h : flight.Holds s held) :
    ∀ w, (Delivery.start flight.pump.writer).writer? = some w →
      s.Holds flight.pump.path held w.file := by
  intro w hw
  apply h
  cases hwriter : flight.pump.writer with
  | none =>
    rw [hwriter] at hw
    cases hw
  | some v =>
    rw [hwriter] at hw
    exact hw

theorem Lane.holds_of {state : Pumping} (h : state.Holds s path held) :
    (Lane.of state).Holds s path held := by
  cases state with
  | ended result => trivial
  | inFlight flight =>
    obtain ⟨rfl, hflight⟩ := h
    exact ⟨rfl, hflight.start⟩

end Holding

namespace Engine

variable {α : Type} {may : Request → Prop} {e : Engine} {d : Disk} {path : String} {held : Held}

/-- The engine over another disk. -/
def upon (e : Engine) (d : Disk) : Engine := { e with disk := d }

@[simp] theorem registry_upon (e : Engine) (d : Disk) : (e.upon d).registry = e.registry := rfl

@[simp] theorem storage_upon (e : Engine) (d : Disk) : (e.upon d).storage = e.storage := rfl

@[simp] theorem disk_upon (e : Engine) (d : Disk) : (e.upon d).disk = d := rfl

/-- An operation as the disk meets it. -/
def met (op : Engine → Engine × α) (e : Engine) (d : Disk) : Disk × (Engine × α) :=
  let x := op (e.upon d)
  (x.1.disk, (x.1.upon .empty, x.2))

/-- What an operation comes to: the storage stays. -/
def Ends (s : Storage) (ends : Held → α → Prop) (held : Held) (x : Engine × α) : Prop :=
  x.1.storage = s ∧ ends held x.2

/-- The operation leaves the disk alone, and what it comes to does not hang on it. -/
def Aloof (op : Engine → Engine × α) : Prop :=
  ∀ e d, op (e.upon d) = ((op e).1.upon d, (op e).2)

theorem Aloof.asks {op : Engine → Engine × α} (h : Aloof op) {ends : Held → α → Prop}
    (hstorage : (op e).1.storage = e.storage) (hends : ends held (op e).2) :
    Asks may (Ends e.storage ends) held (met op e) := by
  refine Asks.congr (.answer (a := ((op e).1.upon .empty, (op e).2)) ⟨hstorage, hends⟩) fun d => ?_
  rw [met, h e d]
  rfl

/-! ## What leaves the disk alone -/

section Upon

variable (e : Engine) (d : Disk) (path clientPath : String) (size : Nat) (owner : Int)

theorem announceIfEmpty_upon (t : Ticket) :
    (e.upon d).announceIfEmpty t = (e.announceIfEmpty t).upon d := by
  unfold announceIfEmpty
  split <;> rfl

theorem abandon_upon (flight : Flight) : (e.upon d).abandon flight = (e.abandon flight).upon d := by
  unfold abandon
  rw [registry_upon]
  cases e.registry.owned? flight.pump.path flight.pump.id <;> rfl

theorem remove_upon : (e.upon d).remove path = (e.remove path).upon d := by
  unfold remove
  rw [registry_upon]
  cases e.registry.find? path <;> rfl

/-- A registration does not look at the disk. -/
theorem init_upon : (e.upon d).init path size owner clientPath =
    (e.init path size owner clientPath).map fun x => (x.1.upon d, x.2) := by
  have hcheck : (e.upon d).checkNew path size = e.checkNew path size := rfl
  simp only [init, hcheck, registry_upon, bind, Except.bind]
  cases e.checkNew path size with
  | error err => rfl
  | ok u =>
    dsimp only
    cases e.registry.register path size owner clientPath with
    | error err => rfl
    | ok x =>
      dsimp only [Except.map]
      rw [← announceIfEmpty_upon]
      rfl

/-- One within a quota looks at it for the figure of the quota. -/
theorem initWithin_upon (quota : Quota) : (e.upon d).initWithin quota path size owner clientPath =
    (e.initWithin (.figures (quota.usedBytes d) quota.dedicatedBytes) path size owner clientPath).map
      fun x => (x.1.upon d, x.2) := by
  have hcheck : (e.upon d).checkNew path size = e.checkNew path size := rfl
  have hused : (Quota.figures (quota.usedBytes d) quota.dedicatedBytes).usedBytes e.disk =
      quota.usedBytes d := rfl
  have hspace : (Quota.figures (quota.usedBytes d) quota.dedicatedBytes).dedicatedBytes =
      quota.dedicatedBytes := rfl
  simp only [initWithin, hcheck, registry_upon, disk_upon, hused, hspace, bind, Except.bind]
  cases (e.checkNew path size).mapError Error.upload with
  | error err => rfl
  | ok u =>
    dsimp only
    cases quota.usedBytes d with
    | error err => rfl
    | ok used =>
      dsimp only
      cases ((QuotaReport.mk used e.registry.reservedBytes quota.dedicatedBytes).check size).mapError
          Error.upload with
      | error err => rfl
      | ok v =>
        dsimp only
        cases (e.registry.register path size owner clientPath).mapError Error.upload with
        | error err => rfl
        | ok x =>
          dsimp only [Except.map]
          rw [← announceIfEmpty_upon]
          rfl

end Upon

theorem aloof_takeNext (p : Pump) : Aloof fun e => e.takeNext p := by
  intro e d
  show (e.upon d).takeNext p = ((e.takeNext p).1.upon d, (e.takeNext p).2)
  unfold takeNext
  rw [registry_upon]
  cases e.registry.owned? p.path p.id with
  | none => rfl
  | some r =>
    dsimp only
    cases hpop : r.queue.pop? with
    | some next => rfl
    | none =>
      dsimp only
      cases p.failure <;> rfl

theorem aloof_begin (path : String) : Aloof fun e => e.begin path := by
  intro e d
  show (e.upon d).begin path = ((e.begin path).1.upon d, (e.begin path).2)
  have hacquire : (e.upon d).slots.acquire (e.upon d).registry path =
      e.slots.acquire e.registry path := rfl
  unfold begin
  rw [hacquire]
  rcases e.slots.acquire e.registry path with err | ⟨registry, _ | _ | _⟩
  · rfl
  · cases hr : registry.get path with
    | error err => simp only [hr]
    | ok r =>
      simp only [hr]
      exact aloof_takeNext ⟨path, r.id, none, none⟩ { e with registry } d
  · rfl
  · rfl

theorem aloof_land (flight : Flight) (result : Except OsError FileWriter) :
    Aloof fun e => e.land flight result := by
  intro e d
  show (e.upon d).land flight result = ((e.land flight result).1.upon d, (e.land flight result).2)
  unfold land
  rw [registry_upon]
  cases e.registry.owned? flight.pump.path flight.pump.id with
  | none => rfl
  | some r =>
    cases result with
    | error cause => exact aloof_takeNext _ (e.accountFailure flight cause).1 d
    | ok w =>
      have haccount : (e.upon d).accountWrite flight r w =
          ((e.accountWrite flight r w).1.upon d, (e.accountWrite flight r w).2) := by
        unfold accountWrite
        dsimp only
        split <;> rfl
      simp only [haccount]
      exact aloof_takeNext _ (e.accountWrite flight r w).1 d

/-! ## One pump -/

theorem asks_begin (path : String) :
    Asks may (Ends e.storage fun held state => state.Holds e.storage path held) held
      (met (fun e => e.begin path) e) := by
  apply (aloof_begin path).asks (e.later_begin path).storage
  cases hstate : (e.begin path).2 with
  | ended result => trivial
  | inFlight flight =>
    refine ⟨(Course.path_of_begin hstate).1, fun w hw => ?_⟩
    rw [writer_of_begin hstate] at hw
    cases hw

/-- A pump that goes on keeps its path, and has a file open if its delivery left it one. -/
theorem holds_land {s : Storage} {flight : Flight} {result : Except OsError FileWriter}
    (hresult : ∀ w, result = .ok w → s.Holds flight.pump.path held w.file) :
    ((e.land flight result).2).Holds s flight.pump.path held := by
  cases hr : e.registry.owned? flight.pump.path flight.pump.id with
  | none =>
    rw [land, hr]
    trivial
  | some r =>
    have hland : e.land flight result =
        (e.account flight r result).1.takeNext (e.account flight r result).2 :=
      land_of_owned result hr
    cases hstate : (e.land flight result).2 with
    | ended outcome => trivial
    | inFlight next =>
      rw [hland] at hstate
      have hpump := Course.pump_of_takeNext hstate
      cases result with
      | error cause =>
        refine ⟨by rw [hpump]; rfl, fun w hw => ?_⟩
        rw [hpump] at hw
        cases hw
      | ok w =>
        have hpath : next.pump.path = flight.pump.path := by
          rw [hpump]
          rfl
        refine ⟨hpath, fun v hv => ?_⟩
        rw [hpump] at hv
        cases hv
        rw [hpath]
        exact hresult w rfl

theorem asks_land {flight : Flight} {result : Except OsError FileWriter}
    (hresult : ∀ w, result = .ok w → e.storage.Holds flight.pump.path held w.file) :
    Asks may (Ends e.storage fun held state => state.Holds e.storage flight.pump.path held) held
      (met (fun e => e.land flight result) e) :=
  (aloof_land flight result).asks (e.later_land flight result).storage (holds_land hresult)

theorem asks_resume {flight : Flight} (hflight : flight.Holds e.storage held) :
    Asks (e.storage.Names flight.pump.path)
      (Ends e.storage fun held state => state.Holds e.storage flight.pump.path held) held
      (met (fun e => e.resume flight) e) :=
  ((Delivery.asks_finish hflight.start).bind
    (k := fun result => met (fun e => e.land flight result) e)
    fun _ _ hresult => asks_land hresult).congr fun _ => rfl

theorem asks_driveFor {left : Nat} {flight : Flight} (hflight : flight.Holds e.storage held) :
    Asks (e.storage.Names flight.pump.path) (Ends e.storage fun _ _ => True) held
      (met (fun e => driveFor left e flight) e) := by
  -- one fragment after another, by those that are left
  induction left generalizing e flight held with
  | zero =>
    refine ((asks_resume hflight).bind (k := fun x d =>
      x.2.either (fun result => (d, (x.1, result))) fun _ => (d, (x.1, .ok .cancelled))) fun held x hx => ?_).congr fun d => ?_
    · rcases x with ⟨e', result | next⟩
      · exact .answer ⟨hx.1, trivial⟩
      · exact .answer ⟨hx.1, trivial⟩
    · simp only [met]
      rw [driveFor]
      rcases (e.upon d).resume flight with ⟨e', result | next⟩ <;> rfl
  | succ left ih =>
    refine ((asks_resume hflight).bind (k := fun x d =>
      x.2.either (fun result => (d, (x.1, result))) fun next =>
        met (fun e => driveFor left e next) x.1 d) fun held x hx => ?_).congr
        fun d => ?_
    · rcases x with ⟨e', result | next⟩
      · exact .answer ⟨hx.1, trivial⟩
      · obtain ⟨hstorage, hpath, hnext⟩ := hx
        have hstorage' : e'.storage = e.storage := hstorage
        rw [← hstorage'] at hnext ⊢
        rw [← hpath]
        exact ih hnext
    · simp only [met]
      rw [driveFor]
      rcases (e.upon d).resume flight with ⟨e', result | next⟩ <;> rfl

theorem asks_drive {flight : Flight} (hflight : flight.Holds e.storage held) :
    Asks (e.storage.Names flight.pump.path) (Ends e.storage fun _ _ => True) held
      (met (fun e => e.drive flight) e) := by
  have hdrive : Asks (e.storage.Names flight.pump.path) (Ends e.storage fun _ _ => True) held
      (met (fun x => driveFor (e.waitingBehind flight) x flight) e) := asks_driveFor hflight
  exact hdrive.congr fun d => rfl

theorem asks_settle {op : Engine → Engine × Pumping}
    (h : Asks (e.storage.Names path)
      (Ends e.storage fun held state => state.Holds e.storage path held) held (met op e)) :
    Asks (e.storage.Names path) (Ends e.storage fun _ _ => True) held
      (met (fun e => (op e).1.settle (op e).2) e) := by
  refine (h.bind (k := fun x => met (fun e => e.settle x.2) x.1) fun held x hx => ?_).congr
    fun d => rfl
  rcases x with ⟨e', result | flight⟩
  · refine Asks.congr (.answer (a := (e'.upon .empty, result)) ⟨hx.1, trivial⟩) fun d => rfl
  · obtain ⟨hstorage, rfl, hflight⟩ := hx
    have hstorage' : e'.storage = e.storage := hstorage
    rw [← hstorage'] at hflight ⊢
    exact asks_drive hflight

theorem asks_pump (e : Engine) (path : String) (held : Held) :
    Asks (e.storage.Names path) (Ends e.storage fun _ _ => True) held
      (met (fun e => e.pump path) e) :=
  asks_settle (asks_begin path)

theorem asks_beginSubmit (path : String) (f : Fragment) :
    Asks may (Ends e.storage fun held state => state.Holds e.storage path held) held
      (met (fun e => e.beginSubmit path f) e) := by
  cases hqueue : e.registry.enqueue path f with
  | error err =>
    refine Asks.congr (.answer (a := (e.upon .empty, Pumping.ended (.error err))) ⟨rfl, trivial⟩)
      fun d => ?_
    have hqueue' : (e.upon d).registry.enqueue path f = .error err := hqueue
    simp only [met, beginSubmit, accept, hqueue']
    rfl
  | ok registry =>
    refine Asks.congr (asks_begin (e := { e with registry }.note
      (.fragmentQueued path f.position f.len)) path) fun d => ?_
    have hqueue' : (e.upon d).registry.enqueue path f = .ok registry := hqueue
    simp only [met, beginSubmit, accept, hqueue']
    rfl

theorem asks_submit (e : Engine) (path : String) (f : Fragment) (held : Held) :
    Asks (e.storage.Names path) (Ends e.storage fun _ _ => True) held
      (met (fun e => e.submit path f) e) :=
  asks_settle (asks_beginSubmit path f)

/-! ## Pumps side by side -/

/-- The question names only the location of one of the paths. -/
def NamesAny (s : Storage) (paths : List String) (r : Request) : Prop :=
  ∃ path ∈ paths, s.Names path r

/-- Each lane serves one of the paths, and has no file open but that of its path. -/
def LanesHold (s : Storage) (paths : List String) (held : Held) (lanes : List (String × Lane)) :
    Prop :=
  ∀ entry ∈ lanes, entry.1 ∈ paths ∧ entry.2.Holds s entry.1 held

theorem LanesHold.mono {s : Storage} {paths : List String} {held' : Held}
    {lanes : List (String × Lane)} (h : LanesHold s paths held lanes) (hsub : held ⊆ held') :
    LanesHold s paths held' lanes :=
  fun entry hentry => ⟨(h entry hentry).1, (h entry hentry).2.mono hsub⟩

theorem LanesHold.cons {s : Storage} {paths : List String} {lane : Lane}
    {rest : List (String × Lane)} (hpath : path ∈ paths) (hlane : lane.Holds s path held)
    (hrest : LanesHold s paths held rest) : LanesHold s paths held ((path, lane) :: rest) :=
  List.forall_mem_cons.mpr ⟨⟨hpath, hlane⟩, hrest⟩

theorem asks_turn {lane : Lane} (hlane : lane.Holds e.storage path held) :
    Asks (e.storage.Names path) (Ends e.storage fun held lane => lane.Holds e.storage path held) held
      (met (fun e => e.turn lane) e) := by
  cases lane with
  | ended result =>
    exact Asks.congr (.answer (a := (e.upon .empty, Lane.ended result)) ⟨rfl, trivial⟩) fun d => rfl
  | underway flight delivery =>
    obtain ⟨rfl, hopen⟩ := hlane
    refine ((Delivery.asks_advance (f := flight.fragment) hopen).bind (k := fun step d =>
      step.either (fun next => (d, (e.upon .empty, .underway flight next))) fun result =>
        let x := met (fun e => e.land flight result) e d
        (x.1, (x.2.1, .of x.2.2))) fun held step hstep => ?_).congr fun d => ?_
    · cases step with
      | onward next => exact .answer ⟨rfl, rfl, hstep⟩
      | ended result =>
        have hresult : ∀ w, result = .ok w → e.storage.Holds flight.pump.path held w.file := by
          intro w hw
          subst hw
          exact hstep w rfl
        refine (asks_land hresult).bind (k := fun x d => (d, (x.1, Lane.of x.2))) fun held x hx => ?_
        exact .answer ⟨hx.1, Lane.holds_of hx.2⟩
    · simp only [met, turn]
      rw [storage_upon, disk_upon]
      rcases delivery.advance e.storage flight.pump.path flight.fragment d with ⟨d', _ | _⟩ <;> rfl

theorem asks_round {paths : List String} {lanes : List (String × Lane)}
    (hlanes : LanesHold e.storage paths held lanes) :
    Asks (NamesAny e.storage paths) (Ends e.storage (LanesHold e.storage paths)) held
      (met (fun e => e.round lanes) e) := by
  induction lanes generalizing e held with
  | nil =>
    refine Asks.congr (.answer (a := (e.upon .empty, ([] : List (String × Lane)))) ⟨rfl, ?_⟩) fun d => rfl
    exact List.forall_mem_nil _
  | cons entry rest ih =>
    obtain ⟨path, lane⟩ := entry
    obtain ⟨⟨hpath, hlane⟩, hrest⟩ := List.forall_mem_cons.mp hlanes
    have hturn : Asks (NamesAny e.storage paths) _ held (met (fun e => e.turn lane) e) :=
      (asks_turn hlane).grown.mono (fun r hr => ⟨path, hpath, hr⟩) fun _ _ h => h
    refine (hturn.bind (k := fun x d =>
      let y := met (fun e => e.round rest) x.1 d
      (y.1, (y.2.1, (path, x.2) :: y.2.2))) fun held x hx => ?_).congr fun d => rfl
    obtain ⟨hsub, hstorage, hlane'⟩ := hx
    have hrest' : LanesHold x.1.storage paths held rest := by
      rw [hstorage]
      exact LanesHold.mono hrest hsub
    rw [← hstorage]
    rw [← hstorage] at hlane'
    refine (ih hrest').grown.bind (k := fun y d => (d, (y.1, (path, x.2) :: y.2))) fun held y hy => ?_
    exact .answer ⟨hy.2.1, LanesHold.cons hpath (hlane'.mono hy.1) hy.2.2⟩

theorem asks_roundsFor {paths : List String} {count : Nat} {lanes : List (String × Lane)}
    (hlanes : LanesHold e.storage paths held lanes) :
    Asks (NamesAny e.storage paths) (Ends e.storage fun _ _ => True) held
      (met (fun e => roundsFor count e lanes) e) := by
  induction count generalizing e held lanes with
  | zero => exact Asks.congr (.answer (a := (e.upon .empty, lanes)) ⟨rfl, trivial⟩) fun d => rfl
  | succ count ih =>
    refine ((asks_round hlanes).bind (k := fun x => met (fun e => roundsFor count e x.2) x.1)
      fun held x hx => ?_).congr fun d => rfl
    obtain ⟨hstorage, hlanes'⟩ := hx
    rw [← hstorage] at hlanes' ⊢
    exact ih hlanes'

theorem asks_rounds {paths : List String} {lanes : List (String × Lane)}
    (hlanes : LanesHold e.storage paths held lanes) :
    Asks (NamesAny e.storage paths) (Ends e.storage fun _ _ => True) held
      (met (fun e => e.rounds lanes) e) := by
  let count := lanes.foldr (fun lane count => max (e.turnsLeft lane.2) count) 0
  have hrounds : Asks (NamesAny e.storage paths) (Ends e.storage fun _ _ => True) held
      (met (fun x => roundsFor count x lanes) e) := asks_roundsFor hlanes
  exact (hrounds.bind (k := fun x d => (d, (x.1, x.2.map fun entry => (entry.1, entry.2.result))))
    fun _ _ hx => .answer ⟨hx.1, trivial⟩).congr fun d => rfl

theorem asks_beginAll {all paths : List String} (hpaths : paths ⊆ all) :
    Asks may (Ends e.storage (LanesHold e.storage all)) held
      (met (fun e => e.beginAll paths) e) := by
  induction paths generalizing e held with
  | nil =>
    refine Asks.congr (.answer (a := (e.upon .empty, ([] : List (String × Lane)))) ⟨rfl, ?_⟩) fun d => rfl
    exact List.forall_mem_nil _
  | cons path rest ih =>
    obtain ⟨hpath, hrest⟩ := List.cons_subset.mp hpaths
    refine ((asks_begin path).bind (k := fun x d =>
      let y := met (fun e => e.beginAll rest) x.1 d
      (y.1, (y.2.1, (path, .of x.2) :: y.2.2))) fun held x hx => ?_).congr fun d => rfl
    obtain ⟨hstorage, hstate⟩ := hx
    rw [← hstorage] at hstate ⊢
    refine (ih hrest).grown.bind (k := fun y d => (d, (y.1, (path, Lane.of x.2) :: y.2)))
      fun held y hy => ?_
    exact .answer ⟨hy.2.1, LanesHold.cons hpath ((Lane.holds_of hstate).mono hy.1) hy.2.2⟩

theorem asks_pumpPending (e : Engine) (held : Held) :
    Asks (NamesAny e.storage e.registry.pendingPaths) (Ends e.storage fun _ _ => True) held
      (met (fun e => e.pumpPending) e) := by
  have hbegin : Asks (NamesAny e.storage e.registry.pendingPaths)
      (Ends e.storage (LanesHold e.storage e.registry.pendingPaths)) held
      (met (fun x => x.beginAll e.registry.pendingPaths) e) := asks_beginAll (List.Subset.refl _)
  refine (hbegin.bind (k := fun x => met (fun e => e.rounds x.2) x.1) fun held x hx => ?_).congr
    fun d => ?_
  · obtain ⟨hstorage, hlanes⟩ := hx
    rw [← hstorage] at hlanes ⊢
    exact asks_rounds hlanes
  · simp only [met, pumpPending, registry_upon]
    rfl

/-- A removal with the file. -/
theorem asks_discard (e : Engine) (path : String) (held : Held) :
    Asks (e.storage.Names path) (Ends e.storage fun _ _ => True) held
      (met (fun e => e.discard path) e) := by
  have hstorage : (e.remove path).storage = e.storage := (e.later_remove path).storage
  refine ((Storage.asks_delete e.storage path held).bind
    (k := fun deleted d => (d, ((e.remove path).upon .empty, deleted))) fun held deleted _ =>
      .answer ⟨hstorage, trivial⟩).congr fun d => ?_
  simp only [met, discard, remove_upon]
  rw [← hstorage]
  rfl

end Engine

end ResumableUpload
