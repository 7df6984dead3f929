import ResumableUpload.Proofs.Disk.Opening
import ResumableUpload.Proofs.Engine.Leaves

/-
  Attempt — a fragment and the file that is opened for it

  To write a fragment, the file of its path is opened, and its bytes are laid at
  their position. A pump opens the file once, and keeps it open until a write
  fails; but a file that is open is the one that its path leads to, and to open
  it again changes nothing. So each delivery comes to what an attempt comes to
  that opens the file for itself.

  What is held:
    1. `Storage.attempt` — the file is opened, and a fragment is written to it.
    2. `Storage.Current` — the file that is open, if one is, is the one that the
       path leads to; `Engine.Keeps` — so it is for a pump.

  What is proved:
    1. `finish_eq_attempt` — a delivery is an attempt, and leaves the file open
       that the path leads to.
    2. `resume_eq_account`, `current_of_resume` — and so does each step of a
       pump.
-/

namespace ResumableUpload

namespace Storage

/-- The file of a path is opened, and a fragment is written to it. -/
def attempt (s : Storage) (path : String) (d : Disk) (f : Fragment) : Disk × Except OsError Unit :=
  match s.openForWrite d path with
  | (d, .error err) => (d, .error (Delivery.asOsError err))
  | (d, .ok file) =>
    match Disk.seek f.position with
    | .error cause => (d, .error cause)
    | .ok () => (d.place file f.position f.bytes, .ok ())

/-- The file that is open, if one is, is the one that the path leads to. -/
def Current (s : Storage) (path : String) (d : Disk) (writer : Option FileWriter) : Prop :=
  ∀ w, writer = some w → ∃ c, Opened s path w.file d c

variable {s : Storage} {path : String} {d : Disk}

theorem current_none : s.Current path d none := fun _ h => by cases h

theorem Current.openForWrite {w : FileWriter} (h : s.Current path d (some w)) :
    s.openForWrite d path = (d, .ok w.file) := by
  obtain ⟨c, hopened⟩ := h w rfl
  exact hopened.again d (.refl d)

theorem attempt_of_open {d' : Disk} {w : FileWriter} {c : Content} (f : Fragment)
    (hopen : s.openForWrite d path = (d', .ok w.file)) (hopened : Opened s path w.file d' c) :
    let x := Delivery.writeTo f d' w
    s.attempt path d f = (x.1, x.2.map fun _ => ()) ∧ s.Current path x.1 x.2.toOption := by
  simp only [attempt, hopen, Delivery.writeTo, FileWriter.writeAt]
  cases Disk.seek f.position with
  | error cause => exact ⟨rfl, current_none⟩
  | ok u =>
    refine ⟨rfl, fun v hv => ?_⟩
    obtain rfl : w.count f.bytes.size = v := Option.some.inj hv
    exact ⟨_, hopened.place f.position f.bytes⟩

/-- A delivery comes to what an attempt comes to, whether a file was open for it or not, and leaves the
file open that the path leads to. -/
theorem finish_eq_attempt {writer : Option FileWriter} (h : s.Current path d writer)
    (f : Fragment) :
    let x := (Delivery.start writer).finish s path f d
    s.attempt path d f = (x.1, x.2.map fun _ => ()) ∧ s.Current path x.1 x.2.toOption := by
  cases writer with
  | some w =>
    obtain ⟨c, hopened⟩ := h w rfl
    exact attempt_of_open f h.openForWrite hopened
  | none =>
    cases hopen : s.openForWrite d path with
    | mk d' result =>
      cases result with
      | error err =>
        simp only [attempt, Delivery.start, Delivery.finish, Delivery.writeToOpened, hopen]
        exact ⟨rfl, current_none⟩
      | ok file =>
        simp only [Delivery.start, Delivery.finish, Delivery.writeToOpened, hopen]
        exact attempt_of_open (w := ⟨file, 0⟩) f hopen (opened_of_openForWrite hopen)

end Storage

namespace Engine

variable {e : Engine} {flight : Flight}

/-- The file that a pump has open, if it has one, is the one that its path leads to. -/
abbrev Keeps (e : Engine) (p : Pump) : Prop := e.storage.Current p.path e.disk p.writer

/-- What an attempt at the fragment in a pump's hand comes to. -/
abbrev attempt (e : Engine) (flight : Flight) : Disk × Except OsError Unit :=
  e.storage.attempt flight.pump.path e.disk flight.fragment

/-- The engine with the disk that such an attempt leaves. -/
def attempted (e : Engine) (flight : Flight) : Engine := { e with disk := (e.attempt flight).1 }

theorem resume_eq_land (h : e.Keeps flight.pump) :
    ∃ result, result.map (fun _ => ()) = (e.attempt flight).2 ∧
      e.storage.Current flight.pump.path (e.attempt flight).1 result.toOption ∧
      e.resume flight = (e.attempted flight).land flight result := by
  obtain ⟨hattempt, hcurrent⟩ := Storage.finish_eq_attempt h flight.fragment
  refine ⟨((Delivery.start flight.pump.writer).finish e.storage flight.pump.path flight.fragment
    e.disk).2, ?_, ?_, ?_⟩
  · rw [attempt, hattempt]
  · rw [attempt, hattempt]
    exact hcurrent
  · rw [attempted, attempt, hattempt]
    rfl

/-- If its upload is there, it looks for the next fragment then, and has the file open that its path
leads to, if it has one open. -/
theorem resume_eq_account {r : Record} (h : e.Keeps flight.pump)
    (hr : e.registry.owned? flight.pump.path flight.pump.id = some r) :
    ∃ result, result.map (fun _ => ()) = (e.attempt flight).2 ∧
      let next := (e.attempted flight).account flight r result
      next.1.Keeps next.2 ∧ e.resume flight = next.1.takeNext next.2 := by
  obtain ⟨result, hresult, hcurrent, hresume⟩ := resume_eq_land h
  have hr' : (e.attempted flight).registry.owned? flight.pump.path flight.pump.id = some r := hr
  obtain ⟨hpath, -, -, hdisk, hwriter⟩ := account_cases result hr'
  refine ⟨result, hresult, ?_, hresume.trans (land_of_owned result hr')⟩
  rw [Keeps, hpath, hdisk, (leaves_account result hr').storage]
  intro w hw
  apply hcurrent w
  rw [hwriter w hw]
  rfl

theorem current_of_resume (h : e.Keeps flight.pump) {next : Flight}
    (hnext : (e.resume flight).2 = .inFlight next) : (e.resume flight).1.Keeps next.pump := by
  cases hr : e.registry.owned? flight.pump.path flight.pump.id with
  | none =>
    have hgone : (e.resume flight).2 = .ended (.ok .cancelled) := by
      simp only [resume, land, hr]
    rw [hgone] at hnext
    cases hnext
  | some r =>
    obtain ⟨result, -, hkeeps, hresume⟩ := resume_eq_account h hr
    rw [hresume] at hnext ⊢
    rwa [Keeps, Course.pump_of_takeNext hnext, Course.disk_takeNext, (later_takeNext _ _).storage]

end Engine

end ResumableUpload
