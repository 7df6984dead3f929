import ResumableUpload.Proofs.Course.Figures
import ResumableUpload.Proofs.Course.Outstanding
import ResumableUpload.Proofs.Disk.Delivering

/-
  Orderly — calls that come one after another

  Where a call begins only when no pump is under way, and nobody else changes
  the disk, the pumps under way are those of one call. No upload is removed
  under them and no file deleted, so each of them serves an upload that is
  there, and the file it has open is the one its path names. Operations may fail
  at any point, when any part of them is done.

  What is held:
    1. `Course.Obeys` — a run whose moves keep to a rule.
    2. `Course.Orderly` — the rule that calls come one after another.
    3. `Comes` — where a pump under way after a move comes from.
    4. `Underway.Aimed` — a pump that writes the file its path names;
       `Course.Tended` — all pumps do, and the base of the storage is there.
    5. `Course.Writes` — the upload and the names that a pump writes; `Works` —
       what a move touches on the disk.
    6. `Course.InOrder` — all of it, at one moment.

  What is proved:
    1. `obeys_append`, `Obeys.at` — a run that keeps to a rule, at each of its
       moves.
    2. `disk_step`, `comes_of_step` — what a move makes of the disk, and of the
       pumps under way.
    3. `served_of_orderly`, `writes_of_orderly` — pumps serve uploads that are
       there, and write within them.
    4. `inOrder_run`, `InOrder.works` — the base stays, every pump is aimed, and
       a move touches no file but that of its path.
-/

namespace ResumableUpload

namespace Course

/-! ## Runs that keep to a rule -/

/-- Each move keeps to the rule where it is made. -/
def Obeys (rule : Course → Move → Prop) (c : Course) : List Move → Prop
  | [] => True
  | m :: rest => rule c m ∧ (c.step m).Obeys rule rest

section Rules

variable {rule rule' : Course → Move → Prop} {c : Course} {moves before later : List Move}
  {m : Move}

theorem obeys_append : c.Obeys rule (before ++ later) ↔
    c.Obeys rule before ∧ (c.run before).Obeys rule later := by
  induction before generalizing c with
  | nil => exact ⟨fun h => ⟨trivial, h⟩, fun h => h.2⟩
  | cons m rest ih =>
    show rule c m ∧ (c.step m).Obeys rule (rest ++ later) ↔
      (rule c m ∧ (c.step m).Obeys rule rest) ∧ ((c.step m).run rest).Obeys rule later
    rw [ih, and_assoc]

theorem Obeys.imp (h : c.Obeys rule moves) (himp : ∀ c m, rule c m → rule' c m) :
    c.Obeys rule' moves := by
  induction moves generalizing c with
  | nil => trivial
  | cons m rest ih => exact ⟨himp c m h.1, ih h.2⟩

/-- A move keeps to the rule after those before it. -/
theorem Obeys.at (h : c.Obeys rule (before ++ m :: later)) : rule (c.run before) m :=
  (obeys_append.mp h).2.1

end Rules

/-- Calls come one after another: only pumps move while one is under way, and nobody else changes the
disk, neither another program nor the operation that a dropped pump had asked for. -/
structure Orderly (c : Course) (m : Move) : Prop where
  alone : ∀ disk, m ≠ .outside disk
  prompt : ∀ n fault, m ≠ .late n fault
  quiet : m.pump? = none → c.live = []

theorem Orderly.of_pump {c : Course} {m : Move} {n : Nat} (hm : m.pump? = some n) : c.Orderly m where
  alone := by
    rintro disk rfl
    cases hm
  prompt := by
    rintro k fault rfl
    cases hm
  quiet := by
    intro hnone
    rw [hm] at hnone
    cases hnone

/-! ## The disk and the pumps after a move -/

theorem disk_takeNext (e : Engine) (p : Pump) : (e.takeNext p).1.disk = e.disk := by
  unfold Engine.takeNext
  split
  · rfl
  · split
    · rfl
    · split <;> rfl

theorem disk_begin (e : Engine) (path : String) : (e.begin path).1.disk = e.disk := by
  obtain ⟨-, hbegin⟩ | ⟨r, -, ⟨-, hbegin⟩ | ⟨-, hbegin⟩ | ⟨-, -, hbegin⟩⟩ := e.begin_cases path
  · rw [hbegin]
  · rw [hbegin]
  · rw [hbegin]
    rfl
  · rw [hbegin, disk_takeNext]
    rfl

theorem disk_beginMany (paths : List String) (c : Course) :
    (paths.foldl begin c).engine.disk = c.engine.disk := by
  induction paths generalizing c with
  | nil => rfl
  | cons path rest ih => exact (ih _).trans (disk_begin c.engine path)

theorem disk_land (e : Engine) (flight : Flight) (result : Except OsError FileWriter) :
    (e.land flight result).1.disk = e.disk := by
  unfold Engine.land
  cases e.registry.owned? flight.pump.path flight.pump.id with
  | none => rfl
  | some r =>
    cases result with
    | error cause => exact disk_takeNext _ _
    | ok w => exact (disk_takeNext _ _).trans (Engine.disk_accountWrite e flight r w)

theorem disk_registered {ε : Type} {c : Course} {x : Except ε (Engine × Ticket)}
    (h : ∀ e t, x = .ok (e, t) → e.disk = c.engine.disk) :
    (c.registered x).engine.disk = c.engine.disk := by
  cases x with
  | error err => rfl
  | ok y => exact h y.1 y.2 rfl

theorem disk_removed (c : Course) (path : String) (e : Engine) :
    (c.removed path e).engine.disk = e.disk := by
  unfold removed
  split <;> rfl

theorem disk_remove (e : Engine) (path : String) : (e.remove path).disk = e.disk := by
  unfold Engine.remove
  split <;> rfl

theorem disk_discard (c : Course) (path : String) : (c.step (.discard path)).engine.disk =
    (c.engine.storage.delete c.engine.disk path).1 := by
  refine (disk_removed c path _).trans ?_
  show ((c.engine.remove path).storage.delete (c.engine.remove path).disk path).1 = _
  rw [(Engine.later_remove c.engine path).storage, disk_remove]

/-- What the next operation of a pump makes of the disk, and where its delivery stands then. -/
def operate (c : Course) (u : Underway) : Disk × Delivery.Step :=
  u.delivery.advance c.engine.storage u.flight.pump.path u.flight.fragment c.engine.disk

theorem disk_turn (c : Course) (u : Underway) : (c.turn u).engine.disk = (c.operate u).1 := by
  unfold turn operate
  split
  · rename_i disk next hadvance
    rw [hadvance]
    rfl
  · rename_i disk result hadvance
    rw [hadvance]
    exact disk_land { c.engine with disk } u.flight result

theorem disk_fault (c : Course) (u : Underway) (fault : DiskFault) :
    (c.fault u fault).engine.disk = u.effect c.engine fault :=
  disk_land (c.withDisk _).engine u.flight (.error fault.cause)

/-- The pump whose operation a move carries out, and how the operation fails if it does. -/
def operates (c : Course) : Move → Option (Underway × Option DiskFault)
  | .turn n => (c.find? n).map fun u => (u, none)
  | .fault n fault => (c.find? n).map fun u => (u, some fault)
  | .late n fault => (c.owing? n).map fun u => (u, fault)
  | _ => none

theorem disk_operates {c : Course} {m : Move} {u : Underway} {fault : Option DiskFault}
    (h : c.operates m = some (u, fault)) : (c.step m).engine.disk = u.effect c.engine fault := by
  cases m with
  | turn n =>
    obtain ⟨v, hv, heq⟩ := Option.map_eq_some_iff.mp h
    cases heq
    simp only [step, hv, Option.elim_some]
    exact disk_turn c u
  | fault n x =>
    obtain ⟨v, hv, heq⟩ := Option.map_eq_some_iff.mp h
    cases heq
    simp only [step, hv, Option.elim_some]
    exact disk_fault c u x
  | late n x =>
    obtain ⟨v, hv, heq⟩ := Option.map_eq_some_iff.mp h
    cases heq
    simp only [step, hv, Option.elim_some]
    rfl
  | _ => cases h

/-- What a move makes of the disk. -/
theorem disk_step (c : Course) (m : Move) :
    (c.step m).engine.disk = c.engine.disk ∨
    (∃ u fault, c.operates m = some (u, fault) ∧
      (c.step m).engine.disk = u.effect c.engine fault) ∨
    (∃ path, m = .discard path ∧
      (c.step m).engine.disk = (c.engine.storage.delete c.engine.disk path).1) ∨
    ∃ disk, m = .outside disk := by
  cases hoperates : c.operates m with
  | some x => exact .inr (.inl ⟨x.1, x.2, rfl, disk_operates hoperates⟩)
  | none =>
    cases m with
    | init path size owner clientPath =>
      left
      apply disk_registered
      intro e t h
      obtain ⟨registry, notice, -, rfl⟩ := Engine.init_eq_ok h
      exact Engine.disk_announceIfEmpty _ t
    | initWithin quota path size owner clientPath =>
      left
      apply disk_registered
      intro e t h
      obtain ⟨registry, notice, -, rfl⟩ := Engine.initWithin_eq_ok h
      exact Engine.disk_announceIfEmpty _ t
    | submit path f =>
      left
      simp only [step, accept]
      cases haccept : c.engine.accept path f with
      | error err => rfl
      | ok e =>
        obtain ⟨r, notice, hr, -, rfl⟩ := Engine.accept_eq_ok haccept
        simp only [hr]
        exact disk_begin _ path
    | pump path => exact .inl (disk_begin c.engine path)
    | pumpPending => exact .inl (disk_beginMany _ c)
    | turn n => simp only [step, Option.map_eq_none_iff.mp hoperates, Option.elim_none, true_or]
    | fault n x => simp only [step, Option.map_eq_none_iff.mp hoperates, Option.elim_none, true_or]
    | late n x => simp only [step, Option.map_eq_none_iff.mp hoperates, Option.elim_none, true_or]
    | drop n =>
      left
      simp only [step]
      cases c.find? n with
      | none => rfl
      | some u =>
        show (c.engine.abandon u.flight).disk = _
        unfold Engine.abandon
        split <;> rfl
    | remove path => exact .inl ((disk_removed c path _).trans (disk_remove c.engine path))
    | discard path => exact .inr (.inr (.inl ⟨path, rfl, disk_discard c path⟩))
    | outside disk => exact .inr (.inr (.inr ⟨disk, rfl⟩))
    | listen cursors => exact .inl rfl

theorem Orderly.operates {c : Course} {m : Move} {u : Underway} {fault : Option DiskFault}
    (hm : c.Orderly m) (h : c.operates m = some (u, fault)) : u ∈ c.live := by
  have hlive : ∀ {n : Nat} {x : Option DiskFault}, (c.find? n).map (fun u => (u, x)) =
      some (u, fault) → u ∈ c.live := by
    intro n x hfind
    obtain ⟨v, hv, heq⟩ := Option.map_eq_some_iff.mp hfind
    cases heq
    exact List.mem_of_find?_eq_some hv
  cases m with
  | turn n => exact hlive h
  | fault n fault => exact hlive h
  | late n fault => exact absurd rfl (hm.prompt n fault)
  | _ => cases h

/-- A pump that has nothing open, and nothing done. -/
structure Fresh (u : Underway) : Prop where
  writer : u.flight.pump.writer = none
  delivery : u.delivery = .start none

/-- Where a pump under way after a move comes from: it stayed as it is, it has nothing open, or it made
the move, and goes on with what its operation left. -/
inductive Comes (c c' : Course) (u : Underway) : Prop where
  | stays (h : u ∈ c.live)
  | fresh (h : Fresh u)
  | onward {v : Underway} {next : Delivery} (hv : v ∈ c.live)
      (hresult : c.operate v = (c'.engine.disk, .onward next))
      (hu : u = { v with delivery := next })
  | landed {v : Underway} {w : FileWriter} (hv : v ∈ c.live)
      (hresult : c.operate v = (c'.engine.disk, .ended (.ok w)))
      (hpump : u.flight.pump = { v.flight.pump with writer := some w })
      (hdelivery : u.delivery = .seeking w)

theorem mem_standing {n : Nat} {state : Pumping} {u : Underway} (hu : u ∈ standing n state) :
    state = .inFlight u.flight ∧ u.delivery = .start u.flight.pump.writer := by
  cases state with
  | ended result => cases hu
  | inFlight flight =>
    obtain rfl := List.mem_singleton.mp hu
    exact ⟨rfl, rfl⟩

theorem pump_of_takeNext {e : Engine} {p : Pump} {flight : Flight}
    (h : (e.takeNext p).2 = .inFlight flight) : flight.pump = p := by
  have htake : e.takeNext p = ((e.takeNext p).1, .inFlight flight) := Prod.ext rfl h
  exact (Engine.waiting_of_takeNext htake).1

theorem fresh_of_begin {e : Engine} {path : String} {n : Nat} {u : Underway}
    (hu : u ∈ standing n (e.begin path).2) : Fresh u := by
  obtain ⟨hstate, hdelivery⟩ := mem_standing hu
  have hwriter : u.flight.pump.writer = none := by
    obtain ⟨-, hbegin⟩ | ⟨r, -, ⟨-, hbegin⟩ | ⟨-, hbegin⟩ | ⟨-, -, hbegin⟩⟩ := e.begin_cases path
    · rw [hbegin] at hstate
      cases hstate
    · rw [hbegin] at hstate
      cases hstate
    · rw [hbegin] at hstate
      cases hstate
    · rw [hbegin] at hstate
      rw [pump_of_takeNext hstate]
  exact ⟨hwriter, by rw [hdelivery, hwriter]⟩

theorem mem_begin {c : Course} {path : String} {u : Underway} (hu : u ∈ (c.begin path).live) :
    u ∈ c.live ∨ Fresh u := by
  rcases List.mem_append.mp hu with hu | hu
  · exact .inr (fresh_of_begin hu)
  · exact .inl hu

theorem mem_beginMany {paths : List String} {c : Course} {u : Underway}
    (hu : u ∈ (paths.foldl begin c).live) : u ∈ c.live ∨ Fresh u := by
  induction paths generalizing c with
  | nil => exact .inl hu
  | cons path rest ih => exact (ih hu).elim mem_begin .inr

theorem pump_of_land {e : Engine} {flight next : Flight} {result : Except OsError FileWriter}
    (h : (e.land flight result).2 = .inFlight next) :
    next.pump.writer = none ∨
      ∃ w, result = .ok w ∧ next.pump = { flight.pump with writer := some w } := by
  cases hr : e.registry.owned? flight.pump.path flight.pump.id with
  | none =>
    simp only [Engine.land, hr] at h
    cases h
  | some r =>
    simp only [Engine.land, hr] at h
    cases result with
    | error cause =>
      left
      rw [pump_of_takeNext h]
      rfl
    | ok w => exact .inr ⟨w, rfl, pump_of_takeNext h⟩

theorem mem_land {c : Course} {v u : Underway} {result : Except OsError FileWriter}
    (hu : u ∈ (c.land v result).live) :
    u ∈ c.live ∨ Fresh u ∨ ∃ w, result = .ok w ∧
      u.flight.pump = { v.flight.pump with writer := some w } ∧ u.delivery = .seeking w := by
  rcases List.mem_append.mp hu with hu | hu
  · right
    obtain ⟨hstate, hdelivery⟩ := mem_standing hu
    rcases pump_of_land hstate with hwriter | ⟨w, hw, hpump⟩
    · exact .inl ⟨hwriter, by rw [hdelivery, hwriter]⟩
    · exact .inr ⟨w, hw, hpump, by rw [hdelivery, hpump]; rfl⟩
  · exact .inl (List.mem_of_mem_eraseP hu)

theorem comes_of_turn {c : Course} {v u : Underway} (hv : v ∈ c.live) (hu : u ∈ (c.turn v).live) :
    Comes c (c.turn v) u := by
  obtain ⟨next, hoperate, hturn, -⟩ | ⟨result, hoperate, hturn, -⟩ := c.turn_cases v
  · have hresult : c.operate v = ((c.turn v).engine.disk, .onward next) := by
      rw [hturn]
      exact hoperate
    rw [hturn] at hu
    rcases List.mem_cons.mp hu with rfl | hu
    · exact .onward hv hresult rfl
    · exact .stays (List.mem_of_mem_eraseP hu)
  · have hresult : c.operate v = ((c.turn v).engine.disk, .ended result) := by
      rw [disk_turn, operate, hoperate]
    rw [hturn] at hu
    rcases mem_land (c := c.withDisk _) hu with hu | hfresh | ⟨w, rfl, hpump, hdelivery⟩
    · exact .stays hu
    · exact .fresh hfresh
    · exact .landed hv hresult hpump hdelivery

theorem comes_of_step {c : Course} {m : Move} {u : Underway} (hu : u ∈ (c.step m).live) :
    Comes c (c.step m) u := by
  cases c.stirs m with
  | rests hlive _ => exact .stays (hlive ▸ hu)
  | begins c₀ hlive _ _ _ hstep =>
    rw [hstep] at hu
    rcases mem_begin hu with hu | hfresh
    · exact .stays (hlive ▸ hu)
    · exact .fresh hfresh
  | beginsMany _ hstep =>
    rw [hstep] at hu
    exact (mem_beginMany hu).elim .stays .fresh
  | turns _ hv hstep =>
    rw [hstep] at hu ⊢
    exact comes_of_turn (List.mem_of_find?_eq_some hv) hu
  | faults _ _ hstep =>
    rw [hstep] at hu
    rcases mem_land (c := c.withDisk _) hu with hu | hfresh | ⟨w, hw, -⟩
    · exact .stays hu
    · exact .fresh hfresh
    · cases hw
  | drops _ _ hstep =>
    rw [hstep] at hu
    exact .stays (List.mem_of_mem_eraseP hu)
  | catches _ _ hstep =>
    rw [hstep] at hu
    exact .stays hu

/-! ## Pumps of uploads that are there -/

/-- Where calls come one after another, each pump serves an upload that is there. -/
theorem served_of_orderly {e : Engine} (hempty : e.registry = .empty) {moves : List Move}
    (h : (new e).Obeys Orderly moves) {u : Underway} (hu : u ∈ ((new e).run moves).live) :
    ∃ r, ((new e).run moves).engine.registry.owned? u.flight.pump.path u.flight.pump.id = some r := by
  apply Option.isSome_iff_exists.mp
  show ((new e).run moves).servesPresent u = true
  rw [← Bool.not_eq_false]
  intro habsent
  have hgone := gone_of_absent (sound_run e hempty moves) hu habsent
  obtain ⟨before, gone, later, r, rfl, hremoves, -, hhand⟩ := hand_of_gone hempty hu hgone
  -- the upload was removed while nobody was under way
  have hpump : gone.pump? = none := by
    obtain ⟨rfl | rfl, -⟩ := removes_eq_some hremoves <;> rfl
  have hquiet : ((new e).run before).live = [] := h.at.quiet hpump
  rw [view, hquiet] at hhand
  cases hhand

/-- What a pump under way writes: an upload that is there, at the names of its path, within its size. -/
def Writes (c : Course) (u : Underway) (r : Record) (names : Location) : Prop :=
  c.engine.registry.find? u.flight.pump.path = some r ∧
    Storage.resolve u.flight.pump.path = .ok names ∧ u.flight.fragment.stop ≤ r.size

theorem writes_of_orderly {e : Engine} (hempty : e.registry = .empty) {moves : List Move}
    (h : (new e).Obeys Orderly moves) {u : Underway} (hu : u ∈ ((new e).run moves).live) :
    ∃ r names, ((new e).run moves).Writes u r names := by
  obtain ⟨r, hr⟩ := served_of_orderly hempty h hu
  obtain ⟨hfind, hid⟩ := Registry.owned?_eq_some_iff.mp hr
  obtain ⟨-, ⟨names, hnames⟩, -⟩ := admitted_run hempty hfind
  refine ⟨r, names, hfind, hnames, ?_⟩
  apply (figured_run e hempty moves _ r hfind).fits u.flight.fragment
  rw [inHand_view]
  refine List.mem_append_left _ (List.mem_map_of_mem (List.mem_filter.mpr ⟨hu, ?_⟩))
  exact decide_eq_true hid.symm

end Course

/-! ## Pumps that write the file their path names -/

/-- What a pump has open, and its delivery has, is the file that its path names. -/
structure Underway.Aimed (s : Storage) (d : Disk) (base : Location) (u : Underway) : Prop where
  ready : ∀ names, Storage.resolve u.flight.pump.path = .ok names →
    u.delivery.Ready s d base names u.flight.fragment
  opened : ∀ names w, Storage.resolve u.flight.pump.path = .ok names →
    u.flight.pump.writer = some w → s.HasOpen d base names w

namespace Course

/-- The base of the storage is there, and every pump is aimed. -/
structure Tended (base : Location) (c : Course) : Prop where
  rooted : c.engine.storage.Rooted c.engine.disk base
  aimed : ∀ u ∈ c.live, u.Aimed c.engine.storage c.engine.disk base

namespace Tended

variable {c : Course} {base : Location} {m : Move}

theorem operate (h : c.Tended base) {u : Underway} (hu : u ∈ c.live) {names : Location}
    (hpath : Storage.resolve u.flight.pump.path = .ok names) :
    Delivery.Advanced c.engine.storage base names u.flight.fragment c.engine.disk (c.operate u) :=
  ((h.aimed u hu).ready names hpath).advance h.rooted hpath

theorem effect (h : c.Tended base) {u : Underway} (hu : u ∈ c.live) {names : Location}
    (hpath : Storage.resolve u.flight.pump.path = .ok names) (fault : Option DiskFault) :
    c.engine.storage.Fills base names u.flight.fragment.stop c.engine.disk
      (u.effect c.engine fault) :=
  ((h.aimed u hu).ready names hpath).effect h.rooted hpath fault

/-- What a move works on: nothing, the file of a pump, or one that is deleted while nobody is under
way. -/
inductive Works (base : Location) (c : Course) (m : Move) : Prop where
  | idle (hdisk : (c.step m).engine.disk = c.engine.disk)
  | fills {u : Underway} {r : Record} {names : Location} (hwrites : c.Writes u r names)
      (hfills : c.engine.storage.Fills base names u.flight.fragment.stop c.engine.disk
        (c.step m).engine.disk)
  | deletes {path : String} {names : Location} (hm : m = .discard path) (hquiet : c.live = [])
      (hpath : Storage.resolve path = .ok names)
      (htouches : c.engine.storage.Touches base names c.engine.disk (c.step m).engine.disk)
      (hshrinks : (c.step m).engine.disk.sizeAt (base ++ names) ≤
        c.engine.disk.sizeAt (base ++ names))

theorem works (h : c.Tended base) (hm : Orderly c m)
    (hwrites : ∀ u ∈ c.live, ∃ r names, c.Writes u r names) : Works base c m := by
  rcases disk_step c m with hdisk | ⟨u, fault, hoperates, hdisk⟩ | ⟨path, rfl, hdisk⟩ |
    ⟨disk, hout⟩
  · exact .idle hdisk
  · have hu : u ∈ c.live := hm.operates hoperates
    obtain ⟨r, names, hwrite⟩ := hwrites u hu
    have hfills := h.effect hu hwrite.2.1 fault
    rw [← hdisk] at hfills
    exact .fills hwrite hfills
  · cases hnames : Storage.resolve path with
    | error err =>
      refine .idle (hdisk.trans ?_)
      simp only [Storage.delete, hnames]
    | ok names =>
      obtain ⟨htouches, hshrinks⟩ := h.rooted.touches_delete hnames
      rw [← hdisk] at htouches hshrinks
      exact .deletes rfl (hm.quiet rfl) hnames htouches hshrinks
  · exact absurd hout (hm.alone disk)

theorem Works.steady (h : Works base c m) : Disk.Steady c.engine.disk (c.step m).engine.disk := by
  cases h with
  | idle hdisk =>
    rw [hdisk]
    exact .refl _
  | fills _ hfills => exact hfills.steady
  | deletes _ _ _ htouches _ => exact htouches.steady

theorem Works.aimed (h : Works base c m) {u : Underway} (hu : u ∈ c.live)
    (haimed : u.Aimed c.engine.storage c.engine.disk base) :
    u.Aimed c.engine.storage (c.step m).engine.disk base := by
  cases h with
  | idle hdisk =>
    rw [hdisk]
    exact haimed
  | fills _ hfills =>
    exact ⟨fun ns hns => (haimed.ready ns hns).mono hfills,
      fun ns w hns hw => (haimed.opened ns w hns hw).mono hfills⟩
  | deletes _ hquiet _ _ _ =>
    rw [hquiet] at hu
    cases hu

theorem step (h : c.Tended base) (hworks : Works base c m) : (c.step m).Tended base := by
  have hstorage : (c.step m).engine.storage = c.engine.storage := (later_step c m).engine.storage
  constructor
  · rw [hstorage]
    exact h.rooted.steady hworks.steady
  · intro u hu
    rw [hstorage]
    cases comes_of_step hu with
    | stays hold => exact hworks.aimed hold (h.aimed u hold)
    | fresh hfresh =>
      constructor
      · intro names _
        rw [hfresh.delivery]
        exact .of_none rfl
      · intro names w _ hw
        rw [hfresh.writer] at hw
        cases hw
    | @onward v next hv hresult hu =>
      subst hu
      constructor
      · intro names hnames
        have hadvanced := h.operate hv hnames
        rw [hresult] at hadvanced
        exact hadvanced.onward next rfl
      · exact fun names w hnames hw => (hworks.aimed hv (h.aimed v hv)).opened names w hnames hw
    | @landed v w hv hresult hpump hdelivery =>
      -- the delivery left its file open, and the pump goes on with it
      have hopen : ∀ names, Storage.resolve u.flight.pump.path = .ok names →
          c.engine.storage.HasOpen (c.step m).engine.disk base names w := by
        intro names hnames
        rw [hpump] at hnames
        have hadvanced := h.operate hv hnames
        rw [hresult] at hadvanced
        exact (hadvanced.ended w rfl).1
      constructor
      · intro names hnames
        rw [hdelivery]
        exact .seeking (hopen names hnames)
      · intro names x hnames hx
        rw [hpump] at hx
        obtain rfl : w = x := Option.some.inj hx
        exact hopen names hnames

end Tended

/-- What holds at every moment where calls come one after another. -/
structure InOrder (base : Location) (c : Course) : Prop where
  sound : c.Sound
  figured : c.Figured
  tended : c.Tended base
  writes : ∀ u ∈ c.live, ∃ r names, c.Writes u r names

theorem InOrder.works {c : Course} {base : Location} {m : Move} (h : c.InOrder base)
    (hm : Orderly c m) : Tended.Works base c m :=
  h.tended.works hm h.writes

/-- Where calls come one after another, the base stays, and every pump is aimed at the file of an upload
that is there. -/
theorem inOrder_run {e : Engine} (hempty : e.registry = .empty) {base : Location}
    (hrooted : e.storage.Rooted e.disk base) {moves : List Move} (h : (new e).Obeys Orderly moves) :
    ((new e).run moves).InOrder base := by
  refine ⟨sound_run e hempty moves, figured_run e hempty moves, ?_,
    fun u hu => writes_of_orderly hempty h hu⟩
  induction moves using List.reverseRecOn with
  | nil =>
    refine ⟨hrooted, fun u hu => ?_⟩
    cases hu
  | append_singleton moves m ih =>
    obtain ⟨hbefore, hm, -⟩ := obeys_append.mp h
    have htended := ih hbefore
    rw [run_concat]
    exact htended.step (htended.works hm fun u hu => writes_of_orderly hempty hbefore hu)

end Course

end ResumableUpload
