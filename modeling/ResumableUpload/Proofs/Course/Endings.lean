import ResumableUpload.Proofs.Course.Slots
import ResumableUpload.Proofs.Engine.Turns

/-
  Endings — when a pump comes to its end

  A pump ends in the step in which it looks for the next fragment and there is
  none, or in which it finds its upload gone. The look at the queue and the
  return of the slot are one step, so the upload is at rest when its pump ends:
  nothing waits, and the slot is free.

  What is held:
    1. `Ending`, `Course.ends` — the pumps that come to their end with a move,
       and what they came to.
    2. `Engine.Concluded` — the upload at the end of its pump.

  What is proved:
    1. `takeNext_ended`, `land_ended`, `begin_ended` — an upload whose pump ends
       is at rest, and the figures told are its own.
    2. `turn_cases` — what a turn of a pump comes to; `ends_cases` — a pump that
       ends was under way, or has only begun.
-/

namespace ResumableUpload

/-- A pump that came to its end, and what it came to. -/
structure Ending where
  number : Nat
  path : String
  result : PumpResult

/-- Whether a pump wrote its queue out: it tells figures, or the first failure of a write. -/
def Ending.wroteOut (x : Ending) : Bool :=
  match x.result with
  | .ok (.drained _ _) => true
  | .error (.writeFailure _ _ _ _) => true
  | _ => false

namespace Course

/-- The pump `n` after a step, if that was its end. -/
def ending (n : Nat) (path : String) : Pumping → List Ending
  | .ended result => [⟨n, path, result⟩]
  | .inFlight _ => []

def endsBegin (c : Course) (path : String) : List Ending :=
  ending c.nextPump path (c.engine.begin path).2

def endsBegins (c : Course) : List String → List Ending
  | [] => []
  | path :: rest => c.endsBegin path ++ (c.begin path).endsBegins rest

def endsLand (c : Course) (u : Underway) (result : Except OsError FileWriter) : List Ending :=
  ending u.number u.flight.pump.path (c.engine.land u.flight result).2

def endsTurn (c : Course) (u : Underway) : List Ending :=
  match u.delivery.advance c.engine.storage u.flight.pump.path u.flight.fragment c.engine.disk with
  | (_, .onward _) => []
  | (disk, .ended result) => (c.withDisk disk).endsLand u result

def endsFault (c : Course) (u : Underway) (fault : DiskFault) : List Ending :=
  (c.withDisk (u.effect c.engine fault)).endsLand u (.error fault.cause)

/-- The pumps that come to their end with a move. -/
def ends (c : Course) : Move → List Ending
  | .submit path f => (c.accept path f).elim [] fun c => c.endsBegin path
  | .pump path => c.endsBegin path
  | .pumpPending => c.endsBegins c.engine.registry.pendingPaths
  | .turn n => (c.find? n).elim [] c.endsTurn
  | .fault n fault => (c.find? n).elim [] fun u => c.endsFault u fault
  | _ => []

theorem mem_ending {n : Nat} {path : String} {state : Pumping} {x : Ending}
    (h : x ∈ ending n path state) :
    x.number = n ∧ x.path = path ∧ state = .ended x.result := by
  cases state with
  | ended result =>
    obtain rfl := List.mem_singleton.mp h
    exact ⟨rfl, rfl, rfl⟩
  | inFlight flight => cases h

/-- A pump that takes a turn goes on, or the delivery of its fragment has ended. -/
theorem turn_cases (c : Course) (u : Underway) :
    let disk := u.effect c.engine none
    let delivered :=
      u.delivery.advance c.engine.storage u.flight.pump.path u.flight.fragment c.engine.disk
    (∃ next, delivered = (disk, .onward next) ∧
      c.turn u = { c.withDisk disk with
        live := { u with delivery := next } :: without u.number c.live } ∧
      c.endsTurn u = []) ∨
    ∃ result, delivered = (disk, .ended result) ∧
      c.turn u = (c.withDisk disk).land u result ∧
      c.endsTurn u = (c.withDisk disk).endsLand u result := by
  unfold turn endsTurn
  dsimp only
  cases hadvance : u.delivery.advance c.engine.storage u.flight.pump.path u.flight.fragment
      c.engine.disk with
  | mk disk state =>
    have hdisk : u.effect c.engine none = disk := by
      rw [Underway.effect, Delivery.effect, hadvance]
    rw [hdisk]
    cases state with
    | onward next => exact .inl ⟨next, rfl, rfl, rfl⟩
    | ended result => exact .inr ⟨result, rfl, rfl, rfl⟩

end Course

/-! ## The upload at the end of its pump -/

/-- Nobody writes the upload, and nothing waits for it. -/
structure Record.Idle (r : Record) : Prop where
  free : r.writing = false
  empty : r.queue.toList = []

/-- What a pump that wrote the queue out tells: the figures of the record, or a failure. -/
def Record.Tells (r : Record) : PumpResult → Prop
  | .ok (.drained saved completed) => saved = r.saved ∧ completed = r.completed
  | .ok _ => False
  | .error _ => True

namespace Engine

/-- At the end of its pump the upload is at rest, and the figures told are its own. -/
def AtRest (e : Engine) (path : String) (result : PumpResult) (r : Record) : Prop :=
  e.registry.find? path = some r ∧ r.Idle ∧ r.Tells result

/-- At its end a pump has found its upload gone, or leaves it at rest. -/
def Concluded (e : Engine) (path : String) (id : UploadId) (result : PumpResult) : Prop :=
  (e.registry.owned? path id = none ∧ result = .ok .cancelled) ∨
    ∃ r, r.id = id ∧ e.AtRest path result r

theorem takeNext_ended_of_owned {e : Engine} {p : Pump} {r : Record} {result : PumpResult}
    (hr : e.registry.owned? p.path p.id = some r) (h : (e.takeNext p).2 = .ended result) :
    ∃ s, s.id = p.id ∧ (e.takeNext p).1.AtRest p.path result s := by
  cases hpop : r.queue.pop? with
  | some x => simp [takeNext, hr, hpop] at h
  | none =>
    obtain ⟨hfind, hid⟩ := Registry.owned?_eq_some_iff.mp hr
    obtain ⟨notice, hend⟩ := takeNext_at_end hr hpop
    rw [hend] at h ⊢
    obtain rfl := Pumping.ended.inj h
    refine ⟨r.withWriting false, hid, ?_, ⟨rfl, (FragmentQueue.pop?_eq_none_iff _).mp hpop⟩, ?_⟩
    · exact Registry.find?_modify_self hfind (fun r => r.withWriting false) fun _ => rfl
    · cases p.failure with
      | some failure => trivial
      | none => exact ⟨rfl, rfl⟩

theorem takeNext_ended {e : Engine} {p : Pump} {result : PumpResult}
    (h : (e.takeNext p).2 = .ended result) : (e.takeNext p).1.Concluded p.path p.id result := by
  cases hr : e.registry.owned? p.path p.id with
  | none =>
    simp only [takeNext, hr, Pumping.ended.injEq] at h ⊢
    exact .inl ⟨hr, h.symm⟩
  | some r => exact .inr (takeNext_ended_of_owned hr h)

theorem land_ended {e : Engine} {flight : Flight} {result : Except OsError FileWriter}
    {outcome : PumpResult} (h : (e.land flight result).2 = .ended outcome) :
    (e.land flight result).1.Concluded flight.pump.path flight.pump.id outcome := by
  cases hr : e.registry.owned? flight.pump.path flight.pump.id with
  | none =>
    simp only [land, hr, Pumping.ended.injEq] at h ⊢
    exact .inl ⟨hr, h.symm⟩
  | some r =>
    cases result with
    | error cause =>
      simp only [land, hr] at h ⊢
      exact takeNext_ended (p := (e.accountFailure flight cause).2) h
    | ok w =>
      simp only [land, hr] at h ⊢
      exact takeNext_ended (p := (e.accountWrite flight r w).2) h

theorem find?_takeNext_of_ne {e : Engine} {p : Pump} {q : String} (hq : q ≠ p.path) :
    (e.takeNext p).1.registry.find? q = e.registry.find? q := by
  have hmodify : ∀ (change : Record → Record) (keeps : ∀ r, (change r).path = r.path),
      (e.registry.modify p.path change keeps).find? q = e.registry.find? q := by
    intro change keeps
    rw [Registry.find?_modify, if_neg hq]
  unfold takeNext
  split
  · rfl
  · split
    · rename_i queue _
      exact hmodify (fun r => r.withQueue queue) fun _ => rfl
    · split <;> exact hmodify (fun r => r.withWriting false) fun _ => rfl

/-- A pump that begins for an upload at rest leaves it as it was. -/
theorem find?_begin_of_idle {e : Engine} {p : String} {r : Record}
    (hr : e.registry.find? p = some r) (hidle : r.Idle) (q : String) :
    (e.begin q).1.registry.find? p = some r := by
  obtain ⟨-, hbegin⟩ | ⟨s, hs, ⟨-, hbegin⟩ | ⟨-, hbegin⟩ | ⟨-, -, hbegin⟩⟩ := e.begin_cases q
  · rw [hbegin]
    exact hr
  · rw [hbegin]
    exact hr
  · rw [hbegin]
    exact hr
  · rw [hbegin]
    have hmarked : (e.modify q fun r => r.withWriting true).registry.find? p =
        if p = q then some (r.withWriting true) else some r := by
      show (e.registry.modify q fun r => r.withWriting true).find? p = _
      rw [Registry.find?_modify, hr]
      rfl
    by_cases hp : p = q
    · subst hp
      obtain rfl : s = r := Option.some.inj (hs.symm.trans hr)
      rw [if_pos rfl] at hmarked
      have howned : (e.modify p fun r => r.withWriting true).registry.owned? p s.id =
          some (s.withWriting true) := Registry.owned?_eq_some_iff.mpr ⟨hmarked, rfl⟩
      obtain ⟨notice, hend⟩ := takeNext_of_empty (p := ⟨p, s.id, none, none⟩) howned
        ((FragmentQueue.pop?_eq_none_iff _).mpr hidle.empty) rfl
      rw [hend]
      show ((e.modify p fun r => r.withWriting true).registry.modify p
        fun r => r.withWriting false).find? p = some s
      rw [Registry.find?_modify, if_pos rfl, hmarked]
      -- the mark is taken and given back, and it was not there before
      show some { s with writing := false } = some s
      rw [← hidle.free]
    · rw [if_neg hp] at hmarked
      rw [find?_takeNext_of_ne (p := ⟨q, s.id, none, none⟩) hp]
      exact hmarked

/-- A pump that ends as it begins was refused, or found nothing to write. -/
theorem begin_ended {e : Engine} {path : String} {result : PumpResult}
    (h : (e.begin path).2 = .ended result) :
    result = .error (.unknownUpload path) ∨ result = .ok .busy ∨ result = .ok .deferred ∨
      ∃ r, (e.begin path).1.AtRest path result r := by
  obtain ⟨-, hbegin⟩ | ⟨s, hs, ⟨-, hbegin⟩ | ⟨-, hbegin⟩ | ⟨-, -, hbegin⟩⟩ := e.begin_cases path
  · rw [hbegin] at h
    cases h
    exact .inl rfl
  · rw [hbegin] at h
    cases h
    exact .inr (.inl rfl)
  · rw [hbegin] at h
    cases h
    exact .inr (.inr (.inl rfl))
  · rw [hbegin] at h ⊢
    have howned : (e.registry.modify path fun r => r.withWriting true).owned? path s.id =
        some (s.withWriting true) := by
      apply Registry.owned?_eq_some_iff.mpr
      rw [Registry.find?_modify, if_pos rfl, hs]
      exact ⟨rfl, rfl⟩
    obtain ⟨r, -, hrest⟩ := takeNext_ended_of_owned (p := ⟨path, s.id, none, none⟩) howned h
    exact .inr (.inr (.inr ⟨r, hrest⟩))

end Engine

namespace Course

theorem find?_beginMany_of_idle {p : String} {r : Record} (hidle : r.Idle) (paths : List String)
    {c : Course} (hr : c.engine.registry.find? p = some r) :
    (paths.foldl begin c).engine.registry.find? p = some r := by
  induction paths generalizing c with
  | nil => exact hr
  | cons path rest ih => exact ih (Engine.find?_begin_of_idle hr hidle path)

theorem mem_endsBegins {paths : List String} {c : Course} {x : Ending}
    (h : x ∈ c.endsBegins paths) :
    c.nextPump ≤ x.number ∧
      (x.wroteOut = true → ∃ r, (paths.foldl begin c).engine.AtRest x.path x.result r) := by
  induction paths generalizing c with
  | nil => cases h
  | cons path rest ih =>
    rcases List.mem_append.mp h with hfirst | hrest
    · obtain ⟨hnumber, rfl, hstate⟩ := mem_ending hfirst
      refine ⟨hnumber.ge, ?_⟩
      intro hout
      obtain hresult | hresult | hresult | ⟨r, hr, hidle, htells⟩ := Engine.begin_ended hstate
      · simp [Ending.wroteOut, hresult] at hout
      · simp [Ending.wroteOut, hresult] at hout
      · simp [Ending.wroteOut, hresult] at hout
      · exact ⟨r, find?_beginMany_of_idle hidle rest hr, hidle, htells⟩
    · obtain ⟨hnumber, hout⟩ := ih hrest
      exact ⟨Nat.le_of_succ_le hnumber, hout⟩

/-- A pump that ends with a move was under way, and the delivery of its fragment has ended; or it has
only begun. -/
theorem ends_cases {c : Course} {m : Move} {x : Ending} (h : x ∈ c.ends m) :
    (∃ u disk result, c.find? x.number = some u ∧ x.path = u.flight.pump.path ∧
      c.step m = (c.withDisk disk).land u result ∧
      ((c.withDisk disk).engine.land u.flight result).2 = .ended x.result) ∨
    (c.nextPump ≤ x.number ∧
      (x.wroteOut = true → ∃ r, (c.step m).engine.AtRest x.path x.result r)) := by
  cases m with
  | submit path f =>
    right
    simp only [ends, step] at h ⊢
    cases haccept : c.accept path f with
    | none => simp [haccept] at h
    | some c' =>
      rw [haccept] at h
      have hbegins : x ∈ c'.endsBegins [path] := List.mem_append_left _ h
      have hnext : c'.nextPump = c.nextPump := by
        unfold accept at haccept
        split at haccept <;> cases haccept
        rfl
      rw [← hnext]
      exact mem_endsBegins hbegins
  | pump path =>
    right
    have hbegins : x ∈ c.endsBegins [path] := List.mem_append_left _ h
    exact mem_endsBegins hbegins
  | pumpPending => exact .inr (mem_endsBegins h)
  | turn n =>
    left
    simp only [ends, step] at h ⊢
    cases hfind : c.find? n with
    | none => simp [hfind] at h
    | some u =>
      rw [hfind, Option.elim_some] at h
      obtain ⟨next, -, -, hends⟩ | ⟨result, -, hturn, hends⟩ := c.turn_cases u
      · rw [hends] at h
        cases h
      · rw [hends] at h
        obtain ⟨hnumber, hpath, hstate⟩ := mem_ending h
        rw [hnumber, number_of_find? hfind]
        exact ⟨u, _, result, hfind, hpath, hturn, hstate⟩
  | fault n fault =>
    left
    simp only [ends, step] at h ⊢
    cases hfind : c.find? n with
    | none => simp [hfind] at h
    | some u =>
      rw [hfind] at h
      obtain ⟨hnumber, hpath, hstate⟩ := mem_ending h
      rw [hnumber, number_of_find? hfind]
      exact ⟨u, u.effect c.engine fault, .error fault.cause, hfind, hpath, rfl, hstate⟩
  | _ => cases h

end Course

end ResumableUpload
