import ResumableUpload.Proofs.Engine.Steps
import Mathlib.Algebra.Order.BigOperators.Group.List
import Mathlib.Algebra.Order.Ring.Nat
import Mathlib.Data.List.Infix

/-
  Turns — pumps reach their end

  A pump that is run to its end, and pumps that run side by side, are given a
  number of steps beforehand. The number is enough: each step of a pump takes a
  fragment off its queue, each turn of a lane leaves it fewer operations, and
  no step of another adds to them.

  What is held:
    1. `waiting` — the fragments that wait for a registration.

  What is proved:
    1. `waiting_land`, `waiting_of_land` — what the end of a delivery does to
       the queues: no queue grows, and a pump that goes on took the oldest.
    2. `drive_eq` — a pump run to its end takes one step, and is run to its end.
    3. `rounds_end` — after its rounds every lane has ended.
-/

namespace ResumableUpload

theorem Registry.owned?_modify (g : Registry) (path q : String) (id : UploadId)
    (change : Record → Record) (keeps : ∀ r, (change r).path = r.path)
    (hid : ∀ r, (change r).id = r.id) :
    (g.modify path change keeps).owned? q id =
      if q = path then (g.owned? q id).map change else g.owned? q id := by
  unfold owned?
  rw [find?_modify]
  split
  · cases g.find? q with
    | none => rfl
    | some r =>
      simp only [Option.map_some, Option.filter_some, hid]
      split <;> rfl
  · rfl

namespace Delivery

theorem left_pos (f : Fragment) (x : Delivery) : 0 < x.left f := by
  cases x <;> exact Nat.add_pos_left (by decide) _

theorem left_start_le (w : Option FileWriter) (f : Fragment) : (start w).left f ≤ most f := by
  cases w <;> exact Nat.add_le_add_right (by decide) _

end Delivery

namespace Engine

/-- The fragments that wait for a registration, the oldest first. -/
def waiting (e : Engine) (path : String) (id : UploadId) : List Fragment :=
  (e.registry.owned? path id).elim [] fun r => r.queue.toList

theorem waitingBehind_eq (e : Engine) (flight : Flight) :
    e.waitingBehind flight = (e.waiting flight.pump.path flight.pump.id).length := by
  unfold waitingBehind waiting
  cases e.registry.owned? flight.pump.path flight.pump.id with
  | none => rfl
  | some r => exact r.queue.size_eq

theorem operationsBehind_eq (e : Engine) (flight : Flight) :
    e.operationsBehind flight =
      ((e.waiting flight.pump.path flight.pump.id).map Delivery.most).sum := by
  unfold operationsBehind waiting
  cases e.registry.owned? flight.pump.path flight.pump.id <;> rfl

theorem waiting_of_registry {e e' : Engine} (h : e'.registry = e.registry) :
    e'.waiting = e.waiting := by
  unfold waiting
  rw [h]

theorem waiting_modify (e : Engine) (path : String) (change : Record → Record)
    (keeps : ∀ r, (change r).path = r.path) (hid : ∀ r, (change r).id = r.id)
    (hqueue : ∀ r, (change r).queue = r.queue) : (e.modify path change keeps).waiting = e.waiting := by
  funext q id
  unfold waiting
  rw [show (e.modify path change keeps).registry = e.registry.modify path change keeps from rfl,
    Registry.owned?_modify _ _ _ _ _ keeps hid]
  split
  · cases e.registry.owned? q id with
    | none => rfl
    | some r => simp [hqueue]
  · rfl

theorem waiting_accountWrite (e : Engine) (flight : Flight) (r : Record) (w : FileWriter) :
    (e.accountWrite flight r w).1.waiting = e.waiting := by
  have hsame : (e.modify flight.pump.path fun r => r.recordWrite flight.fragment.range).waiting =
      e.waiting :=
    e.waiting_modify _ (fun r => r.recordWrite _) (fun _ => rfl) (fun _ => rfl) fun _ => rfl
  rw [← hsame]
  exact waiting_of_registry (registry_accountWrite e flight r w)

theorem waiting_withQueue {e : Engine} {path : String} {r : Record} {queue : FragmentQueue}
    (hr : e.registry.find? path = some r) (hsuffix : queue.toList <:+ r.queue.toList) (q : String)
    (id : UploadId) :
    (e.modify path fun r => r.withQueue queue).waiting q id <:+ e.waiting q id := by
  have howned : (e.registry.modify path fun r => r.withQueue queue).owned? q id =
      if q = path then (e.registry.owned? q id).map fun r => r.withQueue queue
      else e.registry.owned? q id :=
    e.registry.owned?_modify path q id (fun r => r.withQueue queue) (fun _ => rfl) fun _ => rfl
  show (((e.registry.modify path fun r => r.withQueue queue).owned? q id).elim [] fun r =>
    r.queue.toList) <:+ (e.registry.owned? q id).elim [] fun r => r.queue.toList
  rw [howned]
  split
  · rename_i hq
    subst hq
    cases hs : e.registry.owned? q id with
    | none => exact List.suffix_rfl
    | some s =>
      obtain ⟨hfind, -⟩ := Registry.owned?_eq_some_iff.mp hs
      obtain rfl : s = r := Option.some.inj (hfind.symm.trans hr)
      exact hsuffix
  · exact List.suffix_rfl

theorem waiting_takeNext (e : Engine) (p : Pump) (q : String) (id : UploadId) :
    (e.takeNext p).1.waiting q id <:+ e.waiting q id := by
  cases hr : e.registry.owned? p.path p.id with
  | none =>
    simp only [takeNext, hr]
    exact List.suffix_rfl
  | some r =>
    cases hpop : r.queue.pop? with
    | some x =>
      obtain ⟨f, queue⟩ := x
      rw [takeNext_of_pop? hr hpop]
      apply waiting_withQueue (Registry.owned?_eq_some_iff.mp hr).1
      rw [FragmentQueue.toList_of_pop? hpop]
      exact List.suffix_cons f _
    | none =>
      have hsame : (e.modify p.path fun r => r.withWriting false).waiting = e.waiting :=
        e.waiting_modify _ (fun r => r.withWriting false) (fun _ => rfl) (fun _ => rfl) fun _ => rfl
      have hend : (e.takeNext p).1.waiting = e.waiting := by
        rw [← hsame]
        apply waiting_of_registry
        simp only [takeNext, hr, hpop]
        split <;> rfl
      rw [hend]

theorem waiting_of_takeNext {e e' : Engine} {p : Pump} {flight : Flight}
    (h : e.takeNext p = (e', .inFlight flight)) :
    flight.pump = p ∧ e.waiting p.path p.id = flight.fragment :: e'.waiting p.path p.id := by
  cases hr : e.registry.owned? p.path p.id with
  | none =>
    simp only [takeNext, hr] at h
    cases h
  | some r =>
    cases hpop : r.queue.pop? with
    | some x =>
      obtain ⟨f, queue⟩ := x
      rw [takeNext_of_pop? hr hpop] at h
      cases h
      have howned : (e.registry.modify p.path fun r => r.withQueue queue).owned? p.path p.id =
          some (r.withQueue queue) := by
        rw [e.registry.owned?_modify p.path p.path p.id (fun r => r.withQueue queue) (fun _ => rfl)
          fun _ => rfl, if_pos rfl, hr]
        rfl
      refine ⟨rfl, ?_⟩
      show (e.registry.owned? p.path p.id).elim [] _ =
        f :: ((e.registry.modify p.path fun r => r.withQueue queue).owned? p.path p.id).elim [] _
      rw [howned, hr]
      exact FragmentQueue.toList_of_pop? hpop
    | none =>
      simp only [takeNext, hr, hpop] at h
      split at h <;> cases h

/-- The end of a delivery lets no queue grow. -/
theorem waiting_land (e : Engine) (flight : Flight) (result : Except OsError FileWriter) (q : String)
    (id : UploadId) : (e.land flight result).1.waiting q id <:+ e.waiting q id := by
  unfold land
  cases e.registry.owned? flight.pump.path flight.pump.id with
  | none => exact List.suffix_rfl
  | some r =>
    cases result with
    | error cause => exact waiting_takeNext (e.accountFailure flight cause).1 _ q id
    | ok w =>
      rw [← waiting_accountWrite e flight r w]
      exact waiting_takeNext (e.accountWrite flight r w).1 _ q id

/-- A pump that goes on after a delivery took the oldest fragment. -/
theorem waiting_of_land {e e' : Engine} {flight next : Flight} {result : Except OsError FileWriter}
    (h : e.land flight result = (e', .inFlight next)) :
    next.pump.path = flight.pump.path ∧ next.pump.id = flight.pump.id ∧
      e.waiting flight.pump.path flight.pump.id =
        next.fragment :: e'.waiting flight.pump.path flight.pump.id := by
  unfold land at h
  cases hr : e.registry.owned? flight.pump.path flight.pump.id with
  | none =>
    simp only [hr] at h
    cases h
  | some r =>
    simp only [hr] at h
    cases result with
    | error cause =>
      obtain ⟨hpump, hwaiting⟩ := waiting_of_takeNext h
      exact ⟨by rw [hpump]; rfl, by rw [hpump]; rfl, hwaiting⟩
    | ok w =>
      obtain ⟨hpump, hwaiting⟩ := waiting_of_takeNext h
      rw [waiting_accountWrite] at hwaiting
      exact ⟨by rw [hpump]; rfl, by rw [hpump]; rfl, hwaiting⟩

/-! ## A pump run to its end -/

theorem waitingBehind_of_resume {e e' : Engine} {flight next : Flight}
    (h : e.resume flight = (e', .inFlight next)) :
    e.waitingBehind flight = e'.waitingBehind next + 1 := by
  obtain ⟨hpath, hid, hwaiting⟩ := waiting_of_land h
  rw [waitingBehind_eq, waitingBehind_eq, hpath, hid]
  exact congrArg List.length hwaiting

/-- A pump run to its end takes one step, and is run to its end from there. -/
theorem drive_eq (e : Engine) (flight : Flight) :
    e.drive flight = match e.resume flight with
      | (e, .ended result) => (e, result)
      | (e, .inFlight next) => e.drive next := by
  rw [drive]
  cases h : e.resume flight with
  | mk e' state =>
    cases state with
    | ended result => cases e.waitingBehind flight <;> rw [driveFor, h]
    | inFlight next =>
      rw [waitingBehind_of_resume h, driveFor, h]
      rfl

/-! ## Pumps side by side -/

theorem turn_of_onward {e : Engine} {flight : Flight} {delivery next : Delivery} {disk : Disk}
    (h : delivery.advance e.storage flight.pump.path flight.fragment e.disk = (disk, .onward next)) :
    e.turn (.underway flight delivery) = ({ e with disk }, .underway flight next) := by
  simp only [turn, h]

theorem turn_of_ended {e : Engine} {flight : Flight} {delivery : Delivery} {disk : Disk}
    {result : Except OsError FileWriter}
    (h : delivery.advance e.storage flight.pump.path flight.fragment e.disk = (disk, .ended result)) :
    e.turn (.underway flight delivery) =
      (({ e with disk }.land flight result).1, .of ({ e with disk }.land flight result).2) := by
  simp only [turn, h]

theorem operationsBehind_le {e e' : Engine} {flight : Flight}
    (h : e'.waiting flight.pump.path flight.pump.id <:+ e.waiting flight.pump.path flight.pump.id) :
    e'.operationsBehind flight ≤ e.operationsBehind flight := by
  rw [operationsBehind_eq, operationsBehind_eq]
  apply (h.sublist.map Delivery.most).sum_le_sum
  simp

theorem waiting_turn (e : Engine) (lane : Lane) (q : String) (id : UploadId) :
    (e.turn lane).1.waiting q id <:+ e.waiting q id := by
  cases lane with
  | ended result => exact List.suffix_rfl
  | underway flight delivery =>
    cases h : delivery.advance e.storage flight.pump.path flight.fragment e.disk with
    | mk disk step =>
      cases step with
      | onward next =>
        rw [turn_of_onward h]
        exact List.suffix_rfl
      | ended result =>
        rw [turn_of_ended h]
        exact waiting_land { e with disk } flight result q id

theorem turnsLeft_le {e e' : Engine} (h : ∀ q id, e'.waiting q id <:+ e.waiting q id) (lane : Lane) :
    e'.turnsLeft lane ≤ e.turnsLeft lane := by
  cases lane with
  | ended result => exact Nat.le_refl _
  | underway flight delivery => exact Nat.add_le_add_left (operationsBehind_le (h _ _)) _

theorem turnsLeft_land (e : Engine) (flight : Flight) (result : Except OsError FileWriter) :
    (e.land flight result).1.turnsLeft (.of (e.land flight result).2) ≤ e.operationsBehind flight := by
  cases hland : e.land flight result with
  | mk e' state =>
    cases state with
    | ended result => exact Nat.zero_le _
    | inFlight next =>
      -- the fragment that was taken has at most the operations it was counted with
      obtain ⟨hpath, hid, hwaiting⟩ := waiting_of_land hland
      have hsplit : e.operationsBehind flight =
          Delivery.most next.fragment + e'.operationsBehind next := by
        rw [operationsBehind_eq, operationsBehind_eq, hpath, hid, ← List.sum_cons, ← List.map_cons,
          ← hwaiting]
      rw [hsplit]
      exact Nat.add_le_add_right (Delivery.left_start_le next.pump.writer next.fragment) _

theorem turnsLeft_turn (e : Engine) (lane : Lane) :
    (e.turn lane).1.turnsLeft (e.turn lane).2 ≤ e.turnsLeft lane - 1 := by
  cases lane with
  | ended result => exact Nat.zero_le _
  | underway flight delivery =>
    have hleft : 0 < delivery.left flight.fragment := Delivery.left_pos flight.fragment delivery
    cases h : delivery.advance e.storage flight.pump.path flight.fragment e.disk with
    | mk disk step =>
      cases step with
      | onward next =>
        have hless := Delivery.left_of_onward h
        rw [turn_of_onward h]
        show next.left flight.fragment + e.operationsBehind flight ≤
          delivery.left flight.fragment + e.operationsBehind flight - 1
        omega
      | ended result =>
        rw [turn_of_ended h]
        have hland := turnsLeft_land { e with disk } flight result
        show _ ≤ delivery.left flight.fragment + e.operationsBehind flight - 1
        exact hland.trans (by show e.operationsBehind flight ≤ _; omega)

theorem turnsLeft_round_le (e : Engine) (lanes : List (String × Lane)) (other : Lane) :
    (e.round lanes).1.turnsLeft other ≤ e.turnsLeft other := by
  induction lanes generalizing e with
  | nil => exact Nat.le_refl _
  | cons lane rest ih => exact (ih (e.turn lane.2).1).trans (turnsLeft_le (waiting_turn e lane.2) other)

theorem turnsLeft_round {e : Engine} {lanes : List (String × Lane)} {count : Nat}
    (h : ∀ lane ∈ lanes, e.turnsLeft lane.2 ≤ count + 1) :
    ∀ lane ∈ (e.round lanes).2, (e.round lanes).1.turnsLeft lane.2 ≤ count := by
  induction lanes generalizing e with
  | nil => simp [round]
  | cons lane rest ih =>
    intro l hl
    rcases List.mem_cons.mp hl with rfl | hl
    · calc (e.round (lane :: rest)).1.turnsLeft (e.turn lane.2).2
        _ ≤ (e.turn lane.2).1.turnsLeft (e.turn lane.2).2 := turnsLeft_round_le _ rest _
        _ ≤ e.turnsLeft lane.2 - 1 := turnsLeft_turn e lane.2
        _ ≤ count := by
          have := h lane List.mem_cons_self
          omega
    · apply ih _ l hl
      intro m hm
      exact (turnsLeft_le (waiting_turn e lane.2) m.2).trans (h m (List.mem_cons_of_mem _ hm))

theorem roundsFor_end {e : Engine} {lanes : List (String × Lane)} {count : Nat}
    (h : ∀ lane ∈ lanes, e.turnsLeft lane.2 ≤ count) :
    ∀ lane ∈ (roundsFor count e lanes).2, ∃ result, lane.2 = .ended result := by
  induction count generalizing e lanes with
  | zero =>
    rintro ⟨path, lane⟩ hlane
    cases lane with
    | ended result => exact ⟨result, rfl⟩
    | underway flight delivery =>
      have hnone : delivery.left flight.fragment + e.operationsBehind flight ≤ 0 := h _ hlane
      have hleft := Delivery.left_pos flight.fragment delivery
      omega
  | succ count ih => exact ih (turnsLeft_round h)

theorem le_foldr_max {α : Type} (f : α → Nat) {l : List α} {x : α} (hx : x ∈ l) :
    f x ≤ l.foldr (fun y count => max (f y) count) 0 := by
  induction l with
  | nil => cases hx
  | cons y rest ih =>
    rw [List.foldr_cons]
    rcases List.mem_cons.mp hx with rfl | hx
    · exact Nat.le_max_left _ _
    · exact (ih hx).trans (Nat.le_max_right _ _)

/-- The rounds that are made let every lane end. -/
theorem rounds_end (e : Engine) (lanes : List (String × Lane)) :
    ∃ count, (e.rounds lanes).1 = (roundsFor count e lanes).1 ∧
      (roundsFor count e lanes).2 = (e.rounds lanes).2.map fun x => (x.1, .ended x.2) := by
  let count := lanes.foldr (fun lane count => max (e.turnsLeft lane.2) count) 0
  have hend : ∀ lane ∈ (roundsFor count e lanes).2, ∃ result, lane.2 = .ended result :=
    roundsFor_end fun _ hlane => le_foldr_max (fun lane => e.turnsLeft lane.2) hlane
  refine ⟨count, rfl, ?_⟩
  show _ = List.map _ (List.map _ _)
  rw [List.map_map]
  refine (List.map_id _).symm.trans (List.map_congr_left ?_)
  rintro ⟨path, lane⟩ hlane
  obtain ⟨result, rfl⟩ := hend _ hlane
  rfl

end Engine

end ResumableUpload
