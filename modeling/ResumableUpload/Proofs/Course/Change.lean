import ResumableUpload.Proofs.Course.Later
import Mathlib.Logic.Relation

/-
  Change — what a move can do to the uploads

  Whatever happens to an engine, its uploads change in a few ways only: an
  upload is registered or removed, a fragment is accepted, a pump is given a
  slot, takes a fragment, settles it, gives the slot back. Each of them touches
  one record and one pump. A move is a chain of such changes, so what every
  change keeps is kept by every run.

  What is held:
    1. `View` — the records, the hands of the pumps, and the history.
    2. `Change` — the ways in which a view changes.

  What is proved:
    1. `step_changes`, `run_changes` — a move, and a run, is a chain of changes;
       `keep_run` — what every change keeps is kept by every run.
-/

namespace ResumableUpload

/-- The hand of a pump that holds a slot: the registration it serves, and its fragment. -/
structure Hand where
  number : Nat
  path : String
  id : UploadId
  fragment : Option Fragment

/-- The hand of a pump under way. -/
def Underway.hand (u : Underway) : Hand :=
  ⟨u.number, u.flight.pump.path, u.flight.pump.id, some u.flight.fragment⟩

/-- The uploads, as far as pumps and history tell them. -/
structure View where
  registry : Registry
  hands : List Hand
  /-- The number of the next pump. -/
  nextPump : Nat
  history : History

/-- The view of a course. -/
def Course.view (c : Course) : View :=
  ⟨c.engine.registry, c.live.map Underway.hand, c.nextPump, c.history⟩

/-- The ways in which the uploads change, where `ceiling` pumps may write at once. -/
inductive Change (ceiling : Nat) (v : View) : View → Prop where
  | register {path clientPath : String} {size : Nat} {owner : Int} {next : Registry} {t : Ticket}
      (h : v.registry.register path size owner clientPath = .ok (next, t)) :
      Change ceiling v { v with
        registry := next
        history := v.history.noting t.id (.registered :: t.news.map .told) }
  | accept {path : String} {r : Record} {f : Fragment} (hr : v.registry.find? path = some r)
      (hfit : f.stop ≤ r.size) :
      Change ceiling v { v with
        registry := v.registry.modify path fun r => r.enqueue f
        history := v.history.noting r.id [.accepted f] }
  | grant {path : String} {r : Record} (hr : v.registry.find? path = some r)
      (hfree : r.writing = false) (hroom : v.registry.writingCount < ceiling) :
      Change ceiling v { v with
        registry := v.registry.modify path fun r => r.withWriting true
        hands := ⟨v.nextPump, path, r.id, none⟩ :: v.hands
        nextPump := v.nextPump + 1 }
  /-- A pump takes the oldest fragment. -/
  | take {n : Nat} {path : String} {id : UploadId} {r : Record} {f : Fragment}
      {queue : FragmentQueue} {rest : List Hand} (hh : v.hands = ⟨n, path, id, none⟩ :: rest)
      (hr : v.registry.owned? path id = some r) (hpop : r.queue.pop? = some (f, queue)) :
      Change ceiling v { v with
        registry := v.registry.modify path fun r => r.withQueue queue
        hands := ⟨n, path, id, some f⟩ :: rest }
  /-- A pump finds the queue empty, and gives its slot back. -/
  | release {n : Nat} {path : String} {id : UploadId} {r : Record} {rest : List Hand}
      (hh : v.hands = ⟨n, path, id, none⟩ :: rest) (hr : v.registry.owned? path id = some r)
      (hempty : r.queue.pop? = none) :
      Change ceiling v { v with
        registry := v.registry.modify path fun r => r.withWriting false
        hands := rest }
  | write {n : Nat} {path : String} {id : UploadId} {r : Record} {f : Fragment} {rest : List Hand}
      (hh : v.hands = ⟨n, path, id, some f⟩ :: rest) (hr : v.registry.owned? path id = some r) :
      Change ceiling v { v with
        registry := v.registry.modify path fun r => r.recordWrite f.range
        hands := ⟨n, path, id, none⟩ :: rest
        history := v.history.noting id (.settled ⟨n, f, .written⟩ :: (r.news f.range).map .told) }
  | fail {n : Nat} {path : String} {id : UploadId} {r : Record} {f : Fragment} {rest : List Hand}
      (cause : OsError) (hh : v.hands = ⟨n, path, id, some f⟩ :: rest)
      (hr : v.registry.owned? path id = some r) :
      Change ceiling v { v with
        hands := ⟨n, path, id, none⟩ :: rest
        history := v.history.noting id
          [.settled ⟨n, f, .failed⟩, .told (.failed path f.position f.len cause.message)] }
  /-- A pump is dropped, and its slot given back. -/
  | abandon {n : Nat} {path : String} {id : UploadId} {r : Record} {f : Fragment} {rest : List Hand}
      (hh : v.hands = ⟨n, path, id, some f⟩ :: rest) (hr : v.registry.owned? path id = some r) :
      Change ceiling v { v with
        registry := v.registry.modify path fun r => r.withWriting false
        hands := rest
        history := v.history.noting id [.settled ⟨n, f, .abandoned⟩] }
  /-- A pump is dropped whose upload is gone. -/
  | stray {n : Nat} {path : String} {id : UploadId} {f : Fragment} {rest : List Hand}
      (hh : v.hands = ⟨n, path, id, some f⟩ :: rest) (hr : v.registry.owned? path id = none) :
      Change ceiling v { v with
        hands := rest
        history := v.history.noting id [.settled ⟨n, f, .abandoned⟩] }
  /-- A pump finds its upload gone, and ends. -/
  | leave {n : Nat} {path : String} {id : UploadId} {x : Option Fragment} {rest : List Hand}
      (hh : v.hands = ⟨n, path, id, x⟩ :: rest) (hr : v.registry.owned? path id = none) :
      Change ceiling v { v with hands := rest }
  | remove {path : String} {r : Record} (hr : v.registry.find? path = some r) :
      Change ceiling v { v with
        registry := v.registry.remove path
        history := v.history.noting r.id [.told (.removed path)] }
  /-- Neither the order of the hands nor an unused number means anything. -/
  | arrange {hands : List Hand} {n : Nat} (hh : v.hands.Perm hands) (hn : v.nextPump ≤ n) :
      Change ceiling v { v with hands := hands, nextPump := n }

/-- A chain of changes. -/
abbrev Changes (ceiling : Nat) : View → View → Prop := Relation.ReflTransGen (Change ceiling)

/-! ## What the steps of an engine do -/

namespace Engine

theorem takeNext_changes (ceiling : Nat) (e : Engine) (p : Pump) (n k : Nat) (rest : List Hand)
    (h : History) :
    Changes ceiling ⟨e.registry, ⟨n, p.path, p.id, none⟩ :: rest, k, h⟩
      ⟨(e.takeNext p).1.registry, (Course.standing n (e.takeNext p).2).map Underway.hand ++ rest, k,
        h⟩ := by
  unfold takeNext
  split
  · rename_i hr
    exact .single (.leave rfl hr)
  · rename_i r hr
    split
    · rename_i f queue hpop
      exact .single (.take rfl hr hpop)
    · rename_i hempty
      split <;> exact .single (.release rfl hr hempty)

theorem begin_changes (e : Engine) (path : String) (n : Nat) (hands : List Hand) (h : History) :
    Changes e.slots.ceiling ⟨e.registry, hands, n, h⟩
      ⟨(e.begin path).1.registry, (Course.standing n (e.begin path).2).map Underway.hand ++ hands,
        n + 1, h⟩ := by
  have hskip : Change e.slots.ceiling ⟨e.registry, hands, n, h⟩ ⟨e.registry, hands, n + 1, h⟩ :=
    .arrange (.refl hands) (Nat.le_succ n)
  obtain ⟨-, hbegin⟩ | ⟨r, hr, ⟨-, hbegin⟩ | ⟨-, hbegin⟩ | ⟨hfree, hroom, hbegin⟩⟩ :=
    e.begin_cases path
  · rw [hbegin]
    exact .single hskip
  · rw [hbegin]
    exact .single hskip
  · rw [hbegin]
    exact .single hskip
  · rw [hbegin]
    refine Relation.ReflTransGen.head (.grant hr hfree hroom) ?_
    exact takeNext_changes _ (e.modify path fun r => r.withWriting true) ⟨path, r.id, none, none⟩ n
      _ _ _

theorem land_changes (ceiling : Nat) (e : Engine) (flight : Flight)
    (result : Except OsError FileWriter) (n k : Nat) (rest : List Hand) (h : History) :
    Changes ceiling
      ⟨e.registry, ⟨n, flight.pump.path, flight.pump.id, some flight.fragment⟩ :: rest, k, h⟩
      ⟨(e.land flight result).1.registry,
        (Course.standing n (e.land flight result).2).map Underway.hand ++ rest, k,
        h.noting flight.pump.id (e.landed n flight result ++
          (e.news (e.land flight result).1).map .told)⟩ := by
  rw [news_of_sent (sent_land e flight result)]
  unfold land landed tidings
  cases hr : e.registry.owned? flight.pump.path flight.pump.id with
  | none =>
    simp only [Option.isSome_none, Bool.false_eq_true, if_false, List.map_nil, List.append_nil,
      History.noting_nil]
    exact .single (.leave rfl hr)
  | some r =>
    simp only [Option.isSome_some, if_true, List.cons_append, List.nil_append]
    cases result with
    | error cause =>
      apply Relation.ReflTransGen.head (.fail cause rfl hr)
      exact takeNext_changes ceiling (e.accountFailure flight cause).1
        (e.accountFailure flight cause).2 n k rest _
    | ok w =>
      apply Relation.ReflTransGen.head (.write rfl hr)
      have htake := takeNext_changes ceiling (e.accountWrite flight r w).1
        (e.accountWrite flight r w).2 n k rest
        (h.noting flight.pump.id (.settled ⟨n, flight.fragment, .written⟩ ::
          (r.news flight.fragment.range).map .told))
      rw [registry_accountWrite] at htake
      exact htake

theorem abandon_changes (ceiling : Nat) (e : Engine) (flight : Flight) (n k : Nat)
    (rest : List Hand) (h : History) :
    Changes ceiling
      ⟨e.registry, ⟨n, flight.pump.path, flight.pump.id, some flight.fragment⟩ :: rest, k, h⟩
      ⟨(e.abandon flight).registry, rest, k,
        h.noting flight.pump.id [.settled ⟨n, flight.fragment, .abandoned⟩]⟩ := by
  unfold abandon
  cases hr : e.registry.owned? flight.pump.path flight.pump.id with
  | none => exact .single (.stray rfl hr)
  | some r => exact .single (.abandon rfl hr)

end Engine

/-! ## What a move does -/

namespace Course

theorem perm_of_find? {c : Course} {n : Nat} {u : Underway} (h : c.find? n = some u) :
    c.live.Perm (u :: without n c.live) := by
  obtain ⟨hn, as, bs, hlive, has⟩ := List.find?_eq_some_iff_append.mp h
  have hnone : ∀ x ∈ as, ¬ (decide (x.number = n)) = true := by
    intro x hx
    simpa using has x hx
  have hfront : (u :: bs).eraseP (fun x => x.number = n) = bs := List.eraseP_cons_of_pos hn
  rw [without, hlive, List.eraseP_append_right _ hnone, hfront]
  exact List.perm_middle

theorem number_of_find? {c : Course} {n : Nat} {u : Underway} (h : c.find? n = some u) :
    u.number = n := by
  have := List.find?_some h
  exact of_decide_eq_true this

theorem front_of_find? {c : Course} {n : Nat} {u : Underway} (h : c.find? n = some u) (ceiling : Nat) :
    Change ceiling c.view
      { c.view with hands := u.hand :: (without n c.live).map Underway.hand } :=
  .arrange ((perm_of_find? h).map Underway.hand) (Nat.le_refl _)

theorem begin_changes (c : Course) (path : String) :
    Changes c.engine.slots.ceiling c.view (c.begin path).view := by
  have h := Engine.begin_changes c.engine path c.nextPump (c.live.map Underway.hand) c.history
  unfold Course.begin view
  dsimp only
  rw [List.map_append]
  exact h

theorem land_changes {c : Course} {n : Nat} {u : Underway} (h : c.find? n = some u)
    (ceiling : Nat) (result : Except OsError FileWriter) :
    Changes ceiling c.view (c.land u result).view := by
  obtain rfl := number_of_find? h
  refine Relation.ReflTransGen.head (front_of_find? h ceiling) ?_
  have hland := Engine.land_changes ceiling c.engine u.flight result u.number c.nextPump
    ((without u.number c.live).map Underway.hand) c.history
  unfold Course.land view onward
  dsimp only
  rw [List.map_append]
  exact hland

theorem abandon_changes {c : Course} {n : Nat} {u : Underway} (h : c.find? n = some u)
    (ceiling : Nat) : Changes ceiling c.view (c.abandon u).view := by
  obtain rfl := number_of_find? h
  refine Relation.ReflTransGen.head (front_of_find? h ceiling) ?_
  have hnews : c.engine.news (c.engine.abandon u.flight) = [] :=
    Engine.news_of_sent (by rw [Engine.feed_abandon, List.append_nil])
  unfold Course.abandon view onward
  dsimp only
  rw [hnews]
  exact Engine.abandon_changes ceiling c.engine u.flight u.number c.nextPump _ c.history

theorem turn_changes {c : Course} {n : Nat} {u : Underway} (h : c.find? n = some u)
    (ceiling : Nat) : Changes ceiling c.view (c.turn u).view := by
  unfold turn
  split
  · obtain rfl := number_of_find? h
    exact .single (front_of_find? h ceiling)
  · rename_i disk result _
    exact land_changes (c := c.withDisk disk) h ceiling result

theorem accept_changes {c c' : Course} {path : String} {f : Fragment}
    (h : c.accept path f = some c') (ceiling : Nat) : Changes ceiling c.view c'.view := by
  unfold accept at h
  split at h
  · rename_i e r he hr
    obtain ⟨s, notice, hs, hfit, rfl⟩ := Engine.accept_eq_ok he
    rw [hr] at hs
    cases hs
    cases h
    have hnews : c.engine.news ((c.engine.modify path fun r => r.enqueue f).note notice) = [] :=
      Engine.news_of_sent (List.append_nil _).symm
    unfold view onward
    dsimp only
    rw [hnews]
    exact .single (.accept hr hfit)
  · cases h

theorem registered_changes {ε : Type} {c : Course} {x : Except ε (Engine × Ticket)}
    {path clientPath : String} {size : Nat} {owner : Int} (ceiling : Nat)
    (h : ∀ e t, x = .ok (e, t) → ∃ registry notice,
      c.engine.registry.register path size owner clientPath = .ok (registry, t) ∧
        e = ({ c.engine with registry }.note notice).announceIfEmpty t) :
    Changes ceiling c.view (c.registered x).view := by
  unfold registered
  split
  · exact .refl
  · rename_i e t
    obtain ⟨registry, notice, hreg, rfl⟩ := h e t rfl
    have hnews : c.engine.news (({ c.engine with registry }.note notice).announceIfEmpty t) =
        t.news := Engine.news_of_sent (Engine.sent_announceIfEmpty _ t)
    unfold view onward
    dsimp only
    rw [hnews, Engine.registry_announceIfEmpty]
    exact .single (.register hreg)

theorem removed_changes {c : Course} {path : String} {e : Engine} (ceiling : Nat)
    (hregistry : e.registry = (c.engine.remove path).registry)
    (hfeed : e.feed = (c.engine.remove path).feed) :
    Changes ceiling c.view (c.removed path e).view := by
  unfold removed
  unfold Engine.remove at hregistry hfeed
  split
  · rename_i hr
    simp only [hr] at hregistry
    unfold view
    dsimp only
    rw [hregistry]
  · rename_i r hr
    simp only [hr] at hregistry hfeed
    have hnews : c.engine.news e = [.removed path] := Engine.news_of_sent (by rw [hfeed]; rfl)
    unfold view onward
    dsimp only
    rw [hnews, hregistry]
    exact .single (.remove hr)

theorem beginMany_changes (paths : List String) (c : Course) :
    Changes c.engine.slots.ceiling c.view (paths.foldl begin c).view := by
  induction paths generalizing c with
  | nil => exact .refl
  | cons path rest ih =>
    have hslots : (c.begin path).engine.slots = c.engine.slots :=
      (Engine.later_begin c.engine path).slots
    have hrest := ih (c.begin path)
    rw [hslots] at hrest
    exact (begin_changes c path).trans hrest

/-- A move is a chain of changes. -/
theorem step_changes (c : Course) (m : Move) :
    Changes c.engine.slots.ceiling c.view (c.step m).view := by
  cases m with
  | init path size owner clientPath => exact registered_changes _ fun _ _ => Engine.init_eq_ok
  | initWithin quota path size owner clientPath =>
    exact registered_changes _ fun _ _ => Engine.initWithin_eq_ok
  | submit path f =>
    simp only [step]
    cases h : c.accept path f with
    | none => exact .refl
    | some c' =>
      have hbegin := begin_changes c' path
      rw [(later_accept h).engine.slots] at hbegin
      exact (accept_changes h _).trans hbegin
  | pump path => exact begin_changes c path
  | pumpPending => exact beginMany_changes _ c
  | turn n =>
    simp only [step]
    cases h : c.find? n with
    | none => exact .refl
    | some u => exact turn_changes h _
  | fault n fault =>
    simp only [step]
    cases h : c.find? n with
    | none => exact .refl
    | some u =>
      exact land_changes (c := c.withDisk (u.effect c.engine fault)) h _ (.error fault.cause)
  | drop n =>
    simp only [step]
    cases h : c.find? n with
    | none => exact .refl
    | some u => exact abandon_changes h _
  | late n fault =>
    simp only [step]
    cases c.owing? n <;> exact .refl
  | remove path => exact removed_changes _ rfl rfl
  | discard path => exact removed_changes _ rfl rfl
  | outside disk => exact .refl
  | listen cursors => exact .refl

theorem run_changes (c : Course) (moves : List Move) :
    Changes c.engine.slots.ceiling c.view (c.run moves).view := by
  induction moves generalizing c with
  | nil => exact .refl
  | cons m rest ih =>
    have hrest := ih (c.step m)
    rw [(later_step c m).engine.slots] at hrest
    exact (step_changes c m).trans hrest

/-- What every change keeps is kept by every run. -/
theorem keep_run {P : View → Prop} {c : Course}
    (hkeep : ∀ v w, Change c.engine.slots.ceiling v w → P v → P w) (hstart : P c.view)
    (moves : List Move) : P (c.run moves).view := by
  have hchain := run_changes c moves
  generalize (c.run moves).view = w at hchain ⊢
  induction hchain with
  | refl => exact hstart
  | tail _ hchange ih => exact hkeep _ _ hchange ih

end Course

end ResumableUpload
