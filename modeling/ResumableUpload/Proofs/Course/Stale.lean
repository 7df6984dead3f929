import ResumableUpload.Proofs.Course.Endings
import ResumableUpload.Proofs.Course.Lasting
import ResumableUpload.Proofs.Course.Stirs

/-
  Stale — a pump whose upload is gone

  An upload may be removed while its pump waits for the disk, and its path may
  be registered again before the disk answers. The pump still knows the number
  of the registration it served, and that number is nobody's. So whatever it
  finds at its path is not its own: it ends, and takes nothing with it.

  What is held:
    1. `Stale` — the registration is gone, and the pump has the fragment in hand
       that it had then.
    2. `Course.Astray` — what a move of such a pump does.

  What is proved:
    1. `find?_step` — a pump goes on by its own moves only.
    2. `stale_change` — a pump that is stale stays so, whatever is registered.
    3. `astray_of_stale` — its moves touch no record and tell nothing.
    4. `stale_pump_touches_nothing` — the same, said of all that may follow a
       removal.
-/

namespace ResumableUpload

/-- The pump that makes a move. -/
def Move.pump? : Move → Option Nat
  | turn n => some n
  | fault n _ => some n
  | drop n => some n
  | _ => none

namespace Course

/-! ## A pump goes on by its own moves -/

theorem find?_without {n k : Nat} (hne : k ≠ n) (live : List Underway) :
    (without k live).find? (fun u => u.number = n) = live.find? fun u => u.number = n := by
  induction live with
  | nil => rfl
  | cons u rest ih =>
    unfold without at ih ⊢
    by_cases hk : u.number = k
    · simp [hk, hne]
    · simp [hk, List.find?_cons, ih]

theorem find?_standing {n k : Nat} (hne : k ≠ n) (state : Pumping) (live : List Underway) :
    (standing k state ++ live).find? (fun u => u.number = n) =
      live.find? fun u => u.number = n := by
  cases state with
  | ended result => rfl
  | inFlight flight => simp [standing, hne]

theorem find?_land {c : Course} {u : Underway} {n : Nat} (hne : u.number ≠ n)
    (result : Except OsError FileWriter) : (c.land u result).find? n = c.find? n :=
  (find?_standing hne _ _).trans (find?_without hne c.live)

theorem find?_turn {c : Course} {u : Underway} {n : Nat} (hne : u.number ≠ n) :
    (c.turn u).find? n = c.find? n := by
  obtain ⟨next, -, hturn, -⟩ | ⟨result, -, hturn, -⟩ := c.turn_cases u
  · rw [hturn, find?, List.find?_cons_of_neg (by simpa using hne)]
    exact find?_without hne c.live
  · rw [hturn]
    exact find?_land (c := c.withDisk _) hne _

theorem find?_beginMany {n : Nat} (paths : List String) {c : Course} (hn : n < c.nextPump) :
    (paths.foldl begin c).find? n = c.find? n := by
  induction paths generalizing c with
  | nil => rfl
  | cons path rest ih =>
    rw [List.foldl_cons, ih (Nat.lt_succ_of_lt hn)]
    exact find?_standing (Nat.ne_of_gt hn) _ _

/-- The moves of the others leave a pump where it stands. -/
theorem find?_step {c : Course} {n : Nat} (hn : n < c.nextPump) {m : Move} (hm : m.pump? ≠ some n) :
    (c.step m).find? n = c.find? n := by
  cases c.stirs m with
  | rests hlive _ => rw [find?, hlive, find?]
  | begins c₀ hlive _ hnext _ hstep =>
    rw [hstep, find?, find?, ← hlive]
    exact find?_standing (Nat.ne_of_gt (hnext ▸ hn)) _ _
  | beginsMany _ hstep =>
    rw [hstep]
    exact find?_beginMany _ hn
  | turns hmove _ hstep =>
    rw [hstep]
    exact find?_turn fun h => hm (hmove ▸ congrArg some h)
  | faults hmove _ hstep =>
    rw [hstep]
    exact find?_land (c := c.withDisk _) (fun h => hm (hmove ▸ congrArg some h)) _
  | drops hmove _ hstep =>
    rw [hstep]
    exact find?_without (fun h => hm (hmove ▸ congrArg some h)) c.live
  | catches _ _ hstep =>
    rw [hstep]
    rfl

theorem step_of_none {c : Course} {n : Nat} (h : c.find? n = none) {m : Move}
    (hm : m.pump? = some n) : c.step m = c := by
  cases m with
  | turn k => cases hm; simp only [step, h, Option.elim]
  | fault k fault => cases hm; simp only [step, h, Option.elim]
  | drop k => cases hm; simp only [step, h, Option.elim]
  | _ => cases hm

end Course

/-! ## A pump that serves nobody -/

/-- The registration that a pump served is gone, and the pump has the fragment in hand that it had
then. -/
structure Stale (x : Hand) (v : View) : Prop extends Gone x.id v where
  number_lt : x.number < v.nextPump
  hand : ∀ y ∈ v.hands, y.number = x.number → y = x

theorem stale_change {x : Hand} {ceiling : Nat} {v w : View} (hc : Change ceiling v w)
    (h : Stale x v) : Stale x w := by
  refine ⟨gone_change hc h.toGone, Nat.lt_of_lt_of_le h.number_lt (nextPump_change hc), ?_⟩
  intro y hy hn
  rcases hand_change hc hy with hmem | ⟨⟨r, hr⟩, hnext | hkey⟩
  · exact h.hand y hmem hn
  · rw [hn] at hnext
    exact absurd hnext (Nat.ne_of_lt h.number_lt)
  · -- the pump would serve an upload that is there
    obtain ⟨z, hz, hzy⟩ := List.mem_map.mp hkey
    obtain ⟨hnumber, -, hid⟩ := by simpa only [Hand.key, Prod.mk.injEq] using hzy
    obtain rfl : z = x := h.hand z hz (hnumber.trans hn)
    rw [← hid, h.owned?] at hr
    cases hr

namespace Engine

theorem land_of_gone {e : Engine} {flight : Flight} (result : Except OsError FileWriter)
    (h : e.registry.owned? flight.pump.path flight.pump.id = none) :
    e.land flight result =
      (e.note (.resultDiscarded flight.pump.path flight.fragment.position),
        .ended (.ok .cancelled)) := by
  simp only [land, h]

theorem abandon_of_gone {e : Engine} {flight : Flight}
    (h : e.registry.owned? flight.pump.path flight.pump.id = none) : e.abandon flight = e := by
  simp only [abandon, h]

end Engine

namespace Course

/-- What a move of a pump does whose upload is gone: no record changes and nothing is told, the disk
sees one operation for the fragment in hand or none, and the pump goes on with that fragment, or it is
dropped, or it ends cancelled. -/
structure Astray (c : Course) (u : Underway) (m : Move) : Prop where
  registry : (c.step m).engine.registry = c.engine.registry
  feed : (c.step m).engine.feed = c.engine.feed
  disk : m = .drop u.number ∧ (c.step m).engine.disk = c.engine.disk ∨
    ∃ fault, (c.step m).engine.disk = u.effect c.engine fault
  outcome :
    (∃ w, (c.step m).find? u.number = some w ∧ w.hand = u.hand ∧
      w.delivery.left u.flight.fragment < u.delivery.left u.flight.fragment ∧ c.ends m = []) ∨
    ((c.step m).find? u.number = none ∧
      (m = .drop u.number ∧ c.ends m = [] ∨
        c.ends m = [⟨u.number, u.flight.pump.path, .ok .cancelled⟩]))

variable {c : Course} {u : Underway}

theorem find?_without_self (hnumbers : Numbering c.view) (hfind : c.find? u.number = some u) :
    (without u.number c.live).find? (fun x => x.number = u.number) = none := by
  apply List.find?_eq_none.mpr
  intro x hx
  simpa using number_ne_of_without hnumbers hfind hx

theorem astray_land (hnumbers : Numbering c.view) (hfind : c.find? u.number = some u)
    (hgone : c.engine.registry.owned? u.flight.pump.path u.flight.pump.id = none)
    (result : Except OsError FileWriter) :
    (c.land u result).engine.registry = c.engine.registry ∧
    (c.land u result).engine.feed = c.engine.feed ∧
    (c.land u result).engine.disk = c.engine.disk ∧
    (c.land u result).find? u.number = none ∧
    c.endsLand u result = [⟨u.number, u.flight.pump.path, .ok .cancelled⟩] := by
  have hland := Engine.land_of_gone result hgone
  have hengine : (c.land u result).engine = (c.engine.land u.flight result).1 := rfl
  have hlive : (c.land u result).live =
      standing u.number (c.engine.land u.flight result).2 ++ without u.number c.live := rfl
  rw [hland] at hengine hlive
  refine ⟨by rw [hengine]; rfl, by rw [hengine]; rfl, by rw [hengine]; rfl, ?_, ?_⟩
  · unfold find?
    rw [hlive]
    exact find?_without_self hnumbers hfind
  · rw [endsLand, hland]
    rfl

theorem astray_of_landed (hnumbers : Numbering c.view) (hfind : c.find? u.number = some u)
    (hgone : c.engine.registry.owned? u.flight.pump.path u.flight.pump.id = none) {m : Move}
    {fault : Option DiskFault} {result : Except OsError FileWriter}
    (hstep : c.step m = (c.withDisk (u.effect c.engine fault)).land u result)
    (hends : c.ends m = (c.withDisk (u.effect c.engine fault)).endsLand u result) :
    c.Astray u m := by
  obtain ⟨hregistry, hfeed, hdisk, hnone, hcancelled⟩ :=
    astray_land (c := c.withDisk (u.effect c.engine fault)) hnumbers hfind hgone result
  refine ⟨?_, ?_, .inr ⟨fault, ?_⟩, .inr ⟨?_, .inr (hends.trans hcancelled)⟩⟩
  · rw [hstep, hregistry]
    rfl
  · rw [hstep, hfeed]
    rfl
  · rw [hstep, hdisk]
    rfl
  · rw [hstep, hnone]

theorem astray_of_gone (hnumbers : Numbering c.view) (hfind : c.find? u.number = some u)
    (hgone : c.engine.registry.owned? u.flight.pump.path u.flight.pump.id = none) {m : Move}
    (hm : m.pump? = some u.number) : c.Astray u m := by
  cases m with
  | turn n =>
    obtain rfl : n = u.number := Option.some.inj hm
    have hstep : c.step (.turn u.number) = c.turn u := by
      simp only [step, hfind, Option.elim]
    have hends : c.ends (.turn u.number) = c.endsTurn u := by
      simp only [ends, hfind, Option.elim]
    obtain ⟨next, hadvance, hturn, hnone⟩ | ⟨result, -, hturn, hlanded⟩ := c.turn_cases u
    · rw [hturn] at hstep
      rw [hnone] at hends
      refine ⟨by rw [hstep]; rfl, by rw [hstep]; rfl, .inr ⟨none, by rw [hstep]; rfl⟩, .inl ?_⟩
      refine ⟨{ u with delivery := next }, ?_, rfl, Delivery.left_of_onward hadvance, hends⟩
      rw [hstep]
      exact List.find?_cons_of_pos (by simp)
    · exact astray_of_landed hnumbers hfind hgone (hstep.trans hturn) (hends.trans hlanded)
  | fault n fault =>
    obtain rfl : n = u.number := Option.some.inj hm
    have hstep : c.step (.fault u.number fault) = c.fault u fault := by
      simp only [step, hfind, Option.elim]
    have hends : c.ends (.fault u.number fault) = c.endsFault u fault := by
      simp only [ends, hfind, Option.elim]
    exact astray_of_landed hnumbers hfind hgone hstep hends
  | drop n =>
    obtain rfl : n = u.number := Option.some.inj hm
    have hstep : c.step (.drop u.number) = c.abandon u := by
      simp only [step, hfind, Option.elim]
    have hengine : (c.abandon u).engine = c.engine := Engine.abandon_of_gone hgone
    refine ⟨by rw [hstep, hengine], by rw [hstep, hengine], .inl ⟨rfl, by rw [hstep, hengine]⟩,
      .inr ⟨?_, .inl ⟨rfl, rfl⟩⟩⟩
    rw [hstep]
    exact find?_without_self hnumbers hfind
  | _ => cases hm

theorem step_removed {path : String} {r : Record} {gone : Move}
    (hmove : gone = .remove path ∨ gone = .discard path)
    (hr : c.engine.registry.find? path = some r) :
    (c.step gone).engine.registry = c.engine.registry.remove path ∧
      (c.step gone).live = c.live ∧ (c.step gone).nextPump = c.nextPump := by
  have hremoved : (c.engine.remove path).registry = c.engine.registry.remove path := by
    simp only [Engine.remove, hr]
    rfl
  rcases hmove with rfl | rfl
  · simp only [step, removed, hr]
    exact ⟨hremoved, rfl, rfl⟩
  · simp only [step, removed, hr]
    exact ⟨hremoved, rfl, rfl⟩

theorem gone_of_removed (hsound : c.Sound) {path : String} {r : Record} {gone : Move}
    (hmove : gone = .remove path ∨ gone = .discard path)
    (hr : c.engine.registry.find? path = some r) : Gone r.id (c.step gone).view := by
  rw [view, (step_removed hmove hr).1]
  refine ⟨?_, hsound.identity.id_lt path r hr⟩
  rintro ⟨q, s, hs, hid⟩
  obtain ⟨hq, hs⟩ := Registry.find?_remove_some hs
  exact hq (hsound.identity.id_inj q path s r hs hr hid)

theorem stale_of_removed (hsound : c.Sound) {path : String} {r : Record} {gone : Move}
    (hmove : gone = .remove path ∨ gone = .discard path)
    (hr : c.engine.registry.find? path = some r) (hu : u ∈ c.live) (hid : u.flight.pump.id = r.id) :
    Stale u.hand (c.step gone).view := by
  obtain ⟨-, hlive, hnext⟩ := step_removed hmove hr
  have hmem : u.hand ∈ c.view.hands := List.mem_map_of_mem hu
  have hgone : Gone u.hand.id (c.step gone).view := by
    rw [show u.hand.id = r.id from hid]
    exact gone_of_removed hsound hmove hr
  refine ⟨hgone, ?_, ?_⟩
  · show u.number < (c.step gone).nextPump
    rw [hnext]
    exact hsound.numbering.lt _ (List.mem_append_left _ (List.mem_map_of_mem hmem))
  · rw [view, hlive]
    intro y hy hn
    obtain ⟨v, hv, rfl⟩ := List.mem_map.mp hy
    rw [List.inj_on_of_nodup_map (nodup_numbers hsound.numbering) hv hu hn]

theorem stale_run {x : Hand} (h : Stale x c.view) (later : List Move) : Stale x (c.run later).view :=
  keep_run (fun _ _ => stale_change) h later

/-- A stale pump has the hand it had, and its moves touch nothing. -/
theorem astray_of_stale {x : Hand} (hsound : c.Sound) (h : Stale x c.view)
    (hfind : c.find? x.number = some u) :
    u.hand = x ∧ ∀ m, m.pump? = some x.number → c.Astray u m := by
  have hnumber : u.number = x.number := number_of_find? hfind
  have hhand : u.hand = x :=
    h.hand u.hand (List.mem_map_of_mem (List.mem_of_find?_eq_some hfind)) hnumber
  subst hhand
  refine ⟨rfl, ?_⟩
  intro m hm
  exact astray_of_gone hsound.numbering hfind (h.owned? _) hm

/-- Whatever follows, no operation of a delivery comes back. -/
theorem left_of_stale (hsound : c.Sound) (hstale : Stale u.hand c.view)
    (hfind : c.find? u.number = some u) (later : List Move) :
    ∀ v, (c.run later).find? u.number = some v →
      v.delivery.left u.flight.fragment ≤ u.delivery.left u.flight.fragment := by
  induction later using List.reverseRecOn with
  | nil =>
    intro v hv
    obtain rfl : u = v := Option.some.inj (hfind.symm.trans hv)
    exact Nat.le_refl _
  | append_singleton moves m ih =>
    intro w hw
    have hnow := stale_run hstale moves
    rw [run_concat] at hw
    by_cases hm : m.pump? = some u.number
    · cases hbefore : (c.run moves).find? u.number with
      | none =>
        rw [step_of_none hbefore hm, hbefore] at hw
        cases hw
      | some v =>
        obtain ⟨hhand, hastray⟩ := astray_of_stale (hsound.run moves) hnow hbefore
        have hnumber : v.number = u.number := congrArg Hand.number hhand
        have hfragment : v.flight.fragment = u.flight.fragment :=
          Option.some.inj (congrArg Hand.fragment hhand)
        have hless := ih v hbefore
        rcases (hastray m hm).outcome with ⟨w', hw', -, hleft, -⟩ | ⟨hnone, -⟩
        · rw [hnumber, hw] at hw'
          obtain rfl : w = w' := Option.some.inj hw'
          rw [hfragment] at hleft
          omega
        · rw [hnumber, hw] at hnone
          cases hnone
    · have hsame : ((c.run moves).step m).find? u.number = (c.run moves).find? u.number :=
        find?_step hnow.number_lt hm
      rw [hsame] at hw
      exact ih w hw

end Course

/-- Once an upload is removed, its pump leaves everything as it is. Whatever follows, and be the path
registered, written and removed again, the pump has the fragment in hand that it had; its moves change
no record, tell nothing and carry out no more than what was left for that fragment; and it ends
cancelled. -/
theorem stale_pump_touches_nothing (disk : Disk) (storage : Storage)
    (writers maxSize capacity : Nat) (moves later : List Move) (gone : Move) (path : String)
    (r : Record) (u v : Underway) :
    let c := (Course.new (.new disk storage writers maxSize capacity)).run moves
    let now := (c.step gone).run later
    (gone = .remove path ∨ gone = .discard path) → c.engine.registry.find? path = some r →
    u ∈ c.live → u.flight.pump.id = r.id → now.find? u.number = some v →
    v.hand = u.hand ∧
      v.delivery.left u.flight.fragment ≤ u.delivery.left u.flight.fragment ∧
      ∀ m, m.pump? = some u.number → now.Astray v m := by
  intro c now hmove hr hu hid hv
  have hsound : c.Sound := Course.sound_run (.new disk storage writers maxSize capacity) rfl moves
  have hstart : (c.step gone).Sound := hsound.run [gone]
  have hstale : Stale u.hand (c.step gone).view := Course.stale_of_removed hsound hmove hr hu hid
  have hlive : u ∈ (c.step gone).live := by
    rw [(Course.step_removed hmove hr).2.1]
    exact hu
  have hfind : (c.step gone).find? u.number = some u := Course.find?_of_mem hstart.numbering hlive
  obtain ⟨hhand, hastray⟩ :=
    Course.astray_of_stale (hstart.run later) (Course.stale_run hstale later) hv
  exact ⟨hhand, Course.left_of_stale hstart hstale hfind later v hv, hastray⟩

/-- An upload begins, and its pump pauses. -/
def pumpBegun : List Move := [.init "a" 8 0 "a", .submit "a" ⟨0, #[1, 2, 3, 4]⟩, .turn 0]

def beforeRemoval : Course := (Course.new (.new .empty ⟨"up"⟩ 2 100 16)).run pumpBegun

/-- The path is registered again, and another pump writes it. -/
def registeredAgain : List Move := [.init "a" 4 0 "a", .submit "a" ⟨0, #[9]⟩, .turn 1]

def afterRemoval : Course := (beforeRemoval.step (.remove "a")).run registeredAgain

theorem beforeRemoval_there : (beforeRemoval.engine.registry.find? "a").isSome = true := by decide

theorem beforeRemoval_live : (beforeRemoval.find? 0).isSome = true := by decide

theorem afterRemoval_live : (afterRemoval.find? 0).isSome = true := by decide

/-- The first pump leaves the second upload at its path as it is. -/
theorem first_pump_touches_nothing :
    let u := (beforeRemoval.find? 0).get beforeRemoval_live
    let v := (afterRemoval.find? 0).get afterRemoval_live
    afterRemoval.engine.registry.contains "a" = true ∧ v.hand = u.hand ∧
      v.delivery.left u.flight.fragment ≤ u.delivery.left u.flight.fragment ∧
      ∀ m, m.pump? = some u.number → afterRemoval.Astray v m := by
  intro u v
  have hfind : beforeRemoval.find? 0 = some u := (Option.some_get beforeRemoval_live).symm
  exact ⟨by decide, stale_pump_touches_nothing .empty ⟨"up"⟩ 2 100 16 pumpBegun registeredAgain
    (.remove "a") "a" ((beforeRemoval.engine.registry.find? "a").get beforeRemoval_there) u v
    (.inl rfl) (Option.some_get beforeRemoval_there).symm (List.mem_of_find?_eq_some hfind)
    (by decide) (Option.some_get afterRemoval_live).symm⟩

end ResumableUpload
