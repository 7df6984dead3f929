import ResumableUpload.Proofs.Arrival
import ResumableUpload.Proofs.Course.Refusals
import ResumableUpload.Proofs.Engine.Leaves

/-
  Progress — the queues that nobody writes, pumped together

  When all pending queues are pumped together, every pump asks for its slot
  before any of them writes. So the first ones in the order of their paths get
  the slots, as many as there are, and the others are put off. Those that got a
  slot write their queues out, each beside the others and in any order; none that
  was put off moves up before the next call.

  What is held:
    1. `Engine.Attends` — a lane whose pump serves the upload of its path, or
       has left it at rest.
    2. `Engine.Rounding` — the lanes of the paths that got a slot, and of those
       that were put off.
    3. `Engine.PendingRound` — what a call comes to.

  What is proved:
    1. `attends_turn`, `attends_landing` — a turn keeps its lane attending, and
       so does the end of a delivery; `Rounding.replace` — the other lanes stay.
    2. `rounding_beginAll` — which pumps get a slot.
    3. `Rounding.pendingRound` — what the lanes come to when all have ended;
       `PendingRound.pendingPaths` — what waits then.
-/

namespace ResumableUpload

theorem Record.isPending_iff (r : Record) :
    r.isPending = true ↔ r.writing = false ∧ r.queue.toList ≠ [] := by
  simp [isPending, FragmentQueue.isEmpty_eq]

theorem PumpResult.Held.wroteOut {result : PumpResult} {r : Record} (hheld : result.Held)
    (htells : r.Tells result) : (∃ saved completed, result = .ok (.drained saved completed)) ∨
      ∃ path position len cause, result = .error (.writeFailure path position len cause) := by
  cases result with
  | ok outcome =>
    cases outcome with
    | drained saved completed => exact .inl ⟨saved, completed, rfl⟩
    | deferred => exact hheld.elim
    | busy => exact hheld.elim
    | cancelled => exact htells.elim
  | error err =>
    cases err with
    | writeFailure path position len cause => exact .inr ⟨path, position, len, cause, rfl⟩
    | _ => exact hheld.elim

namespace Engine

variable {e e₀ e₁ e' : Engine} {path : String} {p : Pump} {flight : Flight} {r : Record} {lane : Lane}

/-! ## One lane -/

/-- The pump of a lane serves the upload of its path, or has written its queue out and left it at rest. -/
def Attends (e : Engine) (path : String) : Lane → Prop
  | .underway flight _ => flight.pump.path = path ∧ flight.pump.Candid ∧
      ∃ r, e.registry.owned? path flight.pump.id = some r
  | .ended result => result.Held ∧ ∃ r, e.AtRest path result r

theorem Attends.congr (h : e.Attends path lane)
    (hsame : e'.registry.find? path = e.registry.find? path) : e'.Attends path lane := by
  cases lane with
  | ended result =>
    obtain ⟨hheld, r, hr, hrest⟩ := h
    exact ⟨hheld, r, hsame.trans hr, hrest⟩
  | underway flight delivery =>
    obtain ⟨hpath, hcandid, r, hr⟩ := h
    exact ⟨hpath, hcandid, r, by rwa [Registry.owned?, hsame]⟩

theorem attends_takeNext (hr : e.registry.owned? p.path p.id = some r) (hp : p.Candid) :
    (e.takeNext p).1.Attends p.path (.of (e.takeNext p).2) := by
  cases hpop : r.queue.pop? with
  | none =>
    obtain ⟨notice, hend⟩ := takeNext_at_end hr hpop
    have hstate := congrArg Prod.snd hend
    obtain ⟨s, -, hrest⟩ := takeNext_ended_of_owned hr hstate
    rw [hstate]
    exact ⟨takeNext_held hp hstate, s, hrest⟩
  | some x =>
    rw [takeNext_of_pop? hr hpop]
    exact ⟨rfl, hp, _, Registry.owned?_modify_self hr (fun r => r.withQueue x.2) (fun _ => rfl) rfl⟩

theorem attends_land (hr : e.registry.owned? flight.pump.path flight.pump.id = some r)
    (hcandid : flight.pump.Candid) (result : Except OsError FileWriter) :
    (e.land flight result).1.Attends flight.pump.path (.of (e.land flight result).2) := by
  obtain ⟨hpath, hid, ⟨s, hs⟩, -⟩ := account_cases result hr
  have hcandid' : (e.account flight r result).2.Candid := by
    cases result with
    | error cause => exact candid_accountFailure hcandid cause
    | ok w => exact hcandid
  rw [land_of_owned result hr]
  rw [← hpath, ← hid] at hs
  exact hpath ▸ attends_takeNext hs hcandid'

/-- A delivery that ends touches the upload of its lane only, whatever became of the disk. -/
theorem attends_landing {delivery : Delivery} (h : e.Attends path (.underway flight delivery))
    (disk : Disk) (result : Except OsError FileWriter) :
    let x := { e with disk }.land flight result
    x.1.Attends path (.of x.2) ∧ x.1.slots = e.slots ∧
      ∀ q, q ≠ path → x.1.registry.find? q = e.registry.find? q := by
  obtain ⟨rfl, hcandid, r, hr⟩ := h
  have hr' : { e with disk }.registry.owned? flight.pump.path flight.pump.id = some r := hr
  exact ⟨attends_land hr' hcandid result, (later_land _ flight result).slots,
    (leaves_land result hr').record⟩

/-- A turn touches the upload of its lane only, and keeps the lane attending. -/
theorem attends_turn (h : e.Attends path lane) :
    (e.turn lane).1.Attends path (e.turn lane).2 ∧ (e.turn lane).1.slots = e.slots ∧
      ∀ q, q ≠ path → (e.turn lane).1.registry.find? q = e.registry.find? q := by
  cases lane with
  | ended result => exact ⟨h, rfl, fun _ _ => rfl⟩
  | underway flight delivery =>
    cases hadvance : delivery.advance e.storage flight.pump.path flight.fragment e.disk with
    | mk disk step =>
      cases step with
      | onward next =>
        rw [turn_of_onward hadvance]
        exact ⟨h, rfl, fun _ _ => rfl⟩
      | ended result =>
        rw [turn_of_ended hadvance]
        exact attends_landing h disk result

/-! ## Lanes side by side -/

/-- A lane whose path got a slot attends, and any other was put off. -/
def Proceeds (e : Engine) (taken : List String) (x : String × Lane) : Prop :=
  (x.1 ∈ taken ∧ e.Attends x.1 x.2) ∨ (x.1 ∉ taken ∧ x.2 = .ended (.ok .deferred))

theorem Proceeds.congr {taken : List String} {x : String × Lane} (h : e.Proceeds taken x)
    (hsame : e'.registry.find? x.1 = e.registry.find? x.1) : e'.Proceeds taken x :=
  h.imp_left fun ⟨htaken, hattends⟩ => ⟨htaken, hattends.congr hsame⟩

/-- The lanes of paths of which some got a slot: only the uploads of those have changed. -/
structure Rounding (e₀ e : Engine) (paths taken : List String) (lanes : List (String × Lane)) :
    Prop where
  order : lanes.map Prod.fst = paths
  proceeds : ∀ x ∈ lanes, e.Proceeds taken x
  slots : e.slots = e₀.slots
  others : ∀ q, q ∉ paths ∨ q ∉ taken → e.registry.find? q = e₀.registry.find? q

/-- One more lane in front, which went before the others. -/
theorem Rounding.cons {rest taken taken' : List String} {lanes : List (String × Lane)}
    (h : e₁.Rounding e' rest taken lanes) (hnot : path ∉ rest)
    (hfirst : e₁.Proceeds taken' (path, lane)) (hslots : e₁.slots = e.slots)
    (hothers : ∀ q, q ≠ path ∨ q ∉ taken' → e₁.registry.find? q = e.registry.find? q)
    (htaken : ∀ q ∈ rest, q ∈ taken' ↔ q ∈ taken) :
    e.Rounding e' (path :: rest) taken' ((path, lane) :: lanes) where
  order := congrArg (path :: ·) h.order
  proceeds := by
    intro x hx
    rcases List.mem_cons.mp hx with rfl | hx
    · exact hfirst.congr (h.others path (.inl hnot))
    · have hrest : x.1 ∈ rest := h.order ▸ List.mem_map_of_mem hx
      have hproceeds := h.proceeds x hx
      rwa [Proceeds, htaken x.1 hrest]
  slots := h.slots.trans hslots
  others := by
    intro q hq
    have hfirst : q ≠ path ∨ q ∉ taken' := hq.imp_left List.ne_of_not_mem_cons
    have hrest : q ∉ rest ∨ q ∉ taken := by
      by_cases hmem : q ∈ rest
      · refine .inr fun htook => hq.elim (fun hout => ?_) fun hout => ?_
        · exact hout (List.mem_cons_of_mem path hmem)
        · exact hout ((htaken q hmem).mpr htook)
      · exact .inl hmem
    exact (h.others q hrest).trans (hothers q hfirst)

/-- A step of one lane, which leaves the uploads of the others. -/
theorem Rounding.replace {before after : List (String × Lane)} {paths taken : List String}
    {lane lane' : Lane} (h : e₀.Rounding e paths taken (before ++ (path, lane) :: after))
    (hnodup : paths.Nodup) (htaken : path ∈ taken) (hattends : e'.Attends path lane')
    (hslots : e'.slots = e.slots)
    (hothers : ∀ q, q ≠ path → e'.registry.find? q = e.registry.find? q) :
    e₀.Rounding e' paths taken (before ++ (path, lane') :: after) := by
  have horder := h.order
  rw [List.map_append, List.map_cons] at horder
  have hapart : ∀ x ∈ before ++ after, x.1 ≠ path := by
    rw [← horder, List.nodup_middle, List.nodup_cons, ← List.map_append] at hnodup
    intro x hx heq
    have hmem : x.1 ∈ (before ++ after).map Prod.fst := List.mem_map_of_mem hx
    exact hnodup.1 (heq ▸ hmem)
  refine ⟨by rw [List.map_append, List.map_cons, horder], fun x hx => ?_, hslots.trans h.slots,
    fun q hq => ?_⟩
  · rcases List.mem_cons.mp (List.perm_middle.mem_iff.mp hx) with rfl | hx
    · exact .inl ⟨htaken, hattends⟩
    · have hbefore := h.proceeds x (List.perm_middle.mem_iff.mpr (List.mem_cons_of_mem _ hx))
      exact hbefore.congr (hothers x.1 (hapart x hx))
  · refine (hothers q ?_).trans (h.others q hq)
    rintro rfl
    refine hq.elim (fun hout => hout ?_) fun hnot => hnot htaken
    rw [← horder]
    exact List.mem_append_right _ List.mem_cons_self

theorem Rounding.congr {paths taken : List String} {lanes : List (String × Lane)}
    (h : e₀.Rounding e paths taken lanes) (hregistry : e'.registry = e.registry)
    (hslots : e'.slots = e.slots) : e₀.Rounding e' paths taken lanes where
  order := h.order
  proceeds := fun x hx => (h.proceeds x hx).congr (by rw [hregistry])
  slots := hslots.trans h.slots
  others := fun q hq => by rw [hregistry, h.others q hq]

/-! ## Which pumps get a slot -/

theorem begin_of_full (hr : e.registry.find? path = some r) (hfree : r.writing = false)
    (hfull : ¬ e.registry.writingCount < e.slots.ceiling) :
    e.begin path = (e.note (.slotDenied path), .ended (.ok .deferred)) := by
  obtain ⟨hnone, -⟩ | ⟨s, hs, ⟨hwriting, -⟩ | ⟨-, hbegin⟩ | ⟨-, hroom, -⟩⟩ := e.begin_cases path
  · rw [hnone] at hr
    cases hr
  · rw [hs] at hr
    rw [Option.some.inj hr, hfree] at hwriting
    cases hwriting
  · exact hbegin
  · exact absurd hroom hfull

theorem begin_of_pending (hr : e.registry.find? path = some r) (hpending : r.isPending = true)
    (hroom : e.registry.writingCount < e.slots.ceiling) :
    (e.begin path).1.Attends path (.of (e.begin path).2) ∧
      (e.begin path).1.registry.writingCount = e.registry.writingCount + 1 := by
  obtain ⟨hfree, hsome⟩ := r.isPending_iff.mp hpending
  obtain ⟨f, waiting, hwaiting⟩ := List.exists_cons_of_ne_nil hsome
  obtain ⟨queue, hpop, -⟩ := FragmentQueue.exists_pop? hwaiting
  have hmarked := Registry.find?_modify_self hr (fun r => r.withWriting true) fun _ => rfl
  rw [begin_of_waiting hr hfree hroom hpop]
  constructor
  · refine ⟨rfl, nofun, (r.withWriting true).withQueue queue, ?_⟩
    exact Registry.owned?_modify_self (Registry.owned?_withWriting hr true)
      (fun r => r.withQueue queue) (fun _ => rfl) rfl
  · have htaken := Registry.writingCount_modify hr (fun r => r.withWriting true) fun _ => rfl
    have hsame := Registry.writingCount_modify_of_same hmarked (fun r => r.withQueue queue)
      (fun _ => rfl) rfl
    rw [hfree] at htaken
    exact hsame.trans htaken

/-- Of pumps that begin for pending queues, as many as there are free slots get one. -/
theorem rounding_beginAll {paths : List String} (hnodup : paths.Nodup)
    (hpending : ∀ p ∈ paths, ∃ r, e.registry.find? p = some r ∧ r.isPending = true) :
    e.Rounding (e.beginAll paths).1 paths
      (paths.take (e.slots.ceiling - e.registry.writingCount)) (e.beginAll paths).2 := by
  induction paths generalizing e with
  | nil => exact ⟨rfl, nofun, rfl, fun _ _ => rfl⟩
  | cons path rest ih =>
    obtain ⟨hnot, hnodup⟩ := List.nodup_cons.mp hnodup
    obtain ⟨r, hr, hwaits⟩ := hpending path List.mem_cons_self
    have hothers := (leaves_begin e path).record
    have hslots := (later_begin e path).slots
    have hafter := ih (e := (e.begin path).1) hnodup fun p hp => by
      rw [hothers p fun heq => hnot (heq ▸ hp)]
      exact hpending p (List.mem_cons_of_mem path hp)
    rw [hslots] at hafter
    by_cases hroom : e.registry.writingCount < e.slots.ceiling
    · obtain ⟨hattends, hcount⟩ := begin_of_pending hr hwaits hroom
      have htake : (path :: rest).take (e.slots.ceiling - e.registry.writingCount) =
          path :: rest.take (e.slots.ceiling - (e.begin path).1.registry.writingCount) := by
        rw [hcount, Nat.sub_add_eq, ← List.take_succ_cons, Nat.sub_add_cancel]
        exact Nat.le_sub_of_add_le (Nat.add_comm _ 1 ▸ hroom)
      rw [htake]
      refine hafter.cons hnot (.inl ⟨List.mem_cons_self, hattends⟩) hslots (fun q hq => ?_) ?_
      · exact hothers q (hq.elim id List.ne_of_not_mem_cons)
      · intro q hq
        rw [List.mem_cons, or_iff_right (ne_of_mem_of_not_mem hq hnot)]
    · have hbegin := begin_of_full hr (r.isPending_iff.mp hwaits).1 hroom
      have hnone : e.slots.ceiling - e.registry.writingCount = 0 :=
        Nat.sub_eq_zero_of_le (Nat.not_lt.mp hroom)
      have hregistry : (e.begin path).1.registry = e.registry := by
        rw [hbegin]
        rfl
      have hputOff : (e.begin path).1.Proceeds [] (path, .of (e.begin path).2) := by
        rw [hbegin]
        exact .inr ⟨List.not_mem_nil, rfl⟩
      rw [hregistry, hnone] at hafter
      rw [hnone]
      exact hafter.cons hnot hputOff hslots (fun q _ => by rw [hregistry]) fun _ _ => .rfl

/-! ## What a call comes to -/

theorem sorted_pendingPaths (g : Registry) : g.pendingPaths.Pairwise (· < ·) :=
  List.pairwise_map.mpr (g.sorted.filter _)

theorem mem_pendingPaths {g : Registry} {q : String} :
    q ∈ g.pendingPaths ↔ ∃ r, g.find? q = some r ∧ r.isPending = true := by
  simp only [Registry.pendingPaths, List.mem_map, List.mem_filter, Registry.find?_eq_some_iff]
  constructor
  · rintro ⟨r, ⟨hr, hpending⟩, rfl⟩
    exact ⟨r, ⟨hr, rfl⟩, hpending⟩
  · rintro ⟨r, ⟨hr, rfl⟩, hpending⟩
    exact ⟨r, ⟨hr, hpending⟩, rfl⟩

/-- What one call makes of the pending uploads, where `n` may write at a time: the first `n` are written
out, or come to a failed write, and are at rest; the others are put off; and no other record changes. -/
structure PendingRound (n : Nat) (e e' : Engine) (results : List (String × PumpResult)) : Prop where
  order : results.map Prod.fst = e.registry.pendingPaths
  wroteOut : ∀ x ∈ results.take n,
    ((∃ saved completed, x.2 = .ok (.drained saved completed)) ∨
      ∃ path position len cause, x.2 = .error (.writeFailure path position len cause)) ∧
    ∃ r, e'.registry.find? x.1 = some r ∧ r.queue.toList = [] ∧ r.writing = false
  putOff : ∀ x ∈ results.drop n, x.2 = .ok .deferred
  others : ∀ q, q ∉ e.registry.pendingPaths.take n → e'.registry.find? q = e.registry.find? q

/-- Lanes of which the first ones got a slot come to a round, once all have ended. -/
theorem Rounding.pendingRound {n : Nat} {results : List (String × PumpResult)}
    (h : e.Rounding e' e.registry.pendingPaths (e.registry.pendingPaths.take n)
      (results.map fun x => (x.1, .ended x.2))) : e.PendingRound n e' results := by
  have horder : results.map Prod.fst = e.registry.pendingPaths := by
    have horder := h.order
    rwa [List.map_map] at horder
  have hnodup : e.registry.pendingPaths.Nodup :=
    (sorted_pendingPaths e.registry).imp Std.ne_of_lt
  have hproceeds : ∀ x ∈ results,
      e'.Proceeds (e.registry.pendingPaths.take n) (x.1, .ended x.2) :=
    fun x hx => h.proceeds _ (List.mem_map_of_mem hx)
  refine ⟨horder, fun x hx => ?_, fun x hx => ?_, fun q hq => h.others q (.inr hq)⟩
  · have htaken : x.1 ∈ e.registry.pendingPaths.take n := by
      rw [← horder, ← List.map_take]
      exact List.mem_map_of_mem hx
    obtain ⟨-, hheld, r, hr, hrest, htells⟩ | ⟨hnot, -⟩ := hproceeds x (List.mem_of_mem_take hx)
    · exact ⟨hheld.wroteOut htells, r, hr, hrest.empty, hrest.free⟩
    · exact absurd htaken hnot
  · have hout : x.1 ∈ e.registry.pendingPaths.drop n := by
      rw [← horder, ← List.map_drop]
      exact List.mem_map_of_mem hx
    have hnot : x.1 ∉ e.registry.pendingPaths.take n := fun htaken =>
      List.disjoint_take_drop hnodup (Nat.le_refl n) htaken hout
    obtain ⟨htaken, -⟩ | ⟨-, hputOff⟩ := hproceeds x (List.mem_of_mem_drop hx)
    · exact absurd htaken hnot
    · exact Lane.ended.inj hputOff

namespace PendingRound

variable {n : Nat} {results : List (String × PumpResult)}

theorem rest (h : e.PendingRound n e' results) {q : String}
    (hq : q ∈ e.registry.pendingPaths.take n) :
    ∃ r, e'.registry.find? q = some r ∧ r.queue.toList = [] ∧ r.writing = false := by
  rw [← h.order, ← List.map_take] at hq
  obtain ⟨x, hx, rfl⟩ := List.mem_map.mp hq
  exact (h.wroteOut x hx).2

theorem idle (h : e.PendingRound n e' results) (hidle : e.Idle) : e'.Idle := by
  intro q r hr
  by_cases htaken : q ∈ e.registry.pendingPaths.take n
  · obtain ⟨s, hs, -, hfree⟩ := h.rest htaken
    rw [hs] at hr
    rw [← Option.some.inj hr]
    exact hfree
  · rw [h.others q htaken] at hr
    exact hidle q r hr

theorem pendingPaths (h : e.PendingRound n e' results) :
    e'.registry.pendingPaths = e.registry.pendingPaths.drop n := by
  have hsorted := sorted_pendingPaths e.registry
  refine (sorted_pendingPaths _).eq_of_mem_iff hsorted.drop fun q => ?_
  have hsplit : q ∈ e.registry.pendingPaths ↔
      q ∈ e.registry.pendingPaths.take n ∨ q ∈ e.registry.pendingPaths.drop n := by
    rw [← List.mem_append, List.take_append_drop]
  by_cases htaken : q ∈ e.registry.pendingPaths.take n
  · -- written out, so not pending; and no path occurs twice
    obtain ⟨r, hr, hempty, -⟩ := h.rest htaken
    have hnodup : e.registry.pendingPaths.Nodup := hsorted.imp Std.ne_of_lt
    refine iff_of_false (fun hpending => ?_) (List.disjoint_take_drop hnodup (Nat.le_refl _) htaken)
    obtain ⟨s, hs, hwaits⟩ := mem_pendingPaths.mp hpending
    obtain rfl : r = s := Option.some.inj (hr.symm.trans hs)
    exact (r.isPending_iff.mp hwaits).2 hempty
  · rw [mem_pendingPaths, h.others q htaken, ← mem_pendingPaths, hsplit]
    exact or_iff_right htaken

end PendingRound

end Engine

end ResumableUpload
