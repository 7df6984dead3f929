import ResumableUpload.WriteSlots
import ResumableUpload.Proofs.Registry.Totals

/-
  Balance — slots granted, given back, and lost with their uploads

  A registry and the slots in it may be used without an engine: uploads are
  registered, take fragments and are removed, and slots are asked for and given
  back, in any order and as often as one likes. A slot is gained in two ways and
  lost in three, one of which knows nothing of slots. Nothing is counted along,
  and still the slots in use are those that were granted, less those that went.

  What is held:
    1. `SlotCall`, `SlotCall.perform` — the calls, and what each makes of a
       registry.
    2. `SlotAccount` — a registry with the grants, returns and evictions so far.

  What is proved:
    1. `acquire_cases`, `release_cases` — what a request for a slot comes to.
    2. `perform_of_asks` — a request touches one mark, and nothing else.
    3. `balanced_step`, `balanced_run` — each call keeps the account balanced.
    4. `slots_balance` — the above for every sequence of calls.
-/

namespace ResumableUpload

namespace Registry

/-- Whether the upload at a path holds a slot. -/
def holdsSlot (g : Registry) (path : String) : Bool := (g.find? path).any Record.writing

theorem holdsSlot_of_find? {g : Registry} {path : String} {r : Record}
    (h : g.find? path = some r) : g.holdsSlot path = r.writing := by
  rw [holdsSlot, h]
  rfl

theorem holdsSlot_modify {g : Registry} {path : String} {r : Record} (h : g.find? path = some r)
    (mark : Bool) : (g.modify path fun r => r.withWriting mark).holdsSlot path = mark := by
  rw [holdsSlot, find?_modify, if_pos rfl, h]
  rfl

theorem register_of_free {g : Registry} {path : String} (h : g.find? path = none) (size : Nat)
    (owner : Int) (clientPath : String) :
    ∃ x, g.register path size owner clientPath = .ok x := by
  obtain ⟨next, hnext⟩ := register_of_absent h size owner clientPath
  exact ⟨_, hnext⟩

theorem modify_of_same {g : Registry} {path : String} {change : Record → Record}
    {keeps : ∀ r, (change r).path = r.path}
    (h : ∀ r, g.find? path = some r → change r = r) : g.modify path change keeps = g := by
  have hrecords : (g.records.map fun r => if r.path = path then change r else r) = g.records := by
    conv_rhs => rw [← List.map_id g.records]
    apply List.map_congr_left
    intro r hr
    split
    · rename_i hpath
      exact h r (find?_eq_some_iff.mpr ⟨hr, hpath⟩)
    · rfl
  cases g
  simp only [modify, hrecords]

end Registry

namespace WriteSlots

variable (s : WriteSlots) (g : Registry) (path : String)

/-- Whether a request for a slot is granted. -/
def grants : Bool :=
  match s.acquire g path with
  | .ok (_, grant) => grant.isGranted
  | .error _ => false

/-- A request for a slot fails where the upload is unknown, finds that it holds one, is denied where all
are taken, and is granted otherwise. -/
theorem acquire_cases :
    (g.find? path = none ∧ s.acquire g path = .error (.unknownUpload path)) ∨
    ∃ r, g.find? path = some r ∧
      ((r.writing = true ∧ s.acquire g path = .ok (g, .alreadyWriting)) ∨
        (r.writing = false ∧ ¬ g.writingCount < s.ceiling ∧ s.acquire g path = .ok (g, .denied)) ∨
        (r.writing = false ∧ g.writingCount < s.ceiling ∧
          s.acquire g path = .ok (g.modify path fun r => r.withWriting true, .granted))) := by
  cases hr : g.find? path with
  | none =>
    left
    simp [acquire, Registry.get, hr]
  | some r =>
    right
    refine ⟨r, rfl, ?_⟩
    cases hwriting : r.writing with
    | true =>
      left
      simp [acquire, Registry.get, hr, hwriting]
    | false =>
      right
      by_cases hroom : g.writingCount < s.ceiling
      · right
        simp [acquire, mayStart, Registry.get, hr, hwriting, hroom]
      · left
        simp [acquire, mayStart, Registry.get, hr, hwriting, hroom]

variable {g path} in
theorem acquire_of_find? {r : Record} (hr : g.find? path = some r) :
    ∃ next grant, s.acquire g path = .ok (next, grant) ∧
      (grant = .granted ↔ r.writing = false ∧ g.writingCount < s.ceiling) ∧
      next.holdsSlot path = (grant != .denied) := by
  obtain ⟨hnone, -⟩ | ⟨r', hr', hcases⟩ := s.acquire_cases g path
  · rw [hr] at hnone
    cases hnone
  · obtain rfl : r' = r := Option.some.inj (hr'.symm.trans hr)
    obtain ⟨hw, h⟩ | ⟨hw, hfull, h⟩ | ⟨hw, hroom, h⟩ := hcases
    · exact ⟨_, _, h, by simp [hw], (Registry.holdsSlot_of_find? hr).trans hw⟩
    · exact ⟨_, _, h, by simp [hfull], (Registry.holdsSlot_of_find? hr).trans hw⟩
    · exact ⟨_, _, h, by simp [hw, hroom], Registry.holdsSlot_modify hr true⟩

/-- A slot that is held is given back; without one, nothing happens. -/
theorem release_cases :
    (g.holdsSlot path = false ∧ release g path = (g, false)) ∨
    ∃ r, g.find? path = some r ∧ r.writing = true ∧
      release g path = (g.modify path fun r => r.withWriting false, true) := by
  cases hr : g.find? path with
  | none =>
    left
    simp [release, Registry.holdsSlot, hr]
  | some r =>
    cases hwriting : r.writing with
    | true =>
      right
      exact ⟨r, rfl, hwriting, by simp [release, hr, hwriting]⟩
    | false =>
      left
      simp [release, Registry.holdsSlot, hr, hwriting]

variable {g path} in
theorem setWriting_of_find? {r : Record} (hr : g.find? path = some r) (value : Bool) :
    ∃ next holds, s.setWriting g path value = .ok (next, holds) ∧ next.holdsSlot path = holds := by
  cases value with
  | true =>
    obtain ⟨next, grant, h, -, hholds⟩ := s.acquire_of_find? hr
    exact ⟨next, grant != .denied, by simp [setWriting, h], hholds⟩
  | false =>
    have hset : s.setWriting g path false = .ok ((release g path).1, false) := by
      simp [setWriting, Registry.get, hr]
    obtain ⟨hfree, h⟩ | ⟨r', -, -, h⟩ := release_cases g path
    · exact ⟨_, false, hset, by rw [h]; exact hfree⟩
    · exact ⟨_, false, hset, by rw [h]; exact Registry.holdsSlot_modify hr false⟩

end WriteSlots

/-- A call on a registry, or for a slot in it. -/
inductive SlotCall where
  | register (path : String) (size : Nat) (owner : Int) (clientPath : String)
  | enqueue (path : String) (fragment : Fragment)
  | remove (path : String)
  | acquire (path : String)
  | release (path : String)
  | setWriting (path : String) (value : Bool)

namespace SlotCall

/-- What a call makes of a registry; one that is refused leaves it as it is. -/
def perform (s : WriteSlots) (g : Registry) : SlotCall → Registry
  | register path size owner clientPath =>
    match g.register path size owner clientPath with
    | .error _ => g
    | .ok (next, _) => next
  | enqueue path f =>
    match g.enqueue path f with
    | .error _ => g
    | .ok next => next
  | remove path => g.remove path
  | acquire path =>
    match s.acquire g path with
    | .error _ => g
    | .ok (next, _) => next
  | release path => (WriteSlots.release g path).1
  | setWriting path value =>
    match s.setWriting g path value with
    | .error _ => g
    | .ok (next, _) => next

/-- The upload whose slot a call asks for, or gives back. -/
def asks : SlotCall → Option String
  | acquire path => some path
  | release path => some path
  | setWriting path _ => some path
  | _ => none

/-- Whether a call is granted a slot: it asks for one, or sets the mark of an upload without one. -/
def takes (s : WriteSlots) (g : Registry) : SlotCall → Bool
  | acquire path => s.grants g path
  | setWriting path true => s.grants g path
  | _ => false

/-- Whether a call gives a slot back that was held. -/
def givesBack (g : Registry) : SlotCall → Bool
  | release path => (WriteSlots.release g path).2
  | setWriting path false => g.holdsSlot path
  | _ => false

/-- Whether a call takes an upload away that held a slot. -/
def evicts (g : Registry) : SlotCall → Bool
  | remove path => g.holdsSlot path
  | _ => false

variable {s : WriteSlots} {g : Registry} {path : String}

/-! ## Marks that are set -/

theorem perform_setWriting_true :
    perform s g (setWriting path true) = perform s g (acquire path) := by
  simp only [perform, WriteSlots.setWriting]
  cases s.acquire g path <;> rfl

theorem perform_setWriting_false :
    perform s g (setWriting path false) = perform s g (release path) := by
  simp only [perform, WriteSlots.setWriting, Registry.get]
  cases hr : g.find? path with
  | none => simp [WriteSlots.release, hr]
  | some r => rfl

/-! ## What a call touches -/

/-- A call for a slot touches the mark of one record, and nothing else. -/
theorem perform_of_asks {call : SlotCall} (h : call.asks = some path) :
    ∃ mark, call.perform s g = g.modify path fun r => r.withWriting mark := by
  -- a call that changes nothing leaves the mark that the record has
  have hsame : ∃ mark, g = g.modify path fun r => r.withWriting mark := by
    refine ⟨g.holdsSlot path, (Registry.modify_of_same fun r hr => ?_).symm⟩
    rw [Registry.holdsSlot_of_find? hr]
    rfl
  have hacquire : ∃ mark, perform s g (acquire path) =
      g.modify path fun r => r.withWriting mark := by
    obtain ⟨-, h⟩ | ⟨r, -, ⟨-, h⟩ | ⟨-, -, h⟩ | ⟨-, -, h⟩⟩ := s.acquire_cases g path
    · simpa only [perform, h] using hsame
    · simpa only [perform, h] using hsame
    · simpa only [perform, h] using hsame
    · exact ⟨true, by simp only [perform, h]⟩
  have hrelease : ∃ mark, perform s g (release path) =
      g.modify path fun r => r.withWriting mark := by
    obtain ⟨-, h⟩ | ⟨r, -, -, h⟩ := WriteSlots.release_cases g path
    · simpa only [perform, h] using hsame
    · exact ⟨false, by simp only [perform, h]⟩
  cases call with
  | acquire q =>
    cases h
    exact hacquire
  | release q =>
    cases h
    exact hrelease
  | setWriting q value =>
    cases h
    cases value with
    | true => exact perform_setWriting_true ▸ hacquire
    | false => exact perform_setWriting_false ▸ hrelease
  | _ => cases h

theorem writingCount_acquire (s : WriteSlots) (g : Registry) (path : String) :
    (perform s g (acquire path)).writingCount = g.writingCount + (s.grants g path).toNat := by
  obtain ⟨-, h⟩ | ⟨r, hr, ⟨-, h⟩ | ⟨-, -, h⟩ | ⟨hw, -, h⟩⟩ := s.acquire_cases g path
  · simp [perform, WriteSlots.grants, h]
  · simp [perform, WriteSlots.grants, h, Grant.isGranted]
  · simp [perform, WriteSlots.grants, h, Grant.isGranted]
  · have hcount := Registry.writingCount_modify hr (fun r => r.withWriting true) fun _ => rfl
    rw [hw] at hcount
    simp only [perform, WriteSlots.grants, h]
    exact hcount

theorem writingCount_release (s : WriteSlots) (g : Registry) (path : String) :
    (perform s g (release path)).writingCount + (g.holdsSlot path).toNat = g.writingCount := by
  obtain ⟨hfree, h⟩ | ⟨r, hr, -, h⟩ := WriteSlots.release_cases g path
  · simp [perform, h, hfree]
  · have hcount := Registry.writingCount_modify hr (fun r => r.withWriting false) fun _ => rfl
    rw [Registry.holdsSlot_of_find? hr]
    simp only [perform, h]
    exact hcount

theorem writingCount_remove (s : WriteSlots) (g : Registry) (path : String) :
    (perform s g (remove path)).writingCount + (g.holdsSlot path).toNat = g.writingCount := by
  show (g.remove path).writingCount + _ = _
  cases hr : g.find? path with
  | none =>
    have hsame : g.records.filter (fun r => r.path ≠ path) = g.records := by
      refine List.filter_eq_self.mpr fun r hmem => ?_
      exact decide_eq_true (Registry.find?_eq_none_iff.mp hr r hmem)
    rw [Registry.holdsSlot, hr]
    simp only [Registry.writingCount, Registry.remove, hsame, Option.any_none, Bool.toNat_false]
    rfl
  | some r =>
    rw [Registry.holdsSlot_of_find? hr, Registry.writingCount_eq, Registry.writingCount_eq]
    exact Registry.total_remove (fun r => r.writing.toNat) hr

theorem room_of_takes {call : SlotCall} (h : call.takes s g = true) :
    g.writingCount < s.ceiling := by
  have hroom {path : String} (hgrants : s.grants g path = true) : g.writingCount < s.ceiling := by
    obtain ⟨-, h⟩ | ⟨r, -, ⟨-, h⟩ | ⟨-, -, h⟩ | ⟨-, hroom, -⟩⟩ := s.acquire_cases g path
    · simp [WriteSlots.grants, h] at hgrants
    · simp [WriteSlots.grants, h, Grant.isGranted] at hgrants
    · simp [WriteSlots.grants, h, Grant.isGranted] at hgrants
    · exact hroom
  cases call with
  | acquire path => exact hroom h
  | setWriting path value =>
    cases value with
    | true => exact hroom h
    | false => cases h
  | _ => cases h

/-- A call moves the slots in use by the one that it takes, gives back or evicts. -/
theorem writingCount_perform (s : WriteSlots) (g : Registry) (call : SlotCall) :
    (call.perform s g).writingCount + (call.givesBack g).toNat + (call.evicts g).toNat =
      g.writingCount + (call.takes s g).toNat := by
  cases call with
  | register path size owner clientPath =>
    simp only [perform]
    cases hreg : g.register path size owner clientPath with
    | error e => rfl
    | ok x =>
      have hcount := Registry.total_register (fun r => r.writing.toNat) hreg
      rw [← Registry.writingCount_eq, ← Registry.writingCount_eq] at hcount
      exact hcount
  | enqueue path f =>
    simp only [perform, Registry.enqueue, Registry.get]
    cases hr : g.find? path with
    | none => rfl
    | some r =>
      by_cases hfits : f.stop ≤ r.size
      · simp only [if_pos hfits]
        exact Registry.writingCount_modify_of_same hr (fun r => r.enqueue f) (fun _ => rfl) rfl
      · simp only [if_neg hfits]
        rfl
  | remove path => exact writingCount_remove s g path
  | acquire path => exact writingCount_acquire s g path
  | release path =>
    have hheld : (WriteSlots.release g path).2 = g.holdsSlot path := by
      obtain ⟨hfree, h⟩ | ⟨r, hr, hw, h⟩ := WriteSlots.release_cases g path
      · rw [h, hfree]
      · rw [h, Registry.holdsSlot_of_find? hr, hw]
    show _ + (WriteSlots.release g path).2.toNat = _
    rw [hheld]
    exact writingCount_release s g path
  | setWriting path value =>
    cases value with
    | true =>
      rw [perform_setWriting_true]
      exact writingCount_acquire s g path
    | false =>
      rw [perform_setWriting_false]
      exact writingCount_release s g path

end SlotCall

/-- A registry, and how many slots in it were granted, given back, and lost with an upload so far. -/
structure SlotAccount where
  registry : Registry
  granted : Nat
  givenBack : Nat
  evicted : Nat

namespace SlotAccount

/-- No upload, and no slot granted yet. -/
def opening : SlotAccount := ⟨.empty, 0, 0, 0⟩

/-- The account after a call. -/
def step (s : WriteSlots) (a : SlotAccount) (call : SlotCall) : SlotAccount where
  registry := call.perform s a.registry
  granted := a.granted + (call.takes s a.registry).toNat
  givenBack := a.givenBack + (call.givesBack a.registry).toNat
  evicted := a.evicted + (call.evicts a.registry).toNat

/-- The account after calls, one after another. -/
def run (s : WriteSlots) (calls : List SlotCall) : SlotAccount := calls.foldl (step s) opening

/-- The slots in use are within the ceiling, and are those granted that neither were given back nor
went with their upload. -/
structure Balanced (s : WriteSlots) (a : SlotAccount) : Prop where
  within : a.registry.writingCount ≤ s.ceiling
  balance : a.registry.writingCount + a.givenBack + a.evicted = a.granted

theorem balanced_step {s : WriteSlots} {a : SlotAccount} (h : a.Balanced s) (call : SlotCall) :
    (a.step s call).Balanced s := by
  have hmoved := call.writingCount_perform s a.registry
  have hwithin := h.within
  have hbalance := h.balance
  constructor
  · show (call.perform s a.registry).writingCount ≤ s.ceiling
    cases htakes : call.takes s a.registry with
    | false =>
      rw [htakes, Bool.toNat_false] at hmoved
      omega
    | true =>
      -- where a slot is granted, one was free before
      have hroom := SlotCall.room_of_takes htakes
      rw [htakes, Bool.toNat_true] at hmoved
      omega
  · show (call.perform s a.registry).writingCount + (a.givenBack + (call.givesBack a.registry).toNat) +
      (a.evicted + (call.evicts a.registry).toNat) = a.granted + (call.takes s a.registry).toNat
    omega

theorem balanced_run (s : WriteSlots) (calls : List SlotCall) : (run s calls).Balanced s := by
  have hkeep : ∀ a : SlotAccount, a.Balanced s → (calls.foldl (step s) a).Balanced s := by
    induction calls with
    | nil => exact fun a h => h
    | cons call rest ih => exact fun a h => ih _ (balanced_step h call)
  exact hkeep opening ⟨Nat.zero_le _, rfl⟩

end SlotAccount

/-- Slots are accounted for exactly. Whatever calls are made on a registry and for slots in it, no more
slots are in use than the ceiling, or one; they are those granted, less those given back, less those of
uploads that were removed. A request for a slot is granted exactly where the upload holds none and one is
free; to set or clear a mark answers the mark that the upload has then; what was removed can be registered
anew, and holds no slot then; and no call for a slot changes anything but the mark of one record. -/
theorem slots_balance (count : Nat) (calls : List SlotCall) :
    let s := WriteSlots.ofCount count
    let a := SlotAccount.run s calls
    let g := a.registry
    g.writingCount ≤ max count 1 ∧
    g.writingCount + a.givenBack + a.evicted = a.granted ∧
    (∀ path r, g.find? path = some r →
      (∃ next grant, s.acquire g path = .ok (next, grant) ∧
        (grant = .granted ↔ r.writing = false ∧ g.writingCount < max count 1) ∧
        next.holdsSlot path = (grant != .denied)) ∧
      ∀ value, ∃ next holds, s.setWriting g path value = .ok (next, holds) ∧
        next.holdsSlot path = holds) ∧
    (∀ path size owner clientPath,
      (∃ x, (g.remove path).register path size owner clientPath = .ok x) ∧
      ∀ next t, g.register path size owner clientPath = .ok (next, t) →
        ∃ r, next.find? path = some r ∧ r.writing = false) ∧
    ∀ (call : SlotCall) path, call.asks = some path →
      ∃ mark, call.perform s g = g.modify path fun r => r.withWriting mark := by
  intro s a g
  obtain ⟨hwithin, hbalance⟩ := SlotAccount.balanced_run s calls
  refine ⟨hwithin, hbalance, ?_, ?_, ?_⟩
  · intro path r hr
    exact ⟨s.acquire_of_find? hr, s.setWriting_of_find? hr⟩
  · intro path size owner clientPath
    have hfree : (g.remove path).find? path = none := by
      rw [Registry.find?_remove, if_pos rfl]
    refine ⟨Registry.register_of_free hfree size owner clientPath, fun next t hreg => ?_⟩
    refine ⟨.new g.nextId path size owner clientPath, ?_, rfl⟩
    rw [Registry.find?_register hreg, if_pos rfl]
  · intro call path hasks
    exact SlotCall.perform_of_asks hasks

end ResumableUpload
