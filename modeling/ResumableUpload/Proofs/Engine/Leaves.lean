import ResumableUpload.Engine.Faults
import ResumableUpload.Proofs.Course.Endings
import ResumableUpload.Proofs.Course.Orderly
import ResumableUpload.Proofs.Disk.Tree
import ResumableUpload.Proofs.Engine.Submit

/-
  Leaves — what a call for one path leaves to the others

  A call touches the record of its own path and no other, and tells of no other
  path. Of the disk it touches the file of its path, and the directories on the
  way there. A pump that is run to its end gives its slot back, whatever fails,
  so after calls that run to their ends nobody holds a slot.

  What is held:
    1. `Engine.told` — what was told of a path.
    2. `Engine.Leaves` — the records and events of other paths are left.
    3. `Engine.Idle` — nobody holds a slot.
    4. `Engine.Tended` — a call that leaves other paths alone, on the disk too,
       and after which nobody holds a slot.

  What is proved:
    1. `leaves_takeNext`, `leaves_begin`, `leaves_land`, `leaves_remove` — the
       steps leave other paths.
    2. `tends_finishWith` — so does a delivery, on the disk, whatever fails.
    3. `tended_resumeWith`, `tended_driveForWith` — a pump gives its slot back
       when it ends; `Idle.begin_eq_takeNext` — so the next one gets one.
    4. `tended_init`, `tended_pumpWith`, `tended_submitWith`, `tended_remove`,
       `tended_discardWith` — and whole calls.
-/

namespace ResumableUpload

namespace Engine

/-- The events told of a path, in their order. -/
def told (e : Engine) (path : String) : List Event := e.feed.sent.filter fun x => x.path = path

/-- A later engine, with the records and events of all other paths as they were. -/
structure Leaves (path : String) (e e' : Engine) : Prop extends Later e e' where
  record : ∀ q, q ≠ path → e'.registry.find? q = e.registry.find? q
  told : ∀ q, q ≠ path → e'.told q = e.told q

/-- Nobody holds a slot. -/
def Idle (e : Engine) : Prop := ∀ q r, e.registry.find? q = some r → r.writing = false

variable {e e' : Engine} {path q : String} {p : Pump} {flight : Flight} {base names : Location}

/-! ## Single steps -/

namespace Leaves

theorem refl (e : Engine) (path : String) : Leaves path e e :=
  ⟨.refl e, fun _ _ => rfl, fun _ _ => rfl⟩

theorem trans {a b c : Engine} (hab : Leaves path a b) (hbc : Leaves path b c) : Leaves path a c :=
  ⟨hab.toLater.trans hbc.toLater, fun q hq => (hbc.record q hq).trans (hab.record q hq),
    fun q hq => (hbc.told q hq).trans (hab.told q hq)⟩

theorem of_sent (hlater : Later e e')
    (hrecord : ∀ q, q ≠ path → e'.registry.find? q = e.registry.find? q) {news : List Event}
    (hsent : e'.feed.sent = e.feed.sent ++ news) (hnews : ∀ x ∈ news, x.path = path) :
    Leaves path e e' := by
  refine ⟨hlater, hrecord, fun q hq => ?_⟩
  have hnone : news.filter (fun x => x.path = q) = [] := by
    rw [List.filter_eq_nil_iff]
    intro x hx hpath
    exact hq ((of_decide_eq_true hpath).symm.trans (hnews x hx))
  rw [Engine.told, hsent, List.filter_append, hnone, List.append_nil]
  rfl

theorem of_feed (hlater : Later e e')
    (hrecord : ∀ q, q ≠ path → e'.registry.find? q = e.registry.find? q)
    (hfeed : e'.feed = e.feed) : Leaves path e e' := by
  refine ⟨hlater, hrecord, fun q hq => ?_⟩
  rw [Engine.told, hfeed]
  rfl

end Leaves

theorem leaves_modify (e : Engine) (path : String) (change : Record → Record)
    (keeps : ∀ r, (change r).path = r.path) : Leaves path e (e.modify path change keeps) := by
  refine .of_feed (.of_feed rfl rfl rfl rfl) (fun q hq => ?_) rfl
  show (e.registry.modify path change keeps).find? q = _
  rw [Registry.find?_modify, if_neg hq]

theorem leaves_note (e : Engine) (path : String) (notice : Notice) :
    Leaves path e (e.note notice) :=
  .of_feed (.of_feed rfl rfl rfl rfl) (fun _ _ => rfl) rfl

theorem leaves_takeNext (e : Engine) (p : Pump) : Leaves p.path e (e.takeNext p).1 :=
  .of_feed (later_takeNext e p) (fun _ hq => find?_takeNext_of_ne hq) (feed_takeNext e p)

theorem leaves_begin (e : Engine) (path : String) : Leaves path e (e.begin path).1 := by
  obtain ⟨-, hbegin⟩ | ⟨r, -, ⟨-, hbegin⟩ | ⟨-, hbegin⟩ | ⟨-, -, hbegin⟩⟩ := e.begin_cases path
  · rw [hbegin]
    exact .refl e path
  · rw [hbegin]
    exact .refl e path
  · rw [hbegin]
    exact leaves_note e path _
  · rw [hbegin]
    exact (leaves_modify e path (fun r => r.withWriting true) fun _ => rfl).trans
      (leaves_takeNext _ ⟨path, r.id, none, none⟩)

/-- The end of a delivery, taken apart: the fragment is accounted, and the next one taken. -/
def account (e : Engine) (flight : Flight) (r : Record) : Except OsError FileWriter → Engine × Pump
  | .error cause => e.accountFailure flight cause
  | .ok w => e.accountWrite flight r w

section Account

variable {r : Record} (result : Except OsError FileWriter)
  (hr : e.registry.owned? flight.pump.path flight.pump.id = some r)
include hr

theorem land_of_owned : e.land flight result =
    (e.account flight r result).1.takeNext (e.account flight r result).2 := by
  simp only [land, hr]
  cases result <;> rfl

theorem leaves_account : Leaves flight.pump.path e (e.account flight r result).1 := by
  cases result with
  | error cause =>
    refine .of_sent ⟨rfl, rfl, rfl, List.prefix_append _ _⟩ (fun _ _ => rfl) rfl ?_
    intro x hx
    rw [List.mem_singleton.mp hx]
    rfl
  | ok w =>
    refine .of_sent (later_accountWrite e flight r w) (fun q hq => ?_) (sent_accountWrite hr w) ?_
    · rw [show (e.account flight r (.ok w)).1 = (e.accountWrite flight r w).1 from rfl,
        registry_accountWrite, Registry.find?_modify, if_neg hq]
    · intro x hx
      unfold Record.news at hx
      split at hx
      · rw [List.mem_singleton.mp hx]
        exact Registry.path_of_find? (Registry.owned?_eq_some_iff.mp hr).1
      · cases hx

theorem account_cases :
    (e.account flight r result).2.path = flight.pump.path ∧
    (e.account flight r result).2.id = flight.pump.id ∧
    (∃ s, (e.account flight r result).1.registry.owned? flight.pump.path flight.pump.id = some s) ∧
    (e.account flight r result).1.disk = e.disk ∧
    ∀ w, (e.account flight r result).2.writer = some w → result = .ok w := by
  cases result with
  | error cause => exact ⟨rfl, rfl, ⟨r, hr⟩, rfl, fun _ h => by cases h⟩
  | ok w =>
    refine ⟨rfl, rfl, ⟨_, owned?_accountWrite hr w⟩, disk_accountWrite e flight r w, fun v hv => ?_⟩
    exact congrArg Except.ok (Option.some.inj hv)

theorem leaves_land : Leaves flight.pump.path e (e.land flight result).1 := by
  obtain ⟨hpath, -⟩ := account_cases result hr
  rw [land_of_owned result hr]
  exact (leaves_account result hr).trans (hpath ▸ leaves_takeNext _ _)

end Account

end Engine

/-! ## Deliveries and deletions -/

namespace Delivery

variable {s : Storage} {d : Disk} {base names : Location} {path : String} {x : Delivery}

/-- A delivery tends the file of its path, and leaves no other open. -/
theorem tends_finishWith (hbound : x.Bound base names) (h : s.Grounded d base)
    (hpath : Storage.resolve path = .ok names) (f : Fragment) (faults : Faults) :
    s.Tends base names d (x.finishWith s path f faults d).1.1 ∧
      ∀ w, (x.finishWith s path f faults d).1.2 = .ok w → w.file.loc = base ++ names := by
  -- by the operations that are left
  induction hn : x.left f using Nat.strongRecOn generalizing x d faults with
  | ind n ih =>
    rw [finishWith_eq]
    cases faults.head?.join with
    | some fault => exact ⟨hbound.tends_fail h hpath f fault.done, fun _ h => by cases h⟩
    | none =>
      obtain ⟨htends, hafter⟩ := hbound.advance h hpath f
      cases hadvance : x.advance s path f d with
      | mk d' state =>
        rw [hadvance] at htends hafter
        cases state with
        | ended result =>
          refine ⟨htends, fun w hw => ?_⟩
          obtain rfl : result = .ok w := hw
          exact hafter
        | onward next =>
          have hfewer : next.left f < n := hn ▸ left_of_onward hadvance
          obtain ⟨hrest, hopen⟩ := ih _ hfewer hafter htends.grounded faults.tail rfl
          exact ⟨htends.trans hrest, hopen⟩

end Delivery

theorem Storage.tends_deleteWith {s : Storage} {d : Disk} {base names : Location} {path : String}
    (h : s.Grounded d base) (hpath : Storage.resolve path = .ok names) (fault : Option DiskFault) :
    s.Tends base names d (s.deleteWith d path fault).1 := by
  cases fault with
  | none => exact tends_delete h hpath
  | some fault =>
    simp only [deleteWith, hpath]
    split <;> exact .refl h names

namespace Engine

variable {e e' : Engine} {path : String} {p : Pump} {flight : Flight} {base names : Location}

/-! ## Whole calls -/

/-- A pump serves the upload that is there, and has no file open but that of its path. -/
structure Serves (path : String) (base names : Location) (e : Engine) (p : Pump) : Prop where
  path : p.path = path
  owned : ∃ r, e.registry.owned? p.path p.id = some r
  bound : ∀ w, p.writer = some w → w.file.loc = base ++ names

/-- A call leaves other paths alone, on the disk too, and nobody holds the slot of its path then. -/
structure Tended (path : String) (base names : Location) (e e' : Engine) : Prop where
  leaves : Leaves path e e'
  disk : e.storage.Tends base names e.disk e'.disk
  free : ∀ r, e'.registry.find? path = some r → r.writing = false

theorem Tended.idle (h : Tended path base names e e') (hidle : e.Idle) : e'.Idle := by
  intro q r hr
  by_cases hq : q = path
  · exact h.free r (hq ▸ hr)
  · exact hidle q r ((h.leaves.record q hq) ▸ hr)

theorem Tended.trans {a b c : Engine} (hleaves : Leaves path a b)
    (hdisk : a.storage.Tends base names a.disk b.disk) (h : Tended path base names b c) :
    Tended path base names a c :=
  ⟨hleaves.trans h.leaves, hdisk.trans (hleaves.storage ▸ h.disk), h.free⟩

theorem Idle.tended (hidle : e.Idle) (h : e.storage.Grounded e.disk base) (path : String)
    (names : Location) : Tended path base names e e :=
  ⟨.refl e path, .refl h names, fun r hr => hidle path r hr⟩

theorem Idle.accepted (hidle : e.Idle) (path : String) (f : Fragment) (notice : Notice) :
    ((e.modify path fun r => r.enqueue f).note notice).Idle := by
  intro q s hs
  have hs' : (e.registry.modify path fun r => r.enqueue f).find? q = some s := hs
  rw [Registry.find?_modify] at hs'
  split at hs'
  · obtain ⟨old, hold, rfl⟩ := Option.map_eq_some_iff.mp hs'
    exact hidle q old hold
  · exact hidle q s hs'

theorem idle_iff : e.Idle ↔ e.registry.writingCount = 0 := by
  rw [Registry.writingCount, List.countP_eq_zero]
  constructor
  · intro h r hr hwriting
    rw [h r.path r (Registry.find?_eq_some_iff.mpr ⟨hr, rfl⟩)] at hwriting
    cases hwriting
  · intro h q r hr
    exact Bool.eq_false_of_not_eq_true (h r (Registry.find?_eq_some_iff.mp hr).1)

/-- Where nobody holds a slot, a pump is refused none. -/
theorem Idle.begin_eq_takeNext (hidle : e.Idle) {r : Record} (hr : e.registry.find? path = some r) :
    e.begin path =
      (e.modify path fun r => r.withWriting true).takeNext ⟨path, r.id, none, none⟩ := by
  refine Engine.begin_eq_takeNext hr (hidle path r hr) ?_
  rw [idle_iff.mp hidle]
  exact e.slots.ceiling_pos

theorem takeNext_serves (hserves : Serves path base names e p) :
    (∀ result, (e.takeNext p).2 = .ended result →
      ∀ r, (e.takeNext p).1.registry.find? path = some r → r.writing = false) ∧
    ∀ next, (e.takeNext p).2 = .inFlight next →
      Serves path base names (e.takeNext p).1 next.pump := by
  obtain ⟨r, hr⟩ := hserves.owned
  constructor
  · intro result hresult s hs
    obtain ⟨t, -, hrest⟩ := takeNext_ended_of_owned hr hresult
    rw [← hserves.path, hrest.1] at hs
    rw [← Option.some.inj hs]
    exact hrest.2.1.free
  · intro next hnext
    have hpump : next.pump = p := Course.pump_of_takeNext hnext
    cases hpop : r.queue.pop? with
    | none =>
      simp only [takeNext, hr, hpop] at hnext
      split at hnext <;> cases hnext
    | some y =>
      rw [hpump, takeNext_of_pop? hr hpop]
      refine ⟨hserves.path, ⟨r.withQueue y.2, ?_⟩, hserves.bound⟩
      exact Registry.owned?_modify_self hr (fun r => r.withQueue y.2) (fun _ => rfl) rfl

/-- A pump that goes on from a pause tends its path, and gives its slot back when it ends. -/
theorem tended_resumeWith (hserves : Serves path base names e flight.pump)
    (h : e.storage.Grounded e.disk base) (hpath : Storage.resolve path = .ok names)
    (faults : Faults) :
    let after := (e.resumeWith flight faults).1
    Leaves path e after.1 ∧ e.storage.Tends base names e.disk after.1.disk ∧
      (∀ result, after.2 = .ended result →
        ∀ r, after.1.registry.find? path = some r → r.writing = false) ∧
      ∀ next, after.2 = .inFlight next → Serves path base names after.1 next.pump ∧
        e.waitingBehind flight = after.1.waitingBehind next + 1 := by
  obtain ⟨rfl, ⟨r, hr⟩, hbound⟩ := hserves
  obtain ⟨htends, hopen⟩ := Delivery.tends_finishWith (Delivery.bound_start hbound) h hpath
    flight.fragment faults
  unfold resumeWith
  cases hfinish : (Delivery.start flight.pump.writer).finishWith e.storage flight.pump.path
      flight.fragment faults e.disk with
  | mk reached rest =>
    obtain ⟨disk, result⟩ := reached
    rw [hfinish] at htends hopen
    let e₁ : Engine := { e with disk }
    have hr₁ : e₁.registry.owned? flight.pump.path flight.pump.id = some r := hr
    have hleaves : Leaves flight.pump.path e e₁ := .of_feed (.of_feed rfl rfl rfl rfl)
      (fun _ _ => rfl) rfl
    obtain ⟨hpath', hid, hthere, hdisk, hwriter⟩ := account_cases result hr₁
    have hserves : Serves flight.pump.path base names (e₁.account flight r result).1
        (e₁.account flight r result).2 :=
      ⟨hpath', by rwa [hpath', hid], fun w hw => hopen w (hwriter w hw)⟩
    obtain ⟨hended, hnext⟩ := takeNext_serves hserves
    rw [← land_of_owned result hr₁] at hended hnext
    refine ⟨hleaves.trans (leaves_land result hr₁), ?_, hended, fun next hflight => ⟨hnext next hflight, ?_⟩⟩
    · show e.storage.Tends base names e.disk (e₁.land flight result).1.disk
      rw [Course.disk_land]
      exact htends
    · obtain ⟨hsame, hsameId, hwaiting⟩ := waiting_of_land (Prod.ext rfl hflight)
      rw [waitingBehind_eq, waitingBehind_eq, hsame, hsameId]
      exact congrArg List.length hwaiting

theorem tended_driveForWith {left : Nat} {e : Engine} {flight : Flight}
    (hleft : e.waitingBehind flight ≤ left)
    (hserves : Serves path base names e flight.pump) (h : e.storage.Grounded e.disk base)
    (hpath : Storage.resolve path = .ok names) (faults : Faults) :
    Tended path base names e (driveForWith left e flight faults).1 := by
  obtain ⟨hleaves, hdisk, hended, honward⟩ := tended_resumeWith hserves h hpath faults
  rw [driveForWith]
  rcases hresume : e.resumeWith flight faults with ⟨⟨e', result | next⟩, rest⟩
  · rw [hresume] at hleaves hdisk hended
    exact ⟨hleaves, hdisk, hended result rfl⟩
  · rw [hresume] at hleaves hdisk honward
    obtain ⟨hserves', hwaiting⟩ := honward next rfl
    have hgrounded : e'.storage.Grounded e'.disk base := by
      rw [hleaves.storage]
      exact hdisk.grounded
    -- by the steps that are left; one is left, as the pump goes on
    cases left with
    | zero => omega
    | succ left =>
      exact Tended.trans hleaves hdisk (tended_driveForWith (by omega) hserves' hgrounded hpath rest)

/-- A pump that is begun and run to its end tends its path. -/
theorem tended_pumpWith (hidle : e.Idle) (h : e.storage.Grounded e.disk base)
    (hpath : Storage.resolve path = .ok names) (faults : Faults) :
    Tended path base names e (e.pumpWith path faults).1 := by
  have hleaves := leaves_begin e path
  have hdisk : e.storage.Tends base names e.disk (e.begin path).1.disk := by
    rw [Course.disk_begin]
    exact .refl h names
  unfold pumpWith
  obtain ⟨-, hbegin⟩ | ⟨r, hr, ⟨-, hbegin⟩ | ⟨-, hbegin⟩ | ⟨-, -, hbegin⟩⟩ := e.begin_cases path
  · rw [hbegin]
    exact hidle.tended h path names
  · rw [hbegin]
    exact hidle.tended h path names
  · rw [hbegin] at hleaves hdisk ⊢
    exact ⟨hleaves, hdisk, fun r hr => hidle path r hr⟩
  · have hserves : Serves path base names (e.modify path fun r => r.withWriting true)
        ⟨path, r.id, none, none⟩ :=
      ⟨rfl, ⟨r.withWriting true, Registry.owned?_withWriting hr true⟩, fun _ h => by cases h⟩
    obtain ⟨hended, honward⟩ := takeNext_serves hserves
    rw [hbegin] at hleaves hdisk ⊢
    cases htake : (e.modify path fun r => r.withWriting true).takeNext ⟨path, r.id, none, none⟩ with
    | mk e' state =>
      rw [htake] at hleaves hdisk hended honward
      cases state with
      | ended result => exact ⟨hleaves, hdisk, hended result rfl⟩
      | inFlight flight =>
        have hgrounded : e'.storage.Grounded e'.disk base := by
          rw [hleaves.storage]
          exact hdisk.grounded
        exact Tended.trans hleaves hdisk
          (tended_driveForWith (Nat.le_refl _) (honward flight rfl) hgrounded hpath faults)

theorem tended_submitWith (hidle : e.Idle) (h : e.storage.Grounded e.disk base)
    (hpath : Storage.resolve path = .ok names) (f : Fragment) (faults : Faults) :
    Tended path base names e (e.submitWith path f faults).1 := by
  unfold submitWith beginSubmit
  cases haccept : e.accept path f with
  | error err => exact hidle.tended h path names
  | ok e' =>
    obtain ⟨r, notice, hr, -, rfl⟩ := accept_eq_ok haccept
    have hleaves : Leaves path e ((e.modify path fun r => r.enqueue f).note notice) :=
      (leaves_modify e path (fun r => r.enqueue f) fun _ => rfl).trans (leaves_note _ path notice)
    exact Tended.trans hleaves (.refl h names)
      (tended_pumpWith (hidle.accepted path f notice) h hpath faults)

theorem tended_init {size : Nat} {owner : Int} {clientPath : String} {t : Ticket}
    (hinit : e.init path size owner clientPath = .ok (e', t))
    (h : e.storage.Grounded e.disk base) (names : Location) : Tended path base names e e' := by
  obtain ⟨registry, notice, hreg, rfl⟩ := init_eq_ok hinit
  obtain ⟨-, -, ht⟩ := Registry.register_eq_ok hreg
  have hfind : ∀ q, (({ e with registry }.note notice).announceIfEmpty t).registry.find? q =
      if q = path then some (Record.new e.registry.nextId path size owner clientPath)
      else e.registry.find? q := by
    intro q
    rw [registry_announceIfEmpty]
    exact Registry.find?_register hreg q
  refine ⟨.of_sent (later_init hinit) (fun q hq => by rw [hfind, if_neg hq])
    (sent_announceIfEmpty _ t) ?_, ?_, ?_⟩
  · intro x hx
    unfold Ticket.news at hx
    split at hx
    · rw [List.mem_singleton.mp hx, ht]
      rfl
    · cases hx
  · rw [disk_announceIfEmpty]
    exact .refl h names
  · intro r hr
    rw [hfind, if_pos rfl] at hr
    rw [← Option.some.inj hr]
    rfl

theorem leaves_remove (e : Engine) (path : String) : Leaves path e (e.remove path) := by
  unfold remove
  split
  · exact .refl e path
  · refine .of_sent ⟨rfl, rfl, rfl, List.prefix_append _ _⟩ (fun q hq => ?_) rfl ?_
    · show (e.registry.remove path).find? q = _
      rw [Registry.find?_remove, if_neg hq]
    · intro x hx
      rw [List.mem_singleton.mp hx]
      rfl

theorem find?_remove_self (e : Engine) (path : String) :
    (e.remove path).registry.find? path = none := by
  unfold remove
  split
  · assumption
  · show (e.registry.remove path).find? path = none
    rw [Registry.find?_remove, if_pos rfl]

theorem tended_remove (h : e.storage.Grounded e.disk base) (path : String) (names : Location) :
    Tended path base names e (e.remove path) := by
  refine ⟨leaves_remove e path, ?_, fun r hr => ?_⟩
  · rw [Course.disk_remove]
    exact .refl h names
  · rw [find?_remove_self] at hr
    cases hr

theorem tended_discardWith (h : e.storage.Grounded e.disk base)
    (hpath : Storage.resolve path = .ok names) (faults : Faults) :
    Tended path base names e (e.discardWith path faults).1 := by
  obtain ⟨hleaves, hdisk, hfree⟩ := tended_remove h path names
  refine ⟨⟨⟨hleaves.storage, hleaves.slots, hleaves.maxUploadSize, hleaves.sent⟩, hleaves.record,
    hleaves.told⟩, ?_, hfree⟩
  show e.storage.Tends base names e.disk
    ((e.remove path).storage.deleteWith (e.remove path).disk path faults.head?.join).1
  rw [hleaves.storage, Course.disk_remove]
  exact Storage.tends_deleteWith h hpath _

end Engine

end ResumableUpload
