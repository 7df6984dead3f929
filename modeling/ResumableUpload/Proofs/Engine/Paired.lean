import ResumableUpload.Proofs.Disk.Alike
import ResumableUpload.Proofs.Engine.Admission
import ResumableUpload.Proofs.Engine.Leaves

/-
  Paired — two engines that do the same for one upload

  Two engines are alike for an upload if they have the same of it: its record but
  for the number, the events told of it, and trees that its file cannot tell
  apart. A call for the upload comes to the same in both, with the same faults,
  and leaves them alike; a call for another one leaves them alike too, made in
  one of them alone. No slot is held between calls, so none is ever refused.

  What is held:
    1. `Record.unnumbered`, `Ticket.unnumbered` — what is left without the
       number of a registration.
    2. `Engine.Alike` — engines that one upload cannot tell apart.
    3. `Engine.Matched` — pumps that serve the upload, each in its engine;
       `Engine.Paired` — and stand at the same point.
    4. `Engine.Even` — what a step comes to in both.

  What is proved:
    1. `Abreast.finishWith` — a delivery comes to the same in both trees,
       whatever fails.
    2. `Alike.elsewhere` — a call for another upload leaves engines alike.
    3. `Paired.takeNext`, `Matched.land`, `Paired.resumeWith`,
       `Even.settleWith` — the steps of a pump come to the same.
    4. `Alike.init`, `Alike.status`, `Alike.pumpWith`, `Alike.submitWith`,
       `Alike.remove`, `Alike.discardWith` — and so do whole calls.
-/

namespace ResumableUpload

/-- The record without the number of its registration. -/
def Record.unnumbered (r : Record) : Record := { r with id := 0 }

/-- The ticket without the number of its registration. -/
def Ticket.unnumbered (t : Ticket) : Ticket := { t with id := 0 }

theorem Record.of_unnumbered {r r' : Record} (h : r.unnumbered = r'.unnumbered) :
    r.queue = r'.queue ∧ r.size = r'.size ∧ r.saved = r'.saved ∧ r.completed = r'.completed ∧
      r.status = r'.status :=
  ⟨(congrArg Record.queue h :), (congrArg Record.size h :), (congrArg Record.saved h :),
    (congrArg Record.completed h :), (congrArg Record.status h :)⟩

/-! ## Deliveries and deletions -/

theorem Storage.Alike.deleteWith {s : Storage} {base names : Location} {d d' : Disk} {path : String}
    (h : s.Alike base names d d') (hpath : resolve path = .ok names) (hshort : Short names)
    (fault : Option DiskFault) :
    s.Alike base names (s.deleteWith d path fault).1 (s.deleteWith d' path fault).1 ∧
      (s.deleteWith d path fault).2 = (s.deleteWith d' path fault).2 := by
  cases fault with
  | none =>
    obtain ⟨hsome, -⟩ := resolve_eq_ok hpath
    obtain ⟨ns, x, rfl⟩ := (List.eq_nil_or_concat names).resolve_left hsome
    rw [List.concat_eq_append] at *
    obtain ⟨hanswer, hafter⟩ := h.delete hpath hshort
    exact ⟨hafter, hanswer⟩
  | some fault =>
    unfold Storage.deleteWith
    simp only [hpath]
    split <;> exact ⟨h, rfl⟩

namespace Delivery

variable {s : Storage} {base names : Location} {d d' : Disk} {x x' : Delivery} {path : String}

theorem Abreast.fail (hx : Abreast base names d d' x x') (h : s.Alike base names d d')
    (hpath : Storage.resolve path = .ok names) (f : Fragment) (count : Nat) :
    s.Alike base names (x.fail s path f count d) (x'.fail s path f count d') := by
  cases hx with
  | directories =>
    have hpaves := Storage.paves_makeSome h.left hpath count
    have hpaves' := Storage.paves_makeSome h.right hpath count
    refine h.both hpaves.toTends hpaves'.toTends ?_
    unfold Delivery.fail
    rw [hpaves.file, hpaves'.file]
    exact h.file
  | opening => exact h
  | seeking => exact h
  | writing hw hw' done => exact (h.place hw hw' _ _).1

/-- Two deliveries that are carried out with the same faults come to the same. -/
theorem Abreast.finishWith (hx : Abreast base names d d' x x') (h : s.Alike base names d d')
    (hpath : Storage.resolve path = .ok names) (hshort : Storage.Short names) (f : Fragment)
    (faults : Faults) :
    let r := x.finishWith s path f faults d
    let r' := x'.finishWith s path f faults d'
    s.Alike base names r.1.1 r'.1.1 ∧ r.2 = r'.2 ∧
      Disk.Even (fun d w => d.Holds base names w) r.1 r'.1 := by
  -- by the operations that are left
  induction hn : x.left f using Nat.strongRecOn generalizing x x' d d' faults with
  | ind n ih =>
    dsimp only
    rw [finishWith_eq, finishWith_eq]
    cases faults.head?.join with
    | some fault => exact ⟨hx.fail h hpath f fault.done, rfl, .inl ⟨fault.cause, rfl, rfl⟩⟩
    | none =>
      obtain ⟨hafter, hkeeps⟩ := hx.advance h hpath hshort f
      cases hadvance : x.advance s path f d with
      | mk e state =>
        cases hadvance' : x'.advance s path f d' with
        | mk e' state' =>
          rw [hadvance, hadvance'] at hafter hkeeps
          cases hkeeps with
          | failed _ _ cause => exact ⟨hafter, rfl, .inl ⟨cause, rfl, rfl⟩⟩
          | done hw hw' => exact ⟨hafter, rfl, .inr ⟨_, _, ⟨rfl, hw⟩, rfl, hw'⟩⟩
          | onward hnext => exact ih _ (hn ▸ left_of_onward hadvance) hnext hafter faults.tail rfl

end Delivery

namespace Engine

/-- Engines that have the same of one upload, but for the numbers of registrations. -/
structure Alike (path : String) (base names : Location) (e e' : Engine) : Prop where
  storage : e.storage = e'.storage
  slots : e.slots = e'.slots
  maxUploadSize : e.maxUploadSize = e'.maxUploadSize
  record : (e.registry.find? path).map Record.unnumbered =
    (e'.registry.find? path).map Record.unnumbered
  told : e.told path = e'.told path
  disk : e.storage.Alike base names e.disk e'.disk

/-- Pumps that serve the upload, each in its engine, and failed so far in the same way. -/
structure Matched (path : String) (base names : Location) (e e' : Engine) (p p' : Pump) : Prop
    extends Alike path base names e e' where
  serves : p.path = path
  serves' : p'.path = path
  owned : ∃ r, e.registry.owned? path p.id = some r
  owned' : ∃ r, e'.registry.owned? path p'.id = some r
  failure : p.failure = p'.failure

/-- Pumps at the same point, which have the file open both or both not. -/
structure Paired (path : String) (base names : Location) (e e' : Engine) (p p' : Pump) : Prop
    extends Matched path base names e e' p p' where
  abreast : Delivery.Abreast base names e.disk e'.disk (.start p.writer) (.start p'.writer)

/-- What a step comes to in both engines: both pumps end with one result, or go on with one fragment. -/
inductive Even (path : String) (base names : Location) : Engine × Pumping → Engine × Pumping → Prop where
  | ended {e e' : Engine} (h : Alike path base names e e') (result : PumpResult) :
      Even path base names (e, .ended result) (e', .ended result)
  | inFlight {e e' : Engine} {p p' : Pump} (h : Paired path base names e e' p p') (f : Fragment) :
      Even path base names (e, .inFlight ⟨p, f⟩) (e', .inFlight ⟨p', f⟩)

variable {path q : String} {base names ms : Location} {e e' e₁ e₁' : Engine} {p p' : Pump}

namespace Alike

theorem refl (h : e.storage.Grounded e.disk base) (path : String) (names : Location) :
    Alike path base names e e :=
  ⟨rfl, rfl, rfl, rfl, rfl, .refl h names⟩

theorem record_cases (h : Alike path base names e e') :
    (e.registry.find? path = none ∧ e'.registry.find? path = none) ∨
    ∃ r r', e.registry.find? path = some r ∧ e'.registry.find? path = some r' ∧
      r.unnumbered = r'.unnumbered := by
  have hrecord := h.record
  cases hr : e.registry.find? path with
  | none =>
    rw [hr, Option.map_none] at hrecord
    exact .inl ⟨rfl, Option.map_eq_none_iff.mp hrecord.symm⟩
  | some r =>
    rw [hr, Option.map_some] at hrecord
    obtain ⟨r', hr', hsame⟩ := Option.map_eq_some_iff.mp hrecord.symm
    exact .inr ⟨r, r', rfl, hr', hsame.symm⟩

theorem modify (h : Alike path base names e e') (change : Record → Record)
    (keeps : ∀ r, (change r).path = r.path)
    (hchange : ∀ r, (change r).unnumbered = change r.unnumbered) :
    Alike path base names (e.modify path change keeps) (e'.modify path change keeps) := by
  refine ⟨h.storage, h.slots, h.maxUploadSize, ?_, h.told, h.disk⟩
  show ((e.registry.modify path change keeps).find? path).map Record.unnumbered =
    ((e'.registry.modify path change keeps).find? path).map Record.unnumbered
  rw [Registry.find?_modify, Registry.find?_modify, if_pos rfl, if_pos rfl]
  obtain ⟨hr, hr'⟩ | ⟨r, r', hr, hr', hsame⟩ := h.record_cases
  · rw [hr, hr']
  · rw [hr, hr', Option.map_some, Option.map_some, Option.map_some, Option.map_some, hchange, hchange,
      hsame]

theorem note (h : Alike path base names e e') (n n' : Notice) :
    Alike path base names (e.note n) (e'.note n') :=
  ⟨h.storage, h.slots, h.maxUploadSize, h.record, h.told, h.disk⟩

theorem emit (h : Alike path base names e e') (x : Event) :
    Alike path base names (e.emit x) (e'.emit x) := by
  refine ⟨h.storage, h.slots, h.maxUploadSize, h.record, ?_, h.disk⟩
  show (e.feed.sent ++ [x]).filter _ = (e'.feed.sent ++ [x]).filter _
  rw [List.filter_append, List.filter_append]
  exact congrArg (· ++ _) h.told

theorem withDisk (h : Alike path base names e e') {d d' : Disk}
    (hdisk : e.storage.Alike base names d d') :
    Alike path base names { e with disk := d } { e' with disk := d' } :=
  ⟨h.storage, h.slots, h.maxUploadSize, h.record, h.told, hdisk⟩

theorem of_later (h : Alike path base names e e') (hlater : Later e e₁) (hlater' : Later e' e₁')
    (hrecord : (e₁.registry.find? path).map Record.unnumbered =
      (e₁'.registry.find? path).map Record.unnumbered)
    {news : List Event} (hsent : e₁.feed.sent = e.feed.sent ++ news)
    (hsent' : e₁'.feed.sent = e'.feed.sent ++ news) (hdisk : e₁.disk = e.disk)
    (hdisk' : e₁'.disk = e'.disk) : Alike path base names e₁ e₁' := by
  refine ⟨hlater.storage.trans (h.storage.trans hlater'.storage.symm),
    hlater.slots.trans (h.slots.trans hlater'.slots.symm),
    hlater.maxUploadSize.trans (h.maxUploadSize.trans hlater'.maxUploadSize.symm), hrecord, ?_, ?_⟩
  · unfold Engine.told
    rw [hsent, hsent', List.filter_append, List.filter_append]
    exact congrArg (· ++ _) h.told
  · rw [hlater.storage, hdisk, hdisk']
    exact h.disk

theorem elsewhere (h : Alike path base names e e') (htended : Tended q base ms e e₁) (hq : path ≠ q)
    (hnot : ¬ ms <+: names) (hnot' : ¬ names <+: ms) : Alike path base names e₁ e' := by
  have hleaves := htended.leaves
  refine ⟨hleaves.storage.trans h.storage, hleaves.slots.trans h.slots,
    hleaves.maxUploadSize.trans h.maxUploadSize, ?_, (hleaves.told path hq).trans h.told, ?_⟩
  · rw [hleaves.record path hq]
    exact h.record
  · rw [hleaves.storage]
    exact h.disk.elsewhere htended.disk hnot hnot'

end Alike

/-! ## The steps of a pump -/

namespace Matched

variable {f : Fragment}

theorem records (h : Matched path base names e e' p p') :
    ∃ r r', e.registry.owned? p.path p.id = some r ∧ e'.registry.owned? p'.path p'.id = some r' ∧
      r.unnumbered = r'.unnumbered := by
  obtain ⟨r, hr⟩ := h.owned
  obtain ⟨r', hr'⟩ := h.owned'
  refine ⟨r, r', by rwa [h.serves], by rwa [h.serves'], ?_⟩
  have hrecord := h.record
  rw [(Registry.owned?_eq_some_iff.mp hr).1, (Registry.owned?_eq_some_iff.mp hr').1] at hrecord
  exact Option.some.inj hrecord

theorem owned_modify {g : Registry} {id : UploadId} (h : ∃ r, g.owned? path id = some r)
    (change : Record → Record) (keeps : ∀ r, (change r).path = r.path)
    (hid : ∀ r, (change r).id = r.id) :
    ∃ r, (g.modify path change keeps).owned? path id = some r := by
  obtain ⟨r, hr⟩ := h
  exact ⟨change r, Registry.owned?_modify_self hr change keeps (hid r)⟩

theorem waitingBehind {flight flight' : Flight}
    (h : Matched path base names e e' flight.pump flight'.pump) :
    e.waitingBehind flight = e'.waitingBehind flight' := by
  obtain ⟨r, r', hr, hr', hsame⟩ := h.records
  unfold Engine.waitingBehind
  rw [hr, hr', Option.elim_some, Option.elim_some, (Record.of_unnumbered hsame).1]

end Matched

/-- Pumps that look for their next fragment find the same, or both find nothing. -/
theorem Paired.takeNext (h : Paired path base names e e' p p') :
    Even path base names (e.takeNext p) (e'.takeNext p') := by
  obtain ⟨r, r', hr, hr', hsame⟩ := h.records
  obtain ⟨hpath, hpath'⟩ := And.intro h.serves h.serves'
  obtain ⟨hqueue, -, hsaved, hcompleted, -⟩ := Record.of_unnumbered hsame
  cases hpop : r.queue.pop? with
  | some y =>
    have htaken := h.toAlike.modify (fun r => r.withQueue y.2) (fun _ => rfl) fun _ => rfl
    rw [takeNext_of_pop? hr hpop, takeNext_of_pop? hr' (hqueue ▸ hpop)]
    subst hpath
    rw [hpath']
    exact .inFlight ⟨⟨htaken, rfl, hpath',
      Matched.owned_modify h.owned (fun r => r.withQueue y.2) (fun _ => rfl) fun _ => rfl,
      Matched.owned_modify h.owned' (fun r => r.withQueue y.2) (fun _ => rfl) fun _ => rfl,
      h.failure⟩, h.abreast⟩ y.1
  | none =>
    have hfreed := h.toAlike.modify (fun r => r.withWriting false) (Record.path_withWriting false)
      fun _ => rfl
    have hfailure := h.failure
    have hpop' : r'.queue.pop? = none := hqueue ▸ hpop
    subst hpath
    simp only [Engine.takeNext, hr, hr', hpop, hpop', ← hfailure]
    rw [hpath']
    cases p.failure with
    | some failure => exact .ended (hfreed.note _ _) _
    | none =>
      rw [← hsaved, ← hcompleted]
      exact .ended (hfreed.note _ _) _

/-! What a delivery comes to is accounted in both engines. -/

section Account

variable {flight flight' : Flight} (h : Matched path base names e e' flight.pump flight'.pump)
  (hfragment : flight.fragment = flight'.fragment)
include h hfragment

theorem Matched.accountFailure (cause : OsError) :
    Paired path base names (e.accountFailure flight cause).1 (e'.accountFailure flight' cause).1
      (e.accountFailure flight cause).2 (e'.accountFailure flight' cause).2 := by
  refine ⟨⟨?_, h.serves, h.serves', h.owned, h.owned', ?_⟩, .directories⟩
  · unfold Engine.accountFailure
    dsimp only
    rw [h.serves, h.serves', ← hfragment]
    exact (h.toAlike.note _ _).emit _
  · unfold Engine.accountFailure
    dsimp only
    rw [h.failure, h.serves, h.serves', hfragment]

variable {r r' : Record} (hr : e.registry.owned? flight.pump.path flight.pump.id = some r)
  (hr' : e'.registry.owned? flight'.pump.path flight'.pump.id = some r')
  (hsame : r.unnumbered = r'.unnumbered)
include hr hr' hsame

theorem Matched.alike_accountWrite (w w' : FileWriter) :
    Alike path base names (e.accountWrite flight r w).1 (e'.accountWrite flight' r' w').1 := by
  have hcounted := h.toAlike.modify (fun r => r.recordWrite flight.fragment.range) (fun _ => rfl)
    fun _ => rfl
  have hnews : r.news flight.fragment.range = r'.news flight'.fragment.range :=
    hfragment ▸ (congrArg (fun r => r.news flight.fragment.range) hsame :)
  refine h.toAlike.of_later (later_accountWrite e flight r w) (later_accountWrite e' flight' r' w') ?_
    (sent_accountWrite hr w) (hnews ▸ sent_accountWrite hr' w') (disk_accountWrite e flight r w)
    (disk_accountWrite e' flight' r' w')
  rw [registry_accountWrite, registry_accountWrite, h.serves, h.serves', ← hfragment]
  exact hcounted.record

theorem Matched.accountWrite {w w' : FileWriter} (hw : e.disk.Holds base names w)
    (hw' : e'.disk.Holds base names w') :
    Paired path base names (e.accountWrite flight r w).1 (e'.accountWrite flight' r' w').1
      (e.accountWrite flight r w).2 (e'.accountWrite flight' r' w').2 := by
  refine ⟨⟨h.alike_accountWrite hfragment hr hr' hsame w w', h.serves, h.serves', ?_, ?_,
    h.failure⟩, ?_⟩
  · rw [registry_accountWrite, h.serves]
    exact Matched.owned_modify h.owned (fun r => r.recordWrite _) (fun _ => rfl) fun _ => rfl
  · rw [registry_accountWrite, h.serves']
    exact Matched.owned_modify h.owned' (fun r => r.recordWrite _) (fun _ => rfl) fun _ => rfl
  · rw [disk_accountWrite, disk_accountWrite]
    exact .seeking hw hw'

end Account

/-- The fragment in the hands of both pumps is accounted in both engines, and they go on the same. -/
theorem Matched.land {flight flight' : Flight}
    (h : Matched path base names e e' flight.pump flight'.pump)
    (hfragment : flight.fragment = flight'.fragment) {result result' : Except OsError FileWriter}
    (heven : Disk.Even (fun d w => d.Holds base names w) (e.disk, result) (e'.disk, result')) :
    Even path base names (e.land flight result) (e'.land flight' result') := by
  obtain ⟨r, r', hr, hr', hsame⟩ := h.records
  rw [land_of_owned result hr, land_of_owned result' hr']
  obtain ⟨cause, hfail, hfail'⟩ | ⟨w, w', ⟨hok, hw⟩, hok', hw'⟩ := heven
  · obtain rfl : result = .error cause := hfail
    obtain rfl : result' = .error cause := hfail'
    exact (h.accountFailure hfragment cause).takeNext
  · obtain rfl : result = .ok w := hok
    obtain rfl : result' = .ok w' := hok'
    exact (h.accountWrite hfragment hr hr' hsame hw hw').takeNext

/-- Pumps that go on from their pauses with the same faults come to the same. -/
theorem Paired.resumeWith {flight flight' : Flight}
    (h : Paired path base names e e' flight.pump flight'.pump)
    (hfragment : flight.fragment = flight'.fragment) (hpath : Storage.resolve path = .ok names)
    (hshort : Storage.Short names) (faults : Faults) :
    Even path base names (e.resumeWith flight faults).1 (e'.resumeWith flight' faults).1 ∧
      (e.resumeWith flight faults).2 = (e'.resumeWith flight' faults).2 := by
  obtain ⟨halike, hfaults, heven⟩ :=
    h.abreast.finishWith h.disk hpath hshort flight.fragment faults
  rcases hfinish : (Delivery.start flight.pump.writer).finishWith e.storage path flight.fragment
    faults e.disk with ⟨⟨disk, result⟩, rest⟩
  rcases hfinish' : (Delivery.start flight'.pump.writer).finishWith e.storage path flight.fragment
    faults e'.disk with ⟨⟨disk', result'⟩, rest'⟩
  rw [hfinish, hfinish'] at halike hfaults heven
  rw [← h.serves] at hfinish
  rw [← h.serves', hfragment, h.storage] at hfinish'
  have hafter : Matched path base names { e with disk } { e' with disk := disk' } flight.pump
      flight'.pump :=
    ⟨h.toAlike.withDisk halike, h.serves, h.serves', h.owned, h.owned', h.failure⟩
  unfold Engine.resumeWith
  rw [hfinish, hfinish']
  exact ⟨hafter.land hfragment heven, hfaults⟩

theorem Paired.driveForWith {left : Nat} {e e' : Engine} {flight flight' : Flight}
    (h : Paired path base names e e' flight.pump flight'.pump)
    (hfragment : flight.fragment = flight'.fragment) (hpath : Storage.resolve path = .ok names)
    (hshort : Storage.Short names) (faults : Faults) :
    Alike path base names (driveForWith left e flight faults).1
        (driveForWith left e' flight' faults).1 ∧
      (driveForWith left e flight faults).2 = (driveForWith left e' flight' faults).2 := by
  obtain ⟨heven, hfaults⟩ := h.resumeWith hfragment hpath hshort faults
  rw [Engine.driveForWith, Engine.driveForWith]
  rcases hresume : e.resumeWith flight faults with ⟨reached, rest⟩
  rcases hresume' : e'.resumeWith flight' faults with ⟨reached', rest'⟩
  rw [hresume, hresume'] at heven hfaults
  obtain rfl : rest = rest' := hfaults
  cases heven with
  | ended hafter result => exact ⟨hafter, rfl⟩
  | @inFlight _ _ p p' hafter f =>
    -- by the steps that are left
    cases left with
    | zero => exact ⟨hafter.toAlike, rfl⟩
    | succ left =>
      let next : Flight := ⟨p, f⟩
      let next' : Flight := ⟨p', f⟩
      have hpaired : Paired path base names _ _ next.pump next'.pump := hafter
      exact hpaired.driveForWith rfl hpath hshort rest

/-- What is run on from where both pumps stand comes to the same. -/
theorem Even.settleWith {y y' : Engine × Pumping} (h : Even path base names y y')
    (hpath : Storage.resolve path = .ok names) (hshort : Storage.Short names) (faults : Faults) :
    Alike path base names (y.1.settleWith faults y.2).1 (y'.1.settleWith faults y'.2).1 ∧
      (y.1.settleWith faults y.2).2 = (y'.1.settleWith faults y'.2).2 := by
  cases h with
  | ended hafter result => exact ⟨hafter, rfl⟩
  | @inFlight _ _ p p' hafter f =>
    let flight : Flight := ⟨p, f⟩
    let flight' : Flight := ⟨p', f⟩
    have hpaired : Paired path base names _ _ flight.pump flight'.pump := hafter
    unfold Engine.settleWith Engine.driveWith
    dsimp only
    rw [hpaired.waitingBehind]
    exact hpaired.driveForWith rfl hpath hshort faults

namespace Alike

/-! ## Whole calls -/

theorem begin (h : Alike path base names e e') (hidle : e.Idle) (hidle' : e'.Idle) :
    Even path base names (e.begin path) (e'.begin path) := by
  obtain ⟨hr, hr'⟩ | ⟨r, r', hr, hr', hsame⟩ := h.record_cases
  · have hmissing : ∀ e : Engine, e.registry.find? path = none →
        e.begin path = (e, .ended (.error (.unknownUpload path))) := by
      intro e hnone
      simp [Engine.begin, WriteSlots.acquire, Registry.get, hnone]
    rw [hmissing e hr, hmissing e' hr']
    exact .ended h _
  · have hmarked := h.modify (fun r => r.withWriting true) (fun _ => rfl) fun _ => rfl
    rw [hidle.begin_eq_takeNext hr, hidle'.begin_eq_takeNext hr']
    refine Paired.takeNext ⟨⟨hmarked, rfl, rfl, ?_, ?_, rfl⟩, .directories⟩
    · exact Matched.owned_modify ⟨r, Registry.owned?_eq_some_iff.mpr ⟨hr, rfl⟩⟩
        (fun r => r.withWriting true) (fun _ => rfl) fun _ => rfl
    · exact Matched.owned_modify ⟨r', Registry.owned?_eq_some_iff.mpr ⟨hr', rfl⟩⟩
        (fun r => r.withWriting true) (fun _ => rfl) fun _ => rfl

theorem pumpWith (h : Alike path base names e e') (hidle : e.Idle) (hidle' : e'.Idle)
    (hpath : Storage.resolve path = .ok names) (hshort : Storage.Short names) (faults : Faults) :
    Alike path base names (e.pumpWith path faults).1 (e'.pumpWith path faults).1 ∧
      (e.pumpWith path faults).2 = (e'.pumpWith path faults).2 :=
  (h.begin hidle hidle').settleWith hpath hshort faults

/-- A fragment is accepted in both engines, or refused for one reason. -/
theorem beginSubmit (h : Alike path base names e e') (hidle : e.Idle) (hidle' : e'.Idle)
    (f : Fragment) : Even path base names (e.beginSubmit path f) (e'.beginSubmit path f) := by
  obtain ⟨hr, hr'⟩ | ⟨r, r', hr, hr', hsame⟩ := h.record_cases
  · have hrefused : ∀ e : Engine, e.registry.find? path = none →
        e.beginSubmit path f = (e, .ended (.error (.unknownUpload path))) := by
      intro e hnone
      simp [Engine.beginSubmit, accept, Registry.enqueue, Registry.get, hnone]
    rw [hrefused e hr, hrefused e' hr']
    exact .ended h _
  · have hsize : r.size = r'.size := (Record.of_unnumbered hsame).2.1
    by_cases hfit : f.stop ≤ r.size
    · obtain ⟨notice, haccept⟩ := accept_of_fits hr hfit
      obtain ⟨notice', haccept'⟩ := accept_of_fits hr' (hsize ▸ hfit)
      have hqueued := (h.modify (fun r => r.enqueue f) (fun _ => rfl) fun _ => rfl).note notice notice'
      unfold Engine.beginSubmit
      rw [haccept, haccept']
      exact hqueued.begin (hidle.accepted path f notice) (hidle'.accepted path f notice')
    · have hrefused : ∀ {e : Engine} {s : Record}, e.registry.find? path = some s →
          s.size = r.size →
          e.beginSubmit path f = (e, .ended (.error (.outOfBounds path f.position f.len r.size))) := by
        intro e s hs hsize
        simp [Engine.beginSubmit, accept, Registry.enqueue, Registry.get, hs, hsize, hfit]
      rw [hrefused hr rfl, hrefused hr' hsize.symm]
      exact .ended h _

theorem submitWith (h : Alike path base names e e') (hidle : e.Idle) (hidle' : e'.Idle)
    (hpath : Storage.resolve path = .ok names) (hshort : Storage.Short names) (f : Fragment)
    (faults : Faults) :
    Alike path base names (e.submitWith path f faults).1 (e'.submitWith path f faults).1 ∧
      (e.submitWith path f faults).2 = (e'.submitWith path f faults).2 :=
  (h.beginSubmit hidle hidle' f).settleWith hpath hshort faults

theorem registered (h : Alike path base names e e') {size : Nat} {owner : Int}
    {clientPath : String} {t t' : Ticket}
    (hinit : e.init path size owner clientPath = .ok (e₁, t))
    (hinit' : e'.init path size owner clientPath = .ok (e₁', t')) :
    Alike path base names e₁ e₁' ∧ t.unnumbered = t'.unnumbered := by
  have hlater := later_init hinit
  have hlater' := later_init hinit'
  obtain ⟨registry, notice, hreg, rfl⟩ := init_eq_ok hinit
  obtain ⟨registry', notice', hreg', rfl⟩ := init_eq_ok hinit'
  obtain ⟨-, -, rfl⟩ := Registry.register_eq_ok hreg
  obtain ⟨-, -, rfl⟩ := Registry.register_eq_ok hreg'
  refine ⟨h.of_later hlater hlater' ?_ (sent_announceIfEmpty _ _) (sent_announceIfEmpty _ _)
    (disk_announceIfEmpty _ _) (disk_announceIfEmpty _ _), rfl⟩
  rw [registry_announceIfEmpty, registry_announceIfEmpty]
  show (registry.find? path).map Record.unnumbered = (registry'.find? path).map Record.unnumbered
  rw [Registry.find?_register hreg, Registry.find?_register hreg', if_pos rfl, if_pos rfl]
  rfl

/-- An upload is registered in both engines, each under its own number, or refused for one reason. -/
theorem init (h : Alike path base names e e') (size : Nat) (owner : Int) (clientPath : String) :
    (∃ err, e.init path size owner clientPath = .error err ∧
      e'.init path size owner clientPath = .error err) ∨
    ∃ e₁ t e₁' t', e.init path size owner clientPath = .ok (e₁, t) ∧
      e'.init path size owner clientPath = .ok (e₁', t') ∧ Alike path base names e₁ e₁' ∧
      t.unnumbered = t'.unnumbered := by
  have hcheck : e.checkNew path size = e'.checkNew path size := by
    unfold checkNew
    rw [h.maxUploadSize]
  cases hchecked : e.checkNew path size with
  | error err =>
    left
    refine ⟨err, ?_, ?_⟩
    · simp [Engine.init, hchecked, bind, Except.bind]
    · simp [Engine.init, ← hcheck, hchecked, bind, Except.bind]
  | ok u =>
    obtain ⟨htaken, hfree⟩ := init_of_checked hchecked owner clientPath
    obtain ⟨htaken', hfree'⟩ := init_of_checked (hcheck ▸ hchecked) owner clientPath
    obtain ⟨hr, hr'⟩ | ⟨r, r', hr, hr', -⟩ := h.record_cases
    · right
      obtain ⟨e₁, hinit⟩ := hfree hr
      obtain ⟨e₁', hinit'⟩ := hfree' hr'
      exact ⟨e₁, _, e₁', _, hinit, hinit', h.registered hinit hinit'⟩
    · left
      exact ⟨_, htaken r hr, htaken' r' hr'⟩

theorem status (h : Alike path base names e e') :
    e.registry.status path = e'.registry.status path := by
  unfold Registry.status Registry.get
  obtain ⟨hr, hr'⟩ | ⟨r, r', hr, hr', hsame⟩ := h.record_cases
  · rw [hr, hr']
  · rw [hr, hr']
    exact congrArg Except.ok (Record.of_unnumbered hsame).2.2.2.2

theorem remove (h : Alike path base names e e') :
    Alike path base names (e.remove path) (e'.remove path) := by
  unfold Engine.remove
  obtain ⟨hr, hr'⟩ | ⟨r, r', hr, hr', -⟩ := h.record_cases
  · rw [hr, hr']
    exact h
  · rw [hr, hr']
    have hforgotten : Alike path base names { e with registry := e.registry.remove path }
        { e' with registry := e'.registry.remove path } := by
      refine ⟨h.storage, h.slots, h.maxUploadSize, ?_, h.told, h.disk⟩
      rw [Registry.find?_remove, Registry.find?_remove, if_pos rfl, if_pos rfl]
    exact (hforgotten.note _ _).emit _

theorem discardWith (h : Alike path base names e e') (hpath : Storage.resolve path = .ok names)
    (hshort : Storage.Short names) (faults : Faults) :
    Alike path base names (e.discardWith path faults).1 (e'.discardWith path faults).1 ∧
      (e.discardWith path faults).2 = (e'.discardWith path faults).2 := by
  have hgone := h.remove
  obtain ⟨hdisk, hanswer⟩ := hgone.disk.deleteWith hpath hshort faults.head?.join
  have hdiscard : e'.discardWith path faults =
      ({ e'.remove path with disk := ((e.remove path).storage.deleteWith (e'.remove path).disk path
          faults.head?.join).1 },
        ((e.remove path).storage.deleteWith (e'.remove path).disk path faults.head?.join).2) := by
    rw [hgone.storage]
    rfl
  rw [hdiscard]
  exact ⟨hgone.withDisk hdisk, hanswer⟩

end Alike

end Engine

end ResumableUpload
