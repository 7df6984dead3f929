import ResumableUpload.Proofs.Engine.Steps
import ResumableUpload.Proofs.Registry.Totals
import ResumableUpload.Proofs.Disk.Opening

/-
  Submit — a fragment for an upload at rest

  An upload is at rest when nobody writes it and nothing waits for it. If a
  slot is free and its file can be opened, a fragment that is submitted then
  goes to the file at once, and the upload is at rest again.

  What is held:
    1. `Resting` — an upload at rest, beside a free slot.
    2. `Closing` — an upload in the hands of a pump that finds nothing more.

  What is proved:
    1. `beginSubmit_resting`, `drive_closing` — the two halves of a submission.
    2. `submit_resting` — what a submission makes of an upload at rest.
-/

namespace ResumableUpload

theorem FragmentQueue.pop?_push_of_empty {q : FragmentQueue} (h : q.toList = []) (f : Fragment) :
    ∃ rest, (q.push f).pop? = some (f, rest) ∧ rest.toList = [] := by
  apply exists_pop?
  rw [toList_push, h]
  rfl

namespace Engine

/-- Nobody writes the upload, nothing waits for it, and a slot is free. -/
structure Resting (e : Engine) (path : String) (r : Record) : Prop where
  found : e.registry.find? path = some r
  idle : r.writing = false
  empty : r.queue.toList = []
  room : e.registry.writingCount < e.slots.ceiling

theorem accept_of_fits {e : Engine} {path : String} {f : Fragment} {r : Record}
    (hr : e.registry.find? path = some r) (hfit : f.stop ≤ r.size) :
    ∃ notice, e.accept path f = .ok ((e.modify path fun r => r.enqueue f).note notice) := by
  have henqueue : e.registry.enqueue path f = .ok (e.registry.modify path fun r => r.enqueue f) := by
    simp only [Registry.enqueue, Registry.get, hr, if_pos hfit]
  rw [accept, henqueue]
  exact ⟨_, rfl⟩

theorem begin_of_waiting {e : Engine} {path : String} {r : Record} {f : Fragment}
    {queue : FragmentQueue} (hr : e.registry.find? path = some r) (hfree : r.writing = false)
    (hroom : e.registry.writingCount < e.slots.ceiling) (hpop : r.queue.pop? = some (f, queue)) :
    e.begin path = ((e.modify path fun r => r.withWriting true).modify path
      fun r => r.withQueue queue, .inFlight ⟨⟨path, r.id, none, none⟩, f⟩) := by
  rw [begin_eq_takeNext hr hfree hroom]
  exact takeNext_of_pop? (p := ⟨path, r.id, none, none⟩) (Registry.owned?_withWriting hr true) hpop

/-- The engine with another disk, on which the fragment of a pump was written and counted. -/
def counted (e : Engine) (d : Disk) (flight : Flight) (r : Record) (w : FileWriter) : Engine :=
  ({ e with disk := d }.accountWrite flight r w).1

theorem registry_counted (e : Engine) (d : Disk) (flight : Flight) (r : Record) (w : FileWriter) :
    (e.counted d flight r w).registry =
      e.registry.modify flight.pump.path fun r => r.recordWrite flight.fragment.range :=
  registry_accountWrite _ flight r w

theorem disk_counted (e : Engine) (d : Disk) (flight : Flight) (r : Record) (w : FileWriter) :
    (e.counted d flight r w).disk = d :=
  disk_accountWrite _ flight r w

theorem later_counted (e : Engine) (d : Disk) (flight : Flight) (r : Record) (w : FileWriter) :
    Later e (e.counted d flight r w) := by
  have hdisk : Later e { e with disk := d } := .of_feed rfl rfl rfl rfl
  exact hdisk.trans (later_accountWrite _ flight r w)

theorem sent_counted {e : Engine} {flight : Flight} {r : Record}
    (hr : e.registry.owned? flight.pump.path flight.pump.id = some r) (d : Disk) (w : FileWriter) :
    (e.counted d flight r w).feed.sent = e.feed.sent ++ r.news flight.fragment.range :=
  sent_accountWrite (e := { e with disk := d }) hr w

theorem resume_of_open {e : Engine} {flight : Flight} {r : Record} {d : Disk} {file : OpenFile}
    (hnew : flight.pump.writer = none)
    (hr : e.registry.owned? flight.pump.path flight.pump.id = some r)
    (hpos : flight.fragment.position < Disk.offsetLimit)
    (hopen : e.storage.openForWrite e.disk flight.pump.path = (d, .ok file)) :
    ∃ w, e.resume flight =
      (e.counted (d.place file flight.fragment.position flight.fragment.bytes) flight r w).takeNext
        { flight.pump with writer := some w } := by
  have hseek : Disk.seek flight.fragment.position = .ok () := if_neg (Nat.not_le.mpr hpos)
  have hfinish : (Delivery.start flight.pump.writer).finish e.storage flight.pump.path
      flight.fragment e.disk =
        (d.place file flight.fragment.position flight.fragment.bytes,
          .ok ((⟨file, 0⟩ : FileWriter).count flight.fragment.bytes.size)) := by
    simp only [hnew, Delivery.start, Delivery.finish, hopen, Delivery.writeToOpened, Delivery.writeTo,
      FileWriter.writeAt, hseek]
  refine ⟨(⟨file, 0⟩ : FileWriter).count flight.fragment.bytes.size, ?_⟩
  rw [resume, hfinish]
  simp only [land, hr]
  rfl

theorem drive_of_last {e : Engine} {flight : Flight} {r : Record} {d : Disk} {file : OpenFile}
    (hnew : flight.pump.writer = none) (hok : flight.pump.failure = none)
    (hr : e.registry.owned? flight.pump.path flight.pump.id = some r) (hlast : r.queue.toList = [])
    (hpos : flight.fragment.position < Disk.offsetLimit)
    (hopen : e.storage.openForWrite e.disk flight.pump.path = (d, .ok file)) :
    ∃ w notice, e.drive flight =
      (((e.counted (d.place file flight.fragment.position flight.fragment.bytes) flight r w).modify
          flight.pump.path fun r => r.withWriting false).note notice,
        .ok (.drained (r.recordWrite flight.fragment.range).saved
          (r.recordWrite flight.fragment.range).completed)) := by
  obtain ⟨w, hresume⟩ := resume_of_open hnew hr hpos hopen
  have hcounted : (e.counted (d.place file flight.fragment.position flight.fragment.bytes) flight
      r w).registry.owned? flight.pump.path flight.pump.id =
        some (r.recordWrite flight.fragment.range) := by
    apply owned?_accountWrite
    exact hr
  obtain ⟨notice, hend⟩ := takeNext_of_empty (p := { flight.pump with writer := some w }) hcounted
    ((FragmentQueue.pop?_eq_none_iff _).mpr hlast) hok
  refine ⟨w, notice, ?_⟩
  rw [drive]
  cases e.waitingBehind flight <;> rw [driveFor, hresume, hend]

/-- The upload is in the hands of a pump, and nothing waits for it. -/
structure Closing (e : Engine) (path : String) (r : Record) : Prop where
  found : e.registry.find? path = some r
  busy : r.writing = true
  empty : r.queue.toList = []
  room : e.registry.writingCount ≤ e.slots.ceiling

/-- A fragment submitted to an upload at rest is queued, and taken off the queue again. -/
theorem beginSubmit_resting {e : Engine} {path : String} {r : Record} {f : Fragment}
    (h : e.Resting path r) (hfit : f.stop ≤ r.size) :
    ∃ e' queue, e.beginSubmit path f = (e', .inFlight ⟨⟨path, r.id, none, none⟩, f⟩) ∧
      e'.Closing path (((r.enqueue f).withWriting true).withQueue queue) ∧
      e'.storage = e.storage ∧ e'.disk = e.disk ∧ e'.feed = e.feed := by
  obtain ⟨notice, haccept⟩ := accept_of_fits h.found hfit
  obtain ⟨queue, hpop, hrest⟩ := FragmentQueue.pop?_push_of_empty h.empty f
  -- the fragment is queued
  let e₁ := (e.modify path fun r => r.enqueue f).note notice
  have h₁ : e₁.registry.find? path = some (r.enqueue f) :=
    Registry.find?_modify_self h.found (fun r => r.enqueue f) fun _ => rfl
  have hcount₁ : e₁.registry.writingCount = e.registry.writingCount :=
    Registry.writingCount_modify_of_same h.found (fun r => r.enqueue f) (fun _ => rfl) rfl
  have hroom₁ : e₁.registry.writingCount < e₁.slots.ceiling := by
    rw [hcount₁]
    exact h.room
  -- a pump takes a slot, and the fragment off the queue
  let e₂ := e₁.modify path fun r => r.withWriting true
  let e₃ := e₂.modify path fun r => r.withQueue queue
  have hbegin : e₁.begin path = (e₃, .inFlight ⟨⟨path, r.id, none, none⟩, f⟩) :=
    @begin_of_waiting e₁ path (r.enqueue f) f queue h₁ h.idle hroom₁ hpop
  have h₂ : e₂.registry.find? path = some ((r.enqueue f).withWriting true) :=
    Registry.find?_modify_self h₁ (fun r => r.withWriting true) fun _ => rfl
  have hcount₂ : e₂.registry.writingCount + (r.enqueue f).writing.toNat =
      e₁.registry.writingCount + 1 :=
    Registry.writingCount_modify h₁ (fun r => r.withWriting true) fun _ => rfl
  have hcount₃ : e₃.registry.writingCount = e₂.registry.writingCount :=
    Registry.writingCount_modify_of_same h₂ (fun r => r.withQueue queue) (fun _ => rfl) rfl
  refine ⟨e₃, queue, ?_, ⟨?_, rfl, hrest, ?_⟩, rfl, rfl, rfl⟩
  · rw [beginSubmit, haccept]
    exact hbegin
  · exact Registry.find?_modify_self h₂ (fun r => r.withQueue queue) fun _ => rfl
  · show e₃.registry.writingCount ≤ e₁.slots.ceiling
    omega

/-- The pump writes the fragment in its hand, finds no other, and leaves the upload at rest. -/
theorem drive_closing {e : Engine} {flight : Flight} {r : Record} {d : Disk} {file : OpenFile}
    (h : e.Closing flight.pump.path r) (hid : r.id = flight.pump.id)
    (hnew : flight.pump.writer = none) (hok : flight.pump.failure = none)
    (hpos : flight.fragment.position < Disk.offsetLimit)
    (hopen : e.storage.openForWrite e.disk flight.pump.path = (d, .ok file)) :
    let after := r.recordWrite flight.fragment.range
    ∃ e', e.drive flight = (e', .ok (.drained after.saved after.completed)) ∧
      e'.Resting flight.pump.path (after.withWriting false) ∧ e'.storage = e.storage ∧
      e'.disk = d.place file flight.fragment.position flight.fragment.bytes ∧
      e'.feed.sent = e.feed.sent ++ r.news flight.fragment.range := by
  intro after
  have howned : e.registry.owned? flight.pump.path flight.pump.id = some r :=
    Registry.owned?_eq_some_iff.mpr ⟨h.found, hid⟩
  obtain ⟨w, notice, hdrive⟩ := drive_of_last hnew hok howned h.empty hpos hopen
  let e₁ := e.counted (d.place file flight.fragment.position flight.fragment.bytes) flight r w
  let e₂ := (e₁.modify flight.pump.path fun r => r.withWriting false).note notice
  have hlater : Later e e₁ := later_counted _ _ _ _ _
  have hregistry : e₁.registry =
      e.registry.modify flight.pump.path fun r => r.recordWrite flight.fragment.range :=
    registry_counted _ _ _ _ _
  have h₁ : e₁.registry.find? flight.pump.path = some after := by
    rw [hregistry]
    exact Registry.find?_modify_self h.found (fun r => r.recordWrite _) fun _ => rfl
  have hcount₁ : e₁.registry.writingCount = e.registry.writingCount := by
    rw [hregistry]
    exact Registry.writingCount_modify_of_same h.found (fun r => r.recordWrite _) (fun _ => rfl) rfl
  have hcount₂ : e₂.registry.writingCount + after.writing.toNat = e₁.registry.writingCount :=
    Registry.writingCount_modify h₁ (fun r => r.withWriting false) fun _ => rfl
  refine ⟨e₂, hdrive, ⟨?_, rfl, h.empty, ?_⟩, hlater.storage, disk_counted _ _ _ _ _,
    sent_counted howned _ w⟩
  · exact Registry.find?_modify_self h₁ (fun r => r.withWriting false) fun _ => rfl
  · have hbusy : after.writing = true := h.busy
    have hslots : e₁.slots = e.slots := hlater.slots
    have hroom := h.room
    rw [hbusy, Bool.toNat_true] at hcount₂
    show e₂.registry.writingCount < e₁.slots.ceiling
    rw [hslots]
    omega

/-- A fragment submitted to an upload at rest is written at once, and the upload is at rest again. -/
theorem submit_resting {e : Engine} {path : String} {r : Record} {f : Fragment} {d : Disk}
    {file : OpenFile} (h : e.Resting path r) (hfit : f.stop ≤ r.size)
    (hpos : f.position < Disk.offsetLimit)
    (hopen : e.storage.openForWrite e.disk path = (d, .ok file)) :
    ∃ e' r', e.submit path f = (e', .ok (.drained r'.saved r'.completed)) ∧
      e'.Resting path r' ∧ r'.size = r.size ∧ r'.received = r.received + f.len ∧
      r'.saved = r.saved + f.len ∧ r'.completed = decide (r.size ≤ r'.saved) ∧
      e'.storage = e.storage ∧ e'.disk = d.place file f.position f.bytes ∧
      e'.feed.sent = e.feed.sent ++ r.news f.range := by
  obtain ⟨e₁, queue, hbegin, hclosing, hstorage, hdisk, hfeed⟩ := beginSubmit_resting h hfit
  rw [← hstorage, ← hdisk] at hopen
  let flight : Flight := ⟨⟨path, r.id, none, none⟩, f⟩
  obtain ⟨e₂, hdrive, hresting, hstorage', hdisk', hsent⟩ :=
    @drive_closing e₁ flight _ d file hclosing rfl rfl rfl hpos hopen
  refine ⟨e₂, _, ?_, hresting, rfl, rfl, ?_, rfl, hstorage'.trans hstorage, hdisk', ?_⟩
  · rw [submit, hbegin]
    exact hdrive
  · show r.saved + f.range.length = _
    rw [f.length_range]
  · rw [hsent, hfeed]
    rfl

end Engine

end ResumableUpload
