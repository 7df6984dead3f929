import ResumableUpload.Proofs.Course.Lasting
import ResumableUpload.Proofs.Course.Tells

/-
  Agree — what is told of an upload agrees with it

  Subscribers follow uploads by events alone. So the events of an upload have
  to say what its record says: that it is complete if it is, once and in the
  step that completes it; what failed, once for each write; that it is gone, and
  nothing after that. A path may be registered again, and the events of the
  next upload are not mixed with those of the one before.

  What is held:
    1. `Agrees` — what was told of an upload agrees with its record.
    2. `Closed` — nothing is told of an upload any more.

  What is proved:
    1. `kept_agrees` — each happening of an upload keeps it in agreement.
    2. `completed_tells`, `log_of_registers` — completion is told in the step
       that completes.
    3. `removes_of_gone`, `closed_change` — what removes an upload closes it.
    4. `events_agree_with_uploads` — the same, said of runs.
-/

namespace ResumableUpload

/-- What was told of an upload agrees with its record. -/
structure Agrees (log : Log) (r : Record) : Prop where
  flag : r.completed = true ↔ r.size ≤ r.saved
  completed : log.told.filter Event.isCompleted =
    if r.completed then [.completed r.path r.size] else []
  present : log.told.filter Event.isRemoved = []
  named : ∀ e ∈ log.told, e.path = r.path

namespace Agrees

variable {l more : Log} {r s : Record}

/-- Of a new upload is told that it is complete, if no bytes are to come. -/
theorem fresh (id : UploadId) (path : String) (size : Nat) (owner : Int) (clientPath : String) :
    Agrees (.registered :: (Record.new id path size owner clientPath).ticket.news.map .told)
      (.new id path size owner clientPath) := by
  have htold : Log.told (.registered ::
      (Record.new id path size owner clientPath).ticket.news.map .told) =
      if size = 0 then [.completed path 0] else [] := Log.told_told _
  have hflag : (Record.new id path size owner clientPath).completed = true ↔ size ≤ 0 :=
    Coverage.isComplete_iff _ _
  by_cases hzero : size = 0
  · subst hzero
    rw [if_pos rfl] at htold
    refine ⟨hflag, by rw [htold]; rfl, by rw [htold]; rfl, ?_⟩
    rw [htold]
    intro e he
    rw [List.mem_singleton.mp he]
    rfl
  · rw [if_neg hzero] at htold
    have hnot : (Record.new id path size owner clientPath).completed = false := by
      apply Bool.eq_false_iff.mpr
      rw [Ne, hflag]
      omega
    refine ⟨hflag, by rw [htold, hnot]; rfl, by rw [htold]; rfl, ?_⟩
    rw [htold]
    intro e he
    cases he

theorem quiet (h : Agrees l r) (hquiet : more.told = [])
    (hsame : s.completed = r.completed ∧ s.path = r.path ∧ s.size = r.size ∧ s.saved = r.saved) :
    Agrees (l ++ more) s := by
  obtain ⟨hcompleted, hpath, hsize, hsaved⟩ := hsame
  have htold : Log.told (l ++ more) = l.told := by rw [Log.told_append, hquiet, List.append_nil]
  constructor
  · rw [hcompleted, hsize, hsaved]
    exact h.flag
  · rw [htold, hcompleted, hpath, hsize]
    exact h.completed
  · rw [htold]
    exact h.present
  · rw [htold, hpath]
    exact h.named

theorem same (h : Agrees l r)
    (hsame : s.completed = r.completed ∧ s.path = r.path ∧ s.size = r.size ∧ s.saved = r.saved) :
    Agrees l s := by
  rw [← List.append_nil l]
  exact h.quiet rfl hsame

/-- A write tells of the completion it brings, and of no other. -/
theorem write (h : Agrees l r) (n : Nat) (f : Fragment) :
    Agrees (l ++ .settled ⟨n, f, .written⟩ :: (r.news f.range).map .told)
      (r.recordWrite f.range) := by
  have htold : Log.told (l ++ .settled ⟨n, f, .written⟩ :: (r.news f.range).map .told) =
      l.told ++ r.news f.range := by
    rw [Log.told_append]
    exact congrArg (l.told ++ ·) (Log.told_told _)
  have hafter : (r.recordWrite f.range).completed = true ↔ r.size ≤ (r.recordWrite f.range).saved :=
    Coverage.isComplete_iff _ _
  have hgrown : r.saved ≤ (r.recordWrite f.range).saved := Nat.le_add_right _ _
  have hstays : r.completed = true → (r.recordWrite f.range).completed = true := by
    intro hcompleted
    have := h.flag.mp hcompleted
    exact hafter.mpr (by omega)
  have hpath : (r.recordWrite f.range).path = r.path := rfl
  have hsize : (r.recordWrite f.range).size = r.size := rfl
  refine ⟨hafter, ?_, ?_, ?_⟩
  · rw [htold, List.filter_append, h.completed, hpath, hsize]
    unfold Record.news
    cases hbefore : r.completed with
    | true => simp [hstays hbefore]
    | false => cases (r.recordWrite f.range).completed <;> simp [Event.isCompleted]
  · rw [htold, List.filter_append, h.present]
    unfold Record.news
    split <;> simp [Event.isRemoved]
  · rw [htold]
    intro e he
    rcases List.mem_append.mp he with he | he
    · exact h.named e he
    · unfold Record.news at he
      split at he <;> simp at he
      rw [he]
      rfl

theorem fail (h : Agrees l r) (n : Nat) (f : Fragment) (message : String) :
    Agrees (l ++ [.settled ⟨n, f, .failed⟩, .told (.failed r.path f.position f.len message)]) r := by
  have htold : Log.told (l ++ [.settled ⟨n, f, .failed⟩,
      .told (.failed r.path f.position f.len message)]) =
      l.told ++ [.failed r.path f.position f.len message] := Log.told_append _ _
  refine ⟨h.flag, ?_, ?_, ?_⟩
  · simp [htold, h.completed, Event.isCompleted]
  · simp [htold, h.present, Event.isRemoved]
  · rw [htold]
    intro e he
    rcases List.mem_append.mp he with he | he
    · exact h.named e he
    · rw [List.mem_singleton.mp he]
      rfl

end Agrees

/-- The agreement, whatever is in hand. -/
theorem kept_agrees : Kept fun l _ r => Agrees l r where
  fresh := .fresh
  accept := fun _ _ _ _ h _ => h.quiet rfl ⟨rfl, rfl, rfl, rfl⟩
  mark := fun _ _ _ _ h => h.same ⟨rfl, rfl, rfl, rfl⟩
  take := fun _ _ _ _ h _ => h.same ⟨rfl, rfl, rfl, rfl⟩
  write := fun _ _ n f h => h.write n f
  fail := fun _ _ n f message h => h.fail n f message
  abandon := fun _ _ _ _ h => h.quiet rfl ⟨rfl, rfl, rfl, rfl⟩

/-! ## Uploads that are gone -/

/-- The upload is gone, and what was told of it is all that will be. -/
structure Closed (id : UploadId) (told : List Event) (v : View) : Prop extends Gone id v where
  told : (v.history.of id).told = told

theorem closed_change {id : UploadId} {told : List Event} {ceiling : Nat} {v w : View}
    (hc : Change ceiling v w) (h : Closed id told v) : Closed id told w := by
  refine ⟨gone_change hc h.toGone, ?_⟩
  obtain ⟨i, log, hhistory, hquiet⟩ := history_change hc
  rw [hhistory]
  by_cases hi : i = id
  · subst hi
    have hnone : log.told = [] := by
      rcases hquiet with hnone | hholds | hnext
      · exact hnone
      · exact absurd hholds h.absent
      · exact absurd hnext (Nat.ne_of_lt h.id_lt)
    rw [History.of_noting_self, Log.told_append, hnone, List.append_nil]
    exact h.told
  · rw [History.of_noting_of_ne (Ne.symm hi)]
    exact h.told

/-- The upload is there, or its removal was told. -/
def ThereOrTold (q : String) (id : UploadId) (v : View) : Prop :=
  (∃ r, v.registry.find? q = some r ∧ r.id = id) ∨ .removed q ∈ (v.history.of id).told

theorem thereOrTold_change {q : String} {id : UploadId} {ceiling : Nat} {v w : View}
    (hc : Change ceiling v w) (h : ThereOrTold q id v) : ThereOrTold q id w := by
  rcases h with ⟨r, hr, hid⟩ | htold
  · rcases registry_change hc with hw | ⟨path, change, keeps, hw, hkeep⟩ | ⟨_, _, _, _, _, hreg⟩ |
      ⟨path, s, hs, hw, hhistory⟩
    · left
      rw [hw]
      exact ⟨r, hr, hid⟩
    · left
      rw [hw, Registry.find?_modify, hr]
      by_cases hq : q = path
      · exact ⟨change r, by rw [if_pos hq]; rfl, (hkeep r).1.trans hid⟩
      · exact ⟨r, by rw [if_neg hq], hid⟩
    · left
      obtain ⟨hnew, -⟩ := Registry.register_eq_ok hreg
      rw [Registry.find?_register hreg, if_neg, hr]
      · exact ⟨r, rfl, hid⟩
      · rintro rfl
        rw [hr] at hnew
        cases hnew
    · by_cases hq : q = path
      · right
        subst hq
        obtain rfl : r = s := Option.some.inj (hr.symm.trans hs)
        subst hid
        rw [hhistory, History.of_noting_self, Log.told_append]
        exact List.mem_append_right _ (List.mem_singleton.mpr rfl)
      · left
        rw [hw, Registry.find?_remove, if_neg hq]
        exact ⟨r, hr, hid⟩
  · right
    obtain ⟨i, log, hhistory, -⟩ := history_change hc
    rw [hhistory]
    by_cases hi : i = id
    · rw [hi, History.of_noting_self, Log.told_append]
      exact List.mem_append_left _ htold
    · rw [History.of_noting_of_ne (Ne.symm hi)]
      exact htold

namespace Course

theorem told_step (c : Course) (m : Move) (id : UploadId) :
    ((c.step m).history.of id).told = (c.history.of id).told ++ (c.tells m).of id := by
  rw [History.told_of, tale_step, Tale.of_append, ← History.told_of]

/-- Completion is told in the step that completes. -/
theorem completed_tells {c : Course} {m : Move} {q : String} {s r : Record}
    (hbefore : Agrees (c.history.of s.id) s) (hafter : Agrees ((c.step m).history.of r.id) r)
    (hr : (c.step m).engine.registry.find? q = some r) (hid : r.id = s.id) :
    ((c.tells m).of r.id).filter Event.isCompleted =
      if s.saved < s.size ∧ r.size ≤ r.saved then [.completed q r.size] else [] := by
  have hcompleted := hafter.completed
  rw [told_step, hid, List.filter_append, hbefore.completed, Registry.path_of_find? hr] at hcompleted
  rw [hid]
  have hs := hbefore.flag
  have hr := hafter.flag
  cases hsc : s.completed with
  | true =>
    have hnot : ¬ s.saved < s.size := by
      have := hs.mp hsc
      omega
    rw [if_neg fun h => hnot h.1]
    rw [hsc] at hcompleted
    cases hrc : r.completed with
    | true =>
      rw [hrc] at hcompleted
      simpa using congrArg List.length hcompleted
    | false =>
      rw [hrc] at hcompleted
      simp at hcompleted
  | false =>
    have hlt : s.saved < s.size := by
      rw [hsc] at hs
      simp at hs
      exact hs
    rw [hsc] at hcompleted
    simpa [hlt, ← hr] using hcompleted

theorem id_of_registers {c : Course} {m : Move} {t : Ticket} (h : c.registers m = some t) :
    t.id = c.engine.registry.nextId := by
  cases m with
  | init path size owner clientPath =>
    obtain ⟨e, he⟩ := eq_ok_of_ticket h
    obtain ⟨registry, notice, hreg, -⟩ := Engine.init_eq_ok he
    obtain ⟨-, -, rfl⟩ := Registry.register_eq_ok hreg
    rfl
  | initWithin quota path size owner clientPath =>
    obtain ⟨e, he⟩ := eq_ok_of_ticket h
    obtain ⟨registry, notice, hreg, -⟩ := Engine.initWithin_eq_ok he
    obtain ⟨-, -, rfl⟩ := Registry.register_eq_ok hreg
    rfl
  | _ => cases h

/-- An upload of no bytes is told complete as it is registered, before anything else. -/
theorem log_of_registers {c : Course} (hid : Identity c.view) {m : Move} {t : Ticket}
    (h : c.registers m = some t) :
    (c.step m).history.of t.id =
      .registered :: if t.size = 0 then [.told (.completed t.path 0)] else [] := by
  have hfresh : c.history.of t.id = [] := by
    rw [id_of_registers h]
    exact History.of_eq_nil fun x hx => Nat.ne_of_lt (hid.history_lt x hx)
  have hnotes : c.notes m = notedRegistered t := by
    cases m with
    | init path size owner clientPath => simp [notes, h, accepts, delivers, abandons, removes]
    | initWithin quota path size owner clientPath =>
      simp [notes, h, accepts, delivers, abandons, removes]
    | _ => cases h
  have hlog : (c.step m).history.of t.id =
      c.history.of t.id ++ .registered :: t.news.map .told := by
    rw [history_step, hnotes]
    exact History.of_noting_self c.history t.id _
  rw [hlog, hfresh, Ticket.news]
  split <;> rfl

theorem tells_of_removes {c : Course} {m : Move} {r : Record} (h : c.removes m = some r) :
    c.tells m = [(r.id, .removed r.path)] := by
  cases m with
  | remove path => simp [tells, registers, delivers, h, tellsRemoved]
  | discard path => simp [tells, registers, delivers, h, tellsRemoved]
  | _ => cases h

theorem removes_of_mem_tells {c : Course} {m : Move} {id : UploadId} {q : String}
    (h : (id, .removed q) ∈ c.tells m) :
    ∃ r, c.removes m = some r ∧ r.path = q ∧ r.id = id := by
  simp only [tells, List.mem_append] at h
  rcases h with (h | h) | h
  · cases ht : c.registers m with
    | none => simp [ht] at h
    | some t =>
      simp only [ht, Option.elim_some, tellsRegistered, Ticket.news] at h
      split at h <;> simp at h
  · cases hx : c.delivers m with
    | none => simp [hx] at h
    | some x =>
      simp only [hx, Option.elim_some, tellsDelivered, Engine.tidings, Record.news] at h
      split at h
      · simp at h
      · simp at h
      · split at h <;> simp at h
  · cases hr : c.removes m with
    | none => simp [hr] at h
    | some r =>
      simp only [hr, Option.elim_some, tellsRemoved, List.mem_singleton, Prod.mk.injEq] at h
      exact ⟨r, rfl, (Event.removed.inj h.2).symm, h.1.symm⟩

/-- An upload that is gone was removed. -/
theorem removes_of_gone {c : Course} {m : Move} {q : String} {r : Record}
    (hagrees : Agrees (c.history.of r.id) r) (hr : c.engine.registry.find? q = some r)
    (hgone : ¬ (c.step m).engine.registry.Holds r.id) : c.removes m = some r := by
  have hkept : ThereOrTold q r.id (c.run [m]).view :=
    keep_run (fun _ _ => thereOrTold_change) (.inl ⟨r, hr, rfl⟩) [m]
  rcases hkept with hthere | htold
  · exact absurd ⟨q, hthere⟩ hgone
  · have htold : .removed q ∈ ((c.step m).history.of r.id).told := htold
    rw [told_step] at htold
    have hnew : .removed q ∈ (c.tells m).of r.id := by
      refine (List.mem_append.mp htold).resolve_left ?_
      intro hold
      have hfilter : .removed q ∈ (c.history.of r.id).told.filter Event.isRemoved :=
        List.mem_filter.mpr ⟨hold, rfl⟩
      rw [hagrees.present] at hfilter
      cases hfilter
    obtain ⟨x, hx, hxq⟩ := List.mem_map.mp hnew
    obtain ⟨hmem, hxid⟩ := List.mem_filter.mp hx
    obtain ⟨id, e⟩ := x
    obtain rfl : e = .removed q := hxq
    obtain ⟨s, hs, hpath, -⟩ := removes_of_mem_tells hmem
    have hfind := (removes_eq_some hs).2
    rw [hpath, hr] at hfind
    rw [hs, hfind]

end Course

/-- The events agree with the uploads. Whatever the moves, what is sent is what they tell, each event of
one registration. What is told of an upload agrees with its record: that it is complete is told once,
in the step in which as much is saved as declared, or as it is registered; each failed write is told
once; and its removal is told in the step that removes it, and nothing after that. -/
theorem events_agree_with_uploads (disk : Disk) (storage : Storage)
    (writers maxSize capacity : Nat) (moves : List Move) :
    let start := Course.new (.new disk storage writers maxSize capacity)
    let c := start.run moves
    c.engine.feed.sent = (start.tale moves).map Prod.snd ∧
    (∀ id, (c.history.of id).told = (start.tale moves).of id) ∧
    (∀ q r, c.engine.registry.find? q = some r → Agrees (c.history.of r.id) r) ∧
    (∀ m q s r, c.engine.registry.find? q = some s →
      (c.step m).engine.registry.find? q = some r → r.id = s.id →
      ((c.tells m).of r.id).filter Event.isCompleted =
        if s.saved < s.size ∧ r.size ≤ r.saved then [.completed q r.size] else []) ∧
    (∀ m t, c.registers m = some t → (c.step m).history.of t.id =
      .registered :: if t.size = 0 then [.told (.completed t.path 0)] else []) ∧
    (∀ id, (c.history.of id).told.filter Event.isFailed = (start.failures moves).of id) ∧
    ∀ m q r, c.engine.registry.find? q = some r → ¬ (c.step m).engine.registry.Holds r.id →
      c.removes m = some r ∧ ∀ later, (((c.step m).run later).history.of r.id).told =
        (c.history.of r.id).told ++ [.removed q] := by
  intro start c
  have hsound : c.Sound := Course.sound_run start.engine rfl moves
  have hagrees : ∀ more : List Move, Each (fun l _ r => Agrees l r) (start.run more).view :=
    each_run kept_agrees start.engine rfl
  have htale : c.history.tale = start.tale moves := start.tale_run moves
  have hof : ∀ id, (c.history.of id).told = (start.tale moves).of id := by
    intro id
    rw [History.told_of, htale]
  refine ⟨?_, hof, hagrees moves, ?_, ?_, ?_, ?_⟩
  · have hsent : c.history.all.told = c.engine.feed.sent := Course.events_run start.engine rfl moves
    rw [← hsent, History.told_all, htale]
  · intro m q s r hs hr hid
    have hafter := hagrees (moves ++ [m])
    rw [Course.run_concat] at hafter
    exact Course.completed_tells (hagrees moves q s hs) (hafter q r hr) hr hid
  · exact fun m t => Course.log_of_registers hsound.identity
  · intro id
    rw [hof, ← Tale.of_failed, Course.failed_run]
  · intro m q r hr hgone
    have hremoves := Course.removes_of_gone (hagrees moves q r hr) hr hgone
    refine ⟨hremoves, ?_⟩
    intro later
    have hclosed : Closed r.id ((c.history.of r.id).told ++ [.removed q]) (c.step m).view := by
      have hlt : r.id < c.view.registry.nextId := hsound.identity.id_lt q r hr
      have hafter : r.id < (c.step m).view.registry.nextId :=
        Course.keep_run (P := fun v => r.id < v.registry.nextId)
          (fun v w hc h => Nat.lt_of_lt_of_le h (nextId_change hc)) hlt [m]
      refine ⟨⟨hgone, hafter⟩, ?_⟩
      show ((c.step m).history.of r.id).told = _
      rw [Course.told_step, Course.tells_of_removes hremoves, Registry.path_of_find? hr]
      simp [Tale.of]
    exact (Course.keep_run (fun _ _ => closed_change) hclosed later).told

/-- An upload of four bytes is submitted whole, and one operation of the disk is left. -/
def wholeSubmitted : List Move :=
  [.init "a" 4 0 "a", .submit "a" ⟨0, #[1, 2, 3, 4]⟩, .turn 0, .turn 0, .turn 0]

def nearlyWhole : Course := (Course.new (.new .empty ⟨"up"⟩ 1 100 16)).run wholeSubmitted

theorem nearlyWhole_there : (nearlyWhole.engine.registry.find? "a").isSome = true := by decide

theorem whole_there :
    ((nearlyWhole.step (.turn 0)).engine.registry.find? "a").isSome = true := by decide

/-- The last operation tells that the upload is complete; to remove it before tells that alone; and an
upload of no bytes is complete at once. -/
theorem whole_upload_is_told :
    let s := (nearlyWhole.engine.registry.find? "a").get nearlyWhole_there
    let r := ((nearlyWhole.step (.turn 0)).engine.registry.find? "a").get whole_there
    ((nearlyWhole.tells (.turn 0)).of r.id).filter Event.isCompleted = [.completed "a" r.size] ∧
    (nearlyWhole.step (.init "b" 0 0 "b")).history.of 1 = [.registered, .told (.completed "b" 0)] ∧
    ∀ later, (((nearlyWhole.step (.remove "a")).run later).history.of s.id).told =
      (nearlyWhole.history.of s.id).told ++ [.removed "a"] := by
  intro s r
  obtain ⟨-, -, -, hcompleted, hregistered, -, hremoved⟩ :=
    events_agree_with_uploads .empty ⟨"up"⟩ 1 100 16 wholeSubmitted
  have hs : nearlyWhole.engine.registry.find? "a" = some s :=
    (Option.some_get nearlyWhole_there).symm
  have hr : (nearlyWhole.step (.turn 0)).engine.registry.find? "a" = some r :=
    (Option.some_get whole_there).symm
  have hgone : ¬ (nearlyWhole.step (.remove "a")).engine.registry.Holds s.id := by
    rintro ⟨q, x, hx, -⟩
    have hnone : (nearlyWhole.step (.remove "a")).engine.registry.find? q = none := rfl
    rw [hnone] at hx
    cases hx
  exact ⟨hcompleted (.turn 0) "a" s r hs hr (by decide),
    hregistered (.init "b" 0 0 "b") ⟨1, "b", 0, 0⟩ rfl, (hremoved (.remove "a") "a" s hs hgone).2⟩

end ResumableUpload
