import ResumableUpload.Proofs.Course.Identity
import ResumableUpload.Proofs.Registry.Totals

/-
  Slots — the marks of the records and the pumps that hold them

  A slot is a mark on a record, and nothing else is counted. So a slot could
  leak, where the mark stays and the pump is gone, and it could be given twice,
  where the mark goes and the pump stays. Neither happens: the pumps that serve
  a registration are as many as its mark says, one or none.

  What is held:
    1. `Slots` — marks and pumps agree, and the marks are within the ceiling.

  What is proved:
    1. `slots_change`, `slots_run` — every change, and every run, keeps it.
    2. `writing_iff_served` — the same, said of courses: no slot leaks, and none
       is given twice.
-/

namespace ResumableUpload

/-- How many pumps serve a registration. -/
def servers (hands : List Hand) (id : UploadId) : Nat := hands.countP fun x => x.id = id

theorem servers_cons (x : Hand) (rest : List Hand) (id : UploadId) :
    servers (x :: rest) id = servers rest id + if x.id = id then 1 else 0 := by
  simp [servers, List.countP_cons]

theorem servers_eq_zero {hands : List Hand} {id : UploadId} (h : ∀ x ∈ hands, x.id ≠ id) :
    servers hands id = 0 := by
  apply List.countP_eq_zero.mpr
  intro x hx
  simpa using h x hx

/-- Marks and pumps agree, and the marks are within the ceiling. -/
structure Slots (ceiling : Nat) (v : View) : Prop where
  served : ∀ q r, v.registry.find? q = some r → servers v.hands r.id = r.writing.toNat
  within : v.registry.writingCount ≤ ceiling

namespace Slots

/-- Where one record changes, the pumps that serve it have to agree with its mark, and those that
serve others stay. -/
theorem modify {ceiling : Nat} {v : View} {path : String} {r : Record} {change : Record → Record}
    {keeps : ∀ s, (change s).path = s.path} {hands : List Hand} {n : Nat} {history : History}
    (h : Slots ceiling v) (hid : Identity v) (hr : v.registry.find? path = some r)
    (hkeep : (change r).id = r.id) (hhere : servers hands r.id = (change r).writing.toNat)
    (helse : ∀ id, id ≠ r.id → servers hands id = servers v.hands id)
    (hroom : (change r).writing = true → r.writing = false → v.registry.writingCount < ceiling) :
    Slots ceiling ⟨v.registry.modify path change keeps, hands, n, history⟩ := by
  constructor
  · intro q s hs
    have hs : (v.registry.modify path change keeps).find? q = some s := hs
    rcases Registry.find?_modify_some hs with ⟨rfl, r', hr', rfl⟩ | ⟨hq, hs⟩
    · rw [hr] at hr'
      cases hr'
      rw [hkeep]
      exact hhere
    · have hne : s.id ≠ r.id := fun hsr => hq (hid.id_inj q path s r hs hr hsr)
      show servers hands s.id = _
      rw [helse s.id hne]
      exact h.served q s hs
  · have hcount := Registry.writingCount_modify hr change keeps
    have hwithin := h.within
    show (v.registry.modify path change keeps).writingCount ≤ ceiling
    cases hnew : (change r).writing with
    | false =>
      rw [hnew, Bool.toNat_false] at hcount
      omega
    | true =>
      rw [hnew, Bool.toNat_true] at hcount
      cases hold : r.writing with
      | true =>
        rw [hold, Bool.toNat_true] at hcount
        omega
      | false =>
        have hfree := hroom hnew hold
        omega

theorem same {ceiling : Nat} {v : View} {hands : List Hand} {n : Nat} {history : History}
    (h : Slots ceiling v)
    (hservers : ∀ q r, v.registry.find? q = some r → servers hands r.id = servers v.hands r.id) :
    Slots ceiling ⟨v.registry, hands, n, history⟩ := by
  refine ⟨?_, h.within⟩
  intro q r hr
  show servers hands r.id = _
  rw [hservers q r hr]
  exact h.served q r hr

theorem front {ceiling : Nat} {v : View} {n : Nat} {path : String} {id : UploadId}
    {x : Option Fragment} {rest : List Hand} {r : Record} (h : Slots ceiling v)
    (hh : v.hands = ⟨n, path, id, x⟩ :: rest) (hr : v.registry.owned? path id = some r) :
    r.writing = true ∧ servers rest id = 0 := by
  obtain ⟨hfind, rfl⟩ := Registry.owned?_eq_some_iff.mp hr
  have hserved := h.served path r hfind
  rw [hh, servers_cons, if_pos rfl] at hserved
  cases hw : r.writing with
  | false =>
    rw [hw, Bool.toNat_false] at hserved
    omega
  | true =>
    rw [hw, Bool.toNat_true] at hserved
    exact ⟨rfl, by omega⟩

theorem stray {v : View} {n : Nat} {path : String} {id : UploadId} {x : Option Fragment}
    {rest : List Hand} (hid : Identity v) (hh : v.hands = ⟨n, path, id, x⟩ :: rest)
    (hr : v.registry.owned? path id = none) (q : String) (r : Record)
    (hq : v.registry.find? q = some r) : servers rest r.id = servers v.hands r.id := by
  have hne : id ≠ r.id := by
    intro hrid
    have hpath := hid.hand_path ⟨n, path, id, x⟩ (by rw [hh]; exact List.mem_cons_self) q r hq
      hrid.symm
    rw [hpath] at hq
    exact Registry.owned?_eq_none_iff.mp hr r hq hrid.symm
  rw [hh, servers_cons, if_neg hne, Nat.add_zero]

end Slots

theorem slots_change {ceiling : Nat} {v w : View} (hc : Change ceiling v w) (hid : Identity v)
    (h : Slots ceiling v) : Slots ceiling w := by
  cases hc with
  | @register path clientPath size owner next t hreg =>
    constructor
    · intro q r hr
      rcases Registry.find?_register_some hreg hr with ⟨-, rfl⟩ | ⟨-, hr⟩
      · exact servers_eq_zero fun x hx => Nat.ne_of_lt (hid.hand_lt x hx)
      · exact h.served q r hr
    · have hcount := Registry.total_register (fun r => r.writing.toNat) hreg
      rw [← Registry.writingCount_eq, ← Registry.writingCount_eq] at hcount
      have hwithin := h.within
      show next.writingCount ≤ ceiling
      rw [hcount]
      exact hwithin
  | @accept path r f hr hfit =>
    exact h.modify hid hr rfl (h.served path r hr) (fun _ _ => rfl)
      (fun hnew hold => absurd hnew (by rw [show (r.enqueue f).writing = false from hold]; simp))
  | @grant path r hr hfree hroom =>
    refine h.modify hid hr rfl ?_ ?_ (fun _ _ => hroom)
    · have hserved := h.served path r hr
      rw [hfree, Bool.toNat_false] at hserved
      rw [servers_cons, if_pos rfl, hserved]
      rfl
    · intro id hne
      rw [servers_cons, if_neg (Ne.symm hne), Nat.add_zero]
  | @take n path id r f queue rest hh hr hpop =>
    obtain ⟨hfind, rfl⟩ := Registry.owned?_eq_some_iff.mp hr
    have hserved := h.served path r hfind
    rw [hh] at hserved
    refine h.modify hid hfind rfl hserved ?_ ?_
    · intro q _
      rw [hh]
      rfl
    · intro hnew hold
      exact absurd hnew (by rw [show (r.withQueue queue).writing = false from hold]; simp)
  | @release n path id r rest hh hr hempty =>
    obtain ⟨hwriting, hzero⟩ := h.front hh hr
    obtain ⟨hfind, rfl⟩ := Registry.owned?_eq_some_iff.mp hr
    refine h.modify hid hfind rfl hzero ?_ (fun hnew _ => absurd hnew (by simp [Record.withWriting]))
    intro q hq
    rw [hh, servers_cons, if_neg (Ne.symm hq), Nat.add_zero]
  | @write n path id r f rest hh hr =>
    obtain ⟨hfind, rfl⟩ := Registry.owned?_eq_some_iff.mp hr
    have hserved := h.served path r hfind
    rw [hh] at hserved
    refine h.modify hid hfind rfl hserved ?_ ?_
    · intro q _
      rw [hh]
      rfl
    · intro hnew hold
      exact absurd hnew (by rw [show (r.recordWrite f.range).writing = false from hold]; simp)
  | @fail n path id r f rest cause hh hr =>
    apply h.same
    intro q s _
    rw [hh]
    rfl
  | @abandon n path id r f rest hh hr =>
    obtain ⟨hwriting, hzero⟩ := h.front hh hr
    obtain ⟨hfind, rfl⟩ := Registry.owned?_eq_some_iff.mp hr
    refine h.modify hid hfind rfl hzero ?_ (fun hnew _ => absurd hnew (by simp [Record.withWriting]))
    intro q hq
    rw [hh, servers_cons, if_neg (Ne.symm hq), Nat.add_zero]
  | stray hh hr => exact h.same (Slots.stray hid hh hr)
  | leave hh hr => exact h.same (Slots.stray hid hh hr)
  | @remove path r hr =>
    constructor
    · intro q s hs
      exact h.served q s (Registry.find?_remove_some hs).2
    · have hcount := Registry.total_remove (fun r => r.writing.toNat) hr
      rw [← Registry.writingCount_eq, ← Registry.writingCount_eq] at hcount
      have hwithin := h.within
      show (v.registry.remove path).writingCount ≤ ceiling
      omega
  | arrange hperm hn =>
    apply h.same
    intro q r _
    exact hperm.symm.countP_eq _

theorem slots_run (e : Engine) (hempty : e.registry = .empty) (moves : List Move) :
    Slots e.slots.ceiling ((Course.new e).run moves).view := by
  refine (Course.keep_run (P := fun v => Identity v ∧ Slots e.slots.ceiling v) ?_ ?_ moves).2
  · intro v w hc h
    exact ⟨identity_change hc h.1, slots_change hc h.1 h.2⟩
  · refine ⟨identity_run e hempty [], ?_, ?_⟩
    · intro q r hr
      simp [Course.new, Course.view, hempty] at hr
    · simp [Course.new, Course.view, hempty, Registry.writingCount, Registry.empty]

theorem servers_view (c : Course) (id : UploadId) :
    servers c.view.hands id = (c.serving id).length := by
  rw [servers, Course.view, List.countP_map, List.countP_eq_length_filter]
  rfl

/-- No slot leaks, and none is given twice: whatever the moves, an upload has its mark exactly where one
pump serves its registration, never do two, and no more uploads have a mark than the engine was given
writers, or one. -/
theorem writing_iff_served (disk : Disk) (storage : Storage) (writers maxSize capacity : Nat)
    (moves : List Move) :
    let c := (Course.new (.new disk storage writers maxSize capacity)).run moves
    (∀ q r, c.engine.registry.find? q = some r →
      (r.writing = true ↔ (c.serving r.id).length = 1) ∧ (c.serving r.id).length ≤ 1) ∧
    c.engine.registry.writingCount ≤ max writers 1 := by
  intro c
  have h : Slots (max writers 1) c.view := slots_run (.new disk storage writers maxSize capacity) rfl moves
  refine ⟨?_, h.within⟩
  intro q r hr
  have hserved := h.served q r hr
  rw [servers_view] at hserved
  rw [hserved]
  cases r.writing <;> decide

end ResumableUpload
