import ResumableUpload.Proofs.Course.Reserve

/-
  Repeated — a registration under a path text in use

  An upload is registered once. Asked for again, it is refused, and nothing
  changes; but what it is refused for depends on how it is asked for. Within a
  quota the space is looked at first, and the upload that is there already takes
  its part of it: the second registration is told that the path is in use only
  where the space would hold both, and is told that the space is short
  otherwise.

  What is proved:
    1. `step_init_of_known`, `step_initWithin_of_known` — a move that asks for a
       path text in use changes nothing, whatever it is refused for.
    2. `initWithin_known_iff` — what it is refused for within a quota.
    3. `repetition_told_where_space_is_left` — the same, said of runs.
    4. `repetition_told_as_lack_of_space` — it is not always told as what it is.
-/

namespace ResumableUpload

theorem Registry.size_le_reservedBytes {g : Registry} {path : String} {r : Record}
    (hr : g.find? path = some r) : r.size ≤ g.reservedBytes := by
  have hmem : r.size ∈ g.records.map Record.size :=
    List.mem_map_of_mem (find?_eq_some_iff.mp hr).1
  exact List.le_sum_of_mem hmem

/-- Within a quota a path text in use is told of where the size fits what is left; where it does not, that
is told. -/
theorem Engine.initWithin_known_iff {e : Engine} {path : String} {size : Nat}
    (hchecked : e.checkNew path size = .ok ()) {r : Record} (hr : e.registry.find? path = some r)
    {quota : Quota} {used : Nat} (hused : quota.usedBytes e.disk = .ok used) (owner : Int)
    (clientPath : String) :
    let answer := e.initWithin quota path size owner clientPath
    let left := quota.dedicatedBytes - (used + e.registry.reservedBytes)
    (answer = .error (.upload (.alreadyActive path)) ↔ size ≤ left) ∧
    (answer = .error (.upload (.quotaExceeded size left)) ↔ left < size) := by
  intro answer left
  by_cases hfits : size ≤ left
  · have hknown : answer = .error (.upload (.alreadyActive path)) :=
      initWithin_of_known hchecked hr hused owner clientPath hfits
    simp [hknown, hfits]
  · have hlack : answer = .error (.upload (.quotaExceeded size left)) :=
      initWithin_of_lack hchecked hused owner clientPath (Nat.not_le.mp hfits)
    simp [hlack, Nat.not_le.mp hfits]

namespace Course

variable {c : Course} {path : String} {r : Record}

theorem step_init_of_known {size : Nat} (hchecked : c.engine.checkNew path size = .ok ())
    (hr : c.engine.registry.find? path = some r) (owner : Int) (clientPath : String) :
    c.step (.init path size owner clientPath) = c := by
  rw [step, (Engine.init_of_checked hchecked owner clientPath).1 r hr, registered]

/-- Whatever the quota says, also where its figures cannot be read. -/
theorem step_initWithin_of_known (hr : c.engine.registry.find? path = some r) (quota : Quota) (size : Nat)
    (owner : Int) (clientPath : String) :
    c.step (.initWithin quota path size owner clientPath) = c := by
  rw [step]
  cases hanswer : c.engine.initWithin quota path size owner clientPath with
  | error err => rfl
  | ok x =>
    -- what is registered had a path text that was free
    obtain ⟨e', t⟩ := x
    obtain ⟨registry, notice, hreg, -⟩ := Engine.initWithin_eq_ok hanswer
    rw [(Registry.register_eq_ok hreg).1] at hr
    cases hr

end Course

/-- A second registration is refused and changes nothing, and within a quota it is told as such where the
space would hold it too. Whatever the moves: under a path text in use, with a size within the limit, a
registration without a quota is told that the text is in use. Within a quota whose figures can be read,
whatever they are, and as long as the declared sizes of all uploads sum to a word, it is told so just if
its size fits beside what is used and what is reserved, the upload that is there included; otherwise it is
told what is left. The answer is the one computed in words, and exact numbers give the same. -/
theorem repetition_told_where_space_is_left (disk : Disk) (storage : Storage)
    (writers maxSize capacity : Nat) (moves : List Move) :
    let c := (Course.new (.new disk storage writers maxSize capacity)).run moves
    let reserved := c.engine.registry.reservedBytes
    ∀ (path : String) (r : Record) (size : UInt64) (owner : Int) (clientPath : String),
      c.engine.registry.find? path = some r → size.toNat ≤ maxSize →
      c.engine.init path size.toNat owner clientPath = .error (.alreadyActive path) ∧
      c.step (.init path size.toNat owner clientPath) = c ∧
      ∀ (quota : Quota) (used dedicated : UInt64), quota.usedBytes c.engine.disk = .ok used.toNat →
        quota.dedicatedBytes = dedicated.toNat → reserved < UInt64.size →
        let answer := c.engine.initWithinWords used dedicated path size owner clientPath
        let left := dedicated.toNat - (used.toNat + reserved)
        (answer = some (.error (.upload (.alreadyActive path))) ↔ size.toNat ≤ left) ∧
        (answer = some (.error (.upload (.quotaExceeded size.toNat left))) ↔ left < size.toNat) ∧
        (size.toNat ≤ left → size = 0 ∨ used.toNat + r.size + size.toNat ≤ dedicated.toNat) ∧
        answer = some (c.engine.initWithin quota path size.toNat owner clientPath) ∧
        c.step (.initWithin quota path size.toNat owner clientPath) = c := by
  intro c reserved path r size owner clientPath hr hsize
  have hlimit : c.engine.maxUploadSize = maxSize := (Course.later_run (.new _) moves).engine.maxUploadSize
  obtain ⟨-, hpath, -⟩ := Course.admitted_run (e := .new disk storage writers maxSize capacity) rfl hr
  have hchecked : c.engine.checkNew path size.toNat = .ok () :=
    Engine.checkNew_eq_ok_iff.mpr ⟨hpath, hlimit ▸ hsize⟩
  refine ⟨(Engine.init_of_checked hchecked owner clientPath).1 r hr,
    Course.step_init_of_known hchecked hr owner clientPath, ?_⟩
  intro quota used dedicated hused hdedicated hreserved answer left
  have hexact : answer = some (c.engine.initWithin quota path size.toNat owner clientPath) :=
    Engine.initWithinWords_eq hreserved hused hdedicated path size owner clientPath
  obtain ⟨hknown, hlack⟩ := Engine.initWithin_known_iff hchecked hr hused owner clientPath
  rw [hdedicated] at hknown hlack
  refine ⟨?_, ?_, ?_, hexact, Course.step_initWithin_of_known hr quota size.toNat owner clientPath⟩
  · rw [hexact, Option.some.injEq]
    exact hknown
  · rw [hexact, Option.some.injEq]
    exact hlack
  · intro hfits
    have hown : r.size ≤ reserved := Registry.size_le_reservedBytes hr
    have hleft : size.toNat ≤ dedicated.toNat - (used.toNat + reserved) := hfits
    rw [← UInt64.toNat_inj]
    show size.toNat = 0 ∨ _
    omega

/-- Six bytes are registered within ten. -/
def sixOfTen : List Move := [.initWithin (.figures (.ok 0) 10) "a" 6 0 ""]

theorem sixOfTen_there :
    (((Course.new (.new .empty ⟨"up"⟩ 1 100 16)).run sixOfTen).engine.registry.find? "a").isSome := by
  decide

/-- Four bytes are left, so an upload of four is told that there is one, and an upload of six is not. -/
theorem six_more_are_told_as_lack :
    let e := ((Course.new (.new .empty ⟨"up"⟩ 1 100 16)).run sixOfTen).engine
    e.init "a" 6 0 "" = .error (.alreadyActive "a") ∧
    e.initWithinWords 0 10 "a" 4 0 "" = some (.error (.upload (.alreadyActive "a"))) ∧
    e.initWithinWords 0 10 "a" 6 0 "" = some (.error (.upload (.quotaExceeded 6 4))) := by
  intro e
  have hr : e.registry.find? "a" = some ((e.registry.find? "a").get sixOfTen_there) :=
    (Option.some_get sixOfTen_there).symm
  obtain ⟨-, -, hfour⟩ := repetition_told_where_space_is_left .empty ⟨"up"⟩ 1 100 16 sixOfTen "a" _ 4 0 ""
    hr (by decide)
  obtain ⟨hsix, -, hwithin⟩ := repetition_told_where_space_is_left .empty ⟨"up"⟩ 1 100 16 sixOfTen "a" _
    6 0 "" hr (by decide)
  exact ⟨hsix, (hfour (.figures (.ok 0) 10) 0 10 rfl rfl (by decide)).1.mpr (by decide),
    (hwithin (.figures (.ok 0) 10) 0 10 rfl rfl (by decide)).2.1.mpr (by decide)⟩

/-- A second registration need not be told that the path text is in use. -/
theorem repetition_told_as_lack_of_space :
    ¬ ∀ (disk : Disk) (storage : Storage) (writers maxSize capacity : Nat) (moves : List Move)
      (path : String) (r : Record) (size : Nat) (owner : Int) (clientPath : String) (quota : Quota)
      (used : Nat),
      let c := (Course.new (.new disk storage writers maxSize capacity)).run moves
      c.engine.registry.find? path = some r → size ≤ maxSize →
      quota.usedBytes c.engine.disk = .ok used →
        c.engine.initWithin quota path size owner clientPath = .error (.upload (.alreadyActive path)) ∧
          c.step (.initWithin quota path size owner clientPath) = c := by
  intro h
  have htold := (h .empty ⟨"up"⟩ 1 100 16 sixOfTen "a" _ 6 0 "" (.figures (.ok 0) 10) 0
    (Option.some_get sixOfTen_there).symm (by decide) rfl).1
  have hlack : ((Course.new (.new .empty ⟨"up"⟩ 1 100 16)).run sixOfTen).engine.initWithin
      (.figures (.ok 0) 10) "a" 6 0 "" = .error (.upload (.quotaExceeded 6 4)) := rfl
  rw [hlack] at htold
  cases htold

end ResumableUpload
