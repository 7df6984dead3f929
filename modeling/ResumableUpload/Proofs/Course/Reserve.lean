import ResumableUpload.Proofs.Course.Figures
import ResumableUpload.Proofs.Course.Space
import ResumableUpload.Words

/-
  Reserve — the arithmetic of the quota never leaves its words

  The figures of a quota are words of 64 bits. A registration sums the declared
  sizes, adds what is on disk and takes the sum from the space. The first sum
  is a plain one: nothing stops it from leaving the words but the registrations
  before, each of which left the sum below its own space. The other two stop at
  the ends of the words, and still decide what exact numbers decide.

  What is held:
    1. `Move.Budgeted` — a move that registers within a quota, or not at all.

  What is proved:
    1. `sum?_sizeWords` — the sum in words is the exact one if that is a word.
    2. `initWithinWords_eq` — so is then all the arithmetic of a registration.
    3. `reservedBytes_step`, `reservedBytes_run` — it is a word at every moment
       of a run that registers within quotas.
    4. `registered_within_quota_iff` — what a registration is decided by.
-/

namespace ResumableUpload

namespace Registry

variable {g g' : Registry}

/-- The sum of the declared sizes in words is the exact one if that is a word, in whichever order the
records are taken. -/
theorem sum?_sizeWords (h : g.reservedBytes < UInt64.size) {records : List Record}
    (hperm : records.Perm g.records) :
    Word.sum? (sizeWords records) = some (.ofNat g.reservedBytes) := by
  have hsum : (records.map Record.size).sum = g.reservedBytes := (hperm.map Record.size).sum_eq
  rw [Word.sum?_eq_some_iff, UInt64.toNat_ofNat_of_lt' h, sizeWords, List.map_map, ← hsum]
  show ((records.map _).sum) = _
  congr 1
  apply List.map_congr_left
  intro r hr
  -- no size is more than the sum
  have hle : r.size ≤ (records.map Record.size).sum := List.le_sum_of_mem (List.mem_map_of_mem hr)
  exact UInt64.toNat_ofNat_of_lt' (by omega)

theorem reservedBytes_mono (h : ∀ q, g'.declaredAt q ≤ g.declaredAt q) :
    g'.reservedBytes ≤ g.reservedBytes := by
  rw [reservedBytes_eq, reservedBytes_eq]
  calc ∑ q ∈ g'.paths.toFinset, g'.declaredAt q
      ≤ ∑ q ∈ g'.paths.toFinset, g.declaredAt q := Finset.sum_le_sum fun q _ => h q
    _ ≤ ∑ q ∈ g.paths.toFinset, g.declaredAt q := by
        apply Finset.sum_le_sum_of_ne_zero
        intro q _ hsome
        rw [List.mem_toFinset]
        by_contra hnot
        exact hsome (declaredAt_of_not_mem hnot)

end Registry

/-- Where the declared sizes sum to a word, a registration in words is the exact one. -/
theorem Engine.initWithinWords_eq {e : Engine} (h : e.registry.reservedBytes < UInt64.size)
    {quota : Quota} {used dedicated : UInt64} (hused : quota.usedBytes e.disk = .ok used.toNat)
    (hdedicated : quota.dedicatedBytes = dedicated.toNat) (path : String) (size : UInt64) (owner : Int)
    (clientPath : String) :
    e.initWithinWords used dedicated path size owner clientPath =
      some (e.initWithin quota path size.toNat owner clientPath) := by
  have hreserved : e.registry.reservedWord? = some (.ofNat e.registry.reservedBytes) :=
    Registry.sum?_sizeWords h (.refl _)
  have hexact : (QuotaWords.mk used (.ofNat e.registry.reservedBytes) dedicated).exact =
      ⟨used.toNat, e.registry.reservedBytes, quota.dedicatedBytes⟩ := by
    rw [QuotaWords.exact, UInt64.toNat_ofNat_of_lt' h, hdedicated]
  unfold initWithinWords initWithin
  simp only [hreserved, Option.map_some, QuotaWords.check_exact, hexact, hused]
  cases e.checkNew path size.toNat with
  | error err => rfl
  | ok _ =>
    simp only [bind, Except.bind]
    cases QuotaReport.check _ size.toNat with
    | error err => rfl
    | ok _ => cases e.registry.register path size.toNat owner clientPath <;> rfl

theorem Engine.find?_of_initWithin {e e' : Engine} {quota : Quota} {path clientPath : String}
    {size : Nat} {owner : Int} {t : Ticket}
    (h : e.initWithin quota path size owner clientPath = .ok (e', t)) :
    e'.registry.find? path = some (.new e.registry.nextId path size owner clientPath) := by
  obtain ⟨registry, notice, hreg, rfl⟩ := initWithin_eq_ok h
  have hregistry : (({ e with registry }.note notice).announceIfEmpty t).registry = registry :=
    registry_announceIfEmpty _ t
  rw [hregistry, Registry.find?_register hreg, if_pos rfl]

/-- The move registers nothing, or within a quota whose space is a word. -/
def Move.Budgeted : Move → Prop
  | .init .. => False
  | .initWithin quota .. => quota.dedicatedBytes < UInt64.size
  | _ => True

namespace Course

variable {c : Course} {m : Move}

theorem reserved_of_registers (hm : m.Budgeted) {t : Ticket} (ht : c.registers m = some t)
    (hsome : t.size ≠ 0) : c.engine.registry.reservedBytes + t.size < UInt64.size := by
  cases m with
  | init => cases hm
  | initWithin quota path size owner clientPath =>
    obtain ⟨e, he⟩ := eq_ok_of_ticket ht
    obtain ⟨-, used, -, hfits⟩ := Engine.initWithin_checked he
    obtain ⟨registry, notice, hreg, -⟩ := Engine.initWithin_eq_ok he
    obtain ⟨-, -, rfl⟩ := Registry.register_eq_ok hreg
    have hspace : quota.dedicatedBytes < UInt64.size := hm
    have hsize : size ≠ 0 := hsome
    have hfits : size ≤ quota.dedicatedBytes - (used + c.engine.registry.reservedBytes) := hfits
    show c.engine.registry.reservedBytes + size < _
    omega
  | _ => cases ht

theorem reservedBytes_step (hsound : c.Sound) (hfigured : c.Figured) (hm : m.Budgeted)
    (h : c.engine.registry.reservedBytes < UInt64.size) :
    (c.step m).engine.registry.reservedBytes < UInt64.size := by
  cases ht : c.registers m with
  | none => exact Nat.lt_of_le_of_lt (Registry.reservedBytes_mono (declaredAt_step hsound hfigured ht)) h
  | some t =>
    obtain ⟨-, -, registry, notice, clientPath, hreg, hstep⟩ := registers_eq_some ht
    have hregistry : (c.step m).engine.registry = registry := by
      rw [hstep]
      exact Engine.registry_announceIfEmpty _ t
    rw [hregistry, Registry.reservedBytes_register hreg]
    by_cases hsize : t.size = 0
    · rw [hsize]
      exact h
    · exact reserved_of_registers hm ht hsize

theorem reservedBytes_run (e : Engine) (hempty : e.registry = .empty) {moves : List Move}
    (hmoves : ∀ m ∈ moves, m.Budgeted) :
    ((new e).run moves).engine.registry.reservedBytes < UInt64.size := by
  induction moves using List.reverseRecOn with
  | nil =>
    show e.registry.reservedBytes < _
    rw [hempty]
    decide
  | append_singleton moves m ih =>
    rw [run_concat]
    have hbefore := ih fun m hm => hmoves m (List.mem_append_left _ hm)
    exact reservedBytes_step (sound_run e hempty moves) (figured_run e hempty moves)
      (hmoves m (List.mem_append_right _ (List.mem_singleton_self m))) hbefore

end Course

/-- In a run that registers within quotas only, each of its own figures, the declared sizes sum to a
word, in whichever order they are summed. A registration under a path text that is free, with a size
within the limit and figures that can be read, succeeds if it declares nothing or if its size fits the
space beside what is used and what is reserved, and otherwise is told what is left; and so it is
decided in words. -/
theorem registered_within_quota_iff (disk : Disk) (storage : Storage)
    (writers maxSize capacity : Nat) (moves : List Move) (hmoves : ∀ m ∈ moves, m.Budgeted) :
    let e := ((Course.new (.new disk storage writers maxSize capacity)).run moves).engine
    let reserved := e.registry.reservedBytes
    reserved < UInt64.size ∧
    (∀ records, records.Perm e.registry.records →
      Word.sum? (sizeWords records) = some (.ofNat reserved)) ∧
    ∀ (quota : Quota) (used dedicated size : UInt64) (path : String) (owner : Int)
      (clientPath : String), quota.usedBytes e.disk = .ok used.toNat →
      quota.dedicatedBytes = dedicated.toNat → (∃ names, Storage.resolve path = .ok names) →
      e.registry.find? path = none → size.toNat ≤ maxSize →
      let answer := e.initWithin quota path size.toNat owner clientPath
      let fits := size = 0 ∨ used.toNat + reserved + size.toNat ≤ dedicated.toNat
      ((∃ e', answer = .ok (e', ⟨e.registry.nextId, path, size.toNat, owner⟩) ∧
        e'.registry.find? path =
          some (.new e.registry.nextId path size.toNat owner clientPath)) ↔ fits) ∧
      (¬ fits → answer = .error (.upload
        (.quotaExceeded size.toNat (dedicated.toNat - used.toNat - reserved)))) ∧
      e.initWithinWords used dedicated path size owner clientPath = some answer := by
  intro e reserved
  have hreserved : reserved < UInt64.size := Course.reservedBytes_run _ rfl hmoves
  refine ⟨hreserved, fun records hperm => Registry.sum?_sizeWords hreserved hperm, ?_⟩
  intro quota used dedicated size path owner clientPath hused hdedicated hpath hfree hsize answer fits
  have hlimit : e.maxUploadSize = maxSize := (Course.later_run (.new _) moves).engine.maxUploadSize
  have hchecked : e.checkNew path size.toNat = .ok () :=
    Engine.checkNew_eq_ok_iff.mpr ⟨hpath, hlimit ▸ hsize⟩
  obtain ⟨hadmits, hrefuses⟩ :=
    Engine.initWithin_of_checked hchecked hfree hused owner clientPath
  rw [hdedicated] at hadmits hrefuses
  have hfits : fits ↔ size.toNat ≤ dedicated.toNat - (used.toNat + reserved) := by
    show size = 0 ∨ _ ↔ _
    rw [← UInt64.toNat_inj]
    show size.toNat = 0 ∨ _ ↔ _
    omega
  have hrefused : ¬ fits → answer = .error (.upload
      (.quotaExceeded size.toNat (dedicated.toNat - used.toNat - reserved))) := by
    intro hnot
    rw [hfits] at hnot
    rw [Nat.sub_sub]
    exact hrefuses (Nat.not_le.mp hnot)
  refine ⟨⟨?_, ?_⟩, hrefused, ?_⟩
  · intro ⟨e', he', _⟩
    by_contra hnot
    rw [hrefused hnot] at he'
    cases he'
  · intro h
    obtain ⟨e', he'⟩ := hadmits (hfits.mp h)
    exact ⟨e', he', Engine.find?_of_initWithin he'⟩
  · exact Engine.initWithinWords_eq hreserved hused hdedicated path size owner clientPath

/-- Four bytes are reserved in the greatest space there is. -/
def fourReserved : List Move := [.initWithin (.figures (.ok 0) (UInt64.size - 1)) "a" 4 0 ""]

theorem fourReserved_budgeted : ∀ m ∈ fourReserved, m.Budgeted := by
  intro m hm
  rw [fourReserved, List.mem_singleton] at hm
  rw [hm]
  show UInt64.size - 1 < UInt64.size
  decide

/-- With the greatest figure of use the sum of used and reserved is no word; one byte more is refused,
and nothing is left. -/
theorem one_byte_more_is_refused :
    let e := ((Course.new (.new .empty ⟨"up"⟩ 1 100 16)).run fourReserved).engine
    e.registry.reservedBytes = 4 ∧
    e.initWithin (.figures (.ok (UInt64.size - 1)) (UInt64.size - 1)) "b" 1 0 "" =
      .error (.upload (.quotaExceeded 1 0)) := by
  intro e
  obtain ⟨-, -, hcalls⟩ := registered_within_quota_iff .empty ⟨"up"⟩ 1 100 16 fourReserved
    fourReserved_budgeted
  obtain ⟨-, hrefused, -⟩ := hcalls (.figures (.ok (UInt64.size - 1)) (UInt64.size - 1))
    (.ofNat (UInt64.size - 1)) (.ofNat (UInt64.size - 1)) 1 "b" 0 "" rfl rfl ⟨["b"], rfl⟩ rfl
    (by decide)
  refine ⟨rfl, hrefused ?_⟩
  rintro (hzero | hfits)
  · exact absurd hzero (by decide)
  · exact absurd hfits (by decide)

end ResumableUpload
