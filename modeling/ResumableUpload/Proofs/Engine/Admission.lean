import ResumableUpload.Proofs.Engine.Steps

/-
  Admission — what a registration is checked for

  An upload is registered under a path that names a file, with a size within
  the limit, and under a path text that no upload has. Within a quota it has to
  fit the space as well, beside what is on disk and what is reserved.

  What is proved:
    1. `checkNew_eq_ok_iff` — what the check of path and size asks for.
    2. `init_of_checked` — it is all that a registration asks for, beside a path
       text that is free.
    3. `initWithin_of_lack`, `initWithin_of_checked` — a quota asks, before that,
       for as many bytes as are left.
    4. `initWithin_of_known` — so a path text in use is told of only where they
       are.
    5. `init_checked`, `initWithin_checked` — what is registered was checked.
-/

namespace ResumableUpload

namespace QuotaReport

variable {q : QuotaReport} {size : Nat}

theorem check_of_fits (h : size ≤ q.available) : q.check size = .ok () := if_neg (Nat.not_lt.mpr h)

theorem check_of_lack (h : q.available < size) :
    q.check size = .error (.quotaExceeded size q.available) := if_pos h

end QuotaReport

namespace Engine

variable {e e' : Engine} {path clientPath : String} {size : Nat} {owner : Int} {t : Ticket}

theorem checkNew_eq_ok_iff : e.checkNew path size = .ok () ↔
    (∃ names, Storage.resolve path = .ok names) ∧ size ≤ e.maxUploadSize := by
  unfold checkNew
  cases Storage.resolve path with
  | error err => simp
  | ok names =>
    by_cases hsize : e.maxUploadSize < size
    · simp [hsize]
    · simp [hsize, Nat.not_lt.mp hsize]

/-- What passes the check is refused where its path text is in use, and only there. -/
theorem init_of_checked (hchecked : e.checkNew path size = .ok ()) (owner : Int)
    (clientPath : String) :
    (∀ r, e.registry.find? path = some r →
      e.init path size owner clientPath = .error (.alreadyActive path)) ∧
    (e.registry.find? path = none →
      ∃ e', e.init path size owner clientPath = .ok (e', ⟨e.registry.nextId, path, size, owner⟩)) := by
  constructor
  · intro r hr
    simp only [init, hchecked, Registry.register_of_known hr, bind, Except.bind]
  · intro hfree
    obtain ⟨next, hnext⟩ := Registry.register_of_absent hfree size owner clientPath
    simp only [init, hchecked, hnext, bind, Except.bind]
    exact ⟨_, rfl⟩

/-- Where fewer bytes are left, that is what a registration within a quota is refused for, whether its
path text is free or not. -/
theorem initWithin_of_lack (hchecked : e.checkNew path size = .ok ()) {quota : Quota} {used : Nat}
    (hused : quota.usedBytes e.disk = .ok used) (owner : Int) (clientPath : String)
    (hlack : quota.dedicatedBytes - (used + e.registry.reservedBytes) < size) :
    e.initWithin quota path size owner clientPath = .error (.upload (.quotaExceeded size
      (quota.dedicatedBytes - (used + e.registry.reservedBytes)))) := by
  have hrefused := QuotaReport.check_of_lack
    (q := ⟨used, e.registry.reservedBytes, quota.dedicatedBytes⟩) hlack
  simp only [initWithin, hchecked, hused, hrefused, bind, Except.bind]
  rfl

/-- What passes the check under a path text that is free is registered within a quota if it fits what
is left, and refused if it does not. -/
theorem initWithin_of_checked (hchecked : e.checkNew path size = .ok ())
    (hfree : e.registry.find? path = none) {quota : Quota} {used : Nat}
    (hused : quota.usedBytes e.disk = .ok used) (owner : Int) (clientPath : String) :
    let left := quota.dedicatedBytes - (used + e.registry.reservedBytes)
    (size ≤ left → ∃ e', e.initWithin quota path size owner clientPath =
      .ok (e', ⟨e.registry.nextId, path, size, owner⟩)) ∧
    (left < size → e.initWithin quota path size owner clientPath =
      .error (.upload (.quotaExceeded size left))) := by
  intro left
  refine ⟨fun hfits => ?_, initWithin_of_lack hchecked hused owner clientPath⟩
  obtain ⟨next, hnext⟩ := Registry.register_of_absent hfree size owner clientPath
  have hpasses := QuotaReport.check_of_fits
    (q := ⟨used, e.registry.reservedBytes, quota.dedicatedBytes⟩) hfits
  simp only [initWithin, hchecked, hused, hpasses, hnext, bind, Except.bind]
  exact ⟨_, rfl⟩

/-- What passes the check under a path text in use is told so within a quota where it fits what is left,
which the upload there takes its part of, and nowhere else. -/
theorem initWithin_of_known (hchecked : e.checkNew path size = .ok ()) {r : Record}
    (hr : e.registry.find? path = some r) {quota : Quota} {used : Nat}
    (hused : quota.usedBytes e.disk = .ok used) (owner : Int) (clientPath : String)
    (hfits : size ≤ quota.dedicatedBytes - (used + e.registry.reservedBytes)) :
    e.initWithin quota path size owner clientPath = .error (.upload (.alreadyActive path)) := by
  have hpasses := QuotaReport.check_of_fits
    (q := ⟨used, e.registry.reservedBytes, quota.dedicatedBytes⟩) hfits
  simp only [initWithin, hchecked, hused, hpasses, Registry.register_of_known hr, bind, Except.bind]
  rfl

theorem init_checked (h : e.init path size owner clientPath = .ok (e', t)) :
    e.checkNew path size = .ok () := by
  unfold init at h
  simp only [bind, Except.bind] at h
  split at h
  · cases h
  · assumption

/-- What is registered within a quota fits the space that is left. -/
theorem initWithin_checked {quota : Quota}
    (h : e.initWithin quota path size owner clientPath = .ok (e', t)) :
    e.checkNew path size = .ok () ∧ ∃ used, quota.usedBytes e.disk = .ok used ∧
      size ≤ quota.dedicatedBytes - (used + e.registry.reservedBytes) := by
  unfold initWithin at h
  simp only [bind, Except.bind] at h
  cases hchecked : e.checkNew path size with
  | error err =>
    rw [hchecked] at h
    cases h
  | ok u =>
    cases hused : quota.usedBytes e.disk with
    | error err =>
      rw [hchecked, hused] at h
      cases h
    | ok used =>
      refine ⟨rfl, used, rfl, ?_⟩
      refine Nat.le_of_not_lt fun hlack => ?_
      have hrefused := QuotaReport.check_of_lack
        (q := ⟨used, e.registry.reservedBytes, quota.dedicatedBytes⟩) hlack
      rw [hchecked, hused] at h
      dsimp only at h
      rw [hrefused] at h
      cases h

end Engine

end ResumableUpload
