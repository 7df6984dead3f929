import ResumableUpload.Storage

/-
  Quota — whether an upload fits the dedicated space

  A new upload fits if the bytes on disk, the declared sizes of all uploads in
  progress and its own size together stay within the dedicated space.

  What is held:
    1. `Quota` — where the figures of disk use come from.
    2. `QuotaReport` — the figures; `available` and `check`.

  The figures are exact numbers. `QuotaWords` has them in words, and
  `QuotaWords.check_exact` says that it comes to the same.
-/

namespace ResumableUpload

/-- Where the figures of disk use come from. -/
inductive Quota where
  /-- Figures, or the failure of reading them. -/
  | figures (used : Except Error Nat) (dedicated : Nat)
  /-- The bytes a storage takes, against a fixed space. -/
  | ofStorage (storage : Storage) (dedicated : Nat)

namespace Quota

/-- The bytes on disk. -/
def usedBytes (d : Disk) : Quota → Except Error Nat
  | figures used _ => used
  | ofStorage storage _ => storage.usedBytes d

/-- The space set aside. -/
def dedicatedBytes : Quota → Nat
  | figures _ dedicated => dedicated
  | ofStorage _ dedicated => dedicated

end Quota

/-- The figures of disk use at one moment. -/
structure QuotaReport where
  /-- The bytes on disk. -/
  used : Nat
  /-- The declared sizes of all uploads in progress. -/
  reserved : Nat
  /-- The space set aside. -/
  dedicated : Nat
  deriving DecidableEq, Repr

namespace QuotaReport

/-- The figures of a quota, with what is reserved. -/
def collect (d : Disk) (quota : Quota) (reserved : Nat) : Except Error QuotaReport :=
  (quota.usedBytes d).map fun used => ⟨used, reserved, quota.dedicatedBytes⟩

/-- The bytes left for new uploads; none where more than the space is taken. -/
def available (q : QuotaReport) : Nat := q.dedicated - (q.used + q.reserved)

/-- Refuses what does not fit. -/
def check (q : QuotaReport) (requested : Nat) : Except UploadError Unit :=
  if q.available < requested then .error (.quotaExceeded requested q.available) else .ok ()

end QuotaReport

end ResumableUpload
