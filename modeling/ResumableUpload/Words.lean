import ResumableUpload.Engine.Basic

/-
  Words — the figures of uploads in 64-bit arithmetic

  A size, an offset and a figure of disk use is a word of 64 bits where the
  program runs. The rest of the library computes with exact numbers; here is
  the arithmetic the machine does, and each result of it read as a number.

  What is held:
    1. `Word.checkedAdd`, `Word.checkedSub`, `Word.saturatingAdd`,
       `Word.saturatingSub`, `Word.sum?` — a sum and a difference that may leave
       the words, those that stop at the ends, and the sum of a list.
       `toNat_saturatingAdd`, `sum?_eq_some_iff` and their like say which number
       each gives.
    2. `QuotaWords` — a quota report in words; `available_exact` and
       `check_exact` compare it with the exact one.
    3. `Registry.reservedWord?` and `Engine.initWithinWords` — a registration
       within a quota, computed in words.
    4. `Disk.countIn`, `Storage.usedWord?` — the space in use, counted in words.
    5. `Fragment.fitsWords` — the test that a fragment lies within a size.
    6. `coveredWord?` — the lengths of ranges, summed in words.
    7. `QueueWords` — a queue with its bytes counted in a word; `push?_of_fits`
       and `pop?_of_some` say when the count goes on, and to which number.
-/

namespace ResumableUpload

namespace Word

/-- The sum, if it is a word. -/
def checkedAdd (a b : UInt64) : Option UInt64 :=
  -- a sum that has wrapped is less than either summand
  if a + b < a then none else some (a + b)

/-- The sum, or the greatest word. -/
def saturatingAdd (a b : UInt64) : UInt64 := (checkedAdd a b).getD (.ofNat (UInt64.size - 1))

/-- The difference, or nothing. -/
def saturatingSub (a b : UInt64) : UInt64 := if b ≤ a then a - b else 0

/-- The difference, if it is a word. -/
def checkedSub (a b : UInt64) : Option UInt64 := if b ≤ a then some (a - b) else none

/-- The number as a word, if it is one. -/
def ofNat? (n : Nat) : Option UInt64 := if n < UInt64.size then some (.ofNat n) else none

/-- The sum of words, if no sum on the way leaves them. -/
def sum? (l : List UInt64) : Option UInt64 := l.foldlM checkedAdd 0

variable {a b c : UInt64} {l : List UInt64}

theorem checkedAdd_eq (a b : UInt64) :
    checkedAdd a b = if a.toNat + b.toNat < UInt64.size then some (a + b) else none := by
  have ha := a.toNat_lt
  have hb := b.toNat_lt
  have hwraps : a + b < a ↔ ¬ a.toNat + b.toNat < UInt64.size := by
    rw [UInt64.lt_iff_toNat_lt, UInt64.toNat_add, UInt64.size]
    omega
  rw [checkedAdd]
  simp only [hwraps, ite_not]

theorem checkedAdd_eq_some_iff : checkedAdd a b = some c ↔ a.toNat + b.toNat = c.toNat := by
  rw [checkedAdd_eq]
  constructor
  · intro h
    split at h
    · rename_i hfits
      obtain rfl := Option.some.inj h
      rw [UInt64.toNat_add, Nat.mod_eq_of_lt hfits]
    · cases h
  · intro h
    have hfits : a.toNat + b.toNat < UInt64.size := h ▸ c.toNat_lt
    rw [if_pos hfits, Option.some.injEq, ← UInt64.toNat_inj, UInt64.toNat_add,
      Nat.mod_eq_of_lt hfits, h]

theorem checkedAdd_eq_none_iff : checkedAdd a b = none ↔ UInt64.size ≤ a.toNat + b.toNat := by
  rw [checkedAdd_eq]
  split
  · rename_i hfits
    simp [Nat.not_le.mpr hfits]
  · rename_i hfits
    simp [Nat.not_lt.mp hfits]

theorem checkedAdd_ofNat {m n : Nat} (hm : m < UInt64.size) (hn : n < UInt64.size) :
    checkedAdd (.ofNat m) (.ofNat n) = ofNat? (m + n) := by
  rw [checkedAdd_eq, UInt64.toNat_ofNat_of_lt' hm, UInt64.toNat_ofNat_of_lt' hn, ofNat?,
    UInt64.ofNat_add]

theorem toNat_saturatingAdd (a b : UInt64) :
    (saturatingAdd a b).toNat = min (a.toNat + b.toNat) (UInt64.size - 1) := by
  unfold saturatingAdd
  cases h : checkedAdd a b with
  | some c =>
    rw [checkedAdd_eq_some_iff] at h
    have hc : c.toNat < UInt64.size := c.toNat_lt
    show c.toNat = _
    omega
  | none =>
    rw [checkedAdd_eq_none_iff] at h
    have hmax : (UInt64.ofNat (UInt64.size - 1)).toNat = UInt64.size - 1 := by decide
    show (UInt64.ofNat (UInt64.size - 1)).toNat = _
    rw [hmax]
    omega

theorem toNat_saturatingSub (a b : UInt64) : (saturatingSub a b).toNat = a.toNat - b.toNat := by
  unfold saturatingSub
  by_cases hle : b ≤ a
  · rw [if_pos hle, UInt64.toNat_sub_of_le _ _ hle]
  · rw [if_neg hle]
    rw [UInt64.le_iff_toNat_le] at hle
    show 0 = _
    omega

theorem checkedSub_eq_some_iff : checkedSub a b = some c ↔ c.toNat + b.toNat = a.toNat := by
  unfold checkedSub
  by_cases hle : b ≤ a
  · rw [if_pos hle, Option.some.injEq, ← UInt64.toNat_inj, UInt64.toNat_sub_of_le _ _ hle]
    rw [UInt64.le_iff_toNat_le] at hle
    omega
  · rw [if_neg hle]
    rw [UInt64.le_iff_toNat_le] at hle
    constructor
    · intro h
      cases h
    · intro h
      omega

theorem foldlM_checkedAdd_eq_some_iff :
    l.foldlM checkedAdd a = some c ↔
      a.toNat + (l.map UInt64.toNat).foldr (· + ·) 0 = c.toNat := by
  induction l generalizing a with
  | nil => simp [UInt64.toNat_inj]
  | cons b rest ih =>
    rw [List.foldlM_cons, List.map_cons, List.foldr_cons, Option.bind_eq_bind,
      Option.bind_eq_some_iff]
    constructor
    · rintro ⟨m, hm, hrest⟩
      rw [checkedAdd_eq_some_iff] at hm
      rw [ih] at hrest
      omega
    · intro h
      -- the first two summands are no more than the sum, which is a word
      have hfits : a.toNat + b.toNat < UInt64.size := by
        have hc : c.toNat < UInt64.size := c.toNat_lt
        omega
      refine ⟨.ofNat (a.toNat + b.toNat), checkedAdd_eq_some_iff.mpr ?_, ih.mpr ?_⟩
      · rw [UInt64.toNat_ofNat_of_lt' hfits]
      · rw [UInt64.toNat_ofNat_of_lt' hfits]
        omega

/-- A sum of words that is a word is the exact sum, and no sum on the way leaves the words. -/
theorem sum?_eq_some_iff :
    sum? l = some c ↔ (l.map UInt64.toNat).foldr (· + ·) 0 = c.toNat := by
  rw [sum?, foldlM_checkedAdd_eq_some_iff]
  show 0 + _ = _ ↔ _
  rw [Nat.zero_add]

end Word

/-! ## The quota -/

/-- The figures of disk use, in words. -/
structure QuotaWords where
  used : UInt64
  reserved : UInt64
  dedicated : UInt64
  deriving DecidableEq, Repr

namespace QuotaWords

/-- The bytes left for new uploads. -/
def available (q : QuotaWords) : UInt64 :=
  Word.saturatingSub q.dedicated (Word.saturatingAdd q.used q.reserved)

/-- Refuses what does not fit. -/
def check (q : QuotaWords) (requested : UInt64) : Except UploadError Unit :=
  if q.available < requested then .error (.quotaExceeded requested.toNat q.available.toNat)
  else .ok ()

/-- The figures as exact numbers. -/
def exact (q : QuotaWords) : QuotaReport := ⟨q.used.toNat, q.reserved.toNat, q.dedicated.toNat⟩

/-- A sum that stops at the greatest word leaves nothing of a space that is a word, and neither does
the exact one. -/
theorem available_exact (q : QuotaWords) : q.available.toNat = q.exact.available := by
  have hdedicated : q.dedicated.toNat < UInt64.size := q.dedicated.toNat_lt
  rw [available, Word.toNat_saturatingSub, Word.toNat_saturatingAdd]
  show _ = q.dedicated.toNat - (q.used.toNat + q.reserved.toNat)
  omega

theorem check_exact (q : QuotaWords) (requested : UInt64) :
    q.check requested = q.exact.check requested.toNat := by
  simp only [check, QuotaReport.check, UInt64.lt_iff_toNat_lt, available_exact]

end QuotaWords

/-- The declared sizes as words. -/
def sizeWords (records : List Record) : List UInt64 := records.map fun r => .ofNat r.size

/-- The declared sizes of all uploads, summed in words. -/
def Registry.reservedWord? (g : Registry) : Option UInt64 := Word.sum? (sizeWords g.records)

/-- Registers an upload within a quota with the arithmetic done in words; nothing, where the sum of the
declared sizes leaves them. -/
def Engine.initWithinWords (e : Engine) (used dedicated : UInt64) (path : String) (size : UInt64)
    (owner : Int) (clientPath : String) : Option (Except Error (Engine × Ticket)) :=
  match e.checkNew path size.toNat with
  | .error err => some (.error (.upload err))
  | .ok () =>
    e.registry.reservedWord?.map fun reserved =>
      match (QuotaWords.mk used reserved dedicated).check size with
      | .error err => .error (.upload err)
      | .ok () =>
        match e.registry.register path size.toNat owner clientPath with
        | .error err => .error (.upload err)
        | .ok (registry, ticket) =>
          let e := { e with registry }.note (.initializedWithinQuota path size.toNat owner)
          .ok (e.announceIfEmpty ticket, ticket)

/-! ## The space in use -/

namespace Disk

/-- What lies in a directory, by its locations. -/
def listing (d : Disk) (dir : Location) : List (Location × Entry) :=
  d.entries.filter fun x => x.1.dropLast = dir

/-- What lies in a directory is counted: a directory by a count of its own, a file by its length, a link
for nothing. -/
def countEntry (count : Location → ExceptT OsError Option UInt64) (x : Location × Entry) :
    ExceptT OsError Option UInt64 :=
  match x.2 with
  | .directory => count x.1
  | e => Word.ofNat? e.fileSize

/-- The count that walks a directory and all below it, `depth` directories deep at most. A directory is
listed by its path; where a sum leaves the words, nothing comes of it. -/
def countIn (d : Disk) (p : OsPath) (base : Location) :
    Nat → Location → ExceptT OsError Option UInt64
  | 0, _ => pure 0
  | depth + 1, dir =>
    if OsPath.maxBytes < (p.join (dir.drop base.length)).bytes then throw .nameTooLong
    else (d.listing dir).foldlM (fun total x => do
      let count ← countEntry (d.countIn p base depth) x
      Word.checkedAdd total count) 0

/-- The most names that lead to anything on the disk. -/
def depth (d : Disk) : Nat := (d.entries.map fun x => x.1.length).foldr max 0

end Disk

/-- The bytes all regular files below the base take, counted in words by a walk of the directories;
nothing, where the count leaves the words. -/
def Storage.usedWord? (s : Storage) (d : Disk) : Option (Except Error UInt64) :=
  match d.find s.basePath with
  | .error cause => some (.error (.io cause))
  | .ok (base, .directory) =>
    (d.countIn s.basePath base (d.depth + 1) base).run.map fun r => r.mapError .io
  | .ok _ => some (.error (.io .notDirectory))

/-! ## The bounds of a fragment -/

/-- Whether the bytes from a position on lie within a size. -/
def Fragment.fitsWords (position len size : UInt64) : Bool :=
  (Word.checkedAdd position len).any fun stop => stop ≤ size

theorem Fragment.fitsWords_iff {position len size : UInt64} :
    Fragment.fitsWords position len size = true ↔ position.toNat + len.toNat ≤ size.toNat := by
  rw [fitsWords, Option.any_eq_true]
  constructor
  · rintro ⟨stop, hstop, hle⟩
    rw [Word.checkedAdd_eq_some_iff] at hstop
    rw [decide_eq_true_eq, UInt64.le_iff_toNat_le] at hle
    omega
  · intro h
    have hfits : position.toNat + len.toNat < UInt64.size := Nat.lt_of_le_of_lt h size.toNat_lt
    refine ⟨.ofNat (position.toNat + len.toNat), Word.checkedAdd_eq_some_iff.mpr ?_, ?_⟩
    · rw [UInt64.toNat_ofNat_of_lt' hfits]
    · rw [decide_eq_true_eq, UInt64.le_iff_toNat_le, UInt64.toNat_ofNat_of_lt' hfits]
      exact h

/-! ## The lengths of ranges -/

/-- The lengths of ranges, summed in words. -/
def coveredWord? (ranges : List (UInt64 × UInt64)) : Option UInt64 :=
  Word.sum? (ranges.map fun r => Word.saturatingSub r.2 r.1)

/-- Ranges of words, read as ranges of numbers. -/
def rangesOfWords (ranges : List (UInt64 × UInt64)) : List ByteRange :=
  ranges.map fun r => ⟨r.1.toNat, r.2.toNat⟩

theorem coveredWord?_eq_some_iff {ranges : List (UInt64 × UInt64)} {total : UInt64} :
    coveredWord? ranges = some total ↔ coveredBytes (rangesOfWords ranges) = total.toNat := by
  rw [coveredWord?, Word.sum?_eq_some_iff, coveredBytes, rangesOfWords, List.map_map, List.map_map]
  have hlengths : ranges.map (UInt64.toNat ∘ fun r => Word.saturatingSub r.2 r.1) =
      ranges.map (ByteRange.length ∘ fun r => ⟨r.1.toNat, r.2.toNat⟩) :=
    List.map_congr_left fun r _ => Word.toNat_saturatingSub r.2 r.1
  rw [hlengths]

/-! ## The bytes of a queue -/

/-- A queue, and its bytes counted in a word beside it. -/
structure QueueWords where
  queue : FragmentQueue
  bytes : UInt64
  deriving DecidableEq, Repr

namespace QueueWords

/-- Nothing waits. -/
def empty : QueueWords := ⟨.empty, 0⟩

/-- The queue with a fragment at its end; nothing, where the sum leaves the words. -/
def push? (q : QueueWords) (f : Fragment) : Option QueueWords :=
  (Word.checkedAdd q.bytes (.ofNat f.len)).map fun bytes => ⟨q.queue.push f, bytes⟩

/-- The oldest fragment, if one waits, and the queue without it; nothing, where the difference falls
below zero. -/
def pop? (q : QueueWords) : Option (Option Fragment × QueueWords) :=
  match q.queue.pop? with
  | none => some (none, q)
  | some (f, queue) =>
    (Word.checkedSub q.bytes (.ofNat f.len)).map fun bytes => (some f, ⟨queue, bytes⟩)

variable {q : QueueWords} {f : Fragment} {rest : FragmentQueue}

theorem push?_of_fits (h : q.bytes.toNat + f.len < UInt64.size) :
    ∃ bytes, q.push? f = some ⟨q.queue.push f, bytes⟩ ∧ bytes.toNat = q.bytes.toNat + f.len := by
  have hlen : (UInt64.ofNat f.len).toNat = f.len := UInt64.toNat_ofNat_of_lt' (by omega)
  have hsum : (UInt64.ofNat (q.bytes.toNat + f.len)).toNat = q.bytes.toNat + f.len :=
    UInt64.toNat_ofNat_of_lt' h
  have hadd : Word.checkedAdd q.bytes (.ofNat f.len) = some (.ofNat (q.bytes.toNat + f.len)) := by
    rw [Word.checkedAdd_eq_some_iff, hlen, hsum]
  exact ⟨_, by rw [push?, hadd]; rfl, hsum⟩

theorem pop?_of_none (h : q.queue.pop? = none) : q.pop? = some (none, q) := by
  rw [pop?, h]

theorem pop?_of_some (h : q.queue.pop? = some (f, rest)) (hle : f.len ≤ q.bytes.toNat) :
    ∃ bytes, q.pop? = some (some f, ⟨rest, bytes⟩) ∧ bytes.toNat + f.len = q.bytes.toNat := by
  have hword : q.bytes.toNat < UInt64.size := q.bytes.toNat_lt
  have hlen : (UInt64.ofNat f.len).toNat = f.len := UInt64.toNat_ofNat_of_lt' (by omega)
  have hdiff : (UInt64.ofNat (q.bytes.toNat - f.len)).toNat = q.bytes.toNat - f.len :=
    UInt64.toNat_ofNat_of_lt' (by omega)
  have hsub : Word.checkedSub q.bytes (.ofNat f.len) = some (.ofNat (q.bytes.toNat - f.len)) := by
    rw [Word.checkedSub_eq_some_iff, hlen, hdiff]
    omega
  refine ⟨_, by rw [pop?, h]; simp only [hsub]; rfl, ?_⟩
  rw [hdiff]
  omega

end QueueWords

end ResumableUpload
