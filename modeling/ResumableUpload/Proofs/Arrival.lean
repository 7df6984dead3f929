import ResumableUpload.Proofs.Course.Slots
import ResumableUpload.Proofs.Engine.Submit
import ResumableUpload.Proofs.Fragment.Tiling

/-
  Arrival — the order in which fragments come makes no difference

  The fragments of an upload are submitted one after another, each to its end.
  They share no offset and cover the upload, and come in any order. Each is
  written at once; after the last one that has bytes, the upload is complete,
  and its file is the same for every order.

  What is held:
    1. `Engine.submitAll` — submissions one after another.
    2. `Arrived` — an upload of which some fragments arrived.

  What is proved:
    1. `arrived_submit`, `arrived_submitAll` — every submission keeps it.
    2. `complete_in_any_order` — what all submissions come to.
-/

namespace ResumableUpload

/-- Fragments submitted one after another, and what each submission came to. -/
def Engine.submitAll (e : Engine) (path : String) : List Fragment → Engine × List PumpResult
  | [] => (e, [])
  | f :: rest =>
    let (e, result) := e.submit path f
    let (e, results) := e.submitAll path rest
    (e, result :: results)

/-- The upload at `path`, of `n` bytes, of which the fragments `done` arrived since the engine was
`start`; its file held `old`. -/
structure Arrived (start : Engine) (path : String) (n : Nat) (file : OpenFile) (old : Content)
    (done : List Fragment) (e : Engine) : Prop where
  record : ∃ r, e.Resting path r ∧ r.size = n ∧ r.received = totalLen done ∧
    r.saved = totalLen done ∧ r.completed = decide (n ≤ r.saved)
  /-- Until the first one arrives, the file may have to be made. -/
  disk : ∃ d, e.storage.openForWrite e.disk path = (d, .ok file) ∧
    Opened e.storage path file d (old.lay done) ∧ (done ≠ [] → d = e.disk)
  sent : e.feed.sent = start.feed.sent ++ if n ≤ totalLen done then [.completed path n] else []

theorem Record.news_eq (r : Record) (f : Fragment) :
    r.news f.range = if r.size ≤ r.saved + f.len ∧ r.completed = false then [.completed r.path r.size]
      else [] := by
  have hcompleted : (r.recordWrite f.range).completed = decide (r.size ≤ r.saved + f.len) := by
    rw [← f.length_range]
    rfl
  rw [news, hcompleted]
  congr 1
  simp

theorem arrived_submit {start e : Engine} {path : String} {n : Nat} {file : OpenFile}
    {old : Content} {done : List Fragment} {f : Fragment}
    (h : Arrived start path n file old done e) (hfit : f.stop ≤ n)
    (hpos : f.position < Disk.offsetLimit) :
    ∃ e', e.submit path f =
        (e', .ok (.drained (totalLen (done ++ [f])) (decide (n ≤ totalLen (done ++ [f]))))) ∧
      Arrived start path n file old (done ++ [f]) e' := by
  obtain ⟨r, hresting, hsize, hreceived, hsaved, hcompleted⟩ := h.record
  obtain ⟨d, hopen, hopened, -⟩ := h.disk
  obtain ⟨e', r', hsubmit, hresting', hsize', hreceived', hsaved', hcompleted', hstorage, hdisk, hsent⟩ :=
    Engine.submit_resting hresting (by rw [hsize]; exact hfit) hpos hopen
  have htotal : totalLen (done ++ [f]) = totalLen done + f.len := totalLen_concat done f
  have hsum : r'.saved = totalLen (done ++ [f]) := by rw [hsaved', hsaved, htotal]
  have hopened' : Opened e'.storage path file e'.disk (old.lay (done ++ [f])) := by
    rw [hstorage, hdisk, Content.lay_append]
    exact hopened.place f.position f.bytes
  refine ⟨e', ?_, ⟨r', hresting', ?_, ?_, hsum, ?_⟩, ⟨e'.disk, ?_, hopened', fun _ => rfl⟩, ?_⟩
  · rw [hsubmit, hcompleted', hsum, hsize]
  · rw [hsize', hsize]
  · rw [hreceived', hreceived, htotal]
  · rw [hcompleted', hsize]
  · exact hopened'.again e'.disk (.refl _)
  · have hpath : r.path = path := Registry.path_of_find? hresting.found
    rw [hsent, h.sent, r.news_eq, hsize, hpath, hcompleted, hsaved, htotal, List.append_assoc]
    -- announced before, with this fragment, or not yet
    by_cases hbefore : n ≤ totalLen done
    · have hafter : n ≤ totalLen done + f.len := by omega
      simp [hbefore, hafter]
    · simp [hbefore]

theorem arrived_submitAll {start e : Engine} {path : String} {n : Nat} {file : OpenFile}
    {old : Content} {done fs : List Fragment} (h : Arrived start path n file old done e)
    (hfit : ∀ f ∈ fs, f.stop ≤ n) (hpos : ∀ f ∈ fs, f.position < Disk.offsetLimit) :
    Arrived start path n file old (done ++ fs) (e.submitAll path fs).1 ∧
      (e.submitAll path fs).2 = (List.range fs.length).map fun k =>
        .ok (.drained (totalLen (done ++ fs.take (k + 1)))
          (decide (n ≤ totalLen (done ++ fs.take (k + 1))))) := by
  induction fs generalizing done e with
  | nil => exact ⟨by rw [List.append_nil]; exact h, rfl⟩
  | cons f rest ih =>
    obtain ⟨e', hsubmit, harrived⟩ :=
      arrived_submit h (hfit f List.mem_cons_self) (hpos f List.mem_cons_self)
    obtain ⟨hrest, hresults⟩ := ih harrived (fun g hg => hfit g (List.mem_cons_of_mem _ hg))
      (fun g hg => hpos g (List.mem_cons_of_mem _ hg))
    have hall : e.submitAll path (f :: rest) =
        ((e'.submitAll path rest).1, .ok (.drained (totalLen (done ++ [f]))
          (decide (n ≤ totalLen (done ++ [f])))) :: (e'.submitAll path rest).2) := by
      rw [Engine.submitAll, hsubmit]
    rw [hall]
    refine ⟨?_, ?_⟩
    · rw [List.append_assoc] at hrest
      exact hrest
    · dsimp only
      rw [hresults, List.length_cons, List.range_succ_eq_map, List.map_cons, List.map_map]
      refine congrArg _ (List.map_congr_left fun k _ => ?_)
      rw [List.append_assoc]
      rfl

/-- What the submission of all fragments comes to: every call drains, and the upload is complete after
the last fragment that has bytes. -/
structure Delivered (start : Engine) (path : String) (n : Nat) (file : OpenFile) (content : Content)
    (fs : List Fragment) : Prop where
  results : (start.submitAll path fs).2 = (List.range fs.length).map fun k =>
    .ok (.drained (totalLen (fs.take (k + 1))) ((fs.drop (k + 1)).all Fragment.isEmpty))
  record : ∃ r, (start.submitAll path fs).1.registry.find? path = some r ∧ r.received = n ∧
    r.saved = n ∧ r.completed = true
  /-- The path of the upload leads to the file. -/
  destination : (start.submitAll path fs).1.storage.openForWrite (start.submitAll path fs).1.disk path =
    ((start.submitAll path fs).1.disk, .ok file)
  holds : (start.submitAll path fs).1.disk.contentOf? file.loc = some content
  events : ∀ k, (start.submitAll path (fs.take k)).1.feed.sent =
    start.feed.sent ++ if (fs.drop k).all Fragment.isEmpty then [.completed path n] else []

/-- Fragments that tile the upload are delivered, in whatever order they come. -/
theorem delivered_of_tiling {start : Engine} {path : String} {n : Nat} {file : OpenFile}
    {old : Content} {fs : List Fragment} (h : Arrived start path n file old [] start) (hn : 0 < n)
    (htiling : Tiling n fs) (hpos : ∀ f ∈ fs, f.position < Disk.offsetLimit) :
    Delivered start path n file (old.lay fs) fs := by
  obtain ⟨hall, hresults⟩ := arrived_submitAll h htiling.within hpos
  rw [List.nil_append] at hall
  obtain ⟨r, hresting, hsize, hreceived, hsaved, hcompleted⟩ := hall.record
  obtain ⟨d, hopen, hopened, hsame⟩ := hall.disk
  have hsome : fs ≠ [] := by
    rintro rfl
    obtain ⟨f, hf, -⟩ := htiling.covered 0 hn
    cases hf
  obtain rfl := hsame hsome
  have htake : ∀ k, n ≤ totalLen (fs.take k) ↔ (fs.drop k).all Fragment.isEmpty = true := by
    intro k
    apply Tiling.le_totalLen_iff
    rw [List.take_append_drop]
    exact htiling
  constructor
  · rw [hresults]
    apply List.map_congr_left
    intro k _
    have hlast : decide (n ≤ totalLen (fs.take (k + 1))) =
        (fs.drop (k + 1)).all Fragment.isEmpty := by
      rw [Bool.eq_iff_iff, decide_eq_true_iff]
      exact htake (k + 1)
    rw [List.nil_append, hlast]
  · refine ⟨r, hresting.found, ?_, ?_, ?_⟩
    · rw [hreceived, htiling.totalLen_eq]
    · rw [hsaved, htiling.totalLen_eq]
    · rw [hcompleted, hsaved, htiling.totalLen_eq]
      exact decide_eq_true (Nat.le_refl n)
  · exact hopen
  · rw [Disk.contentOf?, hopened.there]
  · intro k
    obtain ⟨hfirst, -⟩ := arrived_submitAll h
      (fun f hf => htiling.within f (List.mem_of_mem_take hf))
      (fun f hf => hpos f (List.mem_of_mem_take hf))
    have hsent := (hfirst : Arrived start path n file old ([] ++ fs.take k) _).sent
    rw [hsent, List.nil_append]
    simp only [htake k]

theorem Course.writingCount_of_quiet (e : Engine) (hempty : e.registry = .empty) (moves : List Move)
    (hquiet : ((Course.new e).run moves).live = []) :
    ((Course.new e).run moves).engine.registry.writingCount = 0 := by
  have hslots := slots_run e hempty moves
  apply List.countP_eq_zero.mpr
  intro r hr
  have hserved := hslots.served r.path r (Registry.find?_eq_some_iff.mpr ⟨hr, rfl⟩)
  rw [servers_view, Course.serving, hquiet] at hserved
  intro hwriting
  rw [hwriting] at hserved
  cases hserved

theorem arrived_of_init {e start : Engine} {path clientPath : String} {n : Nat} {owner : Int}
    {t : Ticket} {d : Disk} {file : OpenFile} (hfree : e.registry.writingCount = 0)
    (hinit : e.init path n owner clientPath = .ok (start, t)) (hn : 0 < n)
    (hopen : start.storage.openForWrite start.disk path = (d, .ok file)) :
    Arrived start path n file ((start.disk.contentOf? file.loc).getD .empty) [] start := by
  obtain ⟨registry, notice, hreg, rfl⟩ := Engine.init_eq_ok hinit
  have hcount := Registry.total_register (fun r => r.writing.toNat) hreg
  rw [← Registry.writingCount_eq, ← Registry.writingCount_eq, hfree] at hcount
  have hlater := Engine.later_registered e registry notice t
  have hunreached : ¬ n ≤ 0 := Nat.not_le.mpr hn
  refine ⟨⟨Record.new e.registry.nextId path n owner clientPath, ⟨?_, rfl, rfl, ?_⟩, rfl, rfl, rfl, rfl⟩,
    ⟨d, hopen, opened_of_openForWrite hopen, fun hsome => absurd rfl hsome⟩, ?_⟩
  · rw [Engine.registry_announceIfEmpty]
    show registry.find? path = _
    rw [Registry.find?_register hreg, if_pos rfl]
  · rw [Engine.registry_announceIfEmpty, hlater.slots]
    show registry.writingCount < e.slots.ceiling
    rw [hcount]
    exact e.slots.ceiling_pos
  · show _ = _ ++ if n ≤ 0 then _ else _
    rw [if_neg hunreached, List.append_nil]

/-- The order in which fragments arrive makes no difference. Whatever happened before, and whatever the
destination held: if the fragments share no offset and cover a fresh upload, then in every order they
are all written, the upload is complete after the last one that has bytes and not before, and the file
holds the same content, which is the bytes of the fragments, each at its place, and behind them what
was there. -/
theorem complete_in_any_order (disk : Disk) (storage : Storage) (writers maxSize capacity : Nat)
    (moves : List Move) (path clientPath : String) (n : Nat) (owner : Int) (start : Engine)
    (t : Ticket) (d : Disk) (file : OpenFile) (fs : List Fragment) :
    let c := (Course.new (.new disk storage writers maxSize capacity)).run moves
    let old := (start.disk.contentOf? file.loc).getD .empty
    c.live = [] → c.engine.init path n owner clientPath = .ok (start, t) → 0 < n →
    start.storage.openForWrite start.disk path = (d, .ok file) → Tiling n fs →
    (∀ f ∈ fs, f.position < Disk.offsetLimit) →
    ∃ content : Content,
      (∀ f ∈ fs, ∀ k b, f.bytes[k]? = some b → content.byte (f.position + k) = b) ∧
      (∀ i, n ≤ i → content.byte i = old.byte i) ∧ content.size = max old.size n ∧
      ∀ gs, gs.Perm fs → Delivered start path n file content gs := by
  intro c old hquiet hinit hn hopen htiling hpos
  have hfree : c.engine.registry.writingCount = 0 :=
    Course.writingCount_of_quiet (.new disk storage writers maxSize capacity) rfl moves hquiet
  have harrived := arrived_of_init hfree hinit hn hopen
  refine ⟨old.lay fs, ?_, ?_, htiling.size_lay old, ?_⟩
  · intro f hf k b hb
    have hk : k < f.len := (Array.getElem?_eq_some_iff.mp hb).1
    have hcovers : f.covers (f.position + k) :=
      ⟨Nat.le_add_right _ _, Nat.add_lt_add_left hk _⟩
    rw [Content.byte_lay_of_covers htiling.apart hf hcovers, Nat.add_sub_cancel_left, hb]
    rfl
  · intro i hi
    refine Content.byte_lay_of_not_covers ?_ old
    intro f hf hcovers
    exact absurd (Nat.lt_of_lt_of_le hcovers.2 (htiling.within f hf)) (Nat.not_lt.mpr hi)
  · intro gs hperm
    rw [Content.lay_perm hperm.symm htiling.apart old]
    apply delivered_of_tiling harrived hn (htiling.perm hperm.symm)
    intro f hf
    exact hpos f (hperm.mem_iff.mp hf)

/-- A fresh upload of three bytes, on an empty disk. -/
def threeBytes : Engine × Ticket :=
  (((Engine.new .empty ⟨"up"⟩ 1 100 16).init "a" 3 0 "a").toOption).get (by decide)

theorem threeBytes_tiling : Tiling 3 [⟨1, #[2, 3]⟩, ⟨0, #[1]⟩] := by
  constructor
  · rw [List.pairwise_pair]
    rintro i ⟨⟨h, -⟩, -, h'⟩
    simp [Fragment.stop, Fragment.len] at h h'
    omega
  · simp [Fragment.stop, Fragment.len]
  · intro i hi
    rcases Nat.eq_zero_or_pos i with rfl | hpos
    · exact ⟨⟨0, #[1]⟩, by simp, by simp [Fragment.covers, Fragment.stop, Fragment.len]⟩
    · exact ⟨⟨1, #[2, 3]⟩, by simp, hpos, hi⟩

/-- Three bytes come in two fragments, the last bytes first or last. -/
theorem three_bytes_in_any_order :
    let file : OpenFile := ⟨["up", "a"], 0⟩
    let fs : List Fragment := [⟨1, #[2, 3]⟩, ⟨0, #[1]⟩]
    ∃ content : Content,
      (∀ f ∈ fs, ∀ k b, f.bytes[k]? = some b → content.byte (f.position + k) = b) ∧
      (∀ i, 3 ≤ i → content.byte i = Content.empty.byte i) ∧ content.size = max 0 3 ∧
      ∀ gs, gs.Perm fs → Delivered threeBytes.1 "a" 3 file content gs :=
  complete_in_any_order .empty ⟨"up"⟩ 1 100 16 [] "a" "a" 3 0 threeBytes.1 threeBytes.2
    (threeBytes.1.storage.openForWrite threeBytes.1.disk "a").1 ⟨["up", "a"], 0⟩
    [⟨1, #[2, 3]⟩, ⟨0, #[1]⟩] rfl rfl (by decide) rfl threeBytes_tiling (by decide)

end ResumableUpload
