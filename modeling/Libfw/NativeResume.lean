import Libfw.GuardedRuns
import Libfw.NativeDownload

/-!
# Resumed downloads of the native client

The sidecar says of which version, and how far, the destination is good.  It is
saved every few MiB or after a batch, and the destination is overwritten in place:
between the first write of a download and its first save the sidecar still speaks
of the version before.

* `vouched_downloads_resume_correctly`: in the histories in which a download resumes
  only where nothing but its own version has changed the destination since the
  sidecar was saved, and has nothing left to do only where the destination has the
  length of the file, every download that succeeds leaves exactly the remote bytes.
* `reverted_remote_mixes_versions`: otherwise a remote file that returns to an
  earlier version is completed with bytes of another.
-/

namespace Libfw

open PosixStore SteppedPrograms SoloPrograms GuardedRuns

/-- What each ETag stands for. -/
abbrev Versions := Text → List UInt8

/-- The version served under an ETag. -/
def Versions.at (versions : Versions) (etag : Text) : Remote := ⟨etag, versions etag⟩

/-- A download of the version that is served, up to where its choices end. -/
abbrev NativeRun := Text × List NativeChoice

namespace DestFiles

def run (cfg : NativeConfig) (versions : Versions) (s : DestFiles) (r : NativeRun) :
    Option (DestFiles × Option (Except ClientError Nat)) :=
  runBy (NativeOp.exec cfg (versions.at r.1)) (downloadFile cfg) s r.2

/-- What a download leaves, finished or interrupted. -/
def next (cfg : NativeConfig) (versions : Versions) (s : DestFiles) (r : NativeRun) :
    Option DestFiles :=
  (s.run cfg versions r).map Prod.fst

/-- What a reader finds in the destination: holes are zeros. -/
def bytes (s : DestFiles) : Option (List UInt8) := s.dest.map fun cells => cells.map (·.getD 0)

/-- Where a download of this version would start. -/
def startOf (versions : Versions) (s : DestFiles) (etag : Text) : Nat :=
  resumeStart false etag (versions etag).length s.sidecar s.len

end DestFiles

/-- In every history of downloads to one destination, which begins without a
sidecar, a download that succeeds leaves the bytes of the version it was told. -/
def ResumesCorrectly (ok : Versions → DestFiles → NativeRun → Prop) : Prop :=
  ∀ cfg versions (s₀ s t : DestFiles) (r : NativeRun) moved, s₀.sidecar = none →
    Reaches (DestFiles.next cfg versions) (ok versions) s₀ s → ok versions s r →
    s.run cfg versions r = some (t, some (.ok moved)) →
    t.bytes = some (versions r.1)

/-- A download resumes only where nothing but its own version has changed the
destination since the sidecar was saved; and it starts at the end of the file only
where the destination has just that length. -/
def Vouched (versions : Versions) (s : DestFiles) (r : NativeRun) : Prop :=
  (0 < s.startOf versions r.1 → s.touched = false) ∧
    (s.startOf versions r.1 = (versions r.1).length →
      s.dest.map List.length = some (versions r.1).length)

instance (versions : Versions) (s : DestFiles) (r : NativeRun) :
    Decidable (Vouched versions s r) := inferInstanceAs (Decidable (_ ∧ _))

/-! ## The invariant -/

namespace DestFiles

variable {versions : Versions} {s : DestFiles} {etag : Text} {cursor n : Nat}
  {piece : List UInt8}

/-- The sidecar is true, unless another version has been at work since. -/
def Honest (versions : Versions) (s : DestFiles) : Prop :=
  s.touched = false → ∀ r, s.sidecar = some r →
    HoldsPrefix (s.dest.getD []) (versions r.etag) r.offset

/-- A download of this version has come so far. -/
structure Progress (versions : Versions) (etag : Text) (cursor : Nat) (s : DestFiles) :
    Prop where
  honest : s.Honest versions
  opened : s.dest.isSome = true
  holds : HoldsPrefix (s.dest.getD []) (versions etag) cursor

theorem etag_of_not_foreign {r : ResumeState} (h : s.foreign etag = false)
    (hr : s.sidecar = some r) : r.etag = etag := by
  unfold foreign at h
  rw [hr] at h
  by_contra hne
  rw [Option.any_some, decide_eq_true hne] at h
  cases h

/-- A piece of the version, written in its place. -/
theorem Progress.put (h : Progress versions etag cursor s)
    (hpiece : piece <+: (versions etag).drop cursor) :
    Progress versions etag (cursor + piece.length) (s.put etag cursor piece) := by
  unfold DestFiles.put
  by_cases hne : piece = []
  · rw [if_pos hne, hne]
    exact h
  · rw [if_neg hne]
    constructor
    · intro htouched r hr
      obtain ⟨huntouched, hforeign⟩ := Bool.or_eq_false_iff.1 htouched
      have hsame := etag_of_not_foreign hforeign hr
      have hbefore := h.honest huntouched r hr
      rw [hsame] at hbefore ⊢
      exact hbefore.writeAt hpiece
    · rfl
    · exact h.holds.writeAt_end hpiece

/-- A write that fails half way. -/
theorem Progress.put_part (h : Progress versions etag cursor s)
    (hpiece : piece <+: (versions etag).drop cursor) (done : Nat) :
    (s.put etag cursor (piece.take done)).Honest versions :=
  (h.put ((List.take_prefix done piece).trans hpiece)).honest

theorem Progress.saved (h : Progress versions etag cursor s) :
    Progress versions etag cursor (s.saved etag cursor) := by
  refine ⟨?_, h.opened, h.holds⟩
  intro _ r hr
  cases hr
  exact h.holds

theorem Progress.torn (h : Progress versions etag cursor s) :
    Progress versions etag cursor { s with sidecar := none } := by
  refine ⟨?_, h.opened, h.holds⟩
  intro _ r hr
  cases hr

/-- Setting the length to that of the version. -/
theorem Progress.cut (h : Progress versions etag cursor s) :
    Progress versions etag cursor (s.cut etag (versions etag).length) ∧
      (s.cut etag (versions etag).length).len = (versions etag).length := by
  unfold DestFiles.cut
  by_cases hlen : s.len = (versions etag).length
  · rw [if_pos hlen]
    exact ⟨h, hlen⟩
  · rw [if_neg hlen]
    refine ⟨⟨?_, rfl, h.holds.resize h.holds.1⟩, resize_length _ _⟩
    intro htouched r hr
    obtain ⟨huntouched, hforeign⟩ := Bool.or_eq_false_iff.1 htouched
    have hsame := etag_of_not_foreign hforeign hr
    have hbefore := h.honest huntouched r hr
    rw [hsame] at hbefore ⊢
    exact hbefore.resize hbefore.1

/-- A destination that holds all of a version, and has its length. -/
theorem bytes_eq (h : HoldsPrefix (s.dest.getD []) (versions etag) (versions etag).length)
    (hlen : s.dest.map List.length = some (versions etag).length) :
    s.bytes = some (versions etag) := by
  unfold DestFiles.bytes
  cases hdest : s.dest with
  | none =>
      rw [hdest] at hlen
      cases hlen
  | some cells =>
      rw [hdest] at hlen h
      have hcells : cells = (versions etag).map some := h.eq_of_length (Option.some.inj hlen)
      rw [hcells, Option.map_some, List.map_map]
      exact congrArg some (List.map_id _)

end DestFiles

/-! ## The code keeps the sidecar honest -/

section Verified

variable {cfg : NativeConfig} {versions : Versions} {etag : Text} {α β : Type} {s : DestFiles}

/-- An error leaves the sidecar honest, a success what it promises. -/
def Ends (versions : Versions) (P : α → DestFiles → Prop) :
    Except ClientError α → DestFiles → Prop
  | .ok a, t => P a t
  | .error _, t => t.Honest versions

/-- The sidecar is honest wherever the code may stop while this version is served. -/
def Verified (cfg : NativeConfig) (versions : Versions) (etag : Text)
    (p : NativeProg (Except ClientError α)) (P : α → DestFiles → Prop) (s : DestFiles) : Prop :=
  wp (NativeOp.exec cfg (versions.at etag)) (DestFiles.Honest versions) p (Ends versions P) s

theorem verified_okThen {p : NativeProg (Except ClientError α)}
    {f : α → NativeProg (Except ClientError β)} {P : α → DestFiles → Prop}
    {P' : β → DestFiles → Prop} (hp : Verified cfg versions etag p P s)
    (hf : ∀ a t, P a t → Verified cfg versions etag (f a) P' t) :
    Verified cfg versions etag (okThen p f) P' s := by
  apply wp_then hp
  intro r t hr
  cases r with
  | ok a => exact hf a t hr
  | error e => exact hr

/-- Writing the next piece. -/
theorem verified_writeAll {cursor : Nat} {piece : List UInt8}
    (h : s.Progress versions etag cursor) (hpiece : piece <+: (versions etag).drop cursor) :
    Verified cfg versions etag (.writeAll cursor piece)
      (fun _ t => t.Progress versions etag (cursor + piece.length)) s := by
  refine ⟨h.honest, ?_⟩
  intro c t a hexec
  cases c with
  | go =>
      cases hexec
      exact h.put hpiece
  | fail e done =>
      cases hexec
      exact h.put_part hpiece done
  | torn | tuned | respond | complete => cases hexec

/-- Saving the offset of what has been written. -/
theorem verified_saveResume {cursor : Nat} {p : NativeProg (Except ClientError α)}
    {P : α → DestFiles → Prop} (h : s.Progress versions etag cursor)
    (hp : ∀ t, t.Progress versions etag cursor → t.dest = s.dest →
      Verified cfg versions etag p P t) :
    Verified cfg versions etag (.call (.saveResume etag cursor) fun _ => p) P s := by
  refine ⟨h.honest, ?_⟩
  intro c t a hexec
  cases c with
  | go =>
      cases hexec
      exact hp _ h.saved rfl
  | torn =>
      cases hexec
      exact hp _ h.torn rfl
  | fail e done =>
      cases hexec
      exact hp _ h rfl
  | tuned | respond | complete => cases hexec

/-! ### Ranges -/

theorem slice_isPrefix (remote : Remote) (start stop : Nat) :
    remote.slice start stop <+: remote.content.drop start := by
  unfold Remote.slice
  rw [List.drop_take]
  exact List.take_prefix _ _

/-- A range that is answered was the answer of one attempt, and has its length. -/
theorem getRangeWithRetry_ok {start stop attempt : Nat}
    {attempts : List (Except ClientError (List UInt8))} {data : List UInt8}
    (h : getRangeWithRetry cfg start stop attempt attempts = some (.ok data)) :
    .ok data ∈ attempts ∧ data.length = stop - start := by
  induction attempts generalizing attempt with
  | nil => cases h
  | cons first rest ih =>
      cases first with
      | ok got =>
          unfold getRangeWithRetry at h
          split at h
          · next hlen =>
              cases h
              exact ⟨List.mem_cons_self, hlen⟩
          · cases h
      | error e =>
          unfold getRangeWithRetry at h
          split at h
          · cases h
          · split at h
            · cases h
            · obtain ⟨hmem, hlen⟩ := ih h
              exact ⟨List.mem_cons_of_mem _ hmem, hlen⟩

/-- A range that is answered is one in flight, with all its bytes. -/
theorem completeRange_ok {remote : Remote} {inFlight : List (Nat × Nat)} {i j start : Nat}
    {attempts : List (Except ClientError (List UInt8))} {data : List UInt8}
    (h : completeRange cfg remote inFlight i attempts = some (j, .ok (start, data))) :
    data <+: remote.content.drop start ∧
      ∃ stop, inFlight[j]? = some (start, stop) ∧ data.length = stop - start := by
  unfold completeRange at h
  split at h
  · cases h
  · next first stop hrange =>
      split at h
      · next hhonest =>
          obtain ⟨result, hresult, hended⟩ := Option.map_eq_some_iff.1 h
          cases result with
          | error e => cases hended
          | ok got =>
              cases hended
              obtain ⟨hmem, hlen⟩ := getRangeWithRetry_ok hresult
              exact ⟨(hhonest _ hmem).trans (slice_isPrefix remote start stop), stop, hrange, hlen⟩
      · cases h

/-! ### Batches -/

/-- The chunks that wait are pieces of the version, and the counters agree. -/
structure BatchState.Right (content : List UInt8) (start : Nat) (b : BatchState) : Prop where
  pieces : ∀ c ∈ b.pending, c.2 <+: content.drop c.1
  cursor : b.cursor = start + b.moved

theorem BatchState.Right.advance {content : List UInt8} {start : Nat} {b : BatchState}
    (h : b.Right content start) (data : List UInt8) : (b.advance data).Right content start := by
  constructor
  · intro c hc
    exact h.pieces c (List.mem_of_mem_filter hc)
  · have hcursor := h.cursor
    unfold BatchState.advance
    dsimp only
    omega

theorem verified_flushPending {left start : Nat} {b : BatchState}
    (h : s.Progress versions etag b.cursor) (hright : b.Right (versions etag) start) :
    Verified cfg versions etag (flushPending etag left b)
      (fun b t => t.Progress versions etag b.cursor ∧ b.Right (versions etag) start) s := by
  induction left generalizing b s with
  | zero => exact ⟨h, hright⟩
  | succ left ih =>
      unfold flushPending
      split
      · exact ⟨h, hright⟩
      · next data hdata =>
          have hpiece : data <+: (versions etag).drop b.cursor := by
            obtain ⟨before, after, hpending, -⟩ := List.lookup_eq_some_iff.1 hdata
            exact hright.pieces (b.cursor, data) (by
              rw [hpending]
              exact List.mem_append_right _ List.mem_cons_self)
          apply verified_okThen (verified_writeAll h hpiece)
          intro _ t ht
          dsimp only
          split
          · apply verified_saveResume ht
            intro u hu _
            exact ih (b := { b.advance data with lastSaved := (b.advance data).cursor }) hu
              ⟨(hright.advance data).pieces, (hright.advance data).cursor⟩
          · exact ih ht (hright.advance data)

theorem verified_batchLoop {left start window : Nat} {remaining : List (Nat × Nat)}
    {b : BatchState} (h : s.Progress versions etag b.cursor)
    (hright : b.Right (versions etag) start) :
    Verified cfg versions etag (batchLoop etag window left remaining b)
      (fun got t => t.Progress versions etag (start + got)) s := by
  induction left generalizing b s remaining with
  | zero =>
      unfold batchLoop
      rw [hright.cursor] at h
      exact h
  | succ left ih =>
      unfold batchLoop
      refine ⟨h.honest, ?_⟩
      intro c t ended hexec
      cases c with
      | complete i attempts =>
          obtain ⟨result, hresult, hended⟩ := Option.map_eq_some_iff.1 hexec
          cases hended
          obtain ⟨j, outcome⟩ := ended
          cases outcome with
          | error e => exact h.honest
          | ok chunk =>
              obtain ⟨first, data⟩ := chunk
              obtain ⟨hpiece, -⟩ := completeRange_ok hresult
              have hinsert : (b.insert first data).Right (versions etag) start := by
                constructor
                · intro c hc
                  rcases List.mem_cons.1 hc with rfl | hc
                  · exact hpiece
                  · exact hright.pieces c (List.mem_of_mem_filter hc)
                · exact hright.cursor
              have hrest : Verified cfg versions etag
                  (okThen (flushPending etag (b.insert first data).pending.length
                    (b.insert first data)) fun b =>
                      batchLoop etag window left (remaining.eraseIdx j) b)
                  (fun got t => t.Progress versions etag (start + got)) s := by
                apply verified_okThen (verified_flushPending (b := b.insert first data) h hinsert)
                intro b' u hu
                exact ih hu.1 hu.2
              exact hrest
      | go | fail | torn | tuned | respond => cases hexec

theorem verified_downloadBatch {start stop window chunkSize : Nat}
    (h : s.Progress versions etag start) :
    Verified cfg versions etag (downloadBatch etag start stop window chunkSize)
      (fun got t => t.Progress versions etag (start + got)) s := by
  apply verified_batchLoop (b := ⟨[], start, 0, start⟩) h
  constructor
  · intro c hc
    cases hc
  · rfl

theorem verified_downloadBatches {left size cursor moved start : Nat}
    (h : s.Progress versions etag cursor) (hcursor : cursor = start + moved) :
    Verified cfg versions etag (downloadBatches etag size left cursor moved)
      (fun got t => t.Progress versions etag (start + got)) s := by
  induction left generalizing cursor moved s with
  | zero =>
      subst hcursor
      exact h
  | succ left ih =>
      unfold downloadBatches
      split
      · refine ⟨h.honest, ?_⟩
        intro c t a hexec
        cases c with
        | tuned window chunkSize =>
            cases hexec
            apply verified_okThen (verified_downloadBatch h)
            intro got u hu
            by_cases hgot : got = 0
            · rw [if_pos hgot]
              rw [hgot, hcursor] at hu
              exact hu
            · rw [if_neg hgot]
              apply verified_saveResume hu
              intro v hv _
              exact ih hv (by omega)
        | go | fail | torn | respond | complete => cases hexec
      · subst hcursor
        exact h

/-! ### One connection -/

theorem verified_streamPieces {body : RangeBody} {start cursor moved lastSaved : Nat}
    {pieces : List (Except ClientError (List UInt8))} (h : s.Progress versions etag cursor)
    (hcursor : cursor = start + moved)
    (hpieces : RangeBody.delivered.go body pieces <+: (versions etag).drop cursor) :
    Verified cfg versions etag (streamPieces etag pieces cursor moved lastSaved)
      (fun ended t => t.Progress versions etag ended.1 ∧ ended.1 = start + ended.2 ∧
        ∀ out, body.finish = .ok out → out <+: (versions etag).drop ended.1) s := by
  induction pieces generalizing s cursor moved lastSaved with
  | nil =>
      refine ⟨h, hcursor, ?_⟩
      intro out hout
      unfold RangeBody.delivered.go at hpieces
      rw [hout] at hpieces
      exact hpieces
  | cons first rest ih =>
      cases first with
      | error e => exact h.honest
      | ok out =>
          unfold RangeBody.delivered.go at hpieces
          have hout : out <+: (versions etag).drop cursor :=
            (List.prefix_append _ _).trans hpieces
          have hrest : RangeBody.delivered.go body rest <+:
              (versions etag).drop (cursor + out.length) := by
            obtain ⟨after, hafter⟩ := hpieces
            refine ⟨after, ?_⟩
            rw [← List.drop_drop, ← hafter, List.append_assoc, List.drop_left]
          unfold streamPieces
          by_cases hempty : out = []
          · rw [if_pos hempty]
            rw [hempty] at hrest
            exact ih h hcursor hrest
          · rw [if_neg hempty]
            apply verified_okThen (verified_writeAll h hout)
            intro _ t ht
            dsimp only
            split
            · apply verified_saveResume ht
              intro u hu _
              exact ih hu (by omega) hrest
            · exact ih ht (by omega) hrest

theorem verified_downloadSequential {start size : Nat} (h : s.Progress versions etag start) :
    Verified cfg versions etag (downloadSequential etag start size)
      (fun got t => t.Progress versions etag (start + got)) s := by
  have hrequest : Verified cfg versions etag (.rangeRequest start size)
      (fun body t => t = s ∧ body.delivered <+: (versions etag).drop start) s := by
    refine ⟨h.honest, ?_⟩
    intro c t a hexec
    cases c with
    | respond body =>
        unfold NativeOp.exec at hexec
        dsimp only at hexec
        split at hexec
        · next hdelivered =>
            cases hexec
            exact ⟨rfl, hdelivered.trans (slice_isPrefix _ _ _)⟩
        · cases hexec
    | fail e done =>
        cases hexec
        exact h.honest
    | go | torn | tuned | complete => cases hexec
  apply verified_okThen hrequest
  intro body t ht
  obtain ⟨rfl, hdelivered⟩ := ht
  apply verified_okThen (verified_streamPieces h rfl hdelivered)
  intro ended u hu
  obtain ⟨hprogress, hcursor, hfinish⟩ := hu
  cases hout : body.finish with
  | error e => exact hprogress.honest
  | ok out =>
      dsimp only
      by_cases hempty : out = []
      · rw [if_pos hempty]
        rw [hcursor] at hprogress
        exact hprogress
      · rw [if_neg hempty]
        apply verified_okThen (verified_writeAll hprogress (hfinish out hout))
        intro _ v hv
        have hsame : ended.1 + out.length = start + (ended.2 + out.length) := by omega
        rw [hsame] at hv
        exact hv

/-! ### The whole download -/

/-- A transfer that ends well leaves the whole version. -/
theorem verified_transferFrom {start : Nat} (hhonest : s.Honest versions)
    (hstart : HoldsPrefix (s.dest.getD []) (versions etag) start) :
    Verified cfg versions etag (transferFrom cfg etag (versions etag).length start)
      (fun _ t => t.Honest versions ∧ t.bytes = some (versions etag)) s := by
  have hopen : Verified cfg versions etag .openDest
      (fun _ t => t.Progress versions etag start) s := by
    refine ⟨hhonest, ?_⟩
    intro c t a hexec
    cases c with
    | go =>
        cases hexec
        exact ⟨hhonest, rfl, hstart⟩
    | fail e done =>
        cases hexec
        exact hhonest
    | torn | tuned | respond | complete => cases hexec
  apply verified_okThen hopen
  intro _ t ht
  have hfetch : Verified cfg versions etag
      (if shouldChunked (versions etag).length start then
        downloadBatches etag (versions etag).length ((versions etag).length - start) start 0
      else downloadSequential etag start (versions etag).length)
      (fun got u => u.Progress versions etag (start + got)) t := by
    split
    · exact verified_downloadBatches ht rfl
    · exact verified_downloadSequential ht
  apply verified_okThen hfetch
  intro moved u hu
  have hcut : Verified cfg versions etag (.setLen (versions etag).length)
      (fun _ v => v.Progress versions etag (start + moved) ∧
        v.len = (versions etag).length) u := by
    refine ⟨hu.honest, ?_⟩
    intro c v a hexec
    cases c with
    | go =>
        cases hexec
        exact hu.cut
    | fail e done =>
        cases hexec
        exact hu.honest
    | torn | tuned | respond | complete => cases hexec
  apply verified_okThen hcut
  intro _ v hv
  obtain ⟨hprogress, hlen⟩ := hv
  have hflush : Verified cfg versions etag .flush (fun _ w => w = v) v := by
    refine ⟨hprogress.honest, ?_⟩
    intro c w a hexec
    cases c with
    | go =>
        cases hexec
        rfl
    | fail e done =>
        cases hexec
        exact hprogress.honest
    | torn | tuned | respond | complete => cases hexec
  apply verified_okThen hflush
  intro _ w hw
  subst hw
  by_cases hall : start + moved ≠ (versions etag).length
  · rw [if_pos hall]
    exact hprogress.honest
  · rw [if_neg hall]
    have hend : start + moved = (versions etag).length := not_not.1 hall
    rw [hend] at hprogress
    apply verified_saveResume hprogress
    intro x hx hdest
    refine ⟨hx.honest, DestFiles.bytes_eq hx.holds ?_⟩
    obtain ⟨cells, hcells⟩ := Option.isSome_iff_exists.1 hprogress.opened
    unfold DestFiles.len at hlen
    rw [hcells] at hlen
    rw [hdest, hcells]
    exact congrArg some hlen

/-- Where a pass starts is good, and where it starts at the end all is done. -/
def DestFiles.StartsWell (versions : Versions) (etag : Text) (forceRestart : Bool) (s : DestFiles) :
    Prop :=
  HoldsPrefix (s.dest.getD []) (versions etag)
      (resumeStart forceRestart etag (versions etag).length s.sidecar s.len) ∧
    (resumeStart forceRestart etag (versions etag).length s.sidecar s.len =
      (versions etag).length → s.bytes = some (versions etag))

theorem verified_fetchMeta (hhonest : s.Honest versions) :
    Verified cfg versions etag .fetchMeta
      (fun found t => t = s ∧ found = (etag, (versions etag).length)) s := by
  refine ⟨hhonest, ?_⟩
  intro c t a hexec
  cases c with
  | go =>
      cases hexec
      exact ⟨rfl, rfl⟩
  | fail e done =>
      cases hexec
      exact hhonest
  | torn | tuned | respond | complete => cases hexec

theorem verified_downloadOnce {forceRestart : Bool} (hhonest : s.Honest versions)
    (hstart : DestFiles.StartsWell versions etag forceRestart s) :
    Verified cfg versions etag (downloadOnce cfg forceRestart)
      (fun _ t => t.Honest versions ∧ t.bytes = some (versions etag)) s := by
  apply verified_okThen (verified_fetchMeta hhonest)
  intro found t ht
  obtain ⟨rfl, rfl⟩ := ht
  refine ⟨hhonest, ?_⟩
  intro c u saved hexec
  cases c with
  | fail | torn | tuned | respond | complete => cases hexec
  | go =>
      cases hexec
      refine ⟨hhonest, ?_⟩
      intro c v localLen hexec
      cases c with
      | fail | torn | tuned | respond | complete => cases hexec
      | go =>
          cases hexec
          dsimp only
          by_cases hdone : resumeStart forceRestart etag (versions etag).length t.sidecar t.len =
              (versions etag).length
          · rw [if_pos hdone]
            exact ⟨hhonest, hstart.2 hdone⟩
          · rw [if_neg hdone]
            exact verified_transferFrom hhonest hstart.1

/-- Of an empty version nothing is fetched, and nothing changes. -/
theorem wp_downloadOnce_empty {forceRestart : Bool} (hempty : versions etag = [])
    (hhonest : s.Honest versions) :
    wp (NativeOp.exec cfg (versions.at etag)) (DestFiles.Honest versions)
      (downloadOnce cfg forceRestart) (fun _ t => t = s) s := by
  have hsize : (versions etag).length = 0 := by rw [hempty]; rfl
  refine ⟨hhonest, ?_⟩
  intro c t a hexec
  cases c with
  | torn | tuned | respond | complete => cases hexec
  | fail e done =>
      cases hexec
      rfl
  | go =>
      cases hexec
      refine ⟨hhonest, ?_⟩
      intro c u saved hexec
      cases c with
      | fail | torn | tuned | respond | complete => cases hexec
      | go =>
          cases hexec
          refine ⟨hhonest, ?_⟩
          intro c v localLen hexec
          cases c with
          | fail | torn | tuned | respond | complete => cases hexec
          | go =>
              cases hexec
              have hstart : resumeStart forceRestart etag (versions etag).length s.sidecar s.len =
                  (versions etag).length := by
                unfold resumeStart
                split
                · split
                  · omega
                  · exact hsize.symm
                · exact hsize.symm
              have hdone : wp (NativeOp.exec cfg (versions.at etag)) (DestFiles.Honest versions)
                  (if resumeStart forceRestart etag (versions etag).length s.sidecar s.len =
                      (versions etag).length then .done (.ok 0)
                    else transferFrom cfg etag (versions etag).length
                      (resumeStart forceRestart etag (versions etag).length s.sidecar s.len))
                  (fun _ t => t = s) s := by
                rw [if_pos hstart]
                rfl
              exact hdone

/-- **A download that starts where its version vouches for the destination.** -/
theorem verified_downloadFile (cfg : NativeConfig) (hhonest : s.Honest versions)
    (hstart : DestFiles.StartsWell versions etag false s) :
    Verified cfg versions etag (downloadFile cfg)
      (fun _ t => t.Honest versions ∧ t.bytes = some (versions etag)) s := by
  have hprepare : Verified cfg versions etag .prepareTransfer (fun _ t => t = s) s := by
    refine ⟨hhonest, ?_⟩
    intro c t a hexec
    cases c with
    | go =>
        cases hexec
        rfl
    | fail e done =>
        cases hexec
        exact hhonest
    | torn | tuned | respond | complete => cases hexec
  apply verified_okThen hprepare
  intro _ t ht
  subst ht
  by_cases hempty : versions etag = []
  · have hbytes : t.bytes = some (versions etag) := by
      apply hstart.2
      unfold resumeStart
      rw [hempty]
      split
      · split
        · next hle => exact Nat.le_zero.1 hle.1
        · rfl
      · rfl
    apply wp_then (wp_downloadOnce_empty hempty hhonest)
    intro r u hu
    subst hu
    cases r with
    | ok moved => exact ⟨hhonest, hbytes⟩
    | error e =>
        dsimp only
        split
        · apply wp_mono (wp_downloadOnce_empty hempty hhonest)
          intro r v hv
          subst hv
          cases r with
          | ok moved => exact ⟨hhonest, hbytes⟩
          | error e => exact hhonest
        · exact hhonest
  · apply wp_then (verified_downloadOnce hhonest hstart)
    intro r u hu
    cases r with
    | ok moved => exact hu
    | error e =>
        dsimp only
        split
        · apply verified_downloadOnce hu
          have hzero : resumeStart true etag (versions etag).length u.sidecar u.len = 0 := by
            unfold resumeStart
            cases u.sidecar with
            | none => rfl
            | some r => rfl
          unfold DestFiles.StartsWell
          rw [hzero]
          refine ⟨HoldsPrefix.zero, ?_⟩
          intro hnone
          exact absurd (List.eq_nil_of_length_eq_zero hnone.symm) hempty
        · exact hu

end Verified

/-! ## Histories -/

namespace DestFiles

variable {cfg : NativeConfig} {versions : Versions} {s t : DestFiles} {r : NativeRun}

/-- A download that is vouched for starts well. -/
theorem startsWell_of_vouched (hhonest : s.Honest versions) (hok : Vouched versions s r) :
    s.StartsWell versions r.1 false := by
  have hholds : HoldsPrefix (s.dest.getD []) (versions r.1) (s.startOf versions r.1) := by
    by_cases hzero : s.startOf versions r.1 = 0
    · rw [hzero]
      exact HoldsPrefix.zero
    · have huntouched := hok.1 (Nat.pos_of_ne_zero hzero)
      unfold startOf resumeStart at hzero ⊢
      cases hsidecar : s.sidecar.filter fun saved => !false && saved.etag = r.1 with
      | none =>
          rw [hsidecar] at hzero
          exact absurd rfl hzero
      | some saved =>
          rw [hsidecar] at hzero
          obtain ⟨hsaved, hetag⟩ := Option.filter_eq_some_iff.1 hsidecar
          have hsame : saved.etag = r.1 := of_decide_eq_true hetag
          dsimp only at hzero ⊢
          split
          · have hprefix := hhonest huntouched saved hsaved
            rw [hsame] at hprefix
            exact hprefix
          · exact HoldsPrefix.zero
  constructor
  · exact hholds
  · intro hdone
    apply bytes_eq
    · have hend : s.startOf versions r.1 = (versions r.1).length := hdone
      rw [hend] at hholds
      exact hholds
    · exact hok.2 hdone

/-- **Step lemma.** -/
theorem honest_next (hhonest : s.Honest versions) (hok : Vouched versions s r)
    (hnext : next cfg versions s r = some t) : t.Honest versions := by
  obtain ⟨⟨u, result⟩, hrun, rfl⟩ := Option.map_eq_some_iff.1 hnext
  have hends := runBy_of_wp
    (verified_downloadFile cfg hhonest (startsWell_of_vouched hhonest hok)) hrun
  cases result with
  | none => exact hends.2 rfl
  | some outcome =>
      have hend := hends.1 outcome rfl
      cases outcome with
      | ok moved => exact hend.1
      | error e => exact hend

end DestFiles

/-- **Downloads that are vouched for resume correctly.** -/
theorem vouched_downloads_resume_correctly (cfg : NativeConfig) (versions : Versions)
    (s₀ s t : DestFiles) (r : NativeRun) (moved : Nat) (hnone : s₀.sidecar = none)
    (hrun : Reaches (DestFiles.next cfg versions) (Vouched versions) s₀ s)
    (hok : Vouched versions s r) (hdone : s.run cfg versions r = some (t, some (.ok moved))) :
    t.bytes = some (versions r.1) := by
  have hhonest : s.Honest versions := by
    apply hrun.invariant
    · intro u r v hu hok hnext
      exact DestFiles.honest_next hu hok hnext
    · intro _ saved hsaved
      rw [hnone] at hsaved
      cases hsaved
  have hends := runBy_of_wp (verified_downloadFile cfg hhonest
    (DestFiles.startsWell_of_vouched hhonest hok)) hdone
  exact (hends.1 _ rfl).2

/-! ### A history that is vouched for -/

/-- Two versions of a remote file. -/
def sampleVersions : Versions := fun etag =>
  if etag = "a".toList then [1, 2] else if etag = "b".toList then [3, 4, 5] else []

def sampleConfig : NativeConfig := ⟨"file.bin".toList, 3⟩

/-- Nothing has been downloaded yet. -/
def emptyDest : DestFiles := ⟨none, none, false⟩

/-- A small file that arrives in one piece. -/
def arrives (data : List UInt8) : List NativeChoice :=
  [.go, .go, .go, .go, .go, .respond ⟨[.ok data], .ok []⟩, .go]

/-- A download of this version that goes well. -/
def wholeRun (etag : Text) : NativeRun := (etag, arrives (sampleVersions etag) ++ [.go, .go, .go])

/-- A download that stops after the first byte, and one that goes well: a third one
finds all of the file in place. -/
theorem vouched_history_resumes_correctly :
    ∃ s t, Reaches (DestFiles.next sampleConfig sampleVersions) (Vouched sampleVersions)
        emptyDest s ∧
      s.startOf sampleVersions "a".toList = 2 ∧
      s.run sampleConfig sampleVersions ("a".toList, [.go, .go, .go, .go]) =
        some (t, some (.ok 0)) ∧
      t.bytes = some (sampleVersions "a".toList) := by
  have hrun : ((runIf (DestFiles.next sampleConfig sampleVersions)
      (fun s r => Vouched sampleVersions s r) emptyDest
      [("a".toList, arrives [1]), wholeRun "a".toList]).any fun s =>
        s.startOf sampleVersions "a".toList = 2 ∧
          Vouched sampleVersions s ("a".toList, [.go, .go, .go, .go]) ∧
          (s.run sampleConfig sampleVersions ("a".toList, [.go, .go, .go, .go])).any
            fun ended => ended.2 = some (.ok 0)) = true := by
    decide +kernel
  obtain ⟨s, hs, hend⟩ := (Option.any_eq_true _ _).1 hrun
  obtain ⟨hstart, hvouched, hdone⟩ := of_decide_eq_true hend
  obtain ⟨⟨t, result⟩, ht, hresult⟩ := (Option.any_eq_true _ _).1 hdone
  have hok : result = some (.ok 0) := of_decide_eq_true hresult
  subst hok
  have hreach : Reaches (DestFiles.next sampleConfig sampleVersions) (Vouched sampleVersions)
      emptyDest s := reaches_of_runIf (fun _ _ h => of_decide_eq_true h) hs
  exact ⟨s, t, hreach, hstart, ht, vouched_downloads_resume_correctly sampleConfig
    sampleVersions emptyDest s t _ 0 rfl hreach hvouched ht⟩

/-! ### A remote file that comes back -/

/-- **A second version is downloaded up to its first byte; when the first version is
back, the destination passes for complete.** -/
theorem reverted_remote_mixes_versions : ¬ ResumesCorrectly fun _ _ _ => True := by
  intro hall
  have hrun : ((runIf (DestFiles.next sampleConfig sampleVersions) (fun _ _ => true) emptyDest
      [wholeRun "a".toList, ("b".toList, arrives [3])]).any fun s =>
        (s.run sampleConfig sampleVersions ("a".toList, [.go, .go, .go, .go])).any fun ended =>
          ended.2 = some (.ok 0) ∧ ended.1.bytes = some [3, 2]) = true := by
    decide +kernel
  obtain ⟨s, hs, hend⟩ := (Option.any_eq_true _ _).1 hrun
  obtain ⟨⟨t, result⟩, ht, hresult⟩ := (Option.any_eq_true _ _).1 hend
  obtain ⟨hok, hmixed⟩ := of_decide_eq_true hresult
  have hreach : Reaches (DestFiles.next sampleConfig sampleVersions) (fun _ _ => True)
      emptyDest s := reaches_of_runIf (fun _ _ _ => trivial) hs
  have hok' : result = some (.ok 0) := hok
  subst hok'
  have hbytes := hall sampleConfig sampleVersions emptyDest s t _ 0 rfl hreach trivial ht
  rw [show t.bytes = some [3, 2] from hmixed] at hbytes
  exact absurd hbytes (by decide)

end Libfw
