import Libfw.SdkDownload

/-!
# Whether the resume state is honest

The record names a version, the destination file holds bytes; a resumed download keeps
the first bytes of the file and fetches the rest of the version named.  The record is
stored before the bytes are published, and a checkpoint compares lengths only, so a
download that starts over for another version leaves a record of one version beside
bytes of the other.

* `KeepsVersion` — the steps that do not do so, judged on the state before them.
* `inv_next` — what these steps preserve.
* `kept_versions_stay_honest` — in their runs the resume state is honest throughout.
* `changed_version_poisons_resume` — a file that changes between two downloads, and a
  page killed before the last chunk is published.
-/

namespace Libfw

open GuardedRuns

/-! ## Writing at a position -/

section Overwrite

variable {bytes data whole : List UInt8} {pos : Nat}

theorem overwrite_of_le (hpos : pos ≤ bytes.length) :
    overwrite bytes pos data = bytes.take pos ++ data ++ bytes.drop (pos + data.length) := by
  unfold overwrite
  rw [Nat.sub_eq_zero_of_le hpos, List.replicate_zero, List.append_nil]

theorem overwrite_length (hpos : pos ≤ bytes.length) :
    (overwrite bytes pos data).length = max bytes.length (pos + data.length) := by
  rw [overwrite_of_le hpos]
  simp only [List.length_append, List.length_take, List.length_drop]
  omega

/-- Bytes of `whole`, written in their place over a prefix of it, leave a prefix. -/
theorem overwrite_isPrefix (hbytes : bytes <+: whole) (hpos : pos ≤ bytes.length)
    (hdata : data <+: whole.drop pos) : overwrite bytes pos data <+: whole := by
  rw [overwrite_of_le hpos]
  obtain ⟨rest, rfl⟩ := hbytes
  rw [List.drop_append_of_le_length hpos] at hdata
  by_cases hend : bytes.length ≤ pos + data.length
  · rw [List.drop_eq_nil_of_le hend, List.append_nil]
    have hsplit : bytes ++ rest = bytes.take pos ++ (bytes.drop pos ++ rest) := by
      rw [← List.append_assoc, List.take_append_drop]
    rw [hsplit]
    exact (List.prefix_append_right_inj _).2 hdata
  · have hinside : data <+: bytes.drop pos := by
      apply List.prefix_of_prefix_length_le hdata (List.prefix_append _ _)
      rw [List.length_drop]
      omega
    obtain ⟨later, hlater⟩ := hinside
    have hrest : bytes.drop (pos + data.length) = later := by
      rw [← List.drop_drop, ← hlater, List.drop_left]
    rw [hrest, List.append_assoc, hlater, List.take_append_drop]
    exact List.prefix_append _ _

end Overwrite

/-! ## Honest states -/

namespace SdkState

variable (remote : Text → List UInt8)

/-- The first bytes of the file, as many as the record counts, are those of the version
the record names. -/
def Honest (s : SdkState) : Prop :=
  ∀ etag offset, s.record = some (etag, offset) → etag ≠ [] →
    s.disk.take (min offset s.disk.length) =
      (remote etag).take (min offset s.disk.length)

/-- What a resume keeps is the beginning of the version it goes on with. -/
def ResumesOneVersion (s : SdkState) : Prop :=
  ∀ etag offset, s.loadResumeState = some (etag, offset) → etag ≠ [] →
    s.disk.take offset = (remote etag).take offset

/-- Nothing is open and nothing recorded; the destination may hold a part of a version,
or bytes of any origin. -/
structure Fresh (s : SdkState) : Prop where
  record : s.record = none
  writable : s.writable = none
  handled : s.handled = false
  engine : s.engine = none
  disk : ∀ etag, s.diskEtag = some etag → s.disk <+: remote etag

variable (s : SdkState)

/-- The stream a step publishes. -/
def published : SdkEvent → Option Writable
  | .checkpoint reopening =>
      if reopening = .closeFails then none
      else
        (s.engine.bind fun e => e.due).bind fun offset =>
          s.writable.filter fun _ => s.checkpoints offset
  | .complete true => s.writable
  | .settle true => s.writable
  | _ => none

/-- The version of the engine's pass, and how far it is. -/
def pass : Option Pass := s.engine.bind fun e => e.pass

/-- The steps that keep record, file and stream to one version: a chunk goes on a
stream of its own version, an offset is saved only over an empty file or one last
published from the same version, and a stream is published only beside a record that
names no other version. -/
def KeepsVersion (a : SdkEvent) : Prop :=
  (∀ len opening p w, a = .chunk len opening → s.pass = some p →
    s.keptWritable p.contiguous = some w → w.etag = p.etag) ∧
  (∀ p, a = .save → s.pass = some p → s.disk = [] ∨ s.diskEtag = some p.etag) ∧
  ∀ w etag offset, s.published a = some w → s.record = some (etag, offset) →
    etag = [] ∨ etag = w.etag

/-! ## The invariant -/

/-- The pass has delivered something: its stream is where it should be, or it has been
published and is to be opened again. -/
def Continues (p : Pass) : Prop :=
  (∃ w, s.writable = some w ∧ w.etag = p.etag ∧ w.lastOffset < p.contiguous ∧
    w.pos = p.contiguous) ∨
  s.writable = none ∧ s.diskEtag = some p.etag

structure EngineInv (e : EngineRun) : Prop where
  /-- A resumed download goes on with the version of record and file. -/
  resume : 0 < e.offset → e.etag ≠ [] ∧ s.disk ≠ [] ∧ s.diskEtag = some e.etag ∧
    ∃ offset, s.record = some (e.etag, offset)
  /-- A stream is not behind what another pass over its version would start with. -/
  opened : ∀ w, s.writable = some w →
    passStart e.etag w.etag e.offset (remote w.etag).length ≤ w.lastOffset
  start : ∀ p, e.pass = some p →
    p.start = passStart e.etag p.etag e.offset (remote p.etag).length ∧
      p.start ≤ p.contiguous
  continues : ∀ p, e.pass = some p → p.start < p.contiguous → s.Continues p
  due : ∀ offset, e.due = some offset →
    ∃ p, e.pass = some p ∧ p.contiguous = offset ∧ s.record = some (p.etag, offset)

structure Inv : Prop where
  disk : ∀ etag, s.diskEtag = some etag → s.disk <+: remote etag
  record : ∀ etag offset, s.record = some (etag, offset) → etag ≠ [] →
    s.disk = [] ∨ s.diskEtag = some etag
  writable : ∀ w, s.writable = some w → w.bytes <+: remote w.etag ∧ w.bytes ≠ [] ∧
    w.pos ≤ w.bytes.length ∧ w.bytes.length ≤ max w.pos s.disk.length
  handled : s.writable ≠ none → s.handled = true
  engine : ∀ e, s.engine = some e → EngineInv remote s e

variable {remote} {s}

/-- What the invariant says about the record. -/
theorem Inv.isPrefix (h : Inv remote s) {etag : Text} {offset : Nat}
    (hrecord : s.record = some (etag, offset)) (hetag : etag ≠ []) :
    s.disk <+: remote etag := by
  obtain hempty | hsame := h.record etag offset hrecord hetag
  · rw [hempty]
    exact List.nil_prefix
  · exact h.disk etag hsame

theorem take_of_isPrefix {n : Nat} {bytes whole : List UInt8} (h : bytes <+: whole)
    (hn : n ≤ bytes.length) : bytes.take n = whole.take n := by
  obtain ⟨rest, rfl⟩ := h
  rw [List.take_append_of_le_length hn]

theorem Inv.honest (h : Inv remote s) : s.Honest remote := by
  intro etag offset hrecord hetag
  exact take_of_isPrefix (h.isPrefix hrecord hetag) (Nat.min_le_right _ _)

theorem Inv.resumesOneVersion (h : Inv remote s) : s.ResumesOneVersion remote := by
  intro etag offset hload hetag
  unfold loadResumeState at hload
  obtain ⟨⟨named, saved⟩, hrecord, heq⟩ := Option.map_eq_some_iff.1 hload
  cases heq
  exact take_of_isPrefix (h.isPrefix hrecord hetag) (Nat.min_le_right _ _)

/-- Before the first download there is no record, no open file and no engine. -/
theorem Fresh.inv (h : s.Fresh remote) : Inv remote s := by
  refine ⟨h.disk, ?_, ?_, ?_, ?_⟩
  · intro etag offset hrecord
    rw [h.record] at hrecord
    cases hrecord
  · intro w hw
    rw [h.writable] at hw
    cases hw
  · intro hopen
    exact absurd h.writable hopen
  · intro e he
    rw [h.engine] at he
    cases he

/-! ## Steps of the SDK -/

/-- A published stream takes the place of the file. -/
theorem Inv.publish (h : Inv remote s) {w : Writable} (hw : s.writable = some w)
    (hnamed : ∀ etag offset, s.record = some (etag, offset) → etag = [] ∨ etag = w.etag) :
    Inv remote { s.publish w with engine := none } := by
  obtain ⟨hpart, hne, hpos, hlen⟩ := h.writable w hw
  refine ⟨?_, ?_, nofun, fun hopen => absurd rfl hopen, nofun⟩
  · intro etag hetag
    cases hetag
    exact hpart
  · intro etag offset hrecord hetag
    obtain hempty | rfl := hnamed etag offset hrecord
    · exact absurd hempty hetag
    · exact Or.inr rfl

/-- Closing puts the open file in place, so a record that names a version must name the file's;
where it is not closed, the disk stays. -/
theorem Inv.close (h : Inv remote s) {closes : Bool}
    (hnamed : closes = true → ∀ w, s.writable = some w → ∀ etag offset,
      s.record = some (etag, offset) → etag = [] ∨ etag = w.etag) :
    Inv remote { s.closeWritable closes with engine := none } := by
  unfold closeWritable
  cases hw : s.writable with
  | none =>
      refine ⟨h.disk, h.record, ?_, ?_, nofun⟩
      · intro w hopen
        exact nomatch hw.symm.trans hopen
      · intro hopen
        exact absurd hw hopen
  | some w =>
      cases closes with
      | true => exact h.publish hw (hnamed rfl w hw)
      | false => exact ⟨h.disk, h.record, nofun, fun hopen => absurd rfl hopen, nofun⟩

/-- The offset in the record does not matter to the invariant, nor the handle. -/
theorem Inv.sync (h : Inv remote s) (hengine : s.engine = none) (hw : s.writable = none) :
    Inv remote s.syncResumeOffsets := by
  unfold syncResumeOffsets
  split
  · refine ⟨h.disk, ?_, h.writable, fun hopen => absurd hw hopen, ?_⟩
    · intro etag offset hrecord hetag
      obtain ⟨⟨named, saved⟩, hbefore, heq⟩ := Option.map_eq_some_iff.1 hrecord
      cases heq
      exact h.record _ saved hbefore hetag
    · intro e he
      exact nomatch hengine.symm.trans he
  · exact h

/-- The state a download begins with is that of the record, clamped, or none. -/
theorem usable_loaded {etag : Text} {offset : Nat}
    (hload : usableState s.loadResumeState = (etag, offset)) :
    etag = [] ∧ offset = 0 ∨
    etag ≠ [] ∧ 0 < offset ∧ offset ≤ s.disk.length ∧
      ∃ saved, s.record = some (etag, saved) := by
  unfold loadResumeState at hload
  cases hrecord : s.record with
  | none =>
      rw [hrecord] at hload
      cases hload
      exact Or.inl ⟨rfl, rfl⟩
  | some named =>
      obtain ⟨named, saved⟩ := named
      rw [hrecord] at hload
      simp only [Option.map_some, usableState] at hload
      split at hload
      · next hboth =>
        cases hload
        exact Or.inr ⟨hboth.1, hboth.2, Nat.min_le_right _ _, saved, rfl⟩
      · cases hload
        exact Or.inl ⟨rfl, rfl⟩

/-- A download that begins takes its offset from the record only where the record is usable, and
then the disk holds that version.  No file is open: an open one counts as handled. -/
theorem inv_begin (h : Inv remote s) (hengine : s.engine = none) (hhandled : s.handled = false)
    (size : Nat) : Inv remote (s.beginDownload size) := by
  have hclosed : s.writable = none := by
    by_contra hopen
    exact nomatch hhandled.symm.trans (h.handled hopen)
  have hno : ∀ w, s.writable ≠ some w := by
    intro w hw
    exact nomatch hclosed.symm.trans hw
  unfold beginDownload
  cases hload : usableState s.loadResumeState with
  | mk etag offset =>
      dsimp only
      split
      · refine ⟨h.disk, h.record, h.writable, h.handled, ?_⟩
        intro e he
        cases he
        exact ⟨nofun, fun w hw => absurd hw (hno w), nofun, nofun, nofun⟩
      · refine ⟨h.disk, ?_, h.writable, h.handled, ?_⟩
        · intro named saved hrecord hne
          cases hrecord
          obtain ⟨hnone, _⟩ | ⟨_, _, _, saved, hsaved⟩ := usable_loaded hload
          · exact absurd hnone hne
          · exact h.record _ saved hsaved hne
        · intro e he
          exact nomatch hengine.symm.trans he
      · refine ⟨h.disk, h.record, h.writable, h.handled, ?_⟩
        intro e he
        cases he
        refine ⟨?_, fun w hw => absurd hw (hno w), nofun, nofun, nofun⟩
        intro hpos
        obtain ⟨_, hzero⟩ | ⟨hne, _, hle, saved, hsaved⟩ := usable_loaded hload
        · exact absurd hzero (Nat.pos_iff_ne_zero.1 hpos)
        · have hdisk : s.disk ≠ [] := by
            apply List.length_pos_iff.1
            exact Nat.lt_of_lt_of_le hpos hle
          exact ⟨hne, hdisk, (h.record etag saved hsaved hne).resolve_left hdisk, saved, hsaved⟩

/-! ## Steps of the engine -/

section EngineSteps

variable {e : EngineRun}

/-- A pass begins with the version that the server names.  It has delivered nothing so
far, so nothing of it is on the disk or due. -/
theorem inv_head (h : Inv remote s) (he : s.engine = some e) (hpass : e.pass = none)
    (etag : Text) : Inv remote (s.beginPass remote e etag) := by
  refine ⟨h.disk, h.record, h.writable, h.handled, ?_⟩
  intro e' he'
  cases he'
  have hbefore := h.engine e he
  refine ⟨hbefore.resume, hbefore.opened, ?_, ?_, ?_⟩
  · intro p hp
    cases hp
    exact ⟨rfl, le_refl _⟩
  · intro p hp hlt
    cases hp
    exact absurd hlt (lt_irrefl _)
  · intro offset hdue
    obtain ⟨p, hp, _⟩ := hbefore.due offset hdue
    exact nomatch hpass.symm.trans hp

/-- A pass given up, from a resume offset that can only have become zero. -/
theorem inv_giveUp (h : Inv remote s) (he : s.engine = some e) {offset : Nat}
    (hdue : e.due = none) (hoffset : offset = e.offset ∨ offset = 0) :
    Inv remote { s with engine := some { e with offset, pass := none } } := by
  have hbefore := h.engine e he
  refine ⟨h.disk, h.record, h.writable, h.handled, ?_⟩
  intro e' he'
  cases he'
  refine ⟨?_, ?_, nofun, nofun, ?_⟩
  · intro hpos
    apply hbefore.resume
    dsimp only at hpos
    omega
  · intro w hw
    have hstart := hbefore.opened w hw
    obtain rfl | rfl := hoffset
    · exact hstart
    · have hzero : passStart e.etag w.etag 0 (remote w.etag).length = 0 := by
        unfold passStart
        split <;> simp
      exact hzero.trans_le (Nat.zero_le _)
  · intro offset' hdue'
    exact nomatch hdue.symm.trans hdue'

/-- The record names the version of the pass, so the disk must be empty or hold that one. -/
theorem inv_save (h : Inv remote s) (he : s.engine = some e) {p : Pass}
    (hp : e.pass = some p) (hsame : s.disk = [] ∨ s.diskEtag = some p.etag) :
    Inv remote (s.saveState e p) := by
  have hbefore := h.engine e he
  refine ⟨h.disk, ?_, h.writable, h.handled, ?_⟩
  · intro etag offset hrecord _
    cases hrecord
    exact hsame
  · intro e' he'
    cases he'
    refine ⟨?_, hbefore.opened, ?_, ?_, ?_⟩
    · intro hpos
      obtain ⟨hne, hdisk, hnamed, _⟩ := hbefore.resume hpos
      have heq : p.etag = e.etag := by
        have hdiskIs := hsame.resolve_left hdisk
        exact Option.some.inj (hdiskIs.symm.trans hnamed)
      exact ⟨hne, hdisk, hnamed, p.contiguous, by rw [← heq]; rfl⟩
    · intro p' hp'
      cases hp'
      exact hbefore.start p hp
    · intro p' hp' hlt
      cases hp'
      exact hbefore.continues p hp hlt
    · intro offset hdue
      cases hdue
      exact ⟨_, rfl, rfl, rfl⟩

/-- A checkpoint publishes the stream and goes on where it was. -/
theorem inv_checkpoint (h : Inv remote s) (he : s.engine = some e) {offset : Nat}
    (hdue : e.due = some offset) {reopening : Reopening}
    (hnamed : ∀ w, s.published (.checkpoint reopening) = some w → ∀ etag saved,
      s.record = some (etag, saved) → etag = [] ∨ etag = w.etag) :
    Inv remote
      { s.checkpointDownload offset reopening with engine := some { e with due := none } } := by
  have hbefore := h.engine e he
  have hidle : Inv remote { s with engine := some { e with due := none } } := by
    refine ⟨h.disk, h.record, h.writable, h.handled, ?_⟩
    intro e' he'
    cases he'
    exact ⟨hbefore.resume, hbefore.opened, hbefore.start, hbefore.continues, nofun⟩
  unfold checkpointDownload
  cases hw : s.writable with
  | none => exact hidle
  | some w =>
      dsimp only
      split
      · next hcheck =>
        by_cases hfails : reopening = .closeFails
        · subst hfails
          exact hidle
        · have hpublished : s.published (.checkpoint reopening) = some w := by
            simp [published, hfails, he, hdue, hw, hcheck]
          have hdisk := h.publish hw (hnamed w hpublished)
          obtain ⟨hpart, hne, hpos, hlen⟩ := h.writable w hw
          have hresume : 0 < e.offset → e.etag ≠ [] ∧ w.bytes ≠ [] ∧
              some w.etag = some e.etag ∧ ∃ saved, s.record = some (e.etag, saved) := by
            intro hpos
            obtain ⟨hetag, _, _, saved, hrecord⟩ := hbefore.resume hpos
            obtain hempty | hsame := hnamed w hpublished _ _ hrecord
            · exact absurd hempty hetag
            · exact ⟨hetag, hne, by rw [hsame], saved, hrecord⟩
          have hstream : ∀ p, e.pass = some p → p.start < p.contiguous →
              w.etag = p.etag ∧ w.lastOffset < p.contiguous ∧ w.pos = p.contiguous := by
            intro p hp hlt
            obtain ⟨w', hw', hat⟩ | ⟨hnone, _⟩ := hbefore.continues p hp hlt
            · have hsame : w = w' := Option.some.inj (hw.symm.trans hw')
              rw [hsame]
              exact hat
            · exact nomatch hw.symm.trans hnone
          have hboth := Bool.and_eq_true_iff.1 hcheck
          have hhandled : s.handled = true := hboth.1
          have hshort : s.disk.length < offset := of_decide_eq_true hboth.2
          cases reopening with
          | closeFails => exact absurd rfl hfails
          | reopenFails =>
              refine ⟨hdisk.disk, hdisk.record, nofun, fun hopen => absurd rfl hopen, ?_⟩
              intro e' he'
              cases he'
              refine ⟨hresume, nofun, hbefore.start, ?_, nofun⟩
              intro p hp hlt
              obtain ⟨hetag, _⟩ := hstream p hp hlt
              exact Or.inr ⟨rfl, by rw [← hetag]; rfl⟩
          | reopened =>
              refine ⟨hdisk.disk, hdisk.record, ?_, fun _ => hhandled, ?_⟩
              · intro w' hw'
                cases hw'
                exact ⟨hpart, hne, le_refl _, Nat.le_max_left _ _⟩
              · intro e' he'
                cases he'
                refine ⟨hresume, ?_, hbefore.start, ?_, nofun⟩
                · intro w' hw'
                  cases hw'
                  exact hbefore.opened w hw
                · intro p hp hlt
                  obtain ⟨hetag, hlast, hat⟩ := hstream p hp hlt
                  obtain ⟨p', hp', hcontiguous, _⟩ := hbefore.due offset hdue
                  have hsame : p' = p := Option.some.inj (hp'.symm.trans hp)
                  subst hsame
                  -- the file was shorter than the offset, so the copy ends at it
                  have hend : w.bytes.length = p'.contiguous := by omega
                  exact Or.inl ⟨_, rfl, hetag, hlast, hend⟩
      · exact hidle

/-- A stream of the pass takes its next bytes. -/
theorem writable_write {p : Pass} {w : Writable} {len : Nat}
    (hpart : w.bytes <+: remote p.etag) (hetag : w.etag = p.etag)
    (hpos : w.pos = p.contiguous) (hle : w.pos ≤ w.bytes.length)
    (hlen : w.bytes.length ≤ max w.pos s.disk.length) (hlt : 0 < len)
    (hend : p.contiguous + len ≤ (remote p.etag).length) :
    ∃ w', w.write p.contiguous (((remote p.etag).drop p.contiguous).take len) = w' ∧
      w'.bytes <+: remote w'.etag ∧ w'.bytes ≠ [] ∧ w'.pos ≤ w'.bytes.length ∧
      w'.bytes.length ≤ max w'.pos s.disk.length ∧ w'.etag = p.etag ∧
      w'.lastOffset = p.contiguous ∧ w'.pos = p.contiguous + len := by
  have hdata : (((remote p.etag).drop p.contiguous).take len).length = len := by
    rw [List.length_take, List.length_drop]
    omega
  have hlength : (overwrite w.bytes w.pos
      (((remote p.etag).drop p.contiguous).take len)).length = max _ (_ + _) :=
    overwrite_length hle
  rw [hdata] at hlength
  refine ⟨_, rfl, ?_, ?_, ?_, ?_, hetag, rfl, ?_⟩
  · show overwrite _ _ _ <+: remote w.etag
    rw [hetag]
    apply overwrite_isPrefix hpart hle
    rw [hpos]
    exact List.take_prefix _ _
  · apply List.length_pos_iff.1
    show 0 < (overwrite _ _ _).length
    omega
  · show w.pos + _ ≤ (overwrite _ _ _).length
    omega
  · show (overwrite _ _ _).length ≤ max (w.pos + _) _
    omega
  · show w.pos + _ = _
    omega

/-- A stream that is not kept for a chunk is behind it. -/
theorem of_keptWritable {offset : Nat} {w : Writable}
    (hkept : s.keptWritable offset = some w) : s.writable = some w ∧ w.lastOffset < offset := by
  obtain ⟨hw, hlast⟩ := Option.filter_eq_some_iff.1 hkept
  exact ⟨hw, of_decide_eq_true hlast⟩

/-- The stream a chunk is written to holds a part of its version and is at its offset. -/
theorem writable_ready (h : Inv remote s) (he : s.engine = some e) {p : Pass}
    (hp : e.pass = some p) {w : Writable}
    (hkept : s.keptWritable p.contiguous = some w → w.etag = p.etag)
    (hw : s.keptWritable p.contiguous = some w ∨
      s.keptWritable p.contiguous = none ∧ s.openWritable p.etag p.contiguous = some w) :
    w.bytes <+: remote p.etag ∧ w.etag = p.etag ∧ w.pos = p.contiguous ∧
      w.pos ≤ w.bytes.length ∧ w.bytes.length ≤ max w.pos s.disk.length := by
  have hbefore := h.engine e he
  obtain ⟨hstart, hle⟩ := hbefore.start p hp
  obtain hsame | ⟨hnone, hopen⟩ := hw
  · obtain ⟨hw, hlast⟩ := of_keptWritable hsame
    have hetag := hkept hsame
    obtain ⟨hpart, _, hpos, hlen⟩ := h.writable w hw
    have hopened := hbefore.opened w hw
    rw [hetag, ← hstart] at hopened
    -- the pass that opened the stream has delivered, and this one is that pass
    obtain ⟨w', hw', _, _, hat⟩ | ⟨hnone, _⟩ := hbefore.continues p hp (by omega)
    · have hsame : w = w' := Option.some.inj (hw.symm.trans hw')
      subst hsame
      exact ⟨hetag ▸ hpart, hetag, hat, hpos, hlen⟩
    · exact nomatch hw.symm.trans hnone
  · unfold openWritable at hopen
    split at hopen
    · next hpos =>
      split at hopen
      · cases hopen
      · next hlong =>
        cases hopen
        refine ⟨?_, rfl, rfl, by dsimp only; omega, Nat.le_max_right _ _⟩
        by_cases hlt : p.start < p.contiguous
        · obtain ⟨w', hw', _, hlast, _⟩ | ⟨_, hnamed⟩ := hbefore.continues p hp hlt
          · have hkeeps : s.keptWritable p.contiguous = some w' :=
              Option.filter_eq_some_iff.2 ⟨hw', decide_eq_true hlast⟩
            exact nomatch hnone.symm.trans hkeeps
          · exact h.disk p.etag hnamed
        · -- a pass that starts past byte zero goes on with the version of the record
          have hresumes : 0 < e.offset ∧ (e.etag = [] ∨ e.etag = p.etag) := by
            unfold passStart at hstart
            split at hstart
            · omega
            · next hsame =>
              refine ⟨by omega, ?_⟩
              grind
          obtain ⟨hne, _, hnamed, _⟩ := hbefore.resume hresumes.1
          have heq := hresumes.2.resolve_left hne
          exact h.disk p.etag (heq ▸ hnamed)
    · next hzero =>
      cases hopen
      exact ⟨List.nil_prefix, rfl, by dsimp only; omega, Nat.zero_le _, Nat.zero_le _⟩

/-- What a chunk that is written leaves. -/
theorem inv_written (h : Inv remote s) (he : s.engine = some e) (hdue : e.due = none)
    {p : Pass} (hp : e.pass = some p) {w : Writable} {len : Nat}
    (hready : w.bytes <+: remote p.etag ∧ w.etag = p.etag ∧ w.pos = p.contiguous ∧
      w.pos ≤ w.bytes.length ∧ w.bytes.length ≤ max w.pos s.disk.length)
    (hlt : 0 < len) (hend : p.contiguous + len ≤ (remote p.etag).length) :
    Inv remote { s with
      writable := some (w.write p.contiguous (((remote p.etag).drop p.contiguous).take len)),
      handled := true,
      engine := some { e with pass := some { p with contiguous := p.contiguous + len } } } := by
  have hbefore := h.engine e he
  obtain ⟨hstart, hle⟩ := hbefore.start p hp
  obtain ⟨hpart, hetag, hpos, hinside, hlen⟩ := hready
  obtain ⟨w', hwrite, hpart', hne', hinside', hlen', hetag', hlast', hpos'⟩ :=
    writable_write hpart hetag hpos hinside hlen hlt hend
  rw [hwrite]
  refine ⟨h.disk, h.record, ?_, fun _ => rfl, ?_⟩
  · intro w'' hw''
    cases hw''
    exact ⟨hpart', hne', hinside', hlen'⟩
  · intro e' he'
    cases he'
    refine ⟨hbefore.resume, ?_, ?_, ?_, ?_⟩
    · intro w'' hw''
      cases hw''
      rw [hetag', hlast', ← hstart]
      exact hle
    · intro p' hp'
      cases hp'
      exact ⟨hstart, by dsimp only; omega⟩
    · intro p' hp' _
      cases hp'
      exact Or.inl ⟨w', rfl, hetag', by dsimp only; omega, hpos'⟩
    · intro offset hdue'
      exact nomatch hdue.symm.trans hdue'

/-- What a chunk that fails leaves. -/
theorem inv_notWritten (h : Inv remote s) (he : s.engine = some e) (hdue : e.due = none)
    (handled : Bool) : Inv remote { s with
      writable := none, handled, engine := some { e with pass := none } } := by
  have hbefore := h.engine e he
  refine ⟨h.disk, h.record, nofun, fun hopen => absurd rfl hopen, ?_⟩
  intro e' he'
  cases he'
  refine ⟨hbefore.resume, nofun, nofun, nofun, ?_⟩
  intro offset hdue'
  exact nomatch hdue.symm.trans hdue'

/-- A chunk goes to the open file, if that one is at the right place, or to one that is opened for
it.  Only the first can hold another version, which `hkept` excludes. -/
theorem inv_chunk (h : Inv remote s) (he : s.engine = some e) (hdue : e.due = none)
    {p : Pass} (hp : e.pass = some p) {len : Nat} {opening : Opening}
    (hkept : ∀ w, s.keptWritable p.contiguous = some w → w.etag = p.etag)
    (hlt : 0 < len) (hend : p.contiguous + len ≤ (remote p.etag).length) :
    Inv remote (s.deliver remote e p len opening) := by
  unfold deliver onWriteChunk
  cases hsame : s.keptWritable p.contiguous with
  | some w =>
      have hwritten := inv_written h he hdue hp
        (writable_ready h he hp (hkept w) (Or.inl hsame)) hlt hend
      have hhandled : s.handled = true := by
        apply h.handled
        rw [(of_keptWritable hsame).1]
        exact nofun
      rw [← hhandled] at hwritten
      exact hwritten
  | none =>
      cases opening with
      | noHandle => exact inv_notWritten h he hdue _
      | noWritable => exact inv_notWritten h he hdue _
      | opened =>
          cases hopen : s.openWritable p.etag p.contiguous with
          | none => exact inv_notWritten h he hdue _
          | some w =>
              exact inv_written h he hdue hp
                (writable_ready h he hp (hkept w) (Or.inr ⟨hsame, hopen⟩)) hlt hend

end EngineSteps

/-! ## Runs -/

/-- **Step lemma.** -/
theorem inv_next {t : SdkState} {a : SdkEvent} (h : Inv remote s) (hkeeps : s.KeepsVersion a)
    (hnext : s.next remote a = some t) : Inv remote t := by
  obtain ⟨hchunk, hsave, hpublish⟩ := hkeeps
  cases a with
  | begin size =>
      obtain ⟨hif, hsome⟩ := Option.ite_none_right_eq_some.1 hnext
      cases hsome
      exact inv_begin h hif.1 hif.2 size
  | head etag =>
      obtain ⟨e, he, hthen⟩ := Option.bind_eq_some_iff.1 hnext
      obtain ⟨hif, hsome⟩ := Option.ite_none_right_eq_some.1 hthen
      cases hsome
      exact inv_head h he hif etag
  | chunk len opening =>
      obtain ⟨e, he, hthen⟩ := Option.bind_eq_some_iff.1 hnext
      obtain ⟨p, hp, hthen⟩ := Option.bind_eq_some_iff.1 hthen
      obtain ⟨hif, hsome⟩ := Option.ite_none_right_eq_some.1 hthen
      cases hsome
      apply inv_chunk h he hif.1 hp _ hif.2.1 hif.2.2
      intro w hw
      exact hchunk len opening p w rfl (by simp [pass, he, hp]) hw
  | save =>
      obtain ⟨e, he, hthen⟩ := Option.bind_eq_some_iff.1 hnext
      obtain ⟨p, hp, hthen⟩ := Option.bind_eq_some_iff.1 hthen
      obtain ⟨hif, hsome⟩ := Option.ite_none_right_eq_some.1 hthen
      cases hsome
      exact inv_save h he hp (hsave p rfl (by simp [pass, he, hp]))
  | checkpoint reopening =>
      obtain ⟨e, he, hthen⟩ := Option.bind_eq_some_iff.1 hnext
      obtain ⟨offset, hdue, rfl⟩ := Option.map_eq_some_iff.1 hthen
      apply inv_checkpoint h he hdue
      intro w hw etag saved
      exact hpublish w etag saved hw
  | retry =>
      obtain ⟨e, he, hthen⟩ := Option.bind_eq_some_iff.1 hnext
      obtain ⟨hif, hsome⟩ := Option.ite_none_right_eq_some.1 hthen
      cases hsome
      exact inv_giveUp h he hif (Or.inl rfl)
  | restart =>
      obtain ⟨e, he, hthen⟩ := Option.bind_eq_some_iff.1 hnext
      obtain ⟨hif, hsome⟩ := Option.ite_none_right_eq_some.1 hthen
      cases hsome
      exact inv_giveUp h he hif (Or.inr rfl)
  | complete closes =>
      obtain ⟨e, he, hthen⟩ := Option.bind_eq_some_iff.1 hnext
      obtain ⟨p, hp, hthen⟩ := Option.bind_eq_some_iff.1 hthen
      obtain ⟨hif, hsome⟩ := Option.ite_none_right_eq_some.1 hthen
      cases hsome
      apply h.close
      intro hcloses w hw etag offset
      subst hcloses
      exact hpublish w etag offset hw
  | settle closes =>
      obtain ⟨hif, hsome⟩ := Option.ite_none_right_eq_some.1 hnext
      cases hsome
      have hclosed : (s.closeWritable closes).writable = none := by
        unfold closeWritable
        cases hw : s.writable with
        | none => exact hw
        | some w => cases closes <;> rfl
      have hinv : Inv remote { s.closeWritable closes with engine := none } := by
        apply h.close
        intro hcloses w hw etag offset
        subst hcloses
        exact hpublish w etag offset hw
      exact hinv.sync rfl hclosed
  | kill =>
      cases hnext
      exact ⟨h.disk, h.record, nofun, fun hopen => absurd rfl hopen, nofun⟩

end SdkState

open SdkState

/-- In every run whose steps keep record, file and stream to one version, the first bytes
of the file are those of the version the record names, and a resume goes on with it. -/
theorem kept_versions_stay_honest (remote : Text → List UInt8) {s t : SdkState}
    (hfresh : s.Fresh remote) (hrun : Reaches (next remote) KeepsVersion s t) :
    t.Honest remote ∧ t.ResumesOneVersion remote := by
  have hinv : Inv remote t := hrun.invariant (fun _ _ _ => inv_next) hfresh.inv
  exact ⟨hinv.honest, hinv.resumesOneVersion⟩

/-! ### A file that is downloaded and stays the same -/

/-- Plain reasons for a step to keep the version. -/
def plainlyKeeps (s : SdkState) (a : SdkEvent) : Bool :=
  ((s.published a).all fun w =>
    s.record.all fun (etag, _) => decide (etag = [] ∨ etag = w.etag)) &&
  s.pass.all fun p =>
    match a with
    | .chunk _ _ => (s.keptWritable p.contiguous).all fun w => decide (w.etag = p.etag)
    | .save => decide (s.disk = [] ∨ s.diskEtag = some p.etag)
    | _ => true

theorem keepsVersion_of_plainlyKeeps (s : SdkState) (a : SdkEvent)
    (h : plainlyKeeps s a = true) : s.KeepsVersion a := by
  obtain ⟨hpublish, hpass⟩ := Bool.and_eq_true_iff.1 h
  refine ⟨?_, ?_, ?_⟩
  · intro len opening p w ha hp hw
    subst ha
    rw [hp] at hpass
    dsimp only [Option.all] at hpass
    rw [hw] at hpass
    exact of_decide_eq_true hpass
  · intro p ha hp
    subst ha
    rw [hp] at hpass
    exact of_decide_eq_true hpass
  · intro w etag offset hw hrecord
    rw [hw, hrecord] at hpublish
    exact of_decide_eq_true hpublish

/-- Two versions of a file. -/
def twoVersions (etag : Text) : List UInt8 :=
  if etag = "v1".toList then [1, 2, 3, 4] else [5, 6, 7]

/-- A folder without the file. -/
def emptyFolder : SdkState := ⟨[], none, none, none, false, none⟩

/-- A whole download of the first version. -/
def firstDownload : List SdkEvent :=
  [.begin 4, .head "v1".toList, .chunk 4 .opened, .save, .checkpoint .reopened,
    .complete true, .settle true]

/-- The file has become shorter; the page is killed once its last offset is saved. -/
def killedDownload : List SdkEvent :=
  [.begin 3, .head "v2".toList, .chunk 3 .opened, .save, .checkpoint .reopened, .kill]

theorem emptyFolder_fresh : emptyFolder.Fresh twoVersions :=
  ⟨rfl, rfl, rfl, rfl, nofun⟩

/-- The first version is downloaded and its record is honest. -/
theorem first_download_stays_honest :
    ∃ t, Reaches (next twoVersions) KeepsVersion emptyFolder t ∧
      t.record = some ("v1".toList, 4) ∧ t.Honest twoVersions := by
  have hrun : ((runIf (next twoVersions) plainlyKeeps emptyFolder firstDownload).any fun t =>
      t.record = some ("v1".toList, 4)) = true := by
    decide +kernel
  obtain ⟨t, ht, hrecord⟩ := (Option.any_eq_true _ _).1 hrun
  have hreach : Reaches (next twoVersions) KeepsVersion emptyFolder t :=
    reaches_of_runIf keepsVersion_of_plainlyKeeps ht
  exact ⟨t, hreach, of_decide_eq_true hrecord,
    (kept_versions_stay_honest twoVersions emptyFolder_fresh hreach).1⟩

/-- **A file that has changed is recorded as downloaded while the old one is there.** -/
theorem changed_version_poisons_resume :
    ¬ ∀ t, Reaches (next twoVersions) (fun _ _ => True) emptyFolder t →
      t.Honest twoVersions ∧ t.ResumesOneVersion twoVersions := by
  intro hall
  have hrun : ((runIf (next twoVersions) (fun _ _ => true) emptyFolder
      (firstDownload ++ killedDownload)).any fun t =>
        t.loadResumeState = some ("v2".toList, 3) ∧ t.disk = [1, 2, 3, 4]) = true := by
    decide +kernel
  obtain ⟨t, ht, hend⟩ := (Option.any_eq_true _ _).1 hrun
  obtain ⟨hload, hdisk⟩ := of_decide_eq_true hend
  have hreach : Reaches (next twoVersions) (fun _ _ => True) emptyFolder t :=
    reaches_of_runIf (fun _ _ _ => trivial) ht
  have hone := (hall t hreach).2 _ _ hload (by decide)
  rw [hdisk] at hone
  exact absurd hone (by decide)

end Libfw
