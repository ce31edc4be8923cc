import Libfw.UploadSessions

/-!
# What a session commits

The requests of one session, in any interleaving, dropped and failing anywhere.
The lock of the temporary serialises them from the moment a request has it, but
a request opens its file before, and the temporary and its sidecar are two
files.  So three steps can go wrong: a request can read a sidecar that was
recorded for another file than it has open; a final request can find no sidecar
at all and skip the coverage check; it can rename a temporary that is not the
file it has checked.  `Careful` rules these three out, nothing else.

* `Backed`: that a sidecar lists only bytes of a file it was recorded for is
  kept by every step (`backed_write`, `backed_replace_sidecar`).
* `careful_session_commits_whole`: then a final request answered 201 has left a
  target of the declared size, every byte of which some request sent.
* `recordings_of_run`: every run has its own recordings, and no others.
* `dropped_chunk_commits_hole`: without it a chunk dropped between its data write
  and its sidecar write, and a final request after it, commit a zero-filled hole.

The proof is rely/guarantee: `Holding` is what a request knows while it has the
lock, `Rely` what it may assume of the others, `Inv` what holds throughout.
-/

namespace Libfw

open SteppedPrograms Fs FsStorage PosixStore HalfOpenRanges

namespace Session

variable (S : Session)

/-! ## Conditions and invariant -/

/-- The bytes of an open file. -/
def cells (s : Store) (f : Nat) : List (Option UInt8) := (s.content f).cells S.srv.serde

/-- The ranges are kept apart and list written positions only. -/
structure Told (ranges : List ChunkRange) (cs : List (Option UInt8)) : Prop where
  separated : Separated ranges
  written : ∀ k, Covers ranges k → Written cs k

/-- The sidecar lists only bytes that were written to the file. -/
def SidecarTrue (s : Store) (f : Nat) : Prop :=
  ∀ m ranges, s.disk.entry S.blocks = .file m → s.content m = .blocks ranges →
    ∀ k, Covers ranges k → Written (S.cells s f) k

section Conditions

-- `recordedFor m f`: sidecar `m` has been put in place by a request that had `f` open
variable (recordedFor : Nat → Nat → Prop)

/-- The call puts a sidecar in place: the sibling `m`, by a request that has `f` open. -/
def Puts (s : Store) (i : Nat) (call : Call) (c : Choice) (m f : Nat) : Prop :=
  call.2.file = some f ∧ s.disk.entry S.persist = .file m ∧
    ∃ t a, call.1.exec S.srv.serde i c s = some (t, a) ∧ t.disk.entry S.blocks = .file m

/-- `recordedFor` keeps track of the sidecars that are put in place. -/
def Records (s : Store) : Event Call UploadJob Choice Outside → Prop
  | .call i _ call c => ∀ m f, S.Puts s i call c m f → recordedFor m f
  | _ => True

/-- The steps that keep a session honest.  A request reads no sidecar but one that
was recorded for the file it has open; a final request whose temporary has the
declared length knows of received ranges; the temporary it renames is the file it
has checked. -/
def Careful (s : Store) : Event Call UploadJob Choice Outside → Prop
  | .enter _ job => S.Has job
  | .call _ job (op, h) _ =>
      match op with
      | .readToString _ => ∀ f m g, h.file = some f → s.disk.entry S.blocks = .file m →
          recordedFor m g → g = f
      | .len f => (S.cells s f).length = job.fileMeta.size →
          h.ranges ≠ [] ∨ job.fileMeta.size = 0
      | .rename source _ => source = S.tmp →
          ∀ f, h.file = some f → s.disk.entry S.tmp = .file f
      | _ => True
  | .drop _ _ => True
  | .env (.tick _) => True
  | .env (.place _ _) => False

/-- A careful step, of which `recordedFor` keeps track. -/
def CarefulStep (s : Store) (e : Event Call UploadJob Choice Outside) : Prop :=
  S.Records recordedFor s e ∧ S.Careful recordedFor s e

end Conditions

variable (first : Nat) (Offered : Nat → UInt8 → Prop) (recordedFor : Nat → Nat → Prop)

/-- A file of the session: made since it began, holding bytes, and neither the
sidecar nor its sibling. -/
structure Data (s : Store) (f : Nat) : Prop where
  new : first ≤ f
  made : f < s.disk.next
  bytes : ∃ cells, s.content f = .bytes cells
  not_blocks : s.disk.entry S.blocks ≠ .file f
  not_persist : s.disk.entry S.persist ≠ .file f

structure Inv (s : Store) : Prop where
  started : first ≤ s.disk.next
  tmp_data : ∀ f, s.disk.entry S.tmp = .file f → S.Data first s f
  offered : ∀ f cs, first ≤ f → f < s.disk.next → s.content f = .bytes cs →
    ∀ k b, cs[k]? = some (some b) → Offered k b
  sidecar : ∀ m, s.disk.entry S.blocks = .file m →
    ∃ ranges, s.content m = .blocks ranges ∧ Separated ranges

/-- The sidecar lists only bytes of a file that it was recorded for. -/
def Backed (s : Store) : Prop :=
  ∀ m, s.disk.entry S.blocks = .file m →
    ∃ f, recordedFor m f ∧ S.Data first s f ∧ S.SidecarTrue s f

structure CommitInv (s : Store) : Prop where
  files : S.Inv first Offered s
  backed : S.Backed first recordedFor s

/-- What a request of the session may assume of the others. -/
structure Rely (i : Nat) (s t : Store) : Prop where
  data : ∀ f, S.Data first s f → S.Data first t f
  lock : t.holder S.tmp = some i ↔ s.holder S.tmp = some i
  frozen : s.holder S.tmp = some i → S.Frozen s t

def commitDiscipline : UploadDiscipline where
  inv := S.CommitInv first Offered recordedFor
  rely := S.Rely first
  allowed := fun s e => S.CarefulStep recordedFor s e ∧
    ∀ i job, e = .enter i job → ∀ k b, Offers job k b → Offered k b
  mark := fun _ _ _ _ => True

/-- The request holds the lock of the session, and its open file holds these
bytes. -/
structure Holding (i f : Nat) (cs : List (Option UInt8)) (s : Store) : Prop where
  lock : s.holder S.tmp = some i
  data : S.Data first s f
  cells_eq : S.cells s f = cs

variable {S first Offered recordedFor} {s t : Store} {i f : Nat} {cs : List (Option UInt8)}

/-! ## What steps keep -/

theorem Frozen.data (h : S.Frozen s t) (hf : S.Data first s f) : S.Data first t f where
  new := hf.new
  made := Nat.lt_of_lt_of_le hf.made h.next
  bytes := by
    rw [h.content f hf.made]
    exact hf.bytes
  not_blocks := by
    intro hb
    exact hf.not_blocks ((h.named _ f S.names.blocks_ne_tmp).1 hb)
  not_persist := by
    intro hp
    exact hf.not_persist ((h.named _ f S.names.persist_ne_tmp).1 hp)

theorem Frozen.cells (h : S.Frozen s t) (hf : f < s.disk.next) :
    S.cells t f = S.cells s f := by
  unfold Session.cells
  rw [h.content f hf]

/-- Whatever leaves the sidecar in place, and the bytes it lists written, keeps it
backed. -/
theorem Backed.mono (hs : S.Backed first recordedFor s)
    (hblocks : ∀ m, t.disk.entry S.blocks = .file m →
      s.disk.entry S.blocks = .file m ∧ t.content m = s.content m)
    (hdata : ∀ f, S.Data first s f → S.Data first t f)
    (hcells : ∀ f, S.Data first s f → ∀ k, Written (S.cells s f) k → Written (S.cells t f) k) :
    S.Backed first recordedFor t := by
  intro m hm
  obtain ⟨hm', -⟩ := hblocks m hm
  obtain ⟨f, hrecorded, hf, htrue⟩ := hs m hm'
  refine ⟨f, hrecorded, hdata f hf, ?_⟩
  intro m' ranges hm₁ hc k hk
  obtain ⟨hm₂, hsame⟩ := hblocks m' hm₁
  rw [hsame] at hc
  exact hcells f hf k (htrue m' ranges hm₂ hc k hk)

theorem Frozen.backed (h : S.Frozen s t) (hs : S.Backed first recordedFor s) :
    S.Backed first recordedFor t := by
  apply hs.mono
  · intro m hm
    have hm' := (h.named _ m S.names.blocks_ne_tmp).1 hm
    exact ⟨hm', h.content m (s.disk.entry_lt hm')⟩
  · exact fun f hf => h.data hf
  · intro f hf k hk
    rw [h.cells hf.made]
    exact hk

/-- Fewer names, the same contents: the invariant stays. -/
structure Fewer (s t : Store) : Prop where
  tmp : ∀ f, t.disk.entry S.tmp = .file f → s.disk.entry S.tmp = .file f
  blocks : ∀ f, t.disk.entry S.blocks = .file f → s.disk.entry S.blocks = .file f
  persist : ∀ f, t.disk.entry S.persist = .file f → s.disk.entry S.persist = .file f
  content : t.disk.content = s.disk.content
  next : t.disk.next = s.disk.next

theorem Fewer.data (h : S.Fewer s t) (hf : S.Data first s f) : S.Data first t f where
  new := hf.new
  made := by
    rw [h.next]
    exact hf.made
  bytes := by
    unfold Store.content
    rw [h.content]
    exact hf.bytes
  not_blocks := fun hb => hf.not_blocks (h.blocks f hb)
  not_persist := fun hp => hf.not_persist (h.persist f hp)

/-- Taking files away from under the names of a session makes nothing of the invariant false. -/
theorem Fewer.inv (h : S.Fewer s t) (hs : S.Inv first Offered s) :
    S.Inv first Offered t where
  started := by
    rw [h.next]
    exact hs.started
  tmp_data := fun f hf => h.data (hs.tmp_data f (h.tmp f hf))
  offered := by
    intro f cs hf hlt hc
    unfold Store.content at hc
    rw [h.content] at hc
    rw [h.next] at hlt
    exact hs.offered f cs hf hlt hc
  sidecar := by
    intro m hm
    unfold Store.content
    rw [h.content]
    exact hs.sidecar m (h.blocks m hm)

theorem Fewer.cells (h : S.Fewer s t) : S.cells t f = S.cells s f := by
  unfold Session.cells Store.content
  rw [h.content]

/-- A sidecar that is still there is the one that was, and the file it was recorded for has kept
its bytes, be it under a name or not. -/
theorem Fewer.commitInv (h : S.Fewer s t) (hs : S.CommitInv first Offered recordedFor s) :
    S.CommitInv first Offered recordedFor t where
  files := h.inv hs.files
  backed := by
    apply hs.backed.mono
    · intro m hm
      refine ⟨h.blocks m hm, ?_⟩
      unfold Store.content
      rw [h.content]
    · exact fun f hf => h.data hf
    · intro f _ k hk
      rw [h.cells]
      exact hk

theorem fewer_of_disk_eq (h : t.disk = s.disk) : S.Fewer s t := by
  refine ⟨fun f hf => ?_, fun f hf => ?_, fun f hf => ?_, ?_, ?_⟩
  · rw [← h]
    exact hf
  · rw [← h]
    exact hf
  · rw [← h]
    exact hf
  · rw [h]
  · rw [h]

theorem fewer_mkdirs (paths : List FsPath) : S.Fewer s (s.mkdirs paths) where
  tmp := fun _ => (Disk.mkdirs_entry_file _).1
  blocks := fun _ => (Disk.mkdirs_entry_file _).1
  persist := fun _ => (Disk.mkdirs_entry_file _).1
  content := rfl
  next := rfl

theorem fewer_unlink (p : FsPath) : S.Fewer s (s.unlink p) where
  tmp := fun _ => unlink_entry_file
  blocks := fun _ => unlink_entry_file
  persist := fun _ => unlink_entry_file
  content := rfl
  next := rfl

/-- Publishing the temporary. -/
theorem fewer_publish : S.Fewer s (s.rename S.tmp S.target) where
  tmp := by
    intro f hf
    unfold Store.rename at hf
    rw [Disk.rename_entry_source _ _ _ S.names.tmp_ne_target] at hf
    cases hf
  blocks := by
    intro f hf
    unfold Store.rename at hf
    rw [Disk.rename_entry_ne _ _ _ S.names.blocks_ne_tmp S.names.blocks_ne_target] at hf
    exact hf
  persist := by
    intro f hf
    unfold Store.rename at hf
    rw [Disk.rename_entry_ne _ _ _ S.names.persist_ne_tmp S.names.persist_ne_target] at hf
    exact hf
  content := rfl
  next := rfl

/-- The first request of a session makes the temporary. -/
theorem inv_create_tmp (hs : S.Inv first Offered s)
    (habsent : s.disk.entry S.tmp = .absent) :
    S.Inv first Offered (s.create S.tmp (.bytes [])) ∧
      S.Data first (s.create S.tmp (.bytes [])) s.disk.next := by
  have hfrozen : S.Frozen s (s.create S.tmp (.bytes [])) := frozen_create_tmp _ habsent
  have hnew : (s.create S.tmp (.bytes [])).content s.disk.next = .bytes [] := by
    unfold Store.content Store.create
    rw [Disk.create_content_next]
  have hdata : S.Data first (s.create S.tmp (.bytes [])) s.disk.next := by
    refine ⟨hs.started, Nat.lt_succ_self _, ⟨[], hnew⟩, ?_, ?_⟩
    · intro hb
      exact Nat.lt_irrefl _ (s.disk.entry_lt
        ((hfrozen.named _ _ S.names.blocks_ne_tmp).1 hb))
    · intro hp
      exact Nat.lt_irrefl _ (s.disk.entry_lt
        ((hfrozen.named _ _ S.names.persist_ne_tmp).1 hp))
  refine ⟨⟨Nat.le_succ_of_le hs.started, ?_, ?_, ?_⟩, hdata⟩
  · intro f hf
    unfold Store.create at hf
    rw [Disk.create_entry_self] at hf
    cases hf
    exact hdata
  · intro f cs hf hlt hc k b hb
    by_cases hold : f = s.disk.next
    · subst hold
      rw [hnew] at hc
      cases hc
      cases hb
    · have hsame : (s.create S.tmp (.bytes [])).content f = s.content f := by
        unfold Store.content Store.create Disk.create
        simp only [if_neg hold]
      rw [hsame] at hc
      exact hs.offered f cs hf (Nat.lt_of_le_of_ne (Nat.le_of_lt_succ hlt) hold) hc k b hb
  · intro m hm
    have hm' := (hfrozen.named _ m S.names.blocks_ne_tmp).1 hm
    rw [hfrozen.content m (s.disk.entry_lt hm')]
    exact hs.sidecar m hm'

/-! ### Writing data -/

theorem data_write {off : Nat} {buf : List UInt8} {g : Nat} (hg : S.Data first s g) :
    S.Data first (s.write f (written S.srv.serde off buf)) g := by
  refine ⟨hg.new, hg.made, ?_, hg.not_blocks, hg.not_persist⟩
  by_cases hgf : g = f
  · subst hgf
    rw [write_content_self]
    exact ⟨_, rfl⟩
  · rw [write_content_ne hgf]
    exact hg.bytes

/-- A positional write of offered bytes into a file of the session. -/
theorem inv_write (hs : S.Inv first Offered s) (hf : S.Data first s f) {off : Nat}
    {buf : List UInt8} (hbuf : ∀ k b, buf[k]? = some b → Offered (off + k) b) :
    S.Inv first Offered (s.write f (written S.srv.serde off buf)) := by
  refine ⟨hs.started, fun g hg => data_write (hs.tmp_data g hg), ?_, ?_⟩
  · intro g cs hg hlt hc k b hb
    by_cases hgf : g = f
    · subst hgf
      obtain ⟨old, hold⟩ := hf.bytes
      rw [write_content_self, hold] at hc
      cases hc
      rcases writeAt_getElem?_of_written hb with hb | ⟨hk, -, hb⟩
      · exact hs.offered g old hg hlt hold k b hb
      · have := hbuf (k - off) b hb
        rw [Nat.add_sub_cancel' hk] at this
        exact this
    · rw [write_content_ne hgf] at hc
      exact hs.offered g cs hg hlt hc k b hb
  · intro m hm
    have hmf : m ≠ f := by
      rintro rfl
      exact hf.not_blocks hm
    rw [write_content_ne hmf]
    exact hs.sidecar m hm

/-- What a write keeps and adds. -/
theorem cells_write {off : Nat} {buf : List UInt8} :
    S.cells (s.write f (written S.srv.serde off buf)) f =
      writeAt (S.cells s f) off buf := by
  unfold Session.cells
  rw [write_content_self]
  rfl

variable (S first Offered) in
/-- The sibling of the sidecar has been written. -/
structure Prepared (c : Content) (s t : Store) : Prop where
  inv : S.Inv first Offered t
  data : ∀ g, S.Data first s g → S.Data first t g
  cells : ∀ g, S.Data first s g → S.cells t g = S.cells s g
  sidecar : ∀ b, t.disk.entry S.blocks = .file b →
    s.disk.entry S.blocks = .file b ∧ t.content b = s.content b
  sibling : ∃ m, t.disk.entry S.persist = .file m ∧ t.content m = c
  holder : t.holder = s.holder

theorem prepared_of_replaced {c : Content} (hs : S.Inv first Offered s)
    (hc : c = .bytes [] ∨ ∃ ranges, c = .blocks ranges)
    (h : ReplacedAt S.persist c s t) : S.Prepared first Offered c s t := by
  obtain ⟨m, hm, hcm, hwhere, hentry, hcontent, hnext, hlast⟩ := h.file
  -- the file written is neither data nor the sidecar
  have hdata_ne : ∀ g, S.Data first s g → g ≠ m := by
    rintro g hg rfl
    rcases hwhere with hp | hnew
    · exact hg.not_persist hp
    · exact Nat.lt_irrefl _ (hnew ▸ hg.made)
  have hdata : ∀ g, S.Data first s g → S.Data first t g := by
    intro g hg
    refine ⟨hg.new, Nat.lt_of_lt_of_le hg.made hnext, ?_, ?_, ?_⟩
    · rw [hcontent g (hdata_ne g hg)]
      exact hg.bytes
    · rw [hentry _ S.names.persist_ne_blocks.symm]
      exact hg.not_blocks
    · intro hp
      rw [hm] at hp
      cases hp
      exact hdata_ne _ hg rfl
  -- nor is the sidecar written
  have hsidecar : ∀ b, t.disk.entry S.blocks = .file b →
      s.disk.entry S.blocks = .file b ∧ t.content b = s.content b := by
    intro b hb
    rw [hentry _ S.names.persist_ne_blocks.symm] at hb
    have hbm : b ≠ m := by
      rintro rfl
      rcases hwhere with hp | hnew
      · exact S.names.persist_ne_blocks (s.disk.single hp hb)
      · exact Nat.lt_irrefl _ (hnew ▸ s.disk.entry_lt hb)
    exact ⟨hb, hcontent b hbm⟩
  refine ⟨⟨Nat.le_trans hs.started hnext, ?_, ?_, ?_⟩, hdata, ?_, hsidecar, ⟨m, hm, hcm⟩,
    h.holder⟩
  · intro g hg
    rw [hentry _ S.names.persist_ne_tmp.symm] at hg
    exact hdata g (hs.tmp_data g hg)
  · intro g cs hg hlt hcg k b hb
    by_cases hgm : g = m
    · subst hgm
      rw [hcm] at hcg
      rcases hc with rfl | ⟨ranges, rfl⟩
      · cases hcg
        cases hb
      · cases hcg
    · rw [hcontent g hgm] at hcg
      exact hs.offered g cs hg (hlast g hgm hlt) hcg k b hb
  · intro b hb
    obtain ⟨hb', hsame⟩ := hsidecar b hb
    rw [hsame]
    exact hs.sidecar b hb'
  · intro g hg
    unfold Session.cells
    rw [hcontent g (hdata_ne g hg)]

theorem Prepared.commitInv {c : Content} (h : S.Prepared first Offered c s t)
    (hs : S.CommitInv first Offered recordedFor s) : S.CommitInv first Offered recordedFor t where
  files := h.inv
  backed := by
    apply hs.backed.mono h.sidecar h.data
    intro g hg k hk
    rw [h.cells g hg]
    exact hk

/-- The sibling takes the place of the sidecar. -/
theorem inv_replace_sidecar (hs : S.Inv first Offered s) {m : Nat}
    {ranges : List ChunkRange} (hm : s.disk.entry S.persist = .file m)
    (hc : s.content m = .blocks ranges) (hsep : Separated ranges) :
    S.Inv first Offered (s.rename S.persist S.blocks) ∧
      ∀ g, S.Data first s g → S.Data first (s.rename S.persist S.blocks) g := by
  have hblocks : (s.rename S.persist S.blocks).disk.entry S.blocks = .file m := by
    unfold Store.rename
    rw [Disk.rename_entry_target]
    exact hm
  have hpersist : (s.rename S.persist S.blocks).disk.entry S.persist = .absent :=
    Disk.rename_entry_source _ _ _ S.names.persist_ne_blocks
  have hdata : ∀ g, S.Data first s g →
      S.Data first (s.rename S.persist S.blocks) g := by
    intro g hg
    refine ⟨hg.new, hg.made, hg.bytes, ?_, ?_⟩
    · rw [hblocks, ← hm]
      exact hg.not_persist
    · rw [hpersist]
      exact fun h => nomatch h
  refine ⟨⟨hs.started, ?_, hs.offered, ?_⟩, hdata⟩
  · intro g hg
    unfold Store.rename at hg
    rw [Disk.rename_entry_ne _ _ _ S.names.persist_ne_tmp.symm
      S.names.blocks_ne_tmp.symm] at hg
    exact hdata g (hs.tmp_data g hg)
  · intro b hb
    rw [hblocks] at hb
    cases hb
    exact ⟨ranges, hc, hsep⟩

theorem rely_of_frozen (h : S.Frozen s t) (hlock : t.holder = s.holder) :
    S.Rely first i s t where
  data := fun _ hf => h.data hf
  lock := by rw [hlock]
  frozen := fun _ => h

theorem Rely.trans {u : Store} (hst : S.Rely first i s t) (htu : S.Rely first i t u) :
    S.Rely first i s u where
  data := fun f hf => htu.data f (hst.data f hf)
  lock := htu.lock.trans hst.lock
  frozen := fun h => (hst.frozen h).trans (htu.frozen (hst.lock.2 h))

/-- A step that leaves the files as the others know them. -/
theorem kept_of_frozen (hinv : S.CommitInv first Offered recordedFor t) (h : S.Frozen s t)
    (hlock : t.holder = s.holder) : (S.commitDiscipline first Offered recordedFor).Kept i s t :=
  ⟨hinv, fun _ _ => rely_of_frozen h hlock⟩

theorem kept_self (hinv : S.CommitInv first Offered recordedFor s) :
    (S.commitDiscipline first Offered recordedFor).Kept i s s :=
  kept_of_frozen hinv (frozen_of_disk_eq rfl) rfl

/-- What the others may assume of a step under the lock. -/
theorem rely_of_holding {j : Nat} (hj : j ≠ i) (hs : s.holder S.tmp = some i)
    (hlock : t.holder = s.holder) (hdata : ∀ f, S.Data first s f → S.Data first t f) :
    S.Rely first j s t := by
  refine ⟨hdata, by rw [hlock], ?_⟩
  intro hheld
  rw [hs] at hheld
  exact absurd (Option.some.inj hheld).symm hj

/-- A step under the lock. -/
theorem kept_of_holding (hinv : S.CommitInv first Offered recordedFor t)
    (hs : s.holder S.tmp = some i) (hlock : t.holder = s.holder)
    (hdata : ∀ f, S.Data first s f → S.Data first t f) :
    (S.commitDiscipline first Offered recordedFor).Kept i s t :=
  ⟨hinv, fun _ hj => rely_of_holding hj hs hlock hdata⟩

theorem Holding.stable (h : S.Holding first i f cs s) (hrely : S.Rely first i s t) :
    S.Holding first i f cs t where
  lock := hrely.lock.2 h.lock
  data := hrely.data f h.data
  cells_eq := ((hrely.frozen h.lock).cells h.data.made).trans h.cells_eq

/-- Taking names away, under the lock. -/
theorem Holding.fewer (h : S.Holding first i f cs s)
    (hinv : S.CommitInv first Offered recordedFor s)
    (hfewer : S.Fewer s t) (hlock : t.holder = s.holder) :
    (S.commitDiscipline first Offered recordedFor).Kept i s t ∧ S.Holding first i f cs t := by
  refine ⟨kept_of_holding (hfewer.commitInv hinv) h.lock hlock fun _ => hfewer.data, ?_⟩
  refine ⟨?_, hfewer.data h.data, hfewer.cells.trans h.cells_eq⟩
  rw [hlock]
  exact h.lock

/-- What the others may assume when a request takes the lock. -/
theorem rely_acquired {j : Nat} (hj : j ≠ i) (hfree : s.holder S.tmp = none) :
    S.Rely first j s (s.acquire S.tmp i) := by
  have hheld : (s.acquire S.tmp i).holder S.tmp = some i := if_pos rfl
  have hfewer : S.Fewer s (s.acquire S.tmp i) := fewer_of_disk_eq rfl
  refine ⟨fun _ => hfewer.data, ?_, fun _ => frozen_of_disk_eq rfl⟩
  rw [hheld, hfree]
  constructor
  · intro h
    exact absurd (Option.some.inj h).symm hj
  · exact fun h => nomatch h

section Programs

variable {job : UploadJob} {h : Held} {ε α : Type}

variable (S first Offered recordedFor i job) in
/-- The weakest precondition for a request of the session. -/
abbrev Wp (x : Fs ε α) (Q : Except ε α → Held → Store → Prop) : Held → Store → Prop :=
  Fs.Wp S.srv (S.commitDiscipline first Offered recordedFor) i job x Q

theorem watching {P : Store → Prop} (hP : ∀ s t, P s → S.Rely first i s t → P t) :
    Watching (S.commitDiscipline first Offered recordedFor) i job h P where
  stable := fun s t hs hrely _ => hP s t hs hrely
  mark := fun _ _ _ _ _ => trivial
  self := fun _ _ hinv => kept_self hinv

theorem watching_holding :
    Watching (S.commitDiscipline first Offered recordedFor) i job h (S.Holding first i f cs) :=
  watching fun _ _ hs hrely => hs.stable hrely

theorem watching_published :
    Watching (S.commitDiscipline first Offered recordedFor) i job h
      (fun s => S.Holding first i f cs s ∧ s.disk.entry S.target = .file f) := by
  refine watching ?_
  rintro s t ⟨hs, htarget⟩ hrely
  refine ⟨hs.stable hrely, ?_⟩
  exact ((hrely.frozen hs.lock).named _ f S.names.tmp_ne_target.symm).2 htarget

/-! ### Opening the sink -/

variable (S) in
/-- The sink of a request of the session. -/
def sink (f : Nat) (mode : WriteMode) : FsSink :=
  ⟨f, some S.tmp, S.target, S.path, mode, some S.blocks⟩

variable (S first i) in
/-- The sink is open, and the ranges it knows are written. -/
structure Ready (f : Nat) (cs : List (Option UInt8)) (h : Held) (s : Store) : Prop where
  file : h.file = some f
  holding : S.Holding first i f cs s
  told : Told h.ranges cs

/-- A removal under the lock, wanted or not. -/
theorem wp_removeFile {p : FsPath} (hs : S.Holding first i f cs s) :
    S.Wp first Offered recordedFor i job (await (.removeFile p) : Fs ε _)
      (fun r h' s => h' = h ∧ S.Holding first i f cs s ∧ ∃ a, r = .ok a) h s := by
  refine wp_await.2 ?_
  intro s₁ hrely hinv
  refine ⟨trivial, ?_⟩
  intro c s₂ a _ hexec
  have hs₁ : S.Holding first i f cs s₁ := hs.stable hrely
  rcases exec_removeFile hexec with ⟨rfl, -⟩ | ⟨m, -, -, rfl⟩
  · exact ⟨kept_self hinv, rfl, hs₁, a, rfl⟩
  · obtain ⟨hkept, hs₂⟩ := hs₁.fewer hinv (fewer_unlink p) rfl
    exact ⟨hkept, rfl, hs₂, a, rfl⟩

theorem wp_removeBlocksSidecar (hs : S.Holding first i f cs s) :
    S.Wp first Offered recordedFor i job (removeBlocksSidecar (some S.blocks))
      (fun r h' s => h' = h ∧ S.Holding first i f cs s ∧ r = .ok ()) h s := by
  refine wp_then (wp_removeFile hs) ?_ (fun e h s hr => nomatch hr.2.2)
  rintro a h' s ⟨rfl, hs, -⟩
  exact ⟨rfl, hs, rfl⟩

theorem Told.writeAt {ranges : List ChunkRange} (h : Told ranges cs) (off : Nat)
    (buf : List UInt8) : Told ranges (PosixStore.writeAt cs off buf) :=
  ⟨h.separated, fun k hk => written_writeAt.2 (Or.inl (h.written k hk))⟩

variable (S Offered) in
/-- The target is a file of the given size, every byte of which is offered. -/
structure Committed (size : Nat) (s : Store) : Prop where
  whole : ∃ f cs, s.disk.entry S.target = .file f ∧ s.content f = .bytes cs ∧
    cs.length = size ∧ ∀ k, k < size → ∃ b, cs[k]? = some (some b) ∧ Offered k b

theorem wp_refuseAppeared {mode : WriteMode} (hs : S.Holding first i f cs s) :
    S.Wp first Offered recordedFor i job ((S.sink f mode).refuseAppeared S.tmp)
      (fun r h' s => ∀ u, r = .ok u → h' = h ∧ S.Holding first i f cs s) h s := by
  unfold FsSink.refuseAppeared
  by_cases hmode : (S.sink f mode).mode = .create
  · rw [if_pos hmode]
    refine wp_then (watching_holding.look_keep hs rfl) ?_
      (fun e h s hr => nomatch hr.2.2)
    rintro a h' s ⟨rfl, hs, -⟩
    refine wp_other_then ?_ (fun e _ u h => nomatch h)
    intro b _
    by_cases hb : b = true
    · rw [if_pos hb]
      refine wp_then (wp_removeFile hs) ?_ (fun e h s hr => nomatch hr.2.2)
      intro a h' s _
      exact fun u h => nomatch h
    · rw [if_neg hb]
      exact fun u _ => ⟨rfl, hs⟩
  · rw [if_neg hmode]
    exact fun u _ => ⟨rfl, hs⟩

/-- The file that is moved is the one that was checked. -/
theorem wp_moveIntoPlace {mode : WriteMode} (hfile : h.file = some f)
    (hs : S.Holding first i f cs s) :
    S.Wp first Offered recordedFor i job ((S.sink f mode).moveIntoPlace S.tmp)
      (fun r h' s => ∀ u, r = .ok u → h' = h ∧ S.Holding first i f cs s ∧
        s.disk.entry S.target = .file f) h s := by
  unfold FsSink.moveIntoPlace
  refine wp_await_then.2 ?_
  intro s₁ hrely hinv
  refine ⟨trivial, ?_⟩
  intro c s₂ a hallow hexec
  have hs₁ : S.Holding first i f cs s₁ := hs.stable hrely
  rcases exec_rename hexec with ⟨rfl, e, rfl⟩ | ⟨m, hm, -, rfl, rfl⟩
  · exact ⟨kept_self hinv, wp_other_then (fun _ h => nomatch h) fun _ _ u h => nomatch h⟩
  have hmf : s₁.disk.entry S.tmp = .file f := hallow.1.2 rfl f hfile
  obtain ⟨hkept, hs₂⟩ := hs₁.fewer hinv fewer_publish rfl
  refine ⟨hkept, wp_other_then (fun _ _ => ?_) (fun _ h => nomatch h)⟩
  have htarget : (s₁.rename S.tmp S.target).disk.entry S.target = .file f :=
    (Disk.rename_entry_target _ _ _).trans hmf
  have hend : ∀ s, S.Holding first i f cs s ∧ s.disk.entry S.target = .file f →
      S.Wp first Offered recordedFor i job (ret () : Fs StorageError Unit)
        (fun r h' s => ∀ u, r = .ok u → h' = h ∧ S.Holding first i f cs s ∧
          s.disk.entry S.target = .file f) h s :=
    fun s hs u _ => ⟨rfl, hs⟩
  cases (S.sink f mode).target.parent with
  | none => exact hend _ ⟨hs₂, htarget⟩
  | some parent =>
      refine wp_then (watching_published.look_keep ⟨hs₂, htarget⟩
        rfl) ?_ (fun e h s hr => nomatch hr.2.2)
      rintro a h' s ⟨rfl, hs, -⟩
      exact hend s hs

theorem wp_publish {mode : WriteMode} (hfile : h.file = some f)
    (hs : S.Holding first i f cs s) :
    S.Wp first Offered recordedFor i job ((S.sink f mode).publish S.tmp)
      (fun r h' s => ∀ u, r = .ok u → h' = h ∧ S.Holding first i f cs s ∧
        s.disk.entry S.target = .file f) h s := by
  refine wp_then (wp_refuseAppeared hs) ?_ (fun e h s _ u h => nomatch h)
  intro u h' s hr
  obtain ⟨rfl, hs⟩ := hr u rfl
  exact wp_moveIntoPlace hfile hs

/-- A commit that succeeds has moved the checked file under the target's name. -/
theorem wp_commit {mode : WriteMode} (hfile : h.file = some f)
    (hs : S.Holding first i f cs s) :
    S.Wp first Offered recordedFor i job ((S.sink f mode).commit S.srv.etag)
      (fun r _ s => ∀ file, r = .ok file → S.Inv first Offered s ∧
        S.Holding first i f cs s ∧ s.disk.entry S.target = .file f) h s := by
  unfold FsSink.commit
  refine wp_then (wp_removeBlocksSidecar hs) ?_ (fun e h s _ file h => nomatch h)
  rintro _ h' s ⟨rfl, hs, -⟩
  refine wp_then (watching_holding.look_keep hs rfl) ?_
    (fun e h s hr => nomatch hr.2.2)
  rintro a h' s ⟨rfl, hs, -⟩
  refine wp_other_then (fun _ _ => ?_) (fun e _ file h => nomatch h)
  refine wp_then (watching_holding.look_keep hs rfl) ?_
    (fun e h s hr => nomatch hr.2.2)
  rintro a h' s ⟨rfl, hs, -⟩
  refine wp_other_then (fun _ _ => ?_) (fun e _ file h => nomatch h)
  refine wp_then (wp_publish hfile hs) ?_ (fun e h s _ file h => nomatch h)
  intro u h'' s hr
  obtain ⟨rfl, hs⟩ := hr u rfl
  refine watching_published.look_then hs rfl ?_
  intro s c a hs hinv _ _
  refine wp_other_then ?_ (fun e _ file h => nomatch h)
  intro stat _ file _
  exact ⟨hinv.files, hs⟩

end Programs

/-- What the others may assume when a request gives the lock back. -/
theorem rely_release {j : Nat} (hj : j ≠ i) : S.Rely first j s (s.release i) := by
  have hfewer : S.Fewer s (s.release i) := fewer_of_disk_eq rfl
  refine ⟨fun _ => hfewer.data, ?_, fun _ => frozen_of_disk_eq rfl⟩
  show (if s.holder S.tmp = some i then none else s.holder S.tmp) = some j ↔ _
  by_cases hi : s.holder S.tmp = some i
  · rw [if_pos hi, hi]
    constructor
    · exact fun h => nomatch h
    · intro h
      exact absurd (Option.some.inj h).symm hj
  · rw [if_neg hi]

theorem Fresh.inv (h : S.Fresh s) : S.Inv s.disk.next Offered s where
  started := Nat.le_refl _
  tmp_data := by
    intro f hf
    rw [h.no_tmp] at hf
    cases hf
  offered := fun f cs hf hlt => absurd hf (Nat.not_le.2 hlt)
  sidecar := by
    intro m hm
    rw [h.no_blocks] at hm
    cases hm

theorem Fresh.commitInv (h : S.Fresh s) :
    S.CommitInv s.disk.next Offered recordedFor s where
  files := h.inv
  backed := by
    intro m hm
    rw [h.no_blocks] at hm
    cases hm

/-! ## Runs -/

/-- A larger relation keeps track of more. -/
theorem Records.mono {R R' : Nat → Nat → Prop} (hR : ∀ m f, R m f → R' m f) {s : Store}
    {e : Event Call UploadJob Choice Outside} (h : S.Records R s e) : S.Records R' s e := by
  cases e with
  | call i job call c => exact fun m f hputs => hR m f (h m f hputs)
  | enter | drop | env => trivial

/-- Every run has a relation that keeps track of it, and of nothing else. -/
theorem recordings_of_run {ok : UploadState → UploadAct → Prop} {s₀ : Store} {s : UploadState}
    (hrun : (uploadSystem S.srv).Reaches ok (atRest s₀) s) :
    ∃ recordedFor : Nat → Nat → Prop,
      (uploadSystem S.srv).Reaches (fun u a => ok u a ∧ Permits (S.Records recordedFor) u a)
        (atRest s₀) s ∧
      ∀ m f, recordedFor m f → ∃ u i job call k c,
        (uploadSystem S.srv).Reaches ok (atRest s₀) u ∧ ok u (.step i c) ∧
        u.task i = .waiting job call k ∧ S.Puts u.shared i call c m f := by
  induction hrun with
  | refl => exact ⟨fun _ _ => False, .refl, fun _ _ h => h.elim⟩
  | @tail u v a hreach hok hnext ih =>
      obtain ⟨R, hR, hmade⟩ := ih
      -- the recordings so far, and that of the last step
      let R' : Nat → Nat → Prop := fun m f => R m f ∨ ∃ i job call k c, a = .step i c ∧
        u.task i = .waiting job call k ∧ S.Puts u.shared i call c m f
      have hmore : ∀ m f, R m f → R' m f := fun _ _ => Or.inl
      refine ⟨R', (hR.mono ?_).tail ⟨hok, ?_⟩ hnext, ?_⟩
      · intro w b hb
        exact ⟨hb.1, hb.2.weaken (fun _ _ _ h => h.mono hmore) fun _ _ h => h.mono hmore⟩
      · cases a with
        | start i job => trivial
        | step i c =>
            cases hi : u.task i with
            | waiting job call k =>
                simp only [Permits, hi]
                exact fun m f hputs => Or.inr ⟨i, job, call, k, c, rfl, hi, hputs⟩
            | idle | finished | dropped => simp only [Permits, hi]
        | drop i =>
            cases hi : u.task i with
            | waiting job call k => simp only [Permits, hi, Records]
            | idle | finished | dropped => simp only [Permits, hi]
        | env e => trivial
      · rintro m f (hold | ⟨i, job, call, k, c, rfl, hi, hputs⟩)
        · exact hmade m f hold
        · exact ⟨u, i, job, call, k, c, hreach, hok, hi, hputs⟩

end Session

end Libfw
