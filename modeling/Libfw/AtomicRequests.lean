import Libfw.SessionCommits
import Libfw.SoloPrograms

/-!
# Session requests that run by themselves

One upload request served with no other beside it (`serveAlone`): its calls are
carried out one after the other, any of them may fail, and what it removes is
removed.

The server holds a local file in a session when every byte in the reported ranges
is the file's, and a temporary of full length without ranges is the whole file
(`Holds`).  A session of which this is so is `Trusted`.

* `served_trusted` — a request that offers only the file's bytes leaves a trusted
  session trusted, however it ends.
* `served_published` — a final request that is answered leaves the file under the
  target's name.
-/

namespace Libfw

open SteppedPrograms SoloPrograms Fs FsStorage PosixStore HalfOpenRanges

/-- Whether a request that removes a file does so. -/
def CleansUp : Op → Choice → Prop
  | .removeFile _, c => c = .go
  | _, _ => True

instance (op : Op) (c : Choice) : Decidable (CleansUp op c) := by
  cases op <;> unfold CleansUp <;> infer_instance

/-- A call of a request that runs by itself. -/
def atomicExec (srv : Server) : Exec Call Call.Ans Choice Store := fun call c s =>
  if CleansUp call.1 c then call.1.exec srv.serde 0 c s else none

/-- A request from its first call to its answer. -/
def serveAlone (srv : Server) (job : UploadJob) (calls : List Choice) (s : Store) :
    Option (Store × Except ApiError Reply) :=
  match runBy (atomicExec srv) (runUpload srv job Held.nothing) s calls with
  | some (t, some (r, _)) => some (t.release 0, r)
  | _ => none

/-- The calls such a request may see. -/
def cleanly (_ : Store) : Event Call UploadJob Choice Outside → Prop
  | .call _ _ call c => CleansUp call.1 c
  | _ => True

/-- The bytes of a file at the reported ranges; all of it, where the length is that of
the file and nothing is reported. -/
structure Holds (data : List UInt8) (ranges : List ChunkRange) (cs : List (Option UInt8)) :
    Prop where
  separated : Separated ranges
  right : ∀ k, Covers ranges k → ∃ b, data[k]? = some b ∧ cs[k]? = some (some b)
  whole : ranges = [] → cs.length = data.length → cs = data.map some

namespace Holds

variable {data : List UInt8} {ranges : List ChunkRange} {cs : List (Option UInt8)}

/-- A new temporary. -/
theorem nothing : Holds data [] [] := by
  refine ⟨separated_nil, fun k hk => absurd hk (not_covers_nil k), ?_⟩
  intro _ hlen
  rw [List.eq_nil_of_length_eq_zero hlen.symm]
  rfl

/-- A complete temporary, its sidecar removed. -/
theorem complete : Holds data [] (data.map some) :=
  ⟨separated_nil, fun k hk => absurd hk (not_covers_nil k), fun _ _ => rfl⟩

/-- A positional write of bytes of the file, and its range recorded. -/
theorem writeAt (h : Holds data ranges cs) {off : Nat} {buf : List UInt8} (hne : buf ≠ [])
    (hbuf : ∀ k b, buf[k]? = some b → data[off + k]? = some b) :
    Holds data (mergeRange ranges ⟨off, off + buf.length⟩) (PosixStore.writeAt cs off buf) := by
  have hlen : 0 < buf.length := List.length_pos_of_ne_nil hne
  have hnew : (⟨off, off + buf.length⟩ : ChunkRange).start <
      (⟨off, off + buf.length⟩ : ChunkRange).stop := Nat.lt_add_of_pos_right hlen
  have hcover := covers_mergeRange h.separated hnew
  refine ⟨separated_mergeRange h.separated hnew, ?_, ?_⟩
  · intro k hk
    by_cases hin : off ≤ k ∧ k < off + buf.length
    · obtain ⟨b, hb⟩ : ∃ b, buf[k - off]? = some b :=
        ⟨_, List.getElem?_eq_getElem (by omega)⟩
      have hd := hbuf _ b hb
      rw [Nat.add_sub_cancel' hin.1] at hd
      refine ⟨b, hd, ?_⟩
      rw [writeAt_getElem?_inside cs hin.1 hin.2, hb]
    · obtain ⟨b, hd, hc⟩ := h.right k (((hcover k).1 hk).resolve_right hin)
      refine ⟨b, hd, ?_⟩
      have hk : k < cs.length := (List.getElem?_eq_some_iff.1 hc).1
      by_cases hbefore : k < off
      · rw [writeAt_getElem?_before cs hne hbefore, if_pos hk]
        exact hc
      · rw [writeAt_getElem?_after cs (by omega)]
        exact hc
  · intro hnil _
    have : Covers (mergeRange ranges ⟨off, off + buf.length⟩) off :=
      (hcover off).2 (Or.inr ⟨Nat.le_refl _, hnew⟩)
    rw [hnil] at this
    exact absurd this (not_covers_nil _)

/-- What the checks of a final request leave: the whole file. -/
theorem eq_data (h : Holds data ranges cs) (hlen : cs.length = data.length)
    (hcovered : ranges ≠ [] → coveredBytes ranges = data.length) : cs = data.map some := by
  by_cases hnil : ranges = []
  · exact h.whole hnil hlen
  have hstop : ∀ r ∈ ranges, r.stop ≤ data.length := by
    intro r hr
    have hpos := h.separated.nonempty r hr
    obtain ⟨b, hb, -⟩ := h.right (r.stop - 1) ⟨r, hr, by unfold Span.Has; omega⟩
    have := (List.getElem?_eq_some_iff.1 hb).1
    omega
  have hle := (totalLength_le h.separated (fun r _ => Nat.zero_le r.start) hstop).1
  have htotal : totalLength ranges = data.length := by
    have hmod := hcovered hnil
    unfold coveredBytes at hmod
    have := Nat.mod_le (totalLength ranges) (2 ^ 64)
    omega
  apply List.ext_getElem?
  intro k
  by_cases hk : k < data.length
  · obtain ⟨b, hd, hc⟩ := h.right k (covers_of_total h.separated hstop htotal hk)
    rw [hc, List.getElem?_map, hd]
    rfl
  · rw [List.getElem?_eq_none (by omega),
      List.getElem?_eq_none (by rw [List.length_map]; omega)]

end Holds

namespace Session

variable (S : Session) (data : List UInt8)

/-! ## A trusted session -/

/-- The ranges a request reads from the sidecar. -/
def SidecarSays (s : Store) (ranges : List ChunkRange) : Prop :=
  (s.disk.entry S.blocks = .absent ∧ ranges = []) ∨
    ∃ m, s.disk.entry S.blocks = .file m ∧ (s.content m).ranges S.srv.serde = .ok ranges

/-- Whatever temporary there is holds the file, as far as is reported. -/
def Trusted (s : Store) : Prop :=
  ∀ f, s.disk.entry S.tmp = .file f →
    ∃ cs, s.content f = .bytes cs ∧ ∀ ranges, S.SidecarSays s ranges → Holds data ranges cs

/-- The file is complete under the target's name. -/
def Published (s : Store) : Prop :=
  ∃ f, s.disk.entry S.target = .file f ∧ s.content f = .bytes (data.map some)

/-- A request of the session that offers only the file's bytes and declares its size. -/
structure Legit (job : UploadJob) : Prop where
  has : S.Has job
  size : job.fileMeta.size = data.length
  offers : ∀ k b, Offers job k b → data[k]? = some b

/-- The temporary is open and holds the file, as far as the request knows. -/
structure Serving (f : Nat) (cs : List (Option UInt8)) (h : Held) (s : Store) : Prop where
  temp : s.disk.entry S.tmp = .file f
  bytes : s.content f = .bytes cs
  reported : ∀ ranges, S.SidecarSays s ranges → Holds data ranges cs
  known : Holds data h.ranges cs

variable {S data} {s t : Store} {f : Nat} {cs : List (Option UInt8)} {h : Held}

theorem Serving.trusted (hs : S.Serving data f cs h s) : S.Trusted data s := by
  intro g hg
  rw [hs.temp] at hg
  cases hg
  exact ⟨cs, hs.bytes, hs.reported⟩

/-- Without a temporary there is nothing to distrust. -/
theorem trusted_of_no_temp (h : ∀ f, s.disk.entry S.tmp ≠ .file f) : S.Trusted data s :=
  fun f hf => absurd hf (h f)

/-- The sidecar and its content are as before. -/
theorem SidecarSays.of_same {ranges : List ChunkRange}
    (hentry : t.disk.entry S.blocks = s.disk.entry S.blocks)
    (hcontent : ∀ m, s.disk.entry S.blocks = .file m → t.content m = s.content m)
    (h : S.SidecarSays t ranges) : S.SidecarSays s ranges := by
  rcases h with ⟨habsent, rfl⟩ | ⟨m, hm, hc⟩
  · exact Or.inl ⟨hentry ▸ habsent, rfl⟩
  · rw [hentry] at hm
    rw [hcontent m hm] at hc
    exact Or.inr ⟨m, hm, hc⟩

theorem SidecarSays.of_disk_eq {ranges : List ChunkRange} (h : t.disk = s.disk)
    (ht : S.SidecarSays t ranges) : S.SidecarSays s ranges := by
  refine ht.of_same (by rw [h]) ?_
  intro m _
  unfold Store.content
  rw [h]

theorem Trusted.of_disk_eq (hs : S.Trusted data s) (h : t.disk = s.disk) :
    S.Trusted data t := by
  intro f hf
  rw [h] at hf
  obtain ⟨cs, hc, hreports⟩ := hs f hf
  refine ⟨cs, ?_, fun ranges hr => hreports ranges (hr.of_disk_eq h)⟩
  unfold Store.content
  rw [h]
  exact hc

theorem Published.of_disk_eq (hs : S.Published data s) (h : t.disk = s.disk) :
    S.Published data t := by
  obtain ⟨f, hf, hc⟩ := hs
  refine ⟨f, by rw [h]; exact hf, ?_⟩
  unfold Store.content
  rw [h]
  exact hc

/-! ## One request -/

section Programs

variable {job : UploadJob} {ε α β : Type}

variable (S job) in
/-- The weakest precondition for a request of the session that runs by itself. -/
abbrev WpA (x : Fs ε α) (Q : Except ε α → Held → Store → Prop) : Held → Store → Prop :=
  Fs.Wp S.srv (aloneDiscipline 0 cleanly) 0 job x Q

/-- Nobody else moves. -/
theorem watching_alone {P : Store → Prop} :
    Watching (aloneDiscipline 0 cleanly) 0 job h P where
  stable := fun _ _ hP hrely _ => hrely rfl ▸ hP
  mark := fun _ _ _ _ _ => trivial
  self := fun _ _ _ => kept_alone

/-- A call, and what it does. -/
theorem wpA_await {op : Op} {Q : Except ε op.Ans → Held → Store → Prop}
    (hstep : ∀ c t a, CleansUp op c → op.exec S.srv.serde 0 c s = some (t, a) → Q (.ok a) h t) :
    S.WpA job (await op) Q h s := by
  apply wp_await.2
  intro s₁ hrely _
  obtain rfl := hrely rfl
  exact ⟨trivial, fun c t a hallow hexec => ⟨kept_alone, hstep c t a hallow hexec⟩⟩

/-- The same at the head of a `do` block. -/
theorem wpA_await_then {op : Op} {x : op.Ans → Fs ε β} {Q : Except ε β → Held → Store → Prop}
    (hstep : ∀ c t a, CleansUp op c → op.exec S.srv.serde 0 c s = some (t, a) →
      S.WpA job (x a) Q h t) :
    S.WpA job (await op >>= x) Q h s :=
  wp_seq.2 (wpA_await hstep)

/-- A removal, wanted or not. -/
theorem wpA_removeFile {p : FsPath} {P : Store → Prop}
    (hsame : (∀ m, s.disk.entry p ≠ .file m) → P s)
    (hgone : ∀ m, s.disk.entry p = .file m → P (s.unlink p)) :
    S.WpA job (await (.removeFile p) : Fs ε _) (fun r h' t => h' = h ∧ P t ∧ ∃ a, r = .ok a)
      h s := by
  apply wpA_await
  intro c t a hclean hexec
  obtain rfl : c = .go := hclean
  rcases exec_removeFile_go hexec with ⟨rfl, hne⟩ | ⟨m, hm, rfl⟩
  · exact ⟨rfl, hsame hne, a, rfl⟩
  · exact ⟨rfl, hgone m hm, a, rfl⟩

theorem wpA_removeBlocksSidecar {P : Store → Prop}
    (hsame : (∀ m, s.disk.entry S.blocks ≠ .file m) → P s)
    (hgone : ∀ m, s.disk.entry S.blocks = .file m → P (s.unlink S.blocks)) :
    S.WpA job (removeBlocksSidecar (some S.blocks))
      (fun r h' t => h' = h ∧ P t ∧ r = .ok ()) h s := by
  apply wp_then (wpA_removeFile hsame hgone)
  · intro a h' t hr
    obtain ⟨rfl, hP, -⟩ := hr
    exact ⟨rfl, hP, rfl⟩
  · exact fun e h t hr => nomatch hr.2.2

/-! ### Opening the sink -/

theorem Trusted.mkdirs {parent : FsPath} (hs : S.Trusted data s)
    (hparent : S.target.parent = some parent) : S.Trusted data (s.mkdirs (ancestors parent)) := by
  have hblocks : (s.mkdirs (ancestors parent)).disk.entry S.blocks = s.disk.entry S.blocks :=
    (Disk.mkdirs_entry _).trans
      (if_neg fun hmem => not_mem_ancestors hparent S.length_le_blocks hmem.1)
  intro f hf
  obtain ⟨cs, hc, htells⟩ := hs f ((Disk.mkdirs_entry_file _).1 hf)
  exact ⟨cs, hc, fun ranges hr => htells ranges (hr.of_same hblocks fun _ _ => rfl)⟩

theorem wpA_prepare (hs : S.Trusted data s) :
    S.WpA job (prepare S.srv.root S.path) (fun r h' s => h' = h ∧ S.Trusted data s ∧
      ∀ full, r = .ok full → resolve S.srv.root S.path = .ok full) h s := by
  apply wp_prepare watching_alone _ hs
  intro s full parent hfull hparent hs _
  rw [target_of_resolve hfull] at hparent
  exact ⟨trivial, kept_alone, hs.mkdirs hparent⟩

/-- However it is got, the open file is the temporary: an old one, or an empty one. -/
theorem wpA_openSessionTemp {mode : WriteMode} {tmpExists : Bool} (hs : S.Trusted data s) :
    S.WpA job (openSessionTemp S.target S.tmp S.path mode tmpExists)
      (fun r h' t => h' = h ∧ match r with
        | .ok f => t.disk.entry S.tmp = .file f ∧ (tmpExists = true → S.Trusted data t) ∧
            (tmpExists = false → t.content f = .bytes [])
        | .error _ => S.Trusted data t) h s := by
  unfold openSessionTemp
  by_cases hexists : tmpExists = true
  · rw [if_pos hexists]
    apply watching_alone.look_then hs rfl
    intro s c a hs _ _ hexec
    rcases (exec_openExisting hexec).2 with ⟨e, rfl⟩ | ⟨f, hf, rfl⟩
    · exact ⟨rfl, hs⟩
    · exact ⟨rfl, hf, fun _ => hs, fun hnew => nomatch hexists.symm.trans hnew⟩
  · rw [if_neg hexists]
    have hnew : S.WpA job
        (do refuseExisting S.target S.path mode
            other (← await (.createNew S.tmp)))
        (fun r h' t => h' = h ∧ match r with
          | .ok f => t.disk.entry S.tmp = .file f ∧ (tmpExists = true → S.Trusted data t) ∧
              (tmpExists = false → t.content f = .bytes [])
          | .error _ => S.Trusted data t) h s := by
      apply wp_then (wp_refuseExisting watching_alone hs)
      · intro _ h' s hr
        obtain ⟨rfl, hs⟩ := hr
        apply wpA_await_then
        intro c t a _ hexec
        rcases exec_createNew hexec with ⟨rfl, e, rfl⟩ | ⟨habsent, rfl, rfl⟩
        · exact ⟨rfl, hs⟩
        · refine ⟨rfl, Disk.create_entry_self _ _, fun hold => absurd hold hexists, ?_⟩
          intro _
          unfold Store.content Store.create
          rw [Disk.create_content_next]
      · exact fun e h' t hr => hr
    cases mode with
    | create => exact hnew
    | overwrite => exact hnew
    | resume offset => exact ⟨rfl, hs⟩

/-- What a request reads is what the sidecar says. -/
theorem wpA_readRanges {P : Store → Prop} (hs : P s) :
    S.WpA job (readRanges S.srv.serde S.blocks)
      (fun r h' t => h' = h ∧ P t ∧ ∀ ranges, r = .ok ranges → S.SidecarSays t ranges) h s := by
  unfold readRanges
  apply watching_alone.look_then hs rfl
  intro s c a hs _ _ hexec
  rcases (exec_readToString hexec).2 with ⟨e, rfl, habsent⟩ | ⟨m, hm, rfl⟩
  · by_cases hnf : e.notFound = true
    · simp only [hnf, if_true]
      refine ⟨rfl, hs, ?_⟩
      intro ranges hr
      cases hr
      exact Or.inl ⟨habsent hnf, rfl⟩
    · simp only [hnf]
      exact ⟨rfl, hs, fun ranges hr => nomatch hr⟩
  · apply wp_lift.2
    refine ⟨rfl, hs, ?_⟩
    intro ranges hr
    refine Or.inr ⟨m, hm, ?_⟩
    cases hc : (s.content m).ranges S.srv.serde with
    | error e =>
        rw [hc] at hr
        cases hr
    | ok rs =>
        rw [hc] at hr
        cases hr
        rfl

/-- A new temporary, once the stale sidecar is gone. -/
theorem serving_new (htemp : s.disk.entry S.tmp = .file f) (hc : s.content f = .bytes [])
    (hgone : ∀ m, s.disk.entry S.blocks ≠ .file m) (hranges : h.ranges = []) :
    S.Serving data f [] h s := by
  refine ⟨htemp, hc, ?_, hranges ▸ Holds.nothing⟩
  intro ranges hr
  rcases hr with ⟨-, rfl⟩ | ⟨m, hm, -⟩
  · exact Holds.nothing
  · exact absurd hm (hgone m)

/-- `write_stream_session` hands over a sink that serves. -/
theorem wpA_writeStreamSession {mode : WriteMode} (hs : S.Trusted data s) :
    S.WpA job (writeStreamSession S.srv.serde S.srv.root S.path S.id S.owner mode)
      (fun r h t => match r with
        | .ok sink => ∃ f cs, sink = S.sink f mode ∧ S.Serving data f cs h t
        | .error _ => S.Trusted data t) h s := by
  unfold writeStreamSession
  apply wp_then (wpA_prepare hs) _ (fun e h t hr => hr.2.1)
  intro full h₁ s hr
  obtain ⟨-, hs, hfull⟩ := hr
  obtain rfl := target_of_resolve (hfull full rfl)
  apply wp_then (watching_alone.look_keep hs rfl) _ (fun e h t hr => nomatch hr.2.2)
  intro a h₂ s hr
  obtain ⟨-, hs, -⟩ := hr
  apply wp_other_then _ (fun e _ => hs)
  intro tmpExists _
  apply wp_then (wpA_openSessionTemp hs) _ (fun e h t hr => hr.2)
  intro f h₃ s hr
  obtain ⟨-, htemp, hold, hnew⟩ := hr
  apply wp_update_then.2
  apply wpA_await_then
  intro c t u _ hexec
  obtain ⟨-, rfl⟩ := exec_lock hexec
  cases tmpExists with
  | true =>
      have htrust : S.Trusted data (s.acquire S.tmp 0) := (hold rfl).of_disk_eq rfl
      obtain ⟨cs, hc, htells⟩ := htrust f htemp
      apply wp_then (wpA_readRanges (P := fun t => t = s.acquire S.tmp 0) rfl)
      · intro ranges h₄ t hr
        obtain ⟨-, rfl, hsaid⟩ := hr
        apply wp_update_then.2
        exact ⟨f, cs, rfl, htemp, hc, htells, htells ranges (hsaid ranges rfl)⟩
      · intro e h₄ t hr
        obtain ⟨-, rfl, -⟩ := hr
        exact htrust
  | false =>
      have hempty : (s.acquire S.tmp 0).content f = .bytes [] := hnew rfl
      simp only [Bool.false_eq_true, if_false]
      apply wp_then (wpA_removeBlocksSidecar
        (P := fun t => ∀ h : Held, h.ranges = [] → S.Serving data f [] h t) _ _)
      · intro _ h₄ t hr
        obtain ⟨-, hnone, -⟩ := hr
        exact ⟨f, [], rfl, hnone _ rfl⟩
      · exact fun e h t hr => nomatch hr.2.2
      · intro hne h hranges
        exact serving_new htemp hempty hne hranges
      · intro m _ h hranges
        have hkept : ((s.acquire S.tmp 0).unlink S.blocks).content f = .bytes [] := hempty
        apply serving_new _ hkept _ hranges
        · exact (Disk.unlink_entry_ne _ _ S.names.blocks_ne_tmp.symm).trans htemp
        · intro g hg
          unfold Store.unlink at hg
          rw [Disk.unlink_entry_self] at hg
          cases hg

/-! ### Writing -/

/-- The sidecar is replaced, the temporary stays; a failure leaves both in place. -/
theorem wpA_persistRanges {ranges : List ChunkRange} (htemp : s.disk.entry S.tmp = .file f)
    (hc : s.content f = .bytes cs) :
    S.WpA job (persistRanges S.blocks ranges)
      (fun r h' t => h' = h ∧ t.disk.entry S.tmp = .file f ∧ ∀ u, r = .ok u →
        t.content f = .bytes cs ∧ ∀ rs, S.SidecarSays t rs → rs = ranges) h s := by
  -- writing the sibling does not touch the temporary
  have hsibling : ∀ {c : Content} {t : Store}, ReplacedAt S.persist c s t →
      t.disk.entry S.tmp = .file f ∧ t.content f = .bytes cs := by
    intro c t hrep
    obtain ⟨m, hm, -, hwhere, hentry, hcontent, -⟩ := hrep.file
    have hfm : f ≠ m := by
      intro heq
      subst heq
      rcases hwhere with hold | hnew
      · exact S.names.persist_ne_tmp (s.disk.single hold htemp)
      · exact Nat.lt_irrefl _ (hnew ▸ s.disk.entry_lt htemp)
    rw [hentry _ S.names.persist_ne_tmp.symm, hcontent f hfm]
    exact ⟨htemp, hc⟩
  unfold persistRanges
  apply wpA_await_then
  intro c t a _ hexec
  rcases exec_writeRanges hexec with ⟨e, rfl, rfl | htorn⟩ | ⟨rfl, hrep⟩
  · exact wp_other_then (fun _ hr => nomatch hr) fun _ _ => ⟨rfl, htemp, fun _ hr => nomatch hr⟩
  · exact wp_other_then (fun _ hr => nomatch hr)
      fun _ _ => ⟨rfl, (hsibling htorn).1, fun _ hr => nomatch hr⟩
  obtain ⟨htemp', hc'⟩ := hsibling hrep
  apply wp_other_then _ (fun _ hr => nomatch hr)
  intro _ _
  apply wpA_await_then
  intro c' u b _ hexec'
  rcases exec_rename hexec' with ⟨rfl, e, rfl⟩ | ⟨m, hm, -, rfl, rfl⟩
  · exact ⟨rfl, htemp', fun _ hr => nomatch hr⟩
  have hkept : (t.rename S.persist S.blocks).disk.entry S.tmp = .file f :=
    (Disk.rename_entry_ne _ _ _ S.names.persist_ne_tmp.symm S.names.blocks_ne_tmp.symm).trans
      htemp'
  refine ⟨rfl, hkept, ?_⟩
  intro _ _
  refine ⟨hc', ?_⟩
  intro rs hr
  obtain ⟨m', hm', hcm', -⟩ := hrep.file
  have hblocks : (t.rename S.persist S.blocks).disk.entry S.blocks = .file m' :=
    (Disk.rename_entry_target _ _ _).trans hm'
  have hsame : (t.rename S.persist S.blocks).content m' = .blocks ranges := hcm'
  rcases hr with ⟨habsent, -⟩ | ⟨g, hg, hcg⟩
  · exact nomatch habsent.symm.trans hblocks
  · cases hblocks.symm.trans hg
    cases (congrArg (Content.ranges S.srv.serde) hsame).symm.trans hcg
    rfl

/-- The range just written is recorded: the request serves on. -/
theorem wpA_recordRange {off : Nat} {buf : List UInt8} {old : List (Option UInt8)}
    (hne : buf ≠ []) (hbuf : ∀ k b, buf[k]? = some b → data[off + k]? = some b)
    (htemp : s.disk.entry S.tmp = .file f)
    (hc : s.content f = .bytes (PosixStore.writeAt old off buf))
    (htells : ∀ ranges, S.SidecarSays s ranges → Holds data ranges old) :
    S.WpA job (FsSink.recordRange S.srv.serde S.blocks ⟨off, off + buf.length⟩)
      (fun r h' t => t.disk.entry S.tmp = .file f ∧ ∀ u, r = .ok u →
        S.Serving data f (PosixStore.writeAt old off buf) h' t) h s := by
  unfold FsSink.recordRange
  apply wp_then (wpA_readRanges (P := fun t => t = s) rfl)
  · intro current h₁ t hr
    obtain ⟨rfl, rfl, hcurrent⟩ := hr
    have hholds := (htells current (hcurrent current rfl)).writeAt hne hbuf
    apply wp_then (wpA_persistRanges htemp hc)
    · intro _ h₂ t hr
      obtain ⟨rfl, htemp', hok⟩ := hr
      obtain ⟨hc', htells'⟩ := hok () rfl
      apply wp_update.2
      refine ⟨htemp', fun _ _ => ⟨htemp', hc', ?_, hholds⟩⟩
      intro rs hrs
      rw [htells' rs hrs]
      exact hholds
    · intro e h₂ t hr
      exact ⟨hr.2.1, fun u hu => nomatch hu⟩
  · intro e h₁ t hr
    obtain ⟨-, rfl, -⟩ := hr
    exact ⟨htemp, fun u hu => nomatch hu⟩

/-- A positional write of the file's bytes; a failure leaves the temporary to be
removed. -/
theorem wpA_writeAt {mode : WriteMode} {off : Nat} {buf : List UInt8} (hne : buf ≠ [])
    (hbuf : ∀ k b, buf[k]? = some b → data[off + k]? = some b)
    (hs : S.Serving data f cs h s) :
    S.WpA job ((S.sink f mode).writeAt S.srv.serde off buf)
      (fun r h' t => t.disk.entry S.tmp = .file f ∧ ∀ u, r = .ok u →
        off + buf.length ≤ MAX_FILE_SIZE ∧
          S.Serving data f (PosixStore.writeAt cs off buf) h' t) h s := by
  unfold FsSink.writeAt
  apply wpA_await_then
  intro c t a _ hexec
  rcases exec_writeAt hexec with ⟨e, n, rfl, rfl⟩ | ⟨rfl, hfits, rfl⟩ | ⟨e, rfl, rfl⟩
  · exact ⟨hs.temp, fun u hu => nomatch hu⟩
  · have hexact : satAdd off buf.length = off + buf.length := by
      unfold satAdd MAX_FILE_SIZE at *
      omega
    apply wp_update_then.2
    simp only [sink, hexact]
    have htemp : (s.write f (written S.srv.serde off buf)).disk.entry S.tmp = .file f := hs.temp
    have hbytes : (s.write f (written S.srv.serde off buf)).content f =
        .bytes (PosixStore.writeAt cs off buf) := by
      rw [write_content_self, hs.bytes]
      rfl
    apply wp_weaken (wpA_recordRange hne hbuf htemp hbytes _)
    · intro r h' t hr
      exact ⟨hr.1, fun u hu => ⟨hfits, hr.2 u hu⟩⟩
    · -- the sidecar is another file than the temporary
      intro ranges hr
      apply hs.reported ranges
      have hentry : (s.write f (written S.srv.serde off buf)).disk.entry S.blocks =
          s.disk.entry S.blocks := rfl
      apply SidecarSays.of_same hentry _ hr
      intro m hm
      apply write_content_ne
      intro heq
      exact S.names.blocks_ne_tmp (s.disk.single hm (heq ▸ hs.temp))
  · exact ⟨hs.temp, fun u hu => nomatch hu⟩

variable (S data) in
/-- Before each batch of a body: the request serves, and `rest` is what the file holds
from the next position on. -/
structure Feeding (base n : Nat) (rest : List UInt8) (f : Nat) (h : Held) (s : Store) :
    Prop where
  serving : ∃ cs, S.Serving data f cs h s
  fits : base + n < 2 ^ 64
  next : ∀ k b, rest[k]? = some b → data[base + n + k]? = some b

/-- One batch. -/
theorem wpA_writeAtBatch {mode : WriteMode} {base n : Nat} {buf rest : List UInt8} {size : Nat}
    (hne : buf ≠ []) (hs : S.Feeding data base n (buf ++ rest) f h s) :
    S.WpA job (writeAtBatch S.srv (S.sink f mode) base size n buf)
      (fun r h t => match r with
        | .ok _ => S.Feeding data base (satAdd n buf.length) rest f h t
        | .error _ => t.disk.entry S.tmp = .file f) h s := by
  obtain ⟨cs, hserving⟩ := hs.serving
  have habs : satAdd base n = base + n := by
    have := hs.fits
    unfold satAdd
    omega
  have hbuf : ∀ k b, buf[k]? = some b → data[base + n + k]? = some b := by
    intro k b hb
    apply hs.next
    rw [List.getElem?_append_left (List.getElem?_eq_some_iff.1 hb).1]
    exact hb
  simp only [writeAtBatch, habs]
  by_cases hlimit : S.srv.maxUploadSize < satAdd (base + n) buf.length
  · rw [if_pos hlimit]
    exact hserving.temp
  rw [if_neg hlimit]
  by_cases hsize : size < satAdd (base + n) buf.length
  · rw [if_pos hsize]
    exact hserving.temp
  rw [if_neg hsize]
  apply wp_orElse.2 (wp_weaken (wpA_writeAt hne hbuf hserving) _)
  intro r h' t hr
  obtain ⟨htemp, hok⟩ := hr
  cases r with
  | error e => exact htemp
  | ok u =>
      obtain ⟨hfits, hserving'⟩ := hok u rfl
      unfold MAX_FILE_SIZE at hfits
      have hexact : satAdd n buf.length = n + buf.length := by
        unfold satAdd
        omega
      refine ⟨⟨_, hserving'⟩, by omega, ?_⟩
      intro k b hb
      have hshift : (buf ++ rest)[buf.length + k]? = some b := by
        rw [List.getElem?_append_right (Nat.le_add_right ..), Nat.add_sub_cancel_left]
        exact hb
      rw [hexact, show base + (n + buf.length) + k = base + n + (buf.length + k) by omega]
      exact hs.next _ b hshift

/-- The body of a data chunk: when it breaks off, what was written counts; any other
failure leaves the temporary to be removed. -/
theorem wpA_sessionBody {mode : WriteMode} {key : SessionKey} {base size : Nat}
    (hoffers : ∀ k b, Offers job k b → data[k]? = some b)
    (hkey : job.session = some key) (hprobe : key.statusProbe = false)
    (hbase : baseOffset job.offsetHdr = .ok base) (hs : S.Serving data f cs h s) :
    S.WpA job (streamBody (writeAtBatch S.srv (S.sink f mode) base size) job.body)
      (fun r h t => match r with
        | .ok _ => ∃ cs, S.Serving data f cs h t
        | .error e => t.disk.entry S.tmp = .file f ∧
            (e.disconnected = true → S.Trusted data t)) h s := by
  apply wp_weaken (wp_streamBody (I := fun n rest h s => S.Feeding data base n rest f h s)
    (E := fun e _ t => t.disk.entry S.tmp = .file f ∧
      (e.disconnected = true → S.Trusted data t)) _ _ _ job.body _)
  · intro r h t hr
    cases r with
    | ok n => exact hr.serving
    | error e => exact hr
  · intro n rest h s hI
    apply wp_weaken (watching_alone.look_keep hI rfl)
    intro r h' t hr
    obtain ⟨rfl, hI, a, rfl⟩ := hr
    exact ⟨rfl, hI⟩
  · intro n e h s hI
    obtain ⟨cs, hserving⟩ := hI.serving
    exact ⟨hserving.temp, fun _ => hserving.trusted⟩
  · intro n buf rest h s hne hI
    apply wp_weaken (wpA_writeAtBatch hne hI)
    intro r h t hr
    cases r with
    | ok u => exact hr
    | error e => exact ⟨hr, fun hdisc => nomatch hdisc⟩
  · refine ⟨⟨cs, hs⟩, baseOffset_lt hbase, ?_⟩
    intro k b hb
    apply hoffers _ b
    refine ⟨base, key, hbase, hkey, hprobe, by omega, ?_⟩
    rw [show base + 0 + k - base = k by omega]
    exact hb

/-! ### Ending -/

/-- Aborting removes the temporary. -/
theorem wpA_abortWith {mode : WriteMode} {e : ApiError} (htemp : s.disk.entry S.tmp = .file f) :
    S.WpA job (abortWith (S.sink f mode) e : Fs ApiError α)
      (fun r _ t => r = .error e ∧ S.Trusted data t) h s := by
  unfold abortWith FsSink.abort
  apply wp_seq.2
  apply wp_attempt.2
  apply wp_then (wpA_removeFile (P := fun t => ∀ g, t.disk.entry S.tmp ≠ .file g) _ _)
  · intro a h' t hr
    obtain ⟨-, hgone, -⟩ := hr
    apply wp_weaken (wpA_removeBlocksSidecar (P := fun t => ∀ g, t.disk.entry S.tmp ≠ .file g) _ _)
    · intro r h'' u hr
      exact ⟨rfl, trusted_of_no_temp hr.2.1⟩
    · exact fun _ => hgone
    · exact fun m _ g hg => hgone g (unlink_entry_file hg)
  · exact fun e h t hr => nomatch hr.2.2
  · exact fun hne => absurd htemp (hne f)
  · intro m _ g hg
    unfold Store.unlink at hg
    rw [Disk.unlink_entry_self] at hg
    cases hg

/-- A complete temporary whose sidecar is gone. -/
theorem trusted_complete (htemp : s.disk.entry S.tmp = .file f)
    (hc : s.content f = .bytes (data.map some)) (hgone : ∀ m, s.disk.entry S.blocks ≠ .file m) :
    S.Trusted data s := by
  intro g hg
  cases htemp.symm.trans hg
  refine ⟨_, hc, ?_⟩
  intro ranges hr
  rcases hr with ⟨-, rfl⟩ | ⟨m, hm, -⟩
  · exact Holds.complete
  · exact absurd hm (hgone m)

variable (S data) in
/-- The temporary is complete and trusted, whatever happens to its request. -/
structure Complete (f : Nat) (s : Store) : Prop where
  temp : s.disk.entry S.tmp = .file f
  bytes : s.content f = .bytes (data.map some)
  trusted : S.Trusted data s

/-- Create mode refuses a target that has appeared. -/
theorem wpA_refuseAppeared {mode : WriteMode} (hs : S.Complete data f s) :
    S.WpA job ((S.sink f mode).refuseAppeared S.tmp)
      (fun r _ t => S.Trusted data t ∧ ∀ u, r = .ok u → S.Complete data f t) h s := by
  unfold FsSink.refuseAppeared
  by_cases hmode : (S.sink f mode).mode = .create
  · rw [if_pos hmode]
    apply wp_then (watching_alone.look_keep hs rfl)
    · intro a h' t hr
      obtain ⟨rfl, hs, -⟩ := hr
      apply wp_other_then
      · intro b _
        by_cases hb : b = true
        · rw [if_pos hb]
          apply wp_then (wpA_removeFile (P := S.Trusted data) (fun _ => hs.trusted) _)
          · intro a h'' u hr
            exact ⟨hr.2.1, fun u hu => nomatch hu⟩
          · exact fun e h t hr => nomatch hr.2.2
          · intro m _
            apply trusted_of_no_temp
            intro g hg
            unfold Store.unlink at hg
            rw [Disk.unlink_entry_self] at hg
            cases hg
        · rw [if_neg hb]
          exact ⟨hs.trusted, fun _ _ => hs⟩
      · exact fun e _ => ⟨hs.trusted, fun u hu => nomatch hu⟩
    · exact fun e h t hr => nomatch hr.2.2
  · rw [if_neg hmode]
    exact ⟨hs.trusted, fun _ _ => hs⟩

/-- The complete temporary takes the target's name. -/
theorem wpA_moveIntoPlace {mode : WriteMode} (hs : S.Complete data f s) :
    S.WpA job ((S.sink f mode).moveIntoPlace S.tmp)
      (fun r _ t => S.Trusted data t ∧ ∀ u, r = .ok u → S.Published data t) h s := by
  unfold FsSink.moveIntoPlace
  apply wpA_await_then
  intro c t a _ hexec
  rcases exec_rename hexec with ⟨rfl, e, rfl⟩ | ⟨m, hm, -, rfl, rfl⟩
  · exact wp_other_then (fun _ hr => nomatch hr)
      fun _ _ => ⟨hs.trusted, fun u hu => nomatch hu⟩
  apply wp_other_then _ (fun _ hr => nomatch hr)
  intro _ _
  have hpublished : S.Published data (s.rename S.tmp S.target) :=
    ⟨f, (Disk.rename_entry_target _ _ _).trans hs.temp, hs.bytes⟩
  have htrusted : S.Trusted data (s.rename S.tmp S.target) := by
    apply trusted_of_no_temp
    intro g hg
    unfold Store.rename at hg
    rw [Disk.rename_entry_source _ _ _ S.names.tmp_ne_target] at hg
    cases hg
  cases (S.sink f mode).target.parent with
  | none => exact ⟨htrusted, fun _ _ => hpublished⟩
  | some parent =>
      apply wp_then (watching_alone.look_keep
        (P := fun t => S.Trusted data t ∧ S.Published data t) ⟨htrusted, hpublished⟩ rfl)
      · intro a h' t hr
        obtain ⟨-, hs, -⟩ := hr
        exact ⟨hs.1, fun _ _ => hs.2⟩
      · exact fun e h t hr => nomatch hr.2.2

/-- A commit that is answered has published the file; one that fails has left the
complete temporary or nothing. -/
theorem wpA_commit {mode : WriteMode} (htemp : s.disk.entry S.tmp = .file f)
    (hc : s.content f = .bytes (data.map some)) :
    S.WpA job ((S.sink f mode).commit S.srv.etag)
      (fun r _ t => S.Trusted data t ∧ ∀ file, r = .ok file → S.Published data t) h s := by
  unfold FsSink.commit
  apply wp_then (wpA_removeBlocksSidecar (P := S.Complete data f) _ _)
  · intro _ h₁ t hr
    obtain ⟨-, hs, -⟩ := hr
    apply wp_then (watching_alone.look_keep hs rfl) _ (fun e h t hr => nomatch hr.2.2)
    intro a h₂ t hr
    obtain ⟨-, hs, -⟩ := hr
    apply wp_other_then _ (fun e _ => ⟨hs.trusted, fun file hf => nomatch hf⟩)
    intro _ _
    apply wp_then (watching_alone.look_keep hs rfl) _ (fun e h t hr => nomatch hr.2.2)
    intro a h₃ t hr
    obtain ⟨-, hs, -⟩ := hr
    apply wp_other_then _ (fun e _ => ⟨hs.trusted, fun file hf => nomatch hf⟩)
    intro _ _
    have hpublish : S.WpA job ((S.sink f mode).publish S.tmp)
        (fun r _ t => S.Trusted data t ∧ ∀ u, r = .ok u → S.Published data t) h₃ t := by
      apply wp_then (wpA_refuseAppeared hs)
      · intro u h₄ t hr
        exact wpA_moveIntoPlace (hr.2 u rfl)
      · exact fun e h t hr => ⟨hr.1, fun u hu => nomatch hu⟩
    apply wp_then hpublish
    · intro u h₄ t hr
      apply watching_alone.look_then (P := fun t => S.Trusted data t ∧ S.Published data t)
        ⟨hr.1, hr.2 u rfl⟩ rfl
      intro t c a hs _ _ _
      apply wp_other_then _ (fun e _ => ⟨hs.1, fun file hf => nomatch hf⟩)
      intro stat _
      exact ⟨hs.1, fun _ _ => hs.2⟩
    · exact fun e h t hr => ⟨hr.1, fun file hf => nomatch hf⟩
  · exact fun e h t hr => nomatch hr.2.2
  · intro hne
    exact ⟨htemp, hc, trusted_complete htemp hc hne⟩
  · intro m _
    have htemp' : (s.unlink S.blocks).disk.entry S.tmp = .file f :=
      (Disk.unlink_entry_ne _ _ S.names.blocks_ne_tmp.symm).trans htemp
    have hc' : (s.unlink S.blocks).content f = .bytes (data.map some) := hc
    refine ⟨htemp', hc', trusted_complete htemp' hc' ?_⟩
    intro g hg
    unfold Store.unlink at hg
    rw [Disk.unlink_entry_self] at hg
    cases hg

/-- The ranges in memory. -/
theorem wpA_receivedRanges :
    S.WpA job (orElse .storage FsSink.receivedRanges : Fs ApiError (List ChunkRange))
      (fun r h' t => r = .ok h.ranges ∧ h' = h ∧ t = s) h s := ⟨rfl, rfl, rfl⟩

/-- The final request. -/
theorem wpA_finishSession {mode : WriteMode} (hs : S.Serving data f cs h s) :
    S.WpA job (finishSession S.srv (S.sink f mode) data.length)
      (fun r _ t => S.Trusted data t ∧ ∀ reply, r = .ok reply → S.Published data t) h s := by
  have habort : ∀ {e h}, S.WpA job (abortWith (S.sink f mode) e : Fs ApiError Reply)
      (fun r _ t => S.Trusted data t ∧ ∀ reply, r = .ok reply → S.Published data t) h s := by
    intro e h
    apply wp_weaken (wpA_abortWith hs.temp)
    intro r h' t hr
    obtain ⟨rfl, htrusted⟩ := hr
    exact ⟨htrusted, fun reply hreply => nomatch hreply⟩
  unfold finishSession
  apply wp_orElse_then (R := fun r h' t => h' = h ∧ t = s ∧ ∀ n, r = .ok n → n = cs.length)
  · unfold FsSink.len
    apply watching_alone.look_then (P := fun t => t = s) rfl rfl
    intro t c a ht _ _ hexec
    subst ht
    apply wp_other.2
    refine ⟨rfl, rfl, ?_⟩
    intro n hn
    cases a with
    | error e => cases hn
    | ok m =>
        cases hn
        rw [(exec_len hexec).2 n rfl, sink, hs.bytes]
        rfl
  · intro n h' t hr
    obtain ⟨rfl, rfl, hn⟩ := hr
    obtain rfl := hn n rfl
    by_cases hsize : cs.length = data.length
    · rw [if_neg (not_not.2 hsize)]
      apply wp_then wpA_receivedRanges
      · intro received h'' u hr
        obtain ⟨hreceived, rfl, rfl⟩ := hr
        cases hreceived
        by_cases hmissing : h''.ranges ≠ [] ∧ coveredBytes h''.ranges ≠ data.length
        · rw [if_pos hmissing]
          exact habort
        · rw [if_neg hmissing]
          have hwhole : cs = data.map some :=
            hs.known.eq_data hsize fun hne => by_contra fun hc => hmissing ⟨hne, hc⟩
          unfold commitReply
          apply wp_orElse_then (wpA_commit hs.temp (hwhole ▸ hs.bytes))
          · exact fun file h u hr => ⟨hr.1, fun _ _ => hr.2 file rfl⟩
          · exact fun e h u hr => ⟨hr.1, fun reply hreply => nomatch hreply⟩
      · exact fun e h u hr => nomatch hr.1
    · rw [if_pos hsize]
      exact habort
  · intro e h' t hr
    obtain ⟨-, rfl, -⟩ := hr
    exact ⟨hs.trusted, fun reply hreply => nomatch hreply⟩

/-- What a request promises, however it ends. -/
theorem wpA_serveSession {mode : WriteMode} {key : SessionKey} {base : Nat}
    (hlegit : S.Legit data job) (hkey : job.session = some key)
    (hbase : baseOffset job.offsetHdr = .ok base) (hs : S.Serving data f cs h s) :
    S.WpA job (serveSession S.srv job key base (S.sink f mode))
      (fun r _ t => S.Trusted data t ∧ (key.statusProbe = false → job.finalChunk = true →
        ∀ reply, r = .ok reply → S.Published data t)) h s := by
  unfold serveSession
  cases hprobe : key.statusProbe with
  | true =>
      rw [if_pos rfl]
      apply wp_then wpA_receivedRanges
      · intro ranges h' t hr
        obtain ⟨-, rfl, rfl⟩ := hr
        exact ⟨hs.trusted, fun hp => by cases hp⟩
      · exact fun e h' t hr => by cases hr.1
  | false =>
      rw [if_neg Bool.false_ne_true]
      apply wp_seq.2
      apply wp_attempt.2
      apply wp_weaken (wpA_sessionBody hlegit.offers hkey hprobe hbase hs)
      intro r h' t hr
      cases r with
      | error e =>
          obtain ⟨htemp, hkeep⟩ := hr
          by_cases hdisc : e.disconnected = true
          · simp only [Then, hdisc, if_true]
            exact ⟨hkeep hdisc, fun _ _ reply hreply => by cases hreply⟩
          · simp only [Then, hdisc]
            apply wp_weaken (wpA_abortWith htemp)
            intro r h'' u hr
            obtain ⟨rfl, htrusted⟩ := hr
            exact ⟨htrusted, fun _ _ reply hreply => by cases hreply⟩
      | ok n =>
          obtain ⟨cs', hs'⟩ := hr
          by_cases hfinal : job.finalChunk = true
          · simp only [Then, hfinal, if_true, hlegit.size]
            apply wp_weaken (wpA_finishSession hs')
            exact fun r h'' u hr => ⟨hr.1, fun _ _ => hr.2⟩
          · simp only [Then, hfinal]
            exact ⟨hs'.trusted, fun _ hf => by cases hf⟩

/-- A request of the session, from its beginning. -/
theorem wpA_runUpload {key : SessionKey} (hlegit : S.Legit data job)
    (hkey : job.session = some key) (hs : S.Trusted data s) :
    S.WpA job (runUpload S.srv job)
      (fun r _ t => S.Trusted data t ∧ (key.statusProbe = false → job.finalChunk = true →
        ∀ reply, r = .ok reply → S.Published data t)) Held.nothing s := by
  obtain ⟨hpath, probe, hown⟩ := hlegit.has
  obtain rfl : (⟨S.id, S.owner, probe⟩ : SessionKey) = key := Option.some.inj (hown.symm.trans hkey)
  simp only [runUpload, hkey, uploadSession, hpath]
  apply wp_lift_then
  · intro base hbase
    apply wp_orElse_then (wpA_writeStreamSession hs)
    · intro sink h' t hr
      obtain ⟨f, cs, rfl, hserving⟩ := hr
      exact wpA_serveSession hlegit hkey hbase hserving
    · exact fun e h' t hr => ⟨hr, fun _ _ reply hreply => by cases hreply⟩
  · exact fun e _ => ⟨hs, fun _ _ reply hreply => by cases hreply⟩

end Programs

/-! ## Served alone -/

section Served

variable {job : UploadJob} {calls : List Choice} {r : Except ApiError Reply}

theorem served_of_wp {P : Except ApiError Reply → Store → Prop}
    (hwp : S.WpA job (runUpload S.srv job) (fun r _ t => P r t) Held.nothing s)
    (hserve : serveAlone S.srv job calls s = some (t, r)) :
    ∃ u, P r u ∧ t = u.release 0 := by
  unfold serveAlone at hserve
  split at hserve
  · next u r' h' hrun =>
      cases hserve
      refine ⟨u, ?_, rfl⟩
      apply runBy_of_alone (M := uploadSystem S.srv) (r := (r, h')) _ hwp hrun
      intro call c s t a hexec
      unfold atomicExec at hexec
      split at hexec
      · next hclean => exact ⟨hclean, hexec⟩
      · cases hexec
  · cases hserve

/-- **Step lemma.**  A legitimate request leaves a trusted session trusted. -/
theorem served_trusted (hlegit : S.Legit data job) (hs : S.Trusted data s)
    (hserve : serveAlone S.srv job calls s = some (t, r)) : S.Trusted data t := by
  obtain ⟨-, probe, hkey⟩ := hlegit.has
  obtain ⟨u, hu, rfl⟩ := served_of_wp (wpA_runUpload hlegit hkey hs) hserve
  exact hu.1.of_disk_eq rfl

/-- A final request that is answered has published the file. -/
theorem served_published {key : SessionKey} {reply : Reply} (hlegit : S.Legit data job)
    (hkey : job.session = some key) (hprobe : key.statusProbe = false)
    (hfinal : job.finalChunk = true) (hs : S.Trusted data s)
    (hserve : serveAlone S.srv job calls s = some (t, .ok reply)) : S.Published data t := by
  obtain ⟨u, hu, rfl⟩ := served_of_wp (wpA_runUpload hlegit hkey hs) hserve
  exact (hu.2 hprobe hfinal reply rfl).of_disk_eq rfl

end Served

end Session

/-! ## Ends that such a request can come to -/

/-- A program that ends so when its calls go. -/
def Finishes (srv : Server) {ε α : Type} (x : Fs ε α) (h : Held) (s : Store) (r : Except ε α)
    (h' : Held) (t : Store) : Prop :=
  CanEnd (atomicExec srv) (x h) s (r, h') t

section Finishes

variable {srv : Server} {ε ε' α β : Type} {h h' h'' : Held} {s t u : Store} {a : α}

theorem finishes_ret : Finishes srv (Fs.ret a : Fs ε α) h s (.ok a) h s := canEnd_done

theorem finishes_update {g : Held → Held} :
    Finishes srv (Fs.update g : Fs ε Unit) h s (.ok ()) (g h) s := canEnd_done

theorem finishes_seq {x : Fs ε α} {f : α → Fs ε β} {r : Except ε β}
    (hx : Finishes srv x h s (.ok a) h' t) (hf : Finishes srv (f a) h' t r h'' u) :
    Finishes srv (x >>= f) h s r h'' u := canEnd_bind hx hf

theorem finishes_await {op : Op} {b : op.Ans} (hexec : op.exec srv.serde 0 .go s = some (t, b)) :
    Finishes srv (Fs.await op : Fs ε op.Ans) h s (.ok b) h t := by
  have hgo : CleansUp op .go := by
    cases op <;> first | rfl | trivial
  have hstep : atomicExec srv (op, h) .go s = some (t, b) := (if_pos hgo).trans hexec
  exact canEnd_call hstep canEnd_done

theorem finishes_await_then {op : Op} {f : op.Ans → Fs ε β} {b : op.Ans} {r : Except ε β}
    (hexec : op.exec srv.serde 0 .go s = some (t, b)) (hf : Finishes srv (f b) h t r h' u) :
    Finishes srv (Fs.await op >>= f) h s r h' u := finishes_seq (finishes_await hexec) hf

theorem finishes_attempt {x : Fs ε α} {r : Except ε α} (hx : Finishes srv x h s r h' t) :
    Finishes srv (Fs.attempt x : Fs ε' (Except ε α)) h s (.ok r) h' t := canEnd_bind hx canEnd_done

theorem finishes_orElse {x : Fs ε α} {e : ε → ε'} (hx : Finishes srv x h s (.ok a) h' t) :
    Finishes srv (Fs.orElse e x) h s (.ok a) h' t :=
  finishes_seq (finishes_attempt hx) finishes_ret

theorem finishes_orElse_then {x : Fs ε α} {e : ε → ε'} {f : α → Fs ε' β} {r : Except ε' β}
    (hx : Finishes srv x h s (.ok a) h' t) (hf : Finishes srv (f a) h' t r h'' u) :
    Finishes srv (Fs.orElse e x >>= f) h s r h'' u := finishes_seq (finishes_orElse hx) hf

/-- What `prepare` makes of a store: the directories above the target. -/
def prepared (full : FsPath) (s : Store) : Store :=
  match full.parent with
  | some parent => s.mkdirs (ancestors parent)
  | none => s

theorem prepared_entry {full q : FsPath} (hq : full.length ≤ q.length) (s : Store) :
    (prepared full s).disk.entry q = s.disk.entry q := by
  unfold prepared
  split
  · next parent hparent =>
      exact (Disk.mkdirs_entry _).trans (if_neg fun hmem => not_mem_ancestors hparent hq hmem.1)
  · rfl

/-- `prepare` succeeds where no file stands in the place of a directory. -/
theorem finishes_prepare {path : Text} {full : FsPath} (hresolve : resolve srv.root path = .ok full)
    (hdirs : ∀ parent, full.parent = some parent →
      ∀ q ∈ ancestors parent, (s.disk.entry q).isFile = false) :
    Finishes srv (FsStorage.prepare srv.root path) h s (.ok full) h (prepared full s) := by
  have hlift : ((resolve srv.root path).mapError StorageError.unsupported) = .ok full := by
    rw [hresolve]
    rfl
  unfold FsStorage.prepare prepared
  rw [hlift]
  apply finishes_seq finishes_ret
  apply finishes_await_then rfl
  apply finishes_seq finishes_ret
  cases hparent : full.parent with
  | none => exact finishes_seq finishes_ret finishes_ret
  | some parent =>
      have hexec : (Op.createDirAll parent).exec srv.serde 0 .go s =
          some (s.mkdirs (ancestors parent), .ok ()) := by
        apply if_neg
        simp only [List.any_eq_true, not_exists, not_and, Bool.not_eq_true]
        exact hdirs parent hparent
      exact finishes_await_then hexec (finishes_seq finishes_ret finishes_ret)

end Finishes

/-- A program that may come to such a call. -/
def Fs.MayAsk (srv : Server) {ε α : Type} (P : Op → Prop) (x : Fs ε α) (h : Held) (s : Store) :
    Prop :=
  SoloPrograms.MayAsk (atomicExec srv) (fun call => P call.1) (x h) s

section MayAsk

variable {srv : Server} {P : Op → Prop} {ε ε' α β : Type} {h h' : Held} {s t : Store} {a : α}

theorem mayAsk_await {op : Op} (hop : P op) : Fs.MayAsk srv P (Fs.await op : Fs ε op.Ans) h s :=
  Or.inl hop

theorem mayAsk_left {x : Fs ε α} {f : α → Fs ε β} (hx : Fs.MayAsk srv P x h s) :
    Fs.MayAsk srv P (x >>= f) h s := mayAsk_bind_left hx

theorem mayAsk_then {x : Fs ε α} {f : α → Fs ε β} (hx : Finishes srv x h s (.ok a) h' t)
    (hf : Fs.MayAsk srv P (f a) h' t) : Fs.MayAsk srv P (x >>= f) h s := mayAsk_bind hx hf

theorem mayAsk_orElse {x : Fs ε α} {e : ε → ε'} (hx : Fs.MayAsk srv P x h s) :
    Fs.MayAsk srv P (Fs.orElse e x) h s := mayAsk_bind_left (mayAsk_bind_left hx)

/-- A request of the server comes to it too. -/
theorem reaches_mayAsk {job : UploadJob} (hjob : Fs.MayAsk srv P (runUpload srv job) Held.nothing s) :
    ∃ v call k, (uploadSystem srv).Reaches (fun _ _ => True) (atRest s) v ∧
      v.task 0 = .waiting job call k ∧ P call.1 := by
  have hstart : (uploadSystem srv).next (atRest s) (.start 0 job) =
      some ((uploadSystem srv).put (atRest s) s 0 job (runUpload srv job Held.nothing)) := rfl
  have hask : SoloPrograms.MayAsk (atomicExec srv) (fun call : Call => P call.1)
      (runUpload srv job Held.nothing) s := hjob
  apply reaches_of_mayAsk _ (fun _ _ => trivial) (System.Reaches.refl.tail trivial hstart) hask
  intro call c s t a hexec
  unfold atomicExec at hexec
  split at hexec
  · exact hexec
  · cases hexec

end MayAsk

end Libfw
