import Libfw.DownloadServing
import Libfw.SubjectIsolation

/-!
# Downloads of a file nobody uploads

All four handlers of `libfw-server/src/handlers.rs` beside a download or a HEAD.

* `fileKept_of_next` — a step of any request that uploads elsewhere keeps the file under a
  target and its bytes.
* `undisturbed_downloads` — so in every run in which nobody uploads to the target of a
  download, it is answered as by a store that stands still.
-/

namespace Libfw

open SteppedPrograms SoloPrograms WatchedPrograms Handler PosixStore

/-! ## Handlers that only look -/

/-- The calls that change nothing. -/
def ServerOp.looks : ServerOp → Bool
  | .store call => call.1.looks
  | .read _ _ _ => true
  | .readDir _ => true

theorem ServerOp.exec_looks {serde : Serde} {i : Nat} {op : ServerOp} {c : ServerChoice}
    {s t : Store} {a : op.Ans} (hlooks : op.looks = true)
    (hexec : op.exec serde i c s = some (t, a)) : t = s := by
  cases op with
  | store call => exact Libfw.exec_looks hlooks hexec
  | read file pos len => exact exec_read hexec
  | readDir path => exact (exec_readDir hexec).1

namespace Handler

section Handlers

variable {V : Type} {srv : FileServer V} {P : ServerOp → Prop} {path : Text}

theorem asks_planDownload
    (hP : ∀ real, validateRelPath path = .ok real → AllowsReading P srv.storage.root real)
    (hdrs : DownloadHeaders V) (withReader : Bool) :
    Asks P (srv.planDownload path hdrs withReader) fun _ => True := by
  rw [FileServer.planDownload_eq_planFound]
  have hvalid : Asks P
      (lift ((validateRelPath path).mapError fun m => Stopped.failed (.badRequest m)))
      fun real => validateRelPath path = .ok real := by
    apply asks_lift
    intro real h
    cases hres : validateRelPath path with
    | error e =>
        rw [hres] at h
        cases h
    | ok p =>
        rw [hres] at h
        cases h
        rfl
  apply asks_then hvalid
  intro real hreal
  apply asks_then (asks_orElse (asks_fileMeta (hP real hreal) _))
  intro found _
  cases found with
  | none => exact asks_fail
  | some fileMeta =>
      exact asks_planFile (hP real hreal).toAllowsOpening fileMeta

theorem asks_download
    (hP : ∀ real, validateRelPath path = .ok real → AllowsReading P srv.storage.root real)
    {real : Text} (hreal : validateRelPath path = .ok real) (hdrs : DownloadHeaders V) :
    Asks P (srv.download path hdrs) fun _ => True := by
  rw [download_eq_send]
  apply asks_then (asks_planDownload hP hdrs true)
  intro planned _
  exact asks_send (hP real hreal).pieces planned

theorem asks_headFile
    (hP : ∀ real, validateRelPath path = .ok real → AllowsReading P srv.storage.root real)
    (hdrs : DownloadHeaders V) : Asks P (srv.headFile path hdrs) fun _ => True := by
  unfold FileServer.headFile
  apply asks_then (asks_planDownload hP hdrs false)
  intro r _
  exact asks_ret trivial

end Handlers

/-- To read a path is to look. -/
theorem allowsReading_looks (root : FsPath) (path : Text) :
    AllowsReading (fun op => op.looks = true) root path := by
  refine ⟨⟨?_, fun _ _ _ => rfl⟩, fun _ _ => rfl⟩
  intro full _ op hop
  simp only [List.mem_cons, List.not_mem_nil, or_false] at hop
  rcases hop with rfl | rfl <;> rfl

end Handler

/-! ## Who leaves the target alone -/

section Targets

variable {V : Type} (srv : FileServer V) (target : FsPath)

/-- The request does not upload to the target, and keeps no session there. -/
def UploadsElsewhere : ClientRequest V → Prop
  | .upload claims shadow hdrs body => ∀ real full,
      srv.resolvePath (.upload claims shadow hdrs body) = .ok real →
      resolve srv.storage.root real = .ok full → full ≠ target ∧
        ∀ key, srv.sessionKey claims hdrs = some key →
          target ∉ sessionFilesOf full key.id key.owner
  | _ => True

/-- The file there fits, requests that start upload elsewhere, and nobody else puts a file there. -/
def LeavesTarget (s : ServerState V) : ServerAct V → Prop
  | .start _ req => srv.Fits target s.shared ∧ UploadsElsewhere srv target req
  | .env (.place path _) => srv.Fits target s.shared ∧ path ≠ target
  | _ => srv.Fits target s.shared

/-- A request that keeps off the target, with all it has open. -/
def OffTarget {ρ : Type} (p : Prog ServerOp ServerOp.Ans ρ) (s : Store) : Prop :=
  ∃ files, StaysOff {q | q ∈ [target]} p (fun _ _ => True) files ∧
    ∀ f ∈ files, Clear [target] f s

/-- A request that only looks, or that keeps off the target. -/
def SparesTarget {ρ : Type} (p : Prog ServerOp ServerOp.Ans ρ) (s : Store) : Prop :=
  p.Along (fun op => op.looks = true) (fun _ => True) ∨ OffTarget target p s

/-- A request that reads the target has the file there open. -/
def ReadsTarget (req : ClientRequest V) (p : Prog ServerOp ServerOp.Ans (Option ServerResponse))
    (s : Store) : Prop :=
  (∃ hdrs w, FileServer.Reads req hdrs w) → srv.LeadsTo req target →
    ∃ files, StaysOff {q | q ≠ target} p (fun _ _ => True) files ∧
      ∀ f ∈ files, s.disk.entry target = .file f

variable {srv} {target}

/-- What a request that reads does to the store: nothing. -/
theorem serve_looks {req : ClientRequest V} {hdrs : DownloadHeaders V} {withReader : Bool}
    (hreads : FileServer.Reads req hdrs withReader) :
    (srv.serve req).Along (fun op => op.looks = true) fun _ => True := by
  unfold FileServer.serve
  cases hreal : srv.resolvePath req with
  | error e => trivial
  | ok path =>
      apply (Prog.along_bind _ _).2
      have hP : ∀ real, validateRelPath path = .ok real →
          AllowsReading (fun op => op.looks = true) srv.storage.root real :=
        fun real _ => allowsReading_looks _ real
      have hhandle : Asks (fun op => op.looks = true) (srv.handle path req) fun _ => True := by
        cases hreads with
        | download => exact asks_download hP (srv.canonical_of_resolvePath hreal) hdrs
        | head => exact asks_headFile hP hdrs
      apply Prog.Along.mono hhandle fun _ => id
      intro r _
      cases r with
      | ok response => trivial
      | error e => cases e <;> trivial

/-- An upload elsewhere keeps off the target. -/
theorem upload_staysOff (htemp : ∀ full nanos counter, tempPathFor full nanos counter ≠ target)
    {claims : TokenClaims} {shadow : Text} {hdrs : UploadHeaders V} {body : Body}
    (helsewhere : UploadsElsewhere srv target (.upload claims shadow hdrs body)) :
    StaysOff {q | q ∈ [target]} (srv.serve (.upload claims shadow hdrs body)) (fun _ _ => True)
      [] := by
  apply serve_off
  intro real hreal
  apply Handler.off_upload
  · intro full hfull hmem
    exact (helsewhere real full hreal hfull).1 (List.mem_singleton.1 hmem)
  · intro job p hjob hfile hmem
    obtain ⟨hpath, hsession⟩ := srv.uploadJob_eq_ok hjob
    obtain ⟨full, key, hfull, hkey, hin⟩ := mem_sessionFilesOf hfile
    rw [hpath] at hfull
    rw [hsession] at hkey
    rw [List.mem_singleton.1 hmem] at hin
    exact (helsewhere real full hreal hfull).2 key hkey hin
  · intro full nanos counter hmem
    exact htemp full nanos counter (List.mem_singleton.1 hmem)

/-- **A request that uploads elsewhere spares the target.** -/
theorem serve_sparesTarget (htemp : ∀ full nanos counter, tempPathFor full nanos counter ≠ target)
    {req : ClientRequest V} (helsewhere : UploadsElsewhere srv target req) (s : Store) :
    SparesTarget target (srv.serve req) s := by
  cases req with
  | download claims shadow hdrs => exact Or.inl (serve_looks FileServer.Reads.download)
  | head claims shadow hdrs => exact Or.inl (serve_looks FileServer.Reads.head)
  | list claims shadow =>
      exact Or.inr ⟨[], serve_off fun real _ => Handler.off_list, fun f hf => absurd hf (by simp)⟩
  | upload claims shadow hdrs body =>
      exact Or.inr ⟨[], upload_staysOff htemp helsewhere, fun f hf => absurd hf (by simp)⟩

/-- A request that reads the target opens it only. -/
theorem serve_readsTarget (req : ClientRequest V) (s : Store) :
    ReadsTarget srv target req (srv.serve req) s := by
  rintro ⟨hdrs, w, hreads⟩ htarget
  refine ⟨[], serve_off ?_, fun f hf => absurd hf (by simp)⟩
  intro real hreal
  cases hreads with
  | head => exact Handler.off_headFile hdrs
  | download =>
      apply Handler.off_download
      intro path full hpath hfull hne
      have hcanon : validateRelPath real = .ok real := srv.canonical_of_resolvePath hreal
      rw [hcanon] at hpath
      cases hpath
      exact hne (htarget real full hreal hfull)

/-- **A call of a request that spares the target keeps the file there.** -/
theorem fileKept_of_exec {ρ : Type} {op : ServerOp}
    {k : op.Ans → Prog ServerOp ServerOp.Ans ρ} {i : Nat}
    {c : ServerChoice} {s t : Store} {a : op.Ans} (hspares : SparesTarget target (.call op k) s)
    (hexec : op.exec srv.storage.serde i c s = some (t, a)) : FileKept target s t := by
  rcases hspares with hlooks | ⟨files, hoff, hclear⟩
  · rw [ServerOp.exec_looks hlooks.1 hexec]
    exact FileKept.refl target s
  · cases op with
    | store call =>
        intro f hf
        exact kept_of_exec hexec hoff.1.1 hoff.1.2 hclear (List.mem_singleton_self target) hf
    | read file pos len =>
        rw [exec_read hexec]
        exact FileKept.refl target s
    | readDir dir =>
        rw [(exec_readDir hexec).1]
        exact FileKept.refl target s

/-- What a call that spares the target has not opened there is not moved there. -/
theorem clear_of_request {ρ : Type} {op : ServerOp}
    {k : op.Ans → Prog ServerOp ServerOp.Ans ρ} {i : Nat}
    {c : ServerChoice} {s t : Store} {a : op.Ans} (hspares : SparesTarget target (.call op k) s)
    (hexec : op.exec srv.storage.serde i c s = some (t, a)) {f : Nat} (hf : Clear [target] f s) :
    Clear [target] f t := by
  rcases hspares with hlooks | ⟨files, hoff, -⟩
  · rw [ServerOp.exec_looks hlooks.1 hexec]
    exact hf
  · cases op with
    | store call =>
        apply clear_of_exec hexec _ hf
        intro source p hop hp
        have hmem : p ∈ call.1.uses := by
          apply uses_of_puts_takes
          rw [hop]
          simp [Op.puts]
        exact absurd hp (hoff.1.1 p hmem)
    | read file pos len =>
        rw [exec_read hexec]
        exact hf
    | readDir dir =>
        rw [(exec_readDir hexec).1]
        exact hf

theorem offTarget_of_exec {ρ : Type} {op : ServerOp}
    {k : op.Ans → Prog ServerOp ServerOp.Ans ρ} {i : Nat}
    {c : ServerChoice} {s t : Store} {a : op.Ans} (hp : OffTarget target (.call op k) s)
    (hexec : op.exec srv.storage.serde i c s = some (t, a)) : OffTarget target (k a) t := by
  obtain ⟨files, hoff, hclear⟩ := id hp
  refine ⟨op.opens a ++ files, hoff.2 a, ?_⟩
  intro f hf
  rcases List.mem_append.1 hf with hnew | hold
  · cases op with
    | store call => exact clear_of_opens hexec hoff.1.1 hnew
    | read file pos len => cases hnew
    | readDir dir => cases hnew
  · exact clear_of_request (Or.inr hp) hexec (hclear f hold)

theorem sparesTarget_of_exec {ρ : Type} {op : ServerOp}
    {k : op.Ans → Prog ServerOp ServerOp.Ans ρ} {i : Nat}
    {c : ServerChoice} {s t : Store} {a : op.Ans} (hspares : SparesTarget target (.call op k) s)
    (hexec : op.exec srv.storage.serde i c s = some (t, a)) : SparesTarget target (k a) t := by
  rcases hspares with hlooks | hoff
  · exact Or.inl (hlooks.2 a)
  · exact Or.inr (offTarget_of_exec hoff hexec)

/-- What a call opens that keeps to the target is the file there. -/
theorem entry_of_opens {op : ServerOp} {files : List Nat} {i : Nat} {c : ServerChoice}
    {s t : Store} {a : op.Ans} (hoff : KeepsOff {q | q ≠ target} files op)
    (hexec : op.exec srv.storage.serde i c s = some (t, a)) {f : Nat} (hf : f ∈ op.opens a) :
    t.disk.entry target = .file f := by
  cases op with
  | store call =>
      obtain ⟨q, hq, hentry⟩ := exec_opens hexec hf
      have heq : q = target := by
        by_contra hne
        exact hoff.1 q (uses_of_opens hf hq) hne
      rw [← heq]
      exact hentry
  | read file pos len => cases hf
  | readDir dir => cases hf

/-! ### Runs -/

/-- A system whose tasks call on one store. -/
structure OverStore {Req Res : Type} (serde : Serde)
    (M : System ServerOp ServerOp.Ans Req Res ServerChoice Outside Store) : Prop where
  exec : ∀ i op c s, M.exec i op c s = op.exec serde i c s
  enter : ∀ i req s, M.enter i req s = s
  leave : ∀ i s, M.leave i s = s.release i
  disturb : ∀ e s, M.disturb e s = e.apply s

theorem overStore_serverSystem (srv : FileServer V) :
    OverStore srv.storage.serde (serverSystem srv) :=
  ⟨fun _ _ _ _ => rfl, fun _ _ _ => rfl, fun _ _ => rfl, fun _ _ => rfl⟩

section Steps

variable {Req Res : Type} {M : System ServerOp ServerOp.Ans Req Res ServerChoice Outside Store}
  {s t : State ServerOp ServerOp.Ans Req Res Store} {a : Act Req ServerChoice Outside}

/-- **Step lemma**: no step moves the file under the target, or changes its bytes. -/
theorem fileKept_of_next (hM : OverStore srv.storage.serde M)
    (hstand : System.Standing (fun _ p u => SparesTarget target p u) s)
    (hplace : ∀ path cells, a = .env (.place path cells) → path ≠ target)
    (hnext : M.next s a = some t) : FileKept target s.shared t.shared := by
  have hput : ∀ (sh : Store) (i : Nat) (req : Req) (p : Prog ServerOp ServerOp.Ans Res),
      FileKept target s.shared sh → FileKept target s.shared (M.put s sh i req p).shared := by
    intro sh i req p hsh
    cases p with
    | done r =>
        show FileKept target s.shared (M.leave i sh)
        rw [hM.leave]
        exact hsh
    | call o k => exact hsh
  rcases System.next_cases hnext with ⟨i, req, rfl, -, rfl⟩ |
    ⟨i, c, req, op, k, sh, ans, rfl, hwait, hexec, rfl⟩ | ⟨i, req, op, k, rfl, -, rfl⟩ |
    ⟨e, rfl, rfl⟩
  · apply hput
    rw [hM.enter]
    exact FileKept.refl target _
  · apply hput
    rw [hM.exec] at hexec
    exact fileKept_of_exec (hstand i req op k hwait) hexec
  · show FileKept target s.shared (M.leave i s.shared)
    rw [hM.leave]
    exact FileKept.refl target _
  · show FileKept target s.shared (M.disturb e s.shared)
    rw [hM.disturb]
    cases e with
    | tick nanos => exact FileKept.refl target _
    | place path cells =>
        intro f hf
        have hne : target ≠ path := fun h => hplace path cells rfl h.symm
        refine ⟨(Disk.create_entry_ne _ _ hne).trans hf, ?_⟩
        have hsame : (s.shared.disk.create path ⟨.bytes cells, s.shared.now⟩).content f =
            s.shared.disk.content f := Disk.create_content_lt _ _ (s.shared.disk.entry_lt hf)
        exact congrArg Node.content hsame

/-- What keeps off the target stays so. -/
theorem clear_target_of_next (hM : OverStore srv.storage.serde M)
    (hstand : System.Standing (fun _ p u => SparesTarget target p u) s)
    (hnext : M.next s a = some t) {f : Nat} (hf : Clear [target] f s.shared) :
    Clear [target] f t.shared := by
  have hput : ∀ (sh : Store) (i : Nat) (req : Req) (p : Prog ServerOp ServerOp.Ans Res),
      Clear [target] f sh → Clear [target] f (M.put s sh i req p).shared := by
    intro sh i req p hsh
    cases p with
    | done r =>
        show Clear [target] f (M.leave i sh)
        rw [hM.leave]
        exact clear_of_disk rfl hsh
    | call o k => exact hsh
  rcases System.next_cases hnext with ⟨i, req, rfl, -, rfl⟩ |
    ⟨i, c, req, op, k, sh, ans, rfl, hwait, hexec, rfl⟩ | ⟨i, req, op, k, rfl, -, rfl⟩ |
    ⟨e, rfl, rfl⟩
  · apply hput
    rw [hM.enter]
    exact hf
  · apply hput
    rw [hM.exec] at hexec
    exact clear_of_request (hstand i req op k hwait) hexec hf
  · show Clear [target] f (M.leave i s.shared)
    rw [hM.leave]
    exact clear_of_disk rfl hf
  · show Clear [target] f (M.disturb e s.shared)
    rw [hM.disturb]
    cases e with
    | tick nanos => exact clear_of_disk rfl hf
    | place path cells => exact clear_of_place hf

/-- A program that keeps off the target goes on so while the others spare it. -/
theorem offTarget_of_next (hM : OverStore srv.storage.serde M)
    (hstand : System.Standing (fun _ p u => SparesTarget target p u) s)
    (hnext : M.next s a = some t) {ρ : Type} {p : Prog ServerOp ServerOp.Ans ρ}
    (hp : OffTarget target p s.shared) : OffTarget target p t.shared := by
  obtain ⟨files, hoff, hclear⟩ := hp
  exact ⟨files, hoff, fun f hf => clear_target_of_next hM hstand hnext (hclear f hf)⟩

/-- So does one that spares it. -/
theorem sparesTarget_of_next (hM : OverStore srv.storage.serde M)
    (hstand : System.Standing (fun _ p u => SparesTarget target p u) s)
    (hnext : M.next s a = some t) {ρ : Type} {p : Prog ServerOp ServerOp.Ans ρ}
    (hp : SparesTarget target p s.shared) : SparesTarget target p t.shared := by
  rcases hp with hlooks | hoff
  · exact Or.inl hlooks
  · exact Or.inr (offTarget_of_next hM hstand hnext hoff)

end Steps

/-- How a request stands beside a target. -/
def StandsBeside (srv : FileServer V) (target : FsPath) (req : ClientRequest V)
    (p : Prog ServerOp ServerOp.Ans (Option ServerResponse)) (s : Store) : Prop :=
  SparesTarget target p s ∧ ReadsTarget srv target req p s

theorem sparing_of_standsBeside {s : ServerState V}
    (h : System.Standing (StandsBeside srv target) s) :
    System.Standing (fun _ p u => SparesTarget target p u) s :=
  fun i req op k hwait => (h i req op k hwait).1

/-- A run that leaves the target alone keeps its file. -/
theorem fileKept_of_leavesTarget {s t : ServerState V} {a : ServerAct V}
    (hstand : System.Standing (StandsBeside srv target) s) (hok : LeavesTarget srv target s a)
    (hnext : (serverSystem srv).next s a = some t) : FileKept target s.shared t.shared := by
  apply fileKept_of_next (overStore_serverSystem srv) (sparing_of_standsBeside hstand) _ hnext
  rintro path cells rfl
  exact hok.2

/-- **Run lemma.** -/
theorem standsBeside_of_reaches
    (htemp : ∀ full nanos counter, tempPathFor full nanos counter ≠ target) {s₀ : Store}
    {s : ServerState V}
    (hrun : (serverSystem srv).Reaches (LeavesTarget srv target) (idleServer s₀) s) :
    System.Standing (StandsBeside srv target) s := by
  apply System.Reaches.standing (W := StandsBeside srv target) _ _ _ (fun _ => rfl) hrun
  · intro u i req hok
    exact ⟨serve_sparesTarget htemp hok.2 _, serve_readsTarget req _⟩
  · intro i c req op k sh sh' a hstand hexec
    have hx : op.exec srv.storage.serde i c sh = some (sh', a) := hexec
    have hkeeps := fileKept_of_exec hstand.1 hx
    constructor
    · exact sparesTarget_of_exec hstand.1 hx
    · intro hreads htarget
      obtain ⟨files, hoff, hopen⟩ := hstand.2 hreads htarget
      refine ⟨op.opens a ++ files, hoff.2 a, ?_⟩
      intro f hf
      rcases List.mem_append.1 hf with hnew | hold
      · exact entry_of_opens hoff.1 hx hnew
      · exact (hkeeps f (hopen f hold)).1
  · intro u a v hok hstand hnext req p hp
    refine ⟨?_, ?_⟩
    · exact sparesTarget_of_next (overStore_serverSystem srv) (sparing_of_standsBeside hstand)
        hnext hp.1
    · intro hreads htarget
      obtain ⟨files, hoff, hopen⟩ := hp.2 hreads htarget
      exact ⟨files, hoff, fun f hf => (fileKept_of_leavesTarget hstand hok hnext f (hopen f hf)).1⟩

/-- Such a run spares every download of the target. -/
theorem sparesDownload_of_standsBeside {i : Nat} {req : ClientRequest V} {hdrs : DownloadHeaders V}
    {withReader : Bool} (hreads : FileServer.Reads req hdrs withReader)
    (htarget : srv.LeadsTo req target) {s : ServerState V} {a : ServerAct V}
    (htask : ∀ req' op k, s.task i = .waiting req' op k → req' = req)
    (hstand : System.Standing (StandsBeside srv target) s) (hok : LeavesTarget srv target s a) :
    SparesDownload srv target i s a := by
  constructor
  · cases a with
    | start j req' => exact hok.1
    | step j c => exact hok
    | drop j => exact hok
    | env e =>
        cases e with
        | tick nanos => exact hok
        | place path cells => exact hok.1
  · intro t hnext req' op k hwait hlooked _
    obtain rfl := htask req' op k hwait
    have hkeeps := fileKept_of_leavesTarget hstand hok hnext
    unfold downloadRely
    split
    · exact hkeeps
    · exact hkeeps
    · next f pos len =>
        obtain ⟨files, hoff, hopen⟩ :=
          (hstand i req' _ k hwait).2 ⟨hdrs, withReader, hreads⟩ htarget
        exact (hkeeps f (hopen f hoff.1)).2
    · trivial

/-- The same run, with what is known of each of its states. -/
theorem sparing_of_reaches
    (htemp : ∀ full nanos counter, tempPathFor full nanos counter ≠ target) {i : Nat} {s₀ : Store}
    {req : ClientRequest V} {s : ServerState V}
    (hrun : (serverSystem srv).Reaches (LeavesTarget srv target) (idleServer s₀) s)
    (hreq : ∀ q, (s.task i).request = some q → q = req) :
    (serverSystem srv).Reaches (fun u a => LeavesTarget srv target u a ∧
      System.Standing (StandsBeside srv target) u ∧ ∀ q, (u.task i).request = some q → q = req)
      (idleServer s₀) s := by
  induction hrun with
  | refl => exact .refl
  | @tail u v a hreach hok hnext ih =>
      have hbefore : ∀ q, (u.task i).request = some q → q = req := fun q hq =>
        hreq q (System.next_request hnext hq)
      exact (ih hbefore).tail ⟨hok, standsBeside_of_reaches htemp hreach, hbefore⟩ hnext

/-- **A download of a file that nobody uploads meanwhile is answered as of one moment.** -/
theorem undisturbed_downloads
    (htemp : ∀ full nanos counter, tempPathFor full nanos counter ≠ target) {i : Nat} {s₀ : Store}
    {s t : ServerState V} {c : ServerChoice} {req : ClientRequest V} {hdrs : DownloadHeaders V}
    {withReader : Bool} {r : Option ServerResponse}
    (hreads : FileServer.Reads req hdrs withReader) (htarget : srv.LeadsTo req target)
    (hrun : (serverSystem srv).Reaches (LeavesTarget srv target) (idleServer s₀) s)
    (hok : LeavesTarget srv target s (.step i c))
    (hnext : (serverSystem srv).next s (.step i c) = some t)
    (hend : t.task i = .finished req r) :
    ∃ u, Moment (serverSystem srv) (LeavesTarget srv target) (idleServer s₀) i req u s ∧
      srv.AnsweredAt u.shared withReader req hdrs r := by
  have hreq : ∀ q, (s.task i).request = some q → q = req := by
    intro q hq
    have hafter := System.next_request hnext hq
    rw [hend] at hafter
    exact (Option.some.inj hafter).symm
  have hstand := standsBeside_of_reaches htemp hrun
  obtain ⟨u, ⟨hbefore, hafter, hwaits⟩, hanswered⟩ := answered_at_moment
    (fun v a h => sparesDownload_of_standsBeside hreads htarget
      (fun q op k hwait => h.2.2 q (by rw [hwait]; rfl)) h.2.1 h.1)
    hreads htarget (sparing_of_reaches htemp hrun hreq) ⟨hok, hstand, hreq⟩ hnext hend
  exact ⟨u, ⟨hbefore.mono fun _ _ h => h.1, hafter.mono fun _ _ h => h.1, hwaits⟩, hanswered⟩

end Targets

/-! ### A download beside an upload -/

/-- A name that does not begin like one is no temporary's. -/
theorem tempPathFor_ne {target full : FsPath} {nanos counter : Nat}
    (h : ¬ TMP_PREFIX <+: baseName target) : tempPathFor full nanos counter ≠ target := by
  rintro rfl
  apply h
  unfold baseName tempPathFor
  rw [FsPath.fileName_withFileName, Option.getD_some, List.append_assoc, List.append_assoc]
  exact List.prefix_append _ _

theorem elsewhereUpload_elsewhere : UploadsElsewhere sampleFiles hiTarget elsewhereUpload := by
  intro real full hreal hfull
  have hpath : sampleFiles.resolvePath elsewhereUpload = .ok "g".toList := by decide +kernel
  have hsame : (Except.ok real : Except ApiError Text) = .ok "g".toList := hreal.symm.trans hpath
  cases hsame
  have hresolved : resolve sampleFiles.storage.root "g".toList =
      .ok (sampleServer.root ++ [.normal "g".toList]) := by decide +kernel
  rw [hresolved] at hfull
  cases hfull
  refine ⟨by decide, ?_⟩
  intro key hkey
  cases hkey

/-- Steps of any requests, and downloads that start. -/
def onlyReads (target : FsPath) (s : ServerState (List UInt8)) : ServerAct (List UInt8) → Bool
  | .start _ req => fitsNow target s && decide (req.action = .read)
  | .env _ => false
  | _ => fitsNow target s

theorem leavesTarget_of_onlyReads {target : FsPath} {s : ServerState (List UInt8)}
    {a : ServerAct (List UInt8)} (h : onlyReads target s a = true) :
    LeavesTarget sampleFiles target s a := by
  cases a with
  | start i req =>
      obtain ⟨hfits, haction⟩ := Bool.and_eq_true_iff.1 h
      refine ⟨fits_of_fitsNow hfits, ?_⟩
      cases req with
      | upload claims shadow hdrs body => cases of_decide_eq_true haction
      | download claims shadow hdrs => trivial
      | head claims shadow hdrs => trivial
      | list claims shadow => trivial
  | step i c => exact fits_of_fitsNow h
  | drop i => exact fits_of_fitsNow h
  | env e => cases h

/-- The upload has started, and goes on while the download runs. -/
def besideActs : List (ServerAct (List UInt8)) :=
  [.start 0 hiDownload, .step 1 ⟨.go, []⟩, .step 0 ⟨.go, []⟩, .step 1 ⟨.go, []⟩,
    .step 0 ⟨.go, []⟩, .step 1 ⟨.go, []⟩, .step 0 ⟨.go, []⟩, .step 1 ⟨.go, []⟩,
    .step 0 ⟨.go, []⟩, .step 1 ⟨.go, []⟩]

/-- How a first request starts. -/
theorem next_start_idle {V : Type} (srv : FileServer V) (s : Store) (i : Nat)
    (req : ClientRequest V) : (serverSystem srv).next (idleServer s) (.start i req) =
      some ((serverSystem srv).put (idleServer s) s i req (srv.serve req)) := rfl

/-- The state after the upload has started. -/
def besideStart : ServerState (List UInt8) :=
  (serverSystem sampleFiles).put (idleServer hiStore) hiStore 1 elsewhereUpload
    (sampleFiles.serve elsewhereUpload)

/-- A download beside an upload of another file is answered with the file. -/
theorem hi_undisturbed :
    ∃ u s, Moment (serverSystem sampleFiles) (LeavesTarget sampleFiles hiTarget)
      (idleServer hiStore) 0 hiDownload u s ∧
      sampleFiles.AnsweredAt u.shared true hiDownload plainHeaders (some hiResponse) := by
  have hstart : (serverSystem sampleFiles).next (idleServer hiStore) (.start 1 elsewhereUpload) =
      some besideStart := next_start_idle _ _ _ _
  have hfirst : LeavesTarget sampleFiles hiTarget (idleServer hiStore) (.start 1 elsewhereUpload) :=
    ⟨fits_of_fitsNow (by decide +kernel), elsewhereUpload_elsewhere⟩
  have hrun : ((serverSystem sampleFiles).runIf (onlyReads hiTarget) besideStart besideActs).any
      (fun s => onlyReads hiTarget s (.step 0 ⟨.go, []⟩) && endsAs hiResponse s) = true := by
    decide +kernel
  obtain ⟨s, hs, hlast⟩ := (Option.any_eq_true _ _).1 hrun
  obtain ⟨htest, hends⟩ := Bool.and_eq_true_iff.1 hlast
  have hreach := (System.Reaches.refl.tail hfirst hstart).trans
    (System.reaches_of_runIf (fun _ _ h => leavesTarget_of_onlyReads h) hs)
  obtain ⟨t, hnext, hend⟩ := exists_of_endsAs (System.request_of_runIf hs) hends
  obtain ⟨u, hu⟩ := undisturbed_downloads
    (fun _ _ _ => tempPathFor_ne (by decide +kernel)) FileServer.Reads.download
    hiDownload_leadsTo hreach (leavesTarget_of_onlyReads htest) hnext hend
  exact ⟨u, s, hu⟩

end Libfw
