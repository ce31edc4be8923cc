import Libfw.DecidedPrograms
import Libfw.ReadingCalls

/-!
# Downloads beside other requests

`plan_download`, `download` and `head_file` of `libfw-server/src/handlers.rs` as the programs
they are, next to the same functions on a store that stands still (`answerAt`).

* `downloads_answered_at_once` — whatever the other requests do, a download is answered as by a
  store that stands still at one moment of its run; unless, after its look at the metadata and
  before its last read, somebody replaces the file before it is open or writes into it.
-/

namespace Libfw

open SteppedPrograms SoloPrograms WatchedPrograms Handler PosixStore

/-! ## Reading at once -/

namespace DownloadServer

variable {V : Type} (srv : DownloadServer V)

/-- The plan of a file whose metadata is known, and the span it sends. -/
def planSpec (path : Text) (fileMeta : FileMeta) (hdrs : DownloadHeaders V) :
    Except Stopped (DownloadPlan × RangeSpec) :=
  if srv.notModified hdrs fileMeta.etag then .error (.failed .notModified)
  else
    match srv.requestedRange hdrs with
    | none => .error (.failed .rangeMalformed)
    | some asked => do
        let range := srv.honoured hdrs fileMeta.etag asked
        let spec ← (resolveRange fileMeta.size range).mapError Stopped.failed
        let plan ← srv.planSpan path fileMeta hdrs false range.isSome spec
        .ok (plan, spec)

/-- What the plan reads of a file. -/
def reading (withReader : Bool) (file : StoredFile) (planned : DownloadPlan × RangeSpec) :
    DownloadPlan :=
  { planned.1 with
    reader := if withReader then some ((file.bytes.drop planned.2.start).take planned.2.len)
      else none }

variable {srv} {file : StoredFile} {hdrs : DownloadHeaders V} {path real : Text}

/-- The reader makes no other difference to a plan. -/
theorem planSpan_reading (hfile : srv.files real = .ok (some file)) (fileMeta : FileMeta)
    (withReader isPartial : Bool) (spec : RangeSpec) :
    srv.planSpan real fileMeta hdrs withReader isPartial spec =
      (srv.planSpan real fileMeta hdrs false isPartial spec).map fun plan =>
        reading withReader file (plan, spec) := by
  have hread := readStream_of_file hfile spec
  unfold planSpan
  cases withReader <;> cases isPartial <;> cases hvalue : contentRangeValue spec fileMeta.size <;>
    simp [bind, Except.bind, Except.map, Except.mapError, hread, reading,
      RangeSpec.len]

theorem planDownload_eq_planSpec (hvalid : validateRelPath path = .ok real)
    (hfile : srv.files real = .ok (some file)) (withReader : Bool) :
    srv.planDownload path hdrs withReader =
      (srv.planSpec real (srv.metaOf file real) hdrs).map (reading withReader file) := by
  have hfound : srv.fileMeta real = .ok (some (srv.metaOf file real)) := by
    unfold fileMeta metaOf
    rw [hfile]
    rfl
  unfold planDownload planSpec
  rw [hvalid]
  simp only [Except.mapError, bind, Except.bind, hfound]
  split
  · rfl
  · cases srv.requestedRange hdrs with
    | none => rfl
    | some asked =>
        dsimp only
        cases resolveRange (srv.metaOf file real).size
            (srv.honoured hdrs (srv.metaOf file real).etag asked) with
        | error e => rfl
        | ok spec =>
            dsimp only
            rw [planSpan_reading hfile]
            cases srv.planSpan real (srv.metaOf file real) hdrs false
              (srv.honoured hdrs (srv.metaOf file real).etag asked).isSome spec <;> rfl

end DownloadServer

namespace FileServer

variable {V : Type} (srv : FileServer V)

/-- What the storage holds under a path, read at once. -/
def filesAt (s : Store) (path : Text) : Except StorageError (Option StoredFile) :=
  match resolve srv.storage.root path with
  | .error m => .error (.unsupported m)
  | .ok full =>
      match s.disk.entry full with
      | .absent => .ok none
      | .dir => .error (.unsupported FsStorage.directoryMessage)
      | .file f =>
          if fits : ((s.content f).bytesOf srv.storage.serde).length < 2 ^ 64 then
            .ok (some ⟨(s.content f).bytesOf srv.storage.serde, (s.disk.content f).mtime, fits⟩)
          else .error (.other IoError.tooLarge.message)

section

variable {srv} {s : Store} {path : Text} {full : FsPath}

theorem filesAt_absent (hfull : resolve srv.storage.root path = .ok full)
    (hentry : s.disk.entry full = .absent) : srv.filesAt s path = .ok none := by
  unfold filesAt
  simp only [hfull, hentry]

theorem filesAt_dir (hfull : resolve srv.storage.root path = .ok full)
    (hentry : s.disk.entry full = .dir) :
    srv.filesAt s path = .error (.unsupported FsStorage.directoryMessage) := by
  unfold filesAt
  simp only [hfull, hentry]

theorem filesAt_file {f : Nat} (hfull : resolve srv.storage.root path = .ok full)
    (hentry : s.disk.entry full = .file f)
    (hfit : ((s.content f).bytesOf srv.storage.serde).length < 2 ^ 64) :
    srv.filesAt s path =
      .ok (some ⟨(s.content f).bytesOf srv.storage.serde, (s.disk.content f).mtime, hfit⟩) := by
  unfold filesAt
  simp only [hfull, hentry, dif_pos hfit]

end

/-- The downloads of the server from a store that stands still. -/
def downloadsAt (s : Store) : DownloadServer V :=
  { srv.downloads with files := srv.filesAt s, etag := srv.storage.etag }

/-- The response to a plan: a download sends what it reads, a HEAD nothing. -/
def respond (withReader : Bool) (plan : DownloadPlan) : ServerResponse :=
  ⟨plan.status, plan.headers,
    if withReader then
      .bytes (srv.downloads.bodyStream (plan.reader.getD []) plan.format plan.level)
    else .empty⟩

/-- How a handler's end is answered. -/
def answered : Except Stopped ServerResponse → Option ServerResponse
  | .ok response => some response
  | .error (.failed e) => some e.toResponse
  | .error .overflowed => none

/-- What a download or a HEAD is answered by a store that stands still. -/
def answerAt (s : Store) (withReader : Bool) (req : ClientRequest V) (hdrs : DownloadHeaders V) :
    Option ServerResponse :=
  match srv.resolvePath req with
  | .error e => some e.toResponse
  | .ok path =>
      answered (((srv.downloadsAt s).planDownload path hdrs withReader).map
        (srv.respond withReader))

/-- The answer is the expected one, or some I/O has failed: before anything is sent, or while the
file is being read. -/
def AnsweredAs (expected r : Option ServerResponse) : Prop :=
  r = expected ∨ (∃ m, r = some (ApiError.storage (.other m)).toResponse) ∨
    ∃ response data, expected = some response ∧ response.body = .bytes data ∧
      r = some { response with body := .broken }

/-- The answer is that of a store that stands still, or some I/O has failed. -/
def AnsweredAt (s : Store) (withReader : Bool) (req : ClientRequest V) (hdrs : DownloadHeaders V)
    (r : Option ServerResponse) : Prop :=
  AnsweredAs (srv.answerAt s withReader req hdrs) r

/-- A request that reads a file: its headers, and whether it sends the file. -/
inductive Reads : ClientRequest V → DownloadHeaders V → Bool → Prop where
  | download {claims : TokenClaims} {path : Text} {hdrs : DownloadHeaders V} :
      Reads (.download claims path hdrs) hdrs true
  | head {claims : TokenClaims} {path : Text} {hdrs : DownloadHeaders V} :
      Reads (.head claims path hdrs) hdrs false

/-- The file under the target is no longer than a `u64` can tell. -/
def Fits (target : FsPath) (s : Store) : Prop :=
  ∀ f, s.disk.entry target = .file f → ((s.content f).bytesOf srv.storage.serde).length < 2 ^ 64

/-- What `plan_download` does once it has the metadata of the file. -/
def planFile (path : Text) (hdrs : DownloadHeaders V) (withReader : Bool) (fileMeta : FileMeta) :
    Handler Stopped (DownloadPlan × Option (Nat × RangeSpec)) :=
  if srv.downloads.notModified hdrs fileMeta.etag then fail (.failed .notModified)
  else
    match srv.downloads.requestedRange hdrs with
    | none => fail (.failed .rangeMalformed)
    | some asked => do
        let range := srv.downloads.honoured hdrs fileMeta.etag asked
        let spec ← lift ((DownloadServer.resolveRange fileMeta.size range).mapError
          Stopped.failed)
        let reader ←
          if withReader then do
            let file ← orElse (fun e => Stopped.failed (.storage e))
              (FsStorage.readStream srv.storage.root path)
            ret (some (file, spec))
          else ret none
        let plan ← lift (srv.downloads.planSpan path fileMeta hdrs false range.isSome spec)
        ret (plan, reader)

/-- What it does with what the storage finds. -/
def planFound (path : Text) (hdrs : DownloadHeaders V) (withReader : Bool) :
    Option FileMeta → Handler Stopped (DownloadPlan × Option (Nat × RangeSpec))
  | none => fail (.failed (.notFound path))
  | some fileMeta => srv.planFile path hdrs withReader fileMeta

theorem planDownload_eq_planFound (path : Text) (hdrs : DownloadHeaders V) (withReader : Bool) :
    srv.planDownload path hdrs withReader =
      ((lift ((validateRelPath path).mapError fun m => Stopped.failed (.badRequest m)) :
        Handler Stopped Text) >>= fun path =>
          orElse (fun e => Stopped.failed (.storage e))
            (FsStorage.fileMeta srv.storage.root srv.storage.etag path) >>=
          srv.planFound path hdrs withReader) := by
  rfl

/-- The metadata of what is found. -/
theorem fileMeta_downloadsAt (s : Store) (path : Text) :
    (srv.downloadsAt s).fileMeta path = (srv.filesAt s path).map fun found =>
      found.map fun file => (srv.downloadsAt s).metaOf file path := rfl

end FileServer

/-! ## What a download relies on -/

/-- A file that is under a name stays there, and keeps its bytes. -/
def FileKept (p : FsPath) (s t : Store) : Prop :=
  ∀ f, s.disk.entry p = .file f → t.disk.entry p = .file f ∧ t.content f = s.content f

theorem FileKept.refl (p : FsPath) (s : Store) : FileKept p s s := fun _ hf => ⟨hf, rfl⟩

theorem FileKept.trans {p : FsPath} {s t u : Store} (hst : FileKept p s t)
    (htu : FileKept p t u) : FileKept p s u := by
  intro f hf
  obtain ⟨hentry, hcontent⟩ := hst f hf
  exact ⟨(htu f hentry).1, (htu f hentry).2.trans hcontent⟩

/-- The call that looks at the metadata of a file. -/
def ServerOp.looksUp : ServerOp → Bool
  | .store (.metadata _, _) => true
  | _ => false

/-- The look at the metadata is over: whatever it is answered, the program makes no other. -/
def HasLooked {ρ : Type} (p : Prog ServerOp ServerOp.Ans ρ) : Prop :=
  p.Along (fun op => op.looksUp = false) fun _ => True

/-- While a download is on its way from its look at the metadata to its open, the file under the
target stays; while it reads, the bytes it reads do. -/
def downloadRely (target : FsPath) : ServerOp → Store → Store → Prop
  | .store (.checkSymlinks _, _), s, t => FileKept target s t
  | .store (.openExisting _, _), s, t => FileKept target s t
  | .read f _ _, s, t => t.content f = s.content f
  | _, _, _ => True

/-- It is watched from its look at the metadata on. -/
def downloadWatch (V : Type) (target : FsPath) : Watch ServerOp (ClientRequest V) Store where
  asks := fun _ op => op.looksUp = false
  rely := downloadRely target
  refl := by
    intro o s
    unfold downloadRely
    split
    · exact FileKept.refl _ s
    · exact FileKept.refl _ s
    · rfl
    · trivial
  trans := by
    intro o s t u hst htu
    unfold downloadRely at *
    split at hst
    · exact hst.trans htu
    · exact hst.trans htu
    · exact htu.trans hst
    · trivial

/-! ## Rules -/

namespace Handler

/-- The handler of a download, watched. -/
def Watched {V ε α : Type} (srv : FileServer V) (target : FsPath) (i : Nat) (req : ClientRequest V)
    (x : Handler ε α) (Q : Except ε α → Store → Prop) (s : Store) : Prop :=
  watched (downloadWatch V target) ((serverSystem srv).exec i) req x Q s

/-- The handler of a download, decided by its look at the metadata. -/
def Decided {V ε α : Type} (srv : FileServer V) (target : FsPath) (i : Nat) (req : ClientRequest V)
    (x : Handler ε α) (U : Except ε α → Prop) (D : Except ε α → Store → Store → Prop) : Prop :=
  decided (downloadWatch V target) (srv.Fits target) ((serverSystem srv).exec i) req x U D

section Rules

variable {V : Type} {srv : FileServer V} {target : FsPath} {i : Nat} {req : ClientRequest V}
  {ε ε' α β : Type} {s : Store}

theorem watched_ret {a : α} {Q : Except ε α → Store → Prop} (h : Q (.ok a) s) :
    Watched srv target i req (ret a) Q s := h

theorem watched_fail {e : ε} {Q : Except ε α → Store → Prop} (h : Q (.error e) s) :
    Watched srv target i req (fail e) Q s := h

theorem watched_then {x : Handler ε α} {f : α → Handler ε β} {R : Except ε α → Store → Prop}
    {Q : Except ε β → Store → Prop} (hx : Watched srv target i req x R s)
    (hok : ∀ a t, R (.ok a) t → Watched srv target i req (f a) Q t)
    (herror : ∀ e t, R (.error e) t → Q (.error e) t) : Watched srv target i req (x >>= f) Q s := by
  apply watched_bind.2
  apply watched_mono hx
  intro r t hr
  cases r with
  | ok a => exact hok a t hr
  | error e => exact herror e t hr

theorem watched_lift {r : Except ε α} {Q : Except ε α → Store → Prop} (h : Q r s) :
    Watched srv target i req (lift r) Q s := by
  cases r with
  | ok a => exact h
  | error e => exact h

theorem watched_orElse {f : ε → ε'} {x : Handler ε α} {R : Except ε α → Store → Prop}
    {Q : Except ε' α → Store → Prop} (hx : Watched srv target i req x R s)
    (h : ∀ r t, R r t → Q (r.mapError f) t) : Watched srv target i req (orElse f x) Q s := by
  apply watched_bind.2
  apply watched_mono hx
  intro r t hr
  exact watched_lift (h r t hr)

/-- A call on the store at the head of a `do` block. -/
theorem watched_ask_then {op : Op} {f : op.Ans → Handler ε β} {Q : Except ε β → Store → Prop}
    (hlate : (ServerOp.store (op, Held.nothing)).looksUp = false)
    (h : ∀ t, downloadRely target (.store (op, Held.nothing)) s t → ∀ c u a,
      op.exec srv.storage.serde i c t = some (u, a) → Watched srv target i req (f a) Q u) :
    Watched srv target i req (ask op >>= f) Q s :=
  ⟨hlate, fun t ht c u a hexec => h t ht c.call u a hexec⟩

theorem watched_readPiece_then {file pos len : Nat}
    {f : Except IoError (List UInt8) → Handler ε β} {Q : Except ε β → Store → Prop}
    (h : ∀ t, t.content file = s.content file → ∀ a, (∃ e, a = .error e) ∨
      a = .ok ((((s.content file).bytesOf srv.storage.serde).drop pos).take len) →
      Watched srv target i req (f a) Q t) : Watched srv target i req (readPiece file pos len >>= f) Q s := by
  refine ⟨rfl, ?_⟩
  intro t ht c u a hexec
  have hsame : t.content file = s.content file := ht
  have hu : u = t := exec_read (i := i) hexec
  subst hu
  apply h u hsame
  obtain ⟨call, names⟩ := c
  cases call with
  | go =>
      cases hexec
      exact Or.inr (by rw [hsame])
  | fail done m =>
      cases hexec
      exact Or.inl ⟨_, rfl⟩

theorem late_lift {r : Except ε α} : Late (downloadWatch V target) req (lift r : Handler ε α) := by
  cases r with
  | ok a => trivial
  | error e => trivial

/-- A part after the look, and what comes after it. -/
theorem decided_then {x : Handler ε α} {f : α → Handler ε β} {U : Except ε α → Prop}
    {U' : Except ε β → Prop} {D : Except ε α → Store → Store → Prop}
    {D' : Except ε β → Store → Store → Prop} (hx : Decided srv target i req x U D)
    (hlate : ∀ a, Late (downloadWatch V target) req (f a))
    (hok : ∀ a, U (.ok a) → Decided srv target i req (f a) U' D')
    (herror : ∀ e, U (.error e) → U' (.error e))
    (hokNow : ∀ a m t, D (.ok a) m t → Watched srv target i req (f a) (fun r e => D' r m e) t)
    (herrorNow : ∀ e m t, D (.error e) m t → D' (.error e) m t) :
    Decided srv target i req (x >>= f) U' D' := by
  apply decided_bind
  · intro r
    cases r with
    | ok a => exact hlate a
    | error e => trivial
  apply decided_mono hx
  · intro r hr
    cases r with
    | ok a => exact hok a hr
    | error e => exact herror e hr
  · intro r m t hr
    cases r with
    | ok a => exact hokNow a m t hr
    | error e => exact herrorNow e m t hr

/-- A part that decides nothing, and what comes after it. -/
theorem decided_check_then {x : Handler ε α} {f : α → Handler ε β} {R : Except ε α → Prop}
    {U : Except ε β → Prop} {D : Except ε β → Store → Store → Prop}
    (hx : x.Along (fun _ => True) R)
    (hok : ∀ a, R (.ok a) → Decided srv target i req (f a) U D)
    (herror : ∀ e, R (.error e) → U (.error e)) : Decided srv target i req (x >>= f) U D := by
  apply decided_after
  apply Prog.Along.mono hx fun _ => id
  intro r hr
  cases r with
  | ok a => exact hok a hr
  | error e => exact herror e hr

theorem decided_lift {r : Except ε α} {U : Except ε α → Prop}
    {D : Except ε α → Store → Store → Prop} (h : U r) : Decided srv target i req (lift r) U D := by
  cases r with
  | ok a => exact h
  | error e => exact h

theorem decided_orElse {f : ε → ε'} {x : Handler ε α} {U : Except ε α → Prop}
    {U' : Except ε' α → Prop} {D : Except ε α → Store → Store → Prop}
    {D' : Except ε' α → Store → Store → Prop} (hx : Decided srv target i req x U D)
    (hU : ∀ r, U r → U' (r.mapError f)) (hD : ∀ r m t, D r m t → D' (r.mapError f) m t) :
    Decided srv target i req (orElse f x) U' D' := by
  apply decided_bind fun _ => late_lift
  apply decided_mono hx
  · intro r hr
    exact decided_lift (hU r hr)
  · intro r m t hr
    exact watched_lift (hD r m t hr)

end Rules

end Handler

/-! ## The storage -/

section Storage

variable {V : Type} {srv : FileServer V} {target : FsPath} {i : Nat} {req : ClientRequest V}
  {path : Text} {s : Store}

/-- A path is resolved, or the call fails. -/
theorem watched_checkedPath (hfull : resolve srv.storage.root path = .ok target) :
    Watched srv target i req (FsStorage.checkedPath srv.storage.root path)
      (fun r t => FileKept target s t ∧ (r = .ok target ∨ ∃ m, r = .error (.other m))) s := by
  unfold FsStorage.checkedPath
  rw [hfull]
  apply watched_then (R := fun r t => r = .ok target ∧ t = s)
  · exact watched_ret ⟨rfl, rfl⟩
  · intro p t h
    obtain ⟨hp, rfl⟩ := h
    cases hp
    apply watched_ask_then rfl
    intro t hrely c u a hexec
    obtain rfl := exec_checkSymlinks hexec
    apply watched_then (R := fun r t => t = u ∧ ((∃ m, r = .error (.other m)) ∨ r = .ok ()))
    · apply watched_lift
      cases a with
      | ok _ => exact ⟨rfl, Or.inr rfl⟩
      | error e => exact ⟨rfl, Or.inl ⟨_, rfl⟩⟩
    · intro _ t ht
      obtain ⟨rfl, -⟩ := ht
      exact watched_ret ⟨hrely, Or.inl rfl⟩
    · intro e t ht
      obtain ⟨rfl, ⟨m, hm⟩ | hm⟩ := ht
      · cases hm
        exact ⟨hrely, Or.inr ⟨m, rfl⟩⟩
      · cases hm
  · intro e t h
    cases h.1

/-- The open file is the one that was looked at. -/
theorem watched_readStream (hfull : resolve srv.storage.root path = .ok target) {f : Nat}
    (hentry : s.disk.entry target = .file f) :
    Watched srv target i req (FsStorage.readStream srv.storage.root path)
      (fun r t => t.content f = s.content f ∧ (r = .ok f ∨ ∃ m, r = .error (.other m))) s := by
  unfold FsStorage.readStream
  apply watched_then (watched_checkedPath hfull)
  · intro p t h
    obtain ⟨hsame, hp | ⟨m, hm⟩⟩ := h
    · cases hp
      apply watched_ask_then rfl
      intro u hrely c v a hexec
      have hboth : FileKept target s u := hsame.trans hrely
      obtain ⟨rfl, ⟨e, rfl⟩ | ⟨ino, hino, rfl⟩⟩ := exec_openExisting hexec
      · exact watched_lift ⟨(hboth f hentry).2, Or.inr ⟨_, rfl⟩⟩
      · rw [(hboth f hentry).1] at hino
        cases hino
        exact watched_lift ⟨(hboth f hentry).2, Or.inl rfl⟩
    · cases hm
  · intro e t h
    obtain ⟨hsame, he | ⟨m, hm⟩⟩ := h
    · cases he
    · cases hm
      exact ⟨(hsame f hentry).2, Or.inr ⟨m, rfl⟩⟩

/-- **The reader sends the bytes of the open file, or breaks off.** -/
theorem watched_readPieces {f : Nat} {bytes : List UInt8} :
    ∀ (fuel pos left : Nat) (s : Store), left ≤ fuel →
      (s.content f).bytesOf srv.storage.serde = bytes →
      Watched srv target i req (readPieces f fuel pos left)
        (fun r _ => r = .ok ((bytes.drop pos).take left) ∨ r = .error ()) s
  | 0, pos, left, s, hfuel, _ => by
      obtain rfl : left = 0 := Nat.le_zero.1 hfuel
      exact watched_ret (Or.inl (by rw [List.take_zero]))
  | fuel + 1, pos, left, s, hfuel, hbytes => by
      unfold readPieces
      split
      · next hzero =>
          subst hzero
          exact watched_ret (Or.inl (by rw [List.take_zero]))
      · next hleft =>
          apply watched_readPiece_then
          intro t hsame a ha
          rw [hbytes] at ha
          rw [← hsame] at hbytes
          rcases ha with ⟨e, rfl⟩ | rfl
          · exact watched_fail (Or.inr rfl)
          · have hbuf : 0 < STREAM_BUF_SIZE := by decide
            cases hpiece : (bytes.drop pos).take (min STREAM_BUF_SIZE left) with
            | nil =>
                have hend : bytes.drop pos = [] := by
                  rcases List.take_eq_nil_iff.1 hpiece with h | h
                  · omega
                  · exact h
                exact watched_ret (Or.inl (by rw [hend, List.take_nil]))
            | cons b rest =>
                have hlength : (b :: rest).length ≤ min STREAM_BUF_SIZE left := by
                  rw [← hpiece]
                  exact List.length_take_le _ _
                have hjoin : b :: rest ++ (bytes.drop (pos + (b :: rest).length)).take
                    (left - (b :: rest).length) = (bytes.drop pos).take left := by
                  have hprefix : b :: rest = (bytes.drop pos).take (b :: rest).length :=
                    List.prefix_iff_eq_take.1 (hpiece ▸ List.take_prefix _ _)
                  have htotal : left = (b :: rest).length + (left - (b :: rest).length) := by omega
                  rw [← List.drop_drop, htotal, List.take_add, Nat.add_sub_cancel_left, ← hprefix]
                have hrest := watched_readPieces fuel
                  (pos + (b :: rest).length) (left - (b :: rest).length) t (by
                    rw [List.length_cons]
                    omega) hbytes
                apply watched_then hrest
                · intro more u hmore
                  rcases hmore with hmore | hmore
                  · cases hmore
                    exact watched_ret (Or.inl (by rw [hjoin]))
                  · cases hmore
                · intro e u _
                  exact Or.inr rfl

end Storage

/-! ## The handlers -/

section Handlers

variable {V : Type} {srv : FileServer V} {target : FsPath} {i : Nat} {req : ClientRequest V}
  {path : Text} {s : Store} {hdrs : DownloadHeaders V} {withReader : Bool}

theorem Handler.asks_planFile {P : ServerOp → Prop} (hP : AllowsOpening P srv.storage.root path)
    (fileMeta : FileMeta) :
    Asks P (srv.planFile path hdrs withReader fileMeta) fun _ => True := by
  unfold FileServer.planFile
  split
  · exact asks_fail
  · split
    · exact asks_fail
    · apply asks_then (R := fun _ => True) (asks_lift fun _ _ => trivial)
      intro spec _
      have hplan : ∀ (isPartial : Bool) (reader : Option (Nat × RangeSpec)), Asks P (do
          let plan ← lift (srv.downloads.planSpan path fileMeta hdrs false isPartial spec)
          ret (plan, reader) : Handler Stopped _) fun _ => True := by
        intro isPartial reader
        apply asks_then (R := fun _ => True) (asks_lift fun _ _ => trivial)
        intro plan _
        exact asks_ret trivial
      cases withReader with
      | false => exact asks_then (asks_ret trivial) fun reader (_ : True) => hplan _ reader
      | true =>
          apply asks_then (asks_orElse (asks_readStream hP))
          intro file _
          exact asks_then (asks_ret trivial) fun reader (_ : True) => hplan _ reader

/-- To open and read a file is not to look at its metadata. -/
theorem allowsOpening_late (root : FsPath) (path : Text) :
    AllowsOpening (fun op => op.looksUp = false) root path := by
  constructor
  · intro full _ op hop
    simp only [List.mem_cons, List.not_mem_nil, or_false] at hop
    rcases hop with rfl | rfl <;> rfl
  · exact fun _ _ _ => rfl

theorem late_of_asks {ε α : Type} {x : Handler ε α}
    (h : Asks (fun op => op.looksUp = false) x fun _ => True) :
    Late (downloadWatch V target) req x :=
  Prog.Along.mono h (fun _ => id) fun _ _ => trivial

/-- I/O has failed before anything was sent. -/
def IoFailed {α : Type} (r : Except Stopped α) : Prop :=
  ∃ m, r = .error (.failed (.storage (.other m)))

/-- **The file is planned as its metadata says, and the file looked at is the one opened.** -/
theorem watched_planFile (hfull : resolve srv.storage.root path = .ok target) {f : Nat}
    (hentry : s.disk.entry target = .file f) (fileMeta : FileMeta) :
    Watched srv target i req (srv.planFile path hdrs withReader fileMeta)
      (fun r t => t.content f = s.content f ∧ (IoFailed r ∨
        r = (srv.downloads.planSpec path fileMeta hdrs).map fun planned =>
          (planned.1, if withReader then some (f, planned.2) else none))) s := by
  unfold FileServer.planFile DownloadServer.planSpec
  split
  · exact watched_fail ⟨rfl, Or.inr rfl⟩
  · cases srv.downloads.requestedRange hdrs with
    | none => exact watched_fail ⟨rfl, Or.inr rfl⟩
    | some asked =>
        dsimp only
        generalize srv.downloads.honoured hdrs fileMeta.etag asked = range
        cases DownloadServer.resolveRange fileMeta.size range with
        | error e => exact watched_fail ⟨rfl, Or.inr rfl⟩
        | ok spec =>
            have hplan : ∀ (t : Store) (reader : Option (Nat × RangeSpec)),
                t.content f = s.content f → reader = (if withReader then some (f, spec) else none) →
                Watched srv target i req (do
                  let plan ← lift (srv.downloads.planSpan path fileMeta hdrs false range.isSome spec)
                  ret (plan, reader) : Handler Stopped _)
                  (fun r t => t.content f = s.content f ∧ (IoFailed r ∨ r =
                    Except.map (fun planned : DownloadPlan × RangeSpec =>
                      (planned.1, if withReader then some (f, planned.2) else none))
                    ((srv.downloads.planSpan path fileMeta hdrs false range.isSome spec).bind
                      fun plan => .ok (plan, spec)))) t := by
              intro t reader ht hreader
              cases srv.downloads.planSpan path fileMeta hdrs false range.isSome spec with
              | error e => exact watched_fail ⟨ht, Or.inr rfl⟩
              | ok plan =>
                  refine watched_ret ⟨ht, Or.inr ?_⟩
                  rw [hreader]
                  rfl
            cases withReader with
            | false => exact hplan s none rfl rfl
            | true =>
                change Watched srv target i req (orElse (fun e => Stopped.failed (.storage e))
                  (FsStorage.readStream srv.storage.root path) >>= fun file => (do
                    let plan ← lift (srv.downloads.planSpan path fileMeta hdrs false range.isSome
                      spec)
                    ret (plan, some (file, spec)) : Handler Stopped _)) _ s
                apply watched_then (R := fun r t => t.content f = s.content f ∧
                  (IoFailed r ∨ r = .ok f))
                · apply watched_orElse (watched_readStream hfull hentry)
                  intro r t h
                  obtain ⟨ht, rfl | ⟨m, rfl⟩⟩ := h
                  · exact ⟨ht, Or.inr rfl⟩
                  · exact ⟨ht, Or.inl ⟨m, rfl⟩⟩
                · intro g t h
                  obtain ⟨ht, ⟨m, hm⟩ | hg⟩ := h
                  · cases hm
                  · cases hg
                    exact hplan t _ ht rfl
                · intro e t h
                  obtain ⟨ht, ⟨m, hm⟩ | hg⟩ := h
                  · exact ⟨ht, Or.inl ⟨m, by rw [Except.error.inj hm]⟩⟩
                  · cases hg

/-- What a plan sends of the file, unless the reader breaks off. -/
def FileServer.SentAs (srv : FileServer V) (withReader : Bool) (file : StoredFile)
    (planned : DownloadPlan × RangeSpec) (r : Except Stopped ServerResponse) : Prop :=
  r = .ok (srv.respond withReader (DownloadServer.reading withReader file planned)) ∨
    ∃ data, (srv.respond withReader (DownloadServer.reading withReader file planned)).body =
        .bytes data ∧
      r = .ok { srv.respond withReader (DownloadServer.reading withReader file planned) with
        body := .broken }

/-- How `download` ends. -/
def FileServer.send (srv : FileServer V) :
    DownloadPlan × Option (Nat × RangeSpec) → Handler Stopped ServerResponse
  | (plan, none) => ret ⟨plan.status, plan.headers, .empty⟩
  | (plan, some (file, spec)) => do
      match ← attempt (readPieces file spec.len spec.start spec.len) with
      | .ok data =>
          ret ⟨plan.status, plan.headers,
            .bytes (srv.downloads.bodyStream data plan.format plan.level)⟩
      | .error _ => ret ⟨plan.status, plan.headers, .broken⟩

theorem download_eq_send (path : Text) (hdrs : DownloadHeaders V) :
    srv.download path hdrs = srv.planDownload path hdrs true >>= srv.send := by
  unfold FileServer.download
  congr
  funext r
  obtain ⟨plan, reader⟩ := r
  cases reader <;> rfl

theorem Handler.asks_send {P : ServerOp → Prop} (hP : ∀ file pos len, P (.read file pos len))
    (planned : DownloadPlan × Option (Nat × RangeSpec)) :
    Asks P (srv.send planned) fun _ => True := by
  obtain ⟨plan, reader⟩ := planned
  cases reader with
  | none => exact asks_ret trivial
  | some reader =>
      obtain ⟨file, spec⟩ := reader
      apply asks_then (asks_attempt (asks_readPieces hP _ _ _ _))
      intro r _
      cases r with
      | ok data => exact asks_ret trivial
      | error e => exact asks_ret trivial

/-- **A planned download sends the span of the file that is open.** -/
theorem watched_send {f : Nat} {file : StoredFile}
    (hbytes : (s.content f).bytesOf srv.storage.serde = file.bytes)
    (planned : DownloadPlan × RangeSpec) :
    Watched srv target i req (srv.send (planned.1, some (f, planned.2)))
      (fun r _ => srv.SentAs true file planned r) s := by
  obtain ⟨plan, spec⟩ := planned
  unfold FileServer.send
  apply watched_then (R := fun r _ => r = .ok (.ok ((file.bytes.drop spec.start).take spec.len)) ∨
    r = .ok (.error ()))
  · apply watched_bind.2
    apply watched_mono (watched_readPieces spec.len spec.start spec.len s (Nat.le_refl _) hbytes)
    intro r t hr
    rcases hr with rfl | rfl
    · exact watched_ret (Or.inl rfl)
    · exact watched_ret (Or.inr rfl)
  · intro r t hr
    rcases hr with hr | hr
    · cases hr
      exact watched_ret (Or.inl rfl)
    · cases hr
      exact watched_ret (Or.inr ⟨_, rfl, rfl⟩)
  · intro e t hr
    rcases hr with hr | hr
    · cases hr
    · cases hr

/-- **What the storage finds is what is there when it looks.** -/
theorem decided_fileMeta
    (htarget : ∀ full, resolve srv.storage.root path = .ok full → full = target) :
    Decided srv target i req (FsStorage.fileMeta srv.storage.root srv.storage.etag path)
      (fun r => (∃ m, r = .error (.other m)) ∨
        ∃ m, resolve srv.storage.root path = .error m ∧ r = .error (.unsupported m))
      (fun r m t => t = m ∧ srv.Fits target m ∧
        ((∃ e, r = .error (.other e)) ∨ r = (srv.downloadsAt m).fileMeta path)) := by
  unfold FsStorage.fileMeta
  have hchecked : (FsStorage.checkedPath srv.storage.root path).Along (fun _ => True)
      fun r => (∃ m, r = .error (.other m)) ∨
        (∃ m, resolve srv.storage.root path = .error m ∧ r = .error (.unsupported m)) ∨
        ∃ full, resolve srv.storage.root path = .ok full ∧ r = .ok full := by
    unfold FsStorage.checkedPath
    cases resolve srv.storage.root path with
    | error m => exact Or.inr (Or.inl ⟨m, rfl, rfl⟩)
    | ok full =>
        refine ⟨trivial, ?_⟩
        intro a
        cases a with
        | error e => exact Or.inl ⟨_, rfl⟩
        | ok u => exact Or.inr (Or.inr ⟨full, rfl, rfl⟩)
  -- The check of symbolic links decides nothing; the call after it does.
  apply decided_check_then hchecked
  · intro full h
    rcases h with ⟨m, hm⟩ | ⟨m, -, hm⟩ | ⟨p, hp, heq⟩
    · cases hm
    · cases hm
    · cases heq
      intro s hfit c t a hexec
      right
      have hopened : ∀ (d : Choice), Op.exec srv.storage.serde i (.metadata full) d s = some (t, a) →
          t = s ∧ ((∃ m, a = .error ⟨false, m⟩) ∨
            (s.disk.entry full = .absent ∧ a = .error .noEntry) ∨
            (s.disk.entry full = .dir ∧ a = .ok ⟨true, 0, 0⟩) ∨
            ∃ f, s.disk.entry full = .file f ∧ a = .ok ⟨false, (s.content f).len srv.storage.serde,
              (s.disk.content f).mtime⟩) := by
        intro d hd
        cases d with
        | fail n m =>
            cases hd
            exact ⟨rfl, Or.inl ⟨m, rfl⟩⟩
        | go =>
            simp only [Op.exec] at hd
            split at hd
            · next hentry =>
                cases hd
                exact ⟨rfl, Or.inr (Or.inl ⟨hentry, rfl⟩)⟩
            · next f hentry =>
                cases hd
                exact ⟨rfl, Or.inr (Or.inr (Or.inr ⟨f, hentry, rfl⟩))⟩
            · next hentry =>
                cases hd
                exact ⟨rfl, Or.inr (Or.inr (Or.inl ⟨hentry, rfl⟩))⟩
      obtain ⟨rfl, hcase⟩ := hopened c.call hexec
      obtain rfl := htarget full hp
      rcases hcase with ⟨m, rfl⟩ | ⟨hentry, rfl⟩ | ⟨hentry, rfl⟩ | ⟨f, hentry, rfl⟩
      · exact ⟨trivial, watched_fail ⟨rfl, hfit, Or.inl ⟨m, rfl⟩⟩⟩
      · refine ⟨trivial, watched_ret ⟨rfl, hfit, Or.inr ?_⟩⟩
        rw [srv.fileMeta_downloadsAt, srv.filesAt_absent hp hentry]
        rfl
      · refine ⟨trivial, watched_fail ⟨rfl, hfit, Or.inr ?_⟩⟩
        rw [srv.fileMeta_downloadsAt, srv.filesAt_dir hp hentry]
        rfl
      · refine ⟨trivial, watched_ret ⟨rfl, hfit, Or.inr ?_⟩⟩
        rw [srv.fileMeta_downloadsAt, srv.filesAt_file hp hentry (hfit f hentry)]
        simp [Except.map, DownloadServer.metaOf, FileServer.downloadsAt, FsSink.fileMetaAt,
          Content.bytesOf, Content.len]
  · intro e h
    rcases h with ⟨m, he⟩ | ⟨m, hm, he⟩ | ⟨p, -, hp⟩
    · exact Or.inl ⟨m, by rw [Except.error.inj he]⟩
    · exact Or.inr ⟨m, hm, by rw [Except.error.inj he]⟩
    · cases hp

/-- A file that is found is there. -/
theorem FileServer.filesAt_eq_some {file : StoredFile}
    (h : srv.filesAt s path = .ok (some file)) :
    ∃ full f, resolve srv.storage.root path = .ok full ∧ s.disk.entry full = .file f ∧
      (s.content f).bytesOf srv.storage.serde = file.bytes := by
  unfold FileServer.filesAt at h
  split at h
  · cases h
  · next full hfull =>
      split at h
      · cases h
      · cases h
      · next f hentry =>
          split at h
          · cases h
            exact ⟨full, f, hfull, hentry, rfl⟩
          · cases h

/-- What a plan ends in, told by what is found. -/
theorem FileServer.planDownload_downloadsAt (hvalid : validateRelPath path = .ok path) (s : Store)
    (hdrs : DownloadHeaders V) (withReader : Bool) :
    (srv.downloadsAt s).planDownload path hdrs withReader =
      match srv.filesAt s path with
      | .error e => .error (.failed (.storage e))
      | .ok none => .error (.failed (.notFound path))
      | .ok (some file) => (srv.downloads.planSpec path ((srv.downloadsAt s).metaOf file path) hdrs).map
          (DownloadServer.reading withReader file) := by
  have hfound := srv.fileMeta_downloadsAt s path
  cases hfiles : srv.filesAt s path with
  | error e =>
      rw [hfiles] at hfound
      unfold DownloadServer.planDownload
      rw [hvalid]
      simp only [Except.mapError, bind, Except.bind, hfound, Except.map]
  | ok found =>
      cases found with
      | none =>
          rw [hfiles] at hfound
          unfold DownloadServer.planDownload
          rw [hvalid]
          simp only [Except.mapError, bind, Except.bind, hfound, Except.map, Option.map_none]
      | some file => exact DownloadServer.planDownload_eq_planSpec hvalid hfiles withReader

/-- What `plan_download` ends in where it is never decided. -/
def FileServer.Unplanned (srv : FileServer V) (path : Text) {α : Type} (r : Except Stopped α) :
    Prop :=
  IoFailed r ∨ ∃ m, resolve srv.storage.root path = .error m ∧
    r = .error (.failed (.storage (.unsupported m)))

/-- What it ends in where the store decides it. -/
def FileServer.PlannedAt (srv : FileServer V) (path : Text) (hdrs : DownloadHeaders V)
    (withReader : Bool) (m t : Store)
    (r : Except Stopped (DownloadPlan × Option (Nat × RangeSpec))) : Prop :=
  IoFailed r ∨
    (∃ e, (srv.downloadsAt m).planDownload path hdrs withReader = .error e ∧ r = .error e) ∨
    ∃ f file, srv.filesAt m path = .ok (some file) ∧
      (t.content f).bytesOf srv.storage.serde = file.bytes ∧
      r = (srv.downloads.planSpec path ((srv.downloadsAt m).metaOf file path) hdrs).map
        fun planned => (planned.1, if withReader then some (f, planned.2) else none)

/-- The plan of a found file is made after the look. -/
theorem late_planFound (path : Text) (found : Option FileMeta) :
    Late (downloadWatch V target) req (srv.planFound path hdrs withReader found) := by
  cases found with
  | none => trivial
  | some fileMeta =>
      exact late_of_asks (asks_planFile (allowsOpening_late srv.storage.root path) fileMeta)

/-- **A download is planned when it looks at the metadata.** -/
theorem decided_planDownload (hvalid : validateRelPath path = .ok path)
    (htarget : ∀ full, resolve srv.storage.root path = .ok full → full = target) :
    Decided srv target i req (srv.planDownload path hdrs withReader) (srv.Unplanned path)
      (fun r m t => srv.PlannedAt path hdrs withReader m t r) := by
  have hlook : Decided srv target i req (orElse (fun e => Stopped.failed (.storage e))
      (FsStorage.fileMeta srv.storage.root srv.storage.etag path)) (srv.Unplanned path)
      (fun r m t => t = m ∧ (IoFailed r ∨
        r = ((srv.downloadsAt m).fileMeta path).mapError fun e => Stopped.failed (.storage e))) := by
    apply decided_orElse (decided_fileMeta htarget)
    · rintro r (⟨m, rfl⟩ | ⟨m, hm, rfl⟩)
      · exact Or.inl ⟨m, rfl⟩
      · exact Or.inr ⟨m, hm, rfl⟩
    · rintro r m t ⟨ht, -, ⟨e, rfl⟩ | rfl⟩
      · exact ⟨ht, Or.inl ⟨e, rfl⟩⟩
      · exact ⟨ht, Or.inr rfl⟩
  rw [FileServer.planDownload_eq_planFound, hvalid]
  apply decided_then hlook (late_planFound path)
  · rintro found (⟨m, hm⟩ | ⟨m, -, hm⟩)
    · cases hm
    · cases hm
  · rintro e (⟨m, hm⟩ | ⟨m, hres, hm⟩)
    · exact Or.inl ⟨m, by rw [Except.error.inj hm]⟩
    · exact Or.inr ⟨m, hres, by rw [Except.error.inj hm]⟩
  · rintro found m t ⟨rfl, ⟨e, he⟩ | hfound⟩
    · cases he
    · rw [srv.fileMeta_downloadsAt] at hfound
      have hplan := srv.planDownload_downloadsAt hvalid t hdrs withReader
      cases hfiles : srv.filesAt t path with
      | error e =>
          rw [hfiles] at hfound
          cases hfound
      | ok stored =>
          rw [hfiles] at hfound hplan
          cases hfound
          cases stored with
          | none => exact watched_fail (Or.inr (Or.inl ⟨_, hplan, rfl⟩))
          | some file =>
              obtain ⟨full, f, hfull, hentry, hbytes⟩ := srv.filesAt_eq_some hfiles
              obtain rfl := htarget full hfull
              apply watched_mono (watched_planFile hfull hentry _)
              rintro r u ⟨hsame, hio | hr⟩
              · exact Or.inl hio
              · exact Or.inr (Or.inr ⟨f, file, hfiles, by rw [hsame, hbytes], hr⟩)
  · rintro e m t ⟨rfl, ⟨m, hm⟩ | hfound⟩
    · exact Or.inl ⟨m, by rw [Except.error.inj hm]⟩
    · rw [srv.fileMeta_downloadsAt] at hfound
      have hplan := srv.planDownload_downloadsAt hvalid t hdrs withReader
      cases hfiles : srv.filesAt t path with
      | error e' =>
          rw [hfiles] at hfound hplan
          cases hfound
          exact Or.inr (Or.inl ⟨_, hplan, rfl⟩)
      | ok stored =>
          rw [hfiles] at hfound
          cases hfound

/-- **A download is answered as of the moment it looks at the metadata.** -/
theorem decided_answered (hpath : srv.resolvePath req = .ok path)
    (htarget : ∀ full, resolve srv.storage.root path = .ok full → full = target)
    {tail : DownloadPlan × Option (Nat × RangeSpec) → Handler Stopped ServerResponse}
    (hlate : ∀ planned, Late (downloadWatch V target) req (tail planned))
    (htail : ∀ (planned : DownloadPlan × RangeSpec) (f : Nat) (file : StoredFile) (s : Store),
      (s.content f).bytesOf srv.storage.serde = file.bytes →
      Watched srv target i req (tail (planned.1, if withReader then some (f, planned.2) else none))
        (fun r _ => srv.SentAs withReader file planned r) s) :
    Decided srv target i req (srv.planDownload path hdrs withReader >>= tail)
      (fun r => ∀ e, srv.AnsweredAt e withReader req hdrs (FileServer.answered r))
      (fun r m _ => srv.AnsweredAt m withReader req hdrs (FileServer.answered r)) := by
  have hvalid : validateRelPath path = .ok path := srv.canonical_of_resolvePath hpath
  have hanswer : ∀ s, srv.answerAt s withReader req hdrs = FileServer.answered
      (((srv.downloadsAt s).planDownload path hdrs withReader).map (srv.respond withReader)) := by
    intro s
    unfold FileServer.answerAt
    rw [hpath]
  have hio : ∀ (s : Store) (m : Text), srv.AnsweredAt s withReader req hdrs
      (FileServer.answered (.error (.failed (.storage (.other m))))) :=
    fun s m => Or.inr (Or.inl ⟨m, rfl⟩)
  apply decided_then (decided_planDownload hvalid htarget) hlate
  · rintro planned (⟨m, hm⟩ | ⟨m, -, hm⟩)
    · cases hm
    · cases hm
  · rintro e (⟨m, hm⟩ | ⟨m, hres, hm⟩) s
    · cases hm
      exact hio s m
    · cases hm
      left
      have hfiles : srv.filesAt s path = .error (.unsupported m) := by
        unfold FileServer.filesAt
        rw [hres]
      rw [hanswer, srv.planDownload_downloadsAt hvalid, hfiles]
      rfl
  · rintro found m t (⟨e, he⟩ | ⟨e, -, he⟩ | ⟨f, file, hfiles, hbytes, hr⟩)
    · cases he
    · cases he
    · have hplan := srv.planDownload_downloadsAt hvalid m hdrs withReader
      rw [hfiles] at hplan
      dsimp only at hplan
      cases hspec : srv.downloads.planSpec path ((srv.downloadsAt m).metaOf file path) hdrs with
      | error e =>
          rw [hspec] at hr
          cases hr
      | ok planned =>
          rw [hspec] at hr hplan
          cases hr
          apply watched_mono (htail planned f file t hbytes)
          rintro r u (rfl | ⟨data, hdata, rfl⟩)
          · left
            rw [hanswer, hplan]
            rfl
          · refine Or.inr (Or.inr ⟨_, data, ?_, hdata, rfl⟩)
            rw [hanswer, hplan]
            rfl
  · rintro e m t (⟨m', hm⟩ | ⟨e', hplan, he⟩ | ⟨f, file, hfiles, -, hr⟩)
    · cases hm
      exact hio m m'
    · cases he
      left
      rw [hanswer, hplan]
      rfl
    · have hplan := srv.planDownload_downloadsAt hvalid m hdrs withReader
      rw [hfiles] at hplan
      dsimp only at hplan
      cases hspec : srv.downloads.planSpec path ((srv.downloadsAt m).metaOf file path) hdrs with
      | error e' =>
          rw [hspec] at hr hplan
          cases hr
          left
          rw [hanswer, hplan]
          rfl
      | ok planned =>
          rw [hspec] at hr
          cases hr

/-- Where a request leads, if it leads anywhere. -/
def FileServer.LeadsTo (srv : FileServer V) (req : ClientRequest V) (target : FsPath) : Prop :=
  ∀ real full, srv.resolvePath req = .ok real → resolve srv.storage.root real = .ok full →
    full = target

/-- Every request that reads a file is so answered. -/
theorem decided_serve (hreads : FileServer.Reads req hdrs withReader)
    (htarget : srv.LeadsTo req target) :
    decided (downloadWatch V target) (srv.Fits target) ((serverSystem srv).exec i) req (srv.serve req)
      (fun r => ∀ e, srv.AnsweredAt e withReader req hdrs r)
      (fun r m _ => srv.AnsweredAt m withReader req hdrs r) := by
  unfold FileServer.serve
  cases hpath : srv.resolvePath req with
  | error e =>
      intro s
      left
      unfold FileServer.answerAt
      rw [hpath]
  | ok path =>
      apply decided_bind
      · intro r
        cases r with
        | ok response => trivial
        | error e => cases e <;> trivial
      have hhandle : Decided srv target i req (srv.handle path req)
          (fun r => ∀ e, srv.AnsweredAt e withReader req hdrs (FileServer.answered r))
          (fun r m _ => srv.AnsweredAt m withReader req hdrs (FileServer.answered r)) := by
        cases hreads with
        | download =>
            change Decided srv target i _ (srv.download path hdrs) _ _
            rw [download_eq_send]
            exact decided_answered hpath (htarget path · hpath)
              (fun planned => late_of_asks (asks_send (fun _ _ _ => rfl) planned))
              fun planned f file s hbytes => watched_send hbytes planned
        | head =>
            exact decided_answered hpath (htarget path · hpath) (fun _ => trivial)
              fun planned f file s hbytes => watched_ret (Or.inl rfl)
      apply decided_mono hhandle
      · intro r hr
        cases r with
        | ok response => exact hr
        | error e =>
            cases e with
            | failed e => exact hr
            | overflowed => exact hr
      · intro r m t hr
        cases r with
        | ok response => exact hr
        | error e =>
            cases e with
            | failed e => exact hr
            | overflowed => exact hr

end Handlers

/-! ## Runs -/

section Runs

variable {V : Type} (srv : FileServer V)

/-- The file fits, and while request `i` waits for a call after its look at the metadata, a step
that is not its own respects what a download of the target relies on there. -/
def SparesDownload (target : FsPath) (i : Nat) (s : ServerState V) (a : ServerAct V) : Prop :=
  srv.Fits target s.shared ∧ ∀ t, (serverSystem srv).next s a = some t → ∀ req op k,
    s.task i = .waiting req op k → HasLooked (.call op k) → (∀ c, a ≠ .step i c) →
      downloadRely target op s.shared t.shared

variable {srv}

/-- In a run that spares the download, it is answered as of a moment of the run. -/
theorem answered_at_moment {target : FsPath} {i : Nat} {s₀ : Store} {s t : ServerState V}
    {c : ServerChoice} {req : ClientRequest V} {hdrs : DownloadHeaders V} {withReader : Bool}
    {r : Option ServerResponse} {ok : ServerState V → ServerAct V → Prop}
    (hspares : ∀ s a, ok s a → SparesDownload srv target i s a)
    (hreads : FileServer.Reads req hdrs withReader) (htarget : srv.LeadsTo req target)
    (hrun : (serverSystem srv).Reaches ok (idleServer s₀) s) (hok : ok s (.step i c))
    (hnext : (serverSystem srv).next s (.step i c) = some t)
    (hend : t.task i = .finished req r) :
    ∃ u, Moment (serverSystem srv) ok (idleServer s₀) i req u s ∧
      srv.AnsweredAt u.shared withReader req hdrs r := by
  have halong : ∀ {ρ : Type} (p : Prog ServerOp ServerOp.Ans ρ),
      p.Along (fun _ => True) fun _ => True := by
    intro ρ p
    induction p with
    | done r => trivial
    | call o k ih => exact ⟨trivial, ih⟩
  have hcode : ∀ req, decided (downloadWatch V target) (srv.Fits target) ((serverSystem srv).exec i) req
      ((serverSystem srv).code req)
      (fun r => ∀ m, ∀ hdrs w, FileServer.Reads req hdrs w → srv.LeadsTo req target →
        srv.AnsweredAt m w req hdrs r)
      (fun r m _ => ∀ hdrs w, FileServer.Reads req hdrs w → srv.LeadsTo req target →
        srv.AnsweredAt m w req hdrs r) := by
    intro req
    by_cases hserved : (∃ hdrs w, FileServer.Reads req hdrs w) ∧ srv.LeadsTo req target
    · obtain ⟨⟨hdrs, w, hreads⟩, htarget⟩ := hserved
      have hunique : ∀ hdrs' w', FileServer.Reads req hdrs' w' → hdrs' = hdrs ∧ w' = w := by
        intro hdrs' w' hreads'
        cases hreads <;> (cases hreads'; exact ⟨rfl, rfl⟩)
      apply decided_mono (decided_serve hreads htarget)
      · intro r h m hdrs' w' hreads' _
        obtain ⟨rfl, rfl⟩ := hunique hdrs' w' hreads'
        exact h m
      · intro r m e h hdrs' w' hreads' _
        obtain ⟨rfl, rfl⟩ := hunique hdrs' w' hreads'
        exact h
    · apply decided_of_along
      apply (halong _).mono (fun _ => id)
      intro r _ m hdrs w hreads htarget
      exact absurd ⟨⟨hdrs, w, hreads⟩, htarget⟩ hserved
  have hcourse := decided_of_reaches
    (Q := fun req r m => ∀ hdrs w, FileServer.Reads req hdrs w → srv.LeadsTo req target →
      srv.AnsweredAt m w req hdrs r)
    hcode (fun u a v h hnext => (hspares u a h).2 v hnext) (fun u a h => (hspares u a h).1) rfl hrun
  obtain ⟨u, hu, hanswered⟩ :=
    moment_of_ended hrun hcourse hok (hspares s _ hok).1 hnext hend
  exact ⟨u, hu, hanswered hdrs withReader hreads htarget⟩

/-- **A download is answered as by a store that stands still at one moment of its run.** -/
theorem downloads_answered_at_once {target : FsPath} {i : Nat} {s₀ : Store} {s t : ServerState V}
    {c : ServerChoice} {req : ClientRequest V} {hdrs : DownloadHeaders V} {withReader : Bool}
    {r : Option ServerResponse} (hreads : FileServer.Reads req hdrs withReader)
    (htarget : srv.LeadsTo req target)
    (hrun : (serverSystem srv).Reaches (SparesDownload srv target i) (idleServer s₀) s)
    (hok : SparesDownload srv target i s (.step i c))
    (hnext : (serverSystem srv).next s (.step i c) = some t)
    (hend : t.task i = .finished req r) :
    ∃ u, Moment (serverSystem srv) (SparesDownload srv target i) (idleServer s₀) i req u s ∧
      srv.AnsweredAt u.shared withReader req hdrs r :=
  answered_at_moment (fun _ _ h => h) hreads htarget hrun hok hnext hend

end Runs

/-! ### A download beside two uploads -/

/-- The file `a` holds two bytes. -/
def hiStore : Store :=
  sampleStore.create (sampleServer.root ++ [.normal "a".toList]) (.bytes [some 104, some 105])

def hiTarget : FsPath := sampleServer.root ++ [.normal "a".toList]

def plainHeaders : DownloadHeaders (List UInt8) := ⟨none, none, none, none, none⟩

def hiDownload : ClientRequest (List UInt8) :=
  .download (claimsOf "bob".toList) "a".toList plainHeaders

theorem hiDownload_leadsTo : sampleFiles.LeadsTo hiDownload hiTarget := by
  intro real full hreal hfull
  have hpath : sampleFiles.resolvePath hiDownload = .ok "a".toList := by decide +kernel
  rw [hpath] at hreal
  cases hreal
  have hresolved : resolve sampleFiles.storage.root "a".toList = .ok hiTarget := by decide +kernel
  rw [hresolved] at hfull
  cases hfull
  rfl

/-- A test of `Fits`. -/
def fitsNow (target : FsPath) (s : ServerState (List UInt8)) : Bool :=
  match s.shared.disk.entry target with
  | .file f => decide (((s.shared.content f).bytesOf sampleServer.serde).length < 2 ^ 64)
  | _ => true

theorem fits_of_fitsNow {target : FsPath} {s : ServerState (List UInt8)}
    (h : fitsNow target s = true) : sampleFiles.Fits target s.shared := by
  intro f hf
  unfold fitsNow at h
  rw [hf] at h
  exact of_decide_eq_true h

/-- Two bytes for another file. -/
def elsewhereUpload : ClientRequest (List UInt8) :=
  .upload (claimsOf "alice".toList) "g".toList
    ⟨some (headerBytes (encodeFileMetaHeader plainMetaJson ⟨"f".toList, 2, 0, []⟩)), none, none,
      none, none⟩
    ⟨[.data [5, 6]], .ok []⟩

/-- And for this one, whatever is there. -/
def overwriteUpload : ClientRequest (List UInt8) :=
  .upload (claimsOf "alice".toList) "a".toList
    ⟨some (headerBytes (encodeFileMetaHeader plainMetaJson ⟨"f".toList, 2, 0, []⟩)), none, none,
      some (headerBytes "0".toList), none⟩
    ⟨[.data [5, 6]], .ok []⟩

/-- The program waits for its look at the metadata, or for the check right before it. -/
def looksStill {ρ : Type} : Prog ServerOp ServerOp.Ans ρ → Bool
  | .call (.store (.checkSymlinks _, _)) k =>
      match k (.ok ()) with
      | .call o _ => o.looksUp
      | .done _ => false
  | .call o _ => o.looksUp
  | .done _ => false

theorem not_hasLooked_of_looksStill {ρ : Type} {p : Prog ServerOp ServerOp.Ans ρ}
    (h : looksStill p = true) : ¬ HasLooked p := by
  intro hlooked
  unfold looksStill at h
  split at h
  · next path held k =>
      split at h
      · next o k' hnext =>
          have hlate : HasLooked (k (.ok ())) := hlooked.2 (.ok ())
          rw [hnext] at hlate
          rw [hlate.1] at h
          cases h
      · cases h
  · next o k _ =>
      rw [hlooked.1] at h
      cases h
  · cases h

/-- A test of what a download relies on. -/
def restsNow (target : FsPath) (op : ServerOp) (s t : Store) : Bool :=
  match op with
  | .read f _ _ => decide (t.content f = s.content f)
  | _ =>
      match s.disk.entry target with
      | .file f => decide (t.disk.entry target = .file f ∧ t.content f = s.content f)
      | _ => true

theorem downloadRely_of_restsNow {target : FsPath} {op : ServerOp} {s t : Store}
    (h : restsNow target op s t = true) : downloadRely target op s t := by
  have hkept : (∀ f pos len, op ≠ .read f pos len) → FileKept target s t := by
    intro hread f hf
    unfold restsNow at h
    split at h
    · exact absurd rfl (hread _ _ _)
    · rw [hf] at h
      exact of_decide_eq_true h
  unfold downloadRely
  split
  · exact hkept fun f pos len h => by cases h
  · exact hkept fun f pos len h => by cases h
  · exact of_decide_eq_true h
  · trivial

/-- A test of `SparesDownload` for request 0. -/
def sparesNow (s : ServerState (List UInt8)) (a : ServerAct (List UInt8)) : Bool :=
  fitsNow hiTarget s &&
    match s.task 0 with
    | .waiting _ op k => looksStill (.call op k) ||
        ((serverSystem sampleFiles).next s a).all fun t => restsNow hiTarget op s.shared t.shared
    | _ => true

theorem sparesDownload_of_sparesNow {s : ServerState (List UInt8)} {a : ServerAct (List UInt8)}
    (h : sparesNow s a = true) : SparesDownload sampleFiles hiTarget 0 s a := by
  obtain ⟨hfits, hspares⟩ := Bool.and_eq_true_iff.1 h
  refine ⟨fits_of_fitsNow hfits, ?_⟩
  intro t hnext req op k hwait hlooked _
  rw [hwait] at hspares
  rcases Bool.or_eq_true_iff.1 hspares with hstill | hrests
  · exact absurd hlooked (not_hasLooked_of_looksStill hstill)
  · rw [hnext] at hrests
    exact downloadRely_of_restsNow hrests

/-- While the download waits for its first check the file is overwritten; while it looks, checks
again, opens and reads, another file is uploaded. -/
def hiActs : List (ServerAct (List UInt8)) :=
  [.start 0 hiDownload, .start 1 overwriteUpload, .start 2 elsewhereUpload] ++
    List.replicate 12 (.step 1 ⟨.go, []⟩) ++
    (List.replicate 4 [.step 0 ⟨.go, []⟩, .step 2 ⟨.go, []⟩]).flatten

def hiResponse : ServerResponse :=
  ⟨200, [(ACCEPT_RANGES, "bytes".toList), (CONTENT_TYPE, "application/octet-stream".toList),
    (ETAG, "2-0".toList), (HEADER_COMPRESS, "identity".toList), (CONTENT_LENGTH, "2".toList)],
    .bytes [104, 105]⟩

/-- The next step of request 0 ends it so. -/
def endsAs (r : ServerResponse) (s : ServerState (List UInt8)) : Bool :=
  match (serverSystem sampleFiles).next s (.step 0 ⟨.go, []⟩) with
  | some t =>
      match t.task 0 with
      | .finished _ (some r') => decide (r' = r)
      | _ => false
  | none => false

theorem exists_of_endsAs {r : ServerResponse} {s : ServerState (List UInt8)}
    {req : ClientRequest (List UInt8)} (hreq : (s.task 0).request = some req)
    (h : endsAs r s = true) :
    ∃ t, (serverSystem sampleFiles).next s (.step 0 ⟨.go, []⟩) = some t ∧
      t.task 0 = .finished req (some r) := by
  unfold endsAs at h
  split at h
  · next t hnext =>
      split at h
      · next req' r' hend =>
          have hsame := System.next_request hnext hreq
          rw [hend] at hsame
          cases hsame
          cases of_decide_eq_true h
          exact ⟨t, hnext, hend⟩
      · cases h
  · cases h

/-- The download is answered with the bytes that were uploaded while it waited. -/
theorem hi_answered_at_once :
    ∃ u s, Moment (serverSystem sampleFiles) (SparesDownload sampleFiles hiTarget 0)
      (idleServer hiStore) 0 hiDownload u s ∧
      sampleFiles.AnsweredAt u.shared true hiDownload plainHeaders
        (some { hiResponse with body := .bytes [5, 6] }) := by
  have hrun : ((serverSystem sampleFiles).runIf sparesNow (idleServer hiStore) hiActs).any
      (fun s => sparesNow s (.step 0 ⟨.go, []⟩) &&
        endsAs { hiResponse with body := .bytes [5, 6] } s) = true := by
    decide +kernel
  obtain ⟨s, hs, hlast⟩ := (Option.any_eq_true _ _).1 hrun
  obtain ⟨htest, hends⟩ := Bool.and_eq_true_iff.1 hlast
  have hreach := System.reaches_of_runIf (fun _ _ h => sparesDownload_of_sparesNow h) hs
  obtain ⟨t, hnext, hend⟩ := exists_of_endsAs (System.request_of_runIf hs) hends
  obtain ⟨u, hu⟩ := downloads_answered_at_once FileServer.Reads.download
    hiDownload_leadsTo hreach (sparesDownload_of_sparesNow htest) hnext hend
  exact ⟨u, s, hu⟩

end Libfw
