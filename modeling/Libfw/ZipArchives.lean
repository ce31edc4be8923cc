import Libfw.BinaryRecords

/-!
# ZIP archives of stored members

The classic ZIP layout without compression: local headers with their data, the central
directory, the end record.  `readArchive` reads as an extractor does: it looks for the
end record from the back, walks the central directory and follows each offset.

* `locateEnd_append` — the end record is found.
* `readDirectory_directory` — the directory is walked.
* `readMember_at` — an offset leads to its member.
* `readArchive_archive` — an archive whose numbers fit their fields is read back.
-/

namespace ZipArchives

open BinaryRecords

/-! ## What headers say -/

/-- What the local and the central header of a member both say. -/
structure FileHeader where
  flags : Nat
  method : Nat
  crc : Nat
  compressedSize : Nat
  uncompressedSize : Nat
  name : List UInt8
  deriving DecidableEq

structure CentralEntry where
  header : FileHeader
  localOffset : Nat
  deriving DecidableEq

structure EndRecord where
  disk : Nat
  directoryDisk : Nat
  entriesHere : Nat
  entries : Nat
  size : Nat
  offset : Nat
  deriving DecidableEq

/-- A member as a reader finds it. -/
structure FoundMember where
  entry : CentralEntry
  localHeader : FileHeader
  data : List UInt8
  deriving DecidableEq

def localSignature : Nat := 0x04034b50
def centralSignature : Nat := 0x02014b50
def endSignature : Nat := 0x06054b50

/-! ## Reading -/

def readLocalHeader (bytes : List UInt8) : Option (FileHeader × List UInt8) :=
  match readFields [4, 2, 2, 2, 2, 2, 4, 4, 4, 2, 2] bytes with
  | some ([sig, _, flags, method, _, _, crc, packed, size, nameLen, extraLen], rest) =>
      if sig = localSignature ∧ nameLen + extraLen ≤ rest.length then
        some (⟨flags, method, crc, packed, size, rest.take nameLen⟩,
          rest.drop (nameLen + extraLen))
      else none
  | _ => none

def readCentralHeader (bytes : List UInt8) : Option (CentralEntry × List UInt8) :=
  match readFields [4, 2, 2, 2, 2, 2, 2, 4, 4, 4, 2, 2, 2, 2, 2, 4, 4] bytes with
  | some ([sig, _, _, flags, method, _, _, crc, packed, size, nameLen, extraLen, commentLen,
      _, _, _, off], rest) =>
      if sig = centralSignature ∧ nameLen + extraLen + commentLen ≤ rest.length then
        some (⟨⟨flags, method, crc, packed, size, rest.take nameLen⟩, off⟩,
          rest.drop (nameLen + extraLen + commentLen))
      else none
  | _ => none

/-- The end record: its comment is all that follows it. -/
def readEndRecord (bytes : List UInt8) : Option EndRecord :=
  match readFields [4, 2, 2, 2, 2, 4, 4, 2] bytes with
  | some ([sig, disk, directoryDisk, here, entries, size, off, commentLen], rest) =>
      if sig = endSignature ∧ commentLen = rest.length then
        some ⟨disk, directoryDisk, here, entries, size, off⟩
      else none
  | _ => none

/-- Look for the end record from an offset towards the front. -/
def locateEnd (archive : List UInt8) : Nat → Option EndRecord
  | 0 => readEndRecord archive
  | off + 1 =>
      match readEndRecord (archive.drop (off + 1)) with
      | some found => some found
      | none => locateEnd archive off

/-- Walk the central directory. -/
def readDirectory : Nat → List UInt8 → Option (List CentralEntry)
  | 0, _ => some []
  | count + 1, bytes => do
      let (entry, rest) ← readCentralHeader bytes
      let entries ← readDirectory count rest
      some (entry :: entries)

/-- Follow an entry to its local header and take its data. -/
def readMember (archive : List UInt8) (entry : CentralEntry) : Option FoundMember := do
  let (found, rest) ← readLocalHeader (archive.drop entry.localOffset)
  if entry.header.compressedSize ≤ rest.length then
    some ⟨entry, found, rest.take entry.header.compressedSize⟩
  else none

def endLength : Nat := 22

def readArchive (archive : List UInt8) : Option (EndRecord × List FoundMember) := do
  let last ← locateEnd archive (archive.length - endLength)
  let entries ← readDirectory last.entries (archive.drop last.offset)
  let members ← entries.mapM (readMember archive)
  some (last, members)

/-! ## The layout -/

/-- A member to be stored. -/
structure Member where
  name : List UInt8
  data : List UInt8
  deriving DecidableEq

/-- What a writer says of every member alike. -/
structure Stamp where
  madeBy : Nat
  needed : Nat
  flags : Nat
  time : Nat
  date : Nat

/-- All of them are 16-bit fields. -/
structure Stamp.Fits (stamp : Stamp) : Prop where
  madeBy : stamp.madeBy < 65536
  needed : stamp.needed < 65536
  flags : stamp.flags < 65536
  time : stamp.time < 65536
  date : stamp.date < 65536

variable (stamp : Stamp) (crc : List UInt8 → Nat)

def Member.header (m : Member) : FileHeader :=
  ⟨stamp.flags, 0, crc m.data, m.data.length, m.data.length, m.name⟩

def localFields (h : FileHeader) : List (Nat × Nat) :=
  [(4, localSignature), (2, stamp.needed), (2, h.flags), (2, h.method), (2, stamp.time),
    (2, stamp.date), (4, h.crc), (4, h.compressedSize), (4, h.uncompressedSize),
    (2, h.name.length), (2, 0)]

def centralFields (h : FileHeader) (off : Nat) : List (Nat × Nat) :=
  [(4, centralSignature), (2, stamp.madeBy), (2, stamp.needed), (2, h.flags), (2, h.method),
    (2, stamp.time), (2, stamp.date), (4, h.crc), (4, h.compressedSize),
    (4, h.uncompressedSize), (2, h.name.length), (2, 0), (2, 0), (2, 0), (2, 0), (4, 0), (4, off)]

def endFields (count size off : Nat) : List (Nat × Nat) :=
  [(4, endSignature), (2, 0), (2, 0), (2, count), (2, count), (4, size), (4, off), (2, 0)]

/-- A local header, with its name. -/
def localRecord (m : Member) : List UInt8 :=
  numbers (localFields stamp (m.header stamp crc)) ++ m.name

/-- A header of the central directory, with its name. -/
def centralRecord (m : Member) (off : Nat) : List UInt8 :=
  numbers (centralFields stamp (m.header stamp crc) off) ++ m.name

/-- The members, each behind its local header. -/
def body (members : List Member) : List UInt8 :=
  members.flatMap fun m => localRecord stamp crc m ++ m.data

/-- The central directory of members that begin at an offset. -/
def directory : Nat → List Member → List UInt8
  | _, [] => []
  | off, m :: rest =>
      centralRecord stamp crc m off ++
        directory (off + (localRecord stamp crc m ++ m.data).length) rest

def archive (members : List Member) : List UInt8 :=
  body stamp crc members ++ (directory stamp crc 0 members ++
    numbers (endFields members.length (directory stamp crc 0 members).length
      (body stamp crc members).length))

/-- Every number of the archive fits its field. -/
structure Fits (members : List Member) : Prop where
  count : members.length < 65536
  names : ∀ m ∈ members, m.name.length < 65536
  sums : ∀ m ∈ members, crc m.data < 4294967296
  bodyLength : (body stamp crc members).length < 4294967296
  directoryLength : (directory stamp crc 0 members).length < 4294967296

/-- What a reader finds for a member. -/
def Member.found (m : Member) (off : Nat) : FoundMember :=
  ⟨⟨m.header stamp crc, off⟩, m.header stamp crc, m.data⟩

/-- What a reader finds for members that begin at an offset. -/
def foundFrom : Nat → List Member → List FoundMember
  | _, [] => []
  | off, m :: rest =>
      m.found stamp crc off :: foundFrom (off + (localRecord stamp crc m ++ m.data).length) rest

/-! ## Single records -/

section

variable {stamp crc} (hstamp : stamp.Fits)

include hstamp

/-- The numbers of a member's headers fit their fields. -/
theorem fits_localFields {m : Member} (hname : m.name.length < 65536)
    (hcrc : crc m.data < 4294967296) (hdata : m.data.length < 4294967296) :
    ∀ f ∈ localFields stamp (m.header stamp crc), f.2 < 256 ^ f.1 := by
  obtain ⟨-, hneeded, hflags, htime, hdate⟩ := hstamp
  simp only [localFields, Member.header, List.forall_mem_cons, localSignature]
  grind

theorem fits_centralFields {m : Member} {off : Nat} (hname : m.name.length < 65536)
    (hcrc : crc m.data < 4294967296) (hdata : m.data.length < 4294967296)
    (hoff : off < 4294967296) :
    ∀ f ∈ centralFields stamp (m.header stamp crc) off, f.2 < 256 ^ f.1 := by
  obtain ⟨hmade, hneeded, hflags, htime, hdate⟩ := hstamp
  simp only [centralFields, Member.header, List.forall_mem_cons, centralSignature]
  grind

/-- **A local header is read back.** -/
theorem readLocalHeader_localRecord {m : Member} (hname : m.name.length < 65536)
    (hcrc : crc m.data < 4294967296) (hdata : m.data.length < 4294967296) (rest : List UInt8) :
    readLocalHeader (localRecord stamp crc m ++ rest) = some (m.header stamp crc, rest) := by
  have hread : readFields [4, 2, 2, 2, 2, 2, 4, 4, 4, 2, 2] (localRecord stamp crc m ++ rest) =
      some ([localSignature, stamp.needed, stamp.flags, 0, stamp.time, stamp.date, crc m.data,
        m.data.length, m.data.length, m.name.length, 0], m.name ++ rest) := by
    unfold localRecord
    rw [List.append_assoc]
    exact readFields_numbers (fits_localFields hstamp hname hcrc hdata) (m.name ++ rest)
  unfold readLocalHeader
  rw [hread]
  dsimp only
  rw [if_pos (by simp), Nat.add_zero, List.take_left, List.drop_left]
  rfl

/-- **A header of the central directory is read back.** -/
theorem readCentralHeader_centralRecord {m : Member} {off : Nat} (hname : m.name.length < 65536)
    (hcrc : crc m.data < 4294967296) (hdata : m.data.length < 4294967296)
    (hoff : off < 4294967296) (rest : List UInt8) :
    readCentralHeader (centralRecord stamp crc m off ++ rest) =
      some (⟨m.header stamp crc, off⟩, rest) := by
  have hread : readFields [4, 2, 2, 2, 2, 2, 2, 4, 4, 4, 2, 2, 2, 2, 2, 4, 4]
      (centralRecord stamp crc m off ++ rest) =
      some ([centralSignature, stamp.madeBy, stamp.needed, stamp.flags, 0, stamp.time,
        stamp.date, crc m.data, m.data.length, m.data.length, m.name.length, 0, 0, 0, 0, 0, off],
        m.name ++ rest) := by
    unfold centralRecord
    rw [List.append_assoc]
    exact readFields_numbers (fits_centralFields hstamp hname hcrc hdata hoff) (m.name ++ rest)
  unfold readCentralHeader
  rw [hread]
  dsimp only
  rw [if_pos (by simp), Nat.add_zero, List.take_left, List.drop_left]
  rfl

end

/-- **The end record is found behind whatever comes before it.** -/
theorem locateEnd_append {count size off : Nat} (hcount : count < 65536)
    (hsize : size < 4294967296) (hoff : off < 4294967296) (front : List UInt8) :
    locateEnd (front ++ numbers (endFields count size off)) front.length =
      some ⟨0, 0, count, count, size, off⟩ := by
  have hfits : ∀ f ∈ endFields count size off, f.2 < 256 ^ f.1 := by
    simp only [endFields, List.forall_mem_cons, endSignature]
    grind
  have hread : readEndRecord (numbers (endFields count size off)) =
      some ⟨0, 0, count, count, size, off⟩ := by
    have hfields : readFields [4, 2, 2, 2, 2, 4, 4, 2] (numbers (endFields count size off)) =
        some ([endSignature, 0, 0, count, count, size, off, 0], []) := by
      have hall := readFields_numbers hfits []
      rw [List.append_nil] at hall
      exact hall
    unfold readEndRecord
    rw [hfields]
    rfl
  cases front with
  | nil => exact hread
  | cons b front =>
      unfold locateEnd
      have hdrop : (b :: front ++ numbers (endFields count size off)).drop (front.length + 1) =
          numbers (endFields count size off) := List.drop_left' rfl
      rw [List.length_cons]
      dsimp only
      rw [hdrop, hread]

/-! ## The directory -/

section

variable {stamp crc}

@[simp] theorem length_body_cons (m : Member) (rest : List Member) :
    (body stamp crc (m :: rest)).length =
      (localRecord stamp crc m ++ m.data).length + (body stamp crc rest).length := by
  unfold body
  rw [List.flatMap_cons, List.length_append]

theorem length_data_le {m : Member} : m.data.length ≤ (localRecord stamp crc m ++ m.data).length := by
  rw [List.length_append]
  omega

/-- **The directory is walked, entry by entry.** -/
theorem readDirectory_directory (hstamp : stamp.Fits) {members : List Member} {off : Nat}
    (hnames : ∀ m ∈ members, m.name.length < 65536)
    (hsums : ∀ m ∈ members, crc m.data < 4294967296)
    (hbody : off + (body stamp crc members).length < 4294967296) (rest : List UInt8) :
    readDirectory members.length (directory stamp crc off members ++ rest) =
      some ((foundFrom stamp crc off members).map FoundMember.entry) := by
  induction members generalizing off with
  | nil => rfl
  | cons m members ih =>
      rw [length_body_cons] at hbody
      have hdata := @length_data_le stamp crc m
      have hmore := @ih (off + (localRecord stamp crc m ++ m.data).length)
        (fun x hx => hnames x (List.mem_cons_of_mem _ hx))
        (fun x hx => hsums x (List.mem_cons_of_mem _ hx)) (by omega)
      have hfirst := readCentralHeader_centralRecord hstamp (hnames m List.mem_cons_self)
        (hsums m List.mem_cons_self) (by omega : m.data.length < 4294967296)
        (by omega : off < 4294967296)
        (directory stamp crc (off + (localRecord stamp crc m ++ m.data).length) members ++ rest)
      rw [directory, List.append_assoc, List.length_cons, readDirectory]
      simp only [hfirst, hmore, Option.bind_eq_bind, Option.bind_some]
      rfl

/-- **An offset leads to its member.** -/
theorem readMember_at (hstamp : stamp.Fits) {m : Member} (hname : m.name.length < 65536)
    (hcrc : crc m.data < 4294967296) (hdata : m.data.length < 4294967296)
    (front tail : List UInt8) :
    readMember (front ++ (localRecord stamp crc m ++ m.data ++ tail))
        ⟨m.header stamp crc, front.length⟩ = some (m.found stamp crc front.length) := by
  have hlocal := readLocalHeader_localRecord hstamp hname hcrc hdata (m.data ++ tail)
  unfold readMember
  dsimp only
  rw [List.drop_left, List.append_assoc, hlocal]
  have hsize : (m.header stamp crc).compressedSize = m.data.length := rfl
  simp only [Option.bind_eq_bind, Option.bind_some, hsize]
  rw [if_pos (by simp), List.take_left]
  rfl

/-- Every offset of the directory leads to its member. -/
theorem mapM_readMember (hstamp : stamp.Fits) {members : List Member} {front : List UInt8}
    (hnames : ∀ m ∈ members, m.name.length < 65536)
    (hsums : ∀ m ∈ members, crc m.data < 4294967296)
    (hbody : (body stamp crc members).length < 4294967296) (tail : List UInt8) :
    ((foundFrom stamp crc front.length members).map FoundMember.entry).mapM
        (readMember (front ++ (body stamp crc members ++ tail))) =
      some (foundFrom stamp crc front.length members) := by
  induction members generalizing front with
  | nil => rfl
  | cons m members ih =>
      rw [length_body_cons] at hbody
      have hdata := @length_data_le stamp crc m
      have hmore := @ih (front ++ (localRecord stamp crc m ++ m.data))
        (fun x hx => hnames x (List.mem_cons_of_mem _ hx))
        (fun x hx => hsums x (List.mem_cons_of_mem _ hx)) (by omega)
      have hfirst := readMember_at hstamp (hnames m List.mem_cons_self)
        (hsums m List.mem_cons_self) (by omega) front (body stamp crc members ++ tail)
      have hcut : front ++ (body stamp crc (m :: members) ++ tail) =
          front ++ (localRecord stamp crc m ++ m.data ++ (body stamp crc members ++ tail)) := by
        unfold body
        rw [List.flatMap_cons, List.append_assoc]
      have hassoc : front ++ (localRecord stamp crc m ++ m.data) ++ (body stamp crc members ++ tail)
          = front ++ (localRecord stamp crc m ++ m.data ++ (body stamp crc members ++ tail)) := by
        rw [List.append_assoc]
      rw [hassoc, List.length_append] at hmore
      rw [hcut, foundFrom, List.map_cons, List.mapM_cons, hmore]
      have hentry : (m.found stamp crc front.length).entry = ⟨m.header stamp crc, front.length⟩ :=
        rfl
      rw [hentry, hfirst]
      rfl

theorem length_archive {members : List Member} :
    (archive stamp crc members).length =
      (body stamp crc members).length + ((directory stamp crc 0 members).length + endLength) := by
  unfold archive
  rw [List.length_append, List.length_append, length_numbers]
  rfl

/-- What is found belongs to a member. -/
theorem exists_of_mem_foundFrom {members : List Member} {off : Nat} {m : FoundMember}
    (h : m ∈ foundFrom stamp crc off members) : ∃ (x : Member) (o : Nat), m = x.found stamp crc o := by
  induction members generalizing off with
  | nil => cases h
  | cons x rest ih =>
      rcases List.mem_cons.1 h with h | h
      · exact ⟨x, off, h⟩
      · exact ih h

/-- **An archive whose numbers fit is read back, member by member.** -/
theorem readArchive_archive (hstamp : stamp.Fits) {members : List Member}
    (hfits : Fits stamp crc members) :
    readArchive (archive stamp crc members) =
      some (⟨0, 0, members.length, members.length, (directory stamp crc 0 members).length,
        (body stamp crc members).length⟩, foundFrom stamp crc 0 members) := by
  obtain ⟨hcount, hnames, hsums, hbody, hdirectory⟩ := hfits
  have hend := locateEnd_append hcount hdirectory hbody
    (body stamp crc members ++ directory stamp crc 0 members)
  have hwalk := readDirectory_directory hstamp hnames hsums
    (by omega : 0 + (body stamp crc members).length < 4294967296)
    (numbers (endFields members.length (directory stamp crc 0 members).length
      (body stamp crc members).length))
  have hmembers := @mapM_readMember stamp crc hstamp members [] hnames hsums hbody
    (directory stamp crc 0 members ++ numbers (endFields members.length
      (directory stamp crc 0 members).length (body stamp crc members).length))
  have hlength : (archive stamp crc members).length - endLength =
      (body stamp crc members ++ directory stamp crc 0 members).length := by
    rw [length_archive, Nat.add_sub_assoc, Nat.add_sub_cancel, List.length_append]
    exact Nat.le_add_left _ _
  have hlast : locateEnd (archive stamp crc members)
      (body stamp crc members ++ directory stamp crc 0 members).length =
        some ⟨0, 0, members.length, members.length, (directory stamp crc 0 members).length,
          (body stamp crc members).length⟩ := by
    unfold archive
    rw [← List.append_assoc]
    exact hend
  have hentries : readDirectory members.length
      ((archive stamp crc members).drop (body stamp crc members).length) =
        some ((foundFrom stamp crc 0 members).map FoundMember.entry) := by
    unfold archive
    rw [List.drop_left]
    exact hwalk
  have hall : ((foundFrom stamp crc 0 members).map FoundMember.entry).mapM
      (readMember (archive stamp crc members)) = some (foundFrom stamp crc 0 members) := hmembers
  unfold readArchive
  rw [hlength, hlast]
  simp only [Option.bind_eq_bind, Option.bind_some, hentries, hall]

end

end ZipArchives
