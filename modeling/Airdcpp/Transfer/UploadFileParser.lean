import Airdcpp.Core.InputStreams
import Airdcpp.Protocol.AdcCommand
import Airdcpp.Hash.HashBloom
import Airdcpp.Util.NumberText

/-!
# `Transfer/UploadFileParser` — what a GET request is answered with

`UploadParser` turns a request of another client into an upload: `parseFileInfo` finds the file and
its size, `toUpload` checks the range and opens the stream, and `on(GET)` announces the segment with
SND. Starts, byte counts and file sizes are `Int64`, so that the sum of two of them wraps as it does
in the compiled program. What the share, the queue and the disk answer is a parameter.

An upload that has just ended is kept for a while, and a request for the same file on the same
connection takes over its file handle (`resumeStream`), at whatever position and below whatever
limit it is; `Kept` lists how such uploads come about, and all of them read the file they name
(`Kept.over`).

The range is checked with `startPos + bytes > fileSize`, after `-1` has become
`fileSize - startPos`. That refuses a range beyond the end of the file except for two kinds of
requests: a start at or behind the end together with `-1`, which passes for every start because the
sum is the file's size again, and a sum from `2 ^ 63` on, which wraps below zero. For all the others
the upload is inside the file and its stream gives exactly the announced bytes (`inside_iff`).
-/

namespace Airdcpp

/-- `Transfer::Type` -/
inductive TransferType
  | file | fullList | partialList | tree | tthList
deriving DecidableEq, Repr

/-- `Transfer::names` -/
def TransferType.name : TransferType → Str
  | .file => str "file"
  | .fullList => str "file"
  | .partialList => str "list"
  | .tree => str "tthl"
  | .tthList => str "tthlist"

def USER_LIST_NAME_EXTRACTED : Str := str "files.xml"
def USER_LIST_NAME_BZ : Str := str "files.xml.bz2"

/-- `UserConnection::FILE_NOT_AVAILABLE` -/
def FILE_NOT_AVAILABLE : Str := str "File Not Available"

/-! ## Requests -/

/-- `UploadRequest`: `start` and `size` are those of its segment. -/
structure UploadRequest where
  type : Str
  file : Str
  start : Int64
  size : Int64
  userSID : Str := []
  listRecursive : Bool := false
deriving DecidableEq, Repr

namespace UploadRequest

def validate (r : UploadRequest) : Bool :=
  let failed := r.file.isEmpty || decide (r.start < 0) || decide (r.size < -1) || r.size == 0
  !failed

def isFullFilelist (r : UploadRequest) : Bool :=
  r.file == USER_LIST_NAME_BZ || r.file == USER_LIST_NAME_EXTRACTED

theorem validate_start {r : UploadRequest} (h : r.validate) : 0 ≤ r.start.toInt := by
  simp only [validate, Bool.not_eq_true', Bool.or_eq_false_iff, decide_eq_false_iff_not] at h
  have := h.1.1.2
  rw [Int64.lt_iff_toInt_lt] at this
  simpa using this

theorem validate_size {r : UploadRequest} (h : r.validate) (hsize : r.size ≠ -1) :
    0 < r.size.toInt := by
  simp only [validate, Bool.not_eq_true', Bool.or_eq_false_iff, decide_eq_false_iff_not,
    beq_eq_false_iff_ne] at h
  obtain ⟨⟨-, hmin⟩, hzero⟩ := h
  rw [Int64.lt_iff_toInt_lt] at hmin
  have h1 : r.size.toInt ≠ -1 := fun h => hsize (Int64.toInt_inj.mp h)
  have h0 : r.size.toInt ≠ 0 := fun h => hzero (Int64.toInt_inj.mp h)
  have : (-1 : Int64).toInt = -1 := rfl
  omega

end UploadRequest

/-! ## Uploads -/

/-- `Upload`. `startPos` and `segmentSize` are those of its segment; `stream` is the stream as
    `toUpload` made it, which `setFiltered` wraps into a compressor. -/
structure Upload where
  conn : Nat
  path : Str
  startPos : Int64
  segmentSize : Int64
  fileSize : Int64
  type : TransferType
  stream : InputStream
  chunked : Bool
  resumed : Bool
  zUpload : Bool := false
deriving DecidableEq, Repr

namespace Upload

/-- `getSegment().getEnd()` -/
def getEnd (u : Upload) : Int64 := u.startPos + u.segmentSize

def setFiltered (u : Upload) : Upload := { u with zUpload := true }

/-- `getStream()->releaseRootStream()`: a compressor hands over what it wraps. -/
def releaseRootStream (u : Upload) : InputStream := u.stream.releaseRootStream

/-- The transfer reads a part of the stream. -/
def advance (u : Upload) (len granted : Nat) : Upload :=
  { u with stream := (u.stream.read len granted).2 }

end Upload

/-! ## What the other managers answer -/

/-- `ShareManager::toRealWithSize` -/
structure RealFile where
  found : Bool
  noAccess : Bool
  path : Str
  size : Int64
deriving DecidableEq, Repr

/-- The share, the queue and the decompressor, for the profile of the requesting user. -/
structure UploadSources where
  /-- Whether `findProfile` finds the user. -/
  findProfile : Str → Bool
  toRealWithSize : Str → (start size : Int64) → RealFile
  getFileListInfo : Str → Int64 × Str
  getTree : Str → Option Str
  /-- `ShareManager::generateTTHList` -/
  generateTTHList : Str → Bool → Option Str
  /-- `QueueManager::generateTTHList`: the list, and the name of the bundle with the token. -/
  generateBundleTTHList : Nat → Option Str × Option Str
  generatePartialList : Str → Bool → Option Str
  /-- `BZUtil::decodeBZ2` -/
  decodeBZ2 : Str → Except Exception Str

/-- `File(path, READ, OPEN)`: the content of the file, or why it can't be opened. -/
abbrev Disk := Str → Except Exception Str

/-- `UploadParserException` -/
structure UploadParserException where
  error : Str
  noAccess : Bool
deriving DecidableEq, Repr

/-- `UploadParser`, after `parseFileInfo`. -/
structure UploadParser where
  sourceFile : Str
  fileSize : Int64
  type : TransferType
deriving DecidableEq, Repr

/-- `PathUtil::isAdcDirectoryPath` -/
def isAdcDirectoryPath (aPath : Str) : Bool :=
  aPath.head? == some (chr '/') && aPath.getLast? == some (chr '/')

namespace UploadParser

variable (a : UploadSources) (disk : Disk)

def toRealWithSize (r : UploadRequest) : Except UploadParserException (Str × Int64) :=
  let result := a.toRealWithSize r.file r.start r.size
  if result.found then .ok (result.path, result.size)
  else
    let error := if result.noAccess then str "You don't have access to this file"
      else FILE_NOT_AVAILABLE
    .error ⟨error, result.noAccess⟩

def parseFileInfo (r : UploadRequest) : Except UploadParserException UploadParser :=
  if r.type = TransferType.file.name then
    if r.isFullFilelist then
      let (fileSize, sourceFile) := a.getFileListInfo r.file
      .ok ⟨sourceFile, fileSize, .fullList⟩
    else (toRealWithSize a r).map fun (sourceFile, fileSize) => ⟨sourceFile, fileSize, .file⟩
  else if r.type = TransferType.tree.name then
    (toRealWithSize a r).map fun (sourceFile, fileSize) => ⟨sourceFile, fileSize, .tree⟩
  else if r.type = TransferType.partialList.name then .ok ⟨[], 0, .partialList⟩
  else if r.type = TransferType.tthList.name then .ok ⟨[], 0, .tthList⟩
  else .error ⟨str "Unknown file type", false⟩

def beyondEnd :
    Exception := { errorString := str "Bytes were requested beyond the end of the file" }

/-- The end of `toUpload`. -/
def newUpload (conn : Nat) (sourceFile : Str) (fileSize startPos bytes : Int64)
    (type : TransferType) (is : InputStream) (resumed : Bool) : Upload :=
  { conn := conn, path := sourceFile, startPos := startPos, segmentSize := bytes
    fileSize := fileSize, type := type, stream := is
    chunked := decide (startPos + bytes ≠ fileSize), resumed := resumed }

/-- An upload of something that has been made in memory. -/
def memoryUpload (conn : Nat) (sourceFile : Str) (type : TransferType) (resumed : Bool)
    (buf : Str) : Upload :=
  let bytes := Int64.ofInt buf.length
  newUpload conn sourceFile bytes 0 bytes type (.memory buf 0) resumed

/-- How many bytes are sent, for a `-1` all that follow the start. -/
def bytesOf (p : UploadParser) (r : UploadRequest) : Int64 :=
  if r.size = -1 then p.fileSize - r.start else r.size

/-- The stream that has been handed over, or else the opened file. -/
def openStream (p : UploadParser) : Option InputStream → Except Exception InputStream
  | some is => .ok is
  | none => (disk p.sourceFile).map fun content => .file content 0

/-- The stream of a file: positioned, and limited unless it is read to the end of the file. -/
def fileStream (p : UploadParser) (startPos bytes : Int64) (is : InputStream) : InputStream :=
  let is := is.setPos startPos.toInt
  if startPos + bytes < p.fileSize then .limited is bytes.toInt else is

/-- `toUpload`; `is` is the stream that `resumeStream` has found. -/
def toUpload (p : UploadParser) (conn : Nat) (r : UploadRequest) (is : Option InputStream) :
    Except Exception (Option Upload) :=
  let resumed := is.isSome
  match p.type with
  | .fullList | .file =>
    if r.file = USER_LIST_NAME_EXTRACTED then do
      -- unpack before sending
      let bz2 ← disk p.sourceFile
      let xml ← a.decodeBZ2 bz2
      pure (some (memoryUpload conn p.sourceFile p.type resumed xml))
    else
      let bytes := bytesOf p r
      if p.fileSize < r.start + bytes then .error beyondEnd
      else
        (openStream disk p is).map fun is =>
          some (newUpload conn p.sourceFile p.fileSize r.start bytes p.type
            (fileStream p r.start bytes is) resumed)
  | .tree => .ok ((a.getTree r.file).map (memoryUpload conn r.file p.type resumed))
  | .tthList =>
    if isAdcDirectoryPath r.file then
      .ok ((a.generateTTHList r.file r.listRecursive).map (memoryUpload conn r.file p.type resumed))
    else
      let (mis, bundle) := a.generateBundleTTHList (HashBloom.toUInt32 r.file)
      .ok (mis.map (memoryUpload conn (bundle.getD r.file) p.type resumed))
  | .partialList =>
    .ok ((a.generatePartialList r.file r.listRecursive).map
      (memoryUpload conn r.file p.type resumed))

end UploadParser

/-! ## `UploadManager` -/

namespace FileUploads

variable (a : UploadSources) (disk : Disk)

/-- `resumeStream`: the kept upload of the connection is removed, and its file handle taken when it
    is of the requested file. -/
def resumeStream (delayUploads : List Upload) (conn : Nat) (p : UploadParser) :
    Option InputStream × List Upload :=
  match delayUploads.find? fun up => up.conn == conn with
  | none => (none, delayUploads)
  | some up =>
    let stream :=
      if p.sourceFile = up.path ∧ up.type = .file ∧ p.type = .file ∧ up.getEnd ≠ p.fileSize then
        some up.releaseRootStream
      else none
    (stream, delayUploads.eraseP fun up => up.conn == conn)

/-- What the other client is told when nothing is sent. -/
inductive Refusal
  | sendError (text : Str)
  | maxedOut
deriving DecidableEq, Repr

/-- `prepareFile`, and the uploads that are still kept. `slot` is whether `parseSlotHookedThrow`
    gives a slot to the connection. -/
def prepareFile (delayUploads : List Upload) (conn : Nat) (slot : Bool) (r : UploadRequest) :
    Except Refusal Upload × List Upload :=
  if !r.validate then (.error (.sendError (str "Invalid request")), delayUploads)
  else if !a.findProfile r.userSID then (.error (.sendError (str "Unknown user")), delayUploads)
  else
    match UploadParser.parseFileInfo a r with
    | .error e => (.error (.sendError e.error), delayUploads)
    | .ok creator =>
      if !slot then (.error .maxedOut, delayUploads)
      else
        let (is, delayUploads) := resumeStream delayUploads conn creator
        match creator.toUpload a disk conn r is with
        | .ok (some u) => (.ok u, delayUploads)
        | _ => (.error (.sendError FILE_NOT_AVAILABLE), delayUploads)

/-- The request that `on(GET)` reads from a command. -/
def requestOf (c : AdcCommand) : UploadRequest :=
  let param (n : Nat) := c.parameters.getD n []
  { type := if c.hasFlag (str "TL") 4 then TransferType.tthList.name else param 0
    file := param 1
    start := Int64.ofInt (Util.toInt64 (param 2))
    size := Int64.ofInt (Util.toInt64 (param 3))
    userSID := (c.getParam (str "ID") 0).getD []
    listRecursive := c.hasFlag (str "RE") 4 }

/-- The parameters of the SND command that `on(GET)` answers with. -/
def sndParams (c : AdcCommand) (u : Upload) : List Str :=
  let type := c.parameters.getD 0 []
  let fname := c.parameters.getD 1 []
  [type, fname, Util.toString u.startPos.toInt, Util.toString u.segmentSize.toInt]
    ++ (if c.hasFlag (str "ZL") 4 then [str "ZL1"] else [])
    ++ (if c.hasFlag (str "TL") 4 ∧ type = TransferType.partialList.name then [str "TL1"] else [])

/-- `on(AdcCommand::GET)`, in `STATE_GET`: the upload that is started and the announcement. -/
def onGET (delayUploads : List Upload) (conn : Nat) (slot : Bool) (c : AdcCommand) :
    Except Refusal (Upload × List Str) × List Upload :=
  let (result, delayUploads) := prepareFile a disk delayUploads conn slot (requestOf c)
  match result with
  | .error e => (.error e, delayUploads)
  | .ok u =>
    let u' := if c.hasFlag (str "ZL") 4 then u.setFiltered else u
    (.ok (u', sndParams c u), delayUploads)

/-- The uploads that can be among the kept ones: made for some request while others were kept, and
    then read and compressed. -/
inductive Kept : Upload → Prop
  | served (a : UploadSources) (delayUploads : List Upload) (conn : Nat) (slot : Bool)
      (r : UploadRequest) (u : Upload) :
      (∀ up ∈ delayUploads, Kept up) → (prepareFile a disk delayUploads conn slot r).1 = .ok u →
      Kept u
  | filtered {u : Upload} : Kept u → Kept u.setFiltered
  | advanced {u : Upload} (len granted : Nat) : Kept u → Kept (u.advance len granted)

end FileUploads

/-! ## What the pieces give -/

namespace UploadParser

variable {a : UploadSources} {disk : Disk}

theorem map_eq_ok {ε α β : Type} {x : Except ε α} {f : α → β} {b : β} :
    x.map f = .ok b ↔ ∃ v, x = .ok v ∧ f v = b := by
  cases x <;> simp [Except.map]

theorem not_list_of_file {r : UploadRequest} {p : UploadParser}
    (hparse : parseFileInfo a r = .ok p) (hfile : p.type = .file) :
    r.file ≠ USER_LIST_NAME_EXTRACTED := by
  intro hname
  have hlist : r.isFullFilelist = true := by simp [UploadRequest.isFullFilelist, hname]
  simp only [parseFileInfo, hlist, if_true] at hparse
  split_ifs at hparse with htype htree hpartial htth
  · cases hparse
    cases hfile
  · obtain ⟨found, -, rfl⟩ := map_eq_ok.mp hparse
    cases hfile
  · cases hparse
    cases hfile
  · cases hparse
    cases hfile

/-- The uploads of files that `toUpload` returns. -/
theorem toUpload_file {p : UploadParser} {conn : Nat} {r : UploadRequest} {is : Option InputStream}
    {u : Upload} (hfile : p.type = .file) (hname : r.file ≠ USER_LIST_NAME_EXTRACTED) :
    p.toUpload a disk conn r is = .ok (some u) ↔
      ¬ p.fileSize < r.start + p.bytesOf r ∧
      ∃ s, openStream disk p is = .ok s ∧
        u = newUpload conn p.sourceFile p.fileSize r.start (p.bytesOf r) .file
          (p.fileStream r.start (p.bytesOf r) s) is.isSome := by
  simp only [toUpload, hfile, hname, if_false]
  split_ifs with hbound
  · simp [hbound]
  · simp only [hbound, not_false_eq_true, true_and, map_eq_ok, Option.some.injEq]
    exact exists_congr fun s => and_congr_right fun _ => eq_comm

theorem bind_eq_ok {ε α β : Type} {x : Except ε α} {f : α → Except ε β} {b : β} :
    (x >>= f) = .ok b ↔ ∃ v, x = .ok v ∧ f v = .ok b := by
  cases x <;> simp [bind, Except.bind]

theorem toUpload_type {p : UploadParser} {conn : Nat} {r : UploadRequest}
    {is : Option InputStream} {u : Upload} (h : p.toUpload a disk conn r is = .ok (some u)) :
    u.type = p.type := by
  have hmemory {path : Str} {made : Option Str}
      (h : made.map (memoryUpload conn path p.type is.isSome) = some u) : u.type = p.type := by
    obtain ⟨buf, -, rfl⟩ := Option.map_eq_some_iff.mp h
    rfl
  simp only [toUpload] at h
  split at h
  case h_3 => exact hmemory (Except.ok.inj h)
  case h_4 =>
    split_ifs at h
    · exact hmemory (Except.ok.inj h)
    · exact hmemory (Except.ok.inj h)
  case h_5 => exact hmemory (Except.ok.inj h)
  all_goals
    split_ifs at h
    · obtain ⟨bz2, -, h⟩ := bind_eq_ok.mp h
      obtain ⟨xml, -, h⟩ := bind_eq_ok.mp h
      cases h
      rfl
    · obtain ⟨s, -, h⟩ := map_eq_ok.mp h
      cases h
      rfl

theorem fileStream_over {p : UploadParser} {startPos bytes : Int64} {is : InputStream}
    {content : Str} (h : is.Over content) : (p.fileStream startPos bytes is).Over content := by
  have hpos : (is.setPos startPos.toInt).Over content := by
    cases is with
    | file c pos => exact h
    | memory buf pos => exact h
    | limited s maxBytes => exact h
  rw [fileStream]
  split_ifs
  · exact hpos
  · exact hpos

end UploadParser

namespace FileUploads

variable {a : UploadSources} {disk : Disk}

/-- What `prepareFile` has done when it returns an upload. -/
theorem prepareFile_ok {delayUploads : List Upload} {conn : Nat} {slot : Bool} {r : UploadRequest}
    {u : Upload} (h : (prepareFile a disk delayUploads conn slot r).1 = .ok u) :
    r.validate ∧ ∃ p, UploadParser.parseFileInfo a r = .ok p ∧
      p.toUpload a disk conn r (resumeStream delayUploads conn p).1 = .ok (some u) := by
  rw [prepareFile] at h
  cases hparse : UploadParser.parseFileInfo a r with
  | error e =>
    rw [hparse] at h
    split_ifs at h
  | ok p =>
    simp only [hparse] at h
    split_ifs at h with hvalid huser hslot
    refine ⟨by simpa using hvalid, p, rfl, ?_⟩
    split at h
    · rename_i hupload
      cases h
      exact hupload
    · cases h

/-- A stream that is taken over is the file of the request, at some position. -/
theorem resumeStream_some {delayUploads : List Upload} {conn : Nat} {p : UploadParser}
    {s : InputStream} (h : (resumeStream delayUploads conn p).1 = some s) :
    ∃ up ∈ delayUploads, up.path = p.sourceFile ∧ up.type = .file ∧
      s = up.stream.releaseRootStream := by
  rw [resumeStream] at h
  cases hfind : delayUploads.find? fun up => up.conn == conn with
  | none => simp [hfind] at h
  | some up =>
    simp only [hfind] at h
    split_ifs at h with hsame
    exact ⟨up, List.mem_of_find?_eq_some hfind, hsame.1.symm, hsame.2.1, (Option.some.inj h).symm⟩

/-- The stream that `toUpload` works on is the file of the request, opened now or before. -/
theorem openStream_file {delayUploads : List Upload} {conn : Nat} {p : UploadParser}
    {s : InputStream}
    (hover : ∀ up ∈ delayUploads, up.type = .file →
      ∃ content, disk up.path = .ok content ∧ up.stream.Over content)
    (hs : UploadParser.openStream disk p (resumeStream delayUploads conn p).1 = .ok s) :
    ∃ content pos, disk p.sourceFile = .ok content ∧ s = .file content pos := by
  cases hresumed : (resumeStream delayUploads conn p).1 with
  | none =>
    rw [hresumed] at hs
    obtain ⟨content, hcontent, rfl⟩ := UploadParser.map_eq_ok.mp hs
    exact ⟨content, 0, hcontent, rfl⟩
  | some root =>
    rw [hresumed] at hs
    cases hs
    obtain ⟨up, hmem, hpath, htype, rfl⟩ := resumeStream_some hresumed
    obtain ⟨content, hcontent, hup⟩ := hover up hmem htype
    obtain ⟨pos, hroot⟩ := InputStream.releaseRootStream_over hup
    exact ⟨content, pos, hpath ▸ hcontent, hroot⟩

/-- **A kept upload of a file reads that file**, through whatever it has been resumed. -/
theorem Kept.over {u : Upload} (h : Kept disk u) (hfile : u.type = .file) :
    ∃ content, disk u.path = .ok content ∧ u.stream.Over content := by
  induction h with
  | served a delayUploads conn slot r u hkept hserved ih =>
    obtain ⟨-, p, hparse, hupload⟩ := prepareFile_ok hserved
    have hp : p.type = .file := by rw [← UploadParser.toUpload_type hupload, hfile]
    have hname := UploadParser.not_list_of_file hparse hp
    obtain ⟨-, s, hs, rfl⟩ := (UploadParser.toUpload_file hp hname).mp hupload
    obtain ⟨content, pos, hcontent, rfl⟩ := openStream_file ih hs
    exact ⟨content, hcontent, UploadParser.fileStream_over rfl⟩
  | filtered h ih => exact ih hfile
  | advanced len granted h ih =>
    obtain ⟨content, hcontent, hover⟩ := ih hfile
    exact ⟨content, hcontent, InputStream.over_read hover len granted⟩

/-! ## The range -/

/-- An upload lies inside a file of this content, its stream gives just that part of it, and every
    SND command that announces it names that part. -/
structure Inside (content : Str) (u : Upload) : Prop where
  start_nonneg : 0 ≤ u.startPos.toInt
  size_pos : content ≠ [] → 0 < u.segmentSize.toInt
  end_le : u.startPos.toInt + u.segmentSize.toInt ≤ content.length
  /-- Reading to the end gives the bytes of the segment, all of them and no others. -/
  reads : ∀ rounds out, u.stream.readToEnd rounds = some out →
    out = (content.drop u.startPos.toInt.toNat).take u.segmentSize.toInt.toNat ∧
      (out.length : Int) = u.segmentSize.toInt
  /-- The end is reached, whatever the single reads give. -/
  ends : ∀ rounds, content.length < rounds.length → (u.stream.readToEnd rounds).isSome
  announced : ∀ c, Util.toInt64 ((sndParams c u).getD 2 []) = u.startPos.toInt ∧
    Util.toInt64 ((sndParams c u).getD 3 []) = u.segmentSize.toInt

/-- The requests whose range the parser treats as it should: a request for all that follows starts
    inside the file, or at the beginning of an empty one, and the end of any other request is a
    64-bit number. -/
def InRange (r : UploadRequest) (fileSize : Int64) : Prop :=
  if r.size = -1 then r.start < fileSize ∨ r.start = 0 ∧ fileSize = 0
  else r.start.toInt + r.size.toInt < 2 ^ 63

instance (r : UploadRequest) (fileSize : Int64) : Decidable (InRange r fileSize) := by
  unfold InRange
  infer_instance

/-- What SND announces is what the upload holds. -/
theorem sndParams_announces (c : AdcCommand) (u : Upload) :
    Util.toInt64 ((sndParams c u).getD 2 []) = u.startPos.toInt ∧
      Util.toInt64 ((sndParams c u).getD 3 []) = u.segmentSize.toInt := by
  have hread (n : Int64) : Util.toInt64 (Util.toString n.toInt) = n.toInt :=
    Util.toInt64_toString n.le_toInt n.toInt_lt
  exact ⟨hread _, hread _⟩

section
variable {content : Str} {pos : Nat} {p : UploadParser} {startPos bytes : Int64}

/-- The streams of a range inside the file: positioned, with the rest of the file cut off. -/
theorem fileStream_left (h0 : 0 ≤ startPos.toInt) (hb : 0 ≤ bytes.toInt)
    (hsize : p.fileSize.toInt = content.length)
    (hsum : (startPos + bytes).toInt = startPos.toInt + bytes.toInt)
    (hend : startPos.toInt + bytes.toInt ≤ content.length) :
    (p.fileStream startPos bytes (.file content pos)).Limits ∧
      (p.fileStream startPos bytes (.file content pos)).left =
        (content.drop startPos.toInt.toNat).take bytes.toInt.toNat := by
  have hpos : ¬ startPos.toInt < 0 := by omega
  simp only [UploadParser.fileStream, InputStream.setPos, if_neg hpos, Int64.lt_iff_toInt_lt, hsum,
    hsize]
  split_ifs with hlimit
  · exact ⟨⟨hb, bytes.toInt_lt, trivial⟩, rfl⟩
  · refine ⟨trivial, ?_⟩
    rw [InputStream.left_file, List.take_of_length_le]
    rw [List.length_drop]
    omega

/-- A range inside the file is served as it should be. -/
theorem inside_newUpload {conn : Nat} {resumed : Bool} (h0 : 0 ≤ startPos.toInt)
    (hb : 0 ≤ bytes.toInt) (hpos : content ≠ [] → 0 < bytes.toInt)
    (hsize : p.fileSize.toInt = content.length)
    (hsum : (startPos + bytes).toInt = startPos.toInt + bytes.toInt)
    (hend : startPos.toInt + bytes.toInt ≤ content.length) :
    Inside content (UploadParser.newUpload conn p.sourceFile p.fileSize startPos bytes .file
      (p.fileStream startPos bytes (.file content pos)) resumed) := by
  obtain ⟨hlimits, hleft⟩ := @fileStream_left _ pos _ _ _ h0 hb hsize hsum hend
  refine ⟨h0, hpos, hend, fun rounds out hout => ?_, fun rounds hrounds => ?_,
    fun c => sndParams_announces c _⟩
  · have hout := InputStream.eq_left_of_readToEnd hlimits hout
    rw [hleft] at hout
    refine ⟨hout, ?_⟩
    rw [hout, List.length_take, List.length_drop]
    simp only [UploadParser.newUpload]
    omega
  · have hshort : (p.fileStream startPos bytes (.file content pos)).left.length <
        rounds.length := by
      rw [hleft, List.length_take, List.length_drop]
      omega
    exact Option.isSome_iff_exists.mpr ⟨_, InputStream.readToEnd_left hlimits hshort⟩

end

/-- Whatever is read has a length, so nothing announced as negative is ever inside a file. -/
theorem Inside.size_nonneg {content : Str} {u : Upload} (h : Inside content u) :
    0 ≤ u.segmentSize.toInt := by
  have hends := h.ends (List.replicate (content.length + 1) ⟨1, 1, Nat.one_pos⟩) (by simp)
  obtain ⟨out, hout⟩ := Option.isSome_iff_exists.mp hends
  have := (h.reads _ out hout).2
  omega

/-- For a request of all that follows, the sum that is checked is the size of the file. -/
theorem rest_of_file {start fileSize : Int64} (h0 : 0 ≤ start.toInt) (hf : 0 ≤ fileSize.toInt) :
    (fileSize - start).toInt = fileSize.toInt - start.toInt ∧
      (start + (fileSize - start)).toInt = fileSize.toInt := by
  have hs := start.toInt_lt
  have hl := fileSize.toInt_lt
  have hsub : (fileSize - start).toInt = fileSize.toInt - start.toInt := by
    rw [Int64.toInt_sub]
    exact Int.bmod_eq_of_le (by omega) (by omega)
  refine ⟨hsub, ?_⟩
  rw [Int64.toInt_add, hsub, show start.toInt + (fileSize.toInt - start.toInt) = fileSize.toInt by
    omega]
  exact Int.bmod_eq_of_le (by omega) (by omega)

/-- The sum of a start and a count that is not negative, which wraps from `2 ^ 63` on. -/
theorem toInt_sum {start bytes : Int64} (h0 : 0 ≤ start.toInt) (hb : 0 ≤ bytes.toInt) :
    (start + bytes).toInt = if start.toInt + bytes.toInt < 2 ^ 63 then start.toInt + bytes.toInt
      else start.toInt + bytes.toInt - 2 ^ 64 := by
  have hs := start.toInt_lt
  have hl := bytes.toInt_lt
  rw [Int64.toInt_add]
  split_ifs with hfits
  · exact Int.bmod_eq_of_le (by omega) (by omega)
  · rw [← Int.sub_bmod_right, Int.bmod_eq_of_le] <;> omega

/-- The streams of kept uploads and of new ones: the file of the request, at some position. -/
theorem openStream_kept {delayUploads : List Upload} {conn : Nat} {p : UploadParser} {content : Str}
    (hopen : disk p.sourceFile = .ok content) (hkept : ∀ up ∈ delayUploads, Kept disk up) :
    ∃ pos, UploadParser.openStream disk p (resumeStream delayUploads conn p).1 =
      .ok (.file content pos) := by
  have hover : ∀ up ∈ delayUploads, up.type = .file →
      ∃ content, disk up.path = .ok content ∧ up.stream.Over content :=
    fun up hup => (hkept up hup).over
  cases hs : UploadParser.openStream disk p (resumeStream delayUploads conn p).1 with
  | ok s =>
    obtain ⟨content', pos, hcontent, rfl⟩ := openStream_file hover hs
    rw [hopen, Except.ok.injEq] at hcontent
    exact ⟨pos, by rw [hcontent]⟩
  | error e =>
    cases hresumed : (resumeStream delayUploads conn p).1 with
    | none => simp [hresumed, UploadParser.openStream, hopen, Except.map] at hs
    | some root => simp [hresumed, UploadParser.openStream] at hs

/-- A request for all that follows is served from inside the file only where it starts there. -/
theorem inside_rest {conn : Nat} {resumed : Bool} {content : Str} {pos : Nat} {p : UploadParser}
    {start : Int64} (h0 : 0 ≤ start.toInt) (hsize : p.fileSize.toInt = content.length) :
    Inside content (UploadParser.newUpload conn p.sourceFile p.fileSize start (p.fileSize - start)
      .file (p.fileStream start (p.fileSize - start) (.file content pos)) resumed) ↔
      start < p.fileSize ∨ start = 0 ∧ p.fileSize = 0 := by
  obtain ⟨hsub, hsum⟩ := @rest_of_file start p.fileSize h0 (by omega)
  simp only [Int64.lt_iff_toInt_lt, ← Int64.toInt_inj, Int64.toInt_zero]
  constructor
  · intro h
    have hnonneg := h.size_nonneg
    have hpos := h.size_pos
    simp only [UploadParser.newUpload, hsub] at hnonneg hpos
    by_cases hempty : content = []
    · simp only [hempty, List.length_nil] at hsize
      omega
    · have := hpos hempty
      omega
  · intro h
    have hempty : content ≠ [] → 0 < p.fileSize.toInt := fun hne => by
      have := List.length_pos_iff.mpr hne
      omega
    refine inside_newUpload h0 (by omega) (fun hne => ?_) hsize (by omega) (by omega)
    have := hempty hne
    omega

section
variable {delayUploads : List Upload} {conn : Nat} {r : UploadRequest} {p : UploadParser}
  {content : Str}

/-- The check of `toUpload` on a request for so many bytes: a sum that wraps is negative and
    passes. -/
theorem check_count (hvalid : r.validate) (hcount : r.size ≠ -1)
    (hsize : p.fileSize.toInt = content.length) :
    ¬ p.fileSize < r.start + p.bytesOf r ↔
      (r.start.toInt + r.size.toInt < 2 ^ 63 →
        r.start.toInt + r.size.toInt ≤ content.length) := by
  have h0 := UploadRequest.validate_start hvalid
  have hb := UploadRequest.validate_size hvalid hcount
  have hs := r.start.toInt_lt
  have hl := r.size.toInt_lt
  rw [UploadParser.bytesOf, if_neg hcount, Int64.lt_iff_toInt_lt, toInt_sum h0 (by omega), hsize]
  split_ifs with hfits
  · simp only [not_lt, hfits, true_imp_iff]
  · simp only [hfits, false_imp_iff, iff_true]
    omega

/-- An upload of a request in range is inside the file. -/
theorem inside_of_inRange (hvalid : r.validate) (hparse : UploadParser.parseFileInfo a r = .ok p)
    (hfile : p.type = .file) (hopen : disk p.sourceFile = .ok content)
    (hsize : p.fileSize.toInt = content.length) (hkept : ∀ up ∈ delayUploads, Kept disk up)
    (hin : InRange r p.fileSize) {u : Upload}
    (hu : p.toUpload a disk conn r (resumeStream delayUploads conn p).1 = .ok (some u)) :
    Inside content u := by
  have h0 := UploadRequest.validate_start hvalid
  have hname := UploadParser.not_list_of_file hparse hfile
  obtain ⟨pos, hstream⟩ := @openStream_kept _ _ conn _ _ hopen hkept
  obtain ⟨hpass, s, hs, rfl⟩ := (UploadParser.toUpload_file hfile hname).mp hu
  rw [hstream] at hs
  cases hs
  rw [InRange] at hin
  by_cases hall : r.size = -1
  · rw [if_pos hall] at hin
    rw [UploadParser.bytesOf, if_pos hall]
    exact (inside_rest h0 hsize).mpr hin
  · rw [if_neg hall] at hin
    have hb := UploadRequest.validate_size hvalid hall
    have hend := (check_count hvalid hall hsize).mp hpass hin
    have hsum := @toInt_sum r.start r.size h0 (by omega)
    rw [if_pos hin] at hsum
    rw [UploadParser.bytesOf, if_neg hall]
    exact inside_newUpload h0 (by omega) (fun _ => hb) hsize hsum hend

/-- **Uploads stay inside the file exactly for the requests whose range is treated as it should
    be.** The request has passed `validate` and asks for a file whose size the share knows; the
    stream may be new or that of any upload that has been kept. -/
theorem inside_iff (hvalid : r.validate) (hparse : UploadParser.parseFileInfo a r = .ok p)
    (hfile : p.type = .file) (hopen : disk p.sourceFile = .ok content)
    (hsize : p.fileSize.toInt = content.length) (hkept : ∀ up ∈ delayUploads, Kept disk up) :
    (∀ u, p.toUpload a disk conn r (resumeStream delayUploads conn p).1 = .ok (some u) →
      Inside content u) ↔ InRange r p.fileSize := by
  constructor
  · intro h
    have h0 := UploadRequest.validate_start hvalid
    have hname := UploadParser.not_list_of_file hparse hfile
    obtain ⟨pos, hstream⟩ := @openStream_kept _ _ conn _ _ hopen hkept
    have hinside (hpass : ¬ p.fileSize < r.start + p.bytesOf r) :=
      h _ ((UploadParser.toUpload_file hfile hname).mpr ⟨hpass, _, hstream, rfl⟩)
    rw [InRange]
    split_ifs with hall
    · -- the sum is the size of the file, so the check passes
      obtain ⟨-, hsum⟩ := @rest_of_file r.start p.fileSize h0 (by omega)
      rw [UploadParser.bytesOf, if_pos hall] at hinside
      refine (inside_rest h0 hsize).mp (hinside ?_)
      rw [Int64.lt_iff_toInt_lt, hsum]
      exact lt_irrefl _
    · by_contra hfits
      have hend := (hinside ((check_count hvalid hall hsize).mpr fun h => absurd h hfits)).end_le
      simp only [UploadParser.newUpload, UploadParser.bytesOf, if_neg hall] at hend
      have := p.fileSize.toInt_lt
      omega
  · exact fun hin u hu => inside_of_inRange hvalid hparse hfile hopen hsize hkept hin hu

end

/-- A share with one file of three bytes. -/
def smallShare : UploadSources where
  findProfile _ := true
  toRealWithSize _ _ _ := ⟨true, false, str "/share/a", 3⟩
  getFileListInfo _ := (0, [])
  getTree _ := none
  generateTTHList _ _ := none
  generateBundleTTHList _ := (none, none)
  generatePartialList _ _ := none
  decodeBZ2 := .ok

def smallDisk : Disk := fun _ => .ok (str "abc")

def smallRequest (start size : Int64) : UploadRequest :=
  { type := str "file", file := str "TTH/A", start := start, size := size }

/-- The theorem on the second byte of the small file, with nothing kept. -/
theorem inside_iff_second :
    (∀ u, (⟨str "/share/a", 3, .file⟩ : UploadParser).toUpload smallShare smallDisk 0
      (smallRequest 1 1) (resumeStream [] 0 ⟨str "/share/a", 3, .file⟩).1 = .ok (some u) →
      Inside (str "abc") u) ↔ InRange (smallRequest 1 1) 3 :=
  @inside_iff smallShare smallDisk _ _ _ _ _ (by decide) rfl rfl rfl rfl (by simp)

/-- **All bytes from the tenth on, of a file that has three**: the upload has a negative size. And a
    count so large that the end wraps: the segment ends far behind the file. -/
theorem outside_small :
    (∃ u, (smallRequest 10 (-1)).validate ∧
      (prepareFile smallShare smallDisk [] 0 true (smallRequest 10 (-1))).1 = .ok u ∧
      u.segmentSize.toInt = -7 ∧ ¬ Inside (str "abc") u) ∧
    ∃ u, (smallRequest 2 9223372036854775807).validate ∧
      (prepareFile smallShare smallDisk [] 0 true (smallRequest 2 9223372036854775807)).1 = .ok u ∧
      u.startPos.toInt + u.segmentSize.toInt = 2 ^ 63 + 1 ∧ ¬ Inside (str "abc") u := by
  refine ⟨⟨_, by decide, rfl, by decide, fun h => absurd h.size_nonneg (by decide)⟩,
    ⟨_, by decide, rfl, by decide, fun h => absurd h.end_le (by decide)⟩⟩

/-- **What `on(GET)` starts and announces**: an upload of a file in range is inside it, and SND
    names its segment. -/
theorem onGET_inside {delayUploads : List Upload} {conn : Nat} {slot : Bool} {c : AdcCommand}
    {u : Upload} {snd : List Str} (hkept : ∀ up ∈ delayUploads, Kept disk up)
    (h : (onGET a disk delayUploads conn slot c).1 = .ok (u, snd)) :
    ∃ p, UploadParser.parseFileInfo a (requestOf c) = .ok p ∧
      ∀ content, p.type = .file → disk p.sourceFile = .ok content →
        p.fileSize.toInt = content.length → InRange (requestOf c) p.fileSize →
        ∃ served, Inside content served ∧ (u = served ∨ u = served.setFiltered) ∧
          snd = sndParams c served := by
  simp only [onGET] at h
  split at h
  · cases h
  · rename_i served hserved
    obtain ⟨hvalid, p, hparse, hupload⟩ := prepareFile_ok hserved
    refine ⟨p, hparse, fun content hfile hopen hsize hin =>
      ⟨served, inside_of_inRange hvalid hparse hfile hopen hsize hkept hin hupload, ?_⟩⟩
    simp only [Except.ok.injEq, Prod.mk.injEq] at h
    refine ⟨?_, h.2.symm⟩
    rw [← h.1]
    split_ifs
    · exact Or.inr rfl
    · exact Or.inl rfl

end FileUploads
end Airdcpp
