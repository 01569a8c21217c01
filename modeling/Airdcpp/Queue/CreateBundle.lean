import Airdcpp.Queue.PathWalk
import Airdcpp.Queue.QueueItem
import Airdcpp.Util.PathCleaning

/-!
# `Queue/CreateBundle` — queuing a directory

`QueueManager::createDirectoryBundleHooked`: the target directory is formatted, validated and
joined with the validated directory name; the files are validated, and each is queued under
that directory with its validated name. The bundle they are put in is a new one, whose
constructor validates the joined path *again*, now with a separator behind the name.

What the function asks of other parts of the client (hooks, skip list, share, file system,
existing bundles) is a record of functions, `AddEnv`. Messages are named by the string they
are made from.

`createDirectoryBundle_inside_iff` says when that is harmless: exactly when validating the
joined path again leaves it where it is, an added file is inside its bundle and `forEachPath`
walks from its directory up to the bundle's target.
-/

namespace Airdcpp

open PathUtil

/-! ## What is added -/

structure BundleAddData where
  name : Str
  prio : Priority
  date : Int

structure BundleFileAddData extends BundleAddData where
  tth : TTHValue
  size : Int

structure BundleAddOptions where
  target : Str
  optionalUser : Option HintedUser

/-- Why a file is not added: the string an exception is made from. -/
inductive AddError
  | ZERO_BYTE_QUEUE
  | SKIPLIST_DOWNLOAD_MATCH
  | TARGET_FILENAME_TOO_LONG
  | TARGET_FILE_EXISTS
  | TTH_ALREADY_SHARED
  | FILE_ALREADY_QUEUED
  | hookRejection (error : Str)
  | FILE_ALREADY_FINISHED
  | FILE_WITH_DIFFERENT_SIZE
  | FILE_WITH_DIFFERENT_TTH
deriving DecidableEq

/-- `FileException`, `DupeException` or `QueueException`. -/
inductive AddError.Kind
  | file
  | dupe
  | queue
deriving DecidableEq

def AddError.kind : AddError → Kind
  | TARGET_FILE_EXISTS | FILE_ALREADY_FINISHED => .file
  | TTH_ALREADY_SHARED | FILE_ALREADY_QUEUED => .dupe
  | _ => .queue

/-- Why no bundle is created. -/
inductive CreateError
  | rejected (error : Str)
  | BUNDLE_ERROR_SUBBUNDLES (subBundles : List Str)
  | DIR_EMPTY
  | source (error : Str)
  | files (errors : List (AddError × Str × Bool))

/-- The answers the rest of the client gives. -/
structure AddEnv where
  settings : Settings
  now : Int
  /-- `bundleValidationHook`: the priority and target of each hook -/
  bundleHook : Str → BundleAddData → Except Str (List (Priority × Str))
  /-- `bundleFileValidationHook` -/
  fileHook : Str → BundleFileAddData → Except Str (List Priority)
  /-- `Util::formatParams` with the user name, at a time -/
  formatParams : Str → Int → Str
  formatDirRemoteTime : Bool
  checkSource : HintedUser → Option Str
  getSubBundles : Str → List Str
  /-- the target and priority of an existing bundle to merge into -/
  getMergeBundle : Str → Option (Str × Priority)
  skipList : Str → Bool
  highPrioFiles : Str → Bool
  prioListHighest : Bool
  fileExists : Str → Bool
  /-- shared already, where such files are not to be downloaded -/
  isFileShared : TTHValue → Bool
  dontDlAlreadyQueued : Bool
  minDupeCheckSize : Int
  /-- `noCaseStringEq` -/
  sameTarget : Str → Str → Bool
  /-- the token a new item gets -/
  newToken : Str → QueueToken

namespace QueueManager

variable (env : AddEnv)

/-! ## The target directory -/

/-- `runAddBundleHooksThrow` -/
def runAddBundleHooks (target : Str) (aDirectory : BundleAddData) :
    Except Str (Str × BundleAddData) :=
  match env.bundleHook target aDirectory with
  | .error e => .error e
  | .ok results =>
    .ok (results.foldl
      (fun (t, d) (priority, hookTarget) =>
        (if hookTarget.isEmpty then t else hookTarget,
          if priority = .default then d else { d with prio := priority }))
      (target, aDirectory))

def formatBundleTarget (aPath : Str) (aRemoteDate : Int) : Str :=
  let time := if env.formatDirRemoteTime && decide (aRemoteDate > 0) then aRemoteDate else env.now
  validatePath (env.formatParams aPath time) false

/-- The directory that is queued. -/
def bundleDirectory (target : Str) (aDirectory : BundleAddData) : Str :=
  joinDirectory (formatBundleTarget env target aDirectory.date) (validatePath aDirectory.name false)

/-! ## Validating a file -/

/-- The longest path of the platform. -/
def PATH_MAX : Nat := 4096

/-- `checkTarget` below a directory. -/
def checkTarget (toValidate aParentDir : Str) : Except AddError Str :=
  if toValidate.length + aParentDir.length > PATH_MAX then .error .TARGET_FILENAME_TOO_LONG
  else
    let target := validatePath toValidate false
    if env.fileExists (aParentDir ++ target) then .error .TARGET_FILE_EXISTS else .ok target

/-- The file name, and each directory in front of it. -/
def matchesSkipList (name : Str) : Bool :=
  env.skipList (getFileName name) ||
    (name.splitOn PATH_SEPARATOR).dropLast.any env.skipList

/-- `validateBundleFileHooked`: the file as it is then, and the exception if there is one. -/
def validateBundleFile (queue : List QueueItem) (aBundleDir : Str) (fileInfo : BundleFileAddData) :
    BundleFileAddData × Option AddError :=
  if fileInfo.size ≤ 0 then (fileInfo, some .ZERO_BYTE_QUEUE)
  else if matchesSkipList env fileInfo.name then (fileInfo, some .SKIPLIST_DOWNLOAD_MATCH)
  else
    match checkTarget env fileInfo.name aBundleDir with
    | .error e => (fileInfo, some e)
    | .ok name =>
      let fileInfo := { fileInfo with name := name }
      let queued := queue.find? fun q => q.tthRoot = fileInfo.tth
      if env.isFileShared fileInfo.tth then (fileInfo, some .TTH_ALREADY_SHARED)
      else if env.dontDlAlreadyQueued && queued.any fun q => q.target != aBundleDir ++ name then
        (fileInfo, some .FILE_ALREADY_QUEUED)
      else
        match env.fileHook aBundleDir fileInfo with
        | .error e => (fileInfo, some (.hookRejection e))
        | .ok prios =>
          let fileInfo := prios.foldl
            (fun f p => if p = .default then f else { f with prio := p }) fileInfo
          if fileInfo.prio = .default && env.highPrioFiles (getFileName fileInfo.name) then
            ({ fileInfo with prio := if env.prioListHighest then .highest else .high }, none)
          else (fileInfo, none)

/-- The files that are left after validation, and the errors: the text, the name, and whether
    it is minor. -/
structure Validated where
  files : List BundleFileAddData := []
  smallDupes : Nat := 0
  filesFailed : Nat := 0
  errors : List (AddError × Str × Bool) := []

def validateFiles (queue : List QueueItem) (target : Str) : List BundleFileAddData → Validated
  | [] => {}
  | bfi :: rest =>
    let r := validateFiles queue target rest
    match validateBundleFile env queue target bfi with
    | (bfi, none) => { r with files := bfi :: r.files }
    | (bfi, some e) =>
      match e.kind with
      | .queue =>
        { r with filesFailed := r.filesFailed + 1, errors := (e, bfi.name, false) :: r.errors }
      | .file => { r with errors := (e, bfi.name, true) :: r.errors }
      | .dupe =>
        if bfi.size < env.minDupeCheckSize * 1024 then
          { r with
            files := bfi :: r.files, smallDupes := r.smallDupes + 1
            errors := (e, bfi.name, true) :: r.errors }
        else
          { r with filesFailed := r.filesFailed + 1, errors := (e, bfi.name, false) :: r.errors }

/-! ## Adding the files -/

/-- `checkRemovedTarget`: whether the finished item has been removed to make room. -/
def checkRemovedTarget (q : QueueItem) (aSize : Int) (aTTH : TTHValue) : Except AddError Bool :=
  if q.isDownloaded then
    if !env.fileExists q.target && q.bundle.isSome && q.isCompleted then .ok true
    else .error .FILE_ALREADY_FINISHED
  else if q.size ≠ aSize then .error .FILE_WITH_DIFFERENT_SIZE
  else if aTTH ≠ q.tthRoot then .error .FILE_WITH_DIFFERENT_TTH
  else .ok false

/-- `fileQueue.add` of a target that is not queued, and the priority `addBundleFile` gives a
    new item. -/
def newItem (aTarget : Str) (bfi : BundleFileAddData) (bundlePrio : Priority) : QueueItem :=
  let q := { QueueItem.create env.settings aTarget bfi.size bfi.prio 0 env.now bfi.tth []
    (env.newToken aTarget) with status := .queued }
  -- the highest priority would not be started if the bundle is forced paused
  if bundlePrio = .paused ∧ q.priority = .highest then { q with priority := .high } else q

/-- `addBundleFile`, without the source: the item, whether it is new, and the queue. -/
def addBundleFile (queue : List QueueItem) (aTarget : Str) (bfi : BundleFileAddData)
    (bundlePrio : Priority) : Except AddError ((QueueItem × Bool) × List QueueItem) :=
  match queue.find? fun q => env.sameTarget q.target aTarget with
  | none =>
    let q := newItem env aTarget bfi bundlePrio
    .ok ((q, true), queue ++ [q])
  | some q =>
    match checkRemovedTarget env q bfi.size bfi.tth with
    | .error e => .error e
    | .ok false => .ok ((q, false), queue)
    | .ok true =>
      let q' := newItem env aTarget bfi bundlePrio
      .ok ((q', true), queue.erase q ++ [q'])

/-- The state of the loop that adds the files. -/
structure Adding where
  queue : List QueueItem
  queueItems : List (QueueItem × Bool) := []
  filesAdded : Nat := 0
  filesUpdated : Nat := 0
  filesFailed : Nat
  errors : List (AddError × Str × Bool)

def addFile (target : Str) (bundlePrio : Priority) (st : Adding) (bfi : BundleFileAddData) :
    Adding :=
  match addBundleFile env st.queue (target ++ bfi.name) bfi bundlePrio with
  | .ok ((q, true), queue) =>
    { st with
      queue := queue, queueItems := st.queueItems ++ [(q, true)], filesAdded := st.filesAdded + 1 }
  | .ok ((q, false), queue) =>
    { st with
      queue := queue, queueItems := st.queueItems ++ [(q, false)]
      filesUpdated := st.filesUpdated + 1 }
  | .error e =>
    if e.kind = .file then { st with errors := st.errors ++ [(e, bfi.name, true)] }
    else
      { st with
        filesFailed := st.filesFailed + 1, errors := st.errors ++ [(e, bfi.name, false)] }

/-- What `createDirectoryBundleHooked` returns, with the queue it leaves and the target of the
    bundle the items are in. -/
structure DirectoryBundle where
  bundleTarget : Str
  merged : Bool
  queueItems : List (QueueItem × Bool)
  filesAdded : Nat
  filesUpdated : Nat
  filesFailed : Nat
  queue : List QueueItem

/-- `getBundle`: the bundle to merge into, or a new one, whose constructor validates its
    target. -/
def getBundle (target : Str) (prio : Priority) : (Str × Priority) × Bool :=
  match env.getMergeBundle target with
  | some b => (b, true)
  | none => ((validatePath target true, if prio = .default then .low else prio), false)

/-- The part that adds the validated files. Minor errors are not reported once some of the
    files are queued in spite of them. -/
def addValidatedFiles (queue : List QueueItem) (target : Str) (prio : Priority) (v : Validated) :
    Except CreateError DirectoryBundle :=
  let errors := if v.smallDupes > 0 then v.errors.filter fun e => !e.2.2 else v.errors
  let b := getBundle env target prio
  let st := v.files.foldl (addFile env target b.1.2)
    { queue := queue, filesFailed := v.filesFailed, errors := errors }
  if st.queueItems.isEmpty then .error (.files st.errors)
  else .ok
    { bundleTarget := b.1.1, merged := b.2, queueItems := st.queueItems
      filesAdded := st.filesAdded, filesUpdated := st.filesUpdated
      filesFailed := st.filesFailed, queue := st.queue }

def createDirectoryBundle (queue : List QueueItem) (aOptions : BundleAddOptions)
    (aDirectory : BundleAddData) (aFiles : List BundleFileAddData) :
    Except CreateError DirectoryBundle :=
  match runAddBundleHooks env aOptions.target aDirectory with
  | .error e => .error (.rejected e)
  | .ok (target, aDirectory) =>
    let target := bundleDirectory env target aDirectory
    if !(env.getSubBundles target).isEmpty then
      .error (.BUNDLE_ERROR_SUBBUNDLES (env.getSubBundles target))
    else if aFiles.isEmpty then .error .DIR_EMPTY
    else
      match aOptions.optionalUser.bind env.checkSource with
      | some e => .error (.source e)
      | none =>
        let v := validateFiles env queue target aFiles
        if v.files.isEmpty || (v.smallDupes > 0 && v.smallDupes == v.files.length) then
          .error (.files v.errors)
        else addValidatedFiles env queue target aDirectory.prio v

/-! ## Where the items are -/

theorem newItem_target (aTarget : Str) (bfi : BundleFileAddData) (p : Priority) :
    (newItem env aTarget bfi p).target = aTarget := by
  unfold newItem
  simp only
  split <;> rfl

/-- A new item's target is below the directory that is queued. -/
theorem addFile_targets {target : Str} {p : Priority} {st : Adding} (bfi : BundleFileAddData)
    (h : ∀ q, (q, true) ∈ st.queueItems → ∃ name, q.target = target ++ name) :
    ∀ q, (q, true) ∈ (addFile env target p st bfi).queueItems → ∃ name,
      q.target = target ++ name := by
  intro q hq
  unfold addFile addBundleFile at hq
  cases hfind : st.queue.find? fun q => env.sameTarget q.target (target ++ bfi.name) with
  | none =>
    rw [hfind] at hq
    rcases List.mem_append.mp hq with hq | hq
    · exact h q hq
    · obtain rfl := congrArg Prod.fst (List.mem_singleton.mp hq)
      exact ⟨bfi.name, newItem_target env _ _ _⟩
  | some q' =>
    rw [hfind] at hq
    simp only at hq
    cases hrem : checkRemovedTarget env q' bfi.size bfi.tth with
    | error e =>
      rw [hrem] at hq
      simp only at hq
      split at hq
      · exact h q hq
      · exact h q hq
    | ok removed =>
      rw [hrem] at hq
      cases removed with
      | false =>
        rcases List.mem_append.mp hq with hq | hq
        · exact h q hq
        · exact absurd (congrArg Prod.snd (List.mem_singleton.mp hq)) (by simp)
      | true =>
        rcases List.mem_append.mp hq with hq | hq
        · exact h q hq
        · obtain rfl := congrArg Prod.fst (List.mem_singleton.mp hq)
          exact ⟨bfi.name, newItem_target env _ _ _⟩

theorem addFiles_targets {target : Str} {p : Priority} (files : List BundleFileAddData)
    {st : Adding} (h : ∀ q, (q, true) ∈ st.queueItems → ∃ name, q.target = target ++ name) :
    ∀ q, (q, true) ∈ (files.foldl (addFile env target p) st).queueItems →
      ∃ name, q.target = target ++ name := by
  induction files generalizing st with
  | nil => exact h
  | cons bfi files ih => exact ih (addFile_targets env bfi h)

theorem addValidatedFiles_ok {queue : List QueueItem} {target : Str} {prio : Priority}
    {v : Validated} {b : DirectoryBundle} (h : addValidatedFiles env queue target prio v = .ok b) :
    (env.getMergeBundle target = none → b.bundleTarget = validatePath target true) ∧
      ∀ q, (q, true) ∈ b.queueItems → ∃ name, q.target = target ++ name := by
  unfold addValidatedFiles at h
  dsimp only at h
  generalize (if v.smallDupes > 0 then _ else _) = errors at h
  split at h
  · cases h
  · obtain rfl := Except.ok.inj h
    refine ⟨fun hmerge => ?_, addFiles_targets env _ (by simp)⟩
    simp only [getBundle, hmerge]

/-- **What a created bundle is**: its target, and where the items added to it are. -/
theorem createDirectoryBundle_ok {queue : List QueueItem} {aOptions : BundleAddOptions}
    {aDirectory : BundleAddData} {aFiles : List BundleFileAddData} {b : DirectoryBundle}
    (h : createDirectoryBundle env queue aOptions aDirectory aFiles = .ok b) :
    ∃ target directory, runAddBundleHooks env aOptions.target aDirectory = .ok (target, directory) ∧
      (env.getMergeBundle (bundleDirectory env target directory) = none →
        b.bundleTarget = validatePath (bundleDirectory env target directory) true) ∧
      ∀ q, (q, true) ∈ b.queueItems →
        ∃ name, q.target = bundleDirectory env target directory ++ name := by
  unfold createDirectoryBundle at h
  cases hhook : runAddBundleHooks env aOptions.target aDirectory with
  | error e => rw [hhook] at h; cases h
  | ok td =>
    obtain ⟨target, directory⟩ := td
    rw [hhook] at h
    refine ⟨target, directory, rfl, ?_⟩
    simp only at h
    split at h
    · cases h
    split at h
    · cases h
    split at h
    · cases h
    split at h
    · cases h
    exact addValidatedFiles_ok env h

/-! ## Inside the bundle -/

/-- The directory of a file is the bundle's target or below it, and `forEachPath` visits the
    directories from there up to the target and stops. -/
def InsideBundle (bundleTarget file : Str) : Prop :=
  bundleTarget <+: getFilePath file ∧
    ∃ dirs, BundleQueue.pathsUp bundleTarget (getFilePath file) = some dirs ∧
      BundleQueue.VisitsExactly bundleTarget (getFilePath file) dirs

theorem getLast?_bundleDirectory (target : Str) (aDirectory : BundleAddData) :
    (bundleDirectory env target aDirectory).getLast? = some PATH_SEPARATOR :=
  List.getLast?_concat

theorem isBadChar_bundleDirectory (target : Str) (aDirectory : BundleAddData) :
    ∀ c ∈ bundleDirectory env target aDirectory, isBadChar c = false := by
  intro c hc
  rcases List.mem_append.mp hc with hc | hc
  · rcases List.mem_append.mp hc with hc | hc
    · exact isBadChar_cleanPathChars _ false c hc
    · exact isBadChar_cleanPathChars _ false c hc
  · obtain rfl := List.mem_singleton.mp hc
    decide

/-- The directory of a file below a directory is below it too. -/
theorem getFilePath_below {dir : Str} (hdir : dir.getLast? = some PATH_SEPARATOR) (name : Str) :
    ∃ sub, getFilePath (dir ++ name) = dir ++ sub ∧ isDirectoryPath (dir ++ sub) = true := by
  obtain ⟨q, rfl⟩ := List.getLast?_eq_some_iff.mp hdir
  by_cases hname : PATH_SEPARATOR ∈ name
  · obtain ⟨sub, r, rfl, hr⟩ := exists_last_separator hname
    refine ⟨sub ++ [PATH_SEPARATOR], ?_, ?_⟩
    · have := getFilePath_append (q := q ++ [PATH_SEPARATOR] ++ sub) hr
      simpa using this
    · rw [← List.append_assoc]
      exact beq_iff_eq.mpr List.getLast?_concat
  · refine ⟨[], ?_, ?_⟩
    · have := getFilePath_append (q := q) hname
      simpa using this
    · simp [isDirectoryPath]

/-- A file below a directory is inside the bundle whose target is that directory validated
    again, exactly when that is a beginning of the directory. -/
theorem insideBundle_iff {dir : Str} (hdir : dir.getLast? = some PATH_SEPARATOR) (name : Str) :
    InsideBundle (validatePath dir true) (dir ++ name) ↔ validatePath dir true <+: dir := by
  obtain ⟨sub, hpath, hisdir⟩ := getFilePath_below hdir name
  have hlast := (validatePath_directory hdir).2
  unfold InsideBundle
  rw [hpath]
  constructor
  · rintro ⟨hpre, -⟩
    exact validatePath_prefix_of_append hdir hpre
  · intro h
    have hpre := h.trans (List.prefix_append dir sub)
    exact ⟨hpre, BundleQueue.pathsUp_of_prefix (by simp [isDirectoryPath, hlast]) hisdir hpre⟩

/-- **Files stay inside a new bundle exactly when the directory validated again stays where it
    is.** -/
theorem createDirectoryBundle_inside_iff {queue : List QueueItem} {aOptions : BundleAddOptions}
    {aDirectory directory : BundleAddData} {target : Str} {aFiles : List BundleFileAddData}
    {b : DirectoryBundle} (hb : createDirectoryBundle env queue aOptions aDirectory aFiles = .ok b)
    (htarget : runAddBundleHooks env aOptions.target aDirectory = .ok (target, directory))
    (hmerge : env.getMergeBundle (bundleDirectory env target directory) = none)
    {q : QueueItem} (hq : (q, true) ∈ b.queueItems) :
    InsideBundle b.bundleTarget q.target ↔ KeepsPath (bundleDirectory env target directory) := by
  obtain ⟨target', directory', htarget', hnew, hitems⟩ := createDirectoryBundle_ok env hb
  rw [htarget] at htarget'
  obtain ⟨rfl, rfl⟩ := Prod.mk.inj (Except.ok.inj htarget')
  obtain ⟨name, hname⟩ := hitems q hq
  have hlast := getLast?_bundleDirectory env target directory
  rw [hnew hmerge, hname, insideBundle_iff hlast,
    validatePath_prefix_iff hlast (isBadChar_bundleDirectory env target directory)]

/-! ## Two directory names -/

/-- A client in which nothing stands in the way. -/
def quietEnv : AddEnv where
  settings := {}
  now := 0
  bundleHook _ _ := .ok []
  fileHook _ _ := .ok []
  formatParams p _ := p
  formatDirRemoteTime := false
  checkSource _ := none
  getSubBundles _ := []
  getMergeBundle _ := none
  skipList _ := false
  highPrioFiles _ := false
  prioListHighest := false
  fileExists _ := false
  isFileShared _ := false
  dontDlAlreadyQueued := false
  minDupeCheckSize := 0
  sameTarget a b := a == b
  newToken _ := 1

def sampleFile : BundleFileAddData := ⟨⟨str "a", .normal, 0⟩, Vector.replicate 24 0, 1⟩

/-- What queuing that file as `target` gives, in a bundle with this target. -/
def sampleBundle (bundleTarget target : Str) : DirectoryBundle :=
  let q := newItem quietEnv target sampleFile .normal
  { bundleTarget := bundleTarget, merged := false, queueItems := [(q, true)], filesAdded := 1
    filesUpdated := 0, filesFailed := 0, queue := [q] }

/-- `/dl/foo/` validated again is `/dl/foo/`. -/
theorem createDirectoryBundle_inside_foo :
    createDirectoryBundle quietEnv [] ⟨str "/dl/", none⟩ ⟨str "foo", .normal, 0⟩ [sampleFile] =
      .ok (sampleBundle (str "/dl/foo/") (str "/dl/foo/a")) ∧
    InsideBundle (str "/dl/foo/") (str "/dl/foo/a") := by
  have hb : createDirectoryBundle quietEnv [] ⟨str "/dl/", none⟩ ⟨str "foo", .normal, 0⟩
      [sampleFile] = .ok (sampleBundle (str "/dl/foo/") (str "/dl/foo/a")) := rfl
  have hkeep : KeepsPath (bundleDirectory quietEnv (str "/dl/") ⟨str "foo", .normal, 0⟩) :=
    ⟨str "/dl/foo/", [], by decide, by unfold IsClean; decide, by decide, .nil⟩
  exact ⟨hb, (createDirectoryBundle_inside_iff quietEnv hb rfl rfl
    (List.mem_singleton.mpr rfl)).mpr hkeep⟩

/-- A bundle for `..` in `/dl/` has the target `/dl/___/`, its file is in `/dl/../`, and
    `forEachPath` never ends. -/
theorem createDirectoryBundle_dotdot :
    createDirectoryBundle quietEnv [] ⟨str "/dl/", none⟩ ⟨str "..", .normal, 0⟩ [sampleFile] =
      .ok (sampleBundle (str "/dl/___/") (str "/dl/../a")) ∧
    BundleQueue.pathsUp (str "/dl/___/") (getFilePath (str "/dl/../a")) = none ∧
    ¬ InsideBundle (str "/dl/___/") (str "/dl/../a") := by
  have hpath : BundleQueue.pathsUp (str "/dl/___/") (getFilePath (str "/dl/../a")) = none := by
    rw [BundleQueue.pathsUp, if_neg (by decide), if_pos (by decide), BundleQueue.pathsUp,
      if_neg (by decide), if_pos (by decide), BundleQueue.pathsUp, if_neg (by decide),
      if_neg (by decide)]
    rfl
  refine ⟨rfl, hpath, ?_⟩
  rintro ⟨-, dirs, hdirs, -⟩
  exact absurd (hpath.symm.trans hdirs) (by simp)

end QueueManager

end Airdcpp
