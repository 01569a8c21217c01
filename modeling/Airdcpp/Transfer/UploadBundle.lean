import Airdcpp.Lib.Runs
import Airdcpp.Transfer.UBNBundle

/-!
# `Transfer/UploadBundle` — the progress of a bundle that is being uploaded

The downloading user tells by UDP commands which of his connections belong to a bundle, how large it
is and how much of it he has. Two counters are added up to what has been uploaded:
`uploadedSegments` of the finished segments, and `currentUploaded` of those that are being uploaded.
The first is a signed number and the second an unsigned one, and their sum is taken modulo 2^64
(`uint64`).

The counters are compared with the size in some of the steps only. `Meets` says of each step when
the sum stays within the size; a run whose steps all meet it keeps every bundle within its bounds
(`uploaded_within_bounds`).

Names and paths, the flags of the uploads and the bytes that were really sent are left out.
-/

namespace Airdcpp

/-- A number as `uint64_t` -/
def uint64 (x : Int) : Int := x % 2 ^ 64

/-- A number as `int64_t` -/
def int64 (x : Int) : Int := x.bmod (2 ^ 64)

theorem uint64_le_iff {x size : Int} (hlo : -2 ^ 63 ≤ x) (hhi : x < 2 ^ 64)
    (hsize : size < 2 ^ 63) :
    uint64 x ≤ size ↔ 0 ≤ x ∧ x ≤ size := by
  simp only [uint64]
  omega

theorem uint64_nonneg (x : Int) : 0 ≤ uint64 x := by
  simp only [uint64]
  omega

theorem uint64_lt (x : Int) : uint64 x < 2 ^ 64 := by
  simp only [uint64]
  omega

@[simp] theorem uint64_uint64_add (x y : Int) : uint64 (uint64 x + y) = uint64 (x + y) := by
  simp [uint64]

/-- `Upload`, as far as a bundle looks at it. -/
structure BundleUpload where
  token : Nat
  start : Int
  pos : Int
  averageSpeed : Int
deriving DecidableEq, Repr

structure UploadBundle where
  size : Int
  speed : Int := 0
  totalSpeed : Int := 0
  uploadedSegments : Int
  currentUploaded : Int := 0
  singleUser : Bool
  delayTime : Nat := 0
  uploads : Finset Nat := ∅
deriving DecidableEq

namespace UploadBundle

/-- `UploadBundle(…)` -/
def new (aSize : Int) (aSingleUser : Bool) (aUploaded : Int) : UploadBundle where
  size := aSize
  uploadedSegments := if aSize < aUploaded then aSize else aUploaded
  singleUser := aSingleUser

def addUploadedSegment (b : UploadBundle) (aSize : Int) : UploadBundle :=
  if b.singleUser ∧ aSize + b.uploadedSegments ≤ b.size then
    { b with
      uploadedSegments := b.uploadedSegments + aSize
      currentUploaded := uint64 (b.currentUploaded - aSize) }
  else b

def setSingleUser (b : UploadBundle) (aSingleUser : Bool) (aUploadedSegments : Int) :
    UploadBundle :=
  if aSingleUser then
    { b with
      singleUser := true
      totalSpeed := 0
      uploadedSegments :=
        if aUploadedSegments ≤ b.size then aUploadedSegments else b.uploadedSegments }
  else { b with singleUser := false, currentUploaded := 0 }

def getUploaded (b : UploadBundle) : Int := uint64 (b.currentUploaded + b.uploadedSegments)

/-- The variable of `getSecondsLeft`. -/
def bytesLeft (b : UploadBundle) : Int := int64 (b.size - b.getUploaded)

def getSecondsLeft (b : UploadBundle) : Int :=
  let avg := if 0 < b.totalSpeed then b.totalSpeed else b.speed
  if 0 < avg then uint64 (b.bytesLeft.tdiv avg) else 0

def addUpload (b : UploadBundle) (u : BundleUpload) : UploadBundle :=
  let uploads := insert u.token b.uploads
  { b with uploads := uploads, delayTime := if uploads.card = 1 then 0 else b.delayTime }

/-- `removeUpload`, and whether there are no uploads left. -/
def removeUpload (b : UploadBundle) (u : BundleUpload) : Bool × UploadBundle :=
  if u.token ∈ b.uploads then
    let b := b.addUploadedSegment u.pos
    let uploads := b.uploads.erase u.token
    (decide (uploads = ∅), { b with uploads := uploads })
  else (decide (b.uploads = ∅), b)

/-- The loop of `countSpeed`: the sums of the speeds and of the positions. -/
def sums : List BundleUpload → Int × Int
  | [] => (0, 0)
  | u :: aUploads =>
    let s := sums aUploads
    if 0 < u.start then (s.1 + u.averageSpeed, s.2 + u.pos) else s

/-- `countSpeed`, and what it returns. -/
def countSpeed (b : UploadBundle) (aUploads : List BundleUpload) : Int × UploadBundle :=
  let (ownBundleSpeed, bundlePos) := sums aUploads
  (uint64 ownBundleSpeed,
    if 0 < ownBundleSpeed then
      { b with
        currentUploaded := if b.singleUser then uint64 bundlePos else b.currentUploaded
        speed := ownBundleSpeed }
    else b)

def BUNDLE_DELAY_SECONDS : Nat := 60

/-- `checkDelaySecond`, which tells whether the bundle should be removed. -/
def checkDelaySecond (b : UploadBundle) : Bool × UploadBundle :=
  if b.uploads.Nonempty then (false, b)
  else (decide (BUNDLE_DELAY_SECONDS < b.delayTime + 1), { b with delayTime := b.delayTime + 1 })

/-! ## Bounds of a bundle -/

/-- What every run keeps of a bundle: its numbers are in the ranges of their types, and nothing is
    being uploaded where several users upload. -/
structure Word (b : UploadBundle) : Prop where
  size_pos : 0 < b.size
  size_lt : b.size < 2 ^ 63
  segments_ge : -2 ^ 63 ≤ b.uploadedSegments
  segments_le : b.uploadedSegments ≤ 2 ^ 63
  current_nonneg : 0 ≤ b.currentUploaded
  current_lt : b.currentUploaded < 2 ^ 64
  current_eq : b.singleUser = false → b.currentUploaded = 0

/-- What has been uploaded is not more than the size, and the rest is not negative. -/
structure WithinBounds (b : UploadBundle) : Prop where
  uploaded_le : b.getUploaded ≤ b.size
  bytesLeft_nonneg : 0 ≤ b.bytesLeft

variable {b : UploadBundle}

theorem getUploaded_nonneg (b : UploadBundle) : 0 ≤ b.getUploaded := uint64_nonneg _

theorem bytesLeft_eq (hw : b.Word) (h : b.getUploaded ≤ b.size) :
    b.bytesLeft = b.size - b.getUploaded := by
  have hnonneg := b.getUploaded_nonneg
  have hlt := hw.size_lt
  exact Int.bmod_eq_of_le (by omega) (by omega)

/-- The rest follows from the sum. -/
theorem withinBounds_iff (hw : b.Word) : b.WithinBounds ↔ b.getUploaded ≤ b.size := by
  refine ⟨fun h => h.uploaded_le, fun h => ⟨h, ?_⟩⟩
  rw [bytesLeft_eq hw h]
  omega

/-! ### What the functions do to the sum -/

theorem getUploaded_addUploadedSegment (b : UploadBundle) (aSize : Int) :
    (b.addUploadedSegment aSize).getUploaded = b.getUploaded := by
  simp only [addUploadedSegment]
  split
  · simp [getUploaded]
  · rfl

theorem getUploaded_removeUpload (b : UploadBundle) (u : BundleUpload) :
    (b.removeUpload u).2.getUploaded = b.getUploaded := by
  simp only [removeUpload]
  split
  · exact getUploaded_addUploadedSegment b u.pos
  · rfl

@[simp] theorem size_addUploadedSegment (b : UploadBundle) (aSize : Int) :
    (b.addUploadedSegment aSize).size = b.size := by
  simp only [addUploadedSegment]
  split <;> rfl

@[simp] theorem size_removeUpload (b : UploadBundle) (u : BundleUpload) :
    (b.removeUpload u).2.size = b.size := by
  simp only [removeUpload]
  split <;> simp

/-! ### The ranges are kept -/

theorem new_word {aSize aUploaded : Int} (aSingleUser : Bool) (hpos : 0 < aSize)
    (hlt : aSize < 2 ^ 63)
    (hge : -2 ^ 63 ≤ aUploaded) : (new aSize aSingleUser aUploaded).Word where
  size_pos := hpos
  size_lt := hlt
  segments_ge := by simp only [new]; split <;> omega
  segments_le := by simp only [new]; split <;> omega
  current_nonneg := le_refl 0
  current_lt := by simp [new]
  current_eq _ := rfl

theorem Word.addUploadedSegment (hw : b.Word) {aSize : Int} (hsize : 0 ≤ aSize) :
    (b.addUploadedSegment aSize).Word := by
  simp only [UploadBundle.addUploadedSegment]
  split
  case isTrue hfits =>
    have hge := hw.segments_ge
    have hlt := hw.size_lt
    exact
      { size_pos := hw.size_pos, size_lt := hlt
        segments_ge := by simp only; omega
        segments_le := by simp only; omega
        current_nonneg := uint64_nonneg _, current_lt := uint64_lt _
        current_eq := fun h => by simp [hfits.1] at h }
  case isFalse => exact hw

theorem Word.removeUpload (hw : b.Word) {u : BundleUpload} (hpos : 0 ≤ u.pos) :
    (b.removeUpload u).2.Word := by
  simp only [UploadBundle.removeUpload]
  split
  · obtain ⟨h1, h2, h3, h4, h5, h6, h7⟩ := hw.addUploadedSegment hpos
    exact ⟨h1, h2, h3, h4, h5, h6, h7⟩
  · exact hw

theorem Word.addUpload (hw : b.Word) (u : BundleUpload) : (b.addUpload u).Word := by
  obtain ⟨h1, h2, h3, h4, h5, h6, h7⟩ := hw
  exact ⟨h1, h2, h3, h4, h5, h6, h7⟩

theorem Word.setSingleUser (hw : b.Word) (aSingleUser : Bool) {aUploadedSegments : Int}
    (hge : -2 ^ 63 ≤ aUploadedSegments) : (b.setSingleUser aSingleUser aUploadedSegments).Word := by
  obtain ⟨hpos, hlt, hsge, hsle, hcge, hclt, -⟩ := hw
  cases aSingleUser with
  | true =>
    refine ⟨hpos, hlt, ?_, ?_, hcge, hclt, fun h => by simp [UploadBundle.setSingleUser] at h⟩
    · simp only [UploadBundle.setSingleUser, if_true]
      split <;> omega
    · simp only [UploadBundle.setSingleUser, if_true]
      split <;> omega
  | false =>
    exact ⟨hpos, hlt, hsge, hsle, le_refl 0, by simp [UploadBundle.setSingleUser], fun _ => rfl⟩

theorem Word.countSpeed (hw : b.Word) (aUploads : List BundleUpload) :
    (b.countSpeed aUploads).2.Word := by
  simp only [UploadBundle.countSpeed]
  split
  case isTrue =>
    obtain ⟨hpos, hlt, hsge, hsle, hcge, hclt, heq⟩ := hw
    cases hsingle : b.singleUser with
    | true =>
      exact ⟨hpos, hlt, hsge, hsle, uint64_nonneg _, uint64_lt _, fun h => by simp at h⟩
    | false => exact ⟨hpos, hlt, hsge, hsle, hcge, hclt, fun _ => heq hsingle⟩
  case isFalse => exact hw

theorem checkDelaySecond_eq (b : UploadBundle) :
    ∃ delayTime, b.checkDelaySecond.2 = { b with delayTime := delayTime } := by
  simp only [checkDelaySecond]
  split
  · exact ⟨b.delayTime, rfl⟩
  · exact ⟨_, rfl⟩

end UploadBundle

/-! ## The receiver -/

/-- The floating point numbers: the text of a `float` (which may be no number), the speed that a
    text stands for if there is one, and the rounding of the operations on `double`s. It is
    monotone, and numbers of 53 bits are not rounded. -/
structure FloatingPoint where
  toFloat : Str → Option ℚ
  parseSpeed : Str → Option Int
  round : ℚ → ℚ
  mono : Monotone round
  exact_of : ∀ m e : Nat, m ≤ 2 ^ 53 → e < 971 → round (m * 2 ^ e) = m * 2 ^ e

namespace FloatingPoint

/-- `static_cast<int64_t>(size * (percent / 100.00000))` -/
def share (fl : FloatingPoint) (size : Int) (percent : ℚ) : Int :=
  ⌊fl.round (fl.round size * fl.round (percent / 100))⌋

variable (fl : FloatingPoint)

theorem round_zero : fl.round 0 = 0 := by
  simpa using fl.exact_of 0 0 (by norm_num) (by norm_num)

theorem round_nonneg {q : ℚ} (hq : 0 ≤ q) : 0 ≤ fl.round q :=
  fl.round_zero ▸ fl.mono hq

theorem round_ratio {percent : ℚ} (hhi : percent ≤ 100) :
    fl.round (percent / 100) ≤ 1 := by
  have hone : fl.round 1 = 1 := by simpa using fl.exact_of 1 0 (by norm_num) (by norm_num)
  rw [← hone]
  exact fl.mono (by linarith)

theorem share_nonneg {size : Int} {percent : ℚ} (hsize : 0 ≤ size)
    (hlo : 0 ≤ percent) : 0 ≤ fl.share size percent := by
  have hs : 0 ≤ fl.round size := fl.round_nonneg (by exact_mod_cast hsize)
  have hp : 0 ≤ fl.round (percent / 100) := fl.round_nonneg (by positivity)
  exact Int.floor_nonneg.mpr (fl.round_nonneg (mul_nonneg hs hp))

/-- A share is not more than a number that is not rounded. -/
theorem share_le {size top : Int} {percent : ℚ} (hsize : 0 ≤ size)
    (htop : fl.round top = top) (hle : size ≤ top) (hhi : percent ≤ 100) :
    fl.share size percent ≤ top := by
  have hs0 : 0 ≤ fl.round size := fl.round_nonneg (by exact_mod_cast hsize)
  have hs1 : fl.round size ≤ top := by
    rw [← htop]
    exact fl.mono (by exact_mod_cast hle)
  have hproduct : fl.round size * fl.round (percent / 100) ≤ top :=
    (mul_le_of_le_one_right hs0 (fl.round_ratio hhi)).trans hs1
  have hround : fl.round (fl.round size * fl.round (percent / 100)) ≤ top := by
    rw [← htop]
    exact fl.mono (htop ▸ hproduct)
  exact Int.floor_le_iff.mpr (by linarith)

/-- **A percentage of a size that is not rounded is within it.** These are the numbers of at most 53
    bits, and their multiples by powers of two. -/
theorem share_le_size {size : Int} {percent : ℚ} {m e : Nat}
    (heq : size = m * 2 ^ e) (hm : m ≤ 2 ^ 53) (he : e < 971) (hhi : percent ≤ 100) :
    fl.share size percent ≤ size := by
  refine fl.share_le (by rw [heq]; positivity) ?_ (le_refl size) hhi
  rw [heq]
  exact_mod_cast fl.exact_of m e hm he

theorem share_le_top {size : Int} {percent : ℚ} (hsize : 0 ≤ size)
    (hlt : size < 2 ^ 63) (hhi : percent ≤ 100) : fl.share size percent ≤ 2 ^ 63 := by
  have hround : fl.round (2 ^ 63) = 2 ^ 63 := by
    simpa using fl.exact_of 1 63 (by norm_num) (by norm_num)
  have htop : fl.round ((2 ^ 63 : Int) : ℚ) = ((2 ^ 63 : Int) : ℚ) := by
    norm_num at hround ⊢
    exact hround
  exact fl.share_le hsize htop hlt.le hhi

end FloatingPoint

/-- The bundles by their tokens. -/
abbrev UploadBundles := Str → Option UploadBundle

namespace UploadBundleInfoReceiver

open UploadBundleInfo (lastParam)

/-- What the commands say of a number, zero if they do not. -/
def numberParam (name : Str) (parameters : List Str) : Int :=
  ((lastParam name parameters).map Util.toInt64).getD 0

/-- `createBundle`. `added` is what the connection manager answers about the token. A command for a
    bundle that exists only adds a connection. -/
def createBundle (bundles : UploadBundles) (parameters : List Str) (added : Bool) : UploadBundles :=
  let bundleToken := (lastParam (str "BU") parameters).getD []
  let name := (lastParam (str "NA") parameters).getD []
  let token := (lastParam (str "TO") parameters).getD []
  let size := numberParam (str "SI") parameters
  let downloaded := numberParam (str "DL") parameters
  let singleUser := (lastParam (str "SU") parameters).isSome
  if bundleToken = [] ∨ name = [] ∨ size ≤ 0 ∨ token = [] then bundles
  else
    match bundles bundleToken with
    | some _ => bundles
    | none =>
      if added then
        Function.update bundles bundleToken (some (.new size singleUser downloaded))
      else bundles

/-- What an update does to the bundle. -/
def updateBundle (parameters : List Str) (b : UploadBundle) : UploadBundle :=
  let size := numberParam (str "SI") parameters
  if (lastParam (str "MU") parameters).isSome then b.setSingleUser false 0
  else if (lastParam (str "SU") parameters).isSome then
    b.setSingleUser true (numberParam (str "DL") parameters)
  else if 0 < size then { b with size := size }
  else b

/-- Change the bundle that a command is for. -/
def modify (bundles : UploadBundles) (bundleToken : Str) (f : UploadBundle → UploadBundle) :
    UploadBundles :=
  match bundles bundleToken with
  | some b => Function.update bundles bundleToken (some (f b))
  | none => bundles

def updateBundleInfo (bundles : UploadBundles) (parameters : List Str) : UploadBundles :=
  let bundleToken := (lastParam (str "BU") parameters).getD []
  if bundleToken = [] then bundles else modify bundles bundleToken (updateBundle parameters)

/-- The percentage of a command. -/
def percentParam (fl : FloatingPoint) (parameters : List Str) : Option ℚ :=
  match lastParam (str "PE") parameters with
  | some s => fl.toFloat s
  | none => some (-1)

/-- What a progress command does to the bundle. -/
def notifyBundle (fl : FloatingPoint) (parameters : List Str) (b : UploadBundle) : UploadBundle :=
  if b.singleUser then b  -- ignored
  else
    let totalSpeed := (fl.parseSpeed ((lastParam (str "DS") parameters).getD [])).getD b.totalSpeed
    let uploadedSegments :=
      match percentParam fl parameters with
      | some percent =>
        if 0 ≤ percent ∧ percent ≤ 100 then fl.share b.size percent else b.uploadedSegments
      | none => b.uploadedSegments
    { b with totalSpeed := totalSpeed, uploadedSegments := uploadedSegments }

def onUBN (fl : FloatingPoint) (bundles : UploadBundles) (parameters : List Str) : UploadBundles :=
  let bundleToken := (lastParam (str "BU") parameters).getD []
  let speedStr := (lastParam (str "DS") parameters).getD []
  if ((percentParam fl parameters).any (· < 0) ∧ speedStr = []) ∨ bundleToken = [] then bundles
  else modify bundles bundleToken (notifyBundle fl parameters)

/-- `removeIdleBundles` -/
def removeIdleBundles (bundles : UploadBundles) : UploadBundles := fun bundleToken =>
  (bundles bundleToken).bind fun b =>
    if b.checkDelaySecond.1 then none else some b.checkDelaySecond.2

/-! ## Runs -/

/-- What happens to the bundles: the commands, connections that are added to a bundle or removed
    from it, and the two parts of what is done every second. -/
inductive Op
  | create (parameters : List Str) (added : Bool)
  | update (parameters : List Str)
  | ubn (parameters : List Str)
  | addUpload (bundleToken : Str) (u : BundleUpload)
  | removeUpload (bundleToken : Str) (u : BundleUpload)
  | countSpeed (bundleToken : Str) (aUploads : List BundleUpload)
  | removeIdle

variable (fl : FloatingPoint)

def next (bundles : UploadBundles) : Op → UploadBundles
  | .create parameters added => createBundle bundles parameters added
  | .update parameters => updateBundleInfo bundles parameters
  | .ubn parameters => onUBN fl bundles parameters
  | .addUpload bundleToken u => modify bundles bundleToken fun b => b.addUpload u
  | .removeUpload bundleToken u => modify bundles bundleToken fun b => (b.removeUpload u).2
  | .countSpeed bundleToken aUploads => modify bundles bundleToken fun b =>
    (b.countSpeed aUploads).2
  | .removeIdle => removeIdleBundles bundles

/-- Positions are not negative. -/
def allowed (_ : UploadBundles) : Op → Prop
  | .removeUpload _ u => 0 ≤ u.pos
  | .countSpeed _ aUploads => ∀ u ∈ aUploads, 0 ≤ u.pos
  | _ => True

def system : Lib.System UploadBundles Op := ⟨next fl, allowed⟩

/-- No bundles yet. -/
def Fresh (bundles : UploadBundles) : Prop := ∀ bundleToken, bundles bundleToken = none

/-! ## Steps and bounds -/

variable {fl} {bundles : UploadBundles} {b : UploadBundle}

theorem toInt64_ge (s : Str) : -2 ^ 63 ≤ Util.toInt64 s := by
  simp only [Util.toInt64]
  split <;> omega

theorem toInt64_lt (s : Str) : Util.toInt64 s < 2 ^ 63 := by
  simp only [Util.toInt64]
  split <;> omega

theorem numberParam_ge (name : Str) (parameters : List Str) :
    -2 ^ 63 ≤ numberParam name parameters := by
  simp only [numberParam]
  cases lastParam name parameters with
  | none => simp
  | some s => exact toInt64_ge s

theorem numberParam_lt (name : Str) (parameters : List Str) :
    numberParam name parameters < 2 ^ 63 := by
  simp only [numberParam]
  cases lastParam name parameters with
  | none => simp
  | some s => exact toInt64_lt s

/-! ### One bundle -/

/-- When an update keeps a bundle within its bounds. -/
def UpdateMeets (parameters : List Str) (b : UploadBundle) : Prop :=
  if (lastParam (str "MU") parameters).isSome then 0 ≤ b.uploadedSegments ∧
    b.uploadedSegments ≤ b.size
  else if (lastParam (str "SU") parameters).isSome then
    numberParam (str "DL") parameters ≤ b.size →
      uint64 (b.currentUploaded + numberParam (str "DL") parameters) ≤ b.size
  else
    0 < numberParam (str "SI") parameters → b.getUploaded ≤ numberParam (str "SI") parameters

/-- When a progress command does. -/
def NotifyMeets (fl : FloatingPoint) (parameters : List Str) (b : UploadBundle) : Prop :=
  b.singleUser = false → ∀ percent ∈ percentParam fl parameters, 0 ≤ percent → percent ≤ 100 →
    fl.share b.size percent ≤ b.size

/-- When the counting of the speeds does. -/
def CountMeets (aUploads : List BundleUpload) (b : UploadBundle) : Prop :=
  b.singleUser = true → 0 < (UploadBundle.sums aUploads).1 →
    uint64 ((UploadBundle.sums aUploads).2 + b.uploadedSegments) ≤ b.size

theorem updateBundle_word (hw : b.Word) (parameters : List Str) :
    (updateBundle parameters b).Word := by
  simp only [updateBundle]
  split
  case isTrue => exact hw.setSingleUser false (by norm_num)
  case isFalse =>
    split
    case isTrue => exact hw.setSingleUser true (numberParam_ge _ _)
    case isFalse =>
      split
      case isTrue hpos =>
        obtain ⟨-, -, h3, h4, h5, h6, h7⟩ := hw
        exact ⟨hpos, numberParam_lt _ _, h3, h4, h5, h6, h7⟩
      case isFalse => exact hw

theorem updateBundle_le_iff (hw : b.Word) (h : b.getUploaded ≤ b.size) (parameters : List Str) :
    (updateBundle parameters b).getUploaded ≤ (updateBundle parameters b).size ↔
      UpdateMeets parameters b := by
  simp only [updateBundle, UpdateMeets]
  split
  case isTrue =>
    have hge := hw.segments_ge
    have hle := hw.segments_le
    simpa [UploadBundle.setSingleUser, UploadBundle.getUploaded] using
      uint64_le_iff hge (by omega) hw.size_lt
  case isFalse =>
    split
    case isTrue =>
      simp only [UploadBundle.setSingleUser, UploadBundle.getUploaded, if_true]
      split
      case isTrue hfits => simp [hfits]
      case isFalse hfits => simpa [hfits, UploadBundle.getUploaded] using h
    case isFalse =>
      split
      case isTrue hpos => simp [hpos, UploadBundle.getUploaded]
      case isFalse hpos => simpa [hpos] using h

theorem notifyBundle_word (hw : b.Word) (parameters : List Str) :
    (notifyBundle fl parameters b).Word := by
  simp only [notifyBundle]
  split
  case isTrue => exact hw
  case isFalse =>
    obtain ⟨hpos, hlt, hsge, hsle, hcge, hclt, heq⟩ := hw
    refine ⟨hpos, hlt, ?_, ?_, hcge, hclt, heq⟩
    · simp only
      split
      · split
        case isTrue hp =>
          have := fl.share_nonneg hpos.le hp.1
          omega
        case isFalse => exact hsge
      · exact hsge
    · simp only
      split
      · split
        case isTrue hp => exact fl.share_le_top hpos.le hlt hp.2
        case isFalse => exact hsle
      · exact hsle

theorem notifyBundle_le_iff (hw : b.Word) (h : b.getUploaded ≤ b.size) (parameters : List Str) :
    (notifyBundle fl parameters b).getUploaded ≤ (notifyBundle fl parameters b).size ↔
      NotifyMeets fl parameters b := by
  simp only [notifyBundle, NotifyMeets]
  split
  case isTrue hsingle => simpa [hsingle] using h
  case isFalse hsingle =>
    have hsingle : b.singleUser = false := by simpa using hsingle
    have hcurrent := hw.current_eq hsingle
    cases hpercent : percentParam fl parameters with
    | none => simpa [UploadBundle.getUploaded] using h
    | some percent =>
      by_cases hp : 0 ≤ percent ∧ percent ≤ 100
      case pos =>
        have hnonneg := fl.share_nonneg hw.size_pos.le hp.1
        have hle := fl.share_le_top hw.size_pos.le hw.size_lt hp.2
        have hiff := uint64_le_iff (x := fl.share b.size percent) (by omega) (by omega) hw.size_lt
        simp [UploadBundle.getUploaded, hcurrent, hp, hsingle, hiff, hnonneg]
      case neg =>
        have hvacuous : ¬ (0 ≤ percent ∧ percent ≤ 100) := hp
        simp only [if_neg hp, hsingle, Option.mem_some_iff, forall_eq', forall_const]
        constructor
        · intro _ hlo hhi
          exact absurd ⟨hlo, hhi⟩ hp
        · intro _
          exact h

theorem countSpeed_le_iff (h : b.getUploaded ≤ b.size) (aUploads : List BundleUpload) :
    (b.countSpeed aUploads).2.getUploaded ≤ (b.countSpeed aUploads).2.size ↔
    CountMeets aUploads b := by
  simp only [UploadBundle.countSpeed, CountMeets]
  split
  case isTrue hpos =>
    cases hsingle : b.singleUser with
    | true => simp [UploadBundle.getUploaded, hpos]
    | false => simpa [UploadBundle.getUploaded] using h
  case isFalse hpos => simpa [hpos] using h

/-! ### All of them -/

/-- Every bundle has the property. -/
def Each (P : UploadBundle → Prop) (bundles : UploadBundles) : Prop :=
  ∀ bundleToken b, bundles bundleToken = some b → P b

theorem each_update {P : UploadBundle → Prop} (h : Each P bundles) (bundleToken : Str) :
    Each P (Function.update bundles bundleToken (some b)) ↔ P b := by
  constructor
  · intro hall
    exact hall bundleToken b (Function.update_self _ _ _)
  · intro hb token c hc
    by_cases htoken : token = bundleToken
    · rw [htoken, Function.update_self, Option.some.injEq] at hc
      exact hc ▸ hb
    · rw [Function.update_of_ne htoken] at hc
      exact h token c hc

theorem each_modify {P : UploadBundle → Prop} (h : Each P bundles) (bundleToken : Str)
    (f : UploadBundle → UploadBundle) :
    Each P (modify bundles bundleToken f) ↔ ∀ b, bundles bundleToken = some b → P (f b) := by
  simp only [modify]
  cases hfind : bundles bundleToken with
  | none => simpa using h
  | some b => simpa using each_update h bundleToken

/-- A command creates a bundle. -/
def Creates (bundles : UploadBundles) (parameters : List Str) (added : Bool) : Prop :=
  ¬((lastParam (str "BU") parameters).getD [] = [] ∨
    (lastParam (str "NA") parameters).getD [] = [] ∨
      numberParam (str "SI") parameters ≤ 0 ∨ (lastParam (str "TO") parameters).getD [] = []) ∧
    bundles ((lastParam (str "BU") parameters).getD []) = none ∧ added = true

theorem each_createBundle {P : UploadBundle → Prop} (h : Each P bundles) (parameters : List Str)
    (added : Bool) :
    Each P (createBundle bundles parameters added) ↔
      (Creates bundles parameters added →
        P (.new (numberParam (str "SI") parameters) (lastParam (str "SU") parameters).isSome
          (numberParam (str "DL") parameters))) := by
  simp only [createBundle, Creates]
  split
  case isTrue hinvalid => simpa [hinvalid] using h
  case isFalse hvalid =>
    cases hfind : bundles ((lastParam (str "BU") parameters).getD []) with
    | some b => simpa using h
    | none =>
      cases added with
      | false => simpa using h
      | true => simpa [hvalid] using each_update h _

/-- **When a step keeps the bundles within their bounds.** A bundle is created with a number that is
    not negative. Leaving the single user mode, the finished segments are within the size, and
    entering it they are with what is being uploaded. A size is not set that is less than what has
    been uploaded. A percentage is not rounded above the size. The positions of the running uploads
    are within the size together with the finished segments. -/
def Meets (fl : FloatingPoint) (bundles : UploadBundles) : Op → Prop
  | .create parameters added =>
    Creates bundles parameters added → 0 ≤ numberParam (str "DL") parameters
  | .update parameters =>
    ∀ b, (lastParam (str "BU") parameters).getD [] ≠ [] →
      bundles ((lastParam (str "BU") parameters).getD []) = some b → UpdateMeets parameters b
  | .ubn parameters =>
    ∀ b, (lastParam (str "BU") parameters).getD [] ≠ [] →
      bundles ((lastParam (str "BU") parameters).getD []) = some b → NotifyMeets fl parameters b
  | .countSpeed bundleToken aUploads => ∀ b, bundles bundleToken = some b → CountMeets aUploads b
  | .addUpload _ _ => True
  | .removeUpload _ _ => True
  | .removeIdle => True

theorem new_le_iff {aSize aUploaded : Int} (aSingleUser : Bool) (hpos : 0 < aSize)
    (hlt : aSize < 2 ^ 63)
    (hge : -2 ^ 63 ≤ aUploaded) :
    (UploadBundle.new aSize aSingleUser aUploaded).getUploaded ≤
        (UploadBundle.new aSize aSingleUser aUploaded).size ↔ 0 ≤ aUploaded := by
  simp only [UploadBundle.getUploaded, UploadBundle.new, zero_add]
  rw [uint64_le_iff (by split <;> omega) (by split <;> omega) hlt]
  split <;> omega

/-- The ranges are kept by every step. -/
theorem next_word {o : Op} (h : Each UploadBundle.Word bundles) (hallowed : allowed bundles o) :
    Each UploadBundle.Word (next fl bundles o) := by
  cases o with
  | create parameters added =>
    refine (each_createBundle h parameters added).mpr fun hcreates => ?_
    have hpos : 0 < numberParam (str "SI") parameters := by
      by_contra hle
      exact hcreates.1 (Or.inr (Or.inr (Or.inl (not_lt.mp hle))))
    exact UploadBundle.new_word _ hpos (numberParam_lt _ _) (numberParam_ge _ _)
  | update parameters =>
    simp only [next, updateBundleInfo]
    split
    · exact h
    · exact (each_modify h _ _).mpr fun b hb => updateBundle_word (h _ b hb) parameters
  | ubn parameters =>
    simp only [next, onUBN]
    split
    · exact h
    · exact (each_modify h _ _).mpr fun b hb => notifyBundle_word (h _ b hb) parameters
  | addUpload bundleToken u =>
    exact (each_modify h _ _).mpr fun b hb => (h _ b hb).addUpload u
  | removeUpload bundleToken u =>
    exact (each_modify h _ _).mpr fun b hb => (h _ b hb).removeUpload hallowed
  | countSpeed bundleToken aUploads =>
    exact (each_modify h _ _).mpr fun b hb => (h _ b hb).countSpeed aUploads
  | removeIdle =>
    intro bundleToken b hb
    simp only [next, removeIdleBundles, Option.bind_eq_some_iff] at hb
    obtain ⟨c, hc, hb⟩ := hb
    obtain ⟨delayTime, heq⟩ := c.checkDelaySecond_eq
    split at hb
    · simp at hb
    · obtain ⟨h1, h2, h3, h4, h5, h6, h7⟩ := h bundleToken c hc
      rw [heq, Option.some.injEq] at hb
      exact hb ▸ ⟨h1, h2, h3, h4, h5, h6, h7⟩

/-- What has been uploaded is not more than the size. -/
def Uploaded (b : UploadBundle) : Prop := b.getUploaded ≤ b.size

/-- Exactly the steps that meet the condition keep the sums within the sizes. -/
theorem next_uploaded_iff {o : Op} (hw : Each UploadBundle.Word bundles)
    (h : Each Uploaded bundles) :
    Each Uploaded (next fl bundles o) ↔ Meets fl bundles o := by
  cases o with
  | create parameters added =>
    refine (each_createBundle h parameters added).trans (forall_congr' fun hcreates => ?_)
    have hpos : 0 < numberParam (str "SI") parameters := by
      by_contra hle
      exact hcreates.1 (Or.inr (Or.inr (Or.inl (not_lt.mp hle))))
    exact new_le_iff _ hpos (numberParam_lt _ _) (numberParam_ge _ _)
  | update parameters =>
    simp only [next, updateBundleInfo, Meets]
    split
    case isTrue hempty => simpa [hempty] using h
    case isFalse htoken =>
      refine (each_modify h _ _).trans (forall_congr' fun b => ?_)
      simp only [ne_eq, htoken, not_false_eq_true, forall_const]
      exact forall_congr' fun hb => updateBundle_le_iff (hw _ b hb) (h _ b hb) parameters
  | ubn parameters =>
    simp only [next, onUBN, Meets]
    split
    case isTrue hearly =>
      refine iff_of_true h ?_
      intro b htoken hb hsingle percent hpercent hlo
      rcases hearly with hearly | hempty
      · have hneg : percent < 0 := by
          simpa [Option.mem_def.mp hpercent] using hearly.1
        exact absurd hlo (not_le.mpr hneg)
      · exact absurd hempty htoken
    case isFalse hlate =>
      have htoken : (lastParam (str "BU") parameters).getD [] ≠ [] := fun hempty =>
        hlate (Or.inr hempty)
      refine (each_modify h _ _).trans (forall_congr' fun b => ?_)
      simp only [htoken, ne_eq, not_false_eq_true, forall_const]
      exact forall_congr' fun hb => notifyBundle_le_iff (hw _ b hb) (h _ b hb) parameters
  | addUpload bundleToken u =>
    exact iff_of_true ((each_modify h _ _).mpr fun b hb => h _ b hb) trivial
  | removeUpload bundleToken u =>
    refine iff_of_true ((each_modify h _ _).mpr fun b hb => ?_) trivial
    rw [Uploaded, UploadBundle.getUploaded_removeUpload, UploadBundle.size_removeUpload]
    exact h _ b hb
  | countSpeed bundleToken aUploads =>
    refine (each_modify h _ _).trans (forall_congr' fun b => forall_congr' fun hb => ?_)
    exact countSpeed_le_iff (h _ b hb) aUploads
  | removeIdle =>
    refine iff_of_true ?_ trivial
    intro bundleToken b hb
    simp only [next, removeIdleBundles, Option.bind_eq_some_iff] at hb
    obtain ⟨c, hc, hb⟩ := hb
    obtain ⟨delayTime, heq⟩ := c.checkDelaySecond_eq
    split at hb
    · simp at hb
    · rw [heq, Option.some.injEq] at hb
      exact hb ▸ h bundleToken c hc

/-! ### Runs -/

theorem reaches_word (h : Lib.Reaches (system fl) Fresh bundles) :
    Each UploadBundle.Word bundles := by
  refine h.invariant ?_ ?_
  · intro start hfresh bundleToken b hb
    simp [hfresh bundleToken] at hb
  · intro bundles o hw hallowed
    exact next_word hw hallowed

theorem each_withinBounds_iff (hw : Each UploadBundle.Word bundles) :
    Each UploadBundle.WithinBounds bundles ↔ Each Uploaded bundles :=
  forall_congr' fun bundleToken => forall_congr' fun b => forall_congr' fun hb =>
    UploadBundle.withinBounds_iff (hw bundleToken b hb)

/-- Whole numbers, which are not rounded. -/
def wholeNumbers : FloatingPoint where
  toFloat s := some (Util.toInt64 s)
  parseSpeed _ := none
  round := id
  mono := monotone_id
  exact_of _ _ _ _ := rfl

/-- A bundle of 100 bytes is created, of which 40 are there. Of two uploads one is at 20 and ends
    there, and the other one is at 30. -/
def twoUploads : List Op :=
  [.create [str "BUb", str "TOt", str "SI100", str "NAn", str "SU1", str "DL40"] true,
    .addUpload (str "b") ⟨1, 1, 20, 5⟩, .addUpload (str "b") ⟨2, 1, 30, 5⟩,
    .countSpeed (str "b") [⟨1, 1, 20, 5⟩, ⟨2, 1, 30, 5⟩], .removeUpload (str "b") ⟨1, 1, 20, 5⟩]

/-- A bundle of 100 bytes, 90 of which are there, is then told to have 50. -/
def loweredSize : List Op :=
  [.create [str "BUb", str "TOt", str "SI100", str "NAn", str "SU1", str "DL90"] true,
    .update [str "BUb", str "SI50"]]

end UploadBundleInfoReceiver
end Airdcpp
