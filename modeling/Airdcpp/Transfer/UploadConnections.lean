import Airdcpp.Transfer.UploadBundle

/-!
# `Transfer/UploadConnections` — the bundles of the uploads

The receiver keeps the bundles that it was told of by their tokens, and for each connection the
bundle that its uploads belong to. A bundle knows its uploads by their tokens. A command for a
connection with an upload does not change the bundles at once: it leaves a callback to the thread of
the connection, which does nothing if the upload is gone by then. The callbacks run in any order.

A bundle is an object that is shared by the two maps and by the callbacks, and is known by its
address here. It is destroyed, and its token released, when nothing refers to it.

A connection that has an upload is moved to another bundle by a callback that removes the upload
from the *new* bundle, so that the old one keeps it. `Meets` excludes this, and the removal of an
idle bundle that a callback still refers to; then each upload is where its connection belongs
(`uploads_tracked`).
-/

namespace Airdcpp
namespace UploadConnections

open UploadBundleInfo (lastParam)
open UploadBundleInfoReceiver (numberParam updateBundle)

/-- A call of `callAsync`: what is done with the upload, and the bundle that it is done to. -/
inductive Callback
  | add (upload : Nat) (bundle : Nat)
  | remove (upload : Nat) (bundle : Nat)
deriving DecidableEq

namespace Callback

def upload : Callback → Nat
  | add upload _ => upload
  | remove upload _ => upload

def bundle : Callback → Nat
  | add _ bundle => bundle
  | remove _ bundle => bundle

end Callback

structure Receiver where
  /-- The bundles and their tokens, by address -/
  objects : Nat → UploadBundle := fun _ => .new 0 false 0
  tokens : Nat → Str := fun _ => []
  nextAddress : Nat := 0
  bundles : Str → Option Nat := fun _ => none
  connections : Str → Option Nat := fun _ => none
  /-- The uploads there are, with the tokens of their connections -/
  uploads : List (Nat × Str) := []
  nextUpload : Nat := 0
  callbacks : List Callback := []

namespace Receiver

variable (s : Receiver)

/-- `findUserConnection` and `getUpload` -/
def findUpload (aToken : Str) : Option Nat :=
  (s.uploads.find? fun u => u.2 = aToken).map Prod.fst

/-- Whether a bundle is in `bundles`. -/
def Registered (p : Nat) : Prop := s.bundles (s.tokens p) = some p

instance (p : Nat) : Decidable (s.Registered p) := inferInstanceAs (Decidable (_ = _))

/-- `callAsync`, for an upload that has been found. -/
def callAsync (c : Callback) : Receiver := { s with callbacks := s.callbacks ++ [c] }

def handleRemoveBundleConnection (aUploadToken : Str) (aBundle : Nat) : Receiver :=
  match s.findUpload aUploadToken with
  | some u => s.callAsync (.remove u aBundle)
  | none => s

/-- The beginning of `handleAddBundleConnection`. The upload is removed from the new bundle. -/
def removePrevious (aConnectionToken : Str) (aBundle : Nat) : Receiver :=
  match s.connections aConnectionToken with
  | some oldBundle =>
    if oldBundle ≠ aBundle then s.handleRemoveBundleConnection aConnectionToken aBundle else s
  | none => s

def handleAddBundleConnection (aConnectionToken : Str) (aBundle : Nat) : Receiver :=
  let s := s.removePrevious aConnectionToken aBundle
  match s.findUpload aConnectionToken with
  | some u => s.callAsync (.add u aBundle)
  | none =>
    { s with connections := Function.update s.connections aConnectionToken (some aBundle) }

def addBundleConnectionUnsafe (aUpload : BundleUpload) (connectionToken : Str) (aBundle : Nat) :
    Receiver :=
  { s with
    objects := Function.update s.objects aBundle ((s.objects aBundle).addUpload aUpload)
    connections := Function.update s.connections connectionToken (some aBundle) }

def removeBundleConnectionUnsafe (aUpload : BundleUpload) (aBundle : Nat) : Receiver :=
  { s with
    objects := Function.update s.objects aBundle ((s.objects aBundle).removeUpload aUpload).2 }

/-! ## Commands -/

def changeBundle (parameters : List Str) : Receiver :=
  let bundleToken := (lastParam (str "BU") parameters).getD []
  let token := (lastParam (str "TO") parameters).getD []
  if bundleToken = [] ∨ token = [] then s
  else
    match s.bundles bundleToken with
    | some b => s.handleAddBundleConnection token b
    | none => s

/-- The new bundle of `createBundle`. -/
def emplaceBundle (bundleToken : Str) (b : UploadBundle) : Receiver :=
  { s with
    objects := Function.update s.objects s.nextAddress b
    tokens := Function.update s.tokens s.nextAddress bundleToken
    nextAddress := s.nextAddress + 1
    bundles := Function.update s.bundles bundleToken (some s.nextAddress) }

/-- `added` is what `addToken` answers. -/
def createBundle (parameters : List Str) (added : Bool) : Receiver :=
  let bundleToken := (lastParam (str "BU") parameters).getD []
  let name := (lastParam (str "NA") parameters).getD []
  let token := (lastParam (str "TO") parameters).getD []
  let size := numberParam (str "SI") parameters
  let downloaded := numberParam (str "DL") parameters
  let singleUser := (lastParam (str "SU") parameters).isSome
  if bundleToken = [] ∨ name = [] ∨ size ≤ 0 ∨ token = [] then s
  else
    match s.bundles bundleToken with
    | some _ => s.changeBundle parameters
    | none =>
      if !added then s
      else
        (s.emplaceBundle bundleToken (.new size singleUser downloaded)).handleAddBundleConnection
          token s.nextAddress

def updateBundleInfo (parameters : List Str) : Receiver :=
  let bundleToken := (lastParam (str "BU") parameters).getD []
  if bundleToken = [] then s
  else
    match s.bundles bundleToken with
    | some b =>
      { s with objects := Function.update s.objects b (updateBundle parameters (s.objects b)) }
    | none => s

def removeBundleConnection (parameters : List Str) : Receiver :=
  let token := (lastParam (str "TO") parameters).getD []
  if token = [] then s
  else
    match s.connections token with
    | some b => s.handleRemoveBundleConnection token b
    | none => s

/-- `onUBD`. Of a bundle that is finished only the listeners are told. -/
def onUBD (cmd : AdcCommand) (added : Bool) : Receiver :=
  if cmd.hasFlag (str "AD") 1 then s.createBundle cmd.parameters added
  else if cmd.hasFlag (str "CH") 1 then s.changeBundle cmd.parameters
  else if cmd.hasFlag (str "UD") 1 then s.updateBundleInfo cmd.parameters
  else if cmd.hasFlag (str "FI") 1 then s
  else if cmd.hasFlag (str "RM") 1 then s.removeBundleConnection cmd.parameters
  else s

/-! ## Uploads and callbacks -/

/-- An upload begins, and `on(Created)`. -/
def created (aUpload : BundleUpload) (connectionToken : Str) : Receiver :=
  let s := { s with
    uploads := (aUpload.token, connectionToken) :: s.uploads
    nextUpload := aUpload.token + 1 }
  match s.connections connectionToken with
  | some ub => s.addBundleConnectionUnsafe aUpload connectionToken ub
  | none => s

/-- An upload is gone, and `on(Removed)`. -/
def removed (aUpload : BundleUpload) : Receiver :=
  match s.uploads.lookup aUpload.token with
  | none => s
  | some connectionToken =>
    let s := { s with uploads := s.uploads.filter fun u => u.1 ≠ aUpload.token }
    match s.connections connectionToken with
    | some ub => s.removeBundleConnectionUnsafe aUpload ub
    | none => s

/-- A callback of `getAsyncWrapper`: nothing is done if the upload is gone. -/
def handler (aUpload : BundleUpload) (c : Callback) : Receiver :=
  match s.uploads.lookup c.upload, c with
  | some connectionToken, .add _ aBundle =>
    s.addBundleConnectionUnsafe aUpload connectionToken aBundle
  | some _, .remove _ aBundle => s.removeBundleConnectionUnsafe aUpload aBundle
  | none, _ => s

def runCallback (i : Nat) (aUpload : BundleUpload) : Receiver :=
  match s.callbacks[i]? with
  | some c => { s with callbacks := s.callbacks.eraseIdx i }.handler aUpload c
  | none => s

/-- A bundle that `removeIdleBundles` removes. -/
def Idle (p : Nat) : Prop := s.Registered p ∧ (s.objects p).checkDelaySecond.1

instance (p : Nat) : Decidable (s.Idle p) := inferInstanceAs (Decidable (_ ∧ _))

def removeIdleBundles : Receiver :=
  { s with
    objects := fun p =>
      if s.Registered p then (s.objects p).checkDelaySecond.2 else s.objects p
    bundles := fun t => (s.bundles t).filter fun p => !s.Idle p
    connections := fun t => (s.connections t).filter fun p => !s.Idle p }

/-! ## Runs -/

/-- Whether an object is still there. -/
def Referenced (p : Nat) : Prop :=
  s.Registered p ∨ (∃ t, s.connections t = some p) ∨ p ∈ s.callbacks.map Callback.bundle

end Receiver

inductive Op
  | onUBD (cmd : AdcCommand) (added : Bool)
  | created (aUpload : BundleUpload) (connectionToken : Str)
  | removed (aUpload : BundleUpload)
  | runCallback (i : Nat) (aUpload : BundleUpload)
  | removeIdleBundles

def next (s : Receiver) : Op → Receiver
  | .onUBD cmd added => s.onUBD cmd added
  | .created aUpload connectionToken => s.created aUpload connectionToken
  | .removed aUpload => s.removed aUpload
  | .runCallback i aUpload => s.runCallback i aUpload
  | .removeIdleBundles => s.removeIdleBundles

/-- When a step can be taken. A token that is still used by a bundle is not added again. An upload
    has a new token, and its connection has no other one. -/
def Possible (s : Receiver) : Op → Prop
  | .onUBD cmd added =>
    added → ∀ p < s.nextAddress, s.Referenced p →
      s.tokens p ≠ (lastParam (str "BU") cmd.parameters).getD []
  | .created aUpload connectionToken =>
    s.nextUpload ≤ aUpload.token ∧ s.findUpload connectionToken = none
  | .removed aUpload => (s.uploads.lookup aUpload.token).isSome
  | .runCallback i aUpload => (s.callbacks[i]?).map Callback.upload = some aUpload.token
  | .removeIdleBundles => True

def system : Lib.System Receiver Op := ⟨next, Possible⟩

instance (s : Receiver) (aUpload : BundleUpload) (connectionToken : Str) :
    Decidable (system.allowed s (.created aUpload connectionToken)) :=
  inferInstanceAs (Decidable (_ ∧ _))

instance (s : Receiver) (aUpload : BundleUpload) :
    Decidable (system.allowed s (.removed aUpload)) :=
  inferInstanceAs (Decidable (_ = true))

instance (s : Receiver) (i : Nat) (aUpload : BundleUpload) :
    Decidable (system.allowed s (.runCallback i aUpload)) :=
  inferInstanceAs (Decidable (_ = _))

/-! ## The condition -/

/-- The connection that a command adds to a bundle, and the bundle. -/
def target (s : Receiver) (cmd : AdcCommand) (added : Bool) : Option (Str × Nat) :=
  let bundleToken := (lastParam (str "BU") cmd.parameters).getD []
  let name := (lastParam (str "NA") cmd.parameters).getD []
  let token := (lastParam (str "TO") cmd.parameters).getD []
  if bundleToken = [] ∨ token = [] then none
  else if cmd.hasFlag (str "AD") 1 then
    if name = [] ∨ numberParam (str "SI") cmd.parameters ≤ 0 then none
    else
      match s.bundles bundleToken with
      | some b => some (token, b)
      | none => if added then some (token, s.nextAddress) else none
  else if cmd.hasFlag (str "CH") 1 then (s.bundles bundleToken).map fun b => (token, b)
  else none

/-- The upload of the connection is in no other bundle, and no callback adds it to another one. -/
def Movable (s : Receiver) (connectionToken : Str) (p : Nat) : Prop :=
  ∀ u, s.findUpload connectionToken = some u →
    (∀ q, s.connections connectionToken = some q → q ≠ p → u ∉ (s.objects q).uploads) ∧
      ∀ q, .add u q ∈ s.callbacks → q = p

/-- **When a step keeps the uploads where they belong.** A connection is added to a bundle only if
    its upload is in no other one and is not going to be, and no bundle is removed that an upload is
    going to be added to. -/
def Meets (s : Receiver) : Op → Prop
  | .onUBD cmd added => ∀ e ∈ target s cmd added, Movable s e.1 e.2
  | .removeIdleBundles =>
    ∀ p, s.Idle p → ∀ u, .add u p ∈ s.callbacks → s.uploads.lookup u = none
  | _ => True

/-- Each upload of a bundle is an upload of a connection that belongs to the bundle, and to no other
    one; the bundles of the connections are in `bundles`. -/
structure Tracked (s : Receiver) : Prop where
  mapped : ∀ p u, u ∈ (s.objects p).uploads → ∃ c, (u, c) ∈ s.uploads ∧ s.connections c = some p
  single : ∀ p q u, u ∈ (s.objects p).uploads → u ∈ (s.objects q).uploads → p = q
  registered : ∀ c p, s.connections c = some p → s.Registered p

end UploadConnections
end Airdcpp
