import Airdcpp.Lib.Threads
import Airdcpp.Transfer.UBNBundle

/-!
# `Transfer/UploadBundleInfoSender` — which connection is reported to which info object

The handlers run on the socket threads of the connections. Each of the sections below is one
acquisition of the lock: an info object is looked up under one, created and registered under a
second one, and the connection is inserted under a third. The removal looks the object up and
removes the connection under two.

The code passes pointers to info objects; here an object has an address. What the objects ask of
their bundles comes in with a section.
-/

namespace Airdcpp

structure UploadBundleInfoSender where
  bundleTokenMap : QueueToken → Option Nat := fun _ => none
  connectionTokenMap : Str → Option Nat := fun _ => none
  /-- The info objects by their addresses -/
  infos : Nat → UBNBundle := fun _ => { bundle := 0 }
  nextAddress : Nat := 0
  /-- The commands handed to `sendUpdate`, in order -/
  sent : List UBNMessage := []

namespace UploadBundleInfoSender

/-- Where a thread is: the section that it runs next. -/
inductive Call
  | starting (aConnection : UBNConnection) (bundle : Option QueueToken)
  | register (aConnection : UBNConnection) (bundle : QueueToken)
  | insert (aConnection : UBNConnection) (bundle : QueueToken) (ubnBundle : Nat)
  | idle (aSource : UBNConnection)
  | remove (aConnection : UBNConnection)
  | failed (aConnection : UBNConnection) (bundle : Option QueueToken)
  | removeRunning (aSource : UBNConnection) (ubnBundle : Nat) (aSendRemove : Bool)
deriving DecidableEq

/-- The bundles, by their tokens, while a section runs. -/
abbrev Bundles := QueueToken → UBNProgress

def addRunningUserUnsafe (s : UploadBundleInfoSender) (x : Bundles) (aBundle : Nat)
    (aSource : UBNConnection) : UploadBundleInfoSender :=
  let added := (s.infos aBundle).addRunningUser (x (s.infos aBundle).bundle) aSource
  { s with
    infos := Function.update s.infos aBundle added.1
    sent := s.sent ++ added.2
    connectionTokenMap := Function.update s.connectionTokenMap aSource.connectToken (some aBundle) }

def removeRunningUserUnsafe (s : UploadBundleInfoSender) (x : Bundles) (aBundle : Nat)
    (aSource : UBNConnection) (aSendRemove : Bool) : UploadBundleInfoSender :=
  let removed :=
    (s.infos aBundle).removeRunningUser (x (s.infos aBundle).bundle) aSource aSendRemove
  { s with
    infos := Function.update s.infos aBundle removed.1
    sent := s.sent ++ removed.2.1
    bundleTokenMap :=
      if removed.2.2 then Function.update s.bundleTokenMap (s.infos aBundle).bundle none
      else s.bundleTokenMap }

def eraseConnection (s : UploadBundleInfoSender) (token : Str) : UploadBundleInfoSender :=
  { s with connectionTokenMap := Function.update s.connectionTokenMap token none }

/-- `make_shared<UBNBundle>`, and `bundleTokenMap[bundle->getToken()] = ubnBundle` -/
def registerInfo (s : UploadBundleInfoSender) (bundle : QueueToken) : UploadBundleInfoSender :=
  { s with
    infos := Function.update s.infos s.nextAddress { bundle }
    bundleTokenMap := Function.update s.bundleTokenMap bundle (some s.nextAddress)
    nextAddress := s.nextAddress + 1 }

/-- The first section of `removeRunningUser`: `findInfoByConnectionToken`. -/
def findRunning (s : UploadBundleInfoSender) (aSource : UBNConnection) :
    UploadBundleInfoSender × Option Call :=
  if !aSource.supportsUBN then (s, none)
  else
    match s.connectionTokenMap aSource.connectToken with
    | none => (s, none)
    | some ubnBundle => (s, some (.removeRunning aSource ubnBundle false))

def next (s : UploadBundleInfoSender) : Call → Bundles → UploadBundleInfoSender × Option Call
  | .starting aConnection none, x =>
    if !aConnection.supportsUBN then (s, none)
    else
      -- Existing bundle connection being used for non-bundle files (or filelists)?
      match s.connectionTokenMap aConnection.connectToken with
      | none => (s, none)
      | some i =>
        ((s.removeRunningUserUnsafe x i aConnection true).eraseConnection aConnection.connectToken,
          none)
  | .starting aConnection (some bundle), _ =>
    if !aConnection.supportsUBN then (s, none)
    else
      match s.bundleTokenMap bundle with
      | none => (s, some (.register aConnection bundle))
      | some ubnBundle => (s, some (.insert aConnection bundle ubnBundle))
  | .register aConnection bundle, _ =>
    (s.registerInfo bundle, some (.insert aConnection bundle s.nextAddress))
  | .insert aConnection _ ubnBundle, x =>
    match s.connectionTokenMap aConnection.connectToken with
    | none => (s.addRunningUserUnsafe x ubnBundle aConnection, none)
    | some i =>
      -- Existing bundle connection being moved to an existing bundle?
      if i = ubnBundle then (s, none)
      else
        ((s.removeRunningUserUnsafe x i aConnection false).addRunningUserUnsafe x ubnBundle
          aConnection, none)
  | .idle aSource, _ => s.findRunning aSource
  | .remove aConnection, _ => s.findRunning aConnection
  | .failed _ none, _ => (s, none)
  | .failed aConnection (some _), _ => s.findRunning aConnection
  | .removeRunning aSource ubnBundle aSendRemove, x =>
    ((s.removeRunningUserUnsafe x ubnBundle aSource aSendRemove).eraseConnection
      aSource.connectToken, none)

def Call.isEntry : Call → Bool
  | .register _ _ | .insert _ _ _ | .removeRunning _ _ _ => false
  | _ => true

def Call.connection : Call → UBNConnection
  | .starting c _ | .register c _ | .insert c _ _ | .idle c | .remove c | .failed c _
  | .removeRunning c _ _ => c

/-- `getUser` is the user of the connection that has a token: each connection has its own. -/
def sections (getUser : Str → UserPtr) : Lib.Sections UploadBundleInfoSender Call Bundles where
  enters _ t := t.isEntry = true ∧ t.connection.user = getUser t.connection.connectToken
  accepts _ _ _ := True
  next := next

instance (getUser : Str → UserPtr) (s : UploadBundleInfoSender) (t : Call) :
    Decidable ((sections getUser).enters s t) :=
  inferInstanceAs (Decidable (_ ∧ _))

instance (getUser : Str → UserPtr) (s : UploadBundleInfoSender) (t : Call) (x : Bundles) :
    Decidable ((sections getUser).accepts s t x) :=
  inferInstanceAs (Decidable True)

def Initial (s : Lib.Threads UploadBundleInfoSender Call) : Prop := s = ⟨{}, []⟩

end UploadBundleInfoSender
end Airdcpp
