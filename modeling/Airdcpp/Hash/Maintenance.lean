import Airdcpp.Hash.HashStore
import Airdcpp.Lib.Runs

/-!
# `Hash/Maintenance` — cleaning the hash databases while files are hashed

`optimize` takes a snapshot of each database and goes through the snapshots three times; what it
has found is removed from the live databases at the end of each scan. A hasher puts the tree of a
file and then the file, at any time between these steps.

The snapshots are the entries in the order of the iterator, which nothing depends on. The share
does not change during the maintenance, the queue may.
-/

namespace Airdcpp
namespace HashStore

variable (h : Hasher TTHValue)

/-! ## Scans -/

/-- What an iterator over a snapshot visits. -/
structure DbSnapshot (κ : Type) where
  entries : List (κ × Str)
  nodup : (entries.map Prod.fst).Nodup

/-- The snapshot shows the database. -/
def DbSnapshot.Shows {κ : Type} (snapshot : DbSnapshot κ) (db : Db κ) : Prop :=
  ∀ key value, (key, value) ∈ snapshot.entries ↔ db key = some value

/-- The iteration of `remove_if`: the state of the callback at the end, and the keys that the batch
    deletes. -/
def scan {κ σ : Type} (f : σ → κ → Str → σ × Bool) : List (κ × Str) → σ → σ × List κ
  | [], s => (s, [])
  | (key, value) :: rest, s =>
    let called := f s key value
    let later := scan f rest called.1
    (later.1, if called.2 then key :: later.2 else later.2)

/-- The batch. -/
def deleteAll {κ : Type} [DecidableEq κ] (db : Db κ) (keys : List κ) : Db κ :=
  fun key => if key ∈ keys then none else db key

/-- The first scan: `usedRoots` and `fi`. -/
def keepShared (isRealPathShared : Str → Bool) (s : Finset TTHValue × HashedFile) (path : Str)
    (value : Str) : (Finset TTHValue × HashedFile) × Bool :=
  if isRealPathShared path then
    match loadFileInfo value with
    | none => (s, true)
    | some fi => ((insert fi.root s.1, fi), false)
  else (s, true)

/-- `TigerTree tt` -/
def emptyTree : TigerTree := ⟨0, 1024, [], default⟩

def treeLoads (value : Str) (root : TTHValue) : Bool :=
  match loadTree h value root emptyTree with
  | some (found, _) => found
  | none => false

/-- The second scan: the `usedRoots` that have no tree so far. -/
def keepNeeded (doVerify : Bool) (isFileQueued : TTHValue → Bool) (usedRoots : Finset TTHValue)
    (curRoot : TTHValue) (value : Str) : Finset TTHValue × Bool :=
  if curRoot ∉ usedRoots ∧ !isFileQueued curRoot then (usedRoots, true)
  else if !doVerify || treeLoads h value curRoot then (usedRoots.erase curRoot, false)
  else (usedRoots, true)

/-- The third scan. An entry that cannot be loaded is judged by the one before. -/
def keepComplete (usedRoots : Finset TTHValue) (fi : HashedFile) (_path : Str) (value : Str) :
    HashedFile × Bool :=
  let fi' := (loadFileInfo value).getD fi
  (fi', fi'.root ∈ usedRoots)

/-! ## Hashing and maintenance -/

/-- Where `optimize` is. -/
inductive Phase
  | idle
  | files (doVerify : Bool) (fileSnapshot : DbSnapshot Str)
  | trees (doVerify : Bool) (fileSnapshot : DbSnapshot Str) (hashSnapshot : DbSnapshot TTHValue)
  | used (doVerify : Bool) (fileSnapshot : DbSnapshot Str) (hashSnapshot : DbSnapshot TTHValue)
    (usedRoots : Finset TTHValue) (fi : HashedFile)
  | missing (fileSnapshot : DbSnapshot Str) (usedRoots : Finset TTHValue) (fi : HashedFile)

structure Store where
  fileDb : Db Str
  hashDb : Db TTHValue
  /-- the calls of `addHashedFile` that have put the tree -/
  pending : List (Str × HashedFile)
  phase : Phase
  /-- the paths that have been put since the maintenance began -/
  putFiles : List Str
  /-- the roots that have been put since then, or were pending -/
  putTrees : List TTHValue

inductive Op
  | addTree (tt : TigerTree) (path : Str) (fi : HashedFile)
  | addFile (path : Str) (fi : HashedFile)
  | takeFileSnapshot (doVerify : Bool) (fileSnapshot : DbSnapshot Str)
  | takeHashSnapshot (hashSnapshot : DbSnapshot TTHValue)
  | removeUnshared
  | removeUnused (isFileQueued : TTHValue → Bool)
  | removeMissing

def Store.next (isRealPathShared : Str → Bool) (s : Store) : Op → Store
  | .addTree tt path fi =>
    { s with
      hashDb := HashStore.addTree s.hashDb tt
      pending := (path, fi) :: s.pending
      putTrees := tt.root :: s.putTrees }
  | .addFile path fi =>
    { s with
      fileDb := put s.fileDb path (saveFileInfo fi)
      pending := s.pending.erase (path, fi)
      putFiles := path :: s.putFiles }
  | .takeFileSnapshot doVerify fileSnapshot =>
    { s with
      phase := .files doVerify fileSnapshot
      putFiles := []
      putTrees := s.pending.map fun p => p.2.root }
  | .takeHashSnapshot hashSnapshot =>
    match s.phase with
    | .files doVerify fileSnapshot =>
      { s with phase := .trees doVerify fileSnapshot hashSnapshot }
    | _ => s
  | .removeUnshared =>
    match s.phase with
    | .trees doVerify fileSnapshot hashSnapshot =>
      let found := scan (keepShared isRealPathShared) fileSnapshot.entries (∅, ⟨default, 0, 0⟩)
      { s with
        fileDb := deleteAll s.fileDb found.2
        phase := .used doVerify fileSnapshot hashSnapshot found.1.1 found.1.2 }
    | _ => s
  | .removeUnused isFileQueued =>
    match s.phase with
    | .used doVerify fileSnapshot hashSnapshot usedRoots fi =>
      let found := scan (keepNeeded h doVerify isFileQueued) hashSnapshot.entries usedRoots
      { s with
        hashDb := deleteAll s.hashDb found.2
        phase := .missing fileSnapshot found.1 fi }
    | _ => s
  | .removeMissing =>
    match s.phase with
    | .missing fileSnapshot usedRoots fi =>
      if usedRoots = ∅ then { s with phase := .idle }
      else
        let found := scan (keepComplete usedRoots) fileSnapshot.entries fi
        { s with fileDb := deleteAll s.fileDb found.2, phase := .idle }
    | _ => s

/-- Which steps are possible: a file is hashed under its root, and it is shared; a snapshot shows
    the database; the records that are verified can be read at all. -/
def Store.Allowed (isRealPathShared : Str → Bool) (s : Store) : Op → Prop
  | .addTree tt path fi => isRealPathShared path ∧ fi.root = tt.root
  | .addFile path fi => (path, fi) ∈ s.pending
  | .takeFileSnapshot _ fileSnapshot => s.phase = .idle ∧ fileSnapshot.Shows s.fileDb
  | .takeHashSnapshot hashSnapshot =>
    (∃ doVerify fileSnapshot, s.phase = .files doVerify fileSnapshot) ∧
      hashSnapshot.Shows s.hashDb
  | .removeUnshared => ∃ doVerify fileSnapshot hashSnapshot,
      s.phase = .trees doVerify fileSnapshot hashSnapshot
  | .removeUnused _ => ∃ doVerify fileSnapshot hashSnapshot usedRoots fi,
      s.phase = .used doVerify fileSnapshot hashSnapshot usedRoots fi ∧
      (doVerify → ∀ root value, (root, value) ∈ hashSnapshot.entries →
        ∃ out, loadTree h value root emptyTree = some out)
  | .removeMissing => ∃ fileSnapshot usedRoots fi, s.phase = .missing fileSnapshot usedRoots fi

def maintenance (isRealPathShared : Str → Bool) : Lib.System Store Op where
  next := Store.next h isRealPathShared
  allowed := Store.Allowed h isRealPathShared

end HashStore
end Airdcpp
