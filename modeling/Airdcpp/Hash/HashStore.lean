import Airdcpp.Hash.MerkleTree
import Airdcpp.Lib.Bytes

/-!
# `Hash/HashStore` — the records of the hash databases

`HashData` maps the root of a tree to its sizes and leaves, `FileIndex` a path to the root, time
stamp and size of a file. A tree with one leaf is stored without it, as its root is the leaf. The
number of leaves is not stored: `loadTree` computes it from the sizes, in `int64_t` arithmetic.

What C++ leaves undefined is `none` here: an overflow, a division by zero, a read behind the end of
the record or of the leaves, and a loop or recursion that does not end.
-/

namespace Airdcpp

open Bytes (readInt writeInt)

/-- The fields of a `TigerTree` that is not being hashed. -/
structure TigerTree where
  fileSize : Int
  blockSize : Int
  leaves : List TTHValue
  root : TTHValue
deriving DecidableEq, Repr

structure HashedFile where
  root : TTHValue
  timeStamp : Nat
  size : Int
deriving DecidableEq, Repr

namespace HashStore

def HASHDATA_VERSION : UInt8 := 1
def FILEINDEX_VERSION : UInt8 := 1

/-- `TTHValue::BYTES` -/
def BYTES : Nat := 24

/-- A signed result of 64 bits. -/
def int64? (n : Int) : Option Int := if -2 ^ 63 ≤ n ∧ n < 2 ^ 63 then some n else none

/-- `static_cast<size_t>` -/
def toSizeT (n : Int) : Nat := (n % 2 ^ 64).toNat

/-- Sizes and leaves of a tree that has been hashed. -/
def ofMerkleTree (t : MerkleTree TTHValue) : TigerTree where
  fileSize := t.fileSize
  blockSize := t.blockSize
  leaves := t.leaves
  root := t.root

/-! ## Trees from their leaves -/

/-- `max((size_t)((aFileSize + aBlockSize - 1) / aBlockSize), (size_t)1)` -/
def calcBlocks (aFileSize aBlockSize : Int) : Option Nat := do
  let sum ← int64? (aFileSize + aBlockSize)
  let dividend ← int64? (sum - 1)
  if aBlockSize = 0 then none
  let quotient ← int64? (dividend.tdiv aBlockSize)
  return max (toSizeT quotient) 1

/-- `while (l * 2 < length) l *= 2`, in `n` rounds. A number other than zero cannot be doubled 64
    times. -/
def doubleBelow : (n : Nat) → (l length : Int) → Option Int
  | 0, _, _ => none
  | n + 1, l, length => do
    let d ← int64? (l * 2)
    if d < length then doubleBelow n d length else return l

/-- `getHash` -/
def getHash (h : Hasher TTHValue) (leaves : List TTHValue) (blockSize start length : Int) :
    Option TTHValue :=
  if length ≤ blockSize then leaves[((start.tdiv blockSize) % 2 ^ 32).toNat]?
  else
    match doubleBelow 64 blockSize length with
    | none => none
    | some l =>
      if _hc : 0 < l ∧ l < length then do
        let a ← getHash h leaves blockSize start l
        let next ← int64? (start + l)
        let b ← getHash h leaves blockSize next (length - l)
        return MerkleTree.combine h a b
      else none
termination_by length.toNat
decreasing_by all_goals omega

/-- A hash value in memory. -/
def valueAt (data : Str) (i : Nat) : TTHValue :=
  Vector.ofFn fun j : Fin 24 => (Bytes.slice BYTES data i).getD j 0

/-- `TigerTree(aFileSize, aBlockSize, aData)`; `data` is all that may be read. -/
def ofData (h : Hasher TTHValue) (aFileSize aBlockSize : Int) (data : Str) : Option TigerTree := do
  let n ← calcBlocks aFileSize aBlockSize
  if data.length < n * BYTES then none
  let leaves := (List.range n).map (valueAt data)
  let root ← getHash h leaves aBlockSize 0 aFileSize
  return { fileSize := aFileSize, blockSize := aBlockSize, leaves := leaves, root := root }

/-! ## Records of trees -/

def saveTree (tt : TigerTree) : Str :=
  HASHDATA_VERSION :: (writeInt tt.fileSize ++ writeInt tt.blockSize ++
    if tt.leaves.length = 1 then [] else tt.leaves.flatMap Vector.toList)

/-- `loadTree`, and the tree that it leaves behind in `aTree`. -/
def loadTree (h : Hasher TTHValue) (src : Str) (aRoot : TTHValue) (aTree : TigerTree) :
    Option (Bool × TigerTree) := do
  if src.length < 1 + 8 + 8 then return (false, aTree)
  if HASHDATA_VERSION < src.getD 0 0 then return (false, aTree)
  let fileSize := readInt ((src.drop 1).take 8)
  let blockSize := readInt ((src.drop 9).take 8)
  let data := src.drop 17
  if data ≠ [] then
    let tt ← ofData h fileSize blockSize data
    return (tt.root = aRoot, tt)
  else
    return (true,
      { fileSize := fileSize, blockSize := blockSize, leaves := [aRoot], root := aRoot })

/-! ## Records of files -/

def saveFileInfo (aFile : HashedFile) : Str :=
  FILEINDEX_VERSION :: (Bytes.write 8 aFile.timeStamp ++ aFile.root.toList ++ writeInt aFile.size)

/-- `loadFileInfo`; the second test compares with `sizeof(HashedFile) + 1`. -/
def loadFileInfo (src : Str) : Option HashedFile :=
  if src.length ≠ 1 + 8 + BYTES + 8 then none
  else if FILEINDEX_VERSION < src.getD 0 0 then none
  else some
    { timeStamp := Bytes.read ((src.drop 1).take 8)
      root := Vector.ofFn fun j : Fin 24 => ((src.drop 9).take BYTES).getD j 0
      size := readInt ((src.drop 33).take 8) }

/-! ## The databases -/

/-- What a database holds under its keys. -/
abbrev Db (κ : Type) := κ → Option Str

def put {κ : Type} [DecidableEq κ] (db : Db κ) (key : κ) (value : Str) : Db κ :=
  fun k => if k = key then some value else db k

def addTree (hashDb : Db TTHValue) (tt : TigerTree) :
    Db TTHValue := put hashDb tt.root (saveTree tt)

/-- `getTree`, and the tree that it leaves behind in `tt_`. -/
def getTree (h : Hasher TTHValue) (hashDb : Db TTHValue) (aRoot : TTHValue) (tt_ : TigerTree) :
    Option (Bool × TigerTree) :=
  match hashDb aRoot with
  | none => some (false, tt_)
  | some value => loadTree h value aRoot tt_

end HashStore
end Airdcpp
