import Airdcpp.Core.Types

/-!
# `Connection/ConnectionQueueItem` — what is known of a connection that is wanted or open

An item is created for each connection of a user, before it is connected (downloads) or with it
(uploads, private messages). The code passes pointers to items; here an item has an `address`.
-/

namespace Airdcpp

inductive ConnectionType
  | download
  | upload
  | pm
deriving DecidableEq, Repr

inductive QueueDownloadType
  | any
  | small
  | mcnNormal
deriving DecidableEq, Repr

namespace ConnectionQueueItem

/-- `ConnectionQueueItem::State` -/
inductive State
  | connecting
  | waiting
  | active
deriving DecidableEq, Repr

end ConnectionQueueItem

structure ConnectionQueueItem where
  address : Nat
  user : UserPtr
  connType : ConnectionType
  token : Str
  downloadType : QueueDownloadType := .any
  /-- a tick; `2 ^ 64 - 1` for -1 -/
  lastAttempt : Nat := 0
  /-- Number of connection errors, or -1 after a protocol error -/
  errors : Int := 0
  state : ConnectionQueueItem.State := .waiting
  maxRemoteConns : Nat := 0
  /-- `FLAG_MCN` -/
  mcn : Bool := false
  /-- `FLAG_RUNNING` -/
  running : Bool := false
deriving DecidableEq, Repr

namespace ConnectionQueueItem

/-- `maxOwnConns` is `getSlotsPerUser(true)`. -/
def allowNewConnections (cqi : ConnectionQueueItem) (maxOwnConns : Int) (aRunning : Nat) : Bool :=
  if cqi.maxRemoteConns ≠ 0 ∧ cqi.maxRemoteConns ≤ aRunning then false
  else if maxOwnConns ≠ 0 ∧ maxOwnConns ≤ aRunning then false
  else true

def isSmallSlot (cqi : ConnectionQueueItem) : Bool := cqi.downloadType == .small

def isActive (cqi : ConnectionQueueItem) : Bool := cqi.state == .active

def allowConnect (cqi : ConnectionQueueItem) (aAttempts aAttemptLimit aTick : Nat) : Bool :=
  -- No attempts?
  if cqi.lastAttempt = 0 ∧ aAttempts < aAttemptLimit * 2 then true
  else
    -- Enough time ellapsed since the last attempt?
    (aAttemptLimit == 0 || decide (aAttempts < aAttemptLimit)) &&
      decide (cqi.lastAttempt + 60 * 1000 * (max 1 cqi.errors).toNat < aTick)

def isTimeout (cqi : ConnectionQueueItem) (aTick : Nat) : Bool :=
  cqi.state == .connecting && decide (cqi.lastAttempt + 50 * 1000 < aTick)

def resetFatalError (cqi : ConnectionQueueItem) : ConnectionQueueItem :=
  if cqi.lastAttempt = 2 ^ 64 - 1 then { cqi with lastAttempt := 0 } else cqi

end ConnectionQueueItem
end Airdcpp
