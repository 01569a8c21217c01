import Airdcpp.Core.Types

/-!
# `Core/Streams` — output streams, one inside the other

The virtual functions of an `OutputStream` are a record of functions on the stream's state:
each returns the number of bytes or the exception it throws, and the state in either case. A
stream that wraps another is a function from the operations of the inner one to its own, so a
stack of streams is a composition, and what is at the bottom (a buffer, a file, a disk that may
be full) is any record of operations at all.
-/

namespace Airdcpp

/-- `OutputStream`: `write` and `flushBuffers(aForce)`. -/
structure OutputStream (σ : Type*) where
  write : σ → Str → Except Exception Nat × σ
  flushBuffers : σ → Bool → Except Exception Nat × σ

/-- `StringOutputStream` -/
def StringOutputStream : OutputStream Str where
  write s buf := (.ok buf.length, s ++ buf)
  flushBuffers s _ := (.ok 0, s)

/-- `LimitedOutputStream` over a stream with states `σ`. -/
structure LimitedOutputStream (σ : Type*) where
  s : σ
  maxBytes : Nat

namespace LimitedOutputStream

variable {σ : Type*} (os : OutputStream σ)

def tooMuchData : Exception := { errorString := str "More data was sent than was expected" }

def write (l : LimitedOutputStream σ) (buf : Str) : Except Exception Nat × LimitedOutputStream σ :=
  if l.maxBytes < buf.length then (.error tooMuchData, l)
  else
    let (r, s) := os.write l.s buf
    (r, ⟨s, l.maxBytes - buf.length⟩)

theorem write_of_lt {l : LimitedOutputStream σ} {buf : Str} (h : l.maxBytes < buf.length) :
    l.write os buf = (.error tooMuchData, l) := if_pos h

theorem write_of_le {l : LimitedOutputStream σ} {buf : Str} (h : buf.length ≤ l.maxBytes) :
    l.write os buf = ((os.write l.s buf).1, ⟨(os.write l.s buf).2, l.maxBytes - buf.length⟩) :=
  if_neg (not_lt.mpr h)

def flushBuffers (l : LimitedOutputStream σ) (aForce : Bool) :
    Except Exception Nat × LimitedOutputStream σ :=
  let (r, s) := os.flushBuffers l.s aForce
  (r, { l with s := s })

def eof (l : LimitedOutputStream σ) : Bool := l.maxBytes == 0

end LimitedOutputStream

end Airdcpp
