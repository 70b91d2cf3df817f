import FastFirebird.Packet
import Mathlib.Algebra.GroupWithZero.Nat

/-! The client-side store of inline blobs, and the segment framing it shares
with `op_get_segment`. -/
namespace FastFirebird

/-- Unpacks `UInt16LE length + bytes` frames into one buffer; a frame that runs
past the end is cut there. -/
def parseSegmentFrames : Bytes → Bytes
  | lo :: hi :: rest =>
    let len := lo.toNat + 256 * hi.toNat
    rest.take len ++ parseSegmentFrames (rest.drop len)
  | _ => []
termination_by raw => raw.length
decreasing_by simp only [List.length_drop, List.length_cons]; omega

structure InlineEntry where
  txId : Nat
  blobId : Bytes
  data : Bytes
  deriving Repr, DecidableEq

/-- `byTx` is the source's map of maps, keyed by transaction and blob id. -/
structure InlineBlobCache where
  capacity : Nat
  byTx : List InlineEntry := []
  usedBytes : Nat := 0
  deriving Repr, DecidableEq

namespace InlineBlobCache

def holds (txId : Nat) (blobId : Bytes) (e : InlineEntry) : Bool :=
  e.txId == txId && e.blobId == blobId

def store (cache : InlineBlobCache) (txId : Nat) (blobId data : Bytes) : InlineBlobCache :=
  if cache.usedBytes + data.length > cache.capacity then cache
  else
    let prev := ((cache.byTx.find? (holds txId blobId)).map (·.data.length)).getD 0
    { cache with
      byTx := cache.byTx.filter (fun e => !holds txId blobId e) ++ [⟨txId, blobId, data⟩]
      usedBytes := cache.usedBytes - prev + data.length }

/-- Single-shot claim: the unframed bytes, and the cache without the entry. -/
def take (cache : InlineBlobCache) (txId : Nat) (blobId : Bytes) :
    Option (Bytes × InlineBlobCache) :=
  (cache.byTx.find? (holds txId blobId)).map fun e =>
    (parseSegmentFrames e.data,
      { cache with
        byTx := cache.byTx.filter fun e => !holds txId blobId e
        usedBytes := cache.usedBytes - e.data.length })

def clearTx (cache : InlineBlobCache) (txId : Nat) : InlineBlobCache :=
  { cache with
    byTx := cache.byTx.filter (·.txId != txId)
    usedBytes := cache.usedBytes -
      ((cache.byTx.filter (·.txId == txId)).map (·.data.length)).sum }

def clear (cache : InlineBlobCache) : InlineBlobCache :=
  { cache with byTx := [], usedBytes := 0 }

end InlineBlobCache
end FastFirebird
