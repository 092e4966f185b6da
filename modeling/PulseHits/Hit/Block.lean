import PulseHits.Hit.Basic

/-!
# Hit blocks

The hits of one frame are stored as a block: their number in four bytes, then their records. Bytes
after the declared hits are not part of the block.
-/

namespace PulseHits.Hit

/-- Why bytes are not a block. -/
inductive BlockError where
  | truncated (declared : UInt32) (held : Nat)
  | io (cause : IoError)
  deriving DecidableEq, Repr

def BlockError.message : BlockError → String
  | .truncated declared held => s!"Hit block declares {declared} hits but only holds {held} bytes"
  | .io cause => s!"Hit block failed due to IO error: {cause.message}"

/-- The bytes of the number of hits. -/
def countSize : Nat := 4

def countBytes (hits : List Hit) : Bytes :=
  Bytes.ofNatLE countSize hits.length

/-- The block of a list of hits. -/
def encodeBlock (hits : List Hit) : Bytes :=
  countBytes hits ++ hits.flatMap toBytes

/-- The pieces in which a block goes to a stream: the number, then one record after the other. -/
def blockPieces (hits : List Hit) : List Bytes :=
  countBytes hits :: hits.map toBytes

/-- Takes `count` records off the front of a byte string. -/
def readMany : (count : Nat) → Bytes → Except IoError (List Hit)
  | 0, _ => .ok []
  | n + 1, b => do
    let (hit, rest) ← read b
    let hits ← readMany n rest
    return hit :: hits

/-- The hits of the block at the start of a byte string. -/
def decodeBlock (b : Bytes) : Except BlockError (List Hit) :=
  if b.length < countSize then .error (.io .endsInField)
  else
    let count := b.fieldLE 0 countSize
    let body := b.drop countSize
    if body.length < count * recordSize then .error (.truncated count.toUInt32 b.length)
    else (readMany count body).mapError .io

end PulseHits.Hit
