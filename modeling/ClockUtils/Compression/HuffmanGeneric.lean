import ClockUtils.Compression.HuffmanBase

open BitPack

namespace clockUtils.compression

/-- `result[p / 8] |= b ? (1 << (7 - p % 8)) : 0` -/
def orBit (result : Bytes) (p : Nat) (b : Bool) : Run Bytes :=
  if p / 8 < result.length then
    .ok (if b then result.modify (p / 8) (setBitOf · (p % 8)) else result)
  else .error .outOfRange

/-- The loop over the bits of one code word. -/
def writeWord : List Bool → Nat → Bytes → Run Bytes
  | [], _, result => .ok result
  | b :: word, p, result => do
    let result ← orBit result p b
    writeWord word (p + 1) result

/-- The loop over the text. Before a word is written, zero bytes are appended
while `(index + len) / 8 + 1 > result.size()`. -/
def writeText (mappings : ByteTable (List Bool)) : Bytes → Nat → Bytes → Run Bytes
  | [], _, result => .ok result
  | c :: text, index, result => do
    let word := mappings.get c
    let grown := result ++ List.replicate ((index + word.length) / 8 + 1 - result.length) 0
    let result ← writeWord word index grown
    writeText mappings text (index + word.length) result

/-- The four bytes `uint8_t((len >> (8 * (3 - i))) & 0xFF)`. -/
def lengthBytes (len : UInt32) : Bytes :=
  (List.range 4).map fun i => ((len >>> UInt32.ofNat (8 * (3 - i))) &&& 0xFF).toUInt8

/-- The loop that reads the length field back from position `start`. -/
def readLength (compressed : Bytes) (start : Nat) : Run UInt32 :=
  if start + 4 ≤ compressed.length then
    .ok (((compressed.drop start).take 4).foldl (fun len b => len * 0x100 + b.toUInt32) 0)
  else .error .outOfRange

/-- The part of both `decompress` functions that follows the tree: read the
length field at `start`, allocate the output and decode the rest. -/
def decodeRest (rt : Runtime) (root : Node) (compressed : Bytes) (start : Nat)
    (decompressed : Bytes) : Run (ClockError × Bytes) := do
  let realText := compressed.drop (start + 4)
  let len ← readLength compressed start
  if rt.alloc len.toNat then getChar realText root len (List.replicate len.toNat 0)
  else .ok (.OUT_OF_MEMORY, decompressed)

namespace HuffmanGeneric

/-- One round of the counting loop: the counts and the largest of them. -/
def countByte (state : ByteTable UInt32 × UInt32) (c : UInt8) : ByteTable UInt32 × UInt32 :=
  let header := state.1.set c (state.1.get c + 1)
  (header, if header.get c > state.2 then header.get c else state.2)

/-- The header entry of one count: scaled down to a byte, but never to zero. -/
def scaleCount (rt : Runtime) (max count : UInt32) : UInt8 :=
  if count > 0 ∧ rt.scale count max = 0 then 1 else rt.scale count max

/-- With no byte counted the quotient by `max = 0` is not a number, and its
conversion to `uint8_t` is undefined. -/
def calcFrequencies (rt : Runtime) (text : Bytes) : Run (ByteTable UInt8) :=
  let (header, max) := text.foldl countByte (Vector.replicate 256 0, 0)
  if max = 0 then .error .divisionByZero
  else .ok (header.map (scaleCount rt max))

def convert (text : Bytes) (root : Node) (index : Nat) (result : Bytes) : Run Bytes := do
  let mappings ← generateMapping root [] (Vector.replicate 256 [])
  writeText mappings text index result

/-- The second argument is the old content of the output string. -/
def compress (rt : Runtime) (uncompressed compressed : Bytes) : Run (ClockError × Bytes) :=
  if uncompressed.length > 2 ^ 32 - 1 then .ok (.INVALID_ARGUMENT, compressed)
  else do
    let header ← calcFrequencies rt uncompressed
    let compressed := header.toList ++ lengthBytes (UInt32.ofNat uncompressed.length)
    let root ← buildTree rt header
    let compressed ← convert uncompressed root ((256 + 4) * 8) compressed
    .ok (.SUCCESS, compressed)

/-- `std::vector<uint8_t> header(compressed.begin(), compressed.begin() + 256)` -/
def readHeader (compressed : Bytes) : Run (ByteTable UInt8) :=
  if 256 ≤ compressed.length then .ok (Vector.ofFn fun i => compressed.getD i 0)
  else .error .outOfRange

/-- The second argument is the old content of the output string. -/
def decompress (rt : Runtime) (compressed decompressed : Bytes) : Run (ClockError × Bytes) :=
  if compressed.length < 256 + 4 then .ok (.INVALID_ARGUMENT, decompressed)
  else do
    let header ← readHeader compressed
    let root ← buildTree rt header
    decodeRest rt root compressed 256 decompressed

end HuffmanGeneric

end clockUtils.compression
