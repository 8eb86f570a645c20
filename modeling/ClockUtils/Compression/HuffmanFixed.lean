import ClockUtils.Compression.HuffmanGeneric

namespace clockUtils.compression

namespace HuffmanFixed

set_option maxRecDepth 2000 in
/-- The fixed frequencies from which the tree is built. -/
def preVec : ByteTable UInt8 := #v[
  1, 1, 1, 1, 1, 1, 1, 1, 1, 1,
  7, 1, 1, 1, 1, 1, 1, 1, 1, 1,
  1, 1, 1, 1, 1, 1, 1, 1, 1, 1,
  1, 1, 255, 1, 1, 1, 1, 1, 1, 3,
  4, 4, 1, 1, 10, 2, 10, 1, 1, 1,
  1, 1, 1, 1, 1, 1, 1, 1, 1, 1,
  1, 1, 1, 1, 1, 2, 1, 1, 1, 1,
  1, 1, 2, 1, 1, 1, 1, 1, 1, 1,
  1, 1, 1, 1, 3, 1, 1, 1, 1, 1,
  1, 1, 1, 1, 1, 1, 1, 74, 24, 30,
  40, 179, 24, 23, 67, 95, 1, 3, 50, 33,
  94, 88, 20, 8, 66, 69, 111, 33, 7, 21,
  2, 21, 2, 1, 1, 1, 1, 1, 1, 1,
  1, 1, 1, 1, 1, 1, 1, 1, 1, 1,
  1, 1, 1, 1, 1, 1, 1, 1, 1, 1,
  1, 1, 1, 1, 1, 1, 1, 1, 1, 1,
  1, 1, 1, 1, 1, 1, 1, 1, 1, 1,
  1, 1, 1, 1, 1, 1, 1, 1, 1, 1,
  1, 1, 1, 1, 1, 1, 1, 1, 1, 1,
  1, 1, 1, 1, 1, 1, 1, 1, 1, 1,
  1, 1, 1, 1, 1, 1, 1, 1, 1, 1,
  1, 1, 1, 1, 1, 1, 1, 1, 1, 1,
  1, 1, 1, 1, 1, 1, 1, 1, 1, 1,
  1, 1, 1, 1, 1, 1, 1, 1, 1, 1,
  1, 1, 1, 1, 1, 1, 1, 1, 1, 1,
  1, 1, 1, 1, 1, 1]

/-- The static `root`, built once when the library is loaded. -/
def root (rt : Runtime) : Run Node :=
  buildTree rt preVec

/-- The static table `mappings` is filled when the entry for byte 0 is empty. -/
def fillMappings (rt : Runtime) (mappings : ByteTable (List Bool)) : Run (ByteTable (List Bool)) :=
  if (mappings.get 0).length = 0 then do
    let root ← root rt
    generateMapping root [] mappings
  else .ok mappings

/-- The second argument is the static table `mappings`; its new value is
returned beside the result. -/
def convert (rt : Runtime) (mappings : ByteTable (List Bool)) (text : Bytes) (index : Nat)
    (result : Bytes) : Run (ByteTable (List Bool) × Bytes) := do
  let mappings ← fillMappings rt mappings
  let result ← writeText mappings text index result
  .ok (mappings, result)

/-- The second argument is the static table, the last one the old content of
the output string. -/
def compress (rt : Runtime) (mappings : ByteTable (List Bool)) (uncompressed compressed : Bytes) :
    Run (ByteTable (List Bool) × ClockError × Bytes) :=
  if uncompressed.length > 2 ^ 32 - 1 then .ok (mappings, .INVALID_ARGUMENT, compressed)
  else if rt.alloc 4 then do
    let compressed := lengthBytes (UInt32.ofNat uncompressed.length)
    let (mappings, compressed) ← convert rt mappings uncompressed (4 * 8) compressed
    .ok (mappings, .SUCCESS, compressed)
  else .ok (mappings, .OUT_OF_MEMORY, compressed)

/-- The last argument is the old content of the output string. -/
def decompress (rt : Runtime) (compressed decompressed : Bytes) : Run (ClockError × Bytes) :=
  if compressed.length < 4 then .ok (.INVALID_ARGUMENT, decompressed)
  else do
    let root ← root rt
    decodeRest rt root compressed 0 decompressed

end HuffmanFixed

end clockUtils.compression
