import ClockUtils.Errors
import ClockUtils.Lib.BitPack
import ClockUtils.Lib.PriorityQueue

open BitPack

namespace clockUtils.compression

/-- A `std::shared_ptr<Node>`. The source's node has two child pointers, each
of which may be null; a node with both null is a leaf and its `c` is valid. -/
inductive Node where
  | nullptr
  | mk (value : UInt32) (c : UInt8) (left right : Node)
  deriving DecidableEq

namespace Node

def value : Node → UInt32
  | .nullptr => 0
  | .mk value _ _ _ => value

end Node

/-- What the compression code takes from the C++ runtime. -/
structure Runtime where
  /-- `std::priority_queue` of nodes, smallest `value` on top; ties are open -/
  queue : PriorityQueue Node Nat (fun node => node.value.toNat)
  /-- `uint8_t(count / double(max) * 255.0)` -/
  scale : UInt32 → UInt32 → UInt8
  /-- whether a `std::string` of the given length can be allocated -/
  alloc : Nat → Bool

/-- A vector with one entry for each value of a byte. -/
abbrev ByteTable (α : Type) := Vector α 256

namespace ByteTable

def get {α : Type} (table : ByteTable α) (c : UInt8) : α :=
  have := c.toNat_lt
  table[c.toNat]

def set {α : Type} (table : ByteTable α) (c : UInt8) (a : α) : ByteTable α :=
  Vector.set table c.toNat a c.toNat_lt

theorem get_set {α : Type} (table : ByteTable α) (c d : UInt8) (a : α) :
    (table.set c a).get d = if c = d then a else table.get d := by
  simp only [get, set, Vector.getElem_set, UInt8.toNat_inj]

theorem get_replicate {α : Type} (a : α) (c : UInt8) :
    ByteTable.get (Vector.replicate 256 a) c = a := by
  simp [get]

theorem get_ofFn {α : Type} (f : Fin 256 → α) (c : UInt8) :
    ByteTable.get (Vector.ofFn f) c = f ⟨c.toNat, c.toNat_lt⟩ := by
  simp [get]

end ByteTable

/-- The loop that pushes a leaf for every byte with a nonzero header entry. -/
def pushLeaves (rt : Runtime) (header : ByteTable UInt8) : rt.queue.Queue :=
  (List.range 256).foldl (fun queue i =>
    if header.get (UInt8.ofNat i) = 0 then queue
    else rt.queue.push queue
      (.mk (header.get (UInt8.ofNat i)).toUInt32 (UInt8.ofNat i) .nullptr .nullptr)) rt.queue.empty

/-- One round of `while (queue.size() >= 2)`: combine the first two nodes. -/
def combine (rt : Runtime) (queue : rt.queue.Queue) : Run rt.queue.Queue :=
  match rt.queue.top queue with
  | none => .error .topOfEmpty
  | some left =>
    match rt.queue.top (rt.queue.pop queue) with
    | none => .error .topOfEmpty
    | some right =>
      .ok (rt.queue.push (rt.queue.pop (rt.queue.pop queue))
        (.mk (left.value + right.value) 0 left right))

/-- The combining loop, for at most `fuel` rounds. -/
def combineLoop (rt : Runtime) : Nat → rt.queue.Queue → Run rt.queue.Queue
  | 0, queue => .ok queue
  | fuel + 1, queue =>
    if 2 ≤ rt.queue.size queue then combine rt queue >>= combineLoop rt fuel
    else .ok queue

/-- Every round removes one element, so as many rounds as there are elements
are never exhausted (`combineLoop_ok`). -/
def buildTree (rt : Runtime) (header : ByteTable UInt8) : Run Node := do
  let queue ← combineLoop rt (rt.queue.size (pushLeaves rt header)) (pushLeaves rt header)
  match rt.queue.top queue with
  | none => .error .topOfEmpty
  | some node => .ok node

def generateMapping : Node → List Bool → ByteTable (List Bool) → Run (ByteTable (List Bool))
  | .nullptr, _, _ => .error .nullDereference
  | .mk _ c .nullptr _, bitSeq, mapping => .ok (mapping.set c bitSeq)
  | .mk _ _ (.mk value c left right) right', bitSeq, mapping => do
    let mapping ← generateMapping (.mk value c left right) (bitSeq ++ [true]) mapping
    generateMapping right' (bitSeq ++ [false]) mapping

/-- The local variables that walk over the payload of `getChar`. -/
structure Cursor where
  bitIndex : Nat
  byteIndex : UInt32
  currentChar : UInt8
  endReached : Bool
  deriving DecidableEq

/-- `compressed[0]` of an empty string is its terminator. -/
def Cursor.start (compressed : Bytes) : Cursor where
  bitIndex := 0
  byteIndex := 0
  currentChar := compressed.getD 0 0
  endReached := false

/-- Advance by one bit, loading the next byte when the current one is used up. -/
def Cursor.advance (compressed : Bytes) (cursor : Cursor) : Cursor :=
  if cursor.bitIndex + 1 = 8 then
    if compressed.length ≤ (cursor.byteIndex + 1).toNat then
      { cursor with bitIndex := 0, byteIndex := cursor.byteIndex + 1, endReached := true }
    else
      { cursor with
        bitIndex := 0
        byteIndex := cursor.byteIndex + 1
        currentChar := compressed.getD (cursor.byteIndex + 1).toNat 0 }
  else
    { cursor with bitIndex := cursor.bitIndex + 1 }

/-- The inner loop of `getChar`: walk from a node down to a leaf. `none` is the
early return of `INVALID_ARGUMENT` when the payload is used up. -/
def walk (compressed : Bytes) : Node → Cursor → Run (Option (UInt8 × Cursor))
  | .nullptr, _ => .error .nullDereference
  | .mk _ c .nullptr .nullptr, cursor => .ok (some (c, cursor))
  | .mk _ _ left right, cursor =>
    if cursor.endReached then .ok none
    else if bitOf cursor.currentChar cursor.bitIndex then
      walk compressed left (cursor.advance compressed)
    else
      walk compressed right (cursor.advance compressed)

/-- The outer loop of `getChar` from its `i`-th round on, with `rounds` rounds
left. `none` is the early return of `INVALID_ARGUMENT`. -/
def getCharLoop (compressed : Bytes) (root : Node) :
    Nat → Nat → Cursor → Bytes → Run (Option Cursor × Bytes)
  | 0, _, cursor, result => .ok (some cursor, result)
  | rounds + 1, i, cursor, result => do
    match ← walk compressed root cursor with
    | none => .ok (none, result)
    | some (c, cursor) =>
      if i < result.length then getCharLoop compressed root rounds (i + 1) cursor (result.set i c)
      else .error .outOfRange

/-- `compressed.length() - 1` in `size_t`, which wraps for an empty payload. -/
def lastIndex (compressed : Bytes) : Nat :=
  (compressed.length + (2 ^ 64 - 1)) % 2 ^ 64

def getChar (compressed : Bytes) (root : Node) (length : UInt32) (result : Bytes) :
    Run (ClockError × Bytes) := do
  match ← getCharLoop compressed root length.toNat 0 (.start compressed) result with
  | (none, result) => .ok (.INVALID_ARGUMENT, result)
  | (some cursor, result) =>
    if cursor.byteIndex.toNat = lastIndex compressed then .ok (.SUCCESS, result)
    else .ok (.INVALID_ARGUMENT, result)

end clockUtils.compression
