import InodeBridge.Bytes

/-! # The BLAKE3 hash

A message is cut into chunks of 1024 bytes, a chunk into blocks of 64 bytes.  The chunks are the
leaves of a binary tree: neighbours are paired level by level, and one left over at the end of a
level moves up unpaired, so every left subtree is full.  The root of the tree gives the hash.

The hash is used with a key, and to derive a key from a context and some material.
-/
namespace InodeBridge.Blake3

/-- Eight words: a chaining value, a key or a hash. -/
abbrev Chain := Vector UInt32 8

/-- Sixteen words: a block of a message or the state of the compression. -/
abbrev Block := Vector UInt32 16

def initialChain : Chain :=
  #v[0x6a09e667, 0xbb67ae85, 0x3c6ef372, 0xa54ff53a, 0x510e527f, 0x9b05688c, 0x1f83d9ab, 0x5be0cd19]

/-- The order in which a round takes the words of the round before. -/
def wordOrder : Vector (Fin 16) 16 := #v[2, 6, 3, 10, 7, 0, 4, 13, 1, 11, 12, 5, 9, 14, 15, 8]

def rotateRight (x n : UInt32) : UInt32 := (x >>> n) ||| (x <<< (32 - n))

/-- Mixes two words of the message into a column or diagonal of the state. -/
def mix (s : Block) (a b c d : Fin 16) (x y : UInt32) : Block :=
  let s := s.set a (s[a] + s[b] + x)
  let s := s.set d (rotateRight (s[d] ^^^ s[a]) 16)
  let s := s.set c (s[c] + s[d])
  let s := s.set b (rotateRight (s[b] ^^^ s[c]) 12)
  let s := s.set a (s[a] + s[b] + y)
  let s := s.set d (rotateRight (s[d] ^^^ s[a]) 8)
  let s := s.set c (s[c] + s[d])
  s.set b (rotateRight (s[b] ^^^ s[c]) 7)

def mixes : List (Fin 16 × Fin 16 × Fin 16 × Fin 16 × Fin 16 × Fin 16) :=
  [(0, 4, 8, 12, 0, 1), (1, 5, 9, 13, 2, 3), (2, 6, 10, 14, 4, 5), (3, 7, 11, 15, 6, 7),
   (0, 5, 10, 15, 8, 9), (1, 6, 11, 12, 10, 11), (2, 7, 8, 13, 12, 13), (3, 4, 9, 14, 14, 15)]

def round (s m : Block) : Block :=
  mixes.foldl (fun s (a, b, c, d, x, y) => mix s a b c d m[x] m[y]) s

def rounds : Nat → Block → Block → Block
  | 0, s, _ => s
  | n + 1, s, m => rounds n (round s m) (wordOrder.map fun i => m[i])

/-- What is compressed at once: a block with the chaining value before it. -/
structure Node where
  chain : Chain
  block : Block
  counter : UInt64
  length : UInt32
  flags : UInt32

namespace Flag

def chunkStart : UInt32 := 1
def chunkEnd : UInt32 := 2
def parent : UInt32 := 4
def root : UInt32 := 8
def keyed : UInt32 := 16
def keyContext : UInt32 := 32
def keyMaterial : UInt32 := 64

end Flag

def Node.compress (n : Node) (flags : UInt32) : Chain :=
  let h := n.chain
  let s : Block := #v[h[0], h[1], h[2], h[3], h[4], h[5], h[6], h[7],
    initialChain[0], initialChain[1], initialChain[2], initialChain[3],
    n.counter.toUInt32, (n.counter >>> 32).toUInt32, n.length, n.flags ||| flags]
  let s := rounds 7 s n.block
  Vector.ofFn fun i : Fin 8 => s.get ⟨i, by omega⟩ ^^^ s.get ⟨i + 8, by omega⟩

def Node.chaining (n : Node) : Chain := n.compress 0

def Node.digest (n : Node) : Chain := n.compress Flag.root

/-- Cuts a string into parts of a size; the empty string is one empty part. -/
def cut (size : Nat) (bs : Bytes) : List Bytes :=
  match (bs.length + size - 1) / size with
  | 0 => [[]]
  | n + 1 => (List.range (n + 1)).map fun i => (bs.drop (size * i)).take size

def blockOf (bs : Bytes) : Block :=
  Vector.ofFn fun i : Fin 16 => Bytes.toWord32 (bs.drop (4 * i.val))

/-- The node of a chunk's last block; each block before it is compressed into the chain. -/
def chunkNode (key : Chain) (flags : UInt32) (counter : UInt64) : Bool → List Bytes → Chain → Node
  | first, blocks, chain =>
    let start := if first then Flag.chunkStart else 0
    match blocks with
    | [] => ⟨chain, blockOf [], counter, 0, flags ||| start ||| Flag.chunkEnd⟩
    | [last] =>
      ⟨chain, blockOf last, counter, last.length.toUInt32, flags ||| start ||| Flag.chunkEnd⟩
    | block :: blocks =>
      let node : Node := ⟨chain, blockOf block, counter, block.length.toUInt32, flags ||| start⟩
      chunkNode key flags counter false blocks node.chaining

def parentNode (key : Chain) (flags : UInt32) (left right : Node) : Node :=
  ⟨key, left.chaining ++ right.chaining, 0, 64, flags ||| Flag.parent⟩

def pairUp (key : Chain) (flags : UInt32) : List Node → List Node
  | left :: right :: nodes => parentNode key flags left right :: pairUp key flags nodes
  | nodes => nodes

/-- The root above some nodes, found within as many levels as the fuel allows. -/
def rootOf (key : Chain) (flags : UInt32) : Nat → Node → List Node → Node
  | 0, first, _ => first
  | fuel + 1, first, nodes =>
    match pairUp key flags (first :: nodes) with
    | first :: nodes => if nodes.isEmpty then first else rootOf key flags fuel first nodes
    | [] => first

/-- The hash of a message under a key, for the use that the flags name. -/
def hashWith (key : Chain) (flags : UInt32) (message : Bytes) : Chain :=
  let leaf (chunk : Bytes × Nat) : Node :=
    chunkNode key flags chunk.2.toUInt64 true (cut 64 chunk.1) key
  match (cut 1024 message).zipIdx.map leaf with
  | [] => initialChain
  | first :: nodes => (rootOf key flags nodes.length first nodes).digest

def deriveKey (context : String) (material : Bytes) : Chain :=
  let contextKey := hashWith initialChain Flag.keyContext (Bytes.ofString context)
  hashWith contextKey Flag.keyMaterial material

def keyedHash (key : Chain) (message : Bytes) : Chain := hashWith key Flag.keyed message

def firstWord64 (hash : Chain) : UInt64 := hash[0].toUInt64 ||| (hash[1].toUInt64 <<< 32)

end InodeBridge.Blake3
