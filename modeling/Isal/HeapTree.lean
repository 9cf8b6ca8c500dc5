import Isal.Arr

/-! Code lengths from a histogram, as `huff_codes.c` and `proc_heap_base.c` compute them. Heap, tree
and length counts are views of one memory. An access outside of it, a failed assertion and a loop
that does not end give no result. -/
namespace Isal.HuffCodes

def freqShift : Nat := 16
def maxHistheapSize : Nat := 286
def heapTreeSize : Nat := 3 * maxHistheapSize + 1
def heapTreeNodeStart : Nat := heapTreeSize - 1

/-- `struct heap_tree`, as 32-bit words -/
abbrev HeapTree := Arr Nat

/-- The word at index `k`, which is `code_len_count[k]` and a half of a heap key or of a node. -/
def readWord (m : HeapTree) (k : Nat) : Option Nat :=
  if k < 2 * heapTreeSize then some (m k) else none

def writeWord (m : HeapTree) (k v : Nat) : Option HeapTree :=
  if k < 2 * heapTreeSize then some (m.set k (v % 2 ^ 32)) else none

/-- `heap[i]` -/
def readHeap (m : HeapTree) (i : Nat) : Option Nat := do
  let low ← readWord m (2 * i)
  let high ← readWord m (2 * i + 1)
  return low + 2 ^ 32 * high

def writeHeap (m : HeapTree) (i v : Nat) : Option HeapTree := do
  let m ← writeWord m (2 * i) v
  writeWord m (2 * i + 1) (v / 2 ^ 32)

/-- `store_native_u16_to_u64(&heap[i], v)` -/
def storeU16 (m : HeapTree) (i v : Nat) : Option HeapTree := do
  let low ← readWord m (2 * i)
  writeWord m (2 * i) (low / 2 ^ 16 * 2 ^ 16 + v % 2 ^ 16)

def readChild (m : HeapTree) (i : Nat) : Option Nat := readWord m (2 * i)
def readDepth (m : HeapTree) (i : Nat) : Option Nat := readWord m (2 * i + 1)
def writeChild (m : HeapTree) (i v : Nat) : Option HeapTree := writeWord m (2 * i) v
def writeDepth (m : HeapTree) (i v : Nat) : Option HeapTree := writeWord m (2 * i + 1) v

def heapify (heapSize : Nat) : (rounds index : Nat) → HeapTree → Option HeapTree
  | 0, _, _ => none
  | rounds + 1, index, m =>
    if 2 * index ≤ heapSize then do
      let left ← readHeap m (2 * index)
      let right ← readHeap m (2 * index + 1)
      let child := if left ≤ right then 2 * index else 2 * index + 1
      let above ← readHeap m index
      let below ← readHeap m child
      if below < above then
        let m ← writeHeap m index below
        let m ← writeHeap m child above
        heapify heapSize rounds child m
      else
        return m
    else
      some m

/-- The loop over the inner places of the heap, from index `i` down. -/
def heapifyFrom (heapSize : Nat) : (i : Nat) → HeapTree → Option HeapTree
  | 0, m => some m
  | i + 1, m => do
    let m ← heapify heapSize (heapSize + 1) (i + 1) m
    heapifyFrom heapSize i m

def buildHeap (m : HeapTree) (heapSize : Nat) : Option HeapTree := do
  let m ← writeHeap m (heapSize + 1) (2 ^ 64 - 1)
  heapifyFrom heapSize (heapSize / 2) m

/-- The loop of `build_huff_tree`. It ends with the next slot for nodes. -/
def mergeNodes : (heapSize nodePtr : Nat) → HeapTree → Option (Nat × HeapTree)
  | 0, nodePtr, m => some (nodePtr, m)
  | 1, nodePtr, m => some (nodePtr, m)
  | heapSize + 2, nodePtr, m => do
    let h1 ← readHeap m 1
    let last ← readHeap m (heapSize + 2)
    let m ← writeHeap m 1 last
    let m ← writeHeap m (heapSize + 2) (2 ^ 64 - 1)
    let m ← heapify (heapSize + 1) (heapSize + 2) 1 m
    let h2 ← readHeap m 1
    let m ← writeHeap m 1 ((h1 + h2) % 2 ^ 64 / 2 ^ 16 * 2 ^ 16 ||| nodePtr)
    let m ← heapify (heapSize + 1) (heapSize + 2) 1 m
    let m ← storeU16 m nodePtr h1
    let m ← storeU16 m (nodePtr - 1) h2
    mergeNodes (heapSize + 1) (nodePtr - 2) m

def buildHuffTree (m : HeapTree) (heapSize nodePtr : Nat) : Option (Nat × HeapTree) := do
  let (nodePtr, m) ← mergeNodes heapSize nodePtr m
  let h1 ← readHeap m 1
  let m ← storeU16 m nodePtr h1
  return (nodePtr, m)

/-- The loop `while (code_len < depth)`, `rounds` times. -/
def clearCounts : (rounds codeLen : Nat) → HeapTree → Option HeapTree
  | 0, _, m => some m
  | rounds + 1, codeLen, m => do
    let m ← writeWord m (codeLen + 1) 0
    clearCounts rounds (codeLen + 1) m

/-- The loop over the slots from `i` on, `left` of them, with the leaves moved down to `j`. It ends
with the next place for a leaf and the greatest depth of one. -/
def moveLeaves : (left i j codeLen : Nat) → HeapTree → Option (Nat × Nat × HeapTree)
  | 0, _, j, codeLen, m => some (j, codeLen, m)
  | left + 1, i, j, codeLen, m => do
    let child ← readChild m i
    if maxHistheapSize < child then
      let depth ← readDepth m i
      let m ← writeDepth m child (1 + depth)
      let m ← writeDepth m (child - 1) (1 + depth)
      moveLeaves left (i + 1) j codeLen m
    else
      let depth ← readDepth m i
      let m ← writeChild m j child
      let m ← writeDepth m j depth
      let m ← clearCounts (depth - codeLen) codeLen m
      let count ← readWord m depth
      let m ← writeWord m depth (count + 1)
      moveLeaves left (i + 1) (j + 1) (max codeLen depth) m

/-- The last index from `i` down that has a count, or zero. -/
def lastCount (m : HeapTree) : (i : Nat) → Option Nat
  | 0 => some 0
  | i + 1 => do
    let count ← readWord m (i + 1)
    if count ≠ 0 then
      return i + 1
    else
      lastCount m i

/-- The first index from `k` on that has a count. -/
def firstCount (m : HeapTree) : (rounds k : Nat) → Option Nat
  | 0, _ => none
  | rounds + 1, k => do
    let count ← readWord m k
    if count = 0 then
      firstCount m rounds (k + 1)
    else
      return k

/-- The loop `while (code_len > max_code_len)` -/
def shortenCodes (maxCodeLen : Nat) : (rounds codeLen : Nat) → HeapTree → Option (Nat × HeapTree)
  | 0, _, _ => none
  | rounds + 1, codeLen, m =>
    if maxCodeLen < codeLen then do
      let longest ← readWord m codeLen
      if longest ≤ 1 then none
      let i ← lastCount m (maxCodeLen - 1)
      if i = 0 then none
      let count ← readWord m i
      let m ← writeWord m i (count - 1)
      let count ← readWord m (i + 1)
      let m ← writeWord m (i + 1) (count + 2)
      let count ← readWord m (codeLen - 1)
      let m ← writeWord m (codeLen - 1) (count + 1)
      let count ← readWord m codeLen
      let m ← writeWord m codeLen (count - 2)
      let count ← readWord m codeLen
      shortenCodes maxCodeLen rounds (if count = 0 then codeLen - 1 else codeLen) m
    else
      some (codeLen, m)

/-- The loop `for (i = 1; i <= code_len; i++)`, `left` times -/
def copyCounts (m : HeapTree) : (left i : Nat) → Arr Nat → Option (Arr Nat)
  | 0, _, blCount => some blCount
  | left + 1, i, blCount => do
    let count ← readWord m i
    copyCounts m left (i + 1) (blCount.set i count)

def storeCounts (m : HeapTree) (codeLen maxCodeLen : Nat) (blCount : Arr Nat) : Option (Arr Nat) := do
  let blCount ← copyCounts m codeLen 1 (blCount.set 0 0)
  return blCount.fill (codeLen + 1) (maxCodeLen - codeLen) 0

/-- The loop over the leaves from `i` on, `left` of them, that gets the next lengths in turn. -/
def dealLengths : (left i k : Nat) → HeapTree → Option HeapTree
  | 0, _, _, m => some m
  | left + 1, i, k, m => do
    let m ← writeDepth m i k
    let count ← readWord m k
    let m ← writeWord m k (count - 1)
    let k ← firstCount m (2 * heapTreeSize) k
    dealLengths left (i + 1) k m

def fixCodeLens (m : HeapTree) (rootNode maxCodeLen : Nat) (blCount : Arr Nat) :
    Option (Nat × HeapTree × Arr Nat) := do
  let (j, codeLen, m) ← moveLeaves (heapTreeNodeStart + 1 - rootNode) rootNode rootNode 0 m
  if maxCodeLen < codeLen then
    let (codeLen, m) ← shortenCodes maxCodeLen heapTreeSize codeLen m
    let blCount ← storeCounts m codeLen maxCodeLen blCount
    let k ← firstCount m (2 * heapTreeSize) 1
    let m ← dealLengths (j - rootNode) rootNode k m
    return (j, m, blCount)
  else
    let blCount ← storeCounts m codeLen maxCodeLen blCount
    return (j, m, blCount)

/-- The loop over the leaves from `i` on, `left` of them, that sets the length of each one's symbol. -/
def setLengths (m : HeapTree) : (left i : Nat) → Arr Nat → Option (Arr Nat)
  | 0, _, codes => some codes
  | left + 1, i, codes => do
    let child ← readChild m i
    let depth ← readDepth m i
    setLengths m left (i + 1) (codes.set child (depth % 2 ^ 8))

/-- The lengths of the codes and the count of each length. Of `codes`, the first `codesCount` are cleared. -/
def genHuffCodeLens (m : HeapTree) (heapSize : Nat) (blCount codes : Arr Nat) (codesCount maxCodeLen : Nat) :
    Option (Arr Nat × Arr Nat) := do
  let (rootNode, m) ← buildHuffTree m heapSize heapTreeNodeStart
  let (endNode, m, blCount) ← fixCodeLens m rootNode maxCodeLen blCount
  let codes ← setLengths m (endNode - rootNode) rootNode (codes.fill 0 codesCount 0)
  return (codes, blCount)

/-- The loop of the functions that fill the heap, over the symbols from `i` on, `left` of them. -/
def fillHeap (chosen : Nat → Bool) (histogram : Arr Nat) : (left i heapSize : Nat) → HeapTree → Option (Nat × HeapTree)
  | 0, _, heapSize, m => some (heapSize, m)
  | left + 1, i, heapSize, m =>
    if chosen i then do
      let m ← writeHeap m (heapSize + 1) (histogram i * 2 ^ freqShift % 2 ^ 64 ||| i)
      fillHeap chosen histogram left (i + 1) (heapSize + 1) m
    else
      fillHeap chosen histogram left (i + 1) heapSize m

/-- "make sure heap has at least two elements in it" -/
def fillTwo (histogram : Arr Nat) (heapSize : Nat) (m : HeapTree) : Option (Nat × HeapTree) :=
  if heapSize < 2 then
    if heapSize = 0 then do
      let m ← writeHeap m 1 (2 ^ freqShift)
      let m ← writeHeap m 2 (2 ^ freqShift ||| 1)
      return (2, m)
    else do
      let m ← writeHeap m 2 (if histogram 0 = 0 then 2 ^ freqShift else 2 ^ freqShift ||| 1)
      return (2, m)
  else
    some (heapSize, m)

def initHeap (chosen : Nat → Bool) (histogram : Arr Nat) (histSize : Nat) : Option (Nat × HeapTree) := do
  let (heapSize, m) ← fillHeap chosen histogram histSize 0 0 (Arr.const 0)
  let (heapSize, m) ← fillTwo histogram heapSize m
  let m ← buildHeap m heapSize
  return (heapSize, m)

def initHeap32 (histogram : Arr Nat) (histSize : Nat) : Option (Nat × HeapTree) :=
  initHeap (fun i => histogram i ≠ 0) histogram histSize

def initHeap64 (histogram : Arr Nat) (histSize : Nat) : Option (Nat × HeapTree) :=
  initHeap (fun i => histogram i ≠ 0) histogram histSize

end Isal.HuffCodes
