import GoQrl.Bytes

/-!
# GoQrl.Freezer.Table

The freezer table of `core/rawdb/freezer_table.go` with its write batch
(`freezer_batch.go`) and its metadata (`freezer_meta.go`).

A table is an index file of six byte entries, a metadata file and a
sequence of numbered data files.  Entry `i + 1` of the index says in which
data file the item `itemOffset + i` lies and where it ends; entry `0` says
which data file is the earliest and how many items were deleted with the
files before it.  Files are byte lists; the directory maps a file number to
the content of the data file, and `files` lists the numbers of the files
held open.  Failures of the file system itself, the metrics and the
read-only mode are left out.
-/

namespace GoQrl

/-- The errors and the panics of the table. -/
inductive FreezerError where
  | outOfBounds
  | outOrderInsertion
  | truncationBelowTail
  | truncationAboveHead
  | invalidIndex
  | missingDataFile
  | unexpectedEOF
  | corruptInput
  | tooLarge
  | makesliceCapOutOfRange
  | indexOutOfRange
deriving DecidableEq, Repr

/-- The compression of items: decompression inverts it and the decoded
length is read off the compressed block. -/
structure Snappy where
  encode : Bytes → Bytes
  decode : Bytes → Option Bytes
  decodedLen : Bytes → Nat
  decode_encode : ∀ b, decode (encode b) = some b
  decodedLen_encode : ∀ b, decodedLen (encode b) = b.length

/-! ## index entries -/

/-- One entry of the index file: a data file and an offset in it. -/
structure IndexEntry where
  filenum : Nat
  offset : Nat
deriving DecidableEq, Repr

/-- The size of an entry in the index file. -/
def indexEntrySize : Nat := 6

/-- The entry written as a 16 bit file number and a 32 bit offset. -/
def IndexEntry.marshal (e : IndexEntry) : Bytes :=
  beBytes 2 e.filenum ++ beBytes 4 e.offset

/-- The entry at the front of `b`. -/
def IndexEntry.unmarshalBinary (b : Bytes) : IndexEntry :=
  ⟨beNat (b.take 2), beNat ((b.drop 2).take 4)⟩

/-- The start and end offsets and the file of the item between two
sequential entries: an item that crosses into a new file starts at its
front. -/
def IndexEntry.bounds (i e : IndexEntry) : Nat × Nat × Nat :=
  if i.filenum ≠ e.filenum then (0, e.offset, e.filenum) else (i.offset, e.offset, e.filenum)

/-! ## files -/

/-- The bytes of `f` at `off`; an empty read never fails. -/
def readAt (f : Bytes) (off len : Nat) : Except FreezerError Bytes :=
  if len = 0 ∨ off + len ≤ f.length then .ok ((f.drop off).take len) else .error .unexpectedEOF

/-- The file resized to `size` bytes, filled up with zeros if it is shorter. -/
def truncateFreezerFile (f : Bytes) (size : Nat) : Bytes :=
  f.take size ++ List.replicate (size - f.length) 0

/-- The three ways in which data files are opened. -/
inductive Opener where
  | forAppend
  | forReadOnly
  | truncated
deriving DecidableEq, Repr

/-- The table: its files, the counters kept in memory and the two parameters
it was opened with.  `index`, `metadata` (the virtual tail, `none` for the
empty file) and `disk` are what is stored. -/
structure FreezerTable where
  noCompression : Bool
  maxFileSize : Nat
  index : Bytes
  metadata : Option Nat
  disk : Nat → Option Bytes
  files : List Nat
  items : Nat
  itemOffset : Nat
  itemHidden : Nat
  headId : Nat
  tailId : Nat
  headBytes : Nat

namespace FreezerTable

/-- Open the data file `num`, unless it is held open already. -/
def openFile (t : FreezerTable) (num : Nat) : Opener → Except FreezerError FreezerTable
  | .forAppend =>
    if num ∈ t.files then .ok t
    else .ok { t with
      disk := Function.update t.disk num (some ((t.disk num).getD []))
      files := num :: t.files }
  | .forReadOnly =>
    if num ∈ t.files then .ok t
    else if (t.disk num).isNone then .error .missingDataFile
    else .ok { t with files := num :: t.files }
  | .truncated =>
    if num ∈ t.files then .ok t
    else .ok { t with
      disk := Function.update t.disk num (some [])
      files := num :: t.files }

/-- Close the data file `num`. -/
def releaseFile (t : FreezerTable) (num : Nat) : FreezerTable :=
  { t with files := t.files.filter (· ≠ num) }

/-- Close the open files above `num` and remove them if `remove` is set. -/
def releaseFilesAfter (t : FreezerTable) (num : Nat) (remove : Bool) : FreezerTable :=
  { t with
    disk := fun k => if remove ∧ k ∈ t.files ∧ num < k then none else t.disk k
    files := t.files.filter (· ≤ num) }

/-- Close the open files below `num` and remove them if `remove` is set. -/
def releaseFilesBefore (t : FreezerTable) (num : Nat) (remove : Bool) : FreezerTable :=
  { t with
    disk := fun k => if remove ∧ k ∈ t.files ∧ k < num then none else t.disk k
    files := t.files.filter (num ≤ ·) }

/-- The size of the data file `num`. -/
def fileSize (t : FreezerTable) (num : Nat) : Nat := ((t.disk num).getD []).length

/-- Resize the data file `num`. -/
def truncateData (t : FreezerTable) (num size : Nat) : FreezerTable :=
  { t with
    disk := Function.update t.disk num
      (some (truncateFreezerFile ((t.disk num).getD []) size)) }

/-- The index entry at position `i`. -/
def entryAt (t : FreezerTable) (i : Nat) : Except FreezerError IndexEntry :=
  (readAt t.index (i * indexEntrySize) indexEntrySize).map IndexEntry.unmarshalBinary

/-- The index entry at position `i`, with the error of the read dropped and
the buffer left zero. -/
def entryAtUnchecked (t : FreezerTable) (i : Nat) : IndexEntry :=
  IndexEntry.unmarshalBinary ((t.index.drop (i * indexEntrySize)).take indexEntrySize)

/-! ## opening -/

/-- The virtual tail of the metadata file, written back when the file is
empty or behind the actual tail. -/
def loadMetadata (t : FreezerTable) (tail : Nat) : Nat × FreezerTable :=
  match t.metadata with
  | none => (tail, { t with metadata := some tail })
  | some m => if m < tail then (tail, { t with metadata := some tail }) else (m, t)

/-- The end of the last of `n` items, or the front of the tail file if there
is none. -/
def lastEntry (t : FreezerTable) (n : Nat) : IndexEntry :=
  if n = 0 then ⟨t.tailId, 0⟩ else t.entryAtUnchecked n

/-- Keep truncating the index of `n` items and the data file of the last one
until they are in sync.  With no item left the expected size is zero, so the
index is never cut further. -/
def syncIndex (t : FreezerTable) (lastIndex : IndexEntry) (contentSize : Nat) :
    Nat → Except FreezerError (FreezerTable × IndexEntry × Nat)
  | 0 =>
    if lastIndex.offset = contentSize then .ok (t, lastIndex, 0)
    else .ok (t.truncateData lastIndex.filenum lastIndex.offset, lastIndex, 0)
  | n + 1 =>
    if lastIndex.offset = contentSize then .ok (t, lastIndex, n + 1)
    else if lastIndex.offset < contentSize then
      .ok (t.truncateData lastIndex.filenum lastIndex.offset, lastIndex, n + 1)
    else do
      let t := { t with index := truncateFreezerFile t.index ((n + 1) * indexEntrySize) }
      let newLastIndex := t.lastEntry n
      -- the cut may slip back into an earlier data file
      if newLastIndex.filenum ≠ lastIndex.filenum then
        let t ← (t.releaseFile lastIndex.filenum).openFile newLastIndex.filenum .forAppend
        t.syncIndex newLastIndex (t.fileSize newLastIndex.filenum) n
      else
        t.syncIndex newLastIndex contentSize n

/-- Open the data files `id`, …, `id + n - 1` for reading. -/
def preopenFrom (t : FreezerTable) (id : Nat) : Nat → Except FreezerError FreezerTable
  | 0 => .ok t
  | n + 1 => do
    let t ← t.openFile id .forReadOnly
    t.preopenFrom (id + 1) n

/-- Open all data files, the head for writing. -/
def preopen (t : FreezerTable) : Except FreezerError FreezerTable := do
  let t := t.releaseFilesAfter 0 false
  let t ← t.preopenFrom t.tailId (t.headId - t.tailId)
  t.openFile t.headId .forAppend

/-- A new index is initialised with the zero entry, and any other is cut to a
multiple of the entry size. -/
def alignIndex (index : Bytes) : Bytes :=
  let index := if index.length = 0 then List.replicate indexEntrySize 0 else index
  let overflow := index.length % indexEntrySize
  if overflow ≠ 0 then truncateFreezerFile index (index.length - overflow) else index

/-- Read the tail fields off the first index entry and the metadata. -/
def loadTail (t : FreezerTable) : FreezerTable :=
  let t := { t with index := alignIndex t.index }
  let firstIndex := t.entryAtUnchecked 0
  let t := { t with tailId := firstIndex.filenum, itemOffset := firstIndex.offset }
  let (virtualTail, t) := t.loadMetadata t.itemOffset
  { t with itemHidden := virtualTail }

/-- Open the file of the last index entry and cut index and data to be in sync. -/
def openHead (t : FreezerTable) : Except FreezerError (FreezerTable × IndexEntry × Nat) := do
  let n := t.index.length / indexEntrySize - 1
  let lastIndex := t.lastEntry n
  let t ← t.openFile lastIndex.filenum .forAppend
  t.syncIndex lastIndex (t.fileSize lastIndex.filenum) n

/-- Cross-check the index and the head file and truncate them to be in sync. -/
def repair (t : FreezerTable) : Except FreezerError FreezerTable := do
  let (t, lastIndex, n) ← t.loadTail.openHead
  let t := { t with
    items := t.itemOffset + n
    headBytes := lastIndex.offset
    headId := lastIndex.filenum }
  let t := t.releaseFilesAfter t.headId true
  let t := t.releaseFilesBefore t.tailId true
  t.preopen

/-- Open the table stored in the given files. -/
def newTable (noCompression : Bool) (maxFileSize : Nat) (index : Bytes) (metadata : Option Nat)
    (disk : Nat → Option Bytes) : Except FreezerError FreezerTable :=
  repair
    { noCompression, maxFileSize, index, metadata, disk, files := []
      items := 0, itemOffset := 0, itemHidden := 0, headId := 0, tailId := 0, headBytes := 0 }

/-- Close the table and open it again. -/
def reopen (t : FreezerTable) : Except FreezerError FreezerTable :=
  newTable t.noCompression t.maxFileSize t.index t.metadata t.disk

/-! ## truncation -/

/-- The end of the last of `length` items, or the front of the tail file. -/
def expectedEnd (t : FreezerTable) (length : Nat) : Except FreezerError IndexEntry :=
  if length = 0 then .ok ⟨t.tailId, 0⟩ else t.entryAt length

/-- Go back to the data file `num` as the head and remove the ones after it. -/
def switchHead (t : FreezerTable) (num : Nat) : Except FreezerError FreezerTable :=
  if num ≠ t.headId then do
    let t ← (t.releaseFile num).openFile num .forAppend
    .ok { t.releaseFilesAfter num true with headId := num }
  else .ok t

/-- Discard the items from `items` on. -/
def truncateHead (t : FreezerTable) (items : Nat) : Except FreezerError FreezerTable :=
  if t.items ≤ items then .ok t
  else if items < t.itemHidden then .error .truncationBelowTail
  else do
    let length := items - t.itemOffset
    let t := { t with index := truncateFreezerFile t.index ((length + 1) * indexEntrySize) }
    let expected ← t.expectedEnd length
    let t ← t.switchHead expected.filenum
    let t := t.truncateData t.headId expected.offset
    .ok { t with headBytes := expected.offset, items := items }

/-- The first of the items below `deleted + n` that lie in the file
`newTailId` up to `deleted + n`.  Below item zero the source reads the tail
entry, whose file is another one, and stops as well. -/
def countDeleted (t : FreezerTable) (newTailId deleted : Nat) : Nat → Except FreezerError Nat
  | 0 => .ok deleted
  | n + 1 => do
    let pre ← t.entryAt (n + 1)
    if pre.filenum ≠ newTailId then .ok (deleted + (n + 1))
    else t.countDeleted newTailId deleted n

/-- The data file of the item `items`, or the head file behind the last one. -/
def fileOf (t : FreezerTable) (items : Nat) : Except FreezerError Nat :=
  if t.items = items then .ok t.headId
  else (t.entryAt (items - t.itemOffset + 1)).map IndexEntry.filenum

/-- Drop the data files before `newTailId` and the index entries of the items
in them; `items` is the first item that is not hidden. -/
def dropTail (t : FreezerTable) (newTailId items : Nat) : Except FreezerError FreezerTable := do
  let deleted := t.itemOffset
  let newDeleted ← t.countDeleted newTailId deleted (items - deleted)
  let tailIndex : IndexEntry := ⟨newTailId, newDeleted % 2 ^ 32⟩
  let t := { t with
    index := tailIndex.marshal ++ t.index.drop ((newDeleted - deleted + 1) * indexEntrySize)
    tailId := newTailId
    itemOffset := newDeleted }
  .ok (t.releaseFilesBefore t.tailId true)

/-- Discard the items before `items`: they are hidden, and the data files
that hold only hidden items are dropped. -/
def truncateTail (t : FreezerTable) (items : Nat) : Except FreezerError FreezerTable :=
  if items ≤ t.itemHidden then .ok t
  else if t.items < items then .error .truncationAboveHead
  else do
    let newTailId ← t.fileOf items
    let t := { t with itemHidden := items, metadata := some items }
    if t.tailId = newTailId then .ok t
    else if newTailId < t.tailId then .error .invalidIndex
    else t.dropTail newTailId items

/-! ## reading -/

/-- The memory for the sizes that a caller asks for: a slice of more than `limit`
bytes cannot be made.  There is room for a buffer of 1 KiB.  What is needed for
the data that is read, at most twice its size, is taken to be there. -/
structure Memory where
  limit : Nat
  le_limit : 1024 ≤ limit
  limit_lt : limit < 2 ^ 64

/-- The capacity check of `make`. -/
def makeslice (mem : Memory) (size cap : Nat) : Except FreezerError Unit :=
  if mem.limit < size * cap then .error .makesliceCapOutOfRange else .ok ()

/-- `n` entries of the index file content `b`. -/
def unmarshalEntries (b : Bytes) : Nat → Except FreezerError (List IndexEntry)
  | 0 => .ok []
  | n + 1 =>
    if b.length < indexEntrySize then .error .indexOutOfRange
    else do
      let rest ← unmarshalEntries (b.drop indexEntrySize) n
      .ok (IndexEntry.unmarshalBinary b :: rest)

/-- The `count + 1` entries around the items from `start` on; the first item
of the table starts at the front of its file.  The size of the buffer and the
end of the loop are computed in 64 bits. -/
def getIndices (mem : Memory) (t : FreezerTable) (start count : Nat) :
    Except FreezerError (List IndexEntry) := do
  let start := start - t.itemOffset
  let size := (count + 1) * indexEntrySize % 2 ^ 64
  makeslice mem 1 size
  let buffer ← readAt t.index (start * indexEntrySize) size
  match start, ← unmarshalEntries buffer ((start + count) % 2 ^ 64 + 1 - start) with
  | 0, _ :: i :: rest => .ok (⟨i.filenum, 0⟩ :: i :: rest)
  | 0, _ => .error .indexOutOfRange
  | _, indices => .ok indices

/-- Append `length` bytes of the data file `fileId` to the output. -/
def readData (t : FreezerTable) (output : Bytes) (fileId start length : Nat) :
    Except FreezerError Bytes :=
  if fileId ∉ t.files then .error .missingDataFile
  else do
    let data ← readAt ((t.disk fileId).getD []) start length
    .ok (output ++ data)

/-- What the loop over the index entries carries along. -/
structure ReadState where
  output : Bytes
  sizes : List Nat
  totalSize : Nat
  readStart : Nat
  unreadSize : Nat

/-- Do the deferred read at a file boundary and start at the front of the
next file. -/
def crossBoundary (t : FreezerTable) (firstIndex secondIndex : IndexEntry) (s : ReadState) :
    Except FreezerError ReadState :=
  if secondIndex.filenum ≠ firstIndex.filenum then
    if 0 < s.unreadSize then do
      let output ← t.readData s.output firstIndex.filenum s.readStart s.unreadSize
      .ok { s with output := output, unreadSize := 0, readStart := 0 }
    else .ok { s with readStart := 0 }
  else .ok s

/-- The loop over the items between sequential entries; `first` is set for the
first item, which is read whatever its size. -/
def readItems (t : FreezerTable) (maxBytes : Nat) (first : Bool) (s : ReadState)
    (firstIndex : IndexEntry) : List IndexEntry → Except FreezerError (Bytes × List Nat)
  | [] => .ok (s.output, s.sizes)
  | secondIndex :: indices => do
    let (offset1, offset2, _) := firstIndex.bounds secondIndex
    let size := (offset2 + 2 ^ 32 - offset1) % 2 ^ 32
    let s ← t.crossBoundary firstIndex secondIndex s
    if !first ∧ maxBytes < s.totalSize + size ∧ maxBytes ≠ 0 then
      if 0 < s.unreadSize then do
        let output ← t.readData s.output secondIndex.filenum s.readStart s.unreadSize
        .ok (output, s.sizes)
      else .ok (s.output, s.sizes)
    else
      let s := { s with
        unreadSize := s.unreadSize + size
        totalSize := s.totalSize + size
        sizes := s.sizes ++ [size] }
      if indices.isEmpty ∨ (maxBytes < s.totalSize ∧ maxBytes ≠ 0) then do
        let output ← t.readData s.output secondIndex.filenum s.readStart s.unreadSize
        .ok (output, s.sizes)
      else t.readItems maxBytes false s secondIndex indices

/-- Read up to `count` items as they are stored, with their sizes. -/
def retrieveRaw (mem : Memory) (t : FreezerTable) (start count maxBytes : Nat) :
    Except FreezerError (Bytes × List Nat) :=
  if t.items ≤ start ∨ start < t.itemHidden ∨ count = 0 then .error .outOfBounds
  else do
    let count := if t.items < (start + count) % 2 ^ 64 then t.items - start else count
    makeslice mem 1 (if maxBytes ≠ 0 then maxBytes else 1024)
    match ← t.getIndices mem start count with
    | [] => .error .indexOutOfRange
    | i :: indices => t.readItems maxBytes true ⟨[], [], 0, i.offset, 0⟩ i indices

/-- The blob of a stored item. -/
def decodeItem (snappy : Snappy) (t : FreezerTable) (item : Bytes) : Except FreezerError Bytes :=
  if t.noCompression then .ok item
  else match snappy.decode item with
    | none => .error .corruptInput
    | some blob => .ok blob

/-- Slice up the data and decompress it until the limit is reached. -/
def sliceItems (snappy : Snappy) (t : FreezerTable) (maxBytes : Nat) (first : Bool)
    (outputSize : Nat) (data : Bytes) : List Nat → Except FreezerError (List Bytes)
  | [] => .ok []
  | diskSize :: sizes => do
    let item := data.take diskSize
    let decompressedSize := if t.noCompression then diskSize else snappy.decodedLen item
    if !first ∧ maxBytes ≠ 0 ∧ maxBytes < outputSize + decompressedSize then .ok []
    else do
      let blob ← decodeItem snappy t item
      let rest ← sliceItems snappy t maxBytes false (outputSize + decompressedSize)
        (data.drop diskSize) sizes
      .ok (blob :: rest)

/-- The items from `start` on: at most `count`, fewer if their size passes
`maxBytes`, but at least one.  The output slice is made with the capacity
the caller asked for; a slice header takes 24 bytes. -/
def retrieveItems (mem : Memory) (snappy : Snappy) (t : FreezerTable) (start count maxBytes : Nat) :
    Except FreezerError (List Bytes) := do
  let (data, sizes) ← t.retrieveRaw mem start count maxBytes
  makeslice mem 24 count
  sliceItems snappy t maxBytes true 0 data sizes

/-- The item with the given number. -/
def retrieve (mem : Memory) (snappy : Snappy) (t : FreezerTable) (item : Nat) :
    Except FreezerError Bytes := do
  match ← retrieveItems mem snappy t item 1 0 with
  | [] => .error .outOfBounds
  | blob :: _ => .ok blob

/-! ## the write batch -/

/-- Switch to the next data file, started over if it exists. -/
def advanceHead (t : FreezerTable) : Except FreezerError FreezerTable := do
  let nextID := t.headId + 1
  let t ← t.openFile nextID .truncated
  let t := t.releaseFile t.headId
  let t := (t.openFile t.headId .forReadOnly).toOption.getD t
  .ok { t with headBytes := 0, headId := nextID }

end FreezerTable

/-- Above this many buffered bytes the batch of a table is written. -/
def freezerBatchBufferLimit : Nat := 2 * 1024 * 1024

/-- The batch of a table: data and index entries not yet written. -/
structure FreezerTableBatch where
  dataBuffer : Bytes
  indexBuffer : Bytes
  curItem : Nat

/-- An empty batch at the end of the table. -/
def FreezerTable.newBatch (t : FreezerTable) : FreezerTableBatch := ⟨[], [], t.items⟩

namespace FreezerTableBatch

/-- Write the buffers to the head file and the index. -/
def commit (b : FreezerTableBatch) (t : FreezerTable) : FreezerTable × FreezerTableBatch :=
  ({ t with
      disk := Function.update t.disk t.headId (some ((t.disk t.headId).getD [] ++ b.dataBuffer))
      index := t.index ++ b.indexBuffer
      headBytes := t.headBytes + b.dataBuffer.length
      items := b.curItem },
    ⟨[], [], b.curItem⟩)

/-- Commit once the buffer has grown over the limit. -/
def maybeCommit (b : FreezerTableBatch) (t : FreezerTable) : FreezerTable × FreezerTableBatch :=
  if freezerBatchBufferLimit < b.dataBuffer.length then b.commit t else (t, b)

/-- Where an item of the given size starts: behind what is buffered or, if it
does not fit in the head file, in front of the next file, once what is
buffered is written. -/
def placeItem (b : FreezerTableBatch) (t : FreezerTable) (itemSize : Nat) :
    Except FreezerError (FreezerTable × FreezerTableBatch × Nat) :=
  let itemOffset := t.headBytes + b.dataBuffer.length
  if t.maxFileSize < itemOffset + itemSize then do
    let (t, b) := b.commit t
    let t ← t.advanceHead
    .ok (t, b, 0)
  else .ok (t, b, itemOffset)

/-- Put an encoded item in the buffer. -/
def appendItem (b : FreezerTableBatch) (t : FreezerTable) (data : Bytes) :
    Except FreezerError (FreezerTable × FreezerTableBatch) := do
  let (t, b, itemOffset) ← b.placeItem t data.length
  let entry : IndexEntry := ⟨t.headId, (itemOffset + data.length) % 2 ^ 32⟩
  let b : FreezerTableBatch :=
    { dataBuffer := b.dataBuffer ++ data
      indexBuffer := b.indexBuffer ++ entry.marshal
      curItem := b.curItem + 1 }
  .ok (b.maybeCommit t)

/-- Compress a blob unless the table is a raw one.  Blobs whose compressed
length may pass 32 bits are refused with a panic. -/
def compress (snappy : Snappy) (t : FreezerTable) (blob : Bytes) : Except FreezerError Bytes :=
  if t.noCompression then .ok blob
  else if 2 ^ 32 ≤ 32 + blob.length + blob.length / 6 then .error .tooLarge
  else .ok (snappy.encode blob)

/-- Append the blob as the item with the given number. -/
def appendRaw (snappy : Snappy) (b : FreezerTableBatch) (t : FreezerTable) (item : Nat)
    (blob : Bytes) : Except FreezerError (FreezerTable × FreezerTableBatch) :=
  if item ≠ b.curItem then .error .outOrderInsertion
  else do
    let data ← compress snappy t blob
    b.appendItem t data

end FreezerTableBatch

end GoQrl
