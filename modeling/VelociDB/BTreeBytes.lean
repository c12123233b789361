/-
# Changing B-tree pages (`insert`, `delete`)

The write paths over the bytes of the pages, each slice, each `copy_within` and each
`copy_from_slice` where the source has it; the read paths are those of `BTreePages`.

    put          copy_from_slice into a part of the page
    copyWithin   copy_within
    serialize    the header; the padding byte behind it is never written

A page handed to `write_page` was read or allocated before, so a write never grows the
file.  What the bytes behind the last entry of a page are is whatever was there before:
`insert`, `delete` and the leaf repairs edit a copy of the page, and only a split and the
internal repairs start from a page of zeros.
-/
import VelociDB.BTreePages

namespace VelociDB.BTree.Pages

open Bytes SchemaCodec Fuelled

/-- The pages of the file and the handle's `root_page`. -/
structure File where
  pages : List Page
  rootPage : Nat

/-- A procedure of the tree on the pages. -/
abbrev FileM := Fuelled File Fault

/-- A computation that only reads pages. -/
def reading {α : Type} (m : PagesM α) : FileM α := fun f =>
  (m f.pages).map fun r => (r.1, f)

/-- A step that touches no page. -/
def done {α : Type} (r : Except Fault α) : FileM α := fun f => some (r, f)

/-- `write_page`. -/
def writePage (pageId : Nat) (page : Page) : FileM Unit :=
  change fun f => { f with pages := f.pages.set pageId page }

/-- `allocate_page`. -/
def newPage : FileM Nat := do
  let pageId ← look fun f => f.pages.length
  change fun f => { f with pages := f.pages ++ [Page.new] }
  pure pageId

/-- `return Err(e)`. -/
def refuse {α : Type} (e : VelociError) : FileM α := Fuelled.fail (.error e)

/-! ## Edits of a page -/

/-- `page[offset..offset + bs.len()].copy_from_slice(bs)`. -/
def put (page : Page) (offset : Nat) (bs : Bytes) : Except Fault Page :=
  if h : offset + bs.length ≤ pageSize then
    .ok ⟨overwrite page.data offset bs, by
      by_cases hbs : bs = []
      · rw [hbs, overwrite_nil, page.size]
      · rw [length_overwrite _ _ hbs, page.size, Nat.max_eq_left h]⟩
  else .error .panic

/-- `page.copy_within(start..stop, dest)`. -/
def copyWithin (page : Page) (start stop dest : Nat) : Except Fault Page :=
  if start ≤ stop ∧ stop ≤ pageSize then
    put page dest ((page.data.drop start).take (stop - start))
  else .error .panic

/-- The bytes of a key. -/
def keyBytes (key : Int64) : Bytes := leBytes 8 key.toUInt64.toNat

/-- `NodeHeader::serialize`. -/
def NodeHeader.serialize (header : NodeHeader) (page : Page) : Except Fault Page := do
  let page ← put page 0 (leBytes 1 header.nodeType)
  let page ← put page 1 (leBytes 2 header.numKeys)
  put page 3 (leBytes 4 header.parent)

/-- Key, size and row at an offset. -/
def putEntry (page : Page) (offset : Nat) (key : Int64) (data : Bytes) : Except Fault Page := do
  let page ← put page offset (keyBytes key)
  let page ← put page (offset + 8) (leBytes 4 data.length)
  put page (offset + 12) data

/-- The entries of a list, one behind the other. -/
def putEntries (page : Page) : Nat → List Entry → Except Fault Page
  | _, [] => .ok page
  | offset, (key, data) :: rest => do
      let page ← putEntry page offset key data
      putEntries page (offset + entrySize data) rest

/-- Key and child at an offset. -/
def putSlot (page : Page) (offset : Nat) (key : Int64) (child : Nat) : Except Fault Page := do
  let page ← put page offset (keyBytes key)
  put page (offset + 8) (leBytes 8 child)

/-- Keys and the children behind them, one pair behind the other. -/
def putSlots (page : Page) : Nat → List Int64 → List Nat → Except Fault Page
  | offset, key :: keys, child :: children => do
      let page ← putSlot page offset key child
      putSlots page (offset + 16) keys children
  | _, _, _ => .ok page

/-! ## Loops over a page -/

/-- The loop of `find_data_end`: `n` keys to go, the next one the `i`-th. -/
def dataEndLoop (data : Bytes) : Nat → Nat → Nat → Except Fault Nat
  | 0, _, offset => .ok offset
  | n + 1, i, offset =>
      if pageSize < offset + 12 then
        .error (.error (.corruption
          ("Invalid offset " ++ toString offset ++ " for key " ++ toString i)))
      else if data.length < offset + 12 then
        .error (.error (.corruption ("Cannot read size for key " ++ toString i)))
      else do
        let size ← readLe 4 data (offset + 8)
        if pageSize < offset + (12 + size) then
          .error (.error (.corruption
            ("Data end offset " ++ toString (offset + (12 + size)) ++ " exceeds page size")))
        else dataEndLoop data n (i + 1) (offset + (12 + size))

/-- `find_data_end`. -/
def findDataEnd (header : NodeHeader) (data : Bytes) : Except Fault Nat :=
  dataEndLoop data header.numKeys 0 headerSize

/-- The entries of a leaf, as `split_leaf_node` and `merge_leaves` collect them. -/
def readEntries (data : Bytes) : Nat → Nat → Except Fault (List Entry)
  | 0, _ => .ok []
  | n + 1, offset => do
      let key ← readKey data offset
      let size ← readLe 4 data (offset + 8)
      let bytes ← slice data (offset + 12) size
      let rest ← readEntries data n (offset + (12 + size))
      return (key, bytes) :: rest

/-- `read_entry_at_index`, `i` entries before it: the entry and where it starts. -/
def readEntryAtIndex (data : Bytes) : Nat → Nat → Except Fault (Entry × Nat)
  | 0, offset => do
      let key ← readKey data offset
      let size ← readLe 4 data (offset + 8)
      let bytes ← slice data (offset + 12) size
      return ((key, bytes), offset)
  | i + 1, offset => do
      let _ ← readKey data offset
      let size ← readLe 4 data (offset + 8)
      readEntryAtIndex data i (offset + (12 + size))

/-- Where `insert_into_leaf` puts the key: the first entry with a greater one, or the end. -/
def insertOffset (data : Bytes) (key : Int64) : Nat → Nat → Except Fault Nat
  | 0, offset => .ok offset
  | n + 1, offset => do
      let storedKey ← readKey data offset
      let size ← readLe 4 data (offset + 8)
      if key < storedKey then return offset
      else insertOffset data key n (offset + (12 + size))

/-- Where `delete` finds the key, and the size of its row. -/
def deleteOffset (data : Bytes) (key : Int64) : Nat → Nat → Except Fault (Option (Nat × Nat))
  | 0, _ => .ok none
  | n + 1, offset => do
      let storedKey ← readKey data offset
      let size ← readLe 4 data (offset + 8)
      if storedKey = key then return some (offset, size)
      else deleteOffset data key n (offset + (12 + size))

/-- The pairs of an internal node from an offset on. -/
def readSlots (data : Bytes) : Nat → Nat → Except Fault (List Slot)
  | 0, _ => .ok []
  | n + 1, offset => do
      let key ← readKey data offset
      let child ← readLe 8 data (offset + 8)
      let rest ← readSlots data n (offset + 16)
      return (key, child) :: rest

/-- `parse_internal_node`: the keys and the children. -/
def parseInternalNode (data : Bytes) (header : NodeHeader) :
    Except Fault (List Int64 × List Nat) := do
  let first ← readLe 8 data headerSize
  let slots ← readSlots data header.numKeys (headerSize + 8)
  return (slots.map (·.1), first :: slots.map (·.2))

/-- Which pair `insert_into_internal` puts the key before. -/
def insertIndex (data : Bytes) (key : Int64) : Nat → Nat → Nat → Except Fault Nat
  | 0, i, _ => .ok i
  | n + 1, i, offset => do
      let storedKey ← readKey data offset
      if key < storedKey then return i
      else insertIndex data key n (i + 1) (offset + 16)

/-- `find_sibling_info` past the first child. -/
def siblingLoop (data : Bytes) (child : Nat) : Nat → Nat → Nat → Except Fault (Nat × Int64 × Bool)
  | 0, _, _ => .ok (0, 0, false)
  | n + 1, offset, prevChild => do
      let key ← readKey data offset
      let nextChild ← readLe 8 data (offset + 8)
      if nextChild = child then return (prevChild, key, true)
      else siblingLoop data child n (offset + 16) nextChild

/-- `find_sibling_info`. -/
def siblingInfo (data : Bytes) (header : NodeHeader) (child : Nat) :
    Except Fault (Nat × Int64 × Bool) := do
  let first ← readLe 8 data headerSize
  if first = child then do
    let separator ← readKey data (headerSize + 8)
    let sibling ← readLe 8 data (headerSize + 8 + 8)
    return (sibling, separator, false)
  else siblingLoop data child header.numKeys (headerSize + 8) first

/-- The loop of `update_parent_key`. -/
def replaceLoop (page : Page) (oldKey newKey : Int64) : Nat → Nat → Except Fault Page
  | 0, _ => .ok page
  | n + 1, offset => do
      let current ← readKey page.data offset
      if current = oldKey then put page offset (keyBytes newKey)
      else replaceLoop page oldKey newKey n (offset + 16)

/-- The pair of `remove_child_from_parent` past the first child. -/
def removeLoop (data : Bytes) (child : Nat) : Nat → Nat → Except Fault (Option Nat)
  | 0, _ => .ok none
  | n + 1, offset => do
      let nextChild ← readLe 8 data (offset + 8)
      if nextChild = child then return some offset
      else removeLoop data child n (offset + 16)

/-- `write_internal_body`. -/
def writeInternalBody (page : Page) (keys : List Int64) (children : List Nat) :
    Except Fault Page :=
  match children with
  | first :: rest =>
      if rest.length ≠ keys.length then
        .error (.error (.corruption ("Internal node invariant violated: " ++
          toString keys.length ++ " keys but " ++ toString children.length ++ " children")))
      else if pageSize < headerSize + 8 + keys.length * 16 then
        .error (.error (.storageError "Internal node would exceed page size"))
      else do
        let page ← put page headerSize (leBytes 8 first)
        putSlots page (headerSize + 8) keys rest
  | [] => .error (.error (.corruption ("Internal node invariant violated: " ++
      toString keys.length ++ " keys but 0 children")))

/-! ## Insert -/

/-- `set_parent_pointer`. -/
def setParentPointer (pageId newParent : Nat) : FileM Unit := do
  let page ← reading (readPage pageId)
  let header ← done (NodeHeader.deserialize page.data)
  if header.parent = newParent then pure ()
  else do
    let page ← done (NodeHeader.serialize { header with parent := newParent } page)
    writePage pageId page

/-- `set_parent_pointer`, one child after the other. -/
def setParentPointers (newParent : Nat) : List Nat → FileM Unit
  | [] => pure ()
  | pageId :: rest => do
      setParentPointer pageId newParent
      setParentPointers newParent rest

/-- `split_leaf_node`. -/
def splitLeafNode (pageId : Nat) : FileM (Nat × Int64) := do
  let page ← reading (readPage pageId)
  let header ← done (NodeHeader.deserialize page.data)
  let entries ← done (readEntries page.data header.numKeys headerSize)
  match entries[splitIndex entries]? with
  | none => done (.error .panic)
  | some (splitKey, _) => do
      let siblingId ← newPage
      let lower := entries.take (splitIndex entries)
      let left ← done (putEntries Page.new headerSize lower)
      let left ← done (NodeHeader.serialize { header with numKeys := lower.length } left)
      writePage pageId left
      let upper := entries.drop (splitIndex entries)
      let right ← done (putEntries Page.new headerSize upper)
      let right ← done (NodeHeader.serialize ⟨1, upper.length, 0⟩ right)
      writePage siblingId right
      pure (siblingId, splitKey)

/-- `create_new_root`. -/
def createNewRoot (left right : Nat) (splitKey : Int64) : FileM Nat := do
  let rootId ← newPage
  let page ← done (NodeHeader.serialize ⟨0, 1, 0⟩ Page.new)
  let page ← done (put page headerSize (leBytes 8 left))
  let page ← done (putSlot page (headerSize + 8) splitKey right)
  writePage rootId page
  setParentPointer left (parentField rootId)
  setParentPointer right (parentField rootId)
  pure rootId

/-- A page of zeros with a header, children and keys. -/
def newInternal (header : NodeHeader) (keys : List Int64) : List Nat → Except Fault Page
  | [] => .error .panic
  | first :: rest => do
      let page ← NodeHeader.serialize { header with numKeys := keys.length } Page.new
      let page ← put page headerSize (leBytes 8 first)
      putSlots page (headerSize + 8) keys rest

/-- `split_internal_node`. -/
def splitInternalNode (insertIntoParent : Nat → Nat → Int64 → FileM (Option Nat))
    (pageId right : Nat) (key : Int64) : FileM (Option Nat) := do
  let page ← reading (readPage pageId)
  let header ← done (NodeHeader.deserialize page.data)
  let (storedKeys, storedChildren) ← done (parseInternalNode page.data header)
  let insertIdx := (storedKeys.takeWhile fun k => decide (k < key)).length
  let keys := storedKeys.insertIdx insertIdx key
  let children := storedChildren.insertIdx (insertIdx + 1) right
  let splitIdx := keys.length / 2
  match keys[splitIdx]? with
  | none => done (.error .panic)
  | some promotedKey => do
      let siblingId ← newPage
      let rightChildren := children.drop (splitIdx + 1)
      let sibling ← done (newInternal ⟨0, 0, 0⟩ (keys.drop (splitIdx + 1)) rightChildren)
      setParentPointers (parentField siblingId) rightChildren
      writePage siblingId sibling
      let left ← done (newInternal header (keys.take splitIdx) (children.take (splitIdx + 1)))
      writePage pageId left
      insertIntoParent pageId siblingId promotedKey

/-- `insert_into_internal`. -/
def insertIntoInternal (insertIntoParent : Nat → Nat → Int64 → FileM (Option Nat))
    (pageId right : Nat) (key : Int64) : FileM (Option Nat) := do
  setParentPointer right (parentField pageId)
  let page ← reading (readPage pageId)
  let header ← done (NodeHeader.deserialize page.data)
  let insertIdx ← done (insertIndex page.data key header.numKeys 0 (headerSize + 8))
  if btreeOrder ≤ header.numKeys then splitInternalNode insertIntoParent pageId right key
  else do
    let start := headerSize + 8 + insertIdx * 16
    let stop := headerSize + 8 + header.numKeys * 16
    let page ← done (if start < stop then copyWithin page start stop (start + 16) else .ok page)
    let page ← done (putSlot page start key right)
    let page ← done (NodeHeader.serialize { header with numKeys := header.numKeys + 1 } page)
    writePage pageId page
    pure none

/-- `insert_into_parent`. -/
def insertIntoParent : Nat → Nat → Nat → Int64 → FileM (Option Nat)
  | 0, _, _, _ => exhausted
  | fuel + 1, left, right, splitKey => do
      let page ← reading (readPage left)
      let header ← done (NodeHeader.deserialize page.data)
      if header.parent = 0 then do
        let rootId ← createNewRoot left right splitKey
        pure (some rootId)
      else insertIntoInternal (insertIntoParent fuel) header.parent right splitKey

/-- `insert_into_leaf`. -/
def insertIntoLeaf : Nat → Nat → Int64 → Bytes → FileM (Option Nat)
  | 0, _, _, _ => exhausted
  | fuel + 1, pageId, key, data => do
      let page ← reading (readPage pageId)
      let header ← done (NodeHeader.deserialize page.data)
      let start ← done (insertOffset page.data key header.numKeys headerSize)
      let stop ← done (findDataEnd header page.data)
      if pageSize < stop + entrySize data then do
        let (siblingId, splitKey) ← splitLeafNode pageId
        let newRoot ← insertIntoParent fuel pageId siblingId splitKey
        let _ ← insertIntoLeaf fuel (if key < splitKey then pageId else siblingId) key data
        pure newRoot
      else do
        let page ← done
          (if start < stop then copyWithin page start stop (start + entrySize data) else .ok page)
        let page ← done (putEntry page start key data)
        let page ← done (NodeHeader.serialize { header with numKeys := header.numKeys + 1 } page)
        writePage pageId page
        pure none

/-- `BTree::insert`. -/
def insert (fuel : Nat) (key : Int64) (row : Row) : FileM Unit := do
  let root ← look fun f => f.rootPage
  let leafId ← reading (findLeaf fuel root key)
  match ← insertIntoLeaf fuel leafId key (serializeRow row) with
  | some newRoot => change fun f => { f with rootPage := newRoot }
  | none => pure ()

/-- `BTree::new`. -/
def newTree : FileM Unit := do
  let root ← newPage
  let page ← done (NodeHeader.serialize ⟨1, 0, 0⟩ Page.new)
  writePage root page
  change fun f => { f with rootPage := root }

/-! ## Delete -/

/-- `update_parent_key`. -/
def updateParentKey (parentId : Nat) (oldKey newKey : Int64) : FileM Unit := do
  let page ← reading (readPage parentId)
  let header ← done (NodeHeader.deserialize page.data)
  let page ← done (replaceLoop page oldKey newKey header.numKeys (headerSize + 8))
  writePage parentId page

/-- The entry `redistribute_from_sibling` takes, and where it starts. -/
def stolenEntry (header : NodeHeader) (data : Bytes) (siblingIsLeft : Bool) :
    Except Fault (Entry × Nat) :=
  if siblingIsLeft then
    if header.numKeys = 0 then .error .panic
    else readEntryAtIndex data (header.numKeys - 1) headerSize
  else readEntryAtIndex data 0 headerSize

/-- `redistribute_from_sibling`. -/
def redistributeFromSibling (pageId siblingId parentId : Nat) (separatorKey : Int64)
    (siblingIsLeft : Bool) : FileM Unit := do
  let sibling ← reading (readPage siblingId)
  let siblingHeader ← done (NodeHeader.deserialize sibling.data)
  let ((stolenKey, stolenData), start) ←
    done (stolenEntry siblingHeader sibling.data siblingIsLeft)
  let siblingStop ← done (findDataEnd siblingHeader sibling.data)
  let kept ← done (copyWithin sibling (start + entrySize stolenData) siblingStop start)
  let kept ← done
    (NodeHeader.serialize { siblingHeader with numKeys := siblingHeader.numKeys - 1 } kept)
  writePage siblingId kept
  let page ← reading (readPage pageId)
  let header ← done (NodeHeader.deserialize page.data)
  let stop ← done (findDataEnd header page.data)
  if pageSize < stop + entrySize stolenData then
    refuse (.storageError "Cannot redistribute: target page full")
  else do
    let page ← done
      (if siblingIsLeft then do
        let page ← copyWithin page headerSize stop (headerSize + entrySize stolenData)
        putEntry page headerSize stolenKey stolenData
      else putEntry page stop stolenKey stolenData)
    let page ← done (NodeHeader.serialize { header with numKeys := header.numKeys + 1 } page)
    writePage pageId page
    let right ← reading (readPage (if siblingIsLeft then pageId else siblingId))
    let rightHeader ← done (NodeHeader.deserialize right.data)
    if 0 < rightHeader.numKeys then do
      let newKey ← done (readKey right.data headerSize)
      updateParentKey parentId separatorKey newKey
    else pure ()

/-- The loop of `merge_leaves`: entries appended as long as they fit. -/
def appendLoop (header : NodeHeader) (page : Page) :
    List Entry → Except Fault (NodeHeader × Page)
  | [] => .ok (header, page)
  | (key, data) :: rest => do
      let stop ← findDataEnd header page.data
      if pageSize < stop + entrySize data then
        .error (.error (.storageError "Cannot merge: target page full"))
      else do
        let page ← putEntry page stop key data
        appendLoop { header with numKeys := header.numKeys + 1 } page rest

/-- `remove_child_from_parent`. -/
def removeChildFromParent (handleInternalUnderflow : Nat → Nat → FileM Unit)
    (parentId childId rootPage : Nat) : FileM Unit := do
  let page ← reading (readPage parentId)
  let header ← done (NodeHeader.deserialize page.data)
  let first ← done (readLe 8 page.data headerSize)
  let stop := headerSize + 8 + header.numKeys * 16
  let numKeys := header.numKeys - 1
  if first = childId then do
    let page ← done (copyWithin page (headerSize + 16) stop headerSize)
    let page ← done (NodeHeader.serialize { header with numKeys := numKeys } page)
    writePage parentId page
    if parentId = rootPage ∧ numKeys = 0 then do
      let newRoot ← done (readLe 8 page.data headerSize)
      change fun f => { f with rootPage := newRoot }
    else pure ()
  else
    match ← done (removeLoop page.data childId header.numKeys (headerSize + 8)) with
    | none => pure ()
    | some offset => do
        let page ← done (copyWithin page (offset + 16) stop offset)
        let page ← done (NodeHeader.serialize { header with numKeys := numKeys } page)
        writePage parentId page
        if parentId = rootPage ∧ numKeys = 0 then do
          let newRoot ← done (readLe 8 page.data headerSize)
          change fun f => { f with rootPage := newRoot }
        else if parentId ≠ rootPage ∧ numKeys < minKeys then
          handleInternalUnderflow parentId rootPage
        else pure ()

/-- `merge_leaves`. -/
def mergeLeaves (handleInternalUnderflow : Nat → Nat → FileM Unit)
    (pageId siblingId parentId rootPage : Nat) (siblingIsLeft : Bool) : FileM Unit := do
  let (leftId, rightId) := inOrder pageId siblingId siblingIsLeft
  let right ← reading (readPage rightId)
  let rightHeader ← done (NodeHeader.deserialize right.data)
  let rightEntries ← done (readEntries right.data rightHeader.numKeys headerSize)
  let left ← reading (readPage leftId)
  let header ← done (NodeHeader.deserialize left.data)
  let (header, left) ← done (appendLoop header left rightEntries)
  let left ← done (NodeHeader.serialize header left)
  writePage leftId left
  removeChildFromParent handleInternalUnderflow parentId rightId rootPage

/-- A page of zeros with a header and a checked body. -/
def checkedInternal (header : NodeHeader) (keys : List Int64) (children : List Nat) :
    Except Fault Page := do
  let page ← NodeHeader.serialize { header with numKeys := keys.length } Page.new
  writeInternalBody page keys children

/-- What `redistribute_internal` moves: keys and children of the sibling and of the node, the
new separator, and the child that moves. -/
def moveChild (siblingIsLeft : Bool) (separatorKey : Int64) (siblingKeys : List Int64)
    (siblingChildren : List Nat) (keys : List Int64) (children : List Nat) :
    Except Fault ((List Int64 × List Nat) × (List Int64 × List Nat) × Int64 × Nat) :=
  if siblingIsLeft then
    match siblingChildren.getLast?, siblingKeys.getLast? with
    | none, _ => .error (.error (.corruption "Left sibling has no children"))
    | some _, none => .error (.error (.corruption "Left sibling has no keys"))
    | some stolenChild, some newSeparator =>
        .ok ((siblingKeys.dropLast, siblingChildren.dropLast),
          (separatorKey :: keys, stolenChild :: children), newSeparator, stolenChild)
  else
    match siblingChildren, siblingKeys with
    | stolenChild :: restChildren, newSeparator :: restKeys =>
        .ok ((restKeys, restChildren),
          (keys ++ [separatorKey], children ++ [stolenChild]), newSeparator, stolenChild)
    | _, _ => .error .panic

/-- `redistribute_internal`. -/
def redistributeInternal (pageId siblingId parentId : Nat) (separatorKey : Int64)
    (siblingIsLeft : Bool) : FileM Unit := do
  let sibling ← reading (readPage siblingId)
  let siblingHeader ← done (NodeHeader.deserialize sibling.data)
  let (siblingKeys, siblingChildren) ← done (parseInternalNode sibling.data siblingHeader)
  let page ← reading (readPage pageId)
  let header ← done (NodeHeader.deserialize page.data)
  let (keys, children) ← done (parseInternalNode page.data header)
  let (newSibling, newNode, newSeparator, movedChild) ←
    done (moveChild siblingIsLeft separatorKey siblingKeys siblingChildren keys children)
  let siblingPage ← done (checkedInternal siblingHeader newSibling.1 newSibling.2)
  writePage siblingId siblingPage
  let nodePage ← done (checkedInternal header newNode.1 newNode.2)
  writePage pageId nodePage
  setParentPointer movedChild (parentField pageId)
  updateParentKey parentId separatorKey newSeparator

/-- `merge_internal`. -/
def mergeInternal (handleInternalUnderflow : Nat → Nat → FileM Unit)
    (pageId siblingId parentId : Nat) (separatorKey : Int64) (rootPage : Nat)
    (siblingIsLeft : Bool) : FileM Unit := do
  let (leftId, rightId) := inOrder pageId siblingId siblingIsLeft
  let left ← reading (readPage leftId)
  let leftHeader ← done (NodeHeader.deserialize left.data)
  let (leftKeys, leftChildren) ← done (parseInternalNode left.data leftHeader)
  let right ← reading (readPage rightId)
  let rightHeader ← done (NodeHeader.deserialize right.data)
  let (rightKeys, rightChildren) ← done (parseInternalNode right.data rightHeader)
  let keys := leftKeys ++ [separatorKey] ++ rightKeys
  let children := leftChildren ++ rightChildren
  if pageSize < headerSize + 8 + keys.length * 16 then
    refuse (.storageError "Cannot merge internal nodes: combined size exceeds page")
  else do
    setParentPointers (parentField leftId) (children.reverse.take (rightHeader.numKeys + 1))
    let merged ← done (checkedInternal leftHeader keys children)
    writePage leftId merged
    removeChildFromParent handleInternalUnderflow parentId rightId rootPage

/-- `handle_internal_underflow`. -/
def handleInternalUnderflow : Nat → Nat → Nat → FileM Unit
  | 0, _, _ => exhausted
  | fuel + 1, pageId, rootPage => do
      let page ← reading (readPage pageId)
      let header ← done (NodeHeader.deserialize page.data)
      if header.parent = 0 ∨ pageId = rootPage then pure ()
      else do
        let parent ← reading (readPage header.parent)
        let parentHeader ← done (NodeHeader.deserialize parent.data)
        let (siblingId, separatorKey, siblingIsLeft) ←
          done (siblingInfo parent.data parentHeader pageId)
        if siblingId = 0 then
          refuse (.corruption ("Internal node " ++ toString pageId ++
            " has no sibling in parent " ++ toString header.parent))
        else do
          let sibling ← reading (readPage siblingId)
          let siblingHeader ← done (NodeHeader.deserialize sibling.data)
          if minKeys < siblingHeader.numKeys then
            redistributeInternal pageId siblingId header.parent separatorKey siblingIsLeft
          else
            mergeInternal (handleInternalUnderflow fuel) pageId siblingId header.parent
              separatorKey rootPage siblingIsLeft

/-- `handle_leaf_underflow`. -/
def handleLeafUnderflow (fuel pageId rootPage : Nat) : FileM Unit := do
  let page ← reading (readPage pageId)
  let header ← done (NodeHeader.deserialize page.data)
  if header.parent = 0 then pure ()
  else do
    let parent ← reading (readPage header.parent)
    let parentHeader ← done (NodeHeader.deserialize parent.data)
    let (siblingId, separatorKey, siblingIsLeft) ←
      done (siblingInfo parent.data parentHeader pageId)
    if siblingId = 0 then
      refuse (.corruption ("Parent-child link corruption: page " ++ toString pageId ++
        " has no sibling in parent " ++ toString header.parent))
    else do
      let sibling ← reading (readPage siblingId)
      let siblingHeader ← done (NodeHeader.deserialize sibling.data)
      if minKeys < siblingHeader.numKeys then
        redistributeFromSibling pageId siblingId header.parent separatorKey siblingIsLeft
      else
        mergeLeaves (handleInternalUnderflow fuel) pageId siblingId header.parent rootPage
          siblingIsLeft

/-- `BTree::delete`. -/
def delete (fuel : Nat) (key : Int64) : FileM Bool := do
  let root ← look fun f => f.rootPage
  let leafId ← reading (findLeaf fuel root key)
  let page ← reading (readPage leafId)
  let header ← done (NodeHeader.deserialize page.data)
  match ← done (deleteOffset page.data key header.numKeys headerSize) with
  | none => pure false
  | some (start, size) => do
      let stop ← done (findDataEnd header page.data)
      let page ← done
        (if start + (12 + size) < stop then copyWithin page (start + (12 + size)) stop start
        else .ok page)
      let numKeys := header.numKeys - 1
      let page ← done (NodeHeader.serialize { header with numKeys := numKeys } page)
      writePage leafId page
      if leafId ≠ root ∧ numKeys < minKeys then handleLeafUnderflow fuel leafId root
      else pure ()
      pure true

end VelociDB.BTree.Pages
