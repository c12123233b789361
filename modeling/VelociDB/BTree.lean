/-
# The B-tree (`btree.rs`)

A tree of pages under `root_page`.  Every page is read and written as a whole node:

    leaf       parent, [key, row bytes] …
    internal   parent, child_0, [key_0, child_1] … [key_{n-1}, child_n]

which is the layout of the page body, so an internal node has one child more than it has
keys.  `parent` is the `u32` of the header, `0` for a root.  Page 0 is the database header
and no node.

Procedures that call themselves take fuel.  The three procedures of an insert that go up
the tree call each other in a circle, and so do the three of an underflow; one of each
circle carries the fuel and hands itself to the other two.
-/
import VelociDB.Disk
import VelociDB.Lib.Fuel

namespace VelociDB.BTree

open Bytes

/-- `BTREE_ORDER`. -/
abbrev btreeOrder : Nat := 64

/-- `MIN_KEYS`. -/
abbrev minKeys : Nat := btreeOrder / 2

/-- `NodeHeader::SIZE`. -/
abbrev headerSize : Nat := 8

/-- A key with the serialized row. -/
abbrev Entry := Int64 × Bytes

/-- A key of an internal node with the child to its right. -/
abbrev Slot := Int64 × Nat

/-- The contents of a page. -/
inductive Node where
  | leaf (parent : Nat) (entries : List Entry)
  | internal (parent : Nat) (first : Nat) (slots : List Slot)
  deriving DecidableEq

namespace Node

/-- `header.parent`. -/
def parent : Node → Nat
  | leaf p _ => p
  | internal p _ _ => p

/-- `header.num_keys`. -/
def numKeys : Node → Nat
  | leaf _ entries => entries.length
  | internal _ _ slots => slots.length

/-- The node with another `header.parent`. -/
def setParent (p : Nat) : Node → Node
  | leaf _ entries => leaf p entries
  | internal _ first slots => internal p first slots

/-- A page of zeros, as `allocate_page` leaves it. -/
def zero : Node := internal 0 0 []

end Node

/-- The nodes in the pages, the number of pages and the handle's `root_page`. -/
structure State where
  nodes : Nat → Option Node
  numPages : Nat
  rootPage : Nat

/-- How a call fails.  `misread` is outside the model: a page read as the other kind of node,
or bytes behind the last key of a node. -/
inductive Halt where
  | fault (f : Fault)
  | misread
  deriving DecidableEq

/-- A procedure of the tree. -/
abbrev BTreeM := Fuelled State Halt

open Fuelled (look change fail exhausted)

/-- `return Err(e)`. -/
def returnErr {α : Type} (e : VelociError) : BTreeM α := fail (.fault (.error e))

/-- A panic. -/
def panic {α : Type} : BTreeM α := fail (.fault .panic)

/-- An outcome computed without touching the pages. -/
def ofExcept {α : Type} : Except VelociError α → BTreeM α
  | .ok a => pure a
  | .error e => returnErr e

/-! ## Rows -/

/-- The bytes of a string. -/
def textBytes (s : String) : Bytes := s.toUTF8.toList

/-- One value under its tag; `Float` and `Real` share one. -/
def serializeValue : Value → Bytes
  | .null => [0]
  | .integer i => 1 :: leBytes 8 i.toUInt64.toNat
  | .float f => 2 :: leBytes 8 f.toNat
  | .real f => 2 :: leBytes 8 f.toNat
  | .text s => 3 :: (leBytes 4 (textBytes s).length ++ textBytes s)
  | .blob b => 4 :: (leBytes 4 b.length ++ b)
  | .vector v => 5 :: (leBytes 4 v.length ++ v.flatMap fun x => leBytes 4 x.toNat)

/-- `serialize_row`. -/
def serializeRow (row : Row) : Bytes :=
  leBytes 4 row.values.length ++ row.values.flatMap serializeValue

/-! ## Pages -/

/-- A state with one node replaced. -/
def State.write (s : State) (pageId : Nat) (node : Node) : State :=
  { s with
    nodes := Function.update s.nodes pageId (some node)
    numPages := max s.numPages (pageId + 1) }

/-- `pager.read_page`. -/
def readNode (pageId : Nat) : BTreeM Node := do
  match ← look fun s => s.nodes pageId with
  | some node => pure node
  | none => returnErr (.notFound ("Page " ++ toString pageId ++ " out of bounds"))

/-- `pager.write_page`. -/
def writeNode (pageId : Nat) (node : Node) : BTreeM Unit := change fun s => s.write pageId node

/-- `pager.allocate_page`. -/
def allocatePage : BTreeM Nat := do
  let pageId ← look fun s => s.numPages
  writeNode pageId .zero
  pure pageId

/-- A page read as a leaf. -/
def readLeaf (pageId : Nat) : BTreeM (Nat × List Entry) := do
  match ← readNode pageId with
  | .leaf parent entries => pure (parent, entries)
  | .internal .. => fail .misread

/-- A page read as an internal node. -/
def readInternal (pageId : Nat) : BTreeM (Nat × Nat × List Slot) := do
  match ← readNode pageId with
  | .internal parent first slots => pure (parent, first, slots)
  | .leaf .. => fail .misread

/-- A page id as the `u32` of a header. -/
def parentField (pageId : Nat) : Nat := pageId % 2 ^ 32

/-- `set_parent_pointer`. -/
def setParentPointer (pageId newParent : Nat) : BTreeM Unit := do
  let node ← readNode pageId
  if node.parent = newParent then pure ()
  else writeNode pageId (node.setParent newParent)

/-- `set_parent_pointer`, one child after the other. -/
def setParentPointers (newParent : Nat) : List Nat → BTreeM Unit
  | [] => pure ()
  | pageId :: rest => do
      setParentPointer pageId newParent
      setParentPointers newParent rest

/-! ## Leaves -/

/-- What an entry takes in a page: key, size, row. -/
def entrySize (data : Bytes) : Nat := 12 + data.length

/-- Where the entries of a leaf end. -/
def dataEnd (entries : List Entry) : Nat :=
  headerSize + (entries.map fun e => entrySize e.2).sum

/-- The loop of `find_data_end`. -/
def findDataEndFrom : Nat → Nat → List Entry → Except VelociError Nat
  | _, offset, [] => .ok offset
  | i, offset, (_, data) :: rest =>
      if pageSize < offset + 12 then
        .error (.corruption
          ("Invalid offset " ++ toString offset ++ " for key " ++ toString i))
      else if pageSize < offset + entrySize data then
        .error (.corruption
          ("Data end offset " ++ toString (offset + entrySize data) ++ " exceeds page size"))
      else findDataEndFrom (i + 1) (offset + entrySize data) rest

/-- `find_data_end`. -/
def findDataEnd (entries : List Entry) : BTreeM Nat :=
  ofExcept (findDataEndFrom 0 headerSize entries)

/-- The child of an internal node to go on with: the last one whose separators are all at
most the key. -/
def route (key : Int64) : Nat → List Slot → Nat
  | child, [] => child
  | child, (storedKey, nextChild) :: rest =>
      if key < storedKey then child else route key nextChild rest

/-- `find_leaf`. -/
def findLeaf : Nat → Nat → Int64 → BTreeM Nat
  | 0, _, _ => exhausted
  | fuel + 1, pageId, key => do
      match ← readNode pageId with
      | .leaf .. => pure pageId
      | .internal _ first slots => findLeaf fuel (route key first slots) key

/-- A new entry goes before the first greater key. -/
def insertEntry (key : Int64) (data : Bytes) : List Entry → List Entry
  | [] => [(key, data)]
  | (storedKey, stored) :: rest =>
      if key < storedKey then (key, data) :: (storedKey, stored) :: rest
      else (storedKey, stored) :: insertEntry key data rest

/-- `split_index`: the middle, but not before the only entry. -/
def splitIndex (entries : List Entry) : Nat :=
  if entries.length / 2 = 0 ∧ entries ≠ [] then 1 else entries.length / 2

/-- `split_leaf_node`. -/
def splitLeafNode (pageId : Nat) : BTreeM (Nat × Int64) := do
  let (parent, entries) ← readLeaf pageId
  match entries[splitIndex entries]? with
  | none => panic
  | some (splitKey, _) => do
      let siblingId ← allocatePage
      writeNode pageId (.leaf parent (entries.take (splitIndex entries)))
      writeNode siblingId (.leaf 0 (entries.drop (splitIndex entries)))
      pure (siblingId, splitKey)

/-! ## Insert -/

/-- `create_new_root`. -/
def createNewRoot (left right : Nat) (splitKey : Int64) : BTreeM Nat := do
  let rootId ← allocatePage
  writeNode rootId (.internal 0 left [(splitKey, right)])
  setParentPointer left (parentField rootId)
  setParentPointer right (parentField rootId)
  pure rootId

/-- A new slot goes before the first key that meets `stop`. -/
def insertSlot (stop : Int64 → Bool) (slot : Slot) : List Slot → List Slot
  | [] => [slot]
  | old :: rest => if stop old.1 then slot :: old :: rest else old :: insertSlot stop slot rest

/-- `split_internal_node`. -/
def splitInternalNode (insertIntoParent : Nat → Nat → Int64 → BTreeM (Option Nat))
    (pageId right : Nat) (key : Int64) : BTreeM (Option Nat) := do
  let (parent, first, slots) ← readInternal pageId
  let all := insertSlot (fun k => !decide (k < key)) (key, right) slots
  match all.drop (all.length / 2) with
  | [] => panic
  | (promotedKey, child) :: rightSlots => do
      let siblingId ← allocatePage
      setParentPointers (parentField siblingId) (child :: rightSlots.map (·.2))
      writeNode siblingId (.internal 0 child rightSlots)
      writeNode pageId (.internal parent first (all.take (all.length / 2)))
      insertIntoParent pageId siblingId promotedKey

/-- `insert_into_internal`. -/
def insertIntoInternal (insertIntoParent : Nat → Nat → Int64 → BTreeM (Option Nat))
    (pageId right : Nat) (key : Int64) : BTreeM (Option Nat) := do
  setParentPointer right (parentField pageId)
  let (parent, first, slots) ← readInternal pageId
  if btreeOrder ≤ slots.length then splitInternalNode insertIntoParent pageId right key
  else do
    let all := insertSlot (fun k => decide (key < k)) (key, right) slots
    writeNode pageId (.internal parent first all)
    pure none

/-- `insert_into_parent`. -/
def insertIntoParent : Nat → Nat → Nat → Int64 → BTreeM (Option Nat)
  | 0, _, _, _ => exhausted
  | fuel + 1, left, right, splitKey => do
      let node ← readNode left
      if node.parent = 0 then do
        let rootId ← createNewRoot left right splitKey
        pure (some rootId)
      else insertIntoInternal (insertIntoParent fuel) node.parent right splitKey

/-- `insert_into_leaf`.  The root the inner call may have made is dropped. -/
def insertIntoLeaf : Nat → Nat → Int64 → Bytes → BTreeM (Option Nat)
  | 0, _, _, _ => exhausted
  | fuel + 1, pageId, key, data => do
      let (parent, entries) ← readLeaf pageId
      let endOffset ← findDataEnd entries
      if pageSize < endOffset + entrySize data then do
        let (siblingId, splitKey) ← splitLeafNode pageId
        let newRoot ← insertIntoParent fuel pageId siblingId splitKey
        let _ ← insertIntoLeaf fuel (if key < splitKey then pageId else siblingId) key data
        pure newRoot
      else do
        writeNode pageId (.leaf parent (insertEntry key data entries))
        pure none

/-- `BTree::insert`. -/
def insert (fuel : Nat) (key : Int64) (row : Row) : BTreeM Unit := do
  let root ← look fun s => s.rootPage
  let leafId ← findLeaf fuel root key
  match ← insertIntoLeaf fuel leafId key (serializeRow row) with
  | some newRoot => change fun s => { s with rootPage := newRoot }
  | none => pure ()

/-! ## Delete -/

/-- The loop of `find_sibling_info` past the first child. -/
def siblingBefore (child : Nat) : Nat → List Slot → Nat × Int64 × Bool
  | _, [] => (0, 0, false)
  | prevChild, (key, nextChild) :: rest =>
      if nextChild = child then (prevChild, key, true) else siblingBefore child nextChild rest

/-- `find_sibling_info`: the sibling, the separator and whether the sibling is to the
left. -/
def findSiblingInfo (first : Nat) (slots : List Slot) (child : Nat) :
    BTreeM (Nat × Int64 × Bool) :=
  if first = child then
    match slots with
    | (separator, sibling) :: _ => pure (sibling, separator, false)
    | [] => fail .misread
  else pure (siblingBefore child first slots)

/-- The first key that equals `oldKey` becomes `newKey`. -/
def replaceKey (oldKey newKey : Int64) : List Slot → List Slot
  | [] => []
  | (key, child) :: rest =>
      if key = oldKey then (newKey, child) :: rest
      else (key, child) :: replaceKey oldKey newKey rest

/-- `update_parent_key`. -/
def updateParentKey (parentId : Nat) (oldKey newKey : Int64) : BTreeM Unit := do
  let (parent, first, slots) ← readInternal parentId
  writeNode parentId (.internal parent first (replaceKey oldKey newKey slots))

/-- The entry the sibling lends, and what it keeps. -/
def lend (siblingIsLeft : Bool) (entries : List Entry) : Option (Entry × List Entry) :=
  if siblingIsLeft then entries.getLast?.map fun e => (e, entries.dropLast)
  else entries.head?.map fun e => (e, entries.tail)

/-- `redistribute_from_sibling`. -/
def redistributeFromSibling (pageId siblingId parentId : Nat) (separatorKey : Int64)
    (siblingIsLeft : Bool) : BTreeM Unit := do
  let (siblingParent, siblingEntries) ← readLeaf siblingId
  match lend siblingIsLeft siblingEntries with
  | none => panic
  | some (stolen, kept) => do
      let _ ← findDataEnd siblingEntries
      writeNode siblingId (.leaf siblingParent kept)
      let (parent, entries) ← readLeaf pageId
      let endOffset ← findDataEnd entries
      if pageSize < endOffset + entrySize stolen.2 then
        returnErr (.storageError "Cannot redistribute: target page full")
      else do
        let all := if siblingIsLeft then stolen :: entries else entries ++ [stolen]
        writeNode pageId (.leaf parent all)
        -- the page right of the separator: its first key is the new separator
        let (_, rightEntries) ← readLeaf (if siblingIsLeft then pageId else siblingId)
        match rightEntries with
        | (newKey, _) :: _ => updateParentKey parentId separatorKey newKey
        | [] => pure ()

/-- The loop of `merge_leaves`: entries appended as long as they fit. -/
def appendEntries (entries : List Entry) : List Entry → BTreeM (List Entry)
  | [] => pure entries
  | (key, data) :: rest => do
      let endOffset ← findDataEnd entries
      if pageSize < endOffset + entrySize data then
        returnErr (.storageError "Cannot merge: target page full")
      else appendEntries (entries ++ [(key, data)]) rest

/-- The slots without the first one that points to `child`. -/
def removeSlot (child : Nat) : List Slot → Option (List Slot)
  | [] => none
  | (key, nextChild) :: rest =>
      if nextChild = child then some rest
      else (removeSlot child rest).map ((key, nextChild) :: ·)

/-- `remove_child_from_parent`. -/
def removeChildFromParent (handleInternalUnderflow : Nat → Nat → BTreeM Unit)
    (parentId childId rootPage : Nat) : BTreeM Unit := do
  let (parent, first, slots) ← readInternal parentId
  if first = childId then
    match slots with
    | [] => panic
    | (_, newFirst) :: rest => do
        writeNode parentId (.internal parent newFirst rest)
        if parentId = rootPage ∧ rest = [] then change fun s => { s with rootPage := newFirst }
        else pure ()
  else
    match removeSlot childId slots with
    | none => pure ()
    | some rest => do
        writeNode parentId (.internal parent first rest)
        if parentId = rootPage ∧ rest = [] then change fun s => { s with rootPage := first }
        else if parentId ≠ rootPage ∧ rest.length < minKeys then
          handleInternalUnderflow parentId rootPage
        else pure ()

/-- The left and the right one of a node and its sibling. -/
def inOrder (pageId siblingId : Nat) (siblingIsLeft : Bool) : Nat × Nat :=
  if siblingIsLeft then (siblingId, pageId) else (pageId, siblingId)

/-- `merge_leaves`. -/
def mergeLeaves (handleInternalUnderflow : Nat → Nat → BTreeM Unit)
    (pageId siblingId parentId rootPage : Nat) (siblingIsLeft : Bool) : BTreeM Unit := do
  let (leftId, rightId) := inOrder pageId siblingId siblingIsLeft
  let (_, rightEntries) ← readLeaf rightId
  let (leftParent, leftEntries) ← readLeaf leftId
  let all ← appendEntries leftEntries rightEntries
  writeNode leftId (.leaf leftParent all)
  removeChildFromParent handleInternalUnderflow parentId rightId rootPage

/-- The check of `write_internal_body`, then the write. -/
def writeInternal (pageId parent first : Nat) (slots : List Slot) : BTreeM Unit :=
  if pageSize < headerSize + 8 + slots.length * 16 then
    returnErr (.storageError "Internal node would exceed page size")
  else writeNode pageId (.internal parent first slots)

/-- `redistribute_internal`. -/
def redistributeInternal (pageId siblingId parentId : Nat) (separatorKey : Int64)
    (siblingIsLeft : Bool) : BTreeM Unit := do
  let (siblingParent, siblingFirst, siblingSlots) ← readInternal siblingId
  let (parent, first, slots) ← readInternal pageId
  if siblingIsLeft then
    match siblingSlots.getLast? with
    | none => returnErr (.corruption "Left sibling has no keys")
    | some (newSeparator, stolenChild) => do
        writeInternal siblingId siblingParent siblingFirst siblingSlots.dropLast
        writeInternal pageId parent stolenChild ((separatorKey, first) :: slots)
        setParentPointer stolenChild (parentField pageId)
        updateParentKey parentId separatorKey newSeparator
  else
    match siblingSlots with
    | [] => panic
    | (newSeparator, newFirst) :: rest => do
        writeInternal siblingId siblingParent newFirst rest
        writeInternal pageId parent first (slots ++ [(separatorKey, siblingFirst)])
        setParentPointer siblingFirst (parentField pageId)
        updateParentKey parentId separatorKey newSeparator

/-- `merge_internal`. -/
def mergeInternal (handleInternalUnderflow : Nat → Nat → BTreeM Unit)
    (pageId siblingId parentId : Nat) (separatorKey : Int64) (rootPage : Nat)
    (siblingIsLeft : Bool) : BTreeM Unit := do
  let (leftId, rightId) := inOrder pageId siblingId siblingIsLeft
  let (leftParent, leftFirst, leftSlots) ← readInternal leftId
  let (_, rightFirst, rightSlots) ← readInternal rightId
  let all := leftSlots ++ (separatorKey, rightFirst) :: rightSlots
  if pageSize < headerSize + 8 + all.length * 16 then
    returnErr (.storageError "Cannot merge internal nodes: combined size exceeds page")
  else do
    setParentPointers (parentField leftId) (rightFirst :: rightSlots.map (·.2)).reverse
    writeInternal leftId leftParent leftFirst all
    removeChildFromParent handleInternalUnderflow parentId rightId rootPage

/-- `handle_internal_underflow`. -/
def handleInternalUnderflow : Nat → Nat → Nat → BTreeM Unit
  | 0, _, _ => exhausted
  | fuel + 1, pageId, rootPage => do
      let node ← readNode pageId
      if node.parent = 0 ∨ pageId = rootPage then pure ()
      else do
        let (_, first, slots) ← readInternal node.parent
        let (siblingId, separatorKey, siblingIsLeft) ← findSiblingInfo first slots pageId
        if siblingId = 0 then
          returnErr (.corruption ("Internal node " ++ toString pageId ++
            " has no sibling in parent " ++ toString node.parent))
        else do
          let sibling ← readNode siblingId
          if minKeys < sibling.numKeys then
            redistributeInternal pageId siblingId node.parent separatorKey siblingIsLeft
          else
            mergeInternal (handleInternalUnderflow fuel) pageId siblingId node.parent
              separatorKey rootPage siblingIsLeft

/-- `handle_leaf_underflow`. -/
def handleLeafUnderflow (fuel pageId rootPage : Nat) : BTreeM Unit := do
  let node ← readNode pageId
  if node.parent = 0 then pure ()
  else do
    let (_, first, slots) ← readInternal node.parent
    let (siblingId, separatorKey, siblingIsLeft) ← findSiblingInfo first slots pageId
    if siblingId = 0 then
      returnErr (.corruption ("Parent-child link corruption: page " ++ toString pageId ++
        " has no sibling in parent " ++ toString node.parent))
    else do
      let sibling ← readNode siblingId
      if minKeys < sibling.numKeys then
        redistributeFromSibling pageId siblingId node.parent separatorKey siblingIsLeft
      else
        mergeLeaves (handleInternalUnderflow fuel) pageId siblingId node.parent rootPage
          siblingIsLeft

/-- `BTree::delete`. -/
def delete (fuel : Nat) (key : Int64) : BTreeM Bool := do
  let root ← look fun s => s.rootPage
  let leafId ← findLeaf fuel root key
  let (parent, entries) ← readLeaf leafId
  if entries.any (·.1 == key) then do
    let _ ← findDataEnd entries
    let rest := entries.eraseP (·.1 == key)
    writeNode leafId (.leaf parent rest)
    if leafId ≠ root ∧ rest.length < minKeys then handleLeafUnderflow fuel leafId root
    else pure ()
    pure true
  else pure false

/-! ## More fuel changes no outcome -/

section Growing

open Fuelled (Le Growing Returns)

variable {f g : Nat → Nat → Int64 → BTreeM (Option Nat)} {h h' : Nat → Nat → BTreeM Unit}

theorem splitInternalNode_le (hfg : ∀ l r k, Le (f l r k) (g l r k)) (p right : Nat) (key : Int64) :
    Le (splitInternalNode f p right key) (splitInternalNode g p right key) := by
  refine Le.bind_right fun ⟨parent, first, slots⟩ => ?_
  dsimp only
  split
  · exact .refl _
  · exact .bind_right fun _ => .bind_right fun _ => .bind_right fun _ => .bind_right fun _ =>
      hfg _ _ _

theorem insertIntoInternal_le (hfg : ∀ l r k, Le (f l r k) (g l r k)) (p right : Nat)
    (key : Int64) : Le (insertIntoInternal f p right key) (insertIntoInternal g p right key) :=
  .bind_right fun _ => .bind_right fun _ => .ite (splitInternalNode_le hfg _ _ _) (.refl _)

theorem insertIntoParent_growing (left right : Nat) (key : Int64) :
    Growing fun fuel => insertIntoParent fuel left right key := by
  intro fuel
  induction fuel generalizing left right key with
  | zero => exact Fuelled.exhausted_le _
  | succ fuel ih => exact .bind_right fun _ => .ite (.refl _) (insertIntoInternal_le ih _ _ _)

theorem findLeaf_growing (p : Nat) (key : Int64) : Growing fun fuel => findLeaf fuel p key := by
  intro fuel
  induction fuel generalizing p with
  | zero => exact Fuelled.exhausted_le _
  | succ fuel ih =>
      refine Le.bind_right fun node => ?_
      cases node with
      | leaf => exact .refl _
      | internal => exact ih _

theorem insertIntoLeaf_growing (p : Nat) (key : Int64) (data : Bytes) :
    Growing fun fuel => insertIntoLeaf fuel p key data := by
  intro fuel
  induction fuel generalizing p with
  | zero => exact Fuelled.exhausted_le _
  | succ fuel ih =>
      exact .bind_right fun _ => .bind_right fun _ => .ite
        (.bind_right fun _ => (insertIntoParent_growing _ _ _ fuel).bind fun _ =>
          (ih _).bind fun _ => .refl _) (.refl _)

theorem insert_growing (key : Int64) (row : Row) : Growing fun fuel => insert fuel key row :=
  fun fuel => .bind_right fun _ => (findLeaf_growing _ _ fuel).bind fun _ =>
    (insertIntoLeaf_growing _ _ _ fuel).bind fun _ => .refl _

theorem removeChildFromParent_le (hh : ∀ p r, Le (h p r) (h' p r)) (p c r : Nat) :
    Le (removeChildFromParent h p c r) (removeChildFromParent h' p c r) := by
  refine Le.bind_right fun ⟨parent, first, slots⟩ => ?_
  refine .ite (.refl _) ?_
  split
  · exact .refl _
  · exact .bind_right fun _ => .ite (.refl _) (.ite (hh _ _) (.refl _))

theorem mergeInternal_le (hh : ∀ p r, Le (h p r) (h' p r)) (p sib q : Nat) (key : Int64) (r : Nat)
    (isLeft : Bool) :
    Le (mergeInternal h p sib q key r isLeft) (mergeInternal h' p sib q key r isLeft) :=
  .bind_right fun _ => .bind_right fun _ => .ite (.refl _)
    (.bind_right fun _ => .bind_right fun _ => removeChildFromParent_le hh _ _ _)

theorem mergeLeaves_le (hh : ∀ p r, Le (h p r) (h' p r)) (p sib q r : Nat) (isLeft : Bool) :
    Le (mergeLeaves h p sib q r isLeft) (mergeLeaves h' p sib q r isLeft) :=
  .bind_right fun _ => .bind_right fun _ => .bind_right fun _ => .bind_right fun _ =>
    removeChildFromParent_le hh _ _ _

theorem handleInternalUnderflow_growing (p r : Nat) :
    Growing fun fuel => handleInternalUnderflow fuel p r := by
  intro fuel
  induction fuel generalizing p r with
  | zero => exact Fuelled.exhausted_le _
  | succ fuel ih =>
      exact .bind_right fun _ => .ite (.refl _) <| .bind_right fun _ => .bind_right fun _ =>
        .ite (.refl _) <| .bind_right fun _ => .ite (.refl _) (mergeInternal_le ih _ _ _ _ _ _)

theorem handleLeafUnderflow_growing (p r : Nat) :
    Growing fun fuel => handleLeafUnderflow fuel p r :=
  fun fuel => .bind_right fun _ => .ite (.refl _) <| .bind_right fun _ => .bind_right fun _ =>
    .ite (.refl _) <| .bind_right fun _ => .ite (.refl _)
      (mergeLeaves_le (fun p r => handleInternalUnderflow_growing p r fuel) _ _ _ _ _)

theorem delete_growing (key : Int64) : Growing fun fuel => delete fuel key := by
  intro fuel
  refine .bind_right fun _ => (findLeaf_growing _ _ fuel).bind fun _ => .bind_right fun _ => ?_
  refine .ite (.bind_right fun _ => .bind_right fun _ => ?_) (.refl _)
  exact Le.ite ((handleLeafUnderflow_growing _ _ fuel).bind fun _ => .refl _) (.refl _)

end Growing

end VelociDB.BTree
