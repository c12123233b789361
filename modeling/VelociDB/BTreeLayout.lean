/-
# Nodes in page bytes

`Laid page header body`: the page is the header, a padding byte, the body, and whatever was
there before.

    leaf       the entries one behind the other          (`encodeEntry`)
    internal   the first child, then the pairs of key and child   (`encodeSlot`)

`nodeOf` is the node the loops of the code read out of a page, and `Image` says the same of
the bytes; they agree (`nodeOf_eq_some`).  The edits of a page keep it laid out: `put`
replaces a part of the body, `shiftRight` and `shiftLeft` are the two uses of `copy_within`.
-/
import VelociDB.BTreeBytes
import VelociDB.Lib.Edits

namespace VelociDB.BTree.Pages

open Bytes SchemaCodec

/-! ## The layout -/

/-- The bytes of an entry. -/
def encodeEntry (e : Entry) : Bytes := keyBytes e.1 ++ (leBytes 4 e.2.length ++ e.2)

/-- The bytes of a key and the child behind it. -/
def encodeSlot (s : Slot) : Bytes := keyBytes s.1 ++ leBytes 8 s.2

/-- The bytes of a header, without the padding. -/
def headerBytes (h : NodeHeader) : Bytes :=
  leBytes 1 h.nodeType ++ (leBytes 2 h.numKeys ++ leBytes 4 h.parent)

/-- A header its bytes can hold. -/
structure NodeHeader.Fits (h : NodeHeader) : Prop where
  nodeType : h.nodeType < 2 ^ 8
  numKeys : h.numKeys < 2 ^ 16
  parent : h.parent < 2 ^ 32

/-- A page is a header, a padding byte, a body and whatever was there before. -/
structure Laid (page : Page) (header : NodeHeader) (body : Bytes) : Prop where
  fits : header.Fits
  data : ∃ pad junk, page.data = headerBytes header ++ pad :: (body ++ junk)

variable {page page' : Page} {header header' : NodeHeader} {xs ys zs bs body : Bytes}
  {key : Int64} {data : Bytes} {entries : List Entry} {slots : List Slot} {n o child : Nat}

@[simp] theorem length_keyBytes (key : Int64) : (keyBytes key).length = 8 := length_leBytes ..

@[simp] theorem length_encodeEntry (e : Entry) : (encodeEntry e).length = entrySize e.2 := by
  simp only [encodeEntry, List.length_append, length_keyBytes, length_leBytes, entrySize]
  omega

@[simp] theorem length_encodeSlot (s : Slot) : (encodeSlot s).length = 16 := by
  simp [encodeSlot]

@[simp] theorem length_headerBytes (h : NodeHeader) : (headerBytes h).length = 7 := by
  simp [headerBytes]

theorem length_encodeEntries (entries : List Entry) :
    headerSize + (entries.flatMap encodeEntry).length = dataEnd entries := by
  simp [dataEnd, List.length_flatMap]

theorem length_encodeSlots (slots : List Slot) :
    (slots.flatMap encodeSlot).length = slots.length * 16 := by
  simp [List.length_flatMap]

theorem Page.length (page : Page) : page.data.length = pageSize := page.size

/-- A page of zeros is the header of an internal node with nothing behind it. -/
theorem laid_new : Laid Page.new ⟨0, 0, 0⟩ [] := by
  refine ⟨⟨by decide, by decide, by decide⟩, 0, List.replicate (pageSize - 8) 0, ?_⟩
  have hhead : headerBytes ⟨0, 0, 0⟩ = List.replicate 7 0 := by
    simp [headerBytes, leBytes_zero]
  have hlen : 7 + (pageSize - 8 + 1) = pageSize := by
    have := pageSize_eq
    omega
  rw [hhead, List.nil_append, ← List.replicate_succ, List.replicate_append_replicate, hlen]
  rfl

namespace Laid

theorem size (h : Laid page header body) : headerSize + body.length ≤ pageSize := by
  obtain ⟨pad, junk, hdata⟩ := h.data
  have hlen := congrArg List.length hdata
  rw [Page.length, List.length_append, length_headerBytes, List.length_cons,
    List.length_append] at hlen
  show 8 + body.length ≤ pageSize
  omega

/-- What stands at an offset in the body. -/
theorem at_body (h : Laid page header (xs ++ ys)) :
    ∃ junk, At page.data (headerSize + xs.length) (ys ++ junk) := by
  obtain ⟨pad, junk, hdata⟩ := h.data
  have hall : At page.data 0 ((headerBytes header ++ [pad] ++ xs) ++ (ys ++ junk)) := by
    simpa [hdata] using at_zero page.data
  have hskip := hall.skip
  simp only [List.length_append, length_headerBytes, List.length_singleton] at hskip
  exact ⟨junk, by simpa [Nat.add_assoc] using hskip⟩

theorem at_start (h : Laid page header body) : ∃ junk, At page.data headerSize (body ++ junk) := by
  have hbody : Laid page header ([] ++ body) := h
  exact hbody.at_body

theorem deserialize (h : Laid page header body) :
    NodeHeader.deserialize page.data = .ok header := by
  obtain ⟨pad, junk, hdata⟩ := h.data
  have h₀ : At page.data 0
      (leBytes 1 header.nodeType ++ (leBytes 2 header.numKeys ++
        (leBytes 4 header.parent ++ (pad :: (body ++ junk))))) := by
    simpa [hdata, headerBytes] using at_zero page.data
  obtain ⟨hr₀, h₁⟩ := readLe_at h₀ (by simpa using h.fits.nodeType)
  obtain ⟨hr₁, h₂⟩ := readLe_at h₁ (by simpa using h.fits.numKeys)
  obtain ⟨hr₂, -⟩ := readLe_at h₂ (by simpa using h.fits.parent)
  rw [NodeHeader.deserialize, if_neg (by rw [Page.length, pageSize_eq]; decide), hr₀, ok_bind_fault, hr₁,
    ok_bind_fault, hr₂]
  rfl

/-- What is behind a part of the body may be forgotten. -/
theorem trim (h : Laid page header (xs ++ ys)) : Laid page header xs := by
  obtain ⟨pad, junk, hdata⟩ := h.data
  exact ⟨h.fits, pad, ys ++ junk, by rw [hdata, List.append_assoc]⟩

/-- A body reaches as far as one likes. -/
theorem extend (h : Laid page header body) (hn : headerSize + body.length + n ≤ pageSize) :
    ∃ gap, gap.length = n ∧ Laid page header (body ++ gap) := by
  obtain ⟨pad, junk, hdata⟩ := h.data
  have hlen := congrArg List.length hdata
  rw [Page.length, List.length_append, length_headerBytes, List.length_cons,
    List.length_append] at hlen
  refine ⟨junk.take n, ?_, h.fits, pad, junk.drop n, ?_⟩
  · rw [List.length_take]
    exact Nat.min_eq_left (by unfold headerSize at hn; omega)
  · rw [hdata, List.append_assoc, List.take_append_drop]

/-- A part of the body is replaced. -/
theorem put (h : Laid page header (xs ++ (ys ++ zs))) (bs : Bytes)
    (hbs : bs.length = ys.length) :
    ∃ page', Pages.put page (headerSize + xs.length) bs = .ok page' ∧
      Laid page' header (xs ++ (bs ++ zs)) := by
  have hsize := h.size
  obtain ⟨pad, junk, hdata⟩ := h.data
  have hfit : headerSize + xs.length + bs.length ≤ pageSize := by
    rw [List.length_append, List.length_append] at hsize
    omega
  refine ⟨_, dif_pos hfit, h.fits, pad, junk, ?_⟩
  have hsplit : page.data = (headerBytes header ++ [pad] ++ xs) ++ (ys ++ (zs ++ junk)) := by
    simp [hdata]
  have hoff : headerSize + xs.length = (headerBytes header ++ [pad] ++ xs).length := by
    simp [headerSize]
    omega
  show overwrite page.data (headerSize + xs.length) bs = _
  rw [hoff, hsplit, overwrite_mid _ _ hbs]
  simp

/-- The header is replaced. -/
theorem serialize (h : Laid page header body) (header' : NodeHeader) (hfits : header'.Fits) :
    ∃ page', header'.serialize page = .ok page' ∧ Laid page' header' body := by
  obtain ⟨pad, junk, hdata⟩ := h.data
  have h₁ : 0 + (leBytes 1 header'.nodeType).length ≤ pageSize := by
    rw [length_leBytes, pageSize_eq]
    decide
  have h₂ : 1 + (leBytes 2 header'.numKeys).length ≤ pageSize := by
    rw [length_leBytes, pageSize_eq]
    decide
  have h₃ : 3 + (leBytes 4 header'.parent).length ≤ pageSize := by
    rw [length_leBytes, pageSize_eq]
    decide
  refine ⟨⟨overwrite (overwrite (overwrite page.data 0 (leBytes 1 header'.nodeType)) 1
    (leBytes 2 header'.numKeys)) 3 (leBytes 4 header'.parent), ?_⟩, ?_, hfits, pad, junk, ?_⟩
  · rw [length_overwrite, length_overwrite, length_overwrite, Page.length, length_leBytes,
      length_leBytes, length_leBytes, pageSize_eq]
    · rfl
    all_goals exact List.ne_nil_of_length_pos (by rw [length_leBytes]; decide)
  · rw [NodeHeader.serialize, Pages.put, dif_pos h₁, ok_bind_fault, Pages.put, dif_pos h₂,
      ok_bind_fault, Pages.put, dif_pos h₃]
  · have hjoin₁ := overwrite_join page.data (leBytes 1 header'.nodeType)
      (leBytes 2 header'.numKeys) 0
    have hjoin₂ := overwrite_join page.data
      (leBytes 1 header'.nodeType ++ leBytes 2 header'.numKeys) (leBytes 4 header'.parent) 0
    simp only [length_leBytes, List.length_append] at hjoin₁ hjoin₂
    dsimp only
    rw [hjoin₁, hjoin₂, hdata]
    have hlen : (headerBytes header').length = (headerBytes header).length := by simp
    simpa [headerBytes] using overwrite_mid [] (pad :: (body ++ junk)) hlen

/-- A part moves up over a gap behind it. -/
theorem shiftRight {gap : Bytes} (h : Laid page header (xs ++ (ys ++ gap))) :
    ∃ page' ws, copyWithin page (headerSize + xs.length) (headerSize + xs.length + ys.length)
        (headerSize + xs.length + gap.length) = .ok page' ∧ ws.length = gap.length ∧
      Laid page' header (xs ++ (ws ++ ys)) := by
  have hsize := h.size
  obtain ⟨junk', hat⟩ := h.at_body
  obtain ⟨pad, junk, hdata⟩ := h.data
  rw [List.length_append, List.length_append] at hsize
  have htake : (page.data.drop (headerSize + xs.length)).take
      (headerSize + xs.length + ys.length - (headerSize + xs.length)) = ys := by
    rw [Nat.add_sub_cancel_left, hat.drop, List.append_assoc, List.take_left]
  have hfit : headerSize + xs.length + gap.length + ys.length ≤ pageSize := by omega
  refine ⟨⟨overwrite page.data (headerSize + xs.length + gap.length) ys, ?_⟩,
    (ys ++ gap).take gap.length, ?_, by simp, h.fits, pad, junk, ?_⟩
  · by_cases hys : ys = []
    · rw [hys, overwrite_nil, Page.length]
    · rw [length_overwrite _ _ hys, Page.length, Nat.max_eq_left hfit]
  · rw [copyWithin, if_pos ⟨by omega, by omega⟩, htake, Pages.put, dif_pos hfit]
  · have hsplit : page.data = (headerBytes header ++ [pad] ++ xs) ++ (ys ++ (gap ++ junk)) := by
      simp [hdata]
    have hoff : headerSize + xs.length + gap.length =
        (headerBytes header ++ [pad] ++ xs).length + gap.length := by
      simp [headerSize]
      omega
    show overwrite page.data (headerSize + xs.length + gap.length) ys = _
    rw [hoff, hsplit, shift_right]
    simp

/-- A part moves down over a gap before it. -/
theorem shiftLeft {gap : Bytes} (h : Laid page header (xs ++ (gap ++ ys))) :
    ∃ page', copyWithin page (headerSize + xs.length + gap.length)
        (headerSize + xs.length + gap.length + ys.length) (headerSize + xs.length) = .ok page' ∧
      Laid page' header (xs ++ ys) := by
  have hsize := h.size
  have hbehind : Laid page header ((xs ++ gap) ++ ys) := by rwa [List.append_assoc]
  obtain ⟨junk', hat⟩ := hbehind.at_body
  obtain ⟨pad, junk, hdata⟩ := h.data
  rw [List.length_append, List.length_append] at hsize
  have htake : (page.data.drop (headerSize + xs.length + gap.length)).take
      (headerSize + xs.length + gap.length + ys.length -
        (headerSize + xs.length + gap.length)) = ys := by
    rw [List.length_append, ← Nat.add_assoc] at hat
    rw [Nat.add_sub_cancel_left, hat.drop, List.take_left]
  have hfit : headerSize + xs.length + ys.length ≤ pageSize := by omega
  refine ⟨⟨overwrite page.data (headerSize + xs.length) ys, ?_⟩, ?_, h.fits, pad,
    (gap ++ ys).drop ys.length ++ junk, ?_⟩
  · by_cases hys : ys = []
    · rw [hys, overwrite_nil, Page.length]
    · rw [length_overwrite _ _ hys, Page.length, Nat.max_eq_left hfit]
  · rw [copyWithin, if_pos ⟨by omega, by omega⟩, htake, Pages.put, dif_pos hfit]
  · have hsplit : page.data = (headerBytes header ++ [pad] ++ xs) ++ (gap ++ (ys ++ junk)) := by
      simp [hdata]
    have hoff : headerSize + xs.length = (headerBytes header ++ [pad] ++ xs).length := by
      simp [headerSize]
      omega
    show overwrite page.data (headerSize + xs.length) ys = _
    rw [hoff, hsplit, shift_left]
    simp

/-- Room in the body: what stands behind the place moves up, if there is any. -/
theorem makeRoom (h : Laid page header (xs ++ ys)) {start : Nat} (stop : Nat)
    (hfit : stop + n ≤ pageSize) (hstart : start = headerSize + xs.length)
    (hstop : stop = start + ys.length) :
    ∃ page' gap, (if start < stop then copyWithin page start stop (start + n) else .ok page) =
        .ok page' ∧ gap.length = n ∧ Laid page' header (xs ++ (gap ++ ys)) := by
  subst hstop hstart
  obtain ⟨gap, hgap, hext⟩ := h.extend (n := n) (by rw [List.length_append]; omega)
  by_cases hys : ys = []
  · subst hys
    refine ⟨page, gap, if_neg (by simp), hgap, ?_⟩
    simpa using hext
  · have hpos : 0 < ys.length := List.length_pos_iff.mpr hys
    rw [List.append_assoc] at hext
    obtain ⟨page', ws, hcopy, hws, hlaid⟩ := hext.shiftRight
    rw [hgap] at hcopy hws
    exact ⟨page', ws, by rw [if_pos (by omega), hcopy], hws, hlaid⟩

/-- An entry is written over a gap of its size. -/
theorem putEntry {gap : Bytes} (h : Laid page header (xs ++ (gap ++ zs))) (key : Int64)
    (hgap : gap.length = entrySize data) :
    ∃ page', Pages.putEntry page (headerSize + xs.length) key data = .ok page' ∧
      Laid page' header (xs ++ (encodeEntry (key, data) ++ zs)) := by
  unfold entrySize at hgap
  have hcut : gap = gap.take 8 ++ ((gap.drop 8).take 4 ++ gap.drop 12) := by
    rw [show gap.drop 12 = (gap.drop 8).drop 4 by rw [List.drop_drop], List.take_append_drop,
      List.take_append_drop]
  rw [hcut, List.append_assoc, List.append_assoc] at h
  obtain ⟨page₁, hput₁, h₁⟩ := h.put (keyBytes key)
    (by rw [length_keyBytes, List.length_take]; omega)
  rw [← List.append_assoc] at h₁
  obtain ⟨page₂, hput₂, h₂⟩ := h₁.put (leBytes 4 data.length)
    (by rw [length_leBytes, List.length_take, List.length_drop]; omega)
  rw [← List.append_assoc] at h₂
  obtain ⟨page₃, hput₃, h₃⟩ := h₂.put data (by rw [List.length_drop]; omega)
  simp only [List.length_append, length_keyBytes, length_leBytes] at hput₂ hput₃
  refine ⟨page₃, ?_, by simpa [encodeEntry] using h₃⟩
  rw [Pages.putEntry, hput₁, ok_bind_fault, Nat.add_assoc, hput₂, ok_bind_fault, Nat.add_assoc]
  exact hput₃

/-- The entries of a list are written over a gap of their size. -/
theorem putEntries {gap : Bytes} (h : Laid page header (xs ++ (gap ++ zs)))
    (hgap : gap.length = (entries.flatMap encodeEntry).length) :
    ∃ page', Pages.putEntries page (headerSize + xs.length) entries = .ok page' ∧
      Laid page' header (xs ++ (entries.flatMap encodeEntry ++ zs)) := by
  induction entries generalizing page xs gap with
  | nil =>
      obtain rfl : gap = [] := by simpa using hgap
      exact ⟨page, rfl, h⟩
  | cons e entries ih =>
      obtain ⟨key, data⟩ := e
      rw [List.flatMap_cons, List.length_append, length_encodeEntry] at hgap
      dsimp only at hgap
      rw [← List.take_append_drop (entrySize data) gap, List.append_assoc] at h
      obtain ⟨page₁, hput₁, h₁⟩ := h.putEntry key
        ((List.length_take ..).trans (Nat.min_eq_left (by omega : entrySize data ≤ gap.length)))
      rw [← List.append_assoc] at h₁
      obtain ⟨page₂, hput₂, h₂⟩ := ih h₁ (by rw [List.length_drop]; omega)
      rw [List.length_append, length_encodeEntry] at hput₂
      refine ⟨page₂, ?_, by simpa using h₂⟩
      rw [Pages.putEntries, hput₁, ok_bind_fault, Nat.add_assoc]
      exact hput₂

/-- A key and a child are written over sixteen bytes. -/
theorem putSlot {gap : Bytes} (h : Laid page header (xs ++ (gap ++ zs))) (key : Int64)
    (child : Nat) (hgap : gap.length = 16) :
    ∃ page', Pages.putSlot page (headerSize + xs.length) key child = .ok page' ∧
      Laid page' header (xs ++ (encodeSlot (key, child) ++ zs)) := by
  rw [← List.take_append_drop 8 gap, List.append_assoc] at h
  obtain ⟨page₁, hput₁, h₁⟩ := h.put (keyBytes key)
    (by rw [length_keyBytes, List.length_take]; omega)
  rw [← List.append_assoc] at h₁
  obtain ⟨page₂, hput₂, h₂⟩ := h₁.put (leBytes 8 child)
    (by rw [length_leBytes, List.length_drop]; omega)
  rw [List.length_append, length_keyBytes] at hput₂
  refine ⟨page₂, ?_, by simpa [encodeSlot] using h₂⟩
  rw [Pages.putSlot, hput₁, ok_bind_fault, Nat.add_assoc]
  exact hput₂

theorem putSlots {gap : Bytes} (h : Laid page header (xs ++ (gap ++ zs)))
    (hgap : gap.length = slots.length * 16) :
    ∃ page', Pages.putSlots page (headerSize + xs.length) (slots.map (·.1)) (slots.map (·.2)) =
        .ok page' ∧ Laid page' header (xs ++ (slots.flatMap encodeSlot ++ zs)) := by
  induction slots generalizing page xs gap with
  | nil =>
      obtain rfl : gap = [] := by simpa using hgap
      exact ⟨page, rfl, h⟩
  | cons slot slots ih =>
      obtain ⟨key, child⟩ := slot
      rw [List.length_cons] at hgap
      rw [← List.take_append_drop 16 gap, List.append_assoc] at h
      obtain ⟨page₁, hput₁, h₁⟩ := h.putSlot key child
        (by rw [List.length_take]; omega)
      rw [← List.append_assoc] at h₁
      obtain ⟨page₂, hput₂, h₂⟩ := ih h₁ (by rw [List.length_drop]; omega)
      rw [List.length_append, length_encodeSlot] at hput₂
      refine ⟨page₂, ?_, by simpa using h₂⟩
      rw [List.map_cons, List.map_cons, Pages.putSlots, hput₁, ok_bind_fault, Nat.add_assoc]
      exact hput₂

end Laid

/-! ## Reading what is laid out -/

section Read

variable {bytes rest : Bytes} {first : Nat}

theorem readKey_at (h : At bytes o (keyBytes key ++ rest)) :
    readKey bytes o = .ok key ∧ At bytes (o + 8) rest := by
  obtain ⟨hread, hat⟩ := readLe_at h (UInt64.toNat_lt _)
  refine ⟨?_, hat⟩
  rw [readKey, hread]
  show Except.ok (UInt64.ofNat key.toUInt64.toNat).toInt64 = _
  rw [UInt64.ofNat_toNat, Int64.toInt64_toUInt64]

theorem slice_front (h : At bytes o (xs ++ rest)) :
    slice bytes o xs.length = .ok xs ∧ At bytes (o + xs.length) rest := ⟨slice_at h, h.skip⟩

/-- Key, size and row of an entry, and where the next one is. -/
theorem readEntry_at (h : At bytes o (encodeEntry (key, data) ++ rest))
    (hsize : data.length < 2 ^ 32) :
    readKey bytes o = .ok key ∧ readLe 4 bytes (o + 8) = .ok data.length ∧
      slice bytes (o + 12) data.length = .ok data ∧ At bytes (o + (12 + data.length)) rest := by
  rw [encodeEntry, List.append_assoc, List.append_assoc] at h
  obtain ⟨hkey, h₁⟩ := readKey_at h
  obtain ⟨hlen, h₂⟩ := readLe_at h₁ (by simpa using hsize)
  obtain ⟨hslice, h₃⟩ := slice_front h₂
  exact ⟨hkey, hlen, hslice, by simpa [Nat.add_assoc] using h₃⟩

theorem readSlot_at (h : At bytes o (encodeSlot (key, child) ++ rest)) (hchild : child < 2 ^ 64) :
    readKey bytes o = .ok key ∧ readLe 8 bytes (o + 8) = .ok child ∧ At bytes (o + 16) rest := by
  rw [encodeSlot, List.append_assoc] at h
  obtain ⟨hkey, h₁⟩ := readKey_at h
  obtain ⟨hlen, h₂⟩ := readLe_at h₁ (by simpa using hchild)
  exact ⟨hkey, hlen, by simpa [Nat.add_assoc] using h₂⟩

theorem readEntries_at (h : At bytes o (entries.flatMap encodeEntry ++ rest))
    (hsize : ∀ e ∈ entries, e.2.length < 2 ^ 32) :
    readEntries bytes entries.length o = .ok entries := by
  induction entries generalizing o with
  | nil => rfl
  | cons e entries ih =>
      rw [List.flatMap_cons, List.append_assoc] at h
      obtain ⟨hkey, hlen, hslice, h'⟩ := readEntry_at h (hsize e List.mem_cons_self)
      rw [List.length_cons, readEntries, hkey, ok_bind_fault, hlen, ok_bind_fault, hslice,
        ok_bind_fault, ih h' fun e he => hsize e (List.mem_cons_of_mem _ he)]
      rfl

theorem readSlots_at (h : At bytes o (slots.flatMap encodeSlot ++ rest))
    (hchild : ∀ s ∈ slots, s.2 < 2 ^ 64) : readSlots bytes slots.length o = .ok slots := by
  induction slots generalizing o with
  | nil => rfl
  | cons s slots ih =>
      rw [List.flatMap_cons, List.append_assoc] at h
      obtain ⟨hkey, hlen, h'⟩ := readSlot_at h (hchild s List.mem_cons_self)
      rw [List.length_cons, readSlots, hkey, ok_bind_fault, hlen, ok_bind_fault,
        ih h' fun s hs => hchild s (List.mem_cons_of_mem _ hs)]
      rfl

/-! ### The converses -/

theorem readLe_inv (h : readLe n bytes o = .ok child) :
    child < 256 ^ n ∧ ∃ rest, At bytes o (leBytes n child ++ rest) := by
  by_cases hlen : o + n ≤ bytes.length
  · rw [readLe_ok hlen, Except.ok.injEq] at h
    have htake : ((bytes.drop o).take n).length = n := by
      rw [List.length_take, List.length_drop]
      omega
    have hle := leBytes_leNat ((bytes.drop o).take n)
    have hlt := leNat_lt ((bytes.drop o).take n)
    rw [htake, h] at hle hlt
    exact ⟨hlt, (bytes.drop o).drop n, by omega, by rw [hle, List.take_append_drop]⟩
  · rw [readLe_panic hlen] at h
    cases h

theorem readKey_inv (h : readKey bytes o = .ok key) :
    ∃ rest, At bytes o (keyBytes key ++ rest) := by
  rw [readKey] at h
  rcases hr : readLe 8 bytes o with _ | m
  · rw [hr] at h
    cases h
  · rw [hr] at h
    obtain rfl : (UInt64.ofNat m).toInt64 = key := by simpa using h
    obtain ⟨hlt, rest, hat⟩ := readLe_inv hr
    refine ⟨rest, ?_⟩
    rw [keyBytes, UInt64.toUInt64_toInt64, UInt64.toNat_ofNat_of_lt' (by simpa using hlt)]
    exact hat

/-- What is read one after the other stands one behind the other. -/
theorem At.append (h : At bytes o (xs ++ rest)) (h' : At bytes (o + xs.length) (ys ++ zs)) :
    At bytes o (xs ++ (ys ++ zs)) := by
  have hrest : rest = ys ++ zs := by rw [← h.skip.drop, h'.drop]
  rwa [hrest] at h

theorem slice_inv (h : slice bytes o n = .ok xs) :
    xs.length = n ∧ ∃ rest, At bytes o (xs ++ rest) := by
  by_cases hlen : o + n ≤ bytes.length
  · rw [slice_ok hlen, Except.ok.injEq] at h
    subst h
    refine ⟨?_, (bytes.drop o).drop n, by omega, (List.take_append_drop ..).symm⟩
    rw [List.length_take, List.length_drop]
    omega
  · rw [slice_panic hlen] at h
    cases h

theorem bind_eq_ok_fault {α β : Type} {r : Except Fault α} {f : α → Except Fault β} {b : β} :
    (r >>= f) = .ok b ↔ ∃ a, r = .ok a ∧ f a = .ok b := by
  cases r with
  | error e => exact ⟨nofun, fun ⟨_, h, _⟩ => nomatch h⟩
  | ok a => exact ⟨fun h => ⟨a, rfl, h⟩, fun ⟨_, h, h'⟩ => by cases h; exact h'⟩

theorem readEntries_inv (ho : o ≤ bytes.length) (h : readEntries bytes n o = .ok entries) :
    entries.length = n ∧ (∀ e ∈ entries, e.2.length < 2 ^ 32) ∧
      ∃ rest, At bytes o (entries.flatMap encodeEntry ++ rest) := by
  induction n generalizing o entries with
  | zero =>
      obtain rfl : [] = entries := by simpa [readEntries] using h
      exact ⟨rfl, nofun, bytes.drop o, ho, rfl⟩
  | succ n ih =>
      rw [readEntries] at h
      obtain ⟨key, hkey, h⟩ := bind_eq_ok_fault.mp h
      obtain ⟨size, hsize, h⟩ := bind_eq_ok_fault.mp h
      obtain ⟨data, hdata, h⟩ := bind_eq_ok_fault.mp h
      obtain ⟨tail, htail, h⟩ := bind_eq_ok_fault.mp h
      obtain rfl : (key, data) :: tail = entries := Except.ok.inj h
      obtain ⟨r₁, h₁⟩ := readKey_inv hkey
      obtain ⟨hlt, r₂, h₂⟩ := readLe_inv hsize
      obtain ⟨hlen, r₃, h₃⟩ := slice_inv hdata
      obtain ⟨hn, hsizes, r₄, h₄⟩ := ih (by rw [h₃.length, List.length_append]; omega) htail
      subst hlen
      refine ⟨by rw [List.length_cons, hn], ?_, r₄, ?_⟩
      · intro e he
        rcases List.mem_cons.mp he with rfl | he
        · simpa using hlt
        · exact hsizes e he
      · rw [← Nat.add_assoc] at h₄
        have h₃₄ := At.append h₃ h₄
        rw [show o + 12 = o + 8 + (leBytes 4 data.length).length by simp] at h₃₄
        have h₂₄ := At.append h₂ h₃₄
        rw [← length_keyBytes key] at h₂₄
        have h₁₄ := At.append h₁ h₂₄
        simpa [encodeEntry] using h₁₄

theorem readSlots_inv (ho : o ≤ bytes.length) (h : readSlots bytes n o = .ok slots) :
    slots.length = n ∧ (∀ s ∈ slots, s.2 < 2 ^ 64) ∧
      ∃ rest, At bytes o (slots.flatMap encodeSlot ++ rest) := by
  induction n generalizing o slots with
  | zero =>
      obtain rfl : [] = slots := by simpa [readSlots] using h
      exact ⟨rfl, nofun, bytes.drop o, ho, rfl⟩
  | succ n ih =>
      rw [readSlots] at h
      obtain ⟨key, hkey, h⟩ := bind_eq_ok_fault.mp h
      obtain ⟨child, hchild, h⟩ := bind_eq_ok_fault.mp h
      obtain ⟨tail, htail, h⟩ := bind_eq_ok_fault.mp h
      obtain rfl : (key, child) :: tail = slots := Except.ok.inj h
      obtain ⟨r₁, h₁⟩ := readKey_inv hkey
      obtain ⟨hlt, r₂, h₂⟩ := readLe_inv hchild
      have hend := h₂.length
      rw [List.length_append, length_leBytes] at hend
      obtain ⟨hn, hchildren, r₃, h₃⟩ := ih (by omega) htail
      refine ⟨by rw [List.length_cons, hn], ?_, r₃, ?_⟩
      · intro s hs
        rcases List.mem_cons.mp hs with rfl | hs
        · simpa using hlt
        · exact hchildren s hs
      · rw [show o + 16 = o + 8 + (leBytes 8 child).length by simp] at h₃
        have h₂₃ := At.append h₂ h₃
        rw [← length_keyBytes key] at h₂₃
        have h₁₃ := At.append h₁ h₂₃
        simpa [encodeSlot] using h₁₃

end Read

/-! ## The node in a page -/

/-- The node the code reads out of a page; `none` where its loops leave the page. -/
def readNodeOf (page : Page) : Except Fault Node := do
  let header ← NodeHeader.deserialize page.data
  if header.nodeType = 1 then do
    let entries ← readEntries page.data header.numKeys headerSize
    return .leaf header.parent entries
  else do
    let first ← readLe 8 page.data headerSize
    let slots ← readSlots page.data header.numKeys (headerSize + 8)
    return .internal header.parent first slots

/-- `readNodeOf`, if it succeeds. -/
def nodeOf (page : Page) : Option Node :=
  match readNodeOf page with
  | .ok node => some node
  | .error _ => none

/-- The page is laid out as the node. -/
inductive Image (page : Page) : Node → Prop
  | leaf {parent : Nat} {entries : List Entry} :
      Laid page ⟨1, entries.length, parent⟩ (entries.flatMap encodeEntry) →
      Image page (.leaf parent entries)
  | internal {tag parent first : Nat} {slots : List Slot} (htag : tag ≠ 1) (hfirst : first < 2 ^ 64)
      (hslots : ∀ s ∈ slots, s.2 < 2 ^ 64) :
      Laid page ⟨tag, slots.length, parent⟩ (leBytes 8 first ++ slots.flatMap encodeSlot) →
      Image page (.internal parent first slots)

/-- Entries in a page have sizes four bytes can hold. -/
theorem Laid.sizes (h : Laid page header (entries.flatMap encodeEntry)) :
    ∀ e ∈ entries, e.2.length < 2 ^ 32 := by
  intro e he
  have hsize := h.size
  have hle : entrySize e.2 ≤ (entries.flatMap encodeEntry).length := by
    rw [List.length_flatMap]
    exact List.le_sum_of_mem (List.mem_map.mpr ⟨e, he, length_encodeEntry e⟩)
  have := pageSize_eq
  unfold entrySize at hle
  omega

theorem Laid.readEntries (h : Laid page header (entries.flatMap encodeEntry)) :
    Pages.readEntries page.data entries.length headerSize = .ok entries := by
  obtain ⟨junk, hat⟩ := h.at_start
  exact readEntries_at hat h.sizes

theorem Laid.readFirst {first : Nat} (h : Laid page header (leBytes 8 first ++ xs))
    (hfirst : first < 2 ^ 64) : readLe 8 page.data headerSize = .ok first := by
  obtain ⟨junk, hat⟩ := h.at_start
  rw [List.append_assoc] at hat
  exact (readLe_at hat (by simpa using hfirst)).1

theorem Laid.readSlots {first : Nat}
    (h : Laid page header (leBytes 8 first ++ slots.flatMap encodeSlot))
    (hslots : ∀ s ∈ slots, s.2 < 2 ^ 64) :
    Pages.readSlots page.data slots.length (headerSize + 8) = .ok slots := by
  obtain ⟨junk, hat⟩ := h.at_body
  rw [length_leBytes] at hat
  exact readSlots_at hat hslots

theorem deserialize_laid (page : Page) : ∃ header, NodeHeader.deserialize page.data = .ok header ∧
    Laid page header [] := by
  have hlen := Page.length page
  have hsize := pageSize_eq
  have hread : ∀ n o, o + n ≤ 7 → ∃ v rest, readLe n page.data o = .ok v ∧ v < 256 ^ n ∧
      At page.data o (leBytes n v ++ rest) := by
    intro n o ho
    have hok : readLe n page.data o = .ok (leNat ((page.data.drop o).take n)) :=
      readLe_ok (by omega)
    obtain ⟨hlt, rest, hat⟩ := readLe_inv hok
    exact ⟨_, rest, hok, hlt, hat⟩
  obtain ⟨nodeType, r₁, hr₁, hl₁, h₁⟩ := hread 1 0 (by omega)
  obtain ⟨numKeys, r₂, hr₂, hl₂, h₂⟩ := hread 2 1 (by omega)
  obtain ⟨parent, r₃, hr₃, hl₃, h₃⟩ := hread 4 3 (by omega)
  refine ⟨⟨nodeType, numKeys, parent⟩, ?_, ⟨hl₁, hl₂, hl₃⟩, ?_⟩
  · rw [NodeHeader.deserialize, if_neg (by rw [hlen, hsize]; decide), hr₁, ok_bind_fault, hr₂,
      ok_bind_fault, hr₃]
    rfl
  · rw [show (3 : Nat) = 1 + (leBytes 2 numKeys).length by simp] at h₃
    have h₂₃ := At.append h₂ h₃
    rw [show (1 : Nat) = 0 + (leBytes 1 nodeType).length by simp] at h₂₃
    have h₁₃ := At.append h₁ h₂₃
    have hcut := h₁₃.length
    simp only [List.length_append, length_leBytes] at hcut
    obtain ⟨pad, junk, hrest⟩ : ∃ pad junk, r₃ = pad :: junk :=
      List.exists_cons_of_length_pos (by omega)
    refine ⟨pad, junk, ?_⟩
    have hdata := h₁₃.drop
    rw [List.drop_zero, hrest] at hdata
    rw [hdata, headerBytes]
    simp

/-- Behind the header stands the body. -/
theorem Laid.grow (h : Laid page header []) (hat : At page.data headerSize (xs ++ ys)) :
    Laid page header xs := by
  obtain ⟨pad, junk, hdata⟩ := h.data
  obtain ⟨junk', hat'⟩ := h.at_start
  refine ⟨h.fits, pad, ys, ?_⟩
  have hjunk : junk = xs ++ ys := by
    have hdrop := hat.drop
    rw [hdata, List.nil_append, show headerSize = (headerBytes header ++ [pad]).length by simp,
      show headerBytes header ++ pad :: junk = (headerBytes header ++ [pad]) ++ junk by simp,
      List.drop_left] at hdrop
    exact hdrop
  rw [hdata, List.nil_append, hjunk]

/-- The loops of the code read the node that the page is laid out as, and no other. -/
theorem nodeOf_eq_some {node : Node} : nodeOf page = some node ↔ Image page node := by
  constructor
  · intro h
    obtain ⟨header, hhead, hlaid⟩ := deserialize_laid page
    have hread : readNodeOf page = .ok node := by
      unfold nodeOf at h
      split at h
      · rename_i hr
        cases h
        exact hr
      · cases h
    have hend : headerSize + 8 ≤ page.data.length := by
      rw [Page.length, pageSize_eq]
      decide
    rw [readNodeOf, hhead, ok_bind_fault] at hread
    split at hread
    · rename_i htype
      obtain ⟨entries, hentries, hok⟩ := bind_eq_ok_fault.mp hread
      obtain rfl : Node.leaf header.parent entries = node := Except.ok.inj hok
      obtain ⟨hn, -, rest, hat⟩ := readEntries_inv (by omega) hentries
      refine .leaf ?_
      rw [hn, ← htype]
      exact hlaid.grow hat
    · rename_i htype
      obtain ⟨first, hfirst, hok⟩ := bind_eq_ok_fault.mp hread
      obtain ⟨slots, hslots, hok⟩ := bind_eq_ok_fault.mp hok
      obtain rfl : Node.internal header.parent first slots = node := Except.ok.inj hok
      obtain ⟨hlt, rest, hat⟩ := readLe_inv hfirst
      obtain ⟨hn, hchildren, rest', hat'⟩ := readSlots_inv hend hslots
      refine .internal htype (by simpa using hlt) hchildren ?_
      rw [hn]
      rw [show headerSize + 8 = headerSize + (leBytes 8 first).length by simp] at hat'
      have hall := At.append hat hat'
      rw [← List.append_assoc] at hall
      exact hlaid.grow hall
  · intro h
    have hread : readNodeOf page = .ok node := by
      cases h with
      | leaf h =>
          rw [readNodeOf, h.deserialize, ok_bind_fault, if_pos rfl]
          dsimp only
          rw [h.readEntries]
          rfl
      | internal htag hfirst hslots h =>
          rw [readNodeOf, h.deserialize, ok_bind_fault, if_neg htag, h.readFirst hfirst,
            ok_bind_fault]
          dsimp only
          rw [h.readSlots hslots]
          rfl
    rw [nodeOf, hread]

/-! ### Pages made from zeros -/

theorem length_le_of_fit (h : dataEnd entries ≤ pageSize) : entries.length < 2 ^ 16 := by
  have hle : entries.length ≤ (entries.flatMap encodeEntry).length := by
    clear h
    induction entries with
    | nil => exact Nat.le_refl _
    | cons e entries ih =>
        rw [List.flatMap_cons, List.length_append, length_encodeEntry, entrySize, List.length_cons]
        omega
  have hend := length_encodeEntries entries
  have := pageSize_eq
  omega

/-- A leaf page. -/
theorem exists_leafPage {parent : Nat} (hfit : dataEnd entries ≤ pageSize)
    (hparent : parent < 2 ^ 32) : ∃ page₁ page₂,
    Pages.putEntries Page.new headerSize entries = .ok page₁ ∧
      NodeHeader.serialize ⟨1, entries.length, parent⟩ page₁ = .ok page₂ ∧
      Image page₂ (.leaf parent entries) := by
  have hend := length_encodeEntries entries
  obtain ⟨gap, hgap, h₀⟩ := laid_new.extend (n := (entries.flatMap encodeEntry).length) <| by
    rw [List.length_nil]
    omega
  have h₀' : Laid Page.new ⟨0, 0, 0⟩ ([] ++ (gap ++ [])) := by simpa using h₀
  obtain ⟨page₁, hput, h₁⟩ := h₀'.putEntries hgap
  obtain ⟨page₂, hser, h₂⟩ := h₁.serialize ⟨1, entries.length, parent⟩
    ⟨(by decide : 1 < 2 ^ 8), length_le_of_fit hfit, hparent⟩
  exact ⟨page₁, page₂, hput, hser, .leaf (by simpa using h₂)⟩

/-- An internal page, up to its slots. -/
theorem exists_internalPage {tag parent : Nat} (first : Nat) (htag : tag < 2 ^ 8)
    (hn : headerSize + 8 + n * 16 ≤ pageSize) (hparent : parent < 2 ^ 32) : ∃ page₁ page₂ gap,
    NodeHeader.serialize ⟨tag, n, parent⟩ Page.new = .ok page₁ ∧
      Pages.put page₁ headerSize (leBytes 8 first) = .ok page₂ ∧ gap.length = n * 16 ∧
      Laid page₂ ⟨tag, n, parent⟩ (leBytes 8 first ++ gap) := by
  have hsize := pageSize_eq
  obtain ⟨page₁, hser, h₁⟩ := laid_new.serialize ⟨tag, n, parent⟩
    ⟨htag, (by omega : n < 2 ^ 16), hparent⟩
  obtain ⟨gap, hgap, h₂⟩ := h₁.extend (n := 8 + n * 16) (by rw [List.length_nil]; omega)
  rw [List.nil_append, ← List.take_append_drop 8 gap] at h₂
  have h₂' : Laid page₁ ⟨tag, n, parent⟩ ([] ++ (gap.take 8 ++ gap.drop 8)) := h₂
  obtain ⟨page₂, hput, h₃⟩ := h₂'.put (leBytes 8 first)
    (by rw [length_leBytes, List.length_take]; omega)
  exact ⟨page₁, page₂, gap.drop 8, hser, hput, by rw [List.length_drop]; omega, h₃⟩

theorem newInternal_image {tag parent : Nat} (first : Nat) (slots : List Slot) (htag : tag ≠ 1)
    (hlt : tag < 2 ^ 8) (hn : headerSize + 8 + slots.length * 16 ≤ pageSize)
    (hparent : parent < 2 ^ 32) (hfirst : first < 2 ^ 64) (hslots : ∀ s ∈ slots, s.2 < 2 ^ 64) (m : Nat) : ∃ page,
    newInternal ⟨tag, m, parent⟩ (slots.map (·.1)) (first :: slots.map (·.2)) = .ok page ∧
      Image page (.internal parent first slots) := by
  obtain ⟨page₁, page₂, gap, hser, hput, hgap, h₂⟩ := exists_internalPage first hlt hn hparent
  have h₂' : Laid page₂ ⟨tag, slots.length, parent⟩ (leBytes 8 first ++ (gap ++ [])) := by
    simpa using h₂
  obtain ⟨page₃, hputs, h₃⟩ := h₂'.putSlots hgap
  rw [length_leBytes] at hputs
  refine ⟨page₃, ?_, .internal htag hfirst hslots (by simpa using h₃)⟩
  rw [newInternal, List.length_map, hser, ok_bind_fault, hput, ok_bind_fault]
  exact hputs

theorem image_new : Image Page.new .zero := by
  have h : Laid Page.new ⟨0, 0, 0⟩ [] := laid_new
  obtain ⟨gap, hgap, hlaid⟩ := h.extend (n := 8) (by rw [pageSize_eq]; decide)
  refine .internal (show 0 ≠ 1 by decide) (by decide) nofun ?_
  have hzero : gap = leBytes 8 0 := by
    obtain ⟨pad, junk, hdata⟩ := hlaid.data
    have hnew : headerBytes ⟨0, 0, 0⟩ ++ pad :: ([] ++ gap ++ junk) = List.replicate pageSize 0 :=
      hdata.symm
    have hall : ∀ b ∈ gap, b = 0 := fun b hb =>
      List.eq_of_mem_replicate (hnew ▸ (by simp [hb] : b ∈ headerBytes ⟨0, 0, 0⟩ ++
        pad :: ([] ++ gap ++ junk)))
    rw [List.eq_replicate_of_mem hall, hgap, leBytes_zero]
  simpa [hzero] using hlaid

end VelociDB.BTree.Pages
