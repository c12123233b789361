/-
# A file and what a crash may leave of it

`DiskFile` pairs the contents every reader sees (`now`) with the contents the medium
may hold if power is lost at this instant (`after`).  `sync` makes the two agree.
Between two syncs the set `after` grows, by one of two disciplines:

    writeTorn      pages of a file written in place: each unsynced write reaches the
                   medium or not, independently of the others, and any byte of it
                   may be old or new
    writeOrdered   a log: an unsynced write reaches the medium as some initial part
                   of its bytes, and not before the writes issued ahead of it
    setLen         atomic: before or after, never in between

A crash inside a write needs no rule of its own: every partial effect is already in
`after` once the write has been issued.
-/
import VelociDB.Lib.Bytes

open Bytes

/-- A file: what is read now, and what may be found after a crash. -/
structure DiskFile where
  now : Bytes
  after : Set Bytes

namespace DiskFile

/-- A file whose contents are on the medium. -/
def stable (f : Bytes) : DiskFile := ⟨f, {f}⟩

/-- Everything written so far reaches the medium. -/
def sync (f : DiskFile) : DiskFile := stable f.now

/-- `g` is `f` with some bytes of the write of `bs` at `o` done. -/
def Torn (o : Nat) (bs f g : Bytes) : Prop :=
  f.length ≤ g.length ∧ g.length ≤ max f.length (o + bs.length) ∧
    ∀ i, byteAt g i = byteAt f i ∨
      (o ≤ i ∧ i < o + bs.length ∧ byteAt g i = byteAt bs (i - o))

/-- An in-place write. -/
def writeTorn (f : DiskFile) (o : Nat) (bs : Bytes) : DiskFile :=
  ⟨overwrite f.now o bs, {g | ∃ f₀ ∈ f.after, Torn o bs f₀ g}⟩

/-- A write to a log. -/
def writeOrdered (f : DiskFile) (o : Nat) (bs : Bytes) : DiskFile :=
  ⟨overwrite f.now o bs, f.after ∪ {g | ∃ n, g = overwrite f.now o (bs.take n)}⟩

/-- Cut or extend to `n` bytes. -/
def setLen (f : DiskFile) (n : Nat) : DiskFile :=
  ⟨resize f.now n, f.after ∪ {resize f.now n}⟩

@[simp] theorem stable_now (f : Bytes) : (stable f).now = f := rfl
@[simp] theorem stable_after (f : Bytes) : (stable f).after = {f} := rfl
@[simp] theorem sync_now (f : DiskFile) : f.sync.now = f.now := rfl
@[simp] theorem sync_after (f : DiskFile) : f.sync.after = {f.now} := rfl
@[simp] theorem writeTorn_now (f : DiskFile) (o : Nat) (bs : Bytes) :
    (f.writeTorn o bs).now = overwrite f.now o bs := rfl
@[simp] theorem writeOrdered_now (f : DiskFile) (o : Nat) (bs : Bytes) :
    (f.writeOrdered o bs).now = overwrite f.now o bs := rfl
@[simp] theorem setLen_now (f : DiskFile) (n : Nat) : (f.setLen n).now = resize f.now n := rfl

theorem torn_overwrite (o : Nat) (bs f : Bytes) : Torn o bs f (overwrite f o bs) := by
  by_cases hbs : bs = []
  · subst hbs
    simp [Torn]
  · rw [Torn, length_overwrite f o hbs]
    refine ⟨le_max_left _ _, le_refl _, fun i => ?_⟩
    rw [byteAt_overwrite]
    by_cases h : o ≤ i ∧ i < o + bs.length
    · exact Or.inr ⟨h.1, h.2, if_pos h⟩
    · exact Or.inl (if_neg h)

/-- What is read now stays among what a crash may leave. -/
theorem writeTorn_consistent {f : DiskFile} (h : f.now ∈ f.after) (o : Nat) (bs : Bytes) :
    (f.writeTorn o bs).now ∈ (f.writeTorn o bs).after :=
  ⟨f.now, h, torn_overwrite o bs f.now⟩

end DiskFile
