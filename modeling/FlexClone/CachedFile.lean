import FlexClone.ByteFile

/-!
# Files behind a page cache

Some pages of a file are in memory and up to date. `file` is what a reader finds,
in memory first; `disk` is what is below. A page that is not in memory reads as
the disk does, which is the invariant every `CachedFile` carries.

* `byteAt_put`, `byteAt_clear`: what writing and clearing do to every cell.
* `load`: reading a page into memory is invisible.
* `sync`: some pages are written to the disk.
* `drop`: a page leaves the memory, and what is on the disk shows again.
-/

namespace FlexClone

variable {β : Type*} [Inhabited β]

/-- The cell that writing the run `bs` at `pos` puts at `x`. -/
def landsAt (pos : Nat) (bs : List β) (x : Nat) : Option β :=
  if pos ≤ x then bs[x - pos]? else none

omit [Inhabited β] in
@[simp] theorem landsAt_nil (pos x : Nat) : landsAt pos ([] : List β) x = none :=
  ite_self _

omit [Inhabited β] in
/-- A run that is put in place in two parts. -/
theorem landsAt_append (pos : Nat) (as bs : List β) (x : Nat) :
    landsAt pos (as ++ bs) x = (landsAt (pos + as.length) bs x).or (landsAt pos as x) := by
  unfold landsAt
  by_cases second : pos + as.length ≤ x
  · have past : as.length ≤ x - pos := by omega
    rw [if_pos second, if_pos (by omega), if_pos (by omega), List.getElem?_append_right past,
      List.getElem?_eq_none past, Option.or_none, Nat.sub_add_eq]
  · rw [if_neg second, Option.none_or]
    split
    case isTrue lower => rw [List.getElem?_append_left (by omega)]
    case isFalse => rfl

theorem ByteFile.byteAt_put (f : ByteFile β) (pos : Nat) (bs : List β) (x : Nat) :
    (f.put pos bs).byteAt x = (landsAt pos bs x).getD (f.byteAt x) := by
  unfold landsAt
  split
  case isTrue lower =>
    by_cases upper : x - pos < bs.length
    · rw [byteAt_put_of_hit f lower (by omega), List.getD_eq_getElem?_getD,
        List.getElem?_eq_getElem upper]
      rfl
    · rw [byteAt_put_of_miss f (by omega), List.getElem?_eq_none (by omega)]
      rfl
  case isFalse below => exact byteAt_put_of_miss f (by omega)

/-- The page of an offset in it. -/
theorem page_of_offset {n p i : Nat} (inside : i < n) : (p * n + i) / n = p := by
  rw [Nat.mul_comm, Nat.mul_add_div (by omega), Nat.div_eq_of_lt inside, Nat.add_zero]

/-- A file with pages of `n` cells, some of them in memory. -/
structure CachedFile (β : Type*) [Inhabited β] (n : Nat) where
  file : ByteFile β
  /-- the page is in memory and up to date -/
  cached : Nat → Bool
  disk : ByteFile β
  cold : ∀ x, cached (x / n) = false → file.byteAt x = disk.byteAt x

namespace CachedFile

variable {n : Nat}

/-- A page is read into memory. -/
def load (f : CachedFile β n) (page : Nat) : CachedFile β n where
  file := f.file
  cached := Function.update f.cached page true
  disk := f.disk
  cold x out := by
    rw [Function.update_apply] at out
    split at out
    · cases out
    · exact f.cold x out

/-- A page in memory is cleared and passes for up to date. -/
def clear (f : CachedFile β n) (page : Nat) : CachedFile β n where
  file := ⟨f.file.size, fun x => if x / n = page then default else f.file.cell x⟩
  cached := Function.update f.cached page true
  disk := f.disk
  cold x out := by
    rw [Function.update_apply] at out
    split at out
    case isTrue => cases out
    case isFalse other =>
      rw [← f.cold x out]
      unfold ByteFile.byteAt
      dsimp only
      rw [if_neg other]

/-- A run of cells is written through memory. -/
def put (f : CachedFile β n) (pos : Nat) (bs : List β) : CachedFile β n :=
  if bs = [] then f
  else
    { file := f.file.put pos bs
      cached := fun page =>
        f.cached page || decide (pos / n ≤ page ∧ page ≤ (pos + bs.length - 1) / n)
      disk := f.disk
      cold := by
        intro x out
        obtain ⟨before, outside⟩ := Bool.or_eq_false_iff.mp out
        rw [ByteFile.byteAt_put_of_miss, f.cold x before]
        by_contra inside
        refine of_decide_eq_false outside ⟨Nat.div_le_div_right ?_, Nat.div_le_div_right ?_⟩
        · omega
        · omega }

/-- Some pages are written to the disk. -/
def sync (f : CachedFile β n) (pages : Finset Nat) : CachedFile β n where
  file := f.file
  cached := f.cached
  disk := f.disk.patch f.file (· / n ∈ pages)
  cold x out := by rw [ByteFile.byteAt_patch, f.cold x out, ite_self]

/-- A page leaves the memory. -/
def drop (f : CachedFile β n) (page : Nat) : CachedFile β n where
  file := f.file.patch f.disk (· / n = page)
  cached := Function.update f.cached page false
  disk := f.disk
  cold x out := by
    rw [ByteFile.byteAt_patch]
    split
    case isTrue => rfl
    case isFalse other =>
      rw [Function.update_of_ne other] at out
      exact f.cold x out

/-- What is seen, what is in memory and what is below say everything. -/
theorem eq_of_parts {f g : CachedFile β n} (file : f.file = g.file) (cached : f.cached = g.cached)
    (disk : f.disk = g.disk) : f = g := by
  cases f
  cases g
  cases file
  cases cached
  cases disk
  rfl

@[simp] theorem file_load (f : CachedFile β n) (page : Nat) : (f.load page).file = f.file := rfl

@[simp] theorem size_clear (f : CachedFile β n) (page : Nat) :
    (f.clear page).file.size = f.file.size := rfl

theorem byteAt_clear (f : CachedFile β n) (page x : Nat) :
    (f.clear page).file.byteAt x = if x / n = page then default else f.file.byteAt x := by
  unfold clear ByteFile.byteAt
  dsimp only
  split <;> split <;> rfl

theorem size_le_put (f : CachedFile β n) (pos : Nat) (bs : List β) :
    f.file.size ≤ (f.put pos bs).file.size := by
  unfold put
  split
  · exact le_rfl
  · exact le_max_left _ _

theorem byteAt_put (f : CachedFile β n) (pos : Nat) (bs : List β) (x : Nat) :
    (f.put pos bs).file.byteAt x = (landsAt pos bs x).getD (f.file.byteAt x) := by
  unfold put
  split
  case isTrue empty =>
    rw [empty, landsAt_nil]
    rfl
  case isFalse => exact f.file.byteAt_put pos bs x

theorem byteAt_sync (f : CachedFile β n) (pages : Finset Nat) (x : Nat) :
    (f.sync pages).disk.byteAt x =
      if x / n ∈ pages then f.file.byteAt x else f.disk.byteAt x :=
  ByteFile.byteAt_patch ..

theorem byteAt_drop (f : CachedFile β n) (page x : Nat) :
    (f.drop page).file.byteAt x = if x / n = page then f.disk.byteAt x else f.file.byteAt x :=
  ByteFile.byteAt_patch ..

end CachedFile

end FlexClone
