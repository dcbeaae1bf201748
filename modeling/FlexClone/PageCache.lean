import FlexClone.CachedFile

/-!
# The pages behind a cached file

A `CachedFile` says which pages are in memory and what a reader finds. Here the pages
are there one by one: a page is absent, present without being up to date, or up to date
with its cells. Memory and disk have default cells from the end of the file on, which
is the invariant of a `PageCache`.

* `install`: a page is up to date from now on, with cells of its own, and the file may
  have grown.
* `copyIn`: cells are copied into a page in memory.
* `reclaim`: a page is written to the disk and leaves the memory, which no reader sees.
* `toCachedFile`: what a reader sees of it.
-/

namespace FlexClone

/-- What there is of a page in memory. -/
inductive PageState (β : Type*)
  | absent
  | notUptodate
  | uptodate (content : Nat → β)

namespace PageState

variable {β : Type*}

/-- The cells of a page that is up to date. -/
def content? : PageState β → Option (Nat → β)
  | .uptodate content => some content
  | .absent | .notUptodate => none

end PageState

/-- A file by its pages of `n` cells in memory and the disk below. -/
structure PageCache (β : Type*) [Inhabited β] (n : Nat) where
  size : Nat
  page : Nat → PageState β
  disk : ByteFile β
  pageTail : ∀ p content, (page p).content? = some content →
    ∀ i < n, size ≤ p * n + i → content i = default
  diskTail : ∀ x, size ≤ x → disk.byteAt x = default

namespace PageCache

variable {β : Type*} [Inhabited β] {n : Nat}

/-- The cell of the file at `x`. -/
def byteAt (f : PageCache β n) (x : Nat) : β :=
  if x < f.size then
    match (f.page (x / n)).content? with
    | some content => content (x % n)
    | none => f.disk.byteAt x
  else default

/-- The page is in memory and up to date. -/
def isUptodate (f : PageCache β n) (p : Nat) : Bool := (f.page p).content?.isSome

/-- A page becomes up to date with the cells given, in a file that may have grown. -/
def install (f : PageCache β n) (p : Nat) (content : Nat → β) (size : Nat)
    (grows : f.size ≤ size) (tail : ∀ i < n, size ≤ p * n + i → content i = default) :
    PageCache β n where
  size := size
  page := Function.update f.page p (.uptodate content)
  disk := f.disk
  pageTail q content' found i inside past := by
    rw [Function.update_apply] at found
    split at found
    case isTrue same =>
      cases found
      rw [same] at past
      exact tail i inside past
    case isFalse => exact f.pageTail q content' found i inside (le_trans grows past)
  diskTail x past := f.diskTail x (le_trans grows past)

theorem byteAt_of_size_le {f : PageCache β n} {x : Nat} (past : f.size ≤ x) :
    f.byteAt x = default := if_neg (Nat.not_lt.mpr past)

/-- Where no page is up to date the disk is read. -/
theorem byteAt_of_not_uptodate {f : PageCache β n} {x : Nat}
    (out : (f.page (x / n)).content? = none) : f.byteAt x = f.disk.byteAt x := by
  unfold byteAt
  rw [out]
  split
  case isTrue => rfl
  case isFalse outside => exact (f.diskTail x (Nat.not_lt.mp outside)).symm

/-- The cells of a page that is up to date are those of the file. -/
theorem byteAt_of_uptodate {f : PageCache β n} {p i : Nat} {content : Nat → β}
    (found : (f.page p).content? = some content) (inside : i < n) :
    f.byteAt (p * n + i) = content i := by
  have rest : (p * n + i) % n = i := by
    rw [Nat.mul_comm, Nat.mul_add_mod, Nat.mod_eq_of_lt inside]
  unfold byteAt
  rw [page_of_offset inside, found, rest]
  split
  case isTrue => rfl
  case isFalse past => exact (f.pageTail p content found i inside (Nat.not_lt.mp past)).symm

/-- What the file reads as once a page has been installed. -/
theorem byteAt_install (positive : 0 < n) (f : PageCache β n) (p : Nat) (content : Nat → β)
    {size : Nat} (grows : f.size ≤ size)
    (tail : ∀ i < n, size ≤ p * n + i → content i = default) (x : Nat) :
    (f.install p content size grows tail).byteAt x =
      if x / n = p then content (x % n) else f.byteAt x := by
  have split_eq : x / n * n + x % n = x := Nat.div_add_mod' x n
  by_cases here : x / n = p
  · have found : ((f.install p content size grows tail).page (x / n)).content? = some content := by
      unfold install
      dsimp only
      rw [here, Function.update_self]
      rfl
    rw [if_pos here, ← byteAt_of_uptodate found (Nat.mod_lt x positive), split_eq]
  · have same : (f.install p content size grows tail).page (x / n) = f.page (x / n) :=
      Function.update_of_ne here _ _
    rw [if_neg here]
    cases found : (f.page (x / n)).content? with
    | some content' =>
        rw [← split_eq, byteAt_of_uptodate found (Nat.mod_lt x positive)]
        exact byteAt_of_uptodate (by rw [same]; exact found) (Nat.mod_lt x positive)
    | none =>
        rw [byteAt_of_not_uptodate found]
        exact byteAt_of_not_uptodate (by rw [same]; exact found)

theorem isUptodate_install (f : PageCache β n) (p : Nat) (content : Nat → β) {size : Nat}
    (grows : f.size ≤ size) (tail : ∀ i < n, size ≤ p * n + i → content i = default) :
    (f.install p content size grows tail).isUptodate = Function.update f.isUptodate p true := by
  funext q
  unfold isUptodate install
  dsimp only
  rw [Function.update_apply, Function.update_apply]
  split <;> rfl

/-- A run of cells is copied into a page that is up to date, and the file grows to hold
it. -/
def copyIn (f : PageCache β n) (p start : Nat) (bs : List β) : PageCache β n :=
  match found : (f.page p).content? with
  | none => f
  | some content =>
      f.install p (fun i => (landsAt start bs i).getD (content i))
        (max f.size (p * n + start + bs.length)) (le_max_left _ _) (by
          intro i inside past
          have after : bs.length ≤ i - start := by omega
          have missed : landsAt start bs i = none := by
            unfold landsAt
            rw [List.getElem?_eq_none after, ite_self]
          rw [missed]
          exact f.pageTail p content found i inside (by omega))

theorem byteAt_copyIn_of_lt {f : PageCache β n} {p start x : Nat} (bs : List β)
    (positive : 0 < n) (before : x < p * n + start) :
    (f.copyIn p start bs).byteAt x = f.byteAt x := by
  unfold copyIn
  split
  case h_1 => rfl
  case h_2 content found =>
    rw [byteAt_install positive]
    split
    case isFalse => rfl
    case isTrue here =>
      have split_eq : x / n * n + x % n = x := Nat.div_add_mod' x n
      rw [here] at split_eq
      have missed : landsAt start bs (x % n) = none := if_neg (by omega)
      rw [missed, ← split_eq, byteAt_of_uptodate found (Nat.mod_lt x positive),
        Nat.mul_comm, Nat.mul_add_mod, Nat.mod_mod]
      rfl

/-- A page is written to the disk and leaves the memory. -/
def reclaim (f : PageCache β n) (p : Nat) : PageCache β n where
  size := f.size
  page := Function.update f.page p .absent
  disk := ⟨f.size, fun x => if x / n = p then f.byteAt x else f.disk.byteAt x⟩
  pageTail q content found i inside past := by
    rw [Function.update_apply] at found
    split at found
    case isTrue => cases found
    case isFalse => exact f.pageTail q content found i inside past
  diskTail _ past := ByteFile.byteAt_of_size_le past

theorem byteAt_reclaim (f : PageCache β n) (p x : Nat) : (f.reclaim p).byteAt x = f.byteAt x := by
  by_cases inside : x < f.size
  · have disk : (f.reclaim p).disk.byteAt x = if x / n = p then f.byteAt x else f.disk.byteAt x :=
      if_pos inside
    by_cases here : x / n = p
    · have gone : ((f.reclaim p).page (x / n)).content? = none := by
        unfold reclaim
        dsimp only
        rw [here, Function.update_self]
        rfl
      rw [byteAt_of_not_uptodate gone, disk, if_pos here]
    · have same : (f.reclaim p).page (x / n) = f.page (x / n) := Function.update_of_ne here _ _
      unfold byteAt
      rw [same, disk, if_neg here]
      rfl
  · exact (if_neg inside).trans (if_neg inside).symm

/-- What a reader sees. -/
def toCachedFile (f : PageCache β n) : CachedFile β n where
  file := ⟨f.size, f.byteAt⟩
  cached := f.isUptodate
  disk := f.disk
  cold x out := by
    have unread : (f.page (x / n)).content? = none :=
      Option.not_isSome_iff_eq_none.mp (Bool.eq_false_iff.mp out)
    rw [← byteAt_of_not_uptodate unread]
    exact ite_eq_left_iff.mpr fun outside =>
      (byteAt_of_size_le (Nat.not_lt.mp outside)).symm

theorem cell_toCachedFile (f : PageCache β n) (x : Nat) :
    f.toCachedFile.file.cell x = f.byteAt x := rfl

@[simp] theorem byteAt_toCachedFile (f : PageCache β n) (x : Nat) :
    f.toCachedFile.file.byteAt x = f.byteAt x :=
  ite_eq_left_iff.mpr fun outside => (byteAt_of_size_le (Nat.not_lt.mp outside)).symm

end PageCache

end FlexClone
