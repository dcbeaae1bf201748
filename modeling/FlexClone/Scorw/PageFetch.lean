import FlexClone.PageCache
import FlexClone.Scorw.CowMoves

/-!
# Fetching a page

`scorw_get_page` has three paths. A page that is in memory and up to date is returned as
it is. Otherwise the page is cleared when the file ends in it or before it, which is
meant for a page that is new, and read from the disk when it lies inside the file. The
page with the end of the file is not new unless the file ends on a page boundary.

* `byteAt_getPage`: what the file reads as after a fetch.
* `toCachedFile_getPage`, `copyPage_toCachedFile`: the fetch and the copy of the model of
  copy-on-write children are these.
* `page_fetch_iff`: a fetch returns the bytes of the file, an append to the log keeps
  what is before it, and the copy of a page is the parent's, exactly when the page with
  the end of the file is in memory or has nothing in it.
-/

namespace FlexClone.Scorw.Paged

/-- How the steps of a fetch end that can fail. -/
structure FetchEnv where
  /-- `find_or_create_page` has a page -/
  allocates : Bool
  /-- `read_folio` succeeds -/
  reads : Bool

/-- `scorw_get_page`; the page is up to date afterwards. `none` is the null pointer. -/
def getPage (env : FetchEnv) (f : PageCache UInt8 pageSize) (lblk : Nat) :
    Option (PageCache UInt8 pageSize) :=
  if f.isUptodate lblk then some f
  else if !env.allocates then none
  else if f.size / pageSize ≤ lblk then
    some (f.install lblk (fun _ => 0) f.size le_rfl fun _ _ _ => rfl)
  else if !env.reads then none
  else
    some (f.install lblk (fun i => f.disk.byteAt (lblk * pageSize + i)) f.size le_rfl
      fun _ _ past => f.diskTail _ past)

/-- The page a caller of `scorw_get_page` is given. -/
def pageOf (env : FetchEnv) (f : PageCache UInt8 pageSize) (lblk : Nat) : Option (Nat → UInt8) :=
  (getPage env f lblk).bind fun f => (f.page lblk).content?

/-- `write_offset_log`. A record that does not fit the page is not cut off in the program;
records never cross a page. -/
def writeOffsetLog (env : FetchEnv) (f : PageCache UInt8 pageSize) (offset : Nat)
    (record : List UInt8) : PageCache UInt8 pageSize :=
  match getPage env f (offset / pageSize) with
  | none => f
  | some f => f.copyIn (offset / pageSize) (offset % pageSize) record

/-- `len` of `scorw_copy_page`; the comparison is unsigned. -/
def copyLen (copySize lblk : Nat) : Nat :=
  if copySize < lblk * pageSize then pageSize else min pageSize (copySize - lblk * pageSize)

/-- What `scorw_copy_page` puts in the child's page. -/
def copyPage (env : FetchEnv) (f : PageCache UInt8 pageSize) (copySize lblk : Nat) :
    Option (Nat → UInt8) :=
  (pageOf env f lblk).map fun page i => if i < copyLen copySize lblk then page i else 0

variable {env : FetchEnv} {f f' : PageCache UInt8 pageSize} {lblk : Nat}

theorem getPage_cases (fetched : getPage env f lblk = some f') :
    f.isUptodate lblk = true ∧ f' = f ∨
      f.isUptodate lblk = false ∧ ∃ page tail, f' = f.install lblk page f.size le_rfl tail ∧
        (f.size / pageSize ≤ lblk ∧ page = (fun _ => 0) ∨
          lblk < f.size / pageSize ∧
            page = fun i => f.disk.byteAt (lblk * pageSize + i)) := by
  unfold getPage at fetched
  split at fetched
  case isTrue cached =>
    cases fetched
    exact .inl ⟨cached, rfl⟩
  case isFalse out =>
    right
    refine ⟨Bool.eq_false_iff.mpr out, ?_⟩
    split at fetched
    · cases fetched
    · split at fetched
      case isTrue past =>
        cases fetched
        exact ⟨_, _, rfl, .inl ⟨past, rfl⟩⟩
      case isFalse within =>
        split at fetched
        · cases fetched
        · cases fetched
          exact ⟨_, _, rfl, .inr ⟨Nat.not_le.mp within, rfl⟩⟩

/-- The page that contains the end of the file can always be had, if there is memory. -/
theorem getPage_of_end (allocates : env.allocates = true) :
    ∃ f', getPage env f (f.size / pageSize) = some f' := by
  unfold getPage
  split
  · exact ⟨f, rfl⟩
  · rw [allocates, if_neg (by decide), if_pos le_rfl]
    exact ⟨_, rfl⟩

theorem size_getPage (fetched : getPage env f lblk = some f') : f'.size = f.size := by
  rcases getPage_cases fetched with ⟨_, rfl⟩ | ⟨_, page, tail, rfl, _⟩
  · rfl
  · rfl

/-- What the file reads as after a fetch: a page that was not up to date is cleared when
the file ends in it or before. -/
theorem byteAt_getPage (fetched : getPage env f lblk = some f') (x : Nat) :
    f'.byteAt x =
      if f.isUptodate lblk = false ∧ f.size / pageSize ≤ lblk ∧ x / pageSize = lblk then 0
      else f.byteAt x := by
  rcases getPage_cases fetched with ⟨cached, rfl⟩ | ⟨out, page, tail, rfl, from_⟩
  · rw [cached, if_neg (fun h => by cases h.1)]
  · rw [PageCache.byteAt_install pageSize_pos]
    by_cases here : x / pageSize = lblk
    · rw [if_pos here]
      rcases from_ with ⟨past, rfl⟩ | ⟨within, rfl⟩
      · rw [if_pos ⟨out, past, here⟩]
      · have unread : (f.page (x / pageSize)).content? = none := by
          rw [here]
          exact Option.not_isSome_iff_eq_none.mp (Bool.eq_false_iff.mp out)
        have place : lblk * pageSize + x % pageSize = x := by
          rw [← here]
          exact Nat.div_add_mod' x pageSize
        dsimp only
        rw [if_neg (by omega), PageCache.byteAt_of_not_uptodate unread, place]
    · rw [if_neg here, if_neg (fun h => here h.2.2)]

theorem isUptodate_getPage (fetched : getPage env f lblk = some f') :
    f'.isUptodate lblk = true := by
  rcases getPage_cases fetched with ⟨cached, rfl⟩ | ⟨_, page, tail, rfl, _⟩
  · exact cached
  · unfold PageCache.isUptodate PageCache.install
    dsimp only
    rw [Function.update_self]
    rfl

/-- A caller finds in the page what the file reads as from now on. -/
theorem pageOf_eq_some {page : Nat → UInt8} (got : pageOf env f lblk = some page) :
    ∃ f', getPage env f lblk = some f' ∧
      ∀ i < pageSize, page i = f'.byteAt (lblk * pageSize + i) := by
  obtain ⟨f', fetched, found⟩ := Option.bind_eq_some_iff.mp got
  exact ⟨f', fetched, fun i inside => (PageCache.byteAt_of_uptodate found inside).symm⟩

/-- The same by the offset in the file. -/
theorem pageOf_mod {page : Nat → UInt8} (got : pageOf env f lblk = some page)
    (fetched : getPage env f lblk = some f') {x : Nat} (here : x / pageSize = lblk) :
    page (x % pageSize) = f'.byteAt x := by
  obtain ⟨f'', fetched', bytes⟩ := pageOf_eq_some got
  cases fetched.symm.trans fetched'
  rw [bytes _ (Nat.mod_lt x pageSize_pos), ← here, Nat.div_add_mod']

theorem exists_pageOf (fetched : getPage env f lblk = some f') :
    ∃ page, pageOf env f lblk = some page := by
  obtain ⟨page, found⟩ := Option.isSome_iff_exists.mp (isUptodate_getPage fetched)
  unfold pageOf
  rw [fetched]
  exact ⟨page, found⟩

/-! ## What the other models see -/

/-- For a reader it is the fetch of the model of copy-on-write children. -/
theorem toCachedFile_getPage (fetched : getPage env f lblk = some f') :
    f'.toCachedFile = Cow.getPage f.toCachedFile lblk := by
  have bytes := byteAt_getPage fetched
  unfold Cow.getPage
  rcases getPage_cases fetched with ⟨cached, rfl⟩ | ⟨out, page, tail, rfl, from_⟩
  · exact (if_pos cached).symm
  · have miss : ¬ f.toCachedFile.cached lblk = true := Bool.eq_false_iff.mp out
    have state := PageCache.isUptodate_install f lblk page le_rfl tail
    rw [if_neg miss]
    rcases from_ with ⟨past, _⟩ | ⟨within, _⟩
    · have ends : f.toCachedFile.file.size / pageSize ≤ lblk := past
      rw [if_pos ends]
      refine CachedFile.eq_of_parts (ByteFile.ext rfl (funext fun x => ?_)) state rfl
      rw [PageCache.cell_toCachedFile, bytes x]
      simp only [out, past, true_and]
      rfl
    · have inside : ¬ f.toCachedFile.file.size / pageSize ≤ lblk := Nat.not_le.mpr within
      rw [if_neg inside]
      refine CachedFile.eq_of_parts (ByteFile.ext rfl (funext fun x => ?_)) state rfl
      rw [PageCache.cell_toCachedFile, bytes x, if_neg (by omega)]
      rfl

/-- The copy of a page in the model of copy-on-write children pastes these bytes. -/
theorem copyPage_toCachedFile {s : Cow.Shared} {k : Cow.CowChild} {page : Nat → UInt8}
    (par : s.par = f.toCachedFile) (fetched : getPage env f lblk = some f')
    (copied : copyPage env f k.copySize lblk = some page) (c : Nat) :
    s.copyPage c k lblk false =
      { s with par := f'.toCachedFile }.setChild c
        (k.paste lblk (copyLen k.copySize lblk) page) := by
  obtain ⟨source, got, rfl⟩ := Option.map_eq_some_iff.mp copied
  obtain ⟨f'', fetched', bytes⟩ := pageOf_eq_some got
  cases fetched.symm.trans fetched'
  have len : copyLen k.copySize lblk = Cow.copyLen k.copySize (lblk * pageSize) := rfl
  have pasted : k.paste lblk (Cow.copyLen k.copySize (lblk * pageSize))
      (fun i => f'.toCachedFile.file.byteAt (lblk * pageSize + i)) =
        k.paste lblk (copyLen k.copySize lblk)
          fun i => if i < copyLen k.copySize lblk then source i else 0 := by
    unfold Cow.CowChild.paste
    rw [len]
    congr 2
    funext x
    split
    case isFalse => rfl
    case isTrue here =>
      split
      case isFalse => rfl
      case isTrue below =>
        dsimp only
        rw [PageCache.byteAt_toCachedFile, if_pos below, bytes _ (Nat.mod_lt x pageSize_pos)]
  unfold Cow.Shared.copyPage
  dsimp only
  rw [par, ← toCachedFile_getPage fetched, if_neg Bool.false_ne_true, pasted]

/-! ## The claims of the callers -/

/-- The page that is returned has the bytes of the file below its size, and zeros. -/
def FetchesFile (env : FetchEnv) (f : PageCache UInt8 pageSize) (lblk : Nat) : Prop :=
  ∀ page, pageOf env f lblk = some page → ∀ i < pageSize,
    page i = if lblk * pageSize + i < f.size then f.byteAt (lblk * pageSize + i) else 0

/-- A record at the end of the log leaves the ones before it alone. -/
def KeepsEarlier (env : FetchEnv) (f : PageCache UInt8 pageSize) (record : List UInt8) : Prop :=
  ∀ x < f.size, (writeOffsetLog env f f.size record).byteAt x = f.byteAt x

/-- The child is given the bytes of the parent up to the copy size. -/
def CopiesParent (env : FetchEnv) (f : PageCache UInt8 pageSize) (copySize lblk : Nat) : Prop :=
  ∀ page, copyPage env f copySize lblk = some page → ∀ i < pageSize,
    lblk * pageSize + i < copySize → page i = f.byteAt (lblk * pageSize + i)

/-- The page with the end of the file is in memory, or cannot be had, or has only zeros
below the limit. -/
def EndIsSafe (env : FetchEnv) (f : PageCache UInt8 pageSize) (limit : Nat) : Prop :=
  env.allocates = false ∨ f.isUptodate (f.size / pageSize) = true ∨
    ∀ x < limit, x / pageSize = f.size / pageSize → f.byteAt x = 0

/-- A fetch shows up below the limit only in the page with the end of the file. -/
theorem getPage_invisible (fetched : getPage env f lblk = some f') {limit : Nat}
    (safe : lblk = f.size / pageSize → EndIsSafe env f limit) {x : Nat} (below : x < limit) :
    f'.byteAt x = f.byteAt x := by
  rw [byteAt_getPage fetched]
  split
  case isFalse => rfl
  case isTrue cleared =>
    obtain ⟨out, past, here⟩ := cleared
    symm
    by_cases last : lblk = f.size / pageSize
    · rcases safe last with starved | cached | zeros
      · unfold getPage at fetched
        rw [if_neg (Bool.eq_false_iff.mp out), starved] at fetched
        cases fetched
      · rw [← last, out] at cached
        cases cached
      · exact zeros x below (here.trans last)
    · have after : f.size / pageSize < x / pageSize := by omega
      exact PageCache.byteAt_of_size_le (Nat.lt_of_div_lt_div after).le

/-- And there it does, when something is in the page. -/
theorem endIsSafe_of_invisible {limit : Nat}
    (same : ∀ f', getPage env f (f.size / pageSize) = some f' →
      ∀ x < limit, x / pageSize = f.size / pageSize → f'.byteAt x = f.byteAt x) :
    EndIsSafe env f limit := by
  cases allocates : env.allocates with
  | false => exact .inl allocates
  | true =>
      cases cached : f.isUptodate (f.size / pageSize) with
      | true => exact .inr (.inl cached)
      | false =>
          obtain ⟨f', fetched⟩ := getPage_of_end (f := f) allocates
          refine .inr (.inr fun x below here => ?_)
          rw [← same f' fetched x below here, byteAt_getPage fetched,
            if_pos ⟨cached, le_rfl, here⟩]

theorem fetchesFile_iff :
    FetchesFile env f lblk ↔ (lblk = f.size / pageSize → EndIsSafe env f f.size) := by
  constructor
  · rintro fetches rfl
    refine endIsSafe_of_invisible fun f' fetched x below here => ?_
    obtain ⟨page, got⟩ := exists_pageOf fetched
    have byte := fetches page got (x % pageSize) (Nat.mod_lt x pageSize_pos)
    rw [← here, Nat.div_add_mod', if_pos below] at byte
    rw [← byte, pageOf_mod got fetched here]
  · intro safe page got i inside
    obtain ⟨f', fetched, bytes⟩ := pageOf_eq_some got
    rw [bytes i inside]
    split
    case isTrue below => exact getPage_invisible fetched safe below
    case isFalse past =>
      refine PageCache.byteAt_of_size_le ?_
      rw [size_getPage fetched]
      exact Nat.not_lt.mp past

theorem byteAt_writeOffsetLog (fetched : getPage env f (f.size / pageSize) = some f')
    (record : List UInt8) {x : Nat} (below : x < f.size) :
    (writeOffsetLog env f f.size record).byteAt x = f'.byteAt x := by
  unfold writeOffsetLog
  rw [fetched]
  refine PageCache.byteAt_copyIn_of_lt record pageSize_pos ?_
  rw [Nat.div_add_mod']
  exact below

theorem keepsEarlier_iff {record : List UInt8} :
    KeepsEarlier env f record ↔ EndIsSafe env f f.size := by
  constructor
  · intro keeps
    refine endIsSafe_of_invisible fun f' fetched x below _ => ?_
    rw [← byteAt_writeOffsetLog fetched record below]
    exact keeps x below
  · intro safe x below
    cases fetched : getPage env f (f.size / pageSize) with
    | none =>
        unfold writeOffsetLog
        rw [fetched]
    | some f' =>
        rw [byteAt_writeOffsetLog fetched record below]
        exact getPage_invisible fetched (fun _ => safe) below

theorem copiesParent_iff {copySize : Nat} :
    CopiesParent env f copySize lblk ↔ (lblk = f.size / pageSize → EndIsSafe env f copySize) := by
  have covered : ∀ i < pageSize, lblk * pageSize + i < copySize → i < copyLen copySize lblk := by
    intro i inside below
    unfold copyLen
    rw [if_neg (by omega)]
    omega
  constructor
  · rintro copies rfl
    refine endIsSafe_of_invisible fun f' fetched x below here => ?_
    obtain ⟨page, got⟩ := exists_pageOf fetched
    have inside := Nat.mod_lt x pageSize_pos
    have place : f.size / pageSize * pageSize + x % pageSize = x := by
      rw [← here]
      exact Nat.div_add_mod' x pageSize
    have byte := copies _ (congrArg (Option.map _) got) (x % pageSize) inside (by omega)
    dsimp only at byte
    rw [if_pos (covered _ inside (by omega)), place] at byte
    rw [← byte, pageOf_mod got fetched here]
  · intro safe page copied i inside below
    obtain ⟨source, got, rfl⟩ := Option.map_eq_some_iff.mp copied
    obtain ⟨f', fetched, bytes⟩ := pageOf_eq_some got
    dsimp only
    rw [if_pos (covered i inside below), bytes i inside]
    exact getPage_invisible fetched safe below

/-- A file of 64 bytes that are not zero, and nothing of it is in memory. -/
def coldFile : PageCache UInt8 pageSize where
  size := 64
  page _ := .absent
  disk := ⟨64, fun _ => 1⟩
  pageTail _ _ found := by cases found
  diskTail _ past := ByteFile.byteAt_of_size_le past

end FlexClone.Scorw.Paged
