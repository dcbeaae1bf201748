import FlexClone.Scorw.LogAppend
import FlexClone.Scorw.LogScan
import FlexClone.Scorw.PageFetch
import Mathlib.Data.Nat.Digits.Defs

/-!
# The log as bytes

`scorw_record_write` and the vectored write build a `struct scorw_log_record` on the stack
and `write_offset_log` copies its 32 bytes to the end of the log, through the page cache.
The scans cast a pointer into a page to that struct. The last eight bytes of the struct are
never set.

* `ofBytes_bytes`: what is read back of a record is its fields, cut to their widths.
* `wholeRecords_append`: one append to the bytes is `writeOffsetLog` on the records, which
  clears the last page if it has left memory and drops the record if there is no page.
* `log_round_trip`: after any appends, with pages leaving memory in between, a scan of the
  bytes finds exactly the records that `writeOffsetLog` says.
-/

namespace FlexClone.Scorw.Paged

/-! ## The format of a record -/

/-- The bytes of an integer of `w` bytes, the lowest first. -/
def bytesOf : Nat → Nat → List UInt8
  | 0, _ => []
  | w + 1, x => UInt8.ofNat x :: bytesOf w (x / 256)

def ofBytes (bs : List UInt8) : Nat := Nat.ofDigits 256 (bs.map UInt8.toNat)

@[simp] theorem length_bytesOf (w x : Nat) : (bytesOf w x).length = w := by
  induction w generalizing x with
  | zero => rfl
  | succ w ih => rw [bytesOf, List.length_cons, ih]

@[simp] theorem ofBytes_bytesOf (w x : Nat) : ofBytes (bytesOf w x) = x % 256 ^ w := by
  induction w generalizing x with
  | zero => rw [pow_zero, Nat.mod_one]; rfl
  | succ w ih =>
      have low : (UInt8.ofNat x).toNat = x % 256 := UInt8.toNat_ofNat'
      have rest := ih (x / 256)
      unfold ofBytes at rest ⊢
      rw [bytesOf, List.map_cons, Nat.ofDigits_cons, rest, low, pow_succ', Nat.mod_mul]

end Paged

namespace LogRecord

open Paged

/-- `struct scorw_log_record` in memory. `padding2` is whatever the stack holds. -/
def bytes (padding2 : Nat) (r : LogRecord) : List UInt8 :=
  bytesOf 4 r.versionNum ++ (bytesOf 4 r.logicalStartBlk ++ (bytesOf 8 r.physicalStartBlk ++
    (bytesOf 4 r.lenBlks ++ (bytesOf 4 0 ++ bytesOf 8 padding2))))

/-- The fields a scan reads through its pointer. -/
def ofBytes (bs : List UInt8) : LogRecord where
  versionNum := Paged.ofBytes (bs.take 4)
  logicalStartBlk := Paged.ofBytes ((bs.drop 4).take 4)
  physicalStartBlk := Paged.ofBytes ((bs.drop 8).take 8)
  lenBlks := Paged.ofBytes ((bs.drop 16).take 4)

/-- The record with its fields cut to their widths. -/
def stored (r : LogRecord) : LogRecord where
  versionNum := r.versionNum % 2 ^ 32
  logicalStartBlk := r.logicalStartBlk % 2 ^ 32
  physicalStartBlk := r.physicalStartBlk % 2 ^ 64
  lenBlks := r.lenBlks % 2 ^ 32

theorem length_bytes (padding2 : Nat) (r : LogRecord) :
    (r.bytes padding2).length = recordSize := by
  simp only [bytes, List.length_append, length_bytesOf]
  rfl

theorem ofBytes_bytes (padding2 : Nat) (r : LogRecord) :
    ofBytes (r.bytes padding2) = r.stored := by
  have passed : ∀ w x n, w ≤ n → (bytesOf w x).drop n = [] := fun w x n within =>
    List.drop_eq_nil_of_le (by rwa [length_bytesOf])
  simp [ofBytes, bytes, stored, List.drop_append, passed]

end LogRecord

namespace Paged

variable {f f' : PageCache UInt8 pageSize} {bs : List UInt8}

/-! ## One append -/

/-- The bytes of a file at a record. -/
def recordBytes (f : PageCache UInt8 pageSize) (k : Nat) : List UInt8 :=
  (List.range recordSize).map fun i => f.byteAt (recordSize * k + i)

/-- The log a scan finds in the bytes of the file. -/
def logFile (f : PageCache UInt8 pageSize) : LogFile where
  size := f.size
  record k := .ofBytes (recordBytes f k)

/-- What a record is made of that `write_offset_log` puts at the end of the log. -/
structure Append where
  env : FetchEnv
  padding2 : Nat
  record : LogRecord

/-- The last step of `scorw_record_write`, and of a round of the vectored write. -/
def append (f : PageCache UInt8 pageSize) (a : Append) : PageCache UInt8 pageSize :=
  writeOffsetLog a.env f f.size (a.record.bytes a.padding2)

/-- How the fetch of the page with the end of the log ends. -/
def fetchOf (env : FetchEnv) (f : PageCache UInt8 pageSize) : LogFetch :=
  if f.isUptodate (f.size / pageSize) then .cached
  else if env.allocates then .cleared else .failed

/-- The bytes are behind what was there. -/
structure Appended (f : PageCache UInt8 pageSize) (bs : List UInt8)
    (f' : PageCache UInt8 pageSize) : Prop where
  size : f'.size = f.size + recordSize
  earlier : ∀ x < f.size, f'.byteAt x = f.byteAt x
  bytes : ∀ i < recordSize, bs[i]? = some (f'.byteAt (f.size + i))

theorem appended_copyIn (whole : recordSize ∣ f.size)
    (cached : f.isUptodate (f.size / pageSize) = true) (length : bs.length = recordSize) :
    Appended f bs (f.copyIn (f.size / pageSize) (f.size % pageSize) bs) := by
  have place : f.size / pageSize * pageSize + f.size % pageSize = f.size := Nat.div_add_mod' _ _
  have earlier : ∀ x < f.size, _ := fun x below =>
    PageCache.byteAt_copyIn_of_lt (f := f) bs pageSize_pos (place.symm ▸ below)
  revert earlier
  unfold PageCache.copyIn
  split
  case h_1 none =>
    unfold PageCache.isUptodate at cached
    rw [none] at cached
    cases cached
  case h_2 content found =>
    intro earlier
    refine ⟨?_, earlier, fun i inside => ?_⟩
    · change max _ _ = _
      rw [place, length]
      exact max_eq_right (Nat.le_add_right _ _)
    · -- A record never crosses a page.
      have place : (f.size + i) / pageSize = f.size / pageSize ∧
          (f.size + i) % pageSize = f.size % pageSize + i := by
        unfold recordSize pageSize at *
        omega
      rw [PageCache.byteAt_install pageSize_pos, if_pos place.1, place.2, landsAt,
        if_pos (Nat.le_add_right _ _), Nat.add_sub_cancel_left,
        List.getElem?_eq_getElem (length.symm ▸ inside)]
      rfl

theorem Appended.wholeRecords {r : LogRecord} {padding2 : Nat} (whole : recordSize ∣ f.size)
    (appended : Appended f (r.bytes padding2) f') :
    (logFile f').wholeRecords = (logFile f).wholeRecords ++ [r.stored] := by
  have place : recordSize * (f.size / recordSize) = f.size := Nat.mul_div_cancel' whole
  have count : f'.size / recordSize = f.size / recordSize + 1 := by
    rw [appended.size, Nat.add_div_right _ (by decide)]
  have last : recordBytes f' (f.size / recordSize) = r.bytes padding2 := by
    refine List.ext_getElem? fun i => ?_
    unfold recordBytes
    rw [place, List.getElem?_map]
    by_cases inside : i < recordSize
    · rw [appended.bytes i inside, List.getElem?_range inside]
      rfl
    · rw [List.getElem?_eq_none (by rw [List.length_range]; omega),
        List.getElem?_eq_none (by rw [LogRecord.length_bytes]; omega)]
      rfl
  have earlier : ∀ k ∈ List.range (f.size / recordSize), recordBytes f' k = recordBytes f k := by
    intro k before
    have upTo := Nat.mul_le_mul_left recordSize (List.mem_range.mp before)
    rw [Nat.mul_succ, place] at upTo
    refine List.map_congr_left fun i inside => appended.earlier _ ?_
    have := List.mem_range.mp inside
    omega
  unfold LogFile.wholeRecords logFile
  dsimp only
  rw [count, List.range_succ, List.map_append, List.map_singleton, last, LogRecord.ofBytes_bytes,
    List.map_congr_left fun k before => congrArg LogRecord.ofBytes (earlier k before)]

/-- A file whose bytes are the same has the same records. -/
theorem recordBytes_congr {k : Nat} (same : ∀ x, x / pageSize = k / recordsPerPage →
    f'.byteAt x = f.byteAt x) : recordBytes f' k = recordBytes f k := by
  refine List.map_congr_left fun i inside => same _ ?_
  have := List.mem_range.mp inside
  unfold recordsPerPage recordSize pageSize at *
  omega

/-- With the last page cleared its records are zeros. -/
theorem wholeRecords_of_cleared (whole : recordSize ∣ f.size) (size : f'.size = f.size)
    (bytes : ∀ x, f'.byteAt x = if x / pageSize = f.size / pageSize then 0 else f.byteAt x) :
    (logFile f').wholeRecords = clearLastPage (logFile f).wholeRecords := by
  have ends : f.size / pageSize = f.size / recordSize / recordsPerPage := by
    unfold recordsPerPage recordSize pageSize
    omega
  unfold clearLastPage LogFile.wholeRecords logFile
  dsimp only
  rw [List.length_map, List.length_range, size]
  -- `full` records lie in full pages, the other `rest` in the last one
  obtain ⟨full, full_eq⟩ : ∃ full, f.size / recordSize / recordsPerPage * recordsPerPage = full :=
    ⟨_, rfl⟩
  obtain ⟨rest, rest_eq⟩ : ∃ rest, f.size / recordSize % recordsPerPage = rest := ⟨_, rfl⟩
  have count : f.size / recordSize = full + rest := by
    rw [← full_eq, ← rest_eq, Nat.div_add_mod']
  rw [full_eq, rest_eq, count, ← List.map_take, List.take_range, List.range_add,
    Nat.min_eq_left (Nat.le_add_right _ _), List.map_append, List.map_map]
  congr 1
  · refine List.map_congr_left fun k before => congrArg LogRecord.ofBytes ?_
    have below := List.mem_range.mp before
    refine recordBytes_congr fun x here => (bytes x).trans (if_neg ?_)
    rw [here, ends]
    unfold recordsPerPage pageSize at *
    omega
  · have zeros (i : Nat) (inside : i < rest) :
        recordBytes f' (full + i) = List.replicate recordSize 0 := by
      refine List.eq_replicate_iff.mpr ⟨by simp [recordBytes], fun b member => ?_⟩
      obtain ⟨j, within, rfl⟩ := List.mem_map.mp member
      have := List.mem_range.mp within
      refine (bytes _).trans (if_pos ?_)
      rw [ends]
      unfold recordsPerPage recordSize pageSize at *
      omega
    refine List.eq_replicate_iff.mpr ⟨by simp, fun r member => ?_⟩
    obtain ⟨i, inside, rfl⟩ := List.mem_map.mp member
    exact congrArg LogRecord.ofBytes (zeros i (List.mem_range.mp inside))

/-- An append to the bytes is an append to the records. -/
theorem wholeRecords_append (whole : recordSize ∣ f.size) (a : Append) :
    recordSize ∣ (append f a).size ∧
      (logFile (append f a)).wholeRecords = Scorw.writeOffsetLog (fetchOf a.env f)
        (logFile f).wholeRecords a.record.stored := by
  have copied (g : PageCache UInt8 pageSize) (size : g.size = f.size)
      (fetched : getPage a.env f (f.size / pageSize) = some g) :
      recordSize ∣ (append f a).size ∧
        (logFile (append f a)).wholeRecords = (logFile g).wholeRecords ++ [a.record.stored] := by
    have cached := isUptodate_getPage fetched
    unfold append writeOffsetLog
    rw [fetched]
    dsimp only
    rw [← size] at whole cached ⊢
    have appended := appended_copyIn whole cached (a.record.length_bytes a.padding2)
    exact ⟨appended.size ▸ Nat.dvd_add_self_right.mpr whole, appended.wholeRecords whole⟩
  unfold fetchOf
  by_cases cached : f.isUptodate (f.size / pageSize) = true
  · rw [if_pos cached]
    exact copied f rfl (if_pos cached)
  · rw [if_neg cached]
    cases allocates : a.env.allocates with
    | false =>
        have none : getPage a.env f (f.size / pageSize) = none := by
          unfold getPage
          rw [if_neg cached, allocates]
          rfl
        unfold append writeOffsetLog
        rw [none]
        exact ⟨whole, rfl⟩
    | true =>
        obtain ⟨g, fetched⟩ := getPage_of_end (f := f) allocates
        have size := size_getPage fetched
        have bytes (x : Nat) : g.byteAt x =
            if x / pageSize = f.size / pageSize then 0 else f.byteAt x := by
          rw [byteAt_getPage fetched]
          simp only [Bool.eq_false_iff.mpr cached, le_refl, true_and]
        obtain ⟨grown, records⟩ := copied g size fetched
        rw [wholeRecords_of_cleared whole size bytes] at records
        exact ⟨grown, records⟩

/-! ## Any number of appends -/

/-- What happens to the log: an append, or a page of it is written back and leaves memory. -/
inductive LogEvent
  | append (a : Append)
  | reclaim (page : Nat)

def LogEvent.apply (f : PageCache UInt8 pageSize) : LogEvent → PageCache UInt8 pageSize
  | .append a => Paged.append f a
  | .reclaim page => f.reclaim page

/-- What it does to the records. -/
def LogEvent.records (f : PageCache UInt8 pageSize) (log : List LogRecord) :
    LogEvent → List LogRecord
  | .append a => Scorw.writeOffsetLog (fetchOf a.env f) log a.record.stored
  | .reclaim _ => log

/-- The records after all of it. -/
def recordsAfter (f : PageCache UInt8 pageSize) (log : List LogRecord) :
    List LogEvent → List LogRecord
  | [] => log
  | e :: es => recordsAfter (e.apply f) (e.records f log) es

theorem wholeRecords_apply (whole : recordSize ∣ f.size) (e : LogEvent) :
    recordSize ∣ (e.apply f).size ∧
      (logFile (e.apply f)).wholeRecords = e.records f (logFile f).wholeRecords := by
  cases e with
  | append a => exact wholeRecords_append whole a
  | reclaim page =>
      refine ⟨whole, List.map_congr_left fun k _ => congrArg LogRecord.ofBytes ?_⟩
      exact recordBytes_congr fun x _ => f.byteAt_reclaim page x

/-- However the fetches end and whichever pages leave memory in between, the bytes of the log
are exactly the records that the appends to a list of records make, cut to the widths of
their fields: without those whose page could not be had, and with zeros for those of a last
page that was not in memory. A replay of the bytes, page by page, is the replay of these
records. -/
theorem log_round_trip (whole : recordSize ∣ f.size) (events : List LogEvent)
    (readPage : Nat → Bool) (targetVersion : Nat) :
    (logFile (events.foldl LogEvent.apply f)).wholeRecords =
        recordsAfter f (logFile f).wholeRecords events ∧
      ∃ s, Loop.Returns (pagePass readPage (replayScanner targetVersion)
          (logFile (events.foldl LogEvent.apply f))) (.start Versioned.Delta.empty) s ∧
        s.vars = replayLogVersion readPage (recordsAfter f (logFile f).wholeRecords events)
          targetVersion := by
  induction events generalizing f with
  | nil =>
      obtain ⟨s, returns, _, vars⟩ := replay_returns readPage (f := logFile f) whole targetVersion
      exact ⟨rfl, s, returns, vars⟩
  | cons e events ih =>
      obtain ⟨grown, records⟩ := wholeRecords_apply whole e
      rw [List.foldl_cons, recordsAfter, ← records]
      exact ih grown

/-- A log of one page that is full of records. -/
def fullPage : PageCache UInt8 pageSize where
  size := pageSize
  page p := if p = 0 then
      .uptodate fun i => (LogRecord.bytes 7 ⟨2, 0, 1, 1⟩).getD (i % recordSize) 0
    else .absent
  disk := .blank 0
  pageTail p content found i inside past := by
    split at found
    case isTrue here =>
      rw [here] at past
      omega
    case isFalse => cases found
  diskTail _ _ := ByteFile.byteAt_blank _ _

/-- The record of version `v` for block 0, with or without memory for its page. -/
def logged (v : Nat) (allocates : Bool) : LogEvent := .append ⟨⟨allocates, true⟩, 0, ⟨v, 0, v, 1⟩⟩

/-- There is no page for the first record. The next two begin a page, which leaves memory and
is cleared for the last one. -/
theorem log_round_trip_reclaimed :
    (logFile ([logged 3 false, logged 4 true, logged 5 true, .reclaim 1, logged 6 true].foldl
      LogEvent.apply fullPage)).wholeRecords =
        List.replicate 128 ⟨2, 0, 1, 1⟩ ++ [.zero, .zero, ⟨6, 0, 6, 1⟩] := by
  have whole : recordSize ∣ fullPage.size := by decide
  rw [(log_round_trip whole _ (fun _ => true) 2).1]
  decide +kernel

end Paged

end FlexClone.Scorw
