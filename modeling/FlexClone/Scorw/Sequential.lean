import FlexClone.Drain
import FlexClone.Scorw.Interrupted
import FlexClone.Scorw.Snapshot

/-!
# Reading a parent from its start

The end of a see-through parent is nowhere stored: a read returns nothing at the first
block that does not resolve. `i_size`, which an appending write goes to, is the size of the
file with all its appended blocks.

`Contents` follows a run of plain writes and notes how far they reach and which bytes they
left. `sequential_read_complete`: reading from offset 0 on, with whatever buffers, returns
all of that if every write of the run is `Seamless`: it leaves no unmapped block between the
old end and itself, and keeps the bytes it does not overwrite. No pass of its data loop may be
dropped, and the page with the end of the log has to be in memory.
-/

namespace FlexClone.Scorw

open Versioned

/-! ## What the writes of a run make up -/

/-- A `write` system call. -/
structure WriteCall where
  file : Handle
  /-- the handle was opened with `O_APPEND` -/
  append : Bool
  offset : Nat
  data : List UInt8
  env : WriteEnv
  fetches : List LogFetch
  uptodate : List Bool

/-- `-EFBIG` -/
def efbig : Int := -27

/-- `generic_write_checks`: an appending write goes to `i_size`; what does not fit below
the maximal size is cut off. -/
def genericWriteChecks (s : State) (call : WriteCall) : Option WriteReq :=
  let pos := if call.append then s.file.size else call.offset
  if nonempty : call.data.take (maxBytes - pos) ≠ [] then
    some ⟨pos, call.data.take (maxBytes - pos), nonempty, by
      have some := List.length_pos_iff.mpr nonempty
      rw [List.length_take] at some ⊢
      omega⟩
  else none

/-- A parent with the content its writes make up. -/
structure Contents where
  state : State
  /-- one past the highest offset written -/
  size : Nat
  /-- the byte written last, zero where none was -/
  byte : Nat → UInt8

/-- The original file of a parent that handles are open on. -/
def Contents.start (f : ByteFile UInt8) (handles : List Handle) : Contents :=
  ⟨freshlyOpened f handles, f.size, f.byteAt⟩

/-- The content after a write that returned `ret` and left `s'`. -/
def Contents.after (c : Contents) (w : WriteReq) (ret : Int) (s' : State) : Contents where
  state := s'
  size := if ret.toNat = 0 then c.size else max c.size (w.pos + ret.toNat)
  byte x :=
    if w.pos ≤ x ∧ x < w.pos + ret.toNat then w.data.getD (x - w.pos) default else c.byte x

/-- One write with the content. -/
def contentsStep (c : Contents) (call : WriteCall) : Option (Int × Contents) :=
  match genericWriteChecks c.state call with
  | none => some (if call.data = [] then 0 else efbig, c)
  | some w =>
      (syscall c.state ⟨.write call.file w call.env, call.fetches, call.uptodate⟩).map fun r =>
        (r.1, c.after w r.1 r.2)

/-- `scorw_read_from_parent` on the parent itself. -/
def readParent (s : State) (pos count : Nat) : List UInt8 × State :=
  readFromParent .clean s s.version pos count

/-- Whatever the sizes of the buffers, reading from offset 0 on comes to an end, and until
then returns every byte of the content. -/
structure ReadsWhollyBack (c : Contents) : Prop where
  complete : ∀ sizes : List Nat, (∀ n ∈ sizes, 0 < n) →
    (drain readParent sizes c.state 0).2 = true →
      ∀ x < c.size, (drain readParent sizes c.state 0).1[x]? = some (c.byte x)
  stops : ∃ bound, ∀ sizes : List Nat, bound ≤ sizes.length →
    (drain readParent sizes c.state 0).2 = true

/-- The write is recorded and gets into the last block of its run, and what it places it
reports. The blocks between the old end and its own are mapped, and what is behind it in its
own blocks survives. -/
structure Seamless (c : Contents) (w : WriteReq) (env : WriteEnv) : Prop where
  able : Recordable c.state env
  reaches : Reaches c.state w env
  reported : w.placed env c.state = w.reported env c.state
  mapped : 0 < w.reported env c.state → ∀ x, c.size ≤ x → x < w.startBlk * pageSize →
    (resolve c.state.log c.state.origSize c.state.version (x / pageSize)).isSome
  survives : ∀ x < c.size, w.pos + w.reported env c.state ≤ x →
    x / pageSize < w.startBlk + w.nrBlk → Survives c.state w (w.placed env c.state) x

/-- Every write of the call is seamless, finds its page of the log, and no pass of it is
dropped. -/
def WriteCall.Seamless (c : Contents) (call : WriteCall) : Prop :=
  ∀ w, genericWriteChecks c.state call = some w →
    Fetched call.fetches c.state.log.length ∧
      NoneDropped call.env.pages call.uptodate w.pos w.count ∧
      Scorw.Seamless c w (call.env.reported call.uptodate w)

/-! ## Reading -/

/-- `t` differs from `s` in what is cached only. -/
structure SameContent (s t : State) : Prop where
  sound : Sound t
  log : t.log = s.log
  origSize : t.origSize = s.origSize
  version : t.version = s.version
  file : t.file = s.file

section Reading

variable {s t : State}

theorem SameContent.refl (sound : Sound s) : SameContent s s := ⟨sound, rfl, rfl, rfl, rfl⟩

theorem snd_readFromParent (env : Env) (s : State) (version pos count : Nat) :
    (readFromParent env s version pos count).2 =
      { s with
        toVersionStore :=
          (lookupPhysicalBlock env s.toVersionStore version (pos / pageSize)).2 } := by
  unfold readFromParent
  dsimp only
  split
  · rfl
  · split
    · rfl
    · rfl

theorem SameContent.read (same : SameContent s t) (pos count : Nat) :
    SameContent s (readParent t pos count).2 := by
  unfold readParent
  rw [snd_readFromParent, lookupPhysicalBlock_store]
  refine ⟨⟨?_, same.sound.aligned, same.sound.idle⟩, same.log, same.origSize, same.version,
    same.file⟩
  exact lookupFrom_coherent Env.clean_faultFree.readPage _ same.sound.coherent

theorem getElem?_genericFileRead (f : ByteFile UInt8) (pos count i : Nat) :
    (genericFileRead f pos count)[i]? = if i < count then f.get? (pos + i) else none := by
  unfold genericFileRead ByteFile.get?
  rw [List.getElem?_map]
  by_cases inside : i < min count (f.size - pos)
  · rw [List.getElem?_range inside, if_pos (by omega), if_pos (by omega)]
    rfl
  · rw [List.getElem?_eq_none (by rw [List.length_range]; omega)]
    split
    · rw [if_neg (by omega)]
      rfl
    · rfl

/-- One read, byte by byte. -/
theorem getElem?_readParent (sound : Sound s) (pos count i : Nat) :
    (readParent s pos count).1[i]? =
      if i < clampToPage pos count then viewByte s.log s.origSize s.file s.version (pos + i)
      else none := by
  unfold readParent
  rw [readFromParent_eq sound Env.clean_faultFree]
  by_cases clamped : i < clampToPage pos count
  · have page : (pos + i) / pageSize = pos / pageSize ∧
        (pos + i) % pageSize = pos % pageSize + i := by
      unfold clampToPage at clamped
      unfold pageSize at *
      omega
    unfold viewByte
    rw [if_pos clamped, page.1, page.2]
    cases resolve s.log s.origSize s.version (pos / pageSize) with
    | none => rfl
    | some blk =>
        dsimp only
        rw [getElem?_genericFileRead, if_pos clamped, Option.bind_some, Nat.add_assoc]
  · rw [if_neg clamped]
    cases resolve s.log s.origSize s.version (pos / pageSize) with
    | none => rfl
    | some blk =>
        dsimp only
        rw [getElem?_genericFileRead, if_neg clamped]

/-- Reads of the parent return pieces of its content. -/
theorem delivers_readParent (s : State) :
    Delivers readParent (SameContent s) (viewByte s.log s.origSize s.file s.version) := by
  have step {t : State} (same : SameContent s t) (pos count i : Nat) :
      (readParent t pos count).1[i]? = if i < clampToPage pos count then
        viewByte s.log s.origSize s.file s.version (pos + i) else none := by
    rw [getElem?_readParent same.sound, same.log, same.origSize, same.version, same.file]
  refine ⟨fun same => same.read, fun same pos count i b got => ?_,
    fun same pos count positive empty => ?_⟩
  · rw [step same] at got
    split at got
    · exact got
    · cases got
  · have first := step same pos count 0
    have offset : pos % pageSize < pageSize := Nat.mod_lt _ pageSize_pos
    have some : 0 < clampToPage pos count := by
      unfold clampToPage
      omega
    rw [empty, if_pos some] at first
    exact first.symm

/-- Some block is beyond everything that is mapped. -/
theorem exists_viewByte_none (log : List LogRecord) (origSize : Nat) (f : ByteFile UInt8)
    (version : Nat) : ∃ x, viewByte log origSize f version x = none := by
  obtain ⟨bound, mapped⟩ := ((entries log).map fun e => e.key).toFinset.exists_nat_subset_range
  have block : (bound + origSize) * pageSize / pageSize = bound + origSize :=
    Nat.mul_div_cancel _ pageSize_pos
  have unmapped : (entries log).visible (min version maxVersions) (bound + origSize) = none := by
    cases found : (entries log).visible (min version maxVersions) (bound + origSize) with
    | none => rfl
    | some p =>
        obtain ⟨e, member, _, _, key, _⟩ := History.exists_entry_of_visible found
        have inside : e.key ∈ Finset.range bound :=
          mapped (List.mem_toFinset.mpr (List.mem_map_of_mem member))
        have := Finset.mem_range.mp inside
        omega
  have past : ¬ bound + origSize < origSize / pageSize := by
    unfold pageSize
    omega
  refine ⟨(bound + origSize) * pageSize, ?_⟩
  unfold viewByte resolve
  rw [block, unmapped, if_neg past]
  rfl

/-- A content that is shown without gaps is read back. -/
theorem readsWhollyBack_of_shown {c : Contents} (sound : Sound c.state)
    (shown : ∀ x < c.size, visibleByte c.state c.state.version x = some (c.byte x)) :
    ReadsWhollyBack c := by
  have delivers := delivers_readParent c.state
  have here := SameContent.refl sound
  refine ⟨fun sizes positive stopped x inside => ?_, ?_⟩
  · refine delivers.complete positive here stopped (fun x inside => ?_) inside
    rw [← visibleByte_eq sound.coherent]
    exact shown x inside
  · obtain ⟨x, past⟩ := exists_viewByte_none c.state.log c.state.origSize c.state.file
      c.state.version
    exact ⟨x + 1, fun sizes enough => delivers.stops here past enough⟩

end Reading

/-! ## The invariant -/

/-- The content of a run is what a reader finds. -/
structure Consistent (c : Contents) : Prop where
  tidy : Tidy c.state
  shown : ∀ x < c.size, visibleByte c.state c.state.version x = some (c.byte x)
  /-- what can be read behind the content is zero -/
  rest : ∀ x b, c.size ≤ x → visibleByte c.state c.state.version x = some b → b = 0
  blank : ∀ x, c.size ≤ x → c.byte x = 0
  /-- so is the original file behind the content -/
  edge : ∀ x, c.size ≤ x → x < c.state.origSize → c.state.file.byteAt x = 0

theorem consistent_start (f : ByteFile UInt8) (handles : List Handle) :
    Consistent (.start f handles) := by
  have view (x : Nat) : visibleByte (Contents.start f handles).state
      (Contents.start f handles).state.version x = f.get? x := visibleByte_freshlyOpened _ _ _
  refine ⟨tidy_freshlyOpened _ _, fun x inside => ?_, fun x b past read => ?_,
    fun x past => ByteFile.byteAt_of_size_le past,
    fun x past _ => ByteFile.byteAt_of_size_le past⟩
  · rw [view]
    exact if_pos inside
  · rw [view] at read
    have inside := (ByteFile.get?_eq_some_iff.mp read).1
    have past : f.size ≤ x := past
    omega

section Step

variable {c : Contents} {w : WriteReq} {env : WriteEnv} {file : Handle} {x : Nat}

/-- A write that gets into its last block leaves no loose ends. -/
theorem Tidy.written {s : State} (tidy : Tidy s) (able : Recordable s env)
    (isOpen : file ∈ s.handles) (reaches : Reaches s w env) : Tidy (written env s file w) := by
  have log := log_written (able.recorded file w)
  have original : (Scorw.written env s file w).origSize = s.origSize :=
    (recorded_frame env s file w).1
  have grown : s.file.size ≤ (Scorw.written env s file w).file.size :=
    (redirectedLoop_keeps env s w).size_le
  refine ⟨able.sound_written isOpen tidy.sound, fun r member => ?_, fun r member => ?_, ?_⟩
  · rw [able.version_written]
    rw [log] at member
    rcases List.mem_append.mp member with old | new
    · exact Nat.le_succ_of_le (tidy.ahead r old)
    · rw [List.mem_singleton.mp new]
  · rw [log] at member
    rcases List.mem_append.mp member with old | new
    · exact le_trans (tidy.stop r old) (roundUp_mono grown)
    · have fits := w.fitsRecord
      have count : u32 w.nrBlk = w.nrBlk := u32_of_lt (by unfold FitsRecord at fits; omega)
      rw [List.mem_singleton.mp new]
      dsimp only
      rw [count, Nat.add_mul, roundUp_div_mul]
      exact room_of_reaches tidy.sound.aligned (able.copied w) reaches
  · rw [original]
    exact le_trans tidy.covers (roundUp_mono grown)

/-- The file reaches behind what is placed. -/
theorem size_of_placed {s : State} (some : 0 < w.placed env s) :
    roundUp s.file.size + w.pos % pageSize < (redirectedLoop env s w).file.size := by
  rw [size_redirectedLoop]
  unfold WriteReq.placed at some
  rcases loopEnd_cases env.pages (roundUp s.file.size + w.pos % pageSize) w.count with
    ⟨_, none⟩ | reach
  · omega
  · rw [reach]
    omega

/-- In front of a write that places something, all mapped blocks can be read to their end. -/
theorem readable_before {s : State} (tidy : Tidy s) (able : Recordable s env)
    (isOpen : file ∈ s.handles) (some : 0 < w.placed env s) (before : x < w.pos)
    (mapped : x < w.startBlk * pageSize →
      (resolve s.log s.origSize s.version (x / pageSize)).isSome) :
    (visibleByte (written env s file w) (written env s file w).version x).isSome := by
  have size := size_of_placed some
  have readable {y : Nat} (inside : y < (redirectedLoop env s w).file.size) :
      ((redirectedLoop env s w).file.get? y).isSome := by
    unfold ByteFile.get?
    rw [if_pos inside]
    rfl
  rw [visibleByte_written tidy able isOpen]
  split
  case isTrue blocks =>
    apply readable
    refine lt_of_le_of_lt ?_ size
    unfold WriteReq.appended WriteReq.startBlk pageSize
    omega
  case isFalse outside =>
    have earlier : x < w.startBlk * pageSize := by
      have first : x / pageSize ≤ w.startBlk := Nat.div_le_div_right (by omega)
      unfold WriteReq.nrBlk at outside
      unfold pageSize at *
      omega
    obtain ⟨p, found⟩ := Option.isSome_iff_exists.mp (mapped earlier)
    have inside := tidy.resolved found
    have offset : x % pageSize < pageSize := Nat.mod_lt _ pageSize_pos
    unfold viewByte
    rw [found, Option.bind_some]
    apply readable
    rw [Nat.add_mul, Nat.one_mul] at inside
    omega

/-- What can be read behind the content stays zero. -/
theorem Consistent.zero_written (inv : Consistent c) (able : Recordable c.state env)
    (isOpen : file ∈ c.state.handles) (past : c.size ≤ x)
    (outside : x < w.pos ∨ w.pos + w.placed env c.state ≤ x) {b : UInt8}
    (read : visibleByte (written env c.state file w) (written env c.state file w).version x =
      some b) : b = 0 := by
  have kept {new : Option UInt8} (shows : Shows (visibleByte c.state c.state.version x) new)
      (here : new = some b) : b = 0 := by
    rcases shows with same | ⟨_, zero⟩
    · exact inv.rest x b past (same.symm.trans here)
    · rw [zero] at here
      exact (Option.some.inj here).symm
  rw [visibleByte_written inv.tidy able isOpen] at read
  split at read
  case isFalse => exact kept (shows_elsewhere inv.tidy env w x) read
  case isTrue blocks =>
    rcases outside with before | behind
    · exact kept (shows_before inv.tidy able blocks.1 before) read
    · rw [get?_behind behind, get?_copied inv.tidy able.lookup (able.copied w) blocks.1
        blocks.2] at read
      split at read
      case isTrue first => exact kept (shows_copied inv.tidy first.1) read
      case isFalse =>
        split at read
        case isFalse => cases read
        case isTrue tail =>
          rw [← Option.some.inj read]
          split
          case isFalse => rfl
          case isTrue last =>
            -- the original block that is copied holds nothing behind the content
            apply inv.edge x past
            have original := tail.2.2
            have aligned := inv.tidy.sound.aligned
            rw [← last] at original
            unfold pageSize at *
            omega

/-- A seamless write keeps the content what a reader finds. -/
theorem Consistent.written (inv : Consistent c) (isOpen : file ∈ c.state.handles)
    (seamless : Seamless c w env) :
    Consistent (c.after w (redirectedLoop env c.state w).reply
      (written env c.state file w)) := by
  have able := seamless.able
  have whole := seamless.reported
  have keeps := redirectedLoop_keeps env c.state w
  have size : (c.after w (redirectedLoop env c.state w).reply
      (Scorw.written env c.state file w)).size =
        if w.reported env c.state = 0 then c.size
        else max c.size (w.pos + w.reported env c.state) := by
    unfold Contents.after
    rw [toNat_reply]
  have byte (x : Nat) : (c.after w (redirectedLoop env c.state w).reply
      (Scorw.written env c.state file w)).byte x =
        if w.pos ≤ x ∧ x < w.pos + w.reported env c.state then w.data.getD (x - w.pos) default
        else c.byte x := by
    unfold Contents.after
    rw [toNat_reply]
  -- behind the new content lies what was behind the old one, and not in the written bytes
  have behind {x : Nat} (past : (c.after w (redirectedLoop env c.state w).reply
      (Scorw.written env c.state file w)).size ≤ x) :
      c.size ≤ x ∧ (x < w.pos ∨ w.pos + w.reported env c.state ≤ x) := by
    rw [size] at past
    split at past
    · omega
    · omega
  refine ⟨inv.tidy.written able isOpen seamless.reaches, fun x inside => ?_,
    fun x b past read => ?_, fun x past => ?_, fun x past original => ?_⟩
  · rw [byte]
    split
    case isTrue reported =>
      exact visibleByte_placed inv.tidy able isOpen reported.1 (by omega)
    case isFalse unreported =>
      by_cases old : x < c.size
      · have shows := (shows_written_iff inv.tidy able isOpen unreported).mpr
          (seamless.survives x old)
        rw [inv.shown x old] at shows
        rcases shows with same | ⟨missing, _⟩
        · exact same
        · cases missing
      · -- the bytes between the old end and the write
        have gap : x < w.pos ∧ 0 < w.reported env c.state := by
          rw [size] at inside
          split at inside
          · omega
          · omega
        have readable := readable_before inv.tidy able isOpen (whole ▸ gap.2) gap.1
          fun earlier => seamless.mapped gap.2 x (by omega) earlier
        obtain ⟨b, read⟩ := Option.isSome_iff_exists.mp readable
        rw [inv.blank x (by omega)]
        have zero := inv.zero_written able isOpen (by omega) (.inl gap.1) read
        exact zero ▸ read
  · obtain ⟨old, outside⟩ := behind past
    exact inv.zero_written able isOpen old (whole ▸ outside) read
  · obtain ⟨old, outside⟩ := behind past
    rw [byte, if_neg (by omega)]
    exact inv.blank x old
  · have same : (Scorw.written env c.state file w).origSize = c.state.origSize :=
      (recorded_frame env c.state file w).1
    have below : x < c.state.origSize := same ▸ original
    have covers := inv.tidy.covers
    exact (keeps.byteAt_eq x (by omega)).trans (inv.edge x (behind past).1 below)

end Step

theorem contentsStep_consistent {c c' : Contents} {call : WriteCall} {ret : Int}
    (inv : Consistent c) (seamless : call.Seamless c)
    (taken : contentsStep c call = some (ret, c')) : Consistent c' := by
  unfold contentsStep at taken
  cases checked : genericWriteChecks c.state call with
  | none =>
      rw [checked] at taken
      cases taken
      exact inv
  | some w =>
      rw [checked] at taken
      obtain ⟨⟨ret', s'⟩, done, result⟩ := Option.map_eq_some_iff.mp taken
      obtain ⟨ready, kept, this⟩ := seamless w checked
      have op : step c.state (.write call.file w (call.env.reported call.uptodate w)) =
          some (ret', s') := by
        have fetched : Call.Ready c.state
            ⟨.write call.file w call.env, call.fetches, call.uptodate⟩ := ready
        rw [syscall_eq fetched] at done
        unfold Call.toOp at done
        dsimp only at done
        rwa [w.delivered_eq (delivered_of_noneDropped kept)] at done
      have isOpen : call.file ∈ c.state.handles := by
        cases step_cases op with
        | write isOpen => exact isOpen
      rw [this.able.step_eq isOpen] at op
      cases op
      cases result
      exact inv.written isOpen this

/-- In every run of plain writes to a fresh parent, at whatever offsets or appending, if each is
seamless, reading from offset 0 on with whatever buffers ends, and returns every byte up to the
highest offset written. -/
theorem sequential_read_complete {f : ByteFile UInt8} {handles : List Handle}
    {calls : List WriteCall} {c : Contents}
    (run : Run contentsStep (fun c call => call.Seamless c) (.start f handles) calls c) :
    ReadsWhollyBack c := by
  have inv : Consistent c := run.invariant
    (fun _ _ _ _ inv seamless taken => contentsStep_consistent inv seamless taken)
    (consistent_start f handles)
  exact readsWhollyBack_of_shown inv.tidy.sound inv.shown

/-- The write adjoins the content, has nothing of it behind, finds its pages, and is recorded
and gets into its last block. -/
def WriteCall.adjoins (c : Contents) (call : WriteCall) : Bool :=
  (genericWriteChecks c.state call).all fun w =>
    let env := call.env.reported call.uptodate w
    decide (c.state.tLocks.locked = false ∧ c.state.version + 1 ≤ maxVersions) &&
    decide (Reaches c.state w env ∧ w.placed env c.state = w.reported env c.state) &&
    decide (w.startBlk * pageSize ≤ c.size ∧ c.size ≤ w.pos + w.reported env c.state) &&
    decide (Fetched call.fetches c.state.log.length)

theorem seamless_of_adjoins {c : Contents} {call : WriteCall} {passes : Nat}
    (clean : call.env = .clean passes) (found : call.uptodate = [])
    (adjoins : call.adjoins c = true) : call.Seamless c := by
  intro w checked
  unfold WriteCall.adjoins at adjoins
  rw [checked] at adjoins
  simp only [Option.all_some, Bool.and_eq_true, decide_eq_true_eq] at adjoins
  obtain ⟨⟨⟨⟨free, version⟩, reaches, reported⟩, near, last⟩, ready⟩ := adjoins
  have able : Recordable c.state (call.env.reported call.uptodate w) := by
    rw [clean]
    exact ⟨free, version, rfl, fun _ => rfl, Env.clean_faultFree, rfl, rfl⟩
  refine ⟨ready, ?_, able, reaches, reported, fun _ x past before => ?_,
    fun x inside behind => ?_⟩
  · rw [found]
    exact noneDropped_of_uptodate _ _ _
  · omega
  · omega

/-- Three bytes at the end of a parent of one page, and two more that are appended. -/
theorem sequential_read_complete_appended :
    ∃ c : Contents,
      Run contentsStep (fun c call => call.Seamless c) (.start (sevens 4096) [0])
        [⟨0, false, 4096, [1, 2, 3], .clean 1, [.cleared], []⟩,
          ⟨0, true, 0, [4, 5], .clean 1, [.cached], []⟩] c ∧
      c.size = 4101 ∧ c.byte 0 = 7 ∧ c.byte 4100 = 5 ∧ ReadsWhollyBack c := by
  refine Run.exists_imp (fun c call => call.adjoins c) ?_
    (Q := fun c => c.size = 4101 ∧ c.byte 0 = 7 ∧ c.byte 4100 = 5) (by decide +kernel) ?_
  · intro call member c adjoins
    simp only [List.mem_cons, List.not_mem_nil, or_false] at member
    rcases member with rfl | rfl
    · exact seamless_of_adjoins rfl rfl adjoins
    · exact seamless_of_adjoins rfl rfl adjoins
  · rintro c run ⟨size, first, last⟩
    exact ⟨size, first, last, sequential_read_complete run⟩

theorem not_readsWhollyBack {c : Contents} {sizes : List Nat} (positive : ∀ n ∈ sizes, 0 < n)
    (stopped : (drain readParent sizes c.state 0).2 = true)
    (short : (drain readParent sizes c.state 0).1.length < c.size) : ¬ ReadsWhollyBack c := by
  intro back
  have last := back.complete sizes positive stopped _ short
  rw [List.getElem?_eq_none le_rfl] at last
  cases last

/-- A byte two pages past the end of a parent of one page, or a byte that is appended after one
was written at offset 0, is behind a block that nothing is mapped to: the reading stops at
offset 4096. -/
theorem sequential_read_complete_fails :
    (∃ c : Contents, Run contentsStep (fun _ _ => True) (.start (sevens 4096) [0])
        [⟨0, false, 8192, [1], .clean 1, [.cleared], []⟩] c ∧
      c.size = 8193 ∧ visibleByte c.state c.state.version 8192 = some 1 ∧
      (drain readParent [4096, 4096] c.state 0).2 = true ∧
      (drain readParent [4096, 4096] c.state 0).1.length = 4096 ∧ ¬ ReadsWhollyBack c) ∧
    ∃ c : Contents, Run contentsStep (fun _ _ => True) (.start (sevens 4096) [0])
        [⟨0, false, 0, [1], .clean 1, [.cleared], []⟩, ⟨0, true, 0, [2], .clean 1, [], []⟩] c ∧
      c.size = 8193 ∧ visibleByte c.state c.state.version 8192 = some 2 ∧
      (drain readParent [4096, 4096] c.state 0).2 = true ∧
      (drain readParent [4096, 4096] c.state 0).1.length = 4096 ∧ ¬ ReadsWhollyBack c := by
  have positive : ∀ n ∈ [4096, 4096], 0 < n := by simp
  constructor
  · refine Run.exists_imp (fun _ _ => true) (fun _ _ _ _ => trivial) (Q := fun c =>
      c.size = 8193 ∧ visibleByte c.state c.state.version 8192 = some 1 ∧
      (drain readParent [4096, 4096] c.state 0).2 = true ∧
      (drain readParent [4096, 4096] c.state 0).1.length = 4096) (by decide +kernel) ?_
    rintro c _ ⟨size, shown, stopped, length⟩
    exact ⟨size, shown, stopped, length,
      not_readsWhollyBack positive stopped (by rw [length, size]; decide)⟩
  · refine Run.exists_imp (fun _ _ => true) (fun _ _ _ _ => trivial) (Q := fun c =>
      c.size = 8193 ∧ visibleByte c.state c.state.version 8192 = some 2 ∧
      (drain readParent [4096, 4096] c.state 0).2 = true ∧
      (drain readParent [4096, 4096] c.state 0).1.length = 4096) (by decide +kernel) ?_
    rintro c _ ⟨size, shown, stopped, length⟩
    exact ⟨size, shown, stopped, length,
      not_readsWhollyBack positive stopped (by rw [length, size]; decide)⟩

end FlexClone.Scorw
