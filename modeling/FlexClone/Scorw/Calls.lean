import FlexClone.Scorw.LogAppend
import FlexClone.Scorw.System

/-!
# Calls and the page cache

`step` takes the page cache to be out of the way: a record is appended to the log as it is,
and a pass of the data loop takes from the user what `write_end` reports. `syscall` is one
system call with the two ways in which pages come in.

* The records of a call go through `write_offset_log`, which clears a page that has left
  memory (`LogFetch`).
* A pass of the data loop that copies less than it asked for into a page that is not up to
  date is reported as 0 bytes, but the iterator has moved: the loop tries again at the same
  position with the bytes behind them.

Every call asks for its maps before it appends a record, and nothing reads the log between
two records of a call. So the records a call hands to `write_offset_log` are those `step`
appends. Vectored writes keep the loop without an iterator: what a vector drops is then the
vectored write of the data that is left.

`syscall_eq`: a call whose fetches find their pages is a call of `step`, with the data that
was delivered (`Call.toOp`).
-/

namespace FlexClone.Scorw

/-! ## The data loop with its iterator -/

/-- `ext4_da_write_end` of `copied` bytes out of `bytes`: a short copy into a page that is not
up to date is dropped. -/
def writeEnd (uptodate : Bool) (copied bytes : Nat) : Nat :=
  if copied < bytes ∧ uptodate = false then 0 else copied

/-- The data loop of `scorw_generic_perform_write`. The data is what the iterator still has.
`copied n` says that `n` bytes can be copied; `uptodate` is about the page of each pass, and
an exhausted list says that it is. -/
def writeFromIter : List PageOutcome → List Bool → ByteFile UInt8 → Nat → List UInt8 → Nat →
    PageLoop
  | [], _, f, _, _, written => ⟨written, eintr, f⟩
  | outcome :: outcomes, uptodate, f, pos, data, written =>
      let bytes := min (pageSize - pos % pageSize) data.length
      match outcome with
      | .signal => ⟨written, eintr, f⟩
      | .beginFailed => ⟨written, eio, f⟩
      | .endFailed n => ⟨written, eio, f.put pos (data.take (min n bytes))⟩
      | .copied n =>
          let copied := min n bytes
          let status := writeEnd (uptodate.headD true) copied bytes
          let f := f.put pos (data.take status)
          -- the iterator is behind what was copied, whatever was reported
          if data.drop copied = [] then ⟨written + status, status, f⟩
          else
            writeFromIter outcomes uptodate.tail f (pos + status) (data.drop copied)
              (written + status)

/-- `scorw_generic_perform_write` on a see-through parent. -/
def performWrite (env : WriteEnv) (uptodate : List Bool) (s : State) (file : Handle)
    (w : WriteReq) : Option (Int × State) :=
  match writeSeeThruRo env s file w with
  | none => none
  | some (pos, s) =>
      if pos < 0 then some (pos, s)
      else
        let loop := writeFromIter env.pages uptodate s.file pos.toNat w.data 0
        some (loop.reply, { s with file := loop.file })

/-! ## System calls -/

/-- A system call, and how it finds the pages it needs. -/
structure Call where
  op : Op
  /-- the page of the log, for each record -/
  fetches : List LogFetch
  /-- is the page up to date, in each pass of the data loop? -/
  uptodate : List Bool

/-- Every page is found. -/
def Op.cached (op : Op) : Call := ⟨op, [], []⟩

/-- The call, but for the way its records take to the log. -/
def Call.perform (s : State) (c : Call) : Option (Int × State) :=
  match c.op with
  | .write file w env =>
      if file ∈ s.handles then performWrite env c.uptodate s file w else none
  | op => step s op

/-- One system call. -/
def syscall (s : State) (c : Call) : Option (Int × State) :=
  (c.perform s).map fun r => (r.1, { r.2 with log := relog c.fetches s.log r.2.log })

/-- Each record of the call finds the page with the end of the log in memory, or the log ends
on a page boundary and a page can be had. -/
def Call.Ready (s : State) (c : Call) : Prop := Fetched c.fetches s.log.length

instance (s : State) (c : Call) : Decidable (c.Ready s) :=
  inferInstanceAs (Decidable (Fetched _ _))

/-! ## What was delivered -/

/-- The passes as `write_end` reports them, of a loop that still has `remaining` bytes. -/
def reportedPasses : List PageOutcome → List Bool → Nat → Nat → List PageOutcome
  | [], _, _, _ => []
  | outcome :: outcomes, uptodate, pos, remaining =>
      let bytes := min (pageSize - pos % pageSize) remaining
      match outcome with
      | .signal => [.signal]
      | .beginFailed => [.beginFailed]
      | .endFailed n => [.endFailed (min n bytes)]
      | .copied n =>
          let copied := min n bytes
          let status := writeEnd (uptodate.headD true) copied bytes
          .copied status ::
            if remaining ≤ copied then []
            else reportedPasses outcomes uptodate.tail (pos + status) (remaining - copied)

/-- The bytes that come to lie at the position of the write and behind it: those of the data
that no pass has dropped. -/
def delivered : List PageOutcome → List Bool → Nat → List UInt8 → List UInt8
  | .copied n :: outcomes, uptodate, pos, data =>
      let bytes := min (pageSize - pos % pageSize) data.length
      let copied := min n bytes
      let status := writeEnd (uptodate.headD true) copied bytes
      data.take status ++
        if data.length ≤ copied then []
        else delivered outcomes uptodate.tail (pos + status) (data.drop copied)
  | _, _, _, data => data

theorem writeEnd_le (uptodate : Bool) (copied bytes : Nat) :
    writeEnd uptodate copied bytes ≤ copied := by
  unfold writeEnd
  split
  · exact Nat.zero_le _
  · exact le_rfl

/-- A pass that reaches the end of the data is reported. -/
theorem writeEnd_of_all (uptodate : Bool) {n room length : Nat}
    (all : length ≤ min n (min room length)) :
    writeEnd uptodate (min n (min room length)) (min room length) = length := by
  unfold writeEnd
  rw [if_neg (by omega)]
  omega

theorem length_delivered_le (outcomes : List PageOutcome) (uptodate : List Bool) (pos : Nat)
    (data : List UInt8) : (delivered outcomes uptodate pos data).length ≤ data.length := by
  induction outcomes generalizing uptodate pos data with
  | nil => exact le_rfl
  | cons outcome outcomes ih =>
      cases outcome with
      | signal => exact le_rfl
      | beginFailed => exact le_rfl
      | endFailed n => exact le_rfl
      | copied n =>
          have status := writeEnd_le (uptodate.headD true)
            (min n (min (pageSize - pos % pageSize) data.length))
            (min (pageSize - pos % pageSize) data.length)
          unfold delivered
          dsimp only
          rw [List.length_append, List.length_take]
          split
          · rw [List.length_nil]
            omega
          · have rest := ih uptodate.tail (pos + writeEnd (uptodate.headD true)
              (min n (min (pageSize - pos % pageSize) data.length))
              (min (pageSize - pos % pageSize) data.length))
              (data.drop (min n (min (pageSize - pos % pageSize) data.length)))
            rw [List.length_drop] at rest
            omega

theorem delivered_ne_nil {outcomes : List PageOutcome} {uptodate : List Bool} {pos : Nat}
    {data : List UInt8} (some : data ≠ []) : delivered outcomes uptodate pos data ≠ [] := by
  induction outcomes generalizing uptodate pos data with
  | nil => exact some
  | cons outcome outcomes ih =>
      cases outcome with
      | signal => exact some
      | beginFailed => exact some
      | endFailed n => exact some
      | copied n =>
          have length := List.length_pos_iff.mpr some
          unfold delivered
          dsimp only
          split
          case isTrue all =>
            rw [writeEnd_of_all _ all, List.take_length, List.append_nil]
            exact some
          case isFalse more =>
            refine List.append_ne_nil_of_right_ne_nil _ (ih ?_)
            exact List.ne_nil_of_length_pos (by rw [List.length_drop]; omega)

/-- The loop is the loop without an iterator, on the passes as they are reported and the bytes
that are delivered. What follows these bytes is never reached. -/
theorem writeFromIter_eq (outcomes : List PageOutcome) (uptodate : List Bool)
    (f : ByteFile UInt8) {pos pos' : Nat} (same : pos' % pageSize = pos % pageSize)
    {data : List UInt8} (some : data ≠ []) (rest : List UInt8) (written : Nat) :
    (writeFromIter outcomes uptodate f pos data written).reply =
        (writePages (reportedPasses outcomes uptodate pos' data.length) f pos
          (delivered outcomes uptodate pos' data ++ rest) written).reply ∧
      (writeFromIter outcomes uptodate f pos data written).file =
        (writePages (reportedPasses outcomes uptodate pos' data.length) f pos
          (delivered outcomes uptodate pos' data ++ rest) written).file := by
  induction outcomes generalizing uptodate f pos pos' data written with
  | nil => exact ⟨rfl, rfl⟩
  | cons outcome outcomes ih =>
      cases outcome with
      | signal => exact ⟨rfl, rfl⟩
      | beginFailed => exact ⟨rfl, rfl⟩
      | endFailed n =>
          have cut : (data ++ rest).take (min (min n (min (pageSize - pos % pageSize)
              data.length)) (min (pageSize - pos % pageSize) (data ++ rest).length)) =
              data.take (min n (min (pageSize - pos % pageSize) data.length)) := by
            rw [List.length_append, List.take_append_of_le_length (by omega)]
            congr 1
            omega
          unfold writeFromIter reportedPasses delivered writePages
          dsimp only
          rw [same, cut]
          exact ⟨rfl, rfl⟩
      | copied n =>
          unfold writeFromIter reportedPasses delivered writePages
          dsimp only
          rw [same]
          have positive := List.length_pos_iff.mpr some
          obtain ⟨r, room⟩ : ∃ r, pageSize - pos % pageSize = r := ⟨_, rfl⟩
          obtain ⟨status, reported⟩ : ∃ status, writeEnd (uptodate.headD true)
            (min n (min r data.length)) (min r data.length) = status := ⟨_, rfl⟩
          have least := writeEnd_le (uptodate.headD true) (min n (min r data.length))
            (min r data.length)
          rw [reported] at least
          simp only [room, reported]
          have length : (data.take status).length = status :=
            List.length_take_of_le (by omega)
          -- both loops place the bytes that are reported
          have placed : min status (min r ((data.take status ++
              (if data.length ≤ min n (min r data.length) then []
                else delivered outcomes uptodate.tail (pos' + status)
                  (data.drop (min n (min r data.length))))) ++ rest).length) = status := by
            rw [List.length_append, List.length_append, length]
            omega
          rw [placed, List.append_assoc, List.take_left' length, List.drop_left' length]
          by_cases all : data.length ≤ min n (min r data.length)
          · have none : data.drop (min n (min r data.length)) = [] :=
              List.drop_eq_nil_of_le all
            have whole : status = data.length := by
              rw [← reported]
              exact writeEnd_of_all _ all
            rw [if_pos none, if_pos all, if_pos all]
            cases rest with
            | nil => exact ⟨rfl, rfl⟩
            | cons b rest =>
                rw [List.nil_append, if_neg (List.cons_ne_nil b rest)]
                refine ⟨?_, rfl⟩
                unfold PageLoop.reply writePages
                dsimp only
                rw [if_pos (by omega), if_pos (by omega)]
          · have more : data.drop (min n (min r data.length)) ≠ [] :=
              List.ne_nil_of_length_pos (by rw [List.length_drop]; omega)
            have next : (pos' + status) % pageSize = (pos + status) % pageSize := by
              rw [Nat.add_mod, same, ← Nat.add_mod]
            have left : delivered outcomes uptodate.tail (pos' + status)
                (data.drop (min n (min r data.length))) ++ rest ≠ [] :=
              List.append_ne_nil_of_left_ne_nil (delivered_ne_nil more) rest
            rw [if_neg more, if_neg all, if_neg all, if_neg left, ← List.length_drop]
            exact ih uptodate.tail _ next more _

/-- Nothing is dropped when as much is delivered as there is. -/
theorem delivered_of_length {outcomes : List PageOutcome} {uptodate : List Bool} {pos : Nat}
    {data : List UInt8} (all : data.length ≤ (delivered outcomes uptodate pos data).length) :
    delivered outcomes uptodate pos data = data := by
  induction outcomes generalizing uptodate pos data with
  | nil => rfl
  | cons outcome outcomes ih =>
      cases outcome with
      | signal => rfl
      | beginFailed => rfl
      | endFailed n => rfl
      | copied n =>
          unfold delivered at all ⊢
          dsimp only at all ⊢
          rw [List.length_append, List.length_take] at all
          have least := writeEnd_le (uptodate.headD true)
            (min n (min (pageSize - pos % pageSize) data.length))
            (min (pageSize - pos % pageSize) data.length)
          generalize writeEnd _ _ _ = status at *
          generalize min (pageSize - pos % pageSize) data.length = bytes at *
          split
          case isTrue last =>
            rw [if_pos last, List.length_nil] at all
            rw [List.append_nil, List.take_of_length_le (by omega)]
          case isFalse more =>
            rw [if_neg more] at all
            have fewer := length_delivered_le outcomes uptodate.tail (pos + status)
              (data.drop (min n bytes))
            rw [List.length_drop] at fewer
            have whole : status = min n bytes := by omega
            rw [ih (by rw [List.length_drop]; omega), whole, List.take_append_drop]

/-- No pass copies only a part of what it asked for into a page that is not up to date. -/
def NoneDropped : List PageOutcome → List Bool → Nat → Nat → Prop
  | .copied n :: outcomes, uptodate, pos, remaining =>
      let bytes := min (pageSize - pos % pageSize) remaining
      let copied := min n bytes
      (copied = 0 ∨ copied = bytes ∨ uptodate.headD true = true) ∧
        (copied < remaining →
          NoneDropped outcomes uptodate.tail (pos + copied) (remaining - copied))
  | _, _, _, _ => True

theorem noneDropped_of_uptodate (outcomes : List PageOutcome) (pos remaining : Nat) :
    NoneDropped outcomes [] pos remaining := by
  induction outcomes generalizing pos remaining with
  | nil => trivial
  | cons outcome outcomes ih =>
      cases outcome with
      | signal | beginFailed | endFailed => trivial
      | copied n => exact ⟨.inr (.inr rfl), fun _ => ih _ _⟩

theorem delivered_of_noneDropped {outcomes : List PageOutcome} {uptodate : List Bool} {pos : Nat}
    {data : List UInt8} (kept : NoneDropped outcomes uptodate pos data.length) :
    delivered outcomes uptodate pos data = data := by
  induction outcomes generalizing uptodate pos data with
  | nil => rfl
  | cons outcome outcomes ih =>
      cases outcome with
      | signal => rfl
      | beginFailed => rfl
      | endFailed n => rfl
      | copied n =>
          obtain ⟨pass, rest⟩ := kept
          unfold delivered
          dsimp only at rest ⊢
          generalize bounded : min (pageSize - pos % pageSize) data.length = bytes at *
          have status : writeEnd (uptodate.headD true) (min n bytes) bytes = min n bytes := by
            unfold writeEnd
            split
            case isTrue short =>
              rcases pass with none | all | fresh
              · exact none.symm
              · omega
              · rw [fresh] at short
                cases short.2
            case isFalse => rfl
          rw [status]
          split
          case isTrue last => rw [List.append_nil, List.take_of_length_le last]
          case isFalse more =>
            have tail := rest (by omega)
            rw [← List.length_drop] at tail
            rw [ih tail, List.take_append_drop]

/-! ## The operation a call amounts to -/

/-- The request with the bytes that are delivered. -/
def WriteReq.delivered (w : WriteReq) (outcomes : List PageOutcome) (uptodate : List Bool) :
    WriteReq :=
  have length : (Scorw.delivered outcomes uptodate w.pos w.data ++ List.replicate
      (w.data.length - (Scorw.delivered outcomes uptodate w.pos w.data).length) 0).length =
        w.data.length := by
    rw [List.length_append, List.length_replicate]
    exact Nat.add_sub_cancel' (length_delivered_le outcomes uptodate w.pos w.data)
  { pos := w.pos
    data := Scorw.delivered outcomes uptodate w.pos w.data ++ List.replicate
      (w.data.length - (Scorw.delivered outcomes uptodate w.pos w.data).length) 0
    nonempty := List.append_ne_nil_of_left_ne_nil (delivered_ne_nil w.nonempty) _
    fits := by
      rw [length]
      exact w.fits }

section Delivered

variable (w : WriteReq) (outcomes : List PageOutcome) (uptodate : List Bool)

@[simp] theorem WriteReq.pos_delivered : (w.delivered outcomes uptodate).pos = w.pos := rfl

@[simp] theorem WriteReq.count_delivered : (w.delivered outcomes uptodate).count = w.count := by
  unfold delivered count
  dsimp only
  rw [List.length_append, List.length_replicate]
  exact Nat.add_sub_cancel' (length_delivered_le outcomes uptodate w.pos w.data)

@[simp] theorem WriteReq.startBlk_delivered :
    (w.delivered outcomes uptodate).startBlk = w.startBlk := rfl

@[simp] theorem WriteReq.endBlk_delivered :
    (w.delivered outcomes uptodate).endBlk = w.endBlk := by
  unfold endBlk
  rw [pos_delivered, count_delivered]

@[simp] theorem WriteReq.nrBlk_delivered : (w.delivered outcomes uptodate).nrBlk = w.nrBlk := by
  unfold nrBlk
  rw [startBlk_delivered, endBlk_delivered]

@[simp] theorem WriteReq.copiesHead_delivered :
    (w.delivered outcomes uptodate).CopiesHead ↔ w.CopiesHead := by
  unfold CopiesHead
  rw [startBlk_delivered, endBlk_delivered, pos_delivered, count_delivered]

@[simp] theorem WriteReq.copiesTail_delivered (logicalSize : Nat) :
    (w.delivered outcomes uptodate).CopiesTail logicalSize ↔ w.CopiesTail logicalSize := by
  unfold CopiesTail
  rw [startBlk_delivered, endBlk_delivered, pos_delivered, count_delivered]

theorem WriteReq.delivered_eq {w : WriteReq} {outcomes : List PageOutcome}
    {uptodate : List Bool} (same : Scorw.delivered outcomes uptodate w.pos w.data = w.data) :
    w.delivered outcomes uptodate = w := by
  unfold delivered
  simp only [same, Nat.sub_self, List.replicate_zero, List.append_nil]

end Delivered

/-- The environment of a write with the passes as they are reported. -/
def WriteEnv.reported (env : WriteEnv) (uptodate : List Bool) (w : WriteReq) : WriteEnv :=
  { env with pages := reportedPasses env.pages uptodate w.pos w.count }

/-- The operation the call amounts to. -/
def Call.toOp (c : Call) : Op :=
  match c.op with
  | .write file w env =>
      .write file (w.delivered env.pages c.uptodate) (env.reported c.uptodate w)
  | op => op

section Redirected

variable {env : WriteEnv} {s s' : State} {file : Handle} {w : WriteReq}

/-- What is copied up does not depend on the data. -/
theorem copyUp_delivered (env : WriteEnv) (f : ByteFile UInt8) (logicalSize : Nat)
    (w : WriteReq) (uptodate : List Bool) (toWriteBlock : Option Nat) (appendPos : Nat) :
    copyUp (env.reported uptodate w) f logicalSize (w.delivered env.pages uptodate) toWriteBlock
        appendPos =
      copyUp env f logicalSize w toWriteBlock appendPos := by
  unfold copyUp copyHeadBlock copyTailBlock
  simp only [WriteReq.copiesHead_delivered, WriteReq.copiesTail_delivered,
    WriteReq.startBlk_delivered, WriteReq.endBlk_delivered, WriteReq.pos_delivered]
  rfl

theorem redirect_delivered (env : WriteEnv) (s : State) (file : Handle) (w : WriteReq)
    (uptodate : List Bool) (status : TransactionState) :
    redirect (env.reported uptodate w) s file (w.delivered env.pages uptodate) status =
      redirect env s file w status := by
  unfold redirect
  simp only [copyUp_delivered, WriteReq.startBlk_delivered, WriteReq.nrBlk_delivered,
    WriteReq.pos_delivered]
  rfl

/-- Where the data goes does not depend on the data either. -/
theorem writeSeeThruRo_delivered (env : WriteEnv) (s : State) (file : Handle) (w : WriteReq)
    (uptodate : List Bool) :
    writeSeeThruRo (env.reported uptodate w) s file (w.delivered env.pages uptodate) =
      writeSeeThruRo env s file w := by
  unfold writeSeeThruRo
  simp only [redirect_delivered]
  rfl

/-- The data goes to the same offset in a page. -/
theorem writeSeeThruRo_offset {pos : Int} (done : writeSeeThruRo env s file w = some (pos, s'))
    (nonneg : ¬ pos < 0) : pos.toNat % pageSize = w.pos % pageSize := by
  have redirected {t : State} {status : TransactionState}
      (result : redirect env t file w status = (pos, s')) :
      pos.toNat % pageSize = w.pos % pageSize := by
    have appended : (roundUp t.file.size + w.pos % pageSize) % pageSize = w.pos % pageSize := by
      rw [Nat.add_mod, roundUp_mod, Nat.zero_add, Nat.mod_mod, Nat.mod_mod]
    unfold redirect at result
    dsimp only at result
    split at result
    · cases result
      rfl
    · split at result
      · split at result
        · cases result
          exact (nonneg eio_neg).elim
        · cases result
          exact appended
      · cases result
        exact appended
  unfold writeSeeThruRo at done
  split at done
  · exact redirected (Option.some.inj done)
  · split at done
    · cases done
    · split at done
      · cases done
        exact (nonneg eio_neg).elim
      · exact redirected (Option.some.inj done)

theorem performWrite_eq (env : WriteEnv) (uptodate : List Bool) (s : State) (file : Handle)
    (w : WriteReq) :
    performWrite env uptodate s file w =
      genericPerformWrite (env.reported uptodate w) s file (w.delivered env.pages uptodate) := by
  unfold performWrite genericPerformWrite
  rw [writeSeeThruRo_delivered]
  cases done : writeSeeThruRo env s file w with
  | none => rfl
  | some result =>
      obtain ⟨pos, s'⟩ := result
      dsimp only
      split
      case isTrue => rfl
      case isFalse nonneg =>
        obtain ⟨reply, file⟩ := writeFromIter_eq env.pages uptodate s'.file
          (writeSeeThruRo_offset done nonneg).symm w.nonempty
          (List.replicate
            (w.data.length - (Scorw.delivered env.pages uptodate w.pos w.data).length) 0) 0
        rw [reply, file]
        rfl

theorem delivered_of_complete {uptodate : List Bool}
    (done : performWrite env uptodate s file w = some ((w.count : Int), s')) :
    w.delivered env.pages uptodate = w := by
  have positive := w.count_pos
  unfold performWrite at done
  split at done
  · cases done
  case h_2 pos t redirected =>
    split at done
    · cases done
      omega
    case isFalse nonneg =>
      have reply := congrArg Prod.fst (Option.some.inj done)
      dsimp only at reply
      rw [(writeFromIter_eq env.pages uptodate t.file
        (writeSeeThruRo_offset redirected nonneg).symm w.nonempty [] 0).1, List.append_nil] at reply
      have all := (byteAt_writePages (delivered_ne_nil w.nonempty) positive reply positive).1
      exact WriteReq.delivered_eq (delivered_of_length all)

end Redirected

theorem Call.perform_eq (s : State) (c : Call) : c.perform s = step s c.toOp := by
  obtain ⟨op, fetches, uptodate⟩ := c
  cases op with
  | write file w env =>
      unfold perform toOp
      simp only [step, performWrite_eq]
  | openFile | closeFile | openChild | closeChild | beginTransaction | endTransaction | writev
  | lookup => rfl

/-- A write that reports all bytes has dropped none. -/
theorem delivered_of_syscall {s s' : State} {file : Handle} {w : WriteReq} {env : WriteEnv}
    {fetches : List LogFetch} {uptodate : List Bool}
    (done : syscall s ⟨.write file w env, fetches, uptodate⟩ = some ((w.count : Int), s')) :
    w.delivered env.pages uptodate = w := by
  obtain ⟨⟨ret, t⟩, performed, result⟩ := Option.map_eq_some_iff.mp done
  cases result
  unfold Call.perform at performed
  dsimp only at performed
  split at performed
  · exact delivered_of_complete performed
  · cases performed

/-- No call takes a record from the log. -/
theorem step_log {s s' : State} {op : Op} {ret : Int} (taken : step s op = some (ret, s')) :
    s.log <+: s'.log := by
  have attached : (getInode s).log = s.log := by
    unfold getInode
    split
    · rfl
    · rfl
  have grown (grows : Grows s s') : s.log <+: s'.log := by
    obtain ⟨tail, log, _⟩ := grows.log
    exact ⟨tail, log.symm⟩
  have same (log : s'.log = s.log) : s.log <+: s'.log := log ▸ List.prefix_refl s.log
  cases step_cases taken with
  | openFile fresh => exact same attached
  | closeFile isOpen => exact same (quiet_putInode _).log
  | openChild => exact same attached
  | closeChild isOpen => exact same (quiet_putInode _).log
  | beginRefused nonzero => exact same rfl
  | begun isOpen free => exact same rfl
  | endRefused => exact same rfl
  | committed isOpen held => exact same rfl
  | unlocked held outside => exact same rfl
  | write isOpen result => exact grown result.grows
  | writev isOpen result => exact grown result.grows
  | lookup used => exact same (by rw [lookupPhysicalBlock_store])

/-- A call whose fetches find their pages is a call of the model without page cache. -/
theorem syscall_eq {s : State} {c : Call} (ready : c.Ready s) : syscall s c = step s c.toOp := by
  unfold syscall
  rw [c.perform_eq]
  cases taken : step s c.toOp with
  | none => rfl
  | some result =>
      obtain ⟨ret, s'⟩ := result
      rw [Option.map_some]
      dsimp only
      rw [relog_of_ready ready (step_log taken)]

@[simp] theorem Call.regular_toOp (c : Call) : c.toOp.Regular ↔ c.op.Regular := by
  obtain ⟨op, fetches, uptodate⟩ := c
  cases op with
  | write file w env => exact Iff.rfl
  | openFile | closeFile | openChild | closeChild | beginTransaction | endTransaction | writev
  | lookup => exact Iff.rfl

/-- A run of calls that find their pages is a run of the model without page cache. -/
theorem run_toOp {ok : State → Call → Prop} {ok' : State → Op → Prop}
    (admitted : ∀ s c, ok s c → c.Ready s ∧ ok' s c.toOp) {s s' : State} {calls : List Call}
    (run : Run syscall ok s calls s') : Run step ok' s (calls.map Call.toOp) s' := by
  refine run.interpret Call.toOp fun s c meets => ?_
  exact ⟨syscall_eq (admitted s c meets).1, (admitted s c meets).2⟩

/-! ## A record that is cleared -/

/-- A byte in the first sixteen blocks. -/
def WriteReq.ofByte (pos : UInt16) (b : UInt8) : WriteReq :=
  ⟨pos.toNat, [b], List.cons_ne_nil b [], Nat.le_trans pos.toNat_lt (by decide)⟩

/-- A byte is written. -/
def Op.writeByte (file : Handle) (pos : UInt16) (b : UInt8) : Op :=
  .write file (.ofByte pos b) (.clean 1)

theorem Op.regular_writeByte (file : Handle) (pos : UInt16) (b : UInt8) :
    (Op.writeByte file pos b).Regular :=
  ⟨fun _ => rfl, fun _ => rfl⟩

/-- A transaction writes 7 to block 0 and 8 to block 1. Between the two writes the page of the
log leaves memory. -/
def clearedTransaction : List Call :=
  [(Op.openFile 0).cached, (Op.beginTransaction 0 false).cached,
    ⟨.writeByte 0 0 7, [.cleared], []⟩,
    ⟨.writeByte 0 4096 8, [.cleared], []⟩, (Op.endTransaction 0).cached]

theorem regular_clearedTransaction : ∀ c ∈ clearedTransaction, c.op.Regular := by
  intro c member
  simp only [clearedTransaction, List.mem_cons, List.not_mem_nil, or_false] at member
  rcases member with rfl | rfl | rfl | rfl | rfl
  · trivial
  · trivial
  · exact Op.regular_writeByte ..
  · exact Op.regular_writeByte ..
  · trivial

/-- The transaction, and then three plain writes to block 1, so that the map of version 2 is the
next one to leave memory. -/
def clearedWrites : List Call :=
  clearedTransaction ++ List.replicate 3 (Op.writeByte 0 4096 9).cached

theorem regular_clearedWrites : ∀ c ∈ clearedWrites, c.op.Regular := by
  intro c member
  rcases List.mem_append.mp member with first | later
  · exact regular_clearedTransaction c first
  · rw [List.eq_of_mem_replicate later]
    exact Op.regular_writeByte ..

/-- The record of block 0 is gone from the log. -/
example : (Run.exec syscall (fun _ _ => true) (cloned (.blank 8192)) clearedTransaction).map
    (fun s => s.log) = some [.zero, ⟨2, 1, 3, 1⟩] := by decide +kernel

end FlexClone.Scorw
