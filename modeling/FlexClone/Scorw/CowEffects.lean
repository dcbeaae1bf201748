import FlexClone.Scorw.CowMoves

/-!
# What the moves of a copy-on-write family put where

A reader of a child looks at the parent's file, through a log that is empty when
the parent was never see-through. `Effect` says what a move does to that: the
bytes it puts in the parent's file and those it writes to one child, at every
offset. There is one lemma for each function of the model, and `step_effect` puts
them together.

* `lookupPhysicalBlock_unlogged`: without records every block resolves to itself.
* `startWrite_shared`: a child without ranges never writes to the parent.
-/

namespace FlexClone.Scorw.Cow

/-! ## A log without records -/

/-- No write was ever redirected: the log is empty, and so are the maps in memory. -/
structure Unlogged (s : VersionStore) : Prop where
  log : s.log = []
  maps : ∀ i m, s.cache.versionStates i = some m → ∀ blk, m blk = none

theorem getOrCreateVersion_unlogged {c : VersionCache} (env : Env)
    (maps : ∀ i m, c.versionStates i = some m → ∀ blk, m blk = none) (v : Nat) :
    (∀ m, (getOrCreateVersion env [] c v).1 = some m → ∀ blk, m blk = none) ∧
      ∀ i m, (getOrCreateVersion env [] c v).2.versionStates i = some m → ∀ blk, m blk = none := by
  have slots : ∀ i m, (c.takeSlot v).versionStates i = some m → ∀ blk, m blk = none :=
    fun i m resident => maps i m (versionStates_takeSlot resident)
  unfold getOrCreateVersion
  split
  case isTrue => exact ⟨nofun, maps⟩
  case isFalse =>
    split
    case h_1 m resident =>
      refine ⟨fun m' same => ?_, maps⟩
      cases same
      exact maps _ m resident
    case h_2 =>
      dsimp only
      split
      case isTrue =>
        -- replaying nothing leaves the map empty, whatever pages can be read
        refine ⟨fun m same => ?_, fun i m resident => ?_⟩
        · cases same
          exact fun _ => rfl
        · unfold VersionCache.setState at resident
          dsimp only at resident
          rw [Function.update_apply] at resident
          split at resident
          · cases resident
            exact fun _ => rfl
          · exact slots i m resident
      case isFalse => exact ⟨nofun, slots⟩

theorem lookupFrom_unlogged (env : Env) (blk : Nat) :
    ∀ {v : Nat} {c : VersionCache},
      (∀ i m, c.versionStates i = some m → ∀ blk, m blk = none) →
      (lookupFrom env [] blk v c).1 = none ∧
        ∀ i m, (lookupFrom env [] blk v c).2.versionStates i = some m → ∀ blk, m blk = none
  | 0, _, maps => ⟨rfl, maps⟩
  | v + 1, c, maps => by
      have next := getOrCreateVersion_unlogged env maps (v + 1)
      unfold lookupFrom
      split
      case h_1 m c' got =>
        rw [got] at next
        rw [next.1 m rfl blk]
        exact lookupFrom_unlogged env blk next.2
      case h_2 c' got =>
        rw [got] at next
        exact lookupFrom_unlogged env blk next.2

/-- Without records every version of every reader resolves a block to itself. -/
theorem lookupPhysicalBlock_unlogged (env : Env) {s : VersionStore} (unlogged : Unlogged s)
    (version blk : Nat) :
    (lookupPhysicalBlock env s version blk).1 =
        (if blk < s.origSize / pageSize then some blk else none) ∧
      (lookupPhysicalBlock env s version blk).2.origSize = s.origSize ∧
      Unlogged (lookupPhysicalBlock env s version blk).2 := by
  obtain ⟨missing, maps⟩ := lookupFrom_unlogged env blk (v := version) unlogged.maps
  rw [lookupPhysicalBlock_store, unlogged.log]
  refine ⟨?_, rfl, rfl, maps⟩
  unfold lookupPhysicalBlock
  rw [unlogged.log]
  split
  case h_1 found c got =>
    rw [got] at missing
    cases missing
  case h_2 => rfl

/-! ## What a move puts where -/

/-- Nothing is put anywhere. -/
abbrev nothing : Nat → Option UInt8 := fun _ => none

/-- The child after a move that puts the bytes `toChild` in it. -/
structure ChildAfter (toChild : Nat → Option UInt8) (k k' : CowChild) : Prop where
  copySize : k'.copySize = k.copySize
  ranges : k'.ranges = k.ranges
  written : ∀ x, k'.written x = (toChild x).or (k.written x)

/-- `s'` is `s` with the bytes `toPar` put in the parent's file and `toChild` in the
child in slot `c`, as far as readers of that child can tell. -/
structure Effect (c : Nat) (toPar toChild : Nat → Option UInt8) (s s' : Shared) : Prop where
  size_le : s.par.file.size ≤ s'.par.file.size
  par : ∀ x, s'.par.file.byteAt x = (toPar x).getD (s.par.file.byteAt x)
  child : ∀ k, s.child c = some k → ∃ k', s'.child c = some k' ∧ ChildAfter toChild k k'
  origSize : Unlogged s.store → s'.store.origSize = s.store.origSize
  unlogged : Unlogged s.store → Unlogged s'.store

theorem ChildAfter.of_eq {k k' : CowChild} (copySize : k'.copySize = k.copySize)
    (ranges : k'.ranges = k.ranges) (written : k'.written = k.written) :
    ChildAfter nothing k k' := ⟨copySize, ranges, fun x => congrFun written x⟩

theorem ChildAfter.refl (k : CowChild) : ChildAfter nothing k k := .of_eq rfl rfl rfl

section Effects

variable {c : Nat} {toPar toChild : Nat → Option UInt8} {s s₁ s₂ : Shared}

/-- What a reader does not look at may change. -/
theorem Effect.of_eq (par : s₁.par = s.par) (store : s₁.store = s.store)
    (child : s₁.child = s.child) : Effect c nothing nothing s s₁ where
  size_le := by rw [par]
  par _ := by rw [par]; rfl
  child k here := ⟨k, by rw [child]; exact here, .refl k⟩
  origSize _ := by rw [store]
  unlogged old := by rw [store]; exact old

theorem Effect.refl (s : Shared) : Effect c nothing nothing s s := .of_eq rfl rfl rfl

/-- Two moves of which the second puts nothing anywhere. -/
theorem Effect.followed (first : Effect c toPar toChild s s₁)
    (second : Effect c nothing nothing s₁ s₂) : Effect c toPar toChild s s₂ where
  size_le := le_trans first.size_le second.size_le
  par x := (second.par x).trans (first.par x)
  child k here := by
    obtain ⟨k₁, here₁, after₁⟩ := first.child k here
    obtain ⟨k₂, here₂, after₂⟩ := second.child k₁ here₁
    exact ⟨k₂, here₂, after₂.copySize.trans after₁.copySize,
      after₂.ranges.trans after₁.ranges, fun x => (after₂.written x).trans (after₁.written x)⟩
  origSize old := (second.origSize (first.unlogged old)).trans (first.origSize old)
  unlogged old := second.unlogged (first.unlogged old)

/-- The parent's file changes after whatever is done to the children. -/
theorem Effect.withPar {par : CachedFile UInt8 pageSize} (first : Effect c nothing toChild s s₁)
    (size_le : s₁.par.file.size ≤ par.file.size)
    (bytes : ∀ x, par.file.byteAt x = (toPar x).getD (s₁.par.file.byteAt x)) :
    Effect c toPar toChild s { s₁ with par := par } where
  size_le := le_trans first.size_le size_le
  par x := (bytes x).trans (congrArg _ (first.par x))
  child := first.child
  origSize := first.origSize
  unlogged := first.unlogged

theorem effect_setChild {j : Nat} {k k' : CowChild} (old : s.child j = some k)
    (keeps : ChildAfter nothing k k') : Effect c nothing nothing s (s.setChild j k') where
  size_le := le_rfl
  par _ := rfl
  child k₀ here := by
    unfold Shared.setChild
    dsimp only
    rw [Function.update_apply]
    split
    case isTrue same =>
      subst same
      cases old.symm.trans here
      exact ⟨k', rfl, keeps⟩
    case isFalse => exact ⟨k₀, here, .refl k₀⟩
  origSize _ := rfl
  unlogged old := old

theorem effect_modifyChild {j : Nat} {change : CowChild → CowChild}
    (here : j = c → ∀ k, ChildAfter toChild k (change k))
    (away : j ≠ c → ∀ x, toChild x = none) :
    Effect c nothing toChild s (s.modifyChild j change) where
  size_le := le_rfl
  par _ := rfl
  child k₀ at_c := by
    unfold Shared.modifyChild
    dsimp only
    rw [Function.update_apply]
    split
    case isTrue same =>
      rw [← same, at_c]
      exact ⟨change k₀, rfl, here same.symm k₀⟩
    case isFalse other =>
      refine ⟨k₀, at_c, rfl, rfl, fun x => ?_⟩
      rw [away (Ne.symm other) x]
      rfl
  origSize _ := rfl
  unlogged old := old

end Effects

/-- The byte that copying up block `i` of a write puts in the parent's page. -/
def Shared.cleared (s : Shared) (k : CowChild) (w : ChildWrite) (i x : Nat) : Option UInt8 :=
  if k.copied i = false ∧ w.copiesUp i = true ∧ (s.findPageCopy i w.slot).isNone = true ∧
      s.par.cached i = false ∧ s.par.file.size / pageSize ≤ i ∧ x / pageSize = i then some 0
  else none

/-- The bytes a move of a thread puts in the parent's file. -/
def Shared.toParent (s : Shared) : Place → Move → Nat → Option UInt8
  | .begins w i, .block _, x =>
      if w.endBlock < i then none else (s.child w.slot).bind fun k => s.cleared k w i x
  | .loops w _, .page outcome, x =>
      if w.shared then landsAt w.pos (storedBytes outcome w.pos w.data) x else none
  | .parLoops pos data _, .page outcome, x => landsAt pos (storedBytes outcome pos data) x
  | _, _, _ => none

/-- The bytes a move of a thread writes to the child in slot `c`. -/
def toChild (c : Nat) : Place → Move → Nat → Option UInt8
  | .loops w _, .page outcome, x =>
      if w.slot = c then landsAt w.pos (storedBytes outcome w.pos w.data) x else none
  | _, _, _ => none

section Moves

variable {s s' : Shared} {k : CowChild} {w : ChildWrite}

theorem size_getPage (f : CachedFile UInt8 pageSize) (lblk : Nat) :
    (getPage f lblk).file.size = f.file.size := by
  unfold getPage
  split
  · rfl
  · split <;> rfl

theorem byteAt_getPage (f : CachedFile UInt8 pageSize) (lblk x : Nat) :
    (getPage f lblk).file.byteAt x =
      if f.cached lblk = false ∧ f.file.size / pageSize ≤ lblk ∧ x / pageSize = lblk then 0
      else f.file.byteAt x := by
  unfold getPage
  split
  case isTrue cached =>
    rw [if_neg]
    rintro ⟨cold, _⟩
    rw [cold] at cached
    cases cached
  case isFalse cold =>
    have cold : f.cached lblk = false := Bool.eq_false_iff.mpr cold
    split
    case isTrue last =>
      rw [CachedFile.byteAt_clear]
      simp only [cold, last, true_and]
      rfl
    case isFalse inner => simp only [CachedFile.file_load, inner, false_and, and_false, if_false]

/-- Only blocks that are not marked are copied up. -/
theorem unmarked_of_copiesUp {i : Nat} (copies : w.copiesUp i = true)
    (fresh : ¬ (!w.shared && k.copied i) = true) : k.copied i = false := by
  have own : w.shared = false := by
    unfold ChildWrite.copiesUp at copies
    simp only [Bool.and_eq_true, Bool.not_eq_true'] at copies
    exact copies.1.1
  rw [own] at fresh
  exact Bool.eq_false_iff.mpr fresh

theorem beginBlock_effect {c i : Nat} (here : s.child w.slot = some k) (fails : Bool) :
    Effect c (s.cleared k w i) nothing s (s.beginBlock k w i fails) := by
  -- the cases in which no page of the parent is cleared
  have untouched (not : ¬ (k.copied i = false ∧ w.copiesUp i = true ∧
      (s.findPageCopy i w.slot).isNone = true)) : s.cleared k w i = nothing := by
    funext x
    unfold Shared.cleared
    exact if_neg fun ⟨copied, copies, missing, _⟩ => not ⟨copied, copies, missing⟩
  unfold Shared.beginBlock
  split
  case isTrue done =>
    rw [untouched]
    · exact .refl s
    · rintro ⟨copied, _⟩
      rw [copied, Bool.and_false] at done
      cases done
  case isFalse fresh =>
    dsimp only
    split
    case isFalse whole =>
      rw [untouched fun ⟨_, copies, _⟩ => whole copies]
      exact effect_setChild here (.of_eq rfl rfl rfl)
    case isTrue copies =>
      have copied := unmarked_of_copiesUp copies fresh
      split
      case h_1 p found =>
        rw [untouched]
        · have loaded : Effect c nothing nothing s (s.loadPageCopy i w.slot) := .of_eq rfl rfl rfl
          refine loaded.followed (effect_setChild here ?_)
          cases fails <;> exact .of_eq rfl rfl rfl
        · rintro ⟨_, _, missing⟩
          rw [found] at missing
          cases missing
      case h_2 missing =>
        unfold Shared.copyPage
        have first : Effect c (s.cleared k w i) nothing s { s with par := getPage s.par i } := by
          refine (Effect.refl s).withPar (le_of_eq (size_getPage _ _).symm) fun x => ?_
          rw [byteAt_getPage]
          unfold Shared.cleared
          simp only [copied, copies, missing, Option.isNone_none, true_and]
          split <;> rfl
        refine first.followed (effect_setChild here ?_)
        cases fails <;> exact .of_eq rfl rfl rfl

theorem endBlock_effect {c i : Nat} (here : s.child w.slot = some k) :
    Effect c nothing nothing s (s.endBlock k w i) := by
  unfold Shared.endBlock
  split
  · exact .refl s
  · exact effect_setChild here (.of_eq rfl rfl rfl)

theorem setLocked_effect {c : Nat} (s : Shared) (w : ChildWrite) (locked : Bool) :
    Effect c nothing nothing s (s.setLocked w locked) := by
  unfold Shared.setLocked
  split
  · exact .of_eq rfl rfl rfl
  · exact effect_modifyChild (fun _ _ => .of_eq rfl rfl rfl) fun _ _ => rfl

theorem storeChild_effect {c : Nat} (s : Shared) (w : ChildWrite) (bs : List UInt8) :
    Effect c (fun x => if w.shared then landsAt w.pos bs x else none)
      (fun x => if w.slot = c then landsAt w.pos bs x else none) s (s.storeChild w bs) := by
  have noted : Effect c nothing (fun x => if w.slot = c then landsAt w.pos bs x else none) s
      (s.modifyChild w.slot fun k =>
        { k with written := fun x => (landsAt w.pos bs x).or (k.written x) }) := by
    refine effect_modifyChild (fun same k => ⟨rfl, rfl, fun x => ?_⟩) fun other x => if_neg other
    rw [if_pos same]
  unfold Shared.storeChild
  dsimp only
  split
  case isTrue shared => exact noted.withPar (s.par.size_le_put _ _) (s.par.byteAt_put _ _)
  case isFalse own =>
    exact noted.followed (effect_modifyChild (fun _ _ => .of_eq rfl rfl rfl) fun _ _ => rfl)

theorem writeParBlocks_eq (s : Shared) (pos bytes : Nat) :
    (s.writeParBlocks pos bytes).par = s.par ∧ (s.writeParBlocks pos bytes).store = s.store ∧
      (s.writeParBlocks pos bytes).child = s.child := by
  unfold Shared.writeParBlocks
  dsimp only
  split
  · exact ⟨rfl, rfl, rfl⟩
  · split <;> exact ⟨rfl, rfl, rfl⟩

theorem leaveBarrier_effect {c : Nat} (s : Shared) :
    Effect c nothing nothing s s.leaveBarrier where
  size_le := le_rfl
  par _ := rfl
  child k here := by
    unfold Shared.leaveBarrier
    dsimp only
    rw [here]
    refine ⟨_, rfl, ?_⟩
    split <;> exact .of_eq rfl rfl rfl
  origSize _ := rfl
  unlogged old := old

theorem parPage_effect {c pos : Nat} {data : List UInt8} {outcome : PageOutcome}
    (done : s.parPage pos data outcome = some s') :
    Effect c (landsAt pos (storedBytes outcome pos data)) nothing s s' := by
  have none_stored (empty : storedBytes outcome pos data = []) :
      landsAt pos (storedBytes outcome pos data) = nothing := by
    rw [empty]
    exact funext (landsAt_nil pos)
  have stored (bytes : Nat)
      (same : s' = { s.writeParBlocks pos bytes with
        par := (s.writeParBlocks pos bytes).par.put pos (storedBytes outcome pos data) }) :
      Effect c (landsAt pos (storedBytes outcome pos data)) nothing s s' := by
    obtain ⟨par, store, child⟩ := writeParBlocks_eq s pos bytes
    rw [same]
    exact (Effect.of_eq par store child).withPar (CachedFile.size_le_put _ _ _)
      (CachedFile.byteAt_put _ _ _)
  unfold Shared.parPage at done
  split at done
  case h_1 =>
    rw [none_stored rfl]
    cases done
    exact .refl s
  case h_2 =>
    rw [none_stored rfl]
    split at done
    · cases done
      exact leaveBarrier_effect s
    · cases done
  case h_3 | h_4 =>
    split at done
    · exact stored _ (Option.some.inj done).symm
    · cases done

/-- Every move of a thread puts exactly the bytes named above. -/
theorem move_effect {c : Nat} {place place' : Place} {m : Move} {reply : Reply}
    (moved : move s place m = some (reply, place', s')) :
    Effect c (s.toParent place m) (toChild c place m) s s' := by
  unfold move at moved
  split at moved
  case h_1 child req =>
    obtain ⟨k, here, same⟩ := Option.map_eq_some_iff.mp moved
    split at same
    · cases same
      exact .refl s
    · split at same <;> cases same <;> exact .refl s
  case h_2 req =>
    dsimp only at moved
    split at moved <;> cases moved <;> exact .refl s
  case h_3 w i fails =>
    obtain ⟨k, here, same⟩ := Option.bind_eq_some_iff.mp moved
    split at same
    case isTrue past =>
      cases same
      have none_here : s.toParent (.begins w i) (.block fails) = nothing :=
        funext fun x => if_pos past
      rw [none_here]
      exact .refl s
    case isFalse inside =>
      split at same
      · cases same
      · cases same
        have cleared : s.toParent (.begins w i) (.block fails) = s.cleared k w i := by
          funext x
          unfold Shared.toParent
          dsimp only
          rw [if_neg inside, here]
          rfl
        rw [cleared]
        exact beginBlock_effect here fails
  case h_4 w =>
    split at moved
    · cases moved
    · cases moved
      exact setLocked_effect s w true
  case h_5 w done outcome =>
    dsimp only at moved
    split at moved
    · cases moved
      exact (storeChild_effect s w _).followed (setLocked_effect _ w false)
    · cases moved
      exact storeChild_effect s w _
  case h_6 w ret i fails =>
    obtain ⟨k, here, same⟩ := Option.map_eq_some_iff.mp moved
    split at same
    · cases same
      exact .refl s
    · cases same
      exact endBlock_effect here
  case h_7 pos data =>
    split at moved
    · cases moved
    · cases moved
      exact .of_eq rfl rfl rfl
  case h_8 pos data done outcome =>
    obtain ⟨s₁, stored, same⟩ := Option.map_eq_some_iff.mp moved
    have first := parPage_effect (c := c) stored
    dsimp only at same
    split at same
    · cases same
      exact first.followed (.of_eq rfl rfl rfl)
    · cases same
      exact first
  case h_9 => cases moved

/-- The write to a child that a thread is in. -/
def Place.write : Place → Option ChildWrite
  | .begins w _ | .locking w | .loops w _ | .ends w _ _ => some w
  | .idle | .parLocking _ _ | .parLoops _ _ _ => none

/-- A write is to the same child and of the same kind until it is over. -/
theorem move_write {place place' : Place} {m : Move} {reply : Reply}
    (moved : move s place m = some (reply, place', s')) (writes : place'.write = some w) :
    (∃ w₀, place.write = some w₀ ∧ w₀.slot = w.slot ∧ w₀.shared = w.shared) ∨
      ∃ k req, s.child w.slot = some k ∧ k.startWrite w.slot req = some w := by
  unfold move at moved
  split at moved
  case h_1 j req =>
    obtain ⟨k, here, same⟩ := Option.map_eq_some_iff.mp moved
    split at same
    · cases same
      cases writes
    · split at same
      · cases same
        cases writes
      case h_2 w₀ starts =>
        cases same
        cases writes
        have slot : w.slot = j := by
          obtain ⟨_, _, rfl⟩ := Option.map_eq_some_iff.mp starts
          rfl
        rw [← slot] at here starts
        exact .inr ⟨k, req, here, starts⟩
  case h_2 req =>
    dsimp only at moved
    split at moved <;> cases moved <;> cases writes
  case h_3 w₀ i fails =>
    obtain ⟨k, here, same⟩ := Option.bind_eq_some_iff.mp moved
    split at same
    · cases same
      exact .inl ⟨w₀, rfl, by cases writes; exact ⟨rfl, rfl⟩⟩
    · split at same
      · cases same
      · cases same
        exact .inl ⟨w₀, rfl, by cases writes; exact ⟨rfl, rfl⟩⟩
  case h_4 w₀ =>
    split at moved
    · cases moved
    · cases moved
      exact .inl ⟨w₀, rfl, by cases writes; exact ⟨rfl, rfl⟩⟩
  case h_5 w₀ done outcome =>
    dsimp only at moved
    split at moved
    · cases moved
      exact .inl ⟨w₀, rfl, by cases writes; exact ⟨rfl, rfl⟩⟩
    · cases moved
      exact .inl ⟨w₀, rfl, by cases writes; exact ⟨rfl, rfl⟩⟩
  case h_6 w₀ ret i fails =>
    obtain ⟨k, here, same⟩ := Option.map_eq_some_iff.mp moved
    split at same
    · cases same
      cases writes
    · cases same
      exact .inl ⟨w₀, rfl, by cases writes; exact ⟨rfl, rfl⟩⟩
  case h_7 pos data =>
    split at moved
    · cases moved
    · cases moved
      cases writes
  case h_8 pos data done outcome =>
    obtain ⟨s₁, stored, same⟩ := Option.map_eq_some_iff.mp moved
    dsimp only at same
    split at same <;> cases same <;> cases writes
  case h_9 => cases moved

theorem scanRanges_nil {startBlock endBlock : Nat} {shr shr' : SharingRangeInfo} {last : Nat}
    (fresh : shr.initialized = false) (blocks : List Nat) :
    ∀ {cr : Option ChildRange},
      scanRanges [] startBlock endBlock blocks cr shr = some (shr', last) →
      shr'.initialized = false := by
  induction blocks with
  | nil =>
      intro cr done
      cases done
      exact fresh
  | cons i rest ih =>
      intro cr done
      unfold scanRanges at done
      split at done
      · cases done
        exact fresh
      · simp only [snapxGetRangeInfo, if_true, fresh, Bool.false_eq_true, and_false,
          if_false] at done
        exact ih done

/-- A child without ranges never writes to the parent. -/
theorem startWrite_shared {j : Nat} {req : IoReq} (plain : k.ranges = [])
    (starts : k.startWrite j req = some w) : w.shared = false := by
  obtain ⟨⟨shr, endBlock⟩, found, rfl⟩ := Option.map_eq_some_iff.mp starts
  unfold CowChild.rangesOf at found
  dsimp only at found
  split at found
  · cases found
    rfl
  · rw [plain] at found
    exact scanRanges_nil rfl _ found

theorem copyThread_effect {c : Nat} {fails : Bool} (moved : s.copyThread fails = some s') :
    Effect c nothing nothing s s' := by
  unfold Shared.copyThread at moved
  split at moved
  case h_1 | h_3 => cases moved
  case h_2 =>
    cases moved
    exact .of_eq rfl rfl rfl
  case h_4 j p rest _ _ =>
    dsimp only at moved
    split at moved
    · cases moved
      exact .of_eq rfl rfl rfl
    · split at moved
      · cases moved
        exact .of_eq rfl rfl rfl
      case h_2 k here =>
        split at moved
        · cases moved
          exact .of_eq rfl rfl rfl
        · split at moved
          · cases moved
          · split at moved
            · cases moved
              exact .of_eq rfl rfl rfl
            · cases moved
              have loaded : Effect c nothing nothing s
                  ({ s with threadAt := some (j + 1) }.loadPageCopy p.blockNum j) :=
                .of_eq rfl rfl rfl
              refine loaded.followed (effect_setChild here ?_)
              cases fails <;> exact .of_eq rfl rfl rfl

theorem fileRead_effect {c : Nat} (s : Shared) (pos count : Nat) :
    Effect c nothing nothing s (s.fileRead pos count).2 := by
  unfold Shared.fileRead
  dsimp only
  split
  · exact .refl s
  · exact (Effect.refl s).withPar le_rfl fun _ => rfl

theorem readFromParent_effect {c : Nat} (env : Env) (s : Shared) (k : CowChild) (pos count : Nat) :
    Effect c nothing nothing s (s.readFromParent env k pos count).2 := by
  have looked : Effect c nothing nothing s { s with
      store := (lookupPhysicalBlock env s.store k.version (pos / pageSize)).2 } :=
    ⟨le_rfl, fun _ => rfl, fun k here => ⟨k, here, .refl k⟩,
      fun old => (lookupPhysicalBlock_unlogged env old _ _).2.1,
      fun old => (lookupPhysicalBlock_unlogged env old _ _).2.2⟩
  unfold Shared.readFromParent
  dsimp only
  split
  · exact looked.followed (fileRead_effect _ _ _)
  · split
    · exact looked
    · exact looked.followed (fileRead_effect _ _ _)

end Moves

section Steps

variable {τ : Type*} {c : Nat}

/-- The bytes a step puts in the parent's file. -/
def Act.toParent (s : System τ) : Act τ → Nat → Option UInt8
  | .thread t m => s.shared.toParent (s.place t) m
  | .copyThread _ | .read _ _ _ _ => nothing

/-- The bytes a step writes to the child in slot `c`. -/
def Act.toChild (c : Nat) (s : System τ) : Act τ → Nat → Option UInt8
  | .thread t m => Cow.toChild c (s.place t) m
  | .copyThread _ | .read _ _ _ _ => nothing

theorem step_effect [DecidableEq τ] {s s' : System τ} {act : Act τ} {reply : Reply}
    (taken : step s act = some (reply, s')) :
    Effect c (act.toParent s) (act.toChild c s) s.shared s'.shared := by
  cases act with
  | thread t m =>
      have taken : Threads.step (fun _ => move) s t m = some (reply, s') := taken
      obtain ⟨place, shared, moved, rfl⟩ := Threads.step_eq_some taken
      exact move_effect moved
  | copyThread fails =>
      obtain ⟨shared, moved, same⟩ := Option.map_eq_some_iff.mp taken
      cases same
      exact copyThread_effect moved
  | read slot pos count env =>
      obtain ⟨⟨bs, shared⟩, read, same⟩ := Option.map_eq_some_iff.mp taken
      cases same
      obtain ⟨k, here, got⟩ := Option.map_eq_some_iff.mp read
      split at got
      · cases got
        exact .refl _
      · rw [← congrArg Prod.snd got]
        exact readFromParent_effect env _ k pos count

end Steps

end FlexClone.Scorw.Cow
