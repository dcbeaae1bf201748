import FlexClone.Loop

/-!
# Circular linked lists

A list of entries that are linked in both directions, with a head that is no entry, as
`struct list_head` has them. The links of an entry that was deleted are poisoned. `Holds` ties
the links to the plain list of the entries.

* `holds_del`, `holds_addTail`: deleting the first entry and adding one at the end.
* `traverses_iff`: a loop that fetches the next entry before it works on one, and whose body
  deletes the entry or moves it to the end, works on every entry it found once and in order,
  if the body stops it at an entry that was moved.
-/

namespace FlexClone.LinkedList

variable {α σ : Type*} [DecidableEq α]

/-- A place in a list. -/
inductive Node (α : Type*)
  | head
  | entry (a : α)
  deriving DecidableEq

/-- The links of a list; `none` is poison. -/
structure Links (α : Type*) where
  next : Node α → Option (Node α)
  prev : Node α → Option (Node α)

namespace Links

/-- `list_del` -/
def del (l : Links α) (a : α) : Option (Links α) :=
  (l.next (.entry a)).bind fun n =>
    (l.prev (.entry a)).map fun p =>
      { next := Function.update (Function.update l.next p (some n)) (.entry a) none
        prev := Function.update (Function.update l.prev n (some p)) (.entry a) none }

/-- `INIT_LIST_HEAD` of the entry and `list_add_tail` -/
def addTail (l : Links α) (a : α) : Option (Links α) :=
  (l.prev .head).map fun p =>
    { next := Function.update (Function.update l.next (.entry a) (some .head)) p
        (some (.entry a))
      prev := Function.update (Function.update l.prev .head (some (.entry a))) (.entry a)
        (some p) }

/-- The entries lie between two places, linked in both directions. -/
def Joined (l : Links α) : Node α → List α → Node α → Prop
  | x, [], y => l.next x = some y ∧ l.prev y = some x
  | x, a :: as, y =>
      l.next x = some (.entry a) ∧ l.prev (.entry a) = some x ∧ Joined l (.entry a) as y

/-- These are the entries of the list. -/
structure Holds (l : Links α) (as : List α) : Prop where
  nodup : as.Nodup
  joined : l.Joined .head as .head

end Links

/-- The first of some entries, or what comes after them. -/
def first (as : List α) (y : Node α) : Node α := as.head?.elim y .entry

/-- The last of some entries, or what comes before them. -/
def last : Node α → List α → Node α
  | x, [] => x
  | _, a :: as => last (.entry a) as

namespace Links

variable {l l' : Links α} {x y y' : Node α} {a : α} {as bs : List α}

omit [DecidableEq α] in
theorem Joined.next (joined : l.Joined x as y) : l.next x = some (first as y) := by
  cases as with
  | nil => exact joined.1
  | cons => exact joined.1

omit [DecidableEq α] in
theorem Joined.prev (joined : l.Joined x as y) : l.prev y = some (last x as) := by
  induction as generalizing x with
  | nil => exact joined.2
  | cons a as ih => exact ih joined.2.2

omit [DecidableEq α] in
theorem joined_append : l.Joined x (as ++ a :: bs) y ↔
    l.Joined x as (.entry a) ∧ l.Joined (.entry a) bs y := by
  induction as generalizing x with
  | nil => exact (and_assoc).symm
  | cons b as ih =>
      simp only [List.cons_append, Joined, ih]
      exact ⟨fun ⟨next, prev, left, right⟩ => ⟨⟨next, prev, left⟩, right⟩,
        fun ⟨⟨next, prev, left⟩, right⟩ => ⟨next, prev, left, right⟩⟩

omit [DecidableEq α] in
/-- Entries stay joined when the links between them do. -/
theorem Joined.congr (joined : l.Joined x as y)
    (next : ∀ z, z = x ∨ (∃ a ∈ as, z = .entry a) → l'.next z = l.next z)
    (prev : ∀ z, z = y ∨ (∃ a ∈ as, z = .entry a) → l'.prev z = l.prev z) :
    l'.Joined x as y := by
  induction as generalizing x with
  | nil =>
      exact ⟨(next x (.inl rfl)).trans joined.1, (prev y (.inl rfl)).trans joined.2⟩
  | cons a as ih =>
      obtain ⟨ahead, back, rest⟩ := joined
      refine ⟨(next x (.inl rfl)).trans ahead,
        (prev _ (.inr ⟨a, List.mem_cons_self, rfl⟩)).trans back, ih rest ?_ ?_⟩
      · rintro z (rfl | ⟨b, member, rfl⟩)
        · exact next _ (.inr ⟨a, List.mem_cons_self, rfl⟩)
        · exact next _ (.inr ⟨b, List.mem_cons_of_mem a member, rfl⟩)
      · rintro z (rfl | ⟨b, member, rfl⟩)
        · exact prev _ (.inl rfl)
        · exact prev _ (.inr ⟨b, List.mem_cons_of_mem a member, rfl⟩)

omit [DecidableEq α] in
theorem last_eq (x : Node α) (as : List α) : last x as = x ∨ ∃ a ∈ as, last x as = .entry a := by
  induction as generalizing x with
  | nil => exact .inl rfl
  | cons a as ih =>
      rcases ih (.entry a) with here | ⟨b, member, here⟩
      · exact .inr ⟨a, List.mem_cons_self, here⟩
      · exact .inr ⟨b, List.mem_cons_of_mem a member, here⟩

omit [DecidableEq α] in
/-- Entries with another place after them. -/
theorem Joined.redirect (joined : l.Joined x as y) (nodup : as.Nodup)
    (apart : ∀ a ∈ as, x ≠ .entry a)
    (next : ∀ z, z ≠ last x as → z = x ∨ (∃ a ∈ as, z = .entry a) → l'.next z = l.next z)
    (prev : ∀ a ∈ as, l'.prev (.entry a) = l.prev (.entry a))
    (ahead : l'.next (last x as) = some y') (back : l'.prev y' = some (last x as)) :
    l'.Joined x as y' := by
  induction as generalizing x with
  | nil => exact ⟨ahead, back⟩
  | cons a as ih =>
      obtain ⟨here, there, rest⟩ := joined
      obtain ⟨new, nodup⟩ := List.nodup_cons.mp nodup
      have other : x ≠ last x (a :: as) := by
        intro same
        rcases last_eq (.entry a) as with final | ⟨b, member, final⟩
        · exact apart a List.mem_cons_self (same.trans final)
        · exact apart b (List.mem_cons_of_mem a member) (same.trans final)
      refine ⟨(next x other (.inl rfl)).trans here,
        (prev a List.mem_cons_self).trans there, ih rest nodup ?_ ?_ ?_ ahead back⟩
      · rintro b member same
        cases same
        exact new member
      · rintro z inner (rfl | ⟨b, member, rfl⟩)
        · exact next _ inner (.inr ⟨a, List.mem_cons_self, rfl⟩)
        · exact next _ inner (.inr ⟨b, List.mem_cons_of_mem a member, rfl⟩)
      · exact fun b member => prev b (List.mem_cons_of_mem a member)

omit [DecidableEq α] in
/-- The links determine the entries. -/
theorem Holds.unique (left : l.Holds as) (right : l.Holds bs) : as = bs := by
  have walk : ∀ (as bs : List α) (x : Node α),
      l.Joined x as .head → l.Joined x bs .head → as = bs := by
    intro as
    induction as with
    | nil =>
        intro bs x left right
        cases bs with
        | nil => rfl
        | cons b bs => cases left.1.symm.trans right.1
    | cons a as ih =>
        intro bs x left right
        cases bs with
        | nil => cases left.1.symm.trans right.1
        | cons b bs =>
            cases left.1.symm.trans right.1
            rw [ih bs _ left.2.2 right.2.2]
  exact walk as bs .head left.joined right.joined

/-- Deleting the first entry. -/
theorem holds_del (holds : l.Holds (a :: as)) : ∃ l', l.del a = some l' ∧ l'.Holds as := by
  obtain ⟨new, nodup⟩ := List.nodup_cons.mp holds.nodup
  obtain ⟨_, back, rest⟩ := holds.joined
  refine ⟨_, by rw [del, rest.next, back]; rfl, nodup, ?_⟩
  cases as with
  | nil => exact ⟨by simp [first], by simp [first]⟩
  | cons b as =>
      obtain ⟨_, _, rest⟩ := rest
      obtain ⟨fresh, _⟩ := List.nodup_cons.mp nodup
      have apart : b ≠ a := fun same => new (same ▸ List.mem_cons_self)
      refine ⟨by simp [first], by simp [first, apart], rest.congr ?_ ?_⟩
      · rintro z (rfl | ⟨c, member, rfl⟩)
        · simp [apart]
        · have other : c ≠ a := fun same => new (same ▸ List.mem_cons_of_mem b member)
          simp [other]
      · rintro z (rfl | ⟨c, member, rfl⟩)
        · simp [first]
        · have other : c ≠ a := fun same => new (same ▸ List.mem_cons_of_mem b member)
          have inner : c ≠ b := fun same => fresh (same ▸ member)
          simp [first, other, inner]

/-- Adding an entry at the end. -/
theorem holds_addTail (holds : l.Holds as) (new : a ∉ as) :
    ∃ l', l.addTail a = some l' ∧ l'.Holds (as ++ [a]) := by
  have outside : Node.entry a ≠ last .head as := by
    intro same
    rcases last_eq .head as with final | ⟨b, member, final⟩
    · cases same.trans final
    · cases same.trans final
      exact new member
  refine ⟨_, by rw [addTail, holds.joined.prev]; rfl, ?_, joined_append.mpr ⟨?_, ?_⟩⟩
  · rw [List.nodup_append]
    refine ⟨holds.nodup, List.nodup_singleton a, fun b member c single => ?_⟩
    rw [List.mem_singleton.mp single]
    exact fun same => new (same ▸ member)
  · refine holds.joined.redirect holds.nodup (fun _ _ => by simp) ?_ ?_ ?_ ?_
    · rintro z inner (rfl | ⟨b, member, rfl⟩)
      · simp [inner]
      · have other : b ≠ a := fun same => new (same ▸ member)
        simp [inner, other]
    · intro b member
      have other : b ≠ a := fun same => new (same ▸ member)
      simp [other]
    · exact Function.update_self ..
    · exact Function.update_self ..
  · exact ⟨by simp [outside], by simp⟩

end Links

/-! ## Loops over a list -/

/-- The variables of a loop: the entry it works on, the one fetched to follow it, and the
rest. -/
structure Cursor (α σ : Type*) where
  pos : Node α
  tmp : Node α
  mem : σ

section Traversal

variable (links : σ → Links α) (body : α → σ → Option (Bool × σ))

/-- One turn of `list_for_each_entry_safe`. The body says whether to go on, or fails. -/
def turn : Cursor α σ → Cursor α σ ⊕ Option σ
  | ⟨.head, _, s⟩ => .inr (some s)
  | ⟨.entry a, tmp, s⟩ =>
      match body a s with
      | none => .inr none
      | some (false, s) => .inr (some s)
      | some (true, s) => ((links s).next tmp).elim (.inr none) fun n => .inl ⟨tmp, n, s⟩

/-- The loop leaves with a result. -/
def Traverses (s : σ) (r : Option σ) : Prop :=
  ∃ pos tmp, (links s).next .head = some pos ∧ (links s).next pos = some tmp ∧
    Loop.Returns (turn links body) ⟨pos, tmp, s⟩ r

/-- The body for one entry after the other. -/
def runAll : List α → σ → Option σ
  | [], s => some s
  | a :: as, s => (body a s).bind fun r => runAll as r.2

/-- Where the loop is, when it has still to come to the entries `todo` and has moved the
entries `done` behind them. -/
def Reaches : List α → List α → Node α → Node α → Prop
  | a :: todo, done, pos, tmp => pos = .entry a ∧ tmp = first (todo ++ done) .head
  | [], done, pos, _ => pos = .head ∨ ∃ a rest, done = a :: rest ∧ pos = .entry a

end Traversal

variable {links : σ → Links α} {body : α → σ → Option (Bool × σ)}
  {I : List α → List α → σ → Prop} {todo done : List α} {a : α} {s : σ} {pos tmp : Node α}
  {r : Option σ}

omit [DecidableEq α] in
/-- The entry that was fetched is the next one, wherever the last one has gone. -/
theorem reaches_next {l : Links α} {extra : List α} (holds : l.Holds (todo ++ (done ++ extra)))
    (fetched : tmp = first (todo ++ done) .head) :
    ∃ n, l.next tmp = some n ∧ Reaches todo (done ++ extra) tmp n := by
  subst fetched
  cases todo with
  | cons b todo => exact ⟨_, holds.joined.2.2.next, rfl, rfl⟩
  | nil =>
      cases done with
      | nil => exact ⟨_, holds.joined.next, .inl rfl⟩
      | cons d done => exact ⟨_, holds.joined.2.2.next, .inr ⟨d, done ++ extra, rfl, rfl⟩⟩

omit [DecidableEq α] in
/-- The rule for loops whose body deletes an entry or moves it to the end. -/
theorem returns_iff_of_reaches
    (holds : ∀ todo done s, I todo done s → (links s).Holds (todo ++ done))
    (works : ∀ a todo done s, I (a :: todo) done s → body a s = none ∨
      ∃ s', body a s = some (true, s') ∧ (I todo done s' ∨ I todo (done ++ [a]) s'))
    (stops : ∀ a done s, I [] (a :: done) s → body a s = some (false, s))
    (here : I todo done s) (reaches : Reaches todo done pos tmp) :
    Loop.Returns (turn links body) ⟨pos, tmp, s⟩ r ↔ runAll body todo s = r := by
  induction todo generalizing done s pos tmp with
  | nil =>
      have leaves : turn links body ⟨pos, tmp, s⟩ = .inr (some s) := by
        rcases reaches with rfl | ⟨a, rest, rfl, rfl⟩
        · rfl
        · simp only [turn, stops a rest s here]
      exact Loop.returns_iff_of_inr leaves
  | cons a todo ih =>
      obtain ⟨rfl, fetched⟩ := reaches
      rcases works a todo done s here with fails | ⟨s', goes, next⟩
      · have leaves : turn links body ⟨.entry a, tmp, s⟩ = .inr none := by
          simp only [turn, fails]
        rw [Loop.returns_iff_of_inr leaves]
        simp only [runAll, fails, Option.bind_none]
      · -- the entry is gone, or behind all others
        obtain ⟨extra, next⟩ : ∃ extra, I todo (done ++ extra) s' := by
          rcases next with gone | moved
          · exact ⟨[], by rwa [List.append_nil]⟩
          · exact ⟨[a], moved⟩
        obtain ⟨n, ahead, reaches⟩ := reaches_next (holds _ _ _ next) fetched
        have goesOn : turn links body ⟨.entry a, tmp, s⟩ = .inl ⟨tmp, n, s'⟩ := by
          simp [turn, goes, ahead]
        rw [Loop.returns_iff_of_inl goesOn, ih next reaches]
        simp only [runAll, goes, Option.bind_some]

omit [DecidableEq α] in
theorem traverses_iff
    (holds : ∀ todo done s, I todo done s → (links s).Holds (todo ++ done))
    (works : ∀ a todo done s, I (a :: todo) done s → body a s = none ∨
      ∃ s', body a s = some (true, s') ∧ (I todo done s' ∨ I todo (done ++ [a]) s'))
    (stops : ∀ a done s, I [] (a :: done) s → body a s = some (false, s))
    (here : I todo [] s) : Traverses links body s r ↔ runAll body todo s = r := by
  have joined : (links s).Joined .head todo .head := by
    simpa using (holds _ _ _ here).joined
  obtain ⟨pos, tmp, first, second, reaches⟩ : ∃ pos tmp, (links s).next .head = some pos ∧
      (links s).next pos = some tmp ∧ Reaches todo [] pos tmp := by
    cases todo with
    | nil => exact ⟨_, _, joined.next, joined.next, .inl rfl⟩
    | cons a todo =>
        refine ⟨_, _, joined.next, joined.2.2.next, rfl, ?_⟩
        rw [List.append_nil]
  rw [← returns_iff_of_reaches holds works stops here reaches]
  constructor
  · rintro ⟨pos', tmp', first', second', returns⟩
    cases first.symm.trans first'
    cases second.symm.trans second'
    exact returns
  · exact fun returns => ⟨pos, tmp, first, second, returns⟩

end FlexClone.LinkedList
