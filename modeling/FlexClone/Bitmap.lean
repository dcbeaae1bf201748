import Mathlib

/-!
# Bitmaps, by bytes and by words

A bitmap stands in bytes: bit `i` is bit `i % 8` of byte `i / 8`. Setting one bit is an OR on
a byte. A run of bits can also be set by an OR on a word of several bytes, whose first byte
is its lowest; `testBit_orWord` says that this sets the bits of the word in their place.
-/

namespace FlexClone.Bitmap

/-- Bytes by address. -/
abbrev Bytes := Nat → BitVec 8

variable {m m' : Bytes} {a i j n : Nat}

def testBit (m : Bytes) (i : Nat) : Bool := (m (i / 8)).getLsbD (i % 8)

def setBit (m : Bytes) (i : Nat) : Bytes :=
  Function.update m (i / 8) (m (i / 8) ||| 1#8 <<< (i % 8))

/-- The word of `n` bytes at an address. -/
def loadWord (m : Bytes) (a : Nat) : (n : Nat) → BitVec (8 * n)
  | 0 => 0
  | n + 1 => (m (a + n) ++ loadWord m a n).cast (by omega)

def storeWord (m : Bytes) (a : Nat) (v : BitVec (8 * n)) : Bytes := fun x =>
  if a ≤ x ∧ x < a + n then v.extractLsb' (8 * (x - a)) 8 else m x

theorem getLsbD_one_shiftLeft {w : Nat} (inside : j < w) (i : Nat) :
    (1#w <<< j).getLsbD i = decide (i = j) := by
  rw [← BitVec.twoPow_eq, BitVec.getLsbD_twoPow, decide_eq_true inside, Bool.true_and]
  exact decide_eq_decide.mpr eq_comm

/-- The test of one bit. -/
theorem and_one_shiftLeft_ne_zero_iff {w : Nat} {v : BitVec w} (inside : j < w) :
    v &&& 1#w <<< j ≠ 0#w ↔ v.getLsbD j = true := by
  constructor
  · intro some_
    by_contra clear
    refine some_ (BitVec.eq_of_getLsbD_eq fun i _ => ?_)
    rw [BitVec.getLsbD_and, getLsbD_one_shiftLeft inside, BitVec.getLsbD_zero]
    by_cases same : i = j
    · rw [same, Bool.eq_false_iff.mpr clear, Bool.false_and]
    · rw [decide_eq_false same, Bool.and_false]
  · intro bit empty
    have there : (v &&& 1#w <<< j).getLsbD j = true := by
      rw [BitVec.getLsbD_and, getLsbD_one_shiftLeft inside, bit, decide_eq_true rfl]
      rfl
    rw [empty, BitVec.getLsbD_zero] at there
    cases there

theorem testBit_setBit (m : Bytes) (i j : Nat) :
    testBit (setBit m i) j = (testBit m j || decide (j = i)) := by
  unfold testBit setBit
  rw [Function.update_apply]
  split
  case isTrue same =>
    rw [BitVec.getLsbD_or, getLsbD_one_shiftLeft (Nat.mod_lt i (by decide)), same]
    congr 1
    rw [decide_eq_decide]
    omega
  case isFalse other =>
    have apart : j ≠ i := fun same => other (by rw [same])
    rw [decide_eq_false apart, Bool.or_false]

theorem getLsbD_loadWord (m : Bytes) (a : Nat) (inside : i < 8 * n) :
    (loadWord m a n).getLsbD i = testBit m (8 * a + i) := by
  induction n with
  | zero => omega
  | succ n ih =>
      unfold loadWord
      rw [BitVec.getLsbD_cast, BitVec.getLsbD_append]
      split
      case isTrue lower => exact ih lower
      case isFalse upper =>
        have byte : (8 * a + i) / 8 = a + n := by omega
        have bit : (8 * a + i) % 8 = i - 8 * n := by omega
        unfold testBit
        rw [byte, bit]

theorem testBit_storeWord (m : Bytes) (a : Nat) (v : BitVec (8 * n)) (i : Nat) :
    testBit (storeWord m a v) i =
      if 8 * a ≤ i ∧ i < 8 * (a + n) then v.getLsbD (i - 8 * a) else testBit m i := by
  have bytes : a ≤ i / 8 ∧ i / 8 < a + n ↔ 8 * a ≤ i ∧ i < 8 * (a + n) := by omega
  unfold testBit storeWord
  simp only [bytes]
  split
  case isTrue inside =>
    have place : 8 * (i / 8 - a) + i % 8 = i - 8 * a := by omega
    rw [BitVec.getLsbD_extractLsb', place, decide_eq_true (Nat.mod_lt i (by decide)),
      Bool.true_and]
  case isFalse => rfl

/-- An OR on a word sets the bits of the word. -/
theorem testBit_orWord (m : Bytes) (a : Nat) (v : BitVec (8 * n)) (i : Nat) :
    testBit (storeWord m a (loadWord m a n ||| v)) i =
      (testBit m i || (decide (8 * a ≤ i) && v.getLsbD (i - 8 * a))) := by
  rw [testBit_storeWord]
  split
  case isTrue inside =>
    have place : 8 * a + (i - 8 * a) = i := by omega
    rw [BitVec.getLsbD_or, getLsbD_loadWord m a (by omega), place, decide_eq_true inside.1,
      Bool.true_and]
  case isFalse outside =>
    by_cases lower : 8 * a ≤ i
    · have past : 8 * n ≤ i - 8 * a := by omega
      rw [BitVec.getLsbD_of_ge _ _ past, Bool.and_false, Bool.or_false]
    · rw [decide_eq_false lower, Bool.false_and, Bool.or_false]

/-- The bits that are set one after the other. -/
theorem getLsbD_foldl_or {w : Nat} (v : BitVec w) {bits : List Nat} (inside : ∀ j ∈ bits, j < w)
    (i : Nat) :
    (bits.foldl (fun v j => v ||| 1#w <<< j) v).getLsbD i =
      (v.getLsbD i || decide (i ∈ bits)) := by
  induction bits generalizing v with
  | nil => simp
  | cons j bits ih =>
      rw [List.foldl_cons, ih _ fun k member => inside k (List.mem_cons_of_mem j member),
        BitVec.getLsbD_or, getLsbD_one_shiftLeft (inside j List.mem_cons_self), Bool.or_assoc]
      congr 1
      simp

/-- Bytes with the same bits are the same. -/
theorem byte_eq_of_testBit (same : ∀ j < 8, testBit m (8 * a + j) = testBit m' (8 * a + j)) :
    m a = m' a := by
  refine BitVec.eq_of_getLsbD_eq fun j inside => ?_
  have bit := same j inside
  have byte : (8 * a + j) / 8 = a := by omega
  have place : (8 * a + j) % 8 = j := by omega
  unfold testBit at bit
  rw [byte, place] at bit
  exact bit

end FlexClone.Bitmap
