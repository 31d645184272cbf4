import W16.PreparseSanity

/-!
# The strings of a message

Where the end of each string is an `int`, the check finds whether all strings are inside of the
array. A string that ends behind all of these numbers is not read, or is accepted as the last one.
-/
namespace W16.PreparseSanity

open Preparse hiding initializeData ScriptDataImpl Call
open Store (readAddress)

set_option linter.dupNamespace false

variable {store : Store} {i n : Nat}

section Index

namespace Store

theorem length_lt_int (store : Store) : (store.length : Int) < 2 ^ 31 := by
  have := store.length_lt
  rw [length]
  omega

theorem index_inside (h : i < store.length) : store.index i = .ok (store.get i) := by
  simp_all [index]

theorem index_outside {k : Int} (h : k < 0 ∨ store.length ≤ k) :
    store.index k = .error (.outside k) := if_neg (by omega)

/-- What is left of a number that is no `int` is negative. -/
theorem int_of_large {k : Int} (h : 2 ^ 31 ≤ k) (h' : k < 2 ^ 32) : int k = k - 2 ^ 32 := by
  grind [int]

theorem int_of_small {k : Int} (h : -2 ^ 31 ≤ k) (h' : k < 2 ^ 31) : int k = k :=
  Int.bmod_eq_of_le (by omega) (by omega)

theorem readAddress_eq {pos : Int} (h : -2 ^ 31 ≤ 6 + pos) (h' : 6 + pos < 2 ^ 31) :
    readAddress pos = 6 + pos := int_of_small h h'

end Store

end Index

section Words

open Store

theorem ok_bind {ε β γ : Type} (x : β) (f : β → Except ε γ) : Except.ok x >>= f = f x := rfl

theorem error_bind {ε β γ : Type} (e : ε) (f : β → Except ε γ) :
    (Except.error e : Except ε β) >>= f = .error e := rfl

theorem indexWords_inside (h : i + n ≤ store.length) : ∃ words, indexWords store n i = .ok words := by
  induction n generalizing i with
  | zero => exact ⟨[], rfl⟩
  | succ n ih =>
    obtain ⟨words, hwords⟩ := ih (i := i + 1) (by omega)
    rw [Int.natCast_add, Int.natCast_one] at hwords
    exact ⟨store.get i :: words, by
      rw [indexWords, index_inside (by omega), ok_bind, hwords]
      rfl⟩

theorem indexWords_outside (hi : i ≤ store.length) (h : store.length < i + n) :
    indexWords store n i = .error (.outside store.length) := by
  induction n generalizing i with
  | zero => omega
  | succ n ih =>
    rw [indexWords]
    by_cases hlt : i < store.length
    · have hnext := ih (i := i + 1) (by omega) (by omega)
      rw [Int.natCast_add, Int.natCast_one] at hnext
      rw [index_inside hlt, ok_bind, hnext, error_bind]
    · obtain rfl : i = store.length := by omega
      rw [index_outside (.inr (Int.le_refl _)), error_bind]

end Words

/-- The length of the string at an index. -/
def lengthAt (store : Store) (i : Nat) : Nat := (store.get i).toNat

/-- The strings from an index on are inside of the array. -/
def StringsInside (store : Store) : Nat → Nat → Prop
  | 0, i => i ≤ store.length
  | n + 1, i => i < store.length ∧ StringsInside store n (i + 1 + lengthAt store i)

/-- Each string that starts in the array and has no negative length ends at an `int`. -/
def StringsFit (store : Store) : Nat → Nat → Prop
  | 0, _ => True
  | n + 1, i => i < store.length → lengthAt store i < 2 ^ 31 →
    i + 1 + lengthAt store i < 2 ^ 31 ∧ StringsFit store n (i + 1 + lengthAt store i)

/-- All strings start in the array, and the last one ends behind it. -/
def StringsOverrun (store : Store) : Nat → Nat → Prop
  | 0, i => store.length < i
  | n + 1, i => i < store.length ∧ lengthAt store i < 2 ^ 31 ∧ StringsOverrun store n (i + 1 + lengthAt store i)

section Strings

theorem StringsInside.le (h : StringsInside store n i) : i ≤ store.length := by
  cases n with
  | zero => exact h
  | succ n => exact Nat.le_of_lt h.1

theorem StringsInside.count_le (h : StringsInside store n i) : i + n ≤ store.length := by
  induction n generalizing i with
  | zero => exact h
  | succ n ih =>
    have := ih h.2
    omega

theorem StringsInside.fit (h : StringsInside store n i) : StringsFit store n i := by
  induction n generalizing i with
  | zero => trivial
  | succ n ih =>
    intro hi hlen
    have hle := h.2.le
    have hlt := store.length_lt
    rw [Store.length] at hle
    exact ⟨by omega, ih h.2⟩

theorem StringsOverrun.count_le (h : StringsOverrun store (n + 1) i) : i + (n + 1) ≤ store.length := by
  induction n generalizing i with
  | zero =>
    have := h.1
    omega
  | succ n ih =>
    have := ih h.2.2
    omega

theorem toInt_get (h : lengthAt store i < 2 ^ 31) : (store.get i).toInt = lengthAt store i := by
  grind -linarith [lengthAt]

theorem toInt_get_neg (h : 2 ^ 31 ≤ lengthAt store i) : (store.get i).toInt < 0 := by
  rw [BitVec.toInt_neg_iff]
  rw [lengthAt] at h
  omega

theorem readString_inside (h : i + 1 + lengthAt store i ≤ store.length) :
    ∃ chars, readString store i = .ok (chars, (lengthAt store i : Int)) := by
  have hlt := store.length_lt
  rw [← Store.length] at hlt
  obtain ⟨words, hwords⟩ := indexWords_inside h
  refine ⟨words.map (·.setWidth 8), ?_⟩
  rw [readString, Store.index_inside (by omega), ok_bind, toInt_get (by omega), Int.toNat_natCast]
  rw [Int.natCast_add, Int.natCast_one] at hwords
  rw [hwords]
  rfl

theorem readString_outside (hi : i < store.length) (hlen : lengthAt store i < 2 ^ 31)
    (h : store.length < i + 1 + lengthAt store i) :
    readString store i = .error (.outside store.length) := by
  have hwords := indexWords_outside (show i + 1 ≤ store.length by omega) h
  simp_all [readString, Store.index_inside, ok_bind, toInt_get]

end Strings

section Check

variable {argCount fuel k : Nat}

/-- The address of a position before the end of the numbers of an `int`. -/
theorem readAddress_sub (hi : i < 2 ^ 31) : readAddress ((i : Int) - 6) = i := by
  rw [Store.readAddress_eq (by omega) (by omega)]
  omega

/-- A string that starts in the array and has no negative length is passed. -/
theorem checkStrings_step (hk : k ≤ argCount) (hki : k ≤ i) (hi : i < store.length)
    (hlen : lengthAt store i < 2 ^ 31) :
    checkStrings store argCount (fuel + 1) k ((i : Int) - 6) =
      checkStrings store argCount fuel (k + 1) (int (i - 6 + int (1 + lengthAt store i))) := by
  have hlt := store.length_lt
  rw [← Store.length] at hlt
  have haddress := readAddress_sub (i := i) (by omega)
  rw [checkStrings, if_pos hk, haddress, if_neg (by omega), Store.read, haddress,
    Store.index_inside hi, ok_bind]
  simp only [toInt_get hlen]
  grind

theorem checkStrings_end (hi : i < 2 ^ 31) (hk : argCount < k) :
    checkStrings store argCount (fuel + 1) k ((i : Int) - 6) = .ok !decide (store.length < i) := by
  rw [checkStrings, if_neg (by omega), readAddress_sub hi]
  simp only [Int.ofNat_lt]
  rfl

/-- The position behind a string that ends at an `int`. -/
theorem next_eq (h : i + 1 + lengthAt store i < 2 ^ 31) : int ((i : Int) - 6 + int (1 + lengthAt store i)) =
      ((i + 1 + lengthAt store i : Nat) : Int) - 6 := by
  grind [Store.int_of_small]

/-- The address behind a string that does not end at an `int` is negative. -/
theorem readAddress_next_neg (hi : i < 2 ^ 31) (hlen : lengthAt store i < 2 ^ 31)
    (h : 2 ^ 31 ≤ i + 1 + lengthAt store i) :
    readAddress (int ((i : Int) - 6 + int (1 + lengthAt store i))) < 0 := by
  have hsum : readAddress (int ((i : Int) - 6 + int (1 + lengthAt store i))) =
      int (i + 1 + lengthAt store i) := by
    simp only [readAddress, int, kHeaderSize, Int.add_bmod_bmod]
    congr 1
    omega
  rw [hsum, Store.int_of_large (by omega) (by omega)]
  omega

theorem checkStrings_fit (hfit : StringsFit store n i) (hi : i < 2 ^ 31) (hk : k + n = argCount + 1)
    (hki : k ≤ i) (hfuel : 0 < fuel) (hfuel' : store.length < i + fuel) :
    ∃ accepted, checkStrings store argCount fuel k ((i : Int) - 6) = .ok accepted ∧
      (accepted = true ↔ StringsInside store n i) := by
  have hlt := store.length_lt
  rw [← Store.length] at hlt
  induction n generalizing i k fuel with
  | zero =>
    obtain ⟨fuel, rfl⟩ := Nat.exists_eq_succ_of_ne_zero (Nat.ne_of_gt hfuel)
    refine ⟨_, checkStrings_end hi (by omega), ?_⟩
    simp [StringsInside]
  | succ n ih =>
    obtain ⟨fuel, rfl⟩ := Nat.exists_eq_succ_of_ne_zero (Nat.ne_of_gt hfuel)
    have haddress := readAddress_sub (i := i) hi
    by_cases hin : i < store.length
    · by_cases hlen : lengthAt store i < 2 ^ 31
      · obtain ⟨hend, hrest⟩ := hfit hin hlen
        rw [checkStrings_step (by omega) hki hin hlen, next_eq hend]
        have hfuel'' : store.length < i + 1 + lengthAt store i + fuel := by omega
        obtain ⟨accepted, hrun, hiff⟩ := ih hrest hend (k := k + 1) (by omega) (by omega) (by omega) hfuel''
        exact ⟨accepted, hrun, by rw [hiff, StringsInside]; exact ⟨fun h => ⟨hin, h⟩, (·.2)⟩⟩
      · refine ⟨false, ?_, ?_⟩
        · rw [checkStrings, if_pos (by omega), haddress, if_neg (by omega), Store.read, haddress,
            Store.index_inside hin, ok_bind]
          simp only [toInt_get_neg (Nat.le_of_not_lt hlen), if_true]
          rfl
        · simp only [Bool.false_eq_true, false_iff]
          rintro ⟨-, h⟩
          have := h.le
          omega
    · refine ⟨false, ?_, ?_⟩
      · rw [checkStrings, if_pos (by omega), haddress, if_pos (by omega)]
        rfl
      · simp only [Bool.false_eq_true, false_iff]
        exact fun h => hin h.1

/-- Where the strings do not fit, a negative index is read, or the data is accepted. -/
theorem checkStrings_not_fit (hfit : ¬StringsFit store n i) (hi : i < 2 ^ 31)
    (hk : k + n = argCount + 1) (hki : k ≤ i) (hfuel : store.length < i + fuel) :
    (∃ j < 0, checkStrings store argCount fuel k ((i : Int) - 6) = .error (.outside j)) ∨
      checkStrings store argCount fuel k ((i : Int) - 6) = .ok true ∧ StringsOverrun store n i := by
  have hlt := store.length_lt
  rw [← Store.length] at hlt
  induction n generalizing i k fuel with
  | zero => exact absurd trivial hfit
  | succ n ih =>
    simp only [StringsFit, not_forall, not_and] at hfit
    obtain ⟨hin, hlen, hfit⟩ := hfit
    obtain ⟨fuel, rfl⟩ : ∃ f, fuel = f + 2 := ⟨fuel - 2, by omega⟩
    rw [checkStrings_step (by omega) hki hin hlen]
    by_cases hend : i + 1 + lengthAt store i < 2 ^ 31
    · rw [next_eq hend]
      have hfuel' : store.length < i + 1 + lengthAt store i + (fuel + 1) := by omega
      obtain h | ⟨h, hover⟩ := ih (hfit hend) hend (k := k + 1) (by omega) (by omega) hfuel'
      · exact .inl h
      · exact .inr ⟨h, hin, hlen, hover⟩
    · have hneg := readAddress_next_neg hi hlen (Nat.le_of_not_lt hend)
      obtain ⟨pos, hpos⟩ : ∃ pos, int ((i : Int) - 6 + int (1 + lengthAt store i)) = pos :=
        ⟨_, rfl⟩
      rw [checkStrings]
      by_cases hlast : k + 1 ≤ argCount
      · refine .inl ⟨_, hneg, ?_⟩
        rw [if_pos hlast, if_neg (by omega), Store.read, Store.index_outside (.inl hneg), error_bind]
      · refine .inr ⟨?_, hin, hlen, ?_⟩
        · rw [if_neg hlast, decide_eq_false (by omega)]
          rfl
        · obtain rfl : n = 0 := by omega
          rw [StringsOverrun]
          omega

end Check

section Args

theorem buildArgsLoop_inside (h : StringsInside store n i) :
    ∃ args, buildArgsLoop store n ((i : Int) - 6) = .ok args := by
  have hlt := store.length_lt
  rw [← Store.length] at hlt
  induction n generalizing i with
  | zero => exact ⟨[], rfl⟩
  | succ n ih =>
    have hle := h.2.le
    obtain ⟨chars, hchars⟩ := readString_inside hle
    obtain ⟨args, hargs⟩ := ih h.2
    refine ⟨chars :: args, ?_⟩
    rw [buildArgsLoop, readAddress_sub (by omega), hchars, ok_bind]
    simp only [Int.add_comm _ (1 : Int)]
    rw [next_eq (by omega), hargs]
    rfl

theorem buildArgsLoop_outside (h : StringsOverrun store (n + 1) i) :
    buildArgsLoop store (n + 1) ((i : Int) - 6) = .error (.outside store.length) := by
  have hlt := store.length_lt
  rw [← Store.length] at hlt
  induction n generalizing i with
  | zero =>
    obtain ⟨hin, hlen, hover⟩ := h
    rw [buildArgsLoop, readAddress_sub (by omega), readString_outside hin hlen hover]
    rfl
  | succ n ih =>
    obtain ⟨hin, hlen, hover⟩ := h
    have hnext := hover.1
    obtain ⟨chars, hchars⟩ := readString_inside (Nat.le_of_lt hnext)
    rw [buildArgsLoop, readAddress_sub (by omega), hchars, ok_bind]
    simp only [Int.add_comm _ (1 : Int)]
    rw [next_eq (by omega), ih hover]
    rfl

end Args

end W16.PreparseSanity

/-!
## Calls on preparse data

The function index stays at an entry's start in the array, and the symbol data between the array's
start and its end. Where the sum for the symbol data wraps around, or the array ends at the largest
`int`, a sequence of calls leaves the array.
-/
namespace W16.PreparseSanity

open Preparse hiding initializeData ScriptDataImpl Call
open Store (readAddress)

variable {store : Store} {st : ScriptDataImpl}

def functionsSize (store : Store) : Nat := (store.get kFunctionsSizeOffset).toNat

def symbolCount (store : Store) : Nat := (store.get kSymbolCountOffset).toNat

def argCount (store : Store) : Nat := (store.get (kHeaderSize + kMessageArgCountPos)).toNat

/-- What `Initialize` sets, and the calls keep. -/
structure Ready (store : Store) (st : ScriptDataImpl) : Prop where
  first : 6 ≤ st.functionIndex
  last : st.functionIndex ≤ store.length
  entry : st.functionIndex % 5 = 1
  symbols : 0 ≤ st.symbolData
  symbolsEnd : st.symbolDataEnd = 4 * store.length

section Calls

theorem index_ok {k : Int} (h : 0 ≤ k) (h' : k < store.length) :
    store.index k = .ok (store.get k.toNat) := if_pos ⟨h, h'⟩

theorem read_inside {p : Nat} (h : 6 + p < store.length) : store.read p = .ok (store.get (6 + p)) := by
  have hlt := store.length_lt_int
  have haddress : readAddress p = ((6 + p : Nat) : Int) := by
    rw [Store.readAddress_eq (by omega) (by omega), Int.natCast_add]
    rfl
  rw [Store.read, haddress, Store.index_inside h]

theorem initializeData_eq (h : 6 ≤ store.length) :
    initializeData store st = .ok {
      functionIndex := 6
      symbolData := if store.length > int (6 + functionsSize store)
        then 4 * int (6 + functionsSize store) else 4 * store.length
      symbolDataEnd := 4 * store.length } := by
  have hsize : kFunctionsSizeOffset < store.length := Nat.lt_of_lt_of_le (by decide) h
  rw [initializeData, if_pos (show store.length ≥ kHeaderSize from h), Store.index_inside hsize,
    ok_bind]
  rfl

theorem initializeData_ready (st : ScriptDataImpl) (h : 6 ≤ store.length)
    (hoff : 0 ≤ int (6 + functionsSize store)) :
    ∃ st', initializeData store st = .ok st' ∧ Ready store st' := by
  refine ⟨_, initializeData_eq h, ?_⟩
  constructor
  · exact Int.le_refl 6
  · dsimp only
    omega
  · rfl
  · dsimp only
    split <;> omega
  · rfl

theorem getFunctionEntry_ready (hlen : store.length < 2 ^ 31 - 2) (h : Ready store st) (start : Int) :
    ∃ entry st', getFunctionEntry store st start = .ok (entry, st') ∧ Ready store st' := by
  obtain ⟨hfirst, hlast, hentry, hsyms, hend⟩ := h
  have hsum : int (st.functionIndex + kSize) = st.functionIndex + 5 :=
    Store.int_of_small (by omega) (by rw [kSize]; omega)
  rw [getFunctionEntry, hsum]
  by_cases hroom : st.functionIndex + 5 ≤ store.length
  · rw [if_pos hroom, index_ok (by omega) (by omega), ok_bind]
    by_cases hstart : (store.get st.functionIndex.toNat).toInt = start
    · have hin : st.functionIndex.toNat + kSize ≤ store.length := by
        rw [kSize]
        omega
      obtain ⟨words, hwords⟩ := indexWords_inside hin
      rw [Int.toNat_of_nonneg (by omega)] at hwords
      refine ⟨some words, { st with functionIndex := st.functionIndex + 5 }, ?_, ?_⟩
      · rw [if_pos hstart, hwords]
        rfl
      · constructor
        · dsimp only
          omega
        · exact hroom
        · dsimp only
          omega
        · exact hsyms
        · exact hend
    · exact ⟨none, st, by rw [if_neg hstart]; rfl, hfirst, hlast, hentry, hsyms, hend⟩
  · exact ⟨none, st, by rw [if_neg hroom]; rfl, hfirst, hlast, hentry, hsyms, hend⟩

theorem readByte_ok (store : Store) {data : Int} (h : 0 ≤ data) (h' : data < 4 * store.length) :
    ∃ input, readByte store data = .ok input := by
  rw [readByte, index_ok (by omega) (by omega), ok_bind]
  exact ⟨_, rfl⟩

theorem readDigits_ok (store : Store) (fuel : Nat) {data : Int} (input : BitVec 8) (result : BitVec 32)
    (h : 0 ≤ data) (hfuel : 4 * store.length - data < fuel) (hfuel' : 0 < fuel) :
    ∃ digits, readDigits store (4 * store.length) fuel data input result = .ok digits ∧
      ∀ r d, digits = some (r, d) → 0 ≤ d := by
  induction fuel generalizing data input result with
  | zero => omega
  | succ fuel ih =>
    rw [readDigits]
    by_cases hmore : input &&& 0x80 ≠ 0
    · rw [if_pos hmore]
      by_cases hend : data ≥ 4 * store.length
      · rw [if_pos hend]
        exact ⟨none, rfl, fun r d hnone => by cases hnone⟩
      · obtain ⟨next, hnext⟩ := readByte_ok store h (by omega)
        rw [if_neg hend, hnext, ok_bind]
        apply ih
        · omega
        · omega
        · omega
    · rw [if_neg hmore]
      exact ⟨some (result, data), rfl, fun r d hsome => by cases hsome; exact h⟩

theorem getSymbolIdentifier_ready (h : Ready store st) :
    ∃ number st', getSymbolIdentifier store st = .ok (number, st') ∧ Ready store st' := by
  have hsyms := h.symbols
  have hsymsEnd := h.symbolsEnd
  rw [getSymbolIdentifier]
  by_cases hend : st.symbolData ≥ st.symbolDataEnd
  · exact ⟨-1, st, by rw [if_pos hend]; rfl, h⟩
  · obtain ⟨input, hinput⟩ := readByte_ok store hsyms (by omega)
    rw [if_neg hend, hinput, ok_bind]
    by_cases hterm : input.toNat = kNumberTerminator.toNat
    · exact ⟨-1, st, by rw [if_pos hterm]; rfl, h⟩
    · obtain ⟨digits, hdigs, hdata⟩ := readDigits_ok store
        ((st.symbolDataEnd - st.symbolData).toNat + 1) input ((input &&& 0x7f).setWidth 32)
        (show 0 ≤ st.symbolData + 1 by omega) (by omega) (by omega)
      rw [← hsymsEnd] at hdigs
      rw [if_neg hterm, hdigs, ok_bind]
      cases digits with
      | none => exact ⟨-1, st, rfl, h⟩
      | some digits =>
        obtain ⟨result, data⟩ := digits
        exact ⟨result.toInt, { st with symbolData := data }, rfl, h.first, h.last, h.entry,
          hdata result data rfl, h.symbolsEnd⟩

end Calls

end W16.PreparseSanity
