import W16.PreparseSanityReaders

/-!
# When preparse data is safe to read

The data is safe exactly where no sum of 32 bits that stands for an index wraps around.
-/
namespace W16.PreparseSanity

open Preparse hiding initializeData ScriptDataImpl Call
open Store (readAddress)

set_option linter.dupNamespace false

variable {store : Store} {st : ScriptDataImpl}

/-- The checks that come first. -/
structure HeaderRight (store : Store) : Prop where
  length : 6 ≤ store.length
  magic : store.get 0 = kMagicNumber
  version : store.get 1 = kCurrentVersion

/-- The checks before those of the strings. -/
structure MessageRight (store : Store) : Prop where
  error : hasError store
  length : 9 < store.length
  order : (store.get 6).toNat ≤ (store.get 7).toNat

/-- The checks of the numbers in the header, but not of the array's length. -/
structure SizesRight (store : Store) : Prop where
  noError : ¬hasError store
  size : functionsSize store < 2 ^ 31
  entries : functionsSize store % 5 = 0
  symbols : symbolCount store < 2 ^ 31

/-- What the data is when sums have no bound. -/
def WellFormed (store : Store) : Prop :=
  HeaderRight store ∧ (MessageRight store ∧ StringsInside store (argCount store + 1) 9 ∨
      SizesRight store ∧ 6 + functionsSize store ≤ store.length)

/-- The sums that stand for an index, as far as they are formed, are non-negative as an `int`. -/
structure SumsFit (store : Store) : Prop where
  strings : HeaderRight store → MessageRight store → StringsFit store (argCount store + 1) 9
  sizes : HeaderRight store → SizesRight store → 6 + functionsSize store < 2 ^ 31
  symbols : WellFormed store → 0 ≤ int (6 + functionsSize store)
  entries : WellFormed store → store.length < 2 ^ 31 - 2

section Check

theorem header_index {i : Nat} (h : 6 ≤ store.length) (hi : i < 6) :
    store.index i = .ok (store.get i) := Store.index_inside (by omega)

theorem sanityCheck_header_wrong (h : ¬HeaderRight store) : sanityCheck store = .ok false := by
  rw [sanityCheck]
  by_cases hlen : store.length < kHeaderSize
  · rw [if_pos hlen]
    rfl
  · have hlen' : 6 ≤ store.length := Nat.le_of_not_lt hlen
    have h0 : store.index 0 = .ok (store.get 0) := header_index (i := 0) hlen' (by decide)
    have h1 : store.index 1 = .ok (store.get 1) := header_index (i := 1) hlen' (by decide)
    rw [if_neg hlen, h0, ok_bind]
    by_cases hmagic : store.get 0 = kMagicNumber
    · have hversion : store.get 1 ≠ kCurrentVersion :=
        fun hversion => h ⟨hlen', hmagic, hversion⟩
      rw [if_neg (not_not.2 hmagic), h1, ok_bind, if_pos hversion]
      rfl
    · rw [if_pos hmagic]
      rfl

theorem sanityCheck_header_right (h : HeaderRight store) : sanityCheck store =
      if store.get kHasErrorOffset ≠ 0 then checkMessage store else checkSizes store := by
  have hlen := h.length
  have h0 : store.index 0 = .ok (store.get 0) := header_index (i := 0) hlen (by decide)
  have h1 : store.index 1 = .ok (store.get 1) := header_index (i := 1) hlen (by decide)
  have h2 : store.index kHasErrorOffset = .ok (store.get kHasErrorOffset) :=
    header_index hlen (by decide)
  rw [sanityCheck, if_neg (Nat.not_lt.2 (show kHeaderSize ≤ store.length from hlen)), h0,
    ok_bind, if_neg (not_not.2 h.magic), h1, ok_bind, if_neg (not_not.2 h.version), h2, ok_bind]

theorem sanityCheck_message (h : HeaderRight store) (herror : hasError store) :
    sanityCheck store = checkMessage store := (sanityCheck_header_right h).trans (if_pos herror)

theorem sanityCheck_sizes (h : HeaderRight store) (herror : ¬hasError store) :
    sanityCheck store = checkSizes store := (sanityCheck_header_right h).trans (if_neg herror)

theorem message_index {p : Nat} (h : 9 < store.length) (hp : p < 4) :
    store.read p = .ok (store.get (6 + p)) := read_inside (by omega)

theorem checkMessage_right (h : MessageRight store) : checkMessage store =
      checkStrings store (argCount store) (store.length + 1) 0 (((9 : Nat) : Int) - 6) := by
  have hlen := h.length
  have h0 : store.read kMessageStartPos = .ok (store.get 6) := message_index hlen (by decide)
  have h1 : store.read kMessageEndPos = .ok (store.get 7) := message_index hlen (by decide)
  have h2 : store.read kMessageArgCountPos = .ok (store.get 8) :=
    message_index hlen (by decide)
  rw [checkMessage, if_neg (Nat.not_le.2 (show kHeaderSize + kMessageTextPos < _ from hlen)),
    h0, ok_bind, h1, ok_bind, if_neg (Nat.not_lt.2 h.order), h2, ok_bind]
  rfl

theorem checkMessage_wrong (herror : hasError store) (h : ¬MessageRight store) :
    checkMessage store = .ok false := by
  rw [checkMessage]
  by_cases hlen : store.length ≤ kHeaderSize + kMessageTextPos
  · rw [if_pos hlen]
    rfl
  · have hlen' : 9 < store.length := Nat.lt_of_not_le hlen
    have h0 : store.read kMessageStartPos = .ok (store.get 6) :=
      message_index hlen' (by decide)
    have h1 : store.read kMessageEndPos = .ok (store.get 7) :=
      message_index hlen' (by decide)
    have horder : (store.get 6).toNat > (store.get 7).toNat := by
      by_contra horder
      exact h ⟨herror, hlen', Nat.le_of_not_lt horder⟩
    rw [if_neg hlen, h0, ok_bind, h1, ok_bind, if_pos horder]
    rfl

theorem checkSizes_eq (h : 6 ≤ store.length) (herror : ¬hasError store) :
    ∃ accepted, checkSizes store = .ok accepted ∧ (accepted = true ↔
      SizesRight store ∧ int (6 + functionsSize store) ≤ store.length) := by
  have h3 : store.index kFunctionsSizeOffset = .ok (store.get kFunctionsSizeOffset) :=
    header_index h (by decide)
  have h4 : store.index kSymbolCountOffset = .ok (store.get kSymbolCountOffset) :=
    header_index h (by decide)
  have hwrong : ¬SizesRight store → (false = true ↔
      SizesRight store ∧ int (6 + functionsSize store) ≤ store.length) :=
    fun hsizes => ⟨fun hfalse => (Bool.false_ne_true hfalse).elim, fun hright =>
      (hsizes hright.1).elim⟩
  rw [checkSizes, h3, ok_bind]
  by_cases hsize : functionsSize store < 2 ^ 31
  · have hsizeInt : (store.get kFunctionsSizeOffset).toInt = functionsSize store :=
      toInt_get hsize
    rw [hsizeInt, if_neg (by omega)]
    by_cases hent : functionsSize store % 5 = 0
    · rw [if_neg (by rw [kSize]; omega), h4, ok_bind]
      by_cases hsyms : symbolCount store < 2 ^ 31
      · have hsymsInt := toInt_get hsyms
        have hright : SizesRight store := ⟨herror, hsize, hent, hsyms⟩
        rw [hsymsInt, if_neg (by omega)]
        by_cases hlen : store.length < int (kHeaderSize + functionsSize store)
        · refine ⟨false, by rw [if_pos hlen]; rfl, ?_⟩
          simp only [Bool.false_eq_true, false_iff, not_and]
          exact fun _ => Int.not_le.2 hlen
        · refine ⟨true, by rw [if_neg hlen]; rfl, ?_⟩
          simp only [true_iff]
          exact ⟨hright, Int.not_lt.1 hlen⟩
      · have hneg := toInt_get_neg (Nat.le_of_not_lt hsyms)
        exact ⟨false, by rw [if_pos hneg]; rfl, hwrong fun hright => hsyms hright.symbols⟩
    · refine ⟨false, by rw [if_pos (by rw [kSize]; omega)]; rfl, ?_⟩
      exact hwrong fun hright => hent hright.entries
  · have hneg := toInt_get_neg (Nat.le_of_not_lt hsize)
    exact ⟨false, by rw [if_pos hneg]; rfl, hwrong fun hright => hsize hright.size⟩

/-- Where the sums fit, the check finds the data that is well formed. -/
theorem sanityCheck_eq (h : SumsFit store) :
    ∃ accepted, sanityCheck store = .ok accepted ∧ (accepted = true ↔ WellFormed store) := by
  by_cases hhead : HeaderRight store
  · by_cases herror : hasError store
    · have hsizes : ¬SizesRight store := fun hright => hright.noError herror
      rw [sanityCheck_message hhead herror]
      by_cases hmsg : MessageRight store
      · rw [checkMessage_right hmsg]
        obtain ⟨accepted, hrun, hiff⟩ := checkStrings_fit (h.strings hhead hmsg)
          (show 9 < 2 ^ 31 by decide) (Nat.zero_add _) (Nat.zero_le 9)
          (Nat.succ_pos store.length) (by omega)
        simp_all [WellFormed]
      · refine ⟨false, checkMessage_wrong herror hmsg, ?_⟩
        simp [WellFormed, hmsg, hsizes]
    · have hmsg : ¬MessageRight store := fun hright => herror hright.error
      rw [sanityCheck_sizes hhead herror]
      obtain ⟨accepted, hrun, hiff⟩ := checkSizes_eq hhead.length herror
      refine ⟨accepted, hrun, hiff.trans ?_⟩
      simp only [WellFormed, hhead, hmsg, true_and, false_and, false_or]
      apply and_congr_right
      intro hright
      have hsum := h.sizes hhead hright
      rw [Store.int_of_small (by omega) (by omega)]
      omega
  · refine ⟨false, sanityCheck_header_wrong hhead, ?_⟩
    simp [WellFormed, hhead]

end Check

section Accepted

/-- Well-formed data whose sums fit, so that the calls stay in the array. -/
structure Accepted (store : Store) : Prop where
  wellFormed : WellFormed store
  symbols : 0 ≤ int (6 + functionsSize store)
  entries : store.length < 2 ^ 31 - 2

theorem WellFormed.message (h : WellFormed store) (herror : hasError store) :
    MessageRight store ∧ StringsInside store (argCount store + 1) 9 := by
  obtain ⟨-, hmsg | hsizes⟩ := h
  · exact hmsg
  · exact absurd herror hsizes.1.noError

theorem messageLocation_ok (h : MessageRight store) : ∃ location, messageLocation store = .ok location := by
  have h0 : store.read kMessageStartPos = .ok (store.get 6) :=
    message_index h.length (by decide)
  have h1 : store.read kMessageEndPos = .ok (store.get 7) :=
    message_index h.length (by decide)
  rw [messageLocation, h0, ok_bind, h1, ok_bind]
  exact ⟨_, rfl⟩

theorem textAddress : readAddress kMessageTextPos = ((9 : Nat) : Int) := rfl

theorem buildMessage_ok (h : StringsInside store (argCount store + 1) 9) :
    ∃ chars, buildMessage store = .ok chars := by
  obtain ⟨chars, hchars⟩ := readString_inside h.2.le
  rw [buildMessage, textAddress, hchars, ok_bind]
  exact ⟨_, rfl⟩

/-- The arguments start behind the text. -/
theorem buildArgs_eq (h : 9 < store.length) (hcount : argCount store < 2 ^ 31)
    (htext : 9 + 1 + lengthAt store 9 < 2 ^ 31) :
    buildArgs store = buildArgsLoop store (argCount store) (((9 + 1 + lengthAt store 9 : Nat) : Int) - 6) := by
  have h2 : store.read kMessageArgCountPos = .ok (store.get 8) := message_index h (by decide)
  have h3 : store.read kMessageTextPos = .ok (store.get 9) := message_index h (by decide)
  have hcountInt : (store.get 8).toInt = argCount store := toInt_get (i := 8) hcount
  have hpos : int (kMessageTextPos + 1 + (store.get 9).toNat) =
      ((9 + 1 + lengthAt store 9 : Nat) : Int) - 6 := by
    grind [lengthAt, Store.int_of_small, kMessageTextPos]
  rw [buildArgs, h2, ok_bind, h3, ok_bind, hcountInt, Int.toNat_natCast, hpos]

theorem buildArgs_ok (h : StringsInside store (argCount store + 1) 9) : ∃ args, buildArgs store = .ok args := by
  have hlt := store.length_lt_int
  have hcount := h.count_le
  have htext := h.2.le
  rw [buildArgs_eq h.1 (by omega) (by omega)]
  exact buildArgsLoop_inside h.2

theorem step_ready (h : Accepted store) (hready : Ready store st) {call : Call}
    (hcall : call.ofMessage = true → hasError store) :
    ∃ st', step store st call = .ok st' ∧ Ready store st' := by
  cases call with
  | initializeData => exact initializeData_ready st h.wellFormed.1.length h.symbols
  | getFunctionEntry start =>
    obtain ⟨entry, st', hrun, hready'⟩ := getFunctionEntry_ready h.entries hready start
    exact ⟨st', by rw [step, hrun]; rfl, hready'⟩
  | getSymbolIdentifier =>
    obtain ⟨number, st', hrun, hready'⟩ := getSymbolIdentifier_ready hready
    exact ⟨st', by rw [step, hrun]; rfl, hready'⟩
  | messageLocation =>
    obtain ⟨location, hrun⟩ := messageLocation_ok (h.wellFormed.message (hcall rfl)).1
    exact ⟨st, by rw [step, hrun]; rfl, hready⟩
  | buildMessage =>
    obtain ⟨chars, hrun⟩ := buildMessage_ok (h.wellFormed.message (hcall rfl)).2
    exact ⟨st, by rw [step, hrun]; rfl, hready⟩
  | buildArgs =>
    obtain ⟨args, hrun⟩ := buildArgs_ok (h.wellFormed.message (hcall rfl)).2
    exact ⟨st, by rw [step, hrun]; rfl, hready⟩

theorem run_ready (h : Accepted store) (calls : List Call) (hready : Ready store st)
    (hcalls : ∀ call ∈ calls, call.ofMessage = true → hasError store) :
    ∃ st', run store st calls = .ok st' ∧ Ready store st' := by
  induction calls generalizing st with
  | nil => exact ⟨st, rfl, hready⟩
  | cons call calls ih =>
    obtain ⟨st₁, hstep, hready₁⟩ := step_ready h hready (hcalls call (by simp))
    obtain ⟨st₂, hrun, hready₂⟩ := ih hready₁ fun c hc => hcalls c (by simp [hc])
    exact ⟨st₂, by rw [run, hstep, ok_bind, hrun], hready₂⟩

end Accepted

section Refused

/-- A negative sum makes the symbol data start before the array. -/
theorem run_symbols_outside {offset : Int} (h : 6 ≤ store.length)
    (hoff : int (6 + functionsSize store) = offset) (hneg : offset < 0) :
    run store st [.initializeData, .getSymbolIdentifier] = .error (.outside offset) := by
  have hbyte : readByte store (4 * offset) = .error (.outside offset) := by
    simp [readByte, Store.index_outside, hneg]
  rw [run, step, initializeData_eq h, ok_bind, hoff, if_pos (by omega), run, step,
    getSymbolIdentifier, if_neg (by dsimp only; omega), hbyte]
  rfl

theorem run_append (st : ScriptDataImpl) (calls calls' : List Call) :
    run store st (calls ++ calls') = run store st calls >>= fun st' => run store st' calls' := by
  induction calls generalizing st with
  | nil => rfl
  | cons call calls ih =>
    simp [run, ih]

theorem step_entry {i : Nat} (hst : st.functionIndex = i) (h : i + 5 ≤ store.length) :
    step store st (.getFunctionEntry (store.get i).toInt) =
      .ok { st with functionIndex := ((i + 5 : Nat) : Int) } := by
  have hlt := store.length_lt_int
  obtain ⟨words, hwords⟩ := indexWords_inside (n := kSize) h
  have hsum : int (st.functionIndex + kSize) = ((i + 5 : Nat) : Int) := by
    rw [Store.int_of_small (by omega) (by rw [kSize]; omega), hst]
    rfl
  rw [step, getFunctionEntry, hsum, if_pos (by omega), hst, Store.index_inside (by omega), ok_bind,
    if_pos rfl, hwords]
  rfl

/-- Calls for the entries that follow each other. -/
theorem run_entries (store : Store) (n : Nat) (hst : st.functionIndex = (6 : Nat))
    (h : 6 + 5 * n ≤ store.length) :
    ∃ calls st', (∀ call ∈ calls, call.ofMessage = false) ∧ run store st calls = .ok st' ∧
      st'.functionIndex = (6 + 5 * n : Nat) := by
  induction n with
  | zero => exact ⟨[], st, by simp, rfl, hst⟩
  | succ n ih =>
    obtain ⟨calls, st', hcalls, hrun, hindex⟩ := ih (by omega)
    have hstep := step_entry hindex (by omega)
    refine ⟨calls ++ [Call.getFunctionEntry (store.get (6 + 5 * n)).toInt],
      { st' with functionIndex := ((6 + 5 * n + 5 : Nat) : Int) }, ?_, ?_, ?_⟩
    · intro call hcall
      rw [List.mem_append, List.mem_singleton] at hcall
      obtain hcall | rfl := hcall
      · exact hcalls call hcall
      · rfl
    · rw [run_append, hrun, ok_bind, run, hstep]
      rfl
    · dsimp only
      omega

/-- Behind the largest `int` the bound of the next entry wraps around. -/
theorem step_entry_outside (hst : st.functionIndex = (2 ^ 31 - 2 : Nat)) (h : 2 ^ 31 - 2 ≤ store.length) :
    ∃ e, step store st (.getFunctionEntry (store.get (2 ^ 31 - 2)).toInt) = .error e := by
  have hlt := store.length_lt_int
  have hsum : int (st.functionIndex + kSize) = 2 ^ 31 + 3 - 2 ^ 32 := by
    simp [Store.int_of_large, kSize, hst]
  rw [step, getFunctionEntry, hsum, if_pos (by omega), hst]
  by_cases hin : 2 ^ 31 - 2 < store.length
  · rw [Store.index_inside hin, ok_bind, if_pos rfl,
      indexWords_outside (Nat.le_of_lt hin) (by rw [kSize]; omega)]
    exact ⟨_, rfl⟩
  · rw [Store.index_outside (.inr (by omega))]
    exact ⟨_, rfl⟩

theorem run_entries_outside (store : Store) (st : ScriptDataImpl) (h : 2 ^ 31 - 2 ≤ store.length) :
    ∃ calls e, (∀ call ∈ calls, call.ofMessage = false) ∧
      run store st (.initializeData :: calls) = .error e := by
  obtain ⟨st₀, hst₀, hfirst⟩ : ∃ st₀, initializeData store st = .ok st₀ ∧
      st₀.functionIndex = (6 : Nat) := ⟨_, initializeData_eq (by omega), rfl⟩
  obtain ⟨calls, st', hcalls, hrun, hindex⟩ := run_entries store 429496728 hfirst (by omega)
  obtain ⟨e, he⟩ := step_entry_outside hindex h
  refine ⟨calls ++ [Call.getFunctionEntry (store.get (2 ^ 31 - 2)).toInt], e, ?_, ?_⟩
  · intro call hcall
    rw [List.mem_append, List.mem_singleton] at hcall
    obtain hcall | rfl := hcall
    · exact hcalls call hcall
    · rfl
  · rw [run, step, hst₀, ok_bind, run_append, hrun, ok_bind, run, he, error_bind]

/-- The string that ends behind the array is the message, or the last argument. -/
theorem run_strings_outside (st : ScriptDataImpl) (h : 6 ≤ store.length)
    (hover : StringsOverrun store (argCount store + 1) 9) :
    ∃ e, run store st [.initializeData, .buildMessage, .buildArgs] = .error e := by
  have hlt := store.length_lt_int
  obtain ⟨hin, hlen, hrest⟩ := hover
  obtain ⟨st₀, hst₀⟩ : ∃ st₀, initializeData store st = .ok st₀ := ⟨_, initializeData_eq h⟩
  rw [run, step, hst₀, ok_bind, run]
  cases hcount : argCount store with
  | zero =>
    rw [hcount] at hrest
    rw [step, buildMessage, textAddress, readString_outside hin hlen hrest]
    exact ⟨_, rfl⟩
  | succ n =>
    rw [hcount] at hrest
    have hle := hrest.count_le
    obtain ⟨chars, hchars⟩ := readString_inside (Nat.le_of_lt hrest.1)
    have hmsg : step store st₀ .buildMessage = .ok st₀ := by
      rw [step, buildMessage, textAddress, hchars]
      rfl
    have hargs := buildArgsLoop_outside hrest
    rw [← hcount, ← buildArgs_eq hin (by omega) (by omega)] at hargs
    rw [hmsg, ok_bind, run, step, hargs]
    exact ⟨_, rfl⟩

theorem WellFormed.accepted (h : WellFormed store) : sanityCheck store = .ok true := by
  have hlt := store.length_lt_int
  obtain ⟨hhead, hmsg | hsizes⟩ := h
  · obtain ⟨hmsg, hstrs⟩ := hmsg
    obtain ⟨accepted, hrun, hiff⟩ := checkStrings_fit hstrs.fit (show 9 < 2 ^ 31 by decide)
      (Nat.zero_add _) (Nat.zero_le 9) (Nat.succ_pos store.length) (by omega)
    rw [sanityCheck_message hhead hmsg.error, checkMessage_right hmsg, hrun, hiff.2 hstrs]
  · obtain ⟨hsizes, hlen⟩ := hsizes
    obtain ⟨accepted, hrun, hiff⟩ := checkSizes_eq hhead.length hsizes.noError
    have hfits : int (6 + functionsSize store) ≤ store.length := by
      rw [Store.int_of_small (by omega) (by omega)]
      omega
    rw [sanityCheck_sizes hhead hsizes.noError, hrun, hiff.2 ⟨hsizes, hfits⟩]

end Refused

section Safe

theorem SafeToRead.run_ok (h : SafeToRead store) (hacc : sanityCheck store = .ok true)
    (st : ScriptDataImpl) (calls : List Call)
    (hcalls : ∀ call ∈ calls, call.ofMessage = true → hasError store) {e : Stop} :
    run store st (.initializeData :: calls) ≠ .error e := by
  obtain ⟨st', hrun⟩ := h.2 hacc st calls hcalls
  rw [hrun]
  exact fun h => by cases h

theorem SafeToRead.symbols (h : SafeToRead store) (hacc : sanityCheck store = .ok true)
    (hlen : 6 ≤ store.length) : 0 ≤ int (6 + functionsSize store) := by
  by_contra hneg
  have hcalls : ∀ call ∈ [Call.getSymbolIdentifier], call.ofMessage = true → hasError store := by
    simp [Call.ofMessage]
  exact h.run_ok hacc ⟨0, 0, 0⟩ _ hcalls (run_symbols_outside hlen rfl (by omega))

theorem SafeToRead.strings (h : SafeToRead store) (hhead : HeaderRight store)
    (hmsg : MessageRight store) : StringsFit store (argCount store + 1) 9 := by
  by_contra hfit
  have hcheck := checkStrings_not_fit hfit (show 9 < 2 ^ 31 by decide) (Nat.zero_add _)
    (Nat.zero_le 9) (show store.length < 9 + (store.length + 1) by omega)
  rw [← checkMessage_right hmsg, ← sanityCheck_message hhead hmsg.error] at hcheck
  obtain ⟨j, -, houtside⟩ | ⟨hacc, hover⟩ := hcheck
  · obtain ⟨accepted, hrun⟩ := h.1
    rw [hrun] at houtside
    cases houtside
  · obtain ⟨e, he⟩ := run_strings_outside ⟨0, 0, 0⟩ hhead.length hover
    exact h.run_ok hacc _ _ (fun _ _ _ => hmsg.error) he

/-- Data is safe to read exactly where the sums fit. -/
theorem safeToRead_iff (store : Store) : SafeToRead store ↔ SumsFit store := by
  constructor
  · intro h
    constructor
    · exact fun hheader hmessage => h.strings hheader hmessage
    · intro hheader hsizes
      by_contra hlarge
      have hsize := hsizes.size
      obtain ⟨accepted, hrun, hiff⟩ := checkSizes_eq hheader.length hsizes.noError
      have hneg : int (6 + functionsSize store) < 0 := by
        rw [Store.int_of_large (by omega) (by omega)]
        omega
      rw [← sanityCheck_sizes hheader hsizes.noError, hiff.2 ⟨hsizes, by omega⟩] at hrun
      have := h.symbols hrun hheader.length
      omega
    · exact fun hwell => h.symbols hwell.accepted hwell.1.length
    · intro hwell
      by_contra hlong
      obtain ⟨calls, e, hcalls, he⟩ := run_entries_outside store ⟨0, 0, 0⟩ (by omega)
      refine h.run_ok hwell.accepted _ calls (fun call hcall hmessage => ?_) he
      grind
  · intro h
    obtain ⟨accepted, hcheck, hiff⟩ := sanityCheck_eq h
    refine ⟨⟨accepted, hcheck⟩, fun htrue st calls hcalls => ?_⟩
    obtain rfl : accepted = true := by
      grind
    have hwell := hiff.1 rfl
    have haccepted : Accepted store := ⟨hwell, h.symbols hwell, h.entries hwell⟩
    obtain ⟨st₀, hst₀, hready⟩ := initializeData_ready st hwell.1.length haccepted.symbols
    obtain ⟨st', hrun, -⟩ := run_ready haccepted calls hready hcalls
    exact ⟨st', by rw [run, step, hst₀, ok_bind, hrun]⟩

/-- A message of `2 ^ 31 - 10` characters is accepted, and its first one is behind the array. -/
theorem sanityCheck_accepts_long_message :
    ∃ store : Store, store.words = [0xBadDead, 7, 1, 0, 0, 0, 0, 0, 0, 2147483638] ∧
      sanityCheck store = .ok true ∧ hasError store ∧
      buildMessage store = .error (.outside 10) ∧ ¬SafeToRead store := by
  obtain ⟨store, hstore⟩ : ∃ store : Store,
      store = ⟨[0xBadDead, 7, 1, 0, 0, 0, 0, 0, 0, 2147483638], by decide⟩ := ⟨_, rfl⟩
  have haccepted : sanityCheck store = .ok true := by
    subst hstore
    rfl
  have herror : hasError store := by
    subst hstore
    decide
  have hmessage : buildMessage store = .error (.outside 10) := by
    have hread : readString store (9 : Nat) = .error (.outside store.length) := by
      subst hstore
      exact readString_outside (by decide) (by decide) (by decide)
    rw [buildMessage, textAddress, hread, hstore]
    rfl
  refine ⟨store, by rw [hstore], haccepted, herror, hmessage, fun h => ?_⟩
  obtain ⟨st₀, hst₀⟩ : ∃ st₀, initializeData store ⟨0, 0, 0⟩ = .ok st₀ := by
    subst hstore
    exact ⟨_, rfl⟩
  obtain ⟨st, hrun⟩ := h.2 haccepted ⟨0, 0, 0⟩ [.buildMessage] fun _ _ _ => herror
  rw [run, step, hst₀, ok_bind, run, step, hmessage] at hrun
  cases hrun

end Safe

end W16.PreparseSanity
