import Mathlib.Data.List.Induction
import Mathlib.Data.List.Nodup
import W16.HashMapRuns
import W16.PreparseData

/-!
# Runs of the preparser's recorder

What the symbol store holds after any calls, and what is read from it.
-/
namespace W16.Preparse

open Collectors HashMaps List Option

set_option linter.dupNamespace false

/-! ## Numbers in base 128 -/

def digit (n i : Nat) : Nat := n / 128 ^ i % 128

/-- The bytes that `WriteNumber` adds: a digit of zero is left out except for the last one. -/
def numberBytes (n : Nat) : List UInt8 :=
  (([4, 3, 2, 1].map (digit n)).filter (· ≠ 0)).map (fun d => UInt8.ofNat (d + 128)) ++ [UInt8.ofNat (n % 128)]

theorem tag_digit {d : Nat} (h : d < 128) : (UInt8.ofNat d ||| 0x80) = .ofNat (d + 128) := by
  have hall : ∀ d : Fin 128, (UInt8.ofNat d.val ||| 0x80) = .ofNat (d.val + 128) := by decide +kernel
  exact hall ⟨d, h⟩

/-- The byte for a digit that is followed by others, none for a zero. -/
def digitBytes (d : Nat) : List UInt8 := ([d].filter (· ≠ 0)).map fun d => .ofNat (d + 128)

/-- One turn of the loop writes the digit at a place if it is not zero. -/
theorem writeDigit_spec (store : Collector UInt8) (number shift i : Nat)
    (hshift : 2 ^ shift = 128 ^ i) (hi : 0 < i) (hlt : number < 128 ^ (i + 1)) :
    ∃ store', writeDigit (store, number, 128 ^ i - 1) shift = (store', number % 128 ^ i, 128 ^ (i - 1) - 1) ∧
      store'.writeTo = store.writeTo ++ digitBytes (number / 128 ^ i) := by
  have hpos : 0 < 128 ^ i := Nat.pow_pos (by decide)
  have hmask : (128 ^ i - 1) >>> 7 = 128 ^ (i - 1) - 1 := by
    obtain ⟨j, rfl⟩ : ∃ j, i = j + 1 := ⟨i - 1, by omega⟩
    rw [Nat.shiftRight_eq_div_pow, Nat.add_sub_cancel, Nat.pow_succ]
    omega
  have hdigit : number / 128 ^ i < 128 := by
    rw [Nat.div_lt_iff_lt_mul hpos, Nat.mul_comm, ← Nat.pow_succ]
    exact hlt
  by_cases hgt : number > 128 ^ i - 1
  · have hne : number / 128 ^ i ≠ 0 := Nat.ne_of_gt (Nat.div_pos (by omega) hpos)
    have hstep : writeDigit (store, number, 128 ^ i - 1) shift =
        (store.add (.ofNat (number >>> shift) ||| 0x80), number &&& (128 ^ i - 1),
          (128 ^ i - 1) >>> 7) := if_pos hgt
    refine ⟨store.add (.ofNat (number / 128 ^ i + 128)), ?_, ?_⟩
    · rw [hstep, hmask, Nat.shiftRight_eq_div_pow, hshift, tag_digit hdigit, ← hshift,
        Nat.and_two_pow_sub_one_eq_mod]
    · simp [digitBytes, hne]
  · have hsmall : number < 128 ^ i := by omega
    simp [writeDigit, Nat.mod_eq_of_lt, digitBytes, hgt, hmask, hsmall]

theorem numberBytes_eq (n : Nat) : numberBytes n = digitBytes (digit n 4) ++ digitBytes (digit n 3) ++
    digitBytes (digit n 2) ++ digitBytes (digit n 1) ++ [UInt8.ofNat (n % 128)] := by
  unfold numberBytes digitBytes
  rw [← map_append, ← filter_append, ← map_append, ← filter_append,
    ← map_append, ← filter_append]
  rfl

variable {n : Nat} {k : Key} {l : List Key} {st : CompleteParserRecorder} {calls : List Call}

theorem writeTo_writeNumber (store : Collector UInt8) (hn : n < 2 ^ 31) :
    (writeNumber store n).writeTo = store.writeTo ++ numberBytes n := by
  obtain ⟨s1, h1, w1⟩ := writeDigit_spec store n 28 4 rfl (by decide) (by omega)
  obtain ⟨s2, h2, w2⟩ := writeDigit_spec s1 (n % 128 ^ 4) 21 3 rfl (by decide) (by omega)
  obtain ⟨s3, h3, w3⟩ :=
    writeDigit_spec s2 (n % 128 ^ 4 % 128 ^ 3) 14 2 rfl (by decide) (by omega)
  obtain ⟨s4, h4, w4⟩ :=
    writeDigit_spec s3 (n % 128 ^ 4 % 128 ^ 3 % 128 ^ 2) 7 1 rfl (by decide) (by omega)
  have hrun : writeNumber store n = s4.add (.ofNat (n % 128 ^ 4 % 128 ^ 3 % 128 ^ 2 % 128 ^ 1)) := by
    unfold writeNumber
    grind -linarith
  rw [hrun, Collector.writeTo_add, w4, w3, w2, w1, numberBytes_eq]
  unfold digit
  have e4 : n / 128 ^ 4 = n / 128 ^ 4 % 128 := by omega
  have e3 : n % 128 ^ 4 / 128 ^ 3 = n / 128 ^ 3 % 128 := by omega
  have e2 : n % 128 ^ 4 % 128 ^ 3 / 128 ^ 2 = n / 128 ^ 2 % 128 := by omega
  have e1 : n % 128 ^ 4 % 128 ^ 3 % 128 ^ 2 / 128 ^ 1 = n / 128 ^ 1 % 128 := by omega
  have e0 : n % 128 ^ 4 % 128 ^ 3 % 128 ^ 2 % 128 ^ 1 = n % 128 := by omega
  rw [← e4, e3, e2, e1, e0]
  simp only [append_assoc]

/-! ## Reading a number -/

/-- The number that is read from digits, the last of which comes without a mark. -/
def ofDigits (ds : List Nat) : Nat := ds.foldl (fun r d => r * 128 + d) 0

theorem read_bits {d : Nat} (h : d < 128) : (UInt8.ofNat d &&& 0x80 = 0) ∧ (UInt8.ofNat d &&& 0x7f).toNat = d ∧
      (UInt8.ofNat (d + 128) &&& 0x80 ≠ 0) ∧ (UInt8.ofNat (d + 128) &&& 0x7f).toNat = d ∧
      UInt8.ofNat d ≠ kNumberTerminator ∧ (d ≠ 0 → UInt8.ofNat (d + 128) ≠ kNumberTerminator) := by
  have hall : ∀ d : Fin 128, (UInt8.ofNat d.val &&& 0x80 = 0) ∧
      (UInt8.ofNat d.val &&& 0x7f).toNat = d.val ∧ (UInt8.ofNat (d.val + 128) &&& 0x80 ≠ 0) ∧
      (UInt8.ofNat (d.val + 128) &&& 0x7f).toNat = d.val ∧ UInt8.ofNat d.val ≠ kNumberTerminator ∧
      (d.val ≠ 0 → UInt8.ofNat (d.val + 128) ≠ kNumberTerminator) := by decide +kernel
  exact hall ⟨d, h⟩

theorem shift_digit {r d : Nat} (h : d < 128) : (r <<< 7) ||| d = r * 128 + d := by
  rw [← Nat.shiftLeft_add_eq_or_of_lt (i := 7) h, Nat.shiftLeft_eq]

/-- The loop reads on up to the first byte without the mark. -/
theorem readLoop_digits {last : Nat} (hlast : last < 128) (rest : List UInt8) :
    ∀ {ds : List Nat} {d r : Nat}, d < 128 → (∀ e ∈ ds, e < 128) →
      readLoop (ds.map (fun e => UInt8.ofNat (e + 128)) ++ .ofNat last :: rest) (.ofNat (d + 128)) r
        = some ((ds ++ [last]).foldl (fun r d => r * 128 + d) r, rest) := by
  obtain ⟨hend, hvalue, -⟩ := read_bits hlast
  intro ds
  induction ds with
  | nil =>
    intro d r hd _
    obtain ⟨-, -, hmark, -⟩ := read_bits hd
    show readLoop (.ofNat last :: rest) _ _ = _
    rw [readLoop, if_pos hmark, hvalue, shift_digit hlast]
    cases rest with
    | nil => exact if_neg (not_not.2 hend)
    | cons b rest => exact if_neg (not_not.2 hend)
  | cons e ds ih =>
    intro d r hd hds
    obtain ⟨-, -, hmark, -⟩ := read_bits hd
    have he := hds e mem_cons_self
    obtain ⟨-, -, -, hbits, -⟩ := read_bits he
    rw [map_cons, cons_append, readLoop, if_pos hmark, hbits, shift_digit he,
      ih he fun x hx => hds x (mem_cons_of_mem _ hx)]
    rfl

/-- What is read from the bytes of a number: its digits without the zeros before the last. -/
def readBack (n : Nat) : Nat :=
  ofDigits ((([4, 3, 2, 1].map (digit n)).filter (· ≠ 0)) ++ [n % 128])

theorem readNumber_numberBytes (n : Nat) (rest : List UInt8) :
    readNumber (numberBytes n ++ rest) = ((readBack n : Int), rest) := by
  have hlast : n % 128 < 128 := Nat.mod_lt _ (by decide)
  have hall : ∀ d ∈ ([4, 3, 2, 1].map (digit n)).filter (· ≠ 0), d < 128 ∧ d ≠ 0 := by
    intro d hd
    obtain ⟨hmem, hne⟩ := mem_filter.1 hd
    obtain ⟨i, -, rfl⟩ := mem_map.1 hmem
    exact ⟨Nat.mod_lt _ (by decide), by simpa using hne⟩
  unfold numberBytes readBack ofDigits
  generalize ([4, 3, 2, 1].map (digit n)).filter (· ≠ 0) = ds at hall
  cases ds with
  | nil =>
    obtain ⟨hend, hvalue, -, -, hfirst, -⟩ := read_bits hlast
    have hloop : readLoop rest (.ofNat (n % 128)) (n % 128) = some (n % 128, rest) := by
      cases rest with
      | nil => exact if_neg (not_not.2 hend)
      | cons b rest => exact if_neg (not_not.2 hend)
    simp [readNumber, hfirst, hvalue, hloop]
  | cons d ds =>
    obtain ⟨hd, hne⟩ := hall d mem_cons_self
    obtain ⟨-, -, -, hbits, -, hfirst⟩ := read_bits hd
    have hloop := readLoop_digits hlast rest (r := d) hd fun e he =>
      (hall e (mem_cons_of_mem _ he)).1
    simp_all [readNumber]

/-- No digit in base 128 above the last one is zero. -/
def NoInnerZero (n : Nat) : Prop := ∀ i, 0 < i → 128 ^ i ≤ n → digit n i ≠ 0

theorem noInnerZero_iff (hn : n < 2 ^ 31) :
    NoInnerZero n ↔ (128 ≤ n → digit n 1 ≠ 0) ∧ (128 ^ 2 ≤ n → digit n 2 ≠ 0) ∧
      (128 ^ 3 ≤ n → digit n 3 ≠ 0) ∧ (128 ^ 4 ≤ n → digit n 4 ≠ 0) := by
  constructor
  · intro h
    exact ⟨h 1 (by decide), h 2 (by decide), h 3 (by decide), h 4 (by decide)⟩
  · rintro ⟨h1, h2, h3, h4⟩ i hi hle
    have hlt : i < 5 := by
      by_contra hge
      have hpow := Nat.pow_le_pow_right (by decide : 0 < 128) (Nat.le_of_not_lt hge)
      omega
    grind

theorem eq_digits (hn : n < 2 ^ 31) :
    n = (((digit n 4 * 128 + digit n 3) * 128 + digit n 2) * 128 + digit n 1) * 128 + n % 128 := by
  unfold digit
  omega

theorem readBack_eq_iff (hn : n < 2 ^ 31) : readBack n = n ↔ NoInnerZero n := by
  have hlast : n % 128 < 128 := Nat.mod_lt _ (by decide)
  have hlt : ∀ i, digit n i < 128 := fun i => Nat.mod_lt _ (by decide)
  have hd1 := hlt 1
  have hd2 := hlt 2
  have hd3 := hlt 3
  have heq := eq_digits hn
  rw [noInnerZero_iff hn, readBack, ofDigits]
  simp only [map_cons, map_nil]
  generalize digit n 1 = a, digit n 2 = b, digit n 3 = c, digit n 4 = d at *
  by_cases h1 : a = 0 <;> by_cases h2 : b = 0 <;> by_cases h3 : c = 0 <;> by_cases h4 : d = 0 <;>
    simp [h1, h2, h3, h4] <;> omega

theorem noInnerZero_of_lt (h : n < 16384) : NoInnerZero n := by
  grind [noInnerZero_iff, digit]

theorem readBack_of_lt (h : n < 16384) : readBack n = n :=
  (readBack_eq_iff (by omega)).2 (noInnerZero_of_lt h)

theorem readBack_least : readBack 16384 = 128 := by decide

/-! ## What the recorder holds -/

/-- The number of the first occurrence of a key. -/
def number (l : List Key) (k : Key) : Nat := l.eraseDups.idxOf k

/-- Each key by the number of its first occurrence. -/
def numbers (l : List Key) : List Nat := l.map (number l)

/-- The symbol table after the keys. -/
def assigned (l : List Key) : FiniteMap Key Nat := fun k =>
  if k ∈ l then some (k, some (number l k + 1)) else none

theorem eraseDups_snoc_mem (h : k ∈ l) : (l ++ [k]).eraseDups = l.eraseDups := by
  rw [eraseDups_append]
  simp [removeAll, h]

theorem eraseDups_snoc (h : k ∉ l) : (l ++ [k]).eraseDups = l.eraseDups ++ [k] := by
  rw [eraseDups_append]
  simp [removeAll, h, eraseDups_cons]

theorem number_snoc {k' : Key} (h : k' ∈ l) : number (l ++ [k]) k' = number l k' := by
  unfold number
  by_cases hk : k ∈ l
  · rw [eraseDups_snoc_mem hk]
  · rw [eraseDups_snoc hk, idxOf_append_of_mem (mem_eraseDups.2 h)]

theorem number_new (h : k ∉ l) : number (l ++ [k]) k = l.eraseDups.length := by
  simp [number, eraseDups_snoc, idxOf_append_of_notMem, h]

theorem numbers_snoc (l : List Key) (k : Key) : numbers (l ++ [k]) = numbers l ++ [number (l ++ [k]) k] := by
  simp_all [numbers, number_snoc]

/-- What holds after keys were logged. -/
structure Recorded (st : CompleteParserRecorder) (l : List Key) : Prop where
  valid : Valid keys st.symbolTable
  table : Represents keys st.symbolTable (assigned l)
  symbolId : st.symbolId = l.eraseDups.length
  symbolStore : st.symbolStore.writeTo = (numbers l).flatMap numberBytes
  functionStore : st.functionStore = .new 0

theorem recorded_new : Recorded .new [] where
  valid := valid_initializeMap ⟨3, by decide, rfl⟩
  table := represents_initializeMap 8
  symbolId := rfl
  symbolStore := rfl
  functionStore := rfl

/-- The table has an entry for each distinct key only. -/
theorem Recorded.occupancy_le (h : Recorded st l) : st.symbolTable.occupancy ≤ l.eraseDups.length := by
  have henum := h.table.enumerates h.valid.table
  rw [h.valid.occupancy, ← length_entries]
  generalize (st.symbolTable.map.filter fun e => e.key.isSome).filterMap Entry.pair = entries at henum
  have hnodup : (entries.map Prod.fst).Nodup := by
    rw [Nodup, pairwise_map]
    refine henum.once.imp ?_
    intro x y hxy heq
    exact hxy (vectorCompare_iff.2 heq)
  have hsubset : entries.map Prod.fst ⊆ l.eraseDups := by
    intro k hk
    obtain ⟨⟨a, v⟩, hmem, rfl⟩ := mem_map.1 hk
    have hsome := (henum.mem a a v).2 ⟨hmem, keys.refl a⟩
    simp_all [assigned]
  have hle := (subperm_of_subset hnodup hsubset).length_le
  rwa [length_map] at hle

theorem assigned_snoc_mem (h : k ∈ l) : assigned (l ++ [k]) = assigned l := by
  funext k'
  have hmem : k' ∈ l ++ [k] ↔ k' ∈ l := by
    grind
  by_cases hk' : k' ∈ l
  · rw [assigned, assigned, if_pos (hmem.2 hk'), if_pos hk', number_snoc hk']
  · rw [assigned, assigned, if_neg fun h => hk' (hmem.1 h), if_neg hk']

theorem insert_mem (h : k ∈ l) : (assigned l).insert keys k = assigned l := by
  funext k'
  simp [FiniteMap.insert, assigned, h]

/-- Inserting a new key and giving it the next number. -/
theorem assign_new (h : k ∉ l) :
    ((assigned l).insert keys k).assign keys k (some (l.eraseDups.length + 1)) = assigned (l ++ [k]) := by
  have hnone : (assigned l k).isNone := by
    rw [assigned, if_neg h]
    rfl
  funext k'
  rw [FiniteMap.assign]
  by_cases hk : k' = k
  · subst hk
    have hmatch : keys.isMatch k' k' := keys.refl k'
    simp [FiniteMap.insert, assigned, number_new, hmatch, h]
  · have hmatch : ¬keys.isMatch k' k := fun hm => hk (vectorCompare_iff.1 hm)
    simp_all [FiniteMap.insert, assigned, number_snoc]

/-- A small enough table takes the next key. -/
theorem Recorded.logSymbol (h : Recorded st l) (key : Key) (hsmall : l.eraseDups.length < 2 ^ 30) :
    ∃ st', st.logSymbol (keys.hash key) key.isAscii key.literalBytes = some st' ∧
      Recorded st' (l ++ [key]) := by
  have hocc := h.occupancy_le
  obtain ⟨m, p, hres, hvalid, hA, hkey, hnone⟩ :=
    h.valid.lookup h.table key true fun _ _ => by omega
  rw [if_pos rfl] at hA
  unfold CompleteParserRecorder.logSymbol
  simp only [hres, bind_eq_bind, bind_some]
  cases p with
  | none =>
    -- a key that was looked up to be inserted is there
    have habs := (hA.absent_iff key).1 (hnone rfl)
    rw [FiniteMap.insert] at habs
    split at habs
    · cases habs
    · next hnot =>
      exact absurd ⟨by rw [habs]; rfl, keys.refl key⟩ hnot
  | some q =>
    obtain ⟨a, ha, hmatch⟩ := hkey q rfl
    have hentry := hA.entry ha hmatch
    rw [Entry.pair, ha] at hentry
    simp only [bind_some]
    by_cases hmem : key ∈ l
    · rw [insert_mem hmem] at hA hentry
      rw [assigned, if_pos hmem] at hentry
      obtain ⟨-, hvalue⟩ : a = key ∧ (m.entry q).value = some (number l key + 1) := by
        simpa using hentry
      have hlt : number l key < 2 ^ 31 := by
        grind [number]
      rw [hvalue, getD_some, if_neg (Nat.succ_ne_zero _)]
      refine ⟨_, rfl, hvalid, ?_, ?_, ?_, h.functionStore⟩
      · rwa [assigned_snoc_mem hmem]
      · rw [eraseDups_snoc_mem hmem]
        exact h.symbolId
      · simp only [Nat.add_sub_cancel]
        rw [writeTo_writeNumber _ hlt, h.symbolStore, numbers_snoc, number_snoc hmem,
          flatMap_append, flatMap_singleton]
    · have hins : (assigned l).insert keys key key = some (key, none) := by
        simp_all [FiniteMap.insert, assigned]
      rw [hins] at hentry
      obtain ⟨-, hvalue⟩ : a = key ∧ (m.entry q).value = none := by simpa using hentry
      rw [hvalue, getD_none, if_pos rfl]
      refine ⟨_, rfl, hvalid.setValue (taken_of_key ha).lt _, ?_, ?_, ?_, h.functionStore⟩
      · have hset := hA.setValue hvalid.table ha hmatch (some (st.symbolId + 1))
        rwa [h.symbolId, assign_new hmem, ← h.symbolId] at hset
      · rw [eraseDups_snoc hmem, length_append, h.symbolId]
        rfl
      · simp only [Nat.add_sub_cancel]
        rw [h.symbolId, writeTo_writeNumber _ (by omega), h.symbolStore, numbers_snoc,
          number_new hmem, flatMap_append, flatMap_singleton]

theorem uc16OfBytes_uc16Bytes (literal : List UInt16) : uc16OfBytes (uc16Bytes literal) = literal := by
  induction literal with
  | nil => rfl
  | cons c literal ih =>
    have hc : c.toUInt8.toUInt16 ||| ((c >>> 8).toUInt8.toUInt16 <<< 8) = c := by
      apply UInt16.toNat_inj.1
      have hlow : c.toNat % 2 ^ 8 < 2 ^ 8 := Nat.mod_lt _ (by decide)
      have hlt := c.toNat_lt
      have hhigh : c.toNat >>> 8 % 2 ^ 8 = c.toNat / 256 := by
        omega
      have hshift : c.toNat / 256 * 2 ^ 8 % 2 ^ 16 = 2 ^ 8 * (c.toNat / 256) := by omega
      simp only [UInt16.toNat_or, UInt8.toNat_toUInt16, UInt16.toNat_toUInt8,
        UInt16.toNat_shiftLeft, UInt16.toNat_shiftRight, UInt16.reduceToNat, Nat.reduceMod, hhigh]
      rw [Nat.shiftLeft_eq, hshift, Nat.or_comm, ← Nat.two_pow_add_eq_or_of_lt hlow]
      omega
    simp_all [uc16OfBytes, uc16Bytes]

theorem Call.log_eq (st : CompleteParserRecorder) (call : Call) :
    st.log call = st.logSymbol (keys.hash call.key) call.key.isAscii call.key.literalBytes := by
  cases call with
  | logAsciiSymbol literal => rfl
  | logUC16Symbol literal =>
    show st.logSymbol (vectorHash (uc16Chars literal)) false (uc16Bytes literal) =
      st.logSymbol (vectorHash (uc16Chars (uc16OfBytes (uc16Bytes literal)))) false (uc16Bytes literal)
    rw [uc16OfBytes_uc16Bytes]

theorem eraseDups_prefix (l r : List Key) : ∃ t, (l ++ r).eraseDups = l.eraseDups ++ t :=
  ⟨_, eraseDups_append⟩

theorem number_append (h : k ∈ l) (r : List Key) : number (l ++ r) k = number l k := by
  obtain ⟨t, ht⟩ := eraseDups_prefix l r
  unfold number
  rw [ht, idxOf_append_of_mem (mem_eraseDups.2 h)]

theorem run_recorded (calls : List Call) : ∀ {st : CompleteParserRecorder} {l : List Key},
    Recorded st l → (l ++ calls.map Call.key).eraseDups.length < 2 ^ 30 →
      ∃ st', st.run calls = some st' ∧ Recorded st' (l ++ calls.map Call.key) := by
  induction calls with
  | nil =>
    intro st l h _
    exact ⟨st, rfl, by rwa [map_nil, append_nil]⟩
  | cons call calls ih =>
    intro st l h hsmall
    obtain ⟨t, ht⟩ := eraseDups_prefix l ((call :: calls).map Call.key)
    have hl : l.eraseDups.length < 2 ^ 30 := by
      rw [ht, length_append] at hsmall
      omega
    obtain ⟨st', hlog, hst'⟩ := h.logSymbol call.key hl
    rw [← call.log_eq] at hlog
    have hsplit : l ++ (call :: calls).map Call.key = l ++ [call.key] ++ calls.map Call.key := by
      simp
    rw [hsplit] at hsmall ⊢
    obtain ⟨st'', hrun, hst''⟩ := ih hst' hsmall
    exact ⟨st'', by simp [CompleteParserRecorder.run, hlog, hrun], hst''⟩

/-! ## What is never taken back -/

theorem writeDigit_extends (store : Collector UInt8) (n mask i : Nat) :
    ∃ t, (writeDigit (store, n, mask) i).1.writeTo = store.writeTo ++ t := by
  unfold writeDigit
  dsimp only
  split
  · exact ⟨_, store.writeTo_add _⟩
  · exact ⟨[], (append_nil _).symm⟩

theorem foldl_writeDigit_extends (shifts : List Nat) : ∀ (st : Collector UInt8 × Nat × Nat),
    ∃ t, (shifts.foldl writeDigit st).1.writeTo = st.1.writeTo ++ t := by
  induction shifts with
  | nil => simp
  | cons i shifts ih =>
    intro st
    obtain ⟨t, ht⟩ := writeDigit_extends st.1 st.2.1 st.2.2 i
    obtain ⟨t', ht'⟩ := ih (writeDigit st i)
    simp [ht', ht]

theorem writeNumber_extends (store : Collector UInt8) (n : Nat) :
    ∃ t, (writeNumber store n).writeTo = store.writeTo ++ t := by
  obtain ⟨t, ht⟩ := foldl_writeDigit_extends [28, 21, 14, 7] (store, n, (1 <<< 28) - 1)
  simp_all [writeNumber]

/-- Whatever is logged, what is in the symbol store stays. -/
structure Extends (st st' : CompleteParserRecorder) : Prop where
  symbolStore : ∃ t, st'.symbolStore.writeTo = st.symbolStore.writeTo ++ t
  functionStore : st'.functionStore = st.functionStore

theorem logSymbol_extends {st' : CompleteParserRecorder} {hash : BitVec 32} {isAscii : Bool}
    {literalBytes : List UInt8} (h : st.logSymbol hash isAscii literalBytes = some st') :
    Extends st st' := by
  unfold CompleteParserRecorder.logSymbol at h
  simp only [bind_eq_bind, bind_eq_some_iff] at h
  obtain ⟨⟨m, p⟩, -, q, -, h⟩ := h
  split at h
  · obtain rfl := some.inj h
    exact ⟨writeNumber_extends _ _, rfl⟩
  · obtain rfl := some.inj h
    exact ⟨writeNumber_extends _ _, rfl⟩

theorem run_extends : ∀ {st st' : CompleteParserRecorder}, st.run calls = some st' → Extends st st' := by
  induction calls with
  | nil =>
    intro st st' h
    obtain rfl := some.inj h
    exact ⟨⟨[], (append_nil _).symm⟩, rfl⟩
  | cons call calls ih =>
    intro st st' h
    simp only [CompleteParserRecorder.run, bind_eq_bind, bind_eq_some_iff] at h
    obtain ⟨st₁, hlog, hrun⟩ := h
    rw [call.log_eq] at hlog
    obtain ⟨⟨t, ht⟩, hf⟩ := logSymbol_extends hlog
    obtain ⟨⟨t', ht'⟩, hf'⟩ := ih hrun
    exact ⟨⟨t ++ t', by rw [ht', ht, append_assoc]⟩, hf'.trans hf⟩

theorem run_append (calls calls' : List Call) : ∀ st : CompleteParserRecorder,
    st.run (calls ++ calls') = (st.run calls).bind fun st => st.run calls' := by
  induction calls with
  | nil => exact fun st => rfl
  | cons call calls ih =>
    intro st
    simp only [cons_append, CompleteParserRecorder.run, bind_eq_bind]
    cases st.log call with
    | none => rfl
    | some st => exact ih st

/-! ## The extracted data -/

theorem bytes_word (a b c d : UInt8) :
    bytes [d.toBitVec ++ c.toBitVec ++ b.toBitVec ++ a.toBitVec] = [a, b, c, d] := by
  have ha : BitVec.extractLsb' 0 8 (d.toBitVec ++ c.toBitVec ++ b.toBitVec ++ a.toBitVec) =
      a.toBitVec := BitVec.extractLsb'_append_eq_right
  have hb : BitVec.extractLsb' 8 8 (d.toBitVec ++ c.toBitVec ++ b.toBitVec ++ a.toBitVec) = b.toBitVec := by
    grind
  have hc : BitVec.extractLsb' 16 8 (d.toBitVec ++ c.toBitVec ++ b.toBitVec ++ a.toBitVec) = c.toBitVec := by
    grind
  have hd : BitVec.extractLsb' 24 8 (d.toBitVec ++ c.toBitVec ++ b.toBitVec ++ a.toBitVec) = d.toBitVec := by
    grind
  rw [bytes, flatMap_singleton, ha, hb, hc, hd]

theorem bytes_words : ∀ {n : Nat} {l : List UInt8}, l.length = 4 * n → bytes (words l) = l := by
  intro n
  induction n with
  | zero =>
    intro l h
    obtain rfl := eq_nil_of_length_eq_zero h
    rfl
  | succ n ih =>
    intro l h
    match l, h with
    | a :: b :: c :: d :: rest, h =>
      have hrest : rest.length = 4 * n := by
        simp only [length_cons] at h
        omega
      have hword := bytes_word a b c d
      unfold bytes at hword ih ⊢
      rw [words, flatMap_cons, ih hrest]
      grind

theorem length_words : ∀ {n : Nat} {l : List UInt8}, l.length = 4 * n → (words l).length = n := by
  intro n
  induction n with
  | zero =>
    intro l h
    obtain rfl := eq_nil_of_length_eq_zero h
    rfl
  | succ n ih =>
    intro l h
    match l, h with
    | a :: b :: c :: d :: rest, h =>
      grind [words]

/-- What is read are the bytes of the symbol store, then terminators up to a whole word. -/
theorem initializeData_extractData (h : st.functionStore = .new 0) :
    ∃ data n, initializeData st.extractData = some data ∧
      data.symbolData = st.symbolStore.writeTo ++ replicate (n + 1) kNumberTerminator := by
  have hsize := st.symbolStore.size_writeTo
  obtain ⟨n, hpad⟩ : ∃ n, 4 - st.symbolStore.size % 4 = n + 1 :=
    ⟨3 - st.symbolStore.size % 4, by omega⟩
  have hlen : (st.symbolStore.writeTo ++ replicate (n + 1) kNumberTerminator).length =
      4 * (st.symbolStore.size / 4 + 1) := by
    grind
  have hdata : st.extractData = [kMagicNumber, kCurrentVersion, 0, .ofNat 32 0, .ofNat 32 st.symbolId, 0] ++
        words (st.symbolStore.writeTo ++ replicate (n + 1) kNumberTerminator) := by
    unfold CompleteParserRecorder.extractData
    dsimp only
    rw [hpad, h, Collector.writeTo_addBlock]
    rfl
  have hwords := length_words hlen
  refine ⟨⟨st.extractData, bytes (st.extractData.drop 6)⟩, n, ?_, ?_⟩
  · simp [kFunctionsSizeOffset, kHeaderSize, initializeData, hdata, hwords]
  · rw [hdata]
    exact bytes_words hlen

theorem identifiers_numbers (rest : List UInt8) (k : Nat) : ∀ {ns : List Nat} {st : ScriptDataImpl},
    st.symbolData = ns.flatMap numberBytes ++ rest →
      st.identifiers (ns.length + k) = ns.map (fun n => (readBack n : Int)) ++
        ScriptDataImpl.identifiers ⟨st.store, rest⟩ k := by
  intro ns
  induction ns with
  | nil =>
    intro st h
    obtain ⟨store, data⟩ := st
    grind
  | cons n ns ih =>
    intro st h
    rw [flatMap_cons, append_assoc] at h
    have hread : st.getSymbolIdentifier = ((readBack n : Int), ⟨st.store, ns.flatMap numberBytes ++ rest⟩) := by
      rw [ScriptDataImpl.getSymbolIdentifier, h, readNumber_numberBytes]
    rw [length_cons, Nat.add_right_comm, ScriptDataImpl.identifiers, hread, ih rfl]
    rfl

theorem identifiers_end {store : List (BitVec 32)} {data : List UInt8} (k : Nat) :
    ScriptDataImpl.identifiers ⟨store, kNumberTerminator :: data⟩ k = replicate k (-1) := by
  induction k with
  | zero => rfl
  | succ k ih =>
    rw [replicate_succ, ← ih]
    rfl

/-! ## Round trip -/

/-- The identifiers that are read are the numbers of the first occurrences, then -1 for ever. -/
def RoundTrips (calls : List Call) : Prop :=
  ∃ st data, CompleteParserRecorder.new.run calls = some st ∧ initializeData st.extractData = some data ∧
    ∀ k, data.identifiers (calls.length + k) =
      (numbers (calls.map Call.key)).map Int.ofNat ++ replicate k (-1)

theorem number_lt (h : n ∈ numbers l) : n < l.eraseDups.length := by
  obtain ⟨k, hk, rfl⟩ := mem_map.1 h
  exact idxOf_lt_length_of_mem (mem_eraseDups.2 hk)

theorem roundTrips_of_le (h : (calls.map Call.key).eraseDups.length ≤ 16384) : RoundTrips calls := by
  obtain ⟨st, hrun, hst⟩ := run_recorded calls recorded_new (by rw [nil_append]; omega)
  rw [nil_append] at hst
  obtain ⟨data, n, hinit, hdata⟩ := initializeData_extractData hst.functionStore
  refine ⟨st, data, hrun, hinit, fun k => ?_⟩
  rw [hst.symbolStore] at hdata
  have hread := identifiers_numbers _ k hdata
  have hlen : (numbers (calls.map Call.key)).length = calls.length := by simp [numbers]
  rw [hlen] at hread
  rw [hread, replicate_succ, identifiers_end]
  congr 1
  refine map_congr_left fun m hm => ?_
  rw [readBack_of_lt (Nat.lt_of_lt_of_le (number_lt hm) h)]
  rfl

/-- Where more than `n` keys are distinct, one of them is the first to get the number `n`. -/
theorem exists_first (h : n < (calls.map Call.key).eraseDups.length) :
    ∃ (before : List Call) (call : Call) (after : List Call), calls = before ++ call :: after ∧
      (before.map Call.key).eraseDups.length = n ∧ call.key ∉ before.map Call.key := by
  induction calls using reverseRecOn with
  | nil => exact absurd h (Nat.not_lt_zero _)
  | append_singleton calls call ih =>
    by_cases hlt : n < (calls.map Call.key).eraseDups.length
    · grind
    · rw [map_append, map_singleton] at h
      by_cases hmem : call.key ∈ calls.map Call.key
      · rw [eraseDups_snoc_mem hmem] at h
        exact absurd h hlt
      · rw [eraseDups_snoc hmem, length_append, length_singleton] at h
        exact ⟨calls, call, [], rfl, by omega, hmem⟩

theorem not_roundTrips (h : 16384 < (calls.map Call.key).eraseDups.length) : ¬ RoundTrips calls := by
  obtain ⟨before, call, after, rfl, hn, hnew⟩ := exists_first h
  rintro ⟨st, data, hrun, hinit, hread⟩
  have hfirst := eraseDups_snoc hnew
  obtain ⟨st₁, hrun₁, hst₁⟩ := run_recorded (before ++ [call]) recorded_new (by
    grind)
  rw [nil_append, map_append, map_singleton] at hst₁
  -- the store begins with the numbers up to the first one that is not read back
  rw [show before ++ call :: after = before ++ [call] ++ after by simp, run_append, hrun₁,
    bind_some] at hrun
  obtain ⟨⟨t, ht⟩, hf⟩ := run_extends hrun
  obtain ⟨data', n, hinit', hdata⟩ := initializeData_extractData (hf.trans hst₁.functionStore)
  obtain rfl : data = data' := some.inj (hinit.symm.trans hinit')
  rw [ht, hst₁.symbolStore, numbers_snoc, number_new hnew, hn, append_assoc] at hdata
  have hstart := identifiers_numbers _ after.length hdata
  have hlen : (numbers (before.map Call.key) ++ [16384]).length + after.length =
      (before ++ call :: after).length + 0 := by
    simp only [numbers, length_append, length_map, length_cons, length_nil]
    omega
  rw [hlen, hread 0] at hstart
  have hat := congrArg (fun l => l[before.length]?) hstart
  have hkeys : (before ++ call :: after).map Call.key =
      before.map Call.key ++ [call.key] ++ after.map Call.key := by simp
  have hnum : number ((before ++ call :: after).map Call.key) call.key = 16384 := by
    rw [hkeys, number_append (mem_append_right _ mem_cons_self), number_new hnew, hn]
  have hleft : ((numbers ((before ++ call :: after).map Call.key)).map Int.ofNat ++
      replicate 0 (-1))[before.length]? = some 16384 := by
    rw [replicate_zero, append_nil, numbers, List.getElem?_map, List.getElem?_map,
      List.getElem?_map, List.getElem?_append_right (Nat.le_refl _), Nat.sub_self,
      List.getElem?_cons_zero, map_some, map_some, hnum]
    rfl
  have hright : ((numbers (before.map Call.key) ++ [16384]).map (fun n => (readBack n : Int)) ++
      ScriptDataImpl.identifiers ⟨data.store, t ++ replicate (n + 1) kNumberTerminator⟩
        after.length)[before.length]? = some 128 := by
    have hlen : (numbers (before.map Call.key)).length = before.length := by simp [numbers]
    simp [readBack_least, hlen]
  grind

/-- The recorded identifiers are read back exactly where at most 16384 literals are distinct, and
a single number exactly where no digit above the last one is zero. -/
theorem symbol_data_round_trips_iff (calls : List Call) :
    (RoundTrips calls ↔ (calls.map Call.key).eraseDups.length ≤ 16384) ∧
    ∀ n < 2 ^ 31, ∃ written, (∀ store, (writeNumber store n).writeTo = store.writeTo ++ written) ∧
      ((∀ rest, readNumber (written ++ rest) = ((n : Int), rest)) ↔ NoInnerZero n) := by
  refine ⟨⟨fun h => ?_, roundTrips_of_le⟩, fun n hn => ?_⟩
  · by_contra hlt
    exact not_roundTrips (Nat.lt_of_not_le hlt) h
  · refine ⟨numberBytes n, fun store => writeTo_writeNumber store hn, ?_⟩
    rw [← readBack_eq_iff hn]
    constructor
    · intro h
      have hread := h []
      rw [readNumber_numberBytes, Prod.mk.injEq] at hread
      exact Int.ofNat_inj.1 hread.1
    · intro h rest
      rw [readNumber_numberBytes, h]

theorem eraseDups_of_nodup (h : l.Nodup) : l.eraseDups = l := by
  induction l using reverseRecOn with
  | nil => rfl
  | append_singleton l k ih =>
    obtain ⟨hl, -, hk⟩ := nodup_append.1 h
    rw [eraseDups_snoc fun hmem => hk k hmem k mem_cons_self rfl, ih hl]

/-- Distinct literals of one character each. -/
def distinctCalls (n : Nat) : List Call :=
  (List.range n).map fun i => .logUC16Symbol [.ofNat i]

/-- The symbol after 16384 distinct ones is read as the one with number 128. -/
theorem symbol_data_not_round_trips : ¬ RoundTrips (distinctCalls 16385) ∧
      readNumber (writeNumber (.new 0) 16384).writeTo = (128, []) := by
  refine ⟨not_roundTrips ?_, by decide +kernel⟩
  have hnodup : ((distinctCalls 16385).map Call.key).Nodup := by
    rw [distinctCalls, List.map_map]
    refine Nodup.map_on ?_ nodup_range
    intro i hi j hj h
    have hbytes : uc16Bytes [.ofNat i] = uc16Bytes [.ofNat j] := congrArg Key.literalBytes h
    have hchars := congrArg uc16OfBytes hbytes
    rw [uc16OfBytes_uc16Bytes, uc16OfBytes_uc16Bytes] at hchars
    have hnat := congrArg UInt16.toNat (List.cons.inj hchars).1
    rw [mem_range] at hi hj
    rw [UInt16.toNat_ofNat', UInt16.toNat_ofNat'] at hnat
    omega
  rw [eraseDups_of_nodup hnodup, length_map, distinctCalls, length_map, length_range]
  decide

end W16.Preparse
