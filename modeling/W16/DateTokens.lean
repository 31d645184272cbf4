import W16.DateParser
import W16.DateTimeForm

/-!
# The tokens of dates

What the tokenizer has peeked determines a prefix of the text, and what follows it.
-/
namespace W16.DateParsing

open List

open DateTimes (Digit Numeral value valueFrom valueFrom_append valueFrom_eq)
open StringNumbers (isDigit)

set_option linter.dupNamespace false

/-- The tokenizer that stands before a text. -/
def tok (position : Nat) (rest : List Nat) : DateStringTokenizer := tokenizer ⟨position, rest⟩

/-- There is nothing more to read: a reader takes a zero for the end. -/
def Ended (r : List Nat) : Prop := r.headD 0 = 0

/-- No numeral goes on here. -/
def NoDigit (r : List Nat) : Prop := ¬ Digit (r.headD 0)

/-- No word goes on here. -/
def NoLetter (r : List Nat) : Prop := r.headD 0 < 65

theorem isDigit_iff (c : Nat) : isDigit c = true ↔ Digit c := by
  simp only [isDigit, Digit, decide_eq_true_eq]

variable {r : List Nat} {p c length : Nat}

theorem Ended.noDigit (h : Ended r) : NoDigit r := by
  intro hd
  rw [h] at hd
  exact absurd hd.1 (by decide)

theorem Ended.noLetter (h : Ended r) : NoLetter r := by
  rw [NoLetter, h]
  decide

/-! ## Numbers -/

theorem take_numeral (n c : Nat) (cs : List Nat) (i : Nat) :
    valueFrom n ((c :: cs).take (kMaxSignificantDigits - i)) =
      valueFrom (if i < kMaxSignificantDigits then n * 10 + (c - 48) else n)
        (cs.take (kMaxSignificantDigits - (i + 1))) := by
  by_cases hi : i < kMaxSignificantDigits
  · rw [if_pos hi, show kMaxSignificantDigits - i = kMaxSignificantDigits - (i + 1) + 1 by omega,
      take_succ_cons]
    rfl
  · rw [if_neg hi, show kMaxSignificantDigits - i = 0 by omega,
      show kMaxSignificantDigits - (i + 1) = 0 by omega, take_zero, take_zero]

theorem readUnsignedNumeralLoop_digits : ∀ (ds : List Nat) (p n i : Nat) (r : List Nat),
    (∀ c ∈ ds, Digit c) → NoDigit r → readUnsignedNumeralLoop p n i (ds ++ r) =
        (valueFrom n (ds.take (kMaxSignificantDigits - i)), ⟨p + ds.length, r⟩) := by
  intro ds
  induction ds with
  | nil =>
    intro p n i r _ hr
    rw [take_nil]
    cases r with
    | nil => rfl
    | cons c cs =>
      have hc : isDigit c = false := Bool.eq_false_iff.2 fun h => hr ((isDigit_iff c).1 h)
      simp only [nil_append, readUnsignedNumeralLoop, hc, Bool.false_eq_true, if_false,
        length_nil, add_zero]
      rfl
  | cons c cs ih =>
    intro p n i r hds hr
    obtain ⟨hc, hcs⟩ := forall_mem_cons.1 hds
    rw [cons_append, readUnsignedNumeralLoop, if_pos ((isDigit_iff c).2 hc), ih _ _ _ _ hcs hr,
      take_numeral, length_cons]
    congr 2
    omega

/-- The digits at the start of a text are all that a numeral can be. -/
theorem exists_digits (r : List Nat) : ∃ ds r', r = ds ++ r' ∧ (∀ c ∈ ds, Digit c) ∧ NoDigit r' := by
  refine ⟨r.takeWhile isDigit, r.dropWhile isDigit, takeWhile_append_dropWhile.symm,
    fun c hc => (isDigit_iff c).1 (mem_takeWhile_imp hc), ?_⟩
  intro hd
  cases hr : r.dropWhile isDigit with
  | nil =>
    rw [hr] at hd
    exact absurd hd.1 (by decide)
  | cons c cs =>
    rw [hr] at hd
    have hlen : 0 < (r.dropWhile isDigit).length := by
      rw [hr]
      exact Nat.succ_pos _
    have hnot := dropWhile_get_zero_not isDigit r hlen
    simp only [hr, get_eq_getElem, getElem_cons_zero] at hnot
    exact hnot ((isDigit_iff c).2 hd)

/-! ## Words -/

/-- The prefix that a word is looked up by. -/
def wordPrefix (ws : List Nat) : List Nat :=
  (ws.take kPrefixLength).map asciiAlphaToLower ++ replicate (kPrefixLength - ws.length) 0

theorem readWordLoop_letters : ∀ (ws : List Nat) (p : Nat) (start : List Nat) (len : Nat) (r : List Nat),
    (∀ c ∈ ws, 65 ≤ c) → NoLetter r → readWordLoop p start len kPrefixLength (ws ++ r) =
        (start ++ (ws.take (kPrefixLength - len)).map asciiAlphaToLower, len + ws.length,
          ⟨p + ws.length, r⟩) := by
  intro ws
  induction ws with
  | nil =>
    intro p start len r _ hr
    rw [take_nil, map_nil, append_nil]
    cases r with
    | nil => rfl
    | cons c cs =>
      have hc : ¬ c ≥ 65 := Nat.not_le.2 hr
      rw [nil_append, readWordLoop, if_neg hc]
      rfl
  | cons c cs ih =>
    intro p start len r hws hr
    obtain ⟨hc, hcs⟩ := forall_mem_cons.1 hws
    rw [cons_append, readWordLoop, if_pos hc, ih _ _ _ _ hcs hr]
    have hstart : (if len < kPrefixLength then start ++ [asciiAlphaToLower c] else start) ++
        (cs.take (kPrefixLength - (len + 1))).map asciiAlphaToLower =
          start ++ ((c :: cs).take (kPrefixLength - len)).map asciiAlphaToLower := by
      by_cases hlen : len < kPrefixLength
      · rw [if_pos hlen, show kPrefixLength - len = kPrefixLength - (len + 1) + 1 by omega,
          take_succ_cons, map_cons, append_assoc]
        rfl
      · rw [if_neg hlen, show kPrefixLength - len = 0 by omega,
          show kPrefixLength - (len + 1) = 0 by omega, take_zero, take_zero]
    grind

theorem readWord_letters {ws : List Nat} (p : Nat) (hws : ∀ c ∈ ws, 65 ≤ c) (hr : NoLetter r) :
    readWord ⟨p, ws ++ r⟩ kPrefixLength = (wordPrefix ws, ws.length, ⟨p + ws.length, r⟩) := by
  have hloop := readWordLoop_letters ws p [] 0 r hws hr
  simp only [readWord, hloop, nil_append, zero_add]
  rfl

/-- The letters at the start of a text are all that a word can be. -/
theorem exists_letters (r : List Nat) : ∃ ws r', r = ws ++ r' ∧ (∀ c ∈ ws, 65 ≤ c) ∧ NoLetter r' := by
  induction r with
  | nil => exact ⟨[], [], rfl, fun _ h => (not_mem_nil h).elim, Nat.succ_pos 64⟩
  | cons c cs ih =>
    by_cases hc : 65 ≤ c
    · obtain ⟨ws, r', rfl, hws, hr⟩ := ih
      exact ⟨c :: ws, r', rfl, forall_mem_cons.2 ⟨hc, hws⟩, hr⟩
    · exact ⟨[], c :: cs, rfl, fun _ h => (not_mem_nil h).elim, Nat.not_le.1 hc⟩

/-! ## The kinds of tokens -/

/-- A character that is a token. -/
def SymbolChar (c : Nat) : Prop := c = 58 ∨ c = 45 ∨ c = 43 ∨ c = 46 ∨ c = 41

/-- What a token can be, and the text that it is. -/
inductive Scanned (p : Nat) (r : List Nat) : DateToken × InputReader → Prop
  | ended : Ended r → Scanned p r (.endOfInput, ⟨p, r⟩)
  | number {ds r' : List Nat} : r = ds ++ r' → ds ≠ [] → (∀ c ∈ ds, Digit c) → NoDigit r' →
      Scanned p r (.number (value (ds.take kMaxSignificantDigits)) ds.length, ⟨p + ds.length, r'⟩)
  | symbol {c : Nat} {r' : List Nat} : r = c :: r' → SymbolChar c → Scanned p r (.symbol c, ⟨p + 1, r'⟩)
  | word {ws r' : List Nat} : r = ws ++ r' → ws ≠ [] → (∀ c ∈ ws, 65 ≤ c) → NoLetter r' →
      Scanned p r (.keyword (lookup (wordPrefix ws) ws.length).1 (lookup (wordPrefix ws) ws.length).2
        ws.length, ⟨p + ws.length, r'⟩)
  | space {reader : InputReader} : Scanned p r (.whiteSpace 1, reader)
  | unknown {reader : InputReader} : Scanned p r (.unknown, reader)

theorem scan_ended (h : Ended r) : scan ⟨p, r⟩ = (.endOfInput, ⟨p, r⟩) := by
  have hend : InputReader.isEnd ⟨p, r⟩ = true := decide_eq_true h
  rw [scan, if_pos hend]

theorem scan_number {ds : List Nat} (p : Nat) (hne : ds ≠ []) (hds : ∀ c ∈ ds, Digit c) (hr : NoDigit r) :
    scan ⟨p, ds ++ r⟩ = (.number (value (ds.take kMaxSignificantDigits)) ds.length, ⟨p + ds.length, r⟩) := by
  have hread := readUnsignedNumeralLoop_digits ds p 0 0 r hds hr
  obtain ⟨c, cs, rfl⟩ := exists_cons_of_ne_nil hne
  have hc : Digit c := hds c mem_cons_self
  have hend : InputReader.isEnd ⟨p, c :: cs ++ r⟩ = false :=
    decide_eq_false fun h : c = 0 => by
      rw [h] at hc
      exact absurd hc.1 (by decide)
  have hdigit : InputReader.isAsciiDigit ⟨p, c :: cs ++ r⟩ = true := (isDigit_iff c).2 hc
  simp only [scan, hend, hdigit, Bool.false_eq_true, if_false, if_true, readUnsignedNumeral, hread,
    Nat.add_sub_cancel_left]
  rfl

theorem scan_symbol (p : Nat) (r : List Nat) (hc : SymbolChar c) :
    scan ⟨p, c :: r⟩ = (.symbol c, ⟨p + 1, r⟩) := by
  unfold SymbolChar at hc
  have hch : InputReader.ch ⟨p, c :: r⟩ = c := rfl
  have hend : InputReader.isEnd ⟨p, c :: r⟩ = false := decide_eq_false fun h : c = 0 => by omega
  have hdigit : InputReader.isAsciiDigit ⟨p, c :: r⟩ = false :=
    decide_eq_false fun h : 48 ≤ c ∧ c ≤ 57 => by omega
  rw [scan, hend, hdigit, if_neg Bool.false_ne_true, if_neg Bool.false_ne_true, hch, if_pos hc]
  rfl

theorem scan_word {ws : List Nat} (p : Nat) (hne : ws ≠ []) (hws : ∀ c ∈ ws, 65 ≤ c) (hr : NoLetter r) :
    scan ⟨p, ws ++ r⟩ =
      (.keyword (lookup (wordPrefix ws) ws.length).1 (lookup (wordPrefix ws) ws.length).2 ws.length,
        ⟨p + ws.length, r⟩) := by
  have hread := readWord_letters p hws hr
  obtain ⟨c, cs, rfl⟩ := exists_cons_of_ne_nil hne
  have hc : 65 ≤ c := hws c mem_cons_self
  have hch : InputReader.ch ⟨p, c :: cs ++ r⟩ = c := rfl
  have hend : InputReader.isEnd ⟨p, c :: cs ++ r⟩ = false := decide_eq_false fun h : c = 0 => by omega
  have hdigit : InputReader.isAsciiDigit ⟨p, c :: cs ++ r⟩ = false :=
    decide_eq_false fun h : 48 ≤ c ∧ c ≤ 57 => by omega
  have hletter : InputReader.isAsciiAlphaOrAbove ⟨p, c :: cs ++ r⟩ = true := decide_eq_true hc
  have hnot : ¬ (c = 58 ∨ c = 45 ∨ c = 43 ∨ c = 46 ∨ c = 41) := by omega
  simp_all [scan]

theorem scanned (p : Nat) (r : List Nat) : Scanned p r (scan ⟨p, r⟩) := by
  by_cases hend : Ended r
  · rw [scan_ended hend]
    exact .ended hend
  obtain ⟨ds, r', rfl, hds, hr⟩ := exists_digits r
  by_cases hne : ds = []
  case neg =>
    rw [scan_number p hne hds hr]
    exact .number rfl hne hds hr
  subst hne
  rw [nil_append] at hend ⊢
  obtain ⟨c, cs, rfl⟩ : ∃ c cs, r' = c :: cs := by
    cases r' with
    | nil => exact (hend rfl).elim
    | cons c cs => exact ⟨c, cs, rfl⟩
  by_cases hsymbol : c = 58 ∨ c = 45 ∨ c = 43 ∨ c = 46 ∨ c = 41
  · rw [scan_symbol p cs hsymbol]
    exact .symbol rfl hsymbol
  by_cases hletter : 65 ≤ c
  · obtain ⟨ws, r', hws, hletters, hr'⟩ := exists_letters cs
    subst hws
    have hall := forall_mem_cons.2 ⟨hletter, hletters⟩
    rw [← cons_append, scan_word p (cons_ne_nil c ws) hall hr']
    exact .word rfl (cons_ne_nil c ws) hall hr'
  have hch : InputReader.ch ⟨p, c :: cs⟩ = c := rfl
  have hisEnd : InputReader.isEnd ⟨p, c :: cs⟩ = false := decide_eq_false hend
  have hdigit : InputReader.isAsciiDigit ⟨p, c :: cs⟩ = false :=
    Bool.eq_false_iff.2 fun h => hr ((isDigit_iff c).1 h)
  have halpha : InputReader.isAsciiAlphaOrAbove ⟨p, c :: cs⟩ = false := decide_eq_false hletter
  rw [scan, hisEnd, hdigit, if_neg Bool.false_ne_true, if_neg Bool.false_ne_true, hch,
    if_neg hsymbol, halpha, if_neg Bool.false_ne_true]
  split
  · exact .space
  · split
    · exact .unknown
    · exact .unknown

/-! ## What is peeked -/

theorem tok_next {p' : Nat} {r' : List Nat} {token : DateToken} (h : scan ⟨p, r⟩ = (token, ⟨p', r'⟩)) :
    (tok p r).peek = token ∧ (tok p r).next = tok p' r' := by
  constructor
  · show (scan ⟨p, r⟩).1 = token
    rw [h]
  · show tokenizer (scan ⟨p, r⟩).2 = tok p' r'
    rw [h]
    rfl

theorem peek_ended (h : Ended r) : (tok p r).peek = .endOfInput :=
  congrArg Prod.fst (scan_ended h)

theorem ended_of_peek (h : (tok p r).peek = .endOfInput) : Ended r := by
  have hscan := scanned p r
  change (scan ⟨p, r⟩).1 = .endOfInput at h
  generalize scan ⟨p, r⟩ = result at hscan h
  cases hscan with
  | ended hend => exact hend
  | number | symbol | word | space | unknown => nomatch h

theorem fixedLengthNumber_eq {v : Nat} {token : DateToken} :
    token.fixedLengthNumber length = some v ↔ token = .number v length := by
  constructor
  · intro h
    cases token with
    | number v' length' =>
      rw [DateToken.fixedLengthNumber] at h
      grind
    | invalid | unknown | whiteSpace | symbol | endOfInput | keyword => nomatch h
  · rintro rfl
    exact if_pos rfl

/-- A number of some digits, of which all are significant. -/
theorem peek_number {v : Nat} {t : List Nat} (hpos : 0 < length) (hle : length ≤ kMaxSignificantDigits)
    (ht : Numeral length t v) (hr : NoDigit r) :
    (tok p (t ++ r)).peek.fixedLengthNumber length = some v ∧ (tok p (t ++ r)).next = tok (p + length) r := by
  obtain ⟨rfl, hdigs, rfl⟩ := ht
  have hne : t ≠ [] := by
    rintro rfl
    exact absurd hpos (by decide)
  obtain ⟨hpeek, hnext⟩ := tok_next (scan_number p hne hdigs hr)
  rw [take_of_length_le hle] at hpeek
  exact ⟨fixedLengthNumber_eq.2 hpeek, hnext⟩

theorem numeral_of_peek {v : Nat} (h : (tok p r).peek = .number v length) :
    ∃ ds r', r = ds ++ r' ∧ ds ≠ [] ∧ (∀ c ∈ ds, Digit c) ∧ v = value (ds.take kMaxSignificantDigits) ∧
      length = ds.length ∧ (tok p r).next = tok (p + length) r' := by
  have hscan := scanned p r
  generalize hres : scan ⟨p, r⟩ = result at hscan
  rw [show (tok p r).peek = result.1 from congrArg Prod.fst hres] at h
  cases hscan with
  | ended | symbol | word | space | unknown => nomatch h
  | @number ds r' hr hne hds hstop =>
    obtain ⟨rfl, rfl⟩ := DateToken.number.inj h
    exact ⟨ds, r', hr, hne, hds, rfl, rfl, (tok_next hres).2⟩

theorem number_of_peek {v : Nat} (hle : length ≤ kMaxSignificantDigits)
    (h : (tok p r).peek.fixedLengthNumber length = some v) :
    ∃ t r', r = t ++ r' ∧ Numeral length t v ∧ (tok p r).next = tok (p + length) r' := by
  obtain ⟨ds, r', hr, -, hds, rfl, rfl, hnext⟩ := numeral_of_peek (fixedLengthNumber_eq.1 h)
  exact ⟨ds, r', hr, ⟨rfl, hds, by rw [take_of_length_le hle]⟩, hnext⟩

theorem isSymbol_iff (c : Nat) (token : DateToken) : token.isSymbol c = true ↔ token = .symbol c :=
  decide_eq_true_iff

theorem peek_symbol (p : Nat) (r : List Nat) (hc : SymbolChar c) :
    (tok p (c :: r)).peek = .symbol c ∧ (tok p (c :: r)).next = tok (p + 1) r :=
  tok_next (scan_symbol p r hc)

theorem symbol_of_peek (h : (tok p r).peek.isSymbol c = true) :
    ∃ r', r = c :: r' ∧ (tok p r).next = tok (p + 1) r' := by
  rw [isSymbol_iff] at h
  have hscan := scanned p r
  generalize hres : scan ⟨p, r⟩ = result at hscan
  rw [show (tok p r).peek = result.1 from congrArg Prod.fst hres] at h
  cases hscan with
  | ended | number | word | space | unknown => nomatch h
  | @symbol c' r' hr _ =>
    obtain rfl : c' = c := DateToken.symbol.inj h
    exact ⟨r', hr, (tok_next hres).2⟩

/-! ## Keywords -/

theorem lower_eq {l : Nat} (hl : l = 116 ∨ l = 122) : asciiAlphaToLower c = l ↔ c = l ∨ c = l - 32 := by
  constructor
  · intro h
    have hle : c ≤ l := h ▸ Nat.left_le_or
    have hall : ∀ l ∈ [116, 122], ∀ c ≤ l, asciiAlphaToLower c = l → c = l ∨ c = l - 32 := by decide
    exact hall l (by simpa using hl) c hle h
  · rcases hl with rfl | rfl
    all_goals
      rintro (rfl | rfl)
      all_goals decide

/-- A word of one letter is a keyword if it is the separator of the time or the zero offset. -/
theorem lookup_single (l : Nat) : lookup [l, 0, 0] 1 =
      if l = 122 then (.timeZoneName, 0) else if l = 116 then (.timeSeparator, 0) else (.invalid, 0) := by
  by_cases hz : l = 122
  · subst hz
    decide
  · by_cases ht : l = 116
    · subst ht
      decide
    · have hfind : (keywordTable.find? fun entry =>
          entry.1 = [l, 0, 0] && (1 ≤ kPrefixLength || entry.2.1 = .monthName)) = none := by
        rw [find?_eq_none]
        intro entry hentry hmatch
        obtain ⟨heq, -⟩ := Bool.and_eq_true_iff.1 hmatch
        have hall : ∀ entry ∈ keywordTable, entry.1.tail = [0, 0] → entry.1 = [122, 0, 0] ∨
            entry.1 = [116, 0, 0] := by decide
        rw [decide_eq_true_eq] at heq
        have htail := hall entry hentry (by rw [heq, tail_cons])
        grind
      rw [if_neg hz, if_neg ht, lookup, hfind]

theorem wordPrefix_single (c : Nat) : wordPrefix [c] = [asciiAlphaToLower c, 0, 0] := rfl

theorem wordPrefix_cons_cons (c c' : Nat) (ws : List Nat) :
    ∃ l, wordPrefix (c :: c' :: ws) = [asciiAlphaToLower c, asciiAlphaToLower c', l] := by
  cases ws with
  | nil => exact ⟨0, rfl⟩
  | cons c'' ws =>
    refine ⟨asciiAlphaToLower c'', ?_⟩
    show _ ++ replicate (3 - (ws.length + 1 + 1 + 1)) 0 = _
    rw [show 3 - (ws.length + 1 + 1 + 1) = 0 by omega]
    rfl

/-- What is found in the table is one of its entries. -/
theorem lookup_cases (pre : List Nat) (len : Nat) :
    (lookup pre len).1 = .invalid ∨ ∃ entry ∈ keywordTable, entry.1 = pre ∧ entry.2 = lookup pre len := by
  rw [lookup]
  split
  case h_1 entry hfind =>
    have hmatch := find?_some hfind
    exact .inr ⟨entry, mem_of_find?_eq_some hfind,
      of_decide_eq_true (Bool.and_eq_true_iff.1 hmatch).1, rfl⟩
  case h_2 => exact .inl rfl

theorem lower_pos (hc : 65 ≤ c) : asciiAlphaToLower c ≠ 0 := by
  have hle : c ≤ asciiAlphaToLower c := Nat.left_le_or
  omega

/-- No longer word separates a time. -/
theorem lookup_long {c' : Nat} (ws : List Nat) (hc' : 65 ≤ c') (len : Nat) :
    (lookup (wordPrefix (c :: c' :: ws)) len).1 ≠ .timeSeparator := by
  intro h
  obtain ⟨l, hprefix⟩ := wordPrefix_cons_cons c c' ws
  rcases lookup_cases (wordPrefix (c :: c' :: ws)) len with hnone | ⟨entry, hmem, heq, hvalue⟩
  · rw [h] at hnone
    nomatch hnone
  · have hall : ∀ entry ∈ keywordTable, entry.2.1 = .timeSeparator → entry.1 = [116, 0, 0] := by decide
    have hentry := hall entry hmem (by rw [hvalue]; exact h)
    rw [heq, hprefix] at hentry
    exact lower_pos hc' (List.cons.inj (List.cons.inj hentry).2).1

/-- No longer word that starts like the separator is a keyword. -/
theorem lookup_separator_long {c' : Nat} (ws : List Nat) (hc : c = 84 ∨ c = 116) (hc' : 65 ≤ c')
    (len : Nat) : (lookup (wordPrefix (c :: c' :: ws)) len).1 = .invalid := by
  rcases lookup_cases (wordPrefix (c :: c' :: ws)) len with hnone | ⟨entry, hmem, heq, hvalue⟩
  · exact hnone
  · obtain ⟨l, hprefix⟩ := wordPrefix_cons_cons c c' ws
    have hall : ∀ entry ∈ keywordTable, entry.1.head? = some 116 → entry.2.1 = .timeSeparator := by decide
    have hlower : asciiAlphaToLower c = 116 := (lower_eq (.inl rfl)).2 hc.symm
    have hsep := hall entry hmem (by rw [heq, hprefix, hlower, List.head?_cons])
    rw [hvalue] at hsep
    exact (lookup_long ws hc' len hsep).elim

theorem peek_keywordZ (p : Nat) (hc : c = 90 ∨ c = 122) (hr : NoLetter r) :
    (tok p (c :: r)).peek.isKeywordZ = true ∧ (tok p (c :: r)).next = tok (p + 1) r := by
  have hall : ∀ c' ∈ [c], 65 ≤ c' := forall_mem_singleton.2 (by omega)
  obtain ⟨hpeek, hnext⟩ := tok_next (scan_word p (cons_ne_nil c []) hall hr)
  refine ⟨?_, hnext⟩
  have hlower : asciiAlphaToLower c = 122 := (lower_eq (.inr rfl)).2 hc.symm
  rw [show c :: r = [c] ++ r from rfl, hpeek, wordPrefix_single, hlower, length_singleton, lookup_single]
  decide

theorem keywordZ_of_peek (h : (tok p r).peek.isKeywordZ = true) :
    ∃ c r', r = c :: r' ∧ (c = 90 ∨ c = 122) ∧ (tok p r).next = tok (p + 1) r' := by
  have htoken := of_decide_eq_true h
  have hscan := scanned p r
  generalize hres : scan ⟨p, r⟩ = result at hscan
  rw [show (tok p r).peek = result.1 from congrArg Prod.fst hres] at htoken
  cases hscan with
  | ended | number | symbol | space | unknown => nomatch htoken
  | @word ws r' hr hne hws hstop =>
    obtain ⟨htype, -, hlen⟩ := DateToken.keyword.inj htoken
    obtain ⟨c, rfl⟩ := length_eq_one_iff.1 hlen
    rw [wordPrefix_single, length_singleton, lookup_single] at htype
    refine ⟨c, r', hr, ?_, (tok_next hres).2⟩
    by_cases hz : asciiAlphaToLower c = 122
    · exact ((lower_eq (.inr rfl)).1 hz).symm
    grind

/-- The separator of the time, where no word goes on behind it. -/
theorem peek_separator (p : Nat) (hc : c = 84 ∨ c = 116) (hr : NoLetter r) :
    (tok p (c :: r)).peek.isKeywordType .timeSeparator = true ∧ (tok p (c :: r)).next = tok (p + 1) r := by
  have hall : ∀ c' ∈ [c], 65 ≤ c' := forall_mem_singleton.2 (by omega)
  obtain ⟨hpeek, hnext⟩ := tok_next (scan_word p (cons_ne_nil c []) hall hr)
  refine ⟨?_, hnext⟩
  have hlower : asciiAlphaToLower c = 116 := (lower_eq (.inl rfl)).2 hc.symm
  rw [show c :: r = [c] ++ r from rfl, hpeek, wordPrefix_single, hlower, length_singleton, lookup_single]
  decide

/-- The separator of the time, where a word goes on behind it. -/
theorem peek_separator_word (p : Nat) (hc : c = 84 ∨ c = 116)
    (hr : ¬ NoLetter r) : ∃ value len, (tok p (c :: r)).peek = .keyword .invalid value len := by
  obtain ⟨c', cs, rfl⟩ : ∃ c' cs, r = c' :: cs := by
    cases r with
    | nil => exact (hr (Nat.succ_pos 64)).elim
    | cons c' cs => exact ⟨c', cs, rfl⟩
  have hc' : 65 ≤ c' := Nat.not_lt.1 hr
  obtain ⟨ws, r', rfl, hws, hstop⟩ := exists_letters cs
  have hall : ∀ l ∈ c :: c' :: ws, 65 ≤ l :=
    forall_mem_cons.2 ⟨by omega, forall_mem_cons.2 ⟨hc', hws⟩⟩
  have hpeek := (tok_next (scan_word p (cons_ne_nil c (c' :: ws)) hall hstop)).1
  rw [lookup_separator_long ws hc hc'] at hpeek
  exact ⟨_, _, hpeek⟩

end W16.DateParsing
