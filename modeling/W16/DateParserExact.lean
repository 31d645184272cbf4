import W16.DateTokens

/-!
# The exactness of the date parser

A stage of the parser accepts a text of its form with anything behind it that does not go on with
the form, and what a stage accepts starts with a text of its form.
-/
namespace W16.DateParsing

open List

open DateTimes (Digit Numeral InRange Year Date Time Sign Offset WithinDay Separator Moment DateTime
  value valueFrom thousandths value_append value_lt thousandths_eq)

set_option linter.dupNamespace false

/-- The fields of a time that was not set. -/
def noZone : TimeZoneComposer := ⟨kNone, kNone, kNone⟩

/-! ## Offsets -/

/-- What is written for a zone at the end of a date. -/
def ZoneGives (tz : TimeZoneComposer) (offset : Int) : Prop :=
  ∀ wide, TimeZoneComposer.write wide (if tz.isEmpty then .set 0 else tz) = some (some offset)

theorem smiIsValid_of (wide : Bool) {n : Int} (hlo : -2 ^ 30 ≤ n) (hhi : n ≤ 2 ^ 30 - 1) :
    smiIsValid wide n = true := by
  cases wide with
  | true => exact decide_eq_true ⟨by omega, by omega⟩
  | false => exact decide_eq_true ⟨hlo, hhi⟩

theorem zoneGives_none : ZoneGives noZone 0 := by
  intro wide
  cases wide with
  | true => decide
  | false => decide

theorem zoneGives_zero : ZoneGives (.set 0) 0 := by
  intro wide
  cases wide with
  | true => decide
  | false => decide

variable {c m p d : Nat} {t w u r : List Nat} {day : DayComposer} {s' : State} {offset y : Int}
  {comp fields : List Int} {tz : TimeZoneComposer} {wide : Bool}

theorem zoneGives_sign {h : Nat} {i : Int} (hi : Sign c i) (hh : h ≤ 23) (hm : m ≤ 59) :
    ZoneGives ⟨i, h, m⟩ (i * (h * 3600 + m * 60)) := by
  intro wide
  have hne : ∀ n : Nat, n ≤ 59 → (n : Int) ≠ kNone := by
    rw [kNone]
    omega
  have hempty : TimeZoneComposer.isEmpty ⟨i, h, m⟩ = false := decide_eq_false (hne h (by omega))
  have hsign : i ≠ kNone := by cases hi <;> decide
  have hbound : -(2 ^ 30) ≤ i * (h * 3600 + m * 60) ∧ i * (h * 3600 + m * 60) ≤ 2 ^ 30 - 1 := by
    cases hi <;> omega
  have hmod : (i * (h * 3600 + m * 60)).bmod (2 ^ 32) = i * (h * 3600 + m * 60) :=
    Int.bmod_eq_of_le (by omega) (by omega)
  rw [hempty, if_neg Bool.false_ne_true, TimeZoneComposer.write, if_pos hsign]
  simp only [if_neg (hne h (by omega)), if_neg (hne m hm), hmod, smiIsValid_of wide hbound.1 hbound.2]
  rfl

theorem true_of_not {b : Bool} (h : ¬ (!b) = true) : b = true := by
  simpa using h

theorem range_of {lo hi : Int} {n : Nat} (h : between n lo hi = true) : lo ≤ n ∧ (n : Int) ≤ hi :=
  of_decide_eq_true h

theorem inRange_of (lo hi : Nat) {v : Nat} (ht : Numeral 2 t v) (h : between v lo hi = true) :
    InRange lo hi t v :=
  ⟨ht, by have := range_of h; omega, by have := range_of h; omega⟩

theorem between_of {lo hi v : Nat} (h : InRange lo hi t v) : between v lo hi = true :=
  decide_eq_true ⟨Int.ofNat_le.2 h.le, Int.ofNat_le.2 h.ge⟩

/-- A numeral of four digits is two of two digits. -/
theorem numeral_four {v : Nat} (hw : Numeral 4 w v) :
    ∃ t u, w = t ++ u ∧ Numeral 2 t (v / 100) ∧ Numeral 2 u (v % 100) := by
  obtain ⟨hlen, hdigs, rfl⟩ := hw
  have hu : Numeral 2 (w.drop 2) (value (w.drop 2)) :=
    ⟨by rw [length_drop, hlen], fun c hc => hdigs c (mem_of_mem_drop hc), rfl⟩
  have hlt := value_lt hu.digits
  rw [hu.length_eq] at hlt
  have hvalue : value w = value (w.take 2) * 100 + value (w.drop 2) := by
    grind [value_append, take_append_drop]
  refine ⟨w.take 2, w.drop 2, (take_append_drop 2 w).symm, ⟨?_, ?_, ?_⟩, hu.1, hu.2, ?_⟩
  · rw [length_take, hlen]
    rfl
  · grind
  · omega
  · omega

theorem numeral_append {h : Nat} (ht : Numeral 2 t h) (hu : Numeral 2 u m) :
    Numeral 4 (t ++ u) (h * 100 + m) ∧ m < 100 := by
  refine ⟨⟨?_, fun c hc => ?_, ?_⟩, ?_⟩
  · rw [length_append, ht.length_eq, hu.length_eq]
  · exact (mem_append.1 hc).elim (ht.digits c) (hu.digits c)
  · have happ := value_append t u
    rw [ht.value_eq, hu.value_eq, hu.length_eq] at happ
    exact happ
  · have hlt := value_lt hu.digits
    rwa [hu.value_eq, hu.length_eq] at hlt

theorem sign_symbol {i : Int} (h : Sign c i) :
    SymbolChar c ∧ (c = 43 ∨ c = 45) ∧ i = if c = 43 then 1 else -1 := by
  cases h with
  | plus => exact ⟨.inr (.inr (.inl rfl)), .inl rfl, rfl⟩
  | minus => exact ⟨.inr (.inl rfl), .inr rfl, rfl⟩

theorem sign_of (hc : c = 43 ∨ c = 45) : Sign c (if c = 43 then 1 else -1) := by
  rcases hc with rfl | rfl
  · exact .plus
  · exact .minus

theorem isSymbol_symbol (c c' : Nat) : (DateToken.symbol c).isSymbol c' = decide (c = c') := by
  grind [isSymbol_iff]

/-- The zone after its sign. -/
theorem timeZone_signed (r : List Nat) (day : DayComposer) (time : TimeComposer) (hc : c = 43 ∨ c = 45) :
    parseES5TimeZone ⟨tok p (c :: r), day, time, noZone⟩ = match (tok (p + 1) r).peek.fixedLengthNumber 4 with
      | some hourmin =>
        if !TimeComposer.isHour (hourmin / 100 : Nat) || !TimeComposer.isMinute (hourmin % 100 : Nat) then none
        else some ⟨(tok (p + 1) r).next, day, time,
          ⟨if c = 43 then 1 else -1, (hourmin / 100 : Nat), (hourmin % 100 : Nat)⟩⟩
      | none =>
        match (tok (p + 1) r).peek.fixedLengthNumber 2 with
        | none => none
        | some hour =>
          if !TimeComposer.isHour hour then none
          else
            if !(tok (p + 1) r).next.peek.isSymbol 58 then none
            else
              match (tok (p + 1) r).next.next.peek.fixedLengthNumber 2 with
              | none => none
              | some min =>
                if !TimeComposer.isMinute min then none
                else some ⟨(tok (p + 1) r).next.next.next, day, time,
                  ⟨if c = 43 then 1 else -1, hour, min⟩⟩ := by
  obtain ⟨hpeek, hnext⟩ := peek_symbol p r (c := c) (by unfold SymbolChar; omega)
  rcases hc with rfl | rfl
  · rfl
  · rfl

theorem timeZone_sound {time : TimeComposer} (h : parseES5TimeZone ⟨tok p r, day, time, noZone⟩ = some s') :
    ∃ o offset r' p' tz, r = o ++ r' ∧ Offset o offset ∧ ZoneGives tz offset ∧
      s' = ⟨tok p' r', day, time, tz⟩ := by
  by_cases hz : (tok p r).peek.isKeywordZ = true
  · obtain ⟨c, r', rfl, hc, hnext⟩ := keywordZ_of_peek hz
    rw [parseES5TimeZone, if_pos hz, hnext, Option.some.injEq] at h
    exact ⟨[c], 0, r', p + 1, .set 0, rfl, .utc hc, zoneGives_zero, h.symm⟩
  by_cases hs : ((tok p r).peek.isSymbol 43 || (tok p r).peek.isSymbol 45) = true
  case neg =>
    rw [parseES5TimeZone, if_neg hz, if_neg hs, Option.some.injEq] at h
    exact ⟨[], 0, r, p, noZone, rfl, .none, zoneGives_none, h.symm⟩
  obtain ⟨c, r₁, rfl, hc⟩ : ∃ c r₁, r = c :: r₁ ∧ (c = 43 ∨ c = 45) := by
    rcases Bool.or_eq_true_iff.1 hs with hs | hs
    · grind -linarith [symbol_of_peek]
    grind -linarith [symbol_of_peek]
  rw [timeZone_signed r₁ day time hc] at h
  split at h
  case h_1 hourmin hfour =>
    obtain ⟨w, r', rfl, hw, hnext⟩ := number_of_peek (by decide) hfour
    obtain ⟨t, u, rfl, ht, hu⟩ := numeral_four hw
    split at h
    case isTrue => nomatch h
    case isFalse hrange =>
      obtain ⟨hhour, hmin⟩ : TimeComposer.isHour (hourmin / 100 : Nat) = true ∧
          TimeComposer.isMinute (hourmin % 100 : Nat) = true := by simpa using hrange
      have hrh := inRange_of 0 23 ht hhour
      have hrm := inRange_of 0 59 hu hmin
      rw [hnext, Option.some.injEq] at h
      exact ⟨c :: (t ++ u), _, r', _, _, rfl, .plain (sign_of hc) hrh hrm,
        zoneGives_sign (sign_of hc) hrh.ge hrm.ge, h.symm⟩
  case h_2 =>
    split at h
    case h_1 => nomatch h
    case h_2 hour htwo =>
      obtain ⟨t, r₂, rfl, ht, hnext⟩ := number_of_peek (by decide) htwo
      rw [hnext] at h
      split at h
      case isTrue => nomatch h
      case isFalse hhour =>
        split at h
        case isTrue => nomatch h
        case isFalse hcolon =>
          obtain ⟨r₃, rfl, hnext'⟩ := symbol_of_peek (true_of_not hcolon)
          rw [hnext'] at h
          split at h
          case h_1 => nomatch h
          case h_2 min htwo' =>
            obtain ⟨u, r', rfl, hu, hnext''⟩ := number_of_peek (by decide) htwo'
            split at h
            case isTrue => nomatch h
            case isFalse hmin =>
              have hrh := inRange_of 0 23 ht (true_of_not hhour)
              have hrm := inRange_of 0 59 hu (true_of_not hmin)
              rw [hnext'', Option.some.injEq] at h
              exact ⟨c :: (t ++ 58 :: u), _, r', _, _, by simp, .colon (sign_of hc) hrh hrm,
                zoneGives_sign (sign_of hc) hrh.ge hrm.ge, h.symm⟩

theorem noDigit_cons (hc : c < 48 ∨ 57 < c) : NoDigit (c :: r) := by
  rintro ⟨hlo, hhi⟩
  grind

/-- An offset does not go on behind its text. -/
theorem timeZone_complete (p : Nat) {o : List Nat} (day : DayComposer)
    (time : TimeComposer) (ho : Offset o offset) (hr : Ended r) :
    ∃ p' tz, parseES5TimeZone ⟨tok p (o ++ r), day, time, noZone⟩ = some ⟨tok p' r, day, time, tz⟩ ∧
      ZoneGives tz offset := by
  cases ho with
  | none =>
    refine ⟨p, noZone, ?_, zoneGives_none⟩
    rw [nil_append, parseES5TimeZone, peek_ended hr]
    rfl
  | @utc c hc =>
    obtain ⟨hpeek, hnext⟩ := peek_keywordZ p hc hr.noLetter
    refine ⟨p + 1, .set 0, ?_, zoneGives_zero⟩
    rw [singleton_append, parseES5TimeZone, if_pos hpeek, hnext]
  | @colon c i t u h m hi ht hu =>
    obtain ⟨-, hc, rfl⟩ := sign_symbol hi
    obtain ⟨htwo, hnext⟩ := peek_number (p := p + 1) (r := 58 :: (u ++ r)) (by decide) (by decide)
      ht.numeral (noDigit_cons (.inr (by decide)))
    obtain ⟨hcolon, hnext'⟩ := peek_symbol (c := 58) (p + 1 + 2) (u ++ r) (.inl rfl)
    obtain ⟨htwo', hnext''⟩ := peek_number (p := p + 1 + 2 + 1) (by decide) (by decide) hu.numeral hr.noDigit
    have hfour : (tok (p + 1) (t ++ 58 :: (u ++ r))).peek.fixedLengthNumber 4 = none := by
      rw [fixedLengthNumber_eq.1 htwo]
      rfl
    refine ⟨p + 1 + 2 + 1 + 2, _, ?_, zoneGives_sign hi ht.ge hu.ge⟩
    rw [show c :: (t ++ 58 :: u) ++ r = c :: (t ++ 58 :: (u ++ r)) by simp,
      timeZone_signed _ day time hc, hfour, htwo, hnext, hcolon, hnext', htwo', hnext'']
    simp [show TimeComposer.isHour h = true from between_of ht, show TimeComposer.isMinute m = true from between_of hu, isSymbol_symbol]
  | @plain c i t u h m hi ht hu =>
    obtain ⟨-, hc, rfl⟩ := sign_symbol hi
    obtain ⟨hw, hlt⟩ := numeral_append ht.numeral hu.numeral
    obtain ⟨hfour, hnext⟩ := peek_number (p := p + 1) (by decide) (by decide) hw hr.noDigit
    have hhour : (h * 100 + m) / 100 = h := by omega
    have hmin : (h * 100 + m) % 100 = m := by omega
    refine ⟨p + 1 + 4, _, ?_, zoneGives_sign hi ht.ge hu.ge⟩
    rw [cons_append, timeZone_signed _ day time hc, hfour, hnext]
    simp [hhour, hmin, show TimeComposer.isHour h = true from between_of ht, show TimeComposer.isMinute m = true from between_of hu]

/-! ## Times of day -/

theorem readMilliseconds_eq {f : List Nat} (hne : f ≠ []) (hf : ∀ c ∈ f, Digit c) :
    readMilliseconds (value (f.take kMaxSignificantDigits)) f.length = thousandths f := by
  by_cases h3 : 3 ≤ f.length
  · have htake : f.take (min f.length kMaxSignificantDigits) = f.take kMaxSignificantDigits := by
      grind
    rw [readMilliseconds, if_neg (Nat.not_lt.2 h3), thousandths_eq hf
      (show 3 ≤ min f.length kMaxSignificantDigits from Nat.le_min.2 ⟨h3, by decide⟩)
      (min_le_left _ _), htake]
  · match f, hne, h3 with
    | [a], _, _ =>
      show (0 * 10 + (a - 48)) * 100 = ((0 * 10 + (a - 48)) * 10 + (48 - 48)) * 10 + (48 - 48)
      omega
    | [a, b], _, _ =>
      show ((0 * 10 + (a - 48)) * 10 + (b - 48)) * 10 = ((0 * 10 + (a - 48)) * 10 + (b - 48)) * 10 + (48 - 48)
      omega
    | _ :: _ :: _ :: _, _, h3 =>
      simp only [length_cons] at h3
      omega

/-- The fields after the minute, and the text that sets them. -/
inductive Seconds : List Nat → List Int → Prop
  | none : Seconds [] []
  | whole {w : List Nat} {sec : Nat} : InRange 0 59 w sec → Seconds (58 :: w) [(sec : Int)]
  | fraction {w f : List Nat} {sec : Nat} : InRange 0 59 w sec → f ≠ [] → (∀ c ∈ f, Digit c) →
      Seconds (58 :: (w ++ 46 :: f)) [(sec : Int), (thousandths f : Int)]

theorem fraction_sound {b : Bool} (hcomp : comp.length < TimeComposer.kSize)
    (h : parseES5Fraction b ⟨tok p r, day, ⟨comp, kNone⟩, tz⟩ = some s') :
    ∃ f r' p', r = f ++ r' ∧ f ≠ [] ∧ (∀ c ∈ f, Digit c) ∧
      s' = ⟨tok p' r', day, ⟨comp ++ [(thousandths f : Int)], kNone⟩, tz⟩ := by
  rw [parseES5Fraction] at h
  split at h
  case h_1 value length hpeek =>
    obtain ⟨f, r', rfl, hne, hf, rfl, rfl, hnext⟩ := numeral_of_peek hpeek
    split at h
    case isTrue => nomatch h
    case isFalse =>
      rw [hnext, readMilliseconds_eq hne hf, TimeComposer.add, if_pos hcomp, Option.some.injEq] at h
      exact ⟨f, r', _, rfl, hne, hf, h.symm⟩
  case h_2 => nomatch h

theorem seconds_sound {b : Bool} (hcomp : comp.length + 1 < TimeComposer.kSize)
    (h : parseES5Seconds b ⟨tok p r, day, ⟨comp, kNone⟩, tz⟩ = some s') :
    ∃ u fields r' p', 58 :: r = u ++ r' ∧ Seconds u fields ∧
      s' = ⟨tok p' r', day, ⟨comp ++ fields, kNone⟩, tz⟩ := by
  rw [parseES5Seconds] at h
  split at h
  case h_1 => nomatch h
  case h_2 sec htwo =>
    obtain ⟨w, r₁, rfl, hw, hnext⟩ := number_of_peek (by decide) htwo
    split at h
    case isTrue => nomatch h
    case isFalse hrange =>
      have hsec := true_of_not fun hnot => hrange (Bool.or_eq_true_iff.2 (.inl hnot))
      have hw := inRange_of 0 59 hw hsec
      rw [hnext, TimeComposer.add, if_pos (Nat.lt_of_succ_lt hcomp)] at h
      dsimp only at h
      split at h
      case isTrue hpoint =>
        obtain ⟨r₂, rfl, hnext'⟩ := symbol_of_peek hpoint
        obtain ⟨f, r', p', rfl, hne, hf, hs⟩ := fraction_sound (by rw [length_append]; exact hcomp) h
        refine ⟨58 :: (w ++ 46 :: f), _, r', p', by simp, .fraction hw hne hf, ?_⟩
        rw [hs, append_assoc]
        rfl
      case isFalse =>
        rw [Option.some.injEq] at h
        exact ⟨58 :: w, _, r₁, _, rfl, .whole hw, h.symm⟩

/-- The fields of a time of day, where the hour is not the end of the day. -/
theorem time_iff {h sec ms : Nat} (hh : h ≤ 23) :
    Time t h m sec ms ↔ ∃ a u w fields, t = a ++ 58 :: (u ++ w) ∧ InRange 0 24 a h ∧ InRange 0 59 u m ∧
      Seconds w fields ∧ TimeComposer.fill ((h : Int) :: (m : Int) :: fields) = [(h : Int), m, sec, ms] := by
  have hwithin : ∀ s f, WithinDay h m s f := fun s f h24 => by omega
  constructor
  · rintro (⟨ha, hu, -⟩ | ⟨ha, hu, hw, -⟩ | ⟨ha, hu, hw, hne, hf, -⟩)
    · exact ⟨_, _, [], [], by rw [append_nil], ha, hu, .none, rfl⟩
    · exact ⟨_, _, _, _, rfl, ha, hu, .whole hw, rfl⟩
    · exact ⟨_, _, _, _, rfl, ha, hu, .fraction hw hne hf, rfl⟩
  · rintro ⟨a, u, w, fields, rfl, ha, hu, hw, hfill⟩
    cases hw with
    | none =>
      change [(h : Int), m, 0, 0] = _ at hfill
      simp only [List.cons.injEq, and_true, true_and] at hfill
      obtain rfl : sec = 0 := by omega
      obtain rfl : ms = 0 := by omega
      rw [append_nil]
      exact .minutes ha hu (hwithin _ _)
    | @whole w sec' hw =>
      change [(h : Int), m, sec', 0] = _ at hfill
      simp only [List.cons.injEq, and_true, true_and] at hfill
      obtain rfl : sec' = sec := by omega
      obtain rfl : ms = 0 := by omega
      exact .seconds ha hu hw (hwithin _ _)
    | @fraction w f sec' hw hne hf =>
      change [(h : Int), m, sec', thousandths f] = _ at hfill
      simp only [List.cons.injEq, and_true, true_and] at hfill
      obtain rfl : sec' = sec := by omega
      obtain rfl : thousandths f = ms := by omega
      exact .fraction ha hu hw hne hf (hwithin _ _)

theorem timeOfDay_sound (h : parseES5TimeOfDay ⟨tok p r, day, ⟨[], kNone⟩, tz⟩ = some s') :
    ∃ a u w hour minute fields r' p', r = a ++ 58 :: (u ++ w) ++ r' ∧ InRange 0 24 a hour ∧
      InRange 0 59 u minute ∧ Seconds w fields ∧
        s' = ⟨tok p' r', day, ⟨(hour : Int) :: (minute : Int) :: fields, kNone⟩, tz⟩ := by
  rw [parseES5TimeOfDay] at h
  dsimp only at h
  split at h
  case h_1 => nomatch h
  case h_2 hour htwo =>
    obtain ⟨a, r₁, rfl, ha, hnext₁⟩ := number_of_peek (by decide) htwo
    split at h
    case isTrue => nomatch h
    case isFalse hhour =>
      have ha := inRange_of 0 24 ha (true_of_not hhour)
      rw [hnext₁] at h
      split at h
      case isTrue => nomatch h
      case isFalse hcolon =>
        obtain ⟨r₂, rfl, hnext₂⟩ := symbol_of_peek (true_of_not hcolon)
        rw [hnext₂] at h
        split at h
        case h_1 => nomatch h
        case h_2 minute htwo' =>
          obtain ⟨u, r₃, rfl, hu, hnext₃⟩ := number_of_peek (by decide) htwo'
          split at h
          case isTrue => nomatch h
          case isFalse hrange =>
            have hminute := true_of_not fun hnot => hrange (Bool.or_eq_true_iff.2 (.inl hnot))
            have hu := inRange_of 0 59 hu hminute
            rw [hnext₃] at h
            split at h
            case isTrue hcolon' =>
              obtain ⟨r₄, rfl, hnext₄⟩ := symbol_of_peek hcolon'
              rw [hnext₄] at h
              have hsize : [(hour : Int), (minute : Int)].length + 1 < TimeComposer.kSize :=
                show 2 + 1 < 4 by decide
              obtain ⟨w, fields, r', p', hw, hsec, hs⟩ :=
                seconds_sound hsize h
              grind
            case isFalse =>
              rw [Option.some.injEq] at h
              exact ⟨a, u, [], hour, minute, [], r₃, _, by simp, ha, hu, .none, h.symm⟩

/-- What follows a time goes on neither with a number nor with further fields. -/
def Stops (r : List Nat) : Prop := NoDigit r ∧ r.headD 0 ≠ 58 ∧ r.headD 0 ≠ 46

theorem stops_offset {o : List Nat} (ho : Offset o offset) (hr : Ended r) : Stops (o ++ r) := by
  have hcons : ∀ {c : Nat} {cs : List Nat}, c = 43 ∨ c = 45 ∨ 58 < c → Stops (c :: cs) := by
    intro c cs hc
    refine ⟨noDigit_cons (by omega), ?_, ?_⟩
    · show c ≠ 58
      omega
    · show c ≠ 46
      omega
  cases ho with
  | none =>
    rw [nil_append]
    refine ⟨hr.noDigit, ?_, ?_⟩
    · rw [show r.headD 0 = 0 from hr]
      decide
    · rw [show r.headD 0 = 0 from hr]
      decide
  | utc hc => exact hcons (by omega)
  | colon hi =>
    have hc := (sign_symbol hi).2.1
    exact hcons (by omega)
  | plain hi =>
    have hc := (sign_symbol hi).2.1
    exact hcons (by omega)

theorem isSymbol_false (h : r.headD 0 ≠ c) : (tok p r).peek.isSymbol c = false := by
  refine Bool.eq_false_iff.2 fun hs => ?_
  obtain ⟨r', rfl, -⟩ := symbol_of_peek hs
  exact h rfl

/-- Behind the colon, where there are seconds. -/
theorem seconds_complete (p : Nat) (day : DayComposer)
    (tz : TimeZoneComposer) (hw : Seconds (58 :: w) fields) (hr : Stops r)
    (hcomp : comp.length + 1 < TimeComposer.kSize) :
    ∃ p', parseES5Seconds false ⟨tok p (w ++ r), day, ⟨comp, kNone⟩, tz⟩ =
      some ⟨tok p' r, day, ⟨comp ++ fields, kNone⟩, tz⟩ := by
  cases hw with
  | @whole _ sec hsec =>
    obtain ⟨htwo, hnext⟩ := peek_number (p := p) (by decide) (by decide) hsec.numeral hr.1
    have hpoint : (tok (p + 2) r).peek.isSymbol 46 = false := isSymbol_false hr.2.2
    refine ⟨p + 2, ?_⟩
    rw [parseES5Seconds]
    simp only [htwo, hnext, show TimeComposer.isSecond sec = true from between_of hsec,
      TimeComposer.add, if_pos (Nat.lt_of_succ_lt hcomp), hpoint, Bool.not_true, Bool.false_and,
      Bool.or_self, Bool.false_eq_true, if_false]
  | @fraction v f sec hsec hne hf =>
    obtain ⟨htwo, hnext⟩ := peek_number (p := p) (r := 46 :: (f ++ r)) (by decide) (by decide)
      hsec.numeral (noDigit_cons (.inl (by decide)))
    obtain ⟨hpoint, hnext'⟩ := peek_symbol (c := 46) (p + 2) (f ++ r) (.inr (.inr (.inr (.inl rfl))))
    obtain ⟨hnum, hnext''⟩ := tok_next (scan_number (p + 2 + 1) hne hf hr.1)
    have hlen : (comp ++ [(sec : Int)]).length < TimeComposer.kSize := by
      rw [length_append]
      exact hcomp
    refine ⟨p + 2 + 1 + f.length, ?_⟩
    rw [show v ++ 46 :: f ++ r = v ++ 46 :: (f ++ r) by simp, parseES5Seconds]
    simp only [htwo, hnext, show TimeComposer.isSecond sec = true from between_of hsec,
      TimeComposer.add, if_pos (Nat.lt_of_succ_lt hcomp), hpoint, hnext', isSymbol_symbol,
      parseES5Fraction, hnum, hnext'', if_pos hlen, readMilliseconds_eq hne hf, Bool.not_true,
      Bool.false_and, Bool.or_self, Bool.false_eq_true, if_false, decide_true, if_true,
      append_assoc, singleton_append]

theorem timeOfDay_complete (p : Nat) {a : List Nat} {hour minute : Nat}
    (day : DayComposer) (tz : TimeZoneComposer) (ha : InRange 0 24 a hour) (hhour : hour ≤ 23)
    (hu : InRange 0 59 u minute) (hw : Seconds w fields) (hr : Stops r) :
    ∃ p', parseES5TimeOfDay ⟨tok p (a ++ 58 :: (u ++ w) ++ r), day, ⟨[], kNone⟩, tz⟩ =
      some ⟨tok p' r, day, ⟨(hour : Int) :: (minute : Int) :: fields, kNone⟩, tz⟩ := by
  have hstop : NoDigit (w ++ r) := by
    cases hw with
    | none => exact hr.1
    | whole => exact noDigit_cons (.inr (by decide))
    | fraction => exact noDigit_cons (.inr (by decide))
  obtain ⟨htwo, hnext⟩ := peek_number (p := p) (r := 58 :: (u ++ (w ++ r))) (by decide) (by decide)
    ha.numeral (noDigit_cons (.inr (by decide)))
  obtain ⟨hcolon, hnext'⟩ := peek_symbol (c := 58) (p + 2) (u ++ (w ++ r)) (.inl rfl)
  obtain ⟨htwo', hnext''⟩ := peek_number (p := p + 2 + 1) (by decide) (by decide) hu.numeral hstop
  have h24 : decide (hour = 24) = false := decide_eq_false (by omega)
  have hsize : ([] : List Int).length < TimeComposer.kSize ∧ [(hour : Int)].length < TimeComposer.kSize :=
    ⟨show 0 < 4 by decide, show 1 < 4 by decide⟩
  have hopen : parseES5TimeOfDay ⟨tok p (a ++ 58 :: (u ++ w) ++ r), day, ⟨[], kNone⟩, tz⟩ =
      if (tok (p + 2 + 1 + 2) (w ++ r)).peek.isSymbol 58 then
        parseES5Seconds false
          ⟨(tok (p + 2 + 1 + 2) (w ++ r)).next, day, ⟨[(hour : Int), (minute : Int)], kNone⟩, tz⟩
      else some ⟨tok (p + 2 + 1 + 2) (w ++ r), day, ⟨[(hour : Int), (minute : Int)], kNone⟩, tz⟩ := by
    rw [show a ++ 58 :: (u ++ w) ++ r = a ++ 58 :: (u ++ (w ++ r)) by simp, parseES5TimeOfDay]
    simp only [htwo, hnext, show between hour 0 24 = true from between_of ha, hcolon, hnext',
      isSymbol_symbol, htwo', hnext'', show TimeComposer.isMinute minute = true from between_of hu, h24,
      TimeComposer.add, if_pos hsize.1, nil_append, if_pos hsize.2, Bool.not_true, Bool.false_and,
      Bool.or_self, Bool.false_eq_true, if_false, decide_true, singleton_append]
  rw [hopen]
  by_cases hnil : w = []
  · subst hnil
    have hfields : fields = [] := by
      cases hw
      rfl
    rw [nil_append, isSymbol_false hr.2.1, if_neg Bool.false_ne_true, hfields]
    exact ⟨_, rfl⟩
  · obtain ⟨w', rfl⟩ : ∃ w', w = 58 :: w' := by
      cases hw with
      | none => exact (hnil rfl).elim
      | whole => exact ⟨_, rfl⟩
      | fraction => exact ⟨_, rfl⟩
    obtain ⟨hcolon', hnext'''⟩ := peek_symbol (c := 58) (p + 2 + 1 + 2) (w' ++ r) (.inl rfl)
    exact seconds_complete _ day tz hw hr (show 2 + 1 < 4 by decide)

/-! ## Dates -/

/-- Behind a date there is neither a digit nor a further field. -/
def AfterDate (r : List Nat) : Prop := NoDigit r ∧ r.headD 0 ≠ 45

theorem component_complete (p : Nat) {lo hi v : Nat} {inRange : Int → Bool} (time : TimeComposer) (tz : TimeZoneComposer) (rest : State → DateToken × State)
    (ht : InRange lo hi t v) (hv : inRange v = between v lo hi) (hr : NoDigit r)
    (hcomp : comp.length < DayComposer.kSize) :
    parseES5Component inRange ⟨tok p (t ++ r), ⟨comp, kNone, false⟩, time, tz⟩ rest =
      rest ⟨tok (p + 2) r, ⟨comp ++ [(v : Int)], kNone, false⟩, time, tz⟩ := by
  obtain ⟨htwo, hnext⟩ := peek_number (p := p) (by decide) (by decide) ht.numeral hr
  rw [parseES5Component]
  simp only [htwo, hnext, hv, between_of ht, DayComposer.add, if_pos hcomp, Bool.not_true,
    Bool.false_eq_true, if_false]

theorem afterYear_none (p : Nat) (day : DayComposer) (time : TimeComposer)
    (tz : TimeZoneComposer) (hr : r.headD 0 ≠ 45) :
    parseES5AfterYear ⟨tok p r, day, time, tz⟩ = parseES5AfterDate ⟨tok p r, day, time, tz⟩ := by
  rw [parseES5AfterYear]
  rw [isSymbol_false hr, if_neg Bool.false_ne_true]

theorem afterYear_month (p : Nat) (y : Int) (time : TimeComposer)
    (tz : TimeZoneComposer) (hu : InRange 1 12 u m) (hr : NoDigit r) :
    parseES5AfterYear ⟨tok p (45 :: (u ++ r)), ⟨[y], kNone, false⟩, time, tz⟩ =
      if (tok (p + 1 + 2) r).peek.isSymbol 45 then
        parseES5Component DayComposer.isDay
          ⟨(tok (p + 1 + 2) r).next, ⟨[y, (m : Int)], kNone, false⟩, time, tz⟩ parseES5AfterDate
      else parseES5AfterDate ⟨tok (p + 1 + 2) r, ⟨[y, (m : Int)], kNone, false⟩, time, tz⟩ := by
  obtain ⟨hpeek, hnext⟩ := peek_symbol (c := 45) p (u ++ r) (.inr (.inl rfl))
  have hsize : [y].length < DayComposer.kSize := show 1 < 3 by decide
  rw [parseES5AfterYear]
  rw [hpeek, hnext, isSymbol_symbol, decide_eq_true rfl, if_pos rfl,
    component_complete (p + 1) time tz _ hu (show DayComposer.isMonth m = _ from rfl) hr hsize]
  rfl

theorem isAsciiSign_number (v length : Nat) : (DateToken.number v length).isAsciiSign = false := rfl

/-- A year is read up to what follows it. -/
theorem year_complete (r : List Nat) (ht : Year t y) (hr : NoDigit r) : ∃ p, parseES5DateTime (start (t ++ r)) =
      parseES5AfterYear ⟨tok p r, ⟨[y], kNone, false⟩, ⟨[], kNone⟩, noZone⟩ := by
  have hstart : ∀ s, start s = ⟨tok 1 s, ⟨[], kNone, false⟩, ⟨[], kNone⟩, noZone⟩ := fun _ => rfl
  cases ht with
  | @four _ v ht =>
    obtain ⟨hfour, hnext⟩ := peek_number (p := 1) (by decide) (by decide) ht hr
    refine ⟨1 + 4, ?_⟩
    rw [hstart, parseES5DateTime]
    rw [fixedLengthNumber_eq.1 hfour, isAsciiSign_number, if_neg Bool.false_ne_true, hnext]
    rfl
  | @plus t v ht =>
    obtain ⟨hpeek, hnext⟩ := peek_symbol (c := 43) 1 (t ++ r) (.inr (.inr (.inl rfl)))
    obtain ⟨hsix, hnext'⟩ := peek_number (p := 1 + 1) (by decide) (by decide) ht hr
    refine ⟨1 + 1 + 6, ?_⟩
    rw [hstart, parseES5DateTime, cons_append]
    dsimp only
    rw [hpeek, hnext, hsix, hnext']
    simp only [isSymbol_symbol, decide_true, if_true, Int.one_mul]
    rfl
  | @minus t v ht hv =>
    obtain ⟨hpeek, hnext⟩ := peek_symbol (c := 45) 1 (t ++ r) (.inr (.inl rfl))
    obtain ⟨hsix, hnext'⟩ := peek_number (p := 1 + 1) (by decide) (by decide) ht hr
    have hzero : ¬ ((-1 : Int) < 0 ∧ v = 0) := fun h => hv h.2
    refine ⟨1 + 1 + 6, ?_⟩
    rw [hstart, parseES5DateTime, cons_append]
    dsimp only
    rw [hpeek, hnext, hsix, hnext', isSymbol_symbol, decide_eq_false (by decide), if_neg Bool.false_ne_true]
    dsimp only
    rw [if_neg hzero, Int.neg_one_mul]
    rfl

/-- The fields of a date, where those that are missing are one. -/
def DateFields (comp : List Int) (y : Int) (m d : Nat) : Prop :=
  0 < comp.length ∧ comp ++ replicate (DayComposer.kSize - comp.length) 1 = [y, (m : Int), (d : Int)]

theorem date_complete (ht : Date t y m d) (hr : AfterDate r) :
    ∃ p comp, DateFields comp y m d ∧ parseES5DateTime (start (t ++ r)) =
      parseES5AfterDate ⟨tok p r, ⟨comp, kNone, false⟩, ⟨[], kNone⟩, noZone⟩ := by
  have hminus : ∀ cs : List Nat, NoDigit (45 :: cs) := fun _ => noDigit_cons (.inl (by decide))
  cases ht with
  | year hy =>
    obtain ⟨p, hparse⟩ := year_complete r hy hr.1
    refine ⟨p, [y], ⟨Nat.one_pos, rfl⟩, ?_⟩
    rw [hparse, afterYear_none p _ _ _ hr.2]
  | @month t u _ _ hy hu =>
    obtain ⟨p, hparse⟩ := year_complete (45 :: (u ++ r)) hy (hminus _)
    refine ⟨p + 1 + 2, [y, (m : Int)], ⟨Nat.two_pos, rfl⟩, ?_⟩
    rw [append_assoc, cons_append, hparse, afterYear_month p y _ _ hu hr.1,
      isSymbol_false hr.2, if_neg Bool.false_ne_true]
  | @day t u w _ _ _ hy hu hw =>
    obtain ⟨p, hparse⟩ := year_complete (45 :: (u ++ 45 :: (w ++ r))) hy (hminus _)
    obtain ⟨hpeek, hnext⟩ := peek_symbol (c := 45) (p + 1 + 2) (w ++ r) (.inr (.inl rfl))
    have hsize : [y, (m : Int)].length < DayComposer.kSize := show 2 < 3 by decide
    refine ⟨p + 1 + 2 + 1 + 2, [y, (m : Int), (d : Int)], ⟨Nat.succ_pos 2, rfl⟩, ?_⟩
    rw [show t ++ 45 :: (u ++ 45 :: w) ++ r = t ++ 45 :: (u ++ 45 :: (w ++ r)) by simp, hparse,
      afterYear_month p y _ _ hu (hminus _), hpeek, isSymbol_symbol, decide_eq_true rfl, if_pos rfl,
      hnext, component_complete _ _ _ _ hw (show DayComposer.isDay d = _ from rfl) hr.1 hsize]
    rfl

/-! ## What is written -/

theorem year_bounds (h : Year t y) : -999999 ≤ y ∧ y ≤ 999999 := by
  have hlt : ∀ {n v : Nat} {w : List Nat}, Numeral n w v → v < 10 ^ n := by
    intro n v w hw
    have hlt := value_lt hw.digits
    rwa [hw.value_eq, hw.length_eq] at hlt
  cases h with
  | four ht =>
    have hlt := hlt ht
    omega
  | plus ht =>
    have hlt := hlt ht
    omega
  | minus ht _ =>
    have hlt := hlt ht
    omega

theorem date_bounds (h : Date t y m d) : (-999999 ≤ y ∧ y ≤ 999999) ∧ (1 ≤ m ∧ m ≤ 12) ∧ 1 ≤ d ∧ d ≤ 31 := by
  cases h with
  | year hy => exact ⟨year_bounds hy, by decide, by decide⟩
  | month hy hm => exact ⟨year_bounds hy, ⟨hm.le, hm.ge⟩, by decide⟩
  | day hy hm hd => exact ⟨year_bounds hy, ⟨hm.le, hm.ge⟩, hd.le, hd.ge⟩

theorem day_write (wide : Bool) (ht : Date t y m d) (hcomp : DateFields comp y m d) :
    DayComposer.write wide ⟨comp, kNone, true⟩ = some (y, (m : Int) - 1, (d : Int)) := by
  obtain ⟨hpos, hfields⟩ := hcomp
  obtain ⟨hy, hm, hd⟩ := date_bounds ht
  have hmonth : DayComposer.isMonth m = true := decide_eq_true ⟨by omega, by omega⟩
  have hday : DayComposer.isDay d = true := decide_eq_true ⟨by omega, by omega⟩
  have heq : DayComposer.fields ⟨comp, kNone, true⟩ = (y, (m : Int), (d : Int)) := by
    simp only [DayComposer.fields, hfields]
    rfl
  rw [DayComposer.write, if_neg (Nat.not_lt.2 hpos), heq]
  simp [smiIsValid_of wide (n := y) (by omega) (by omega), hmonth, hday]

/-- A time is written if its hour is not the end of the day. -/
theorem time_write {h sec ms : Nat}
    (hcomp : TimeComposer.fill comp = [(h : Int), m, sec, ms]) (hm : m ≤ 59) (hsec : sec ≤ 59)
    (hms : ms ≤ 999) :
    TimeComposer.write ⟨comp, kNone⟩ =
      if h ≤ 23 then some ((h : Int), (m : Int), (sec : Int), (ms : Int)) else none := by
  have hminute : TimeComposer.isMinute m = true := decide_eq_true ⟨by omega, by omega⟩
  have hsnd : TimeComposer.isSecond sec = true := decide_eq_true ⟨by omega, by omega⟩
  have hmillisecond : TimeComposer.isMillisecond ms = true := decide_eq_true ⟨by omega, by omega⟩
  have hhour : TimeComposer.isHour h = decide (h ≤ 23) :=
    decide_eq_decide.2 ⟨fun hh => by omega, fun hh => ⟨by omega, by omega⟩⟩
  rw [TimeComposer.write, hcomp]
  grind

theorem thousandths_le {f : List Nat} (hf : ∀ c ∈ f, Digit c) : thousandths f ≤ 999 := by
  have hdigs : ∀ c ∈ (f ++ [48, 48, 48]).take 3, Digit c := by
    intro c hc
    rcases mem_append.1 (mem_of_mem_take hc) with hc | hc
    · exact hf c hc
    · simp only [mem_cons, not_mem_nil, or_false, or_self] at hc
      rw [hc]
      exact ⟨by decide, by decide⟩
  have hlt := value_lt hdigs
  have hlen : ((f ++ [48, 48, 48]).take 3).length = 3 := by
    simp
  rw [hlen] at hlt
  exact Nat.le_of_lt_succ hlt

/-- Seconds and milliseconds in their ranges. -/
theorem seconds_fields (hw : Seconds w fields) (h m : Int) :
    ∃ sec ms : Nat, TimeComposer.fill (h :: m :: fields) = [h, m, (sec : Int), (ms : Int)] ∧
      sec ≤ 59 ∧ ms ≤ 999 := by
  cases hw with
  | none => exact ⟨0, 0, rfl, by decide, by decide⟩
  | whole hsec => exact ⟨_, 0, rfl, hsec.ge, by decide⟩
  | fraction hsec _ hf => exact ⟨_, _, rfl, hsec.ge, thousandths_le hf⟩

theorem parse_of_finish {str : List Nat} {s : State}
    (h : parseES5DateTime (start str) = finishES5 s) : parse wide str = write wide (finishES5 s).2 := by
  rw [parse, h]
  rfl

theorem finish_write (wide : Bool) {time : List Int} {scanner : DateStringTokenizer} {hour minute sec ms : Nat} (ht : Date t y m d)
    (hcomp : DateFields comp y m d)
    (htime : TimeComposer.fill time = [(hour : Int), minute, sec, ms]) (hminute : minute ≤ 59)
    (hsec : sec ≤ 59) (hms : ms ≤ 999) (hz : ZoneGives tz offset) :
    write wide (finishES5 ⟨scanner, ⟨comp, kNone, false⟩, ⟨time, kNone⟩, tz⟩).2 =
      if hour ≤ 23 then some ⟨y, (m : Int) - 1, d, hour, minute, sec, ms, some offset⟩ else none := by
  rw [finishES5, write]
  rw [day_write wide ht hcomp, time_write htime hminute hsec hms, hz wide]
  grind

/-- What the part after the separator accepts. -/
theorem time_sound {token : DateToken}
    (h : parseES5Time ⟨tok p r, day, ⟨[], kNone⟩, noZone⟩ = (token, s')) (htoken : token ≠ .invalid) :
    ∃ a u w hour minute fields o offset r' p' tz, r = a ++ 58 :: (u ++ w) ++ (o ++ r') ∧
      InRange 0 24 a hour ∧ InRange 0 59 u minute ∧ Seconds w fields ∧ Offset o offset ∧ Ended r' ∧
        ZoneGives tz offset ∧ (token, s') =
          finishES5 ⟨tok p' r', day, ⟨(hour : Int) :: (minute : Int) :: fields, kNone⟩, tz⟩ := by
  rw [parseES5Time] at h
  split at h
  case h_1 => exact (htoken (Prod.mk.inj h).1.symm).elim
  case h_2 s₁ hday =>
    obtain ⟨a, u, w, hour, minute, fields, r₁, p₁, rfl, ha, hu, hw, rfl⟩ := timeOfDay_sound hday
    split at h
    case h_1 => exact (htoken (Prod.mk.inj h).1.symm).elim
    case h_2 s₂ hzone =>
      obtain ⟨o, offset, r', p', tz, rfl, ho, hz, rfl⟩ := timeZone_sound hzone
      split at h
      case isTrue => exact (htoken (Prod.mk.inj h).1.symm).elim
      case isFalse hend =>
        exact ⟨a, u, w, hour, minute, fields, o, offset, r', p', tz, rfl, ha, hu, hw, ho,
          ended_of_peek (Classical.not_not.1 hend), hz, h.symm⟩

theorem time_complete (p : Nat) {a o : List Nat} {hour minute : Nat} (day : DayComposer) (ha : InRange 0 24 a hour) (hhour : hour ≤ 23)
    (hu : InRange 0 59 u minute) (hw : Seconds w fields) (ho : Offset o offset) (hr : Ended r) :
    ∃ p' tz, ZoneGives tz offset ∧
      parseES5Time ⟨tok p (a ++ 58 :: (u ++ w) ++ (o ++ r)), day, ⟨[], kNone⟩, noZone⟩ =
        finishES5 ⟨tok p' r, day, ⟨(hour : Int) :: (minute : Int) :: fields, kNone⟩, tz⟩ := by
  obtain ⟨p₁, hday⟩ := timeOfDay_complete p day noZone ha hhour hu hw (stops_offset ho hr)
  obtain ⟨p', tz, hzone, hz⟩ := timeZone_complete p₁ day ⟨(hour : Int) :: (minute : Int) :: fields, kNone⟩ ho hr
  refine ⟨p', tz, hz, ?_⟩
  simp_all [parseES5Time, peek_ended]

/-- Behind the date, where there is no more to read. -/
theorem afterDate_ended (day : DayComposer) (hr : Ended r) :
    parseES5AfterDate ⟨tok p r, day, ⟨[], kNone⟩, noZone⟩ = finishES5 ⟨tok p r, day, ⟨[], kNone⟩, noZone⟩ := by
  rw [parseES5AfterDate]
  rw [peek_ended hr]
  rfl

theorem afterDate_separator (day : DayComposer) (hc : Separator c) (hr : NoLetter r) :
    parseES5AfterDate ⟨tok p (c :: r), day, ⟨[], kNone⟩, noZone⟩ =
      parseES5Time ⟨tok (p + 1) r, day, ⟨[], kNone⟩, noZone⟩ := by
  obtain ⟨hpeek, hnext⟩ := peek_separator p hc hr
  rw [parseES5AfterDate]
  rw [hpeek, hnext]
  rfl

/-- A word that goes on behind the separator goes back to the legacy parser, which does not take it
after a number. -/
theorem afterDate_word (day : DayComposer) (hc : Separator c) (hr : ¬ NoLetter r) : ∃ value length s,
      parseES5AfterDate ⟨tok p (c :: r), day, ⟨[], kNone⟩, noZone⟩ =
        (.keyword .invalid value length, s) ∧ s.day = day := by
  obtain ⟨value, length, hpeek⟩ := peek_separator_word p hc hr
  refine ⟨value, length, ⟨(tok p (c :: r)).next, day, ⟨[], kNone⟩, noZone⟩, ?_, rfl⟩
  rw [parseES5AfterDate]
  rw [hpeek]
  rfl

theorem parse_of_word {str : List Nat} {value : Int} {length : Nat} {s : State}
    (h : parseES5DateTime (start str) = (.keyword .invalid value length, s))
    (hday : s.day.isEmpty = false) : parse wide str = none := by
  rw [parse, h]
  dsimp only
  rw [hday]
  rfl

/-! ## Dates with times -/

theorem afterDate_of_separator (r : List Nat) (hc : Separator c) : AfterDate (c :: r) := by
  refine ⟨noDigit_cons (by rcases hc with rfl | rfl <;> decide), ?_⟩
  show c ≠ 45
  rcases hc with rfl | rfl <;> decide

/-- A date and the separator of a time. -/
def StartsDateTime (s : List Nat) : Prop :=
  ∃ d c r y m day, s = d ++ c :: r ∧ Date d y m day ∧ Separator c

/-- The fields as they are handed out: months are counted from zero. -/
def outputOf (m : Moment) : Output :=
  ⟨m.year, (m.month : Int) - 1, m.day, m.hour, m.minute, m.second, m.millisecond, some m.offset⟩

theorem parse_sound {s : List Nat} {out : Output} (hs : StartsDateTime s) (h : parse wide s = some out) :
    ∃ t r m, s = t ++ r ∧ Ended r ∧ DateTime t m ∧ m.hour ≤ 23 ∧ out = outputOf m := by
  obtain ⟨d, c, r, y, m, day, rfl, hd, hc⟩ := hs
  obtain ⟨p, comp, hcomp, hdate⟩ := date_complete hd (afterDate_of_separator r hc)
  by_cases hr : NoLetter r
  case neg =>
    obtain ⟨value, length, s', hword, hday⟩ := afterDate_word ⟨comp, kNone, false⟩ hc hr
    have hempty : s'.day.isEmpty = false := by
      rw [hday]
      exact decide_eq_false (Nat.pos_iff_ne_zero.1 hcomp.1)
    rw [parse_of_word (hdate.trans hword) hempty] at h
    nomatch h
  rw [afterDate_separator _ hc hr] at hdate
  obtain ⟨token, s', htime⟩ : ∃ token s', parseES5Time
      ⟨tok (p + 1) r, ⟨comp, kNone, false⟩, ⟨[], kNone⟩, noZone⟩ = (token, s') := ⟨_, _, rfl⟩
  by_cases htoken : token = .invalid
  · rw [parse, hdate, htime] at h
    grind
  obtain ⟨a, u, w, hour, minute, fields, o, offset, r', p', tz, rfl, ha, hu, hw, ho, hend, hz, hfin⟩ :=
    time_sound htime htoken
  obtain ⟨sec, ms, hfill, hsec, hms⟩ := seconds_fields hw hour minute
  rw [parse_of_finish (hdate.trans (htime.trans hfin)),
    finish_write wide hd hcomp hfill hu.ge hsec hms hz] at h
  split at h
  case isFalse => nomatch h
  case isTrue hhour =>
    refine ⟨d ++ c :: (a ++ 58 :: (u ++ w) ++ o), r', ⟨y, m, day, hour, minute, sec, ms, offset⟩,
      by simp, hend, ?_, hhour, (Option.some.inj h).symm⟩
    exact ⟨d, c, _, o, rfl, hd, hc, (time_iff hhour).2 ⟨a, u, w, fields, rfl, ha, hu, hw, hfill⟩, ho⟩

theorem parse_complete (wide : Bool) {m : Moment} (hr : Ended r) (ht : DateTime t m)
    (hhour : m.hour ≤ 23) : parse wide (t ++ r) = some (outputOf m) := by
  obtain ⟨d, c, t', o, rfl, hd, hc, ht', ho⟩ := ht
  obtain ⟨a, u, w, fields, rfl, ha, hu, hw, hfill⟩ := (time_iff hhour).1 ht'
  obtain ⟨sec, ms, hfill', hsec, hms⟩ := seconds_fields hw m.hour m.minute
  rw [hfill] at hfill'
  simp only [List.cons.injEq, and_true, true_and] at hfill'
  have hletter : NoLetter (a ++ 58 :: (u ++ w) ++ (o ++ r)) := by
    obtain ⟨c', a', rfl⟩ : ∃ c' a', a = c' :: a' := by
      cases a with
      | nil => nomatch ha.numeral.length_eq
      | cons c' a' => exact ⟨c', a', rfl⟩
    have hdigit := (ha.numeral.digits c' mem_cons_self).2
    show c' < 65
    omega
  obtain ⟨p, comp, hcomp, hdate⟩ := date_complete hd (afterDate_of_separator
    (a ++ 58 :: (u ++ w) ++ (o ++ r)) hc)
  obtain ⟨p', tz, hz, htime⟩ := time_complete (p + 1) ⟨comp, kNone, false⟩ ha hhour hu hw ho hr
  rw [afterDate_separator _ hc hletter, htime] at hdate
  rw [show d ++ c :: (a ++ 58 :: (u ++ w) ++ o) ++ r = d ++ c :: (a ++ 58 :: (u ++ w) ++ (o ++ r)) by simp,
    parse_of_finish hdate, finish_write wide hd hcomp hfill hu.ge (by omega) (by omega) hz,
    if_pos hhour]
  rfl

theorem parse_iff {s : List Nat} {out : Output} (hs : StartsDateTime s) : parse wide s = some out ↔
      ∃ t r m, s = t ++ r ∧ Ended r ∧ DateTime t m ∧ m.hour ≤ 23 ∧ out = outputOf m := by
  constructor
  · exact parse_sound hs
  · rintro ⟨t, r, m, rfl, hr, ht, hhour, rfl⟩
    exact parse_complete wide hr ht hhour

/-- A date alone is taken with a time and an offset of zero. -/
theorem parse_date (wide : Bool) (ht : Date t y m d) :
    parse wide t = some ⟨y, (m : Int) - 1, d, 0, 0, 0, 0, some 0⟩ := by
  have hnil : AfterDate [] := ⟨fun h => absurd h.1 (by decide), by decide⟩
  obtain ⟨p, comp, hcomp, hdate⟩ := date_complete ht hnil
  rw [append_nil, afterDate_ended _ (show Ended [] from rfl)] at hdate
  have htime : TimeComposer.fill [] = [((0 : Nat) : Int), ((0 : Nat) : Int), ((0 : Nat) : Int),
    ((0 : Nat) : Int)] := rfl
  rw [parse_of_finish hdate, finish_write wide ht hcomp htime (by decide) (by decide) (by decide)
    zoneGives_none]
  rfl

/-- What the parser says of a text is what the form says of it. -/
def Exact (wide : Bool) (s : List Nat) : Prop :=
  ∀ out, parse wide s = some out ↔ ∃ m, DateTime s m ∧ out = outputOf m

/-- The parser is exact on the texts that are no midnight at the end of a day and have no shorter
date with a time up to a zero, and dates alone start their day. -/
theorem exact_iff (wide : Bool) : (∀ s, StartsDateTime s → (Exact wide s ↔ (¬ ∃ m, DateTime s m ∧ m.hour = 24) ∧
        ¬ ∃ t r m, s = t ++ 0 :: r ∧ DateTime t m ∧ m.hour ≤ 23)) ∧
      ∀ s y m d, Date s y m d → parse wide s = some ⟨y, (m : Int) - 1, d, 0, 0, 0, 0, some 0⟩ := by
  refine ⟨fun s hs => ⟨fun hexact => ⟨?_, ?_⟩, ?_⟩, fun s y m d hd => parse_date wide hd⟩
  · rintro ⟨m, hm, h24⟩
    obtain ⟨t, r, m', -, -, -, hhour, hout⟩ :=
      (parse_iff hs).1 ((hexact (outputOf m)).2 ⟨m, hm, rfl⟩)
    have heq : (m.hour : Int) = m'.hour := congrArg Output.hour hout
    omega
  · rintro ⟨t, r, m, rfl, hm, hhour⟩
    have hparse := parse_complete wide (r := 0 :: r) rfl hm hhour
    obtain ⟨m', hm', -⟩ := (hexact (outputOf m)).1 hparse
    exact hm'.positive 0 (mem_append_right t mem_cons_self) rfl
  · rintro ⟨hmidnight, hzero⟩ out
    rw [parse_iff hs]
    constructor
    · rintro ⟨t, r, m, rfl, hr, hm, hhour, rfl⟩
      cases r with
      | nil => exact ⟨m, by rwa [append_nil], rfl⟩
      | cons c r =>
        obtain rfl : c = 0 := hr
        exact (hzero ⟨t, r, m, rfl, hm, hhour⟩).elim
    · rintro ⟨m, hm, rfl⟩
      refine ⟨s, [], m, (append_nil s).symm, rfl, hm, ?_, rfl⟩
      obtain ⟨_, _, _, _, _, _, _, ht, _⟩ := id hm
      have hle := ht.hour_le
      grind

/-- 2011-01-01 -/
def newYear : List Nat := [50, 48, 49, 49, 45, 48, 49, 45, 48, 49]

theorem numeral_newYear : Date newYear 2011 1 1 := by
  have hy : Year [50, 48, 49, 49] ((2011 : Nat) : Int) := .four ⟨rfl, by decide, rfl⟩
  have hm : InRange 1 12 [48, 49] 1 := ⟨⟨rfl, by decide, rfl⟩, by decide, by decide⟩
  have hd : InRange 1 31 [48, 49] 1 := ⟨⟨rfl, by decide, rfl⟩, by decide, by decide⟩
  exact .day hy hm hd

/-- The time 24:00, the end of a day, is of the form but is not taken. -/
theorem end_of_day_rejected : StartsDateTime (newYear ++ [84, 50, 52, 58, 48, 48]) ∧
      DateTime (newYear ++ [84, 50, 52, 58, 48, 48]) ⟨2011, 1, 1, 24, 0, 0, 0, 0⟩ ∧
        parse true (newYear ++ [84, 50, 52, 58, 48, 48]) = none := by
  have hh : InRange 0 24 [50, 52] 24 := ⟨⟨rfl, by decide, rfl⟩, by decide, by decide⟩
  have hm : InRange 0 59 [48, 48] 0 := ⟨⟨rfl, by decide, rfl⟩, by decide, by decide⟩
  have ht : Time [50, 52, 58, 48, 48] 24 0 0 0 :=
    .minutes hh hm fun _ => ⟨rfl, rfl, fun c hc => (not_mem_nil hc).elim⟩
  refine ⟨⟨newYear, 84, [50, 52, 58, 48, 48], 2011, 1, 1, rfl, numeral_newYear, .inl rfl⟩, ?_, by decide +kernel⟩
  exact ⟨newYear, 84, [50, 52, 58, 48, 48], [], by rw [append_nil], numeral_newYear, .inl rfl, ht, .none⟩

theorem exact_iff_newYear : (Exact true (newYear ++ [84, 50, 52, 58, 48, 48]) ↔
      (¬ ∃ m, DateTime (newYear ++ [84, 50, 52, 58, 48, 48]) m ∧ m.hour = 24) ∧
        ¬ ∃ t r m, newYear ++ [84, 50, 52, 58, 48, 48] = t ++ 0 :: r ∧ DateTime t m ∧ m.hour ≤ 23) ∧
      parse true newYear = some ⟨2011, 0, 1, 0, 0, 0, 0, some 0⟩ :=
  ⟨(exact_iff true).1 _ ⟨newYear, 84, [50, 52, 58, 48, 48], 2011, 1, 1, rfl, numeral_newYear, .inl rfl⟩,
    (exact_iff true).2 newYear 2011 1 1 numeral_newYear⟩

end W16.DateParsing
