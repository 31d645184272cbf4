import W16.CanonicalRanges

/-!
# The code of a character class

`EmitCharClass` compiles a character class to tests of the current character. Jumps are forward,
to labels that are bound behind them.
-/
namespace W16.CharacterRanges

section Standard

def kSpaceRanges : List Nat :=
  [0x0009, 0x000D, 0x0020, 0x0020, 0x00A0, 0x00A0, 0x1680, 0x1680, 0x180E, 0x180E, 0x2000, 0x200A,
    0x2028, 0x2029, 0x202F, 0x202F, 0x205F, 0x205F, 0x3000, 0x3000]

def kWordRanges : List Nat := [0x30, 0x39, 0x41, 0x5A, 0x5F, 0x5F, 0x61, 0x7A]

def kDigitRanges : List Nat := [0x30, 0x39]

def kLineTerminatorRanges : List Nat := [0x000A, 0x000A, 0x000D, 0x000D, 0x2028, 0x2029]

def addClass : List Nat → List CharacterRange
  | from_ :: to_ :: elmv => ⟨from_, to_⟩ :: addClass elmv
  | _ => []

/-- The loop of `AddClassNegated`, with the character behind the last range. -/
def addClassNegated (last : Nat) : List Nat → List CharacterRange
  | from_ :: to_ :: elmv => ⟨last, from_ - 1⟩ :: addClassNegated (to_ + 1) elmv
  | _ => [⟨last, kMaxUC16CharCode⟩]

def addClassEscape (type : Char) : List CharacterRange :=
  match type with
  | 's' => addClass kSpaceRanges
  | 'S' => addClassNegated 0 kSpaceRanges
  | 'w' => addClass kWordRanges
  | 'W' => addClassNegated 0 kWordRanges
  | 'd' => addClass kDigitRanges
  | 'D' => addClassNegated 0 kDigitRanges
  | '.' => addClassNegated 0 kLineTerminatorRanges
  | '*' => [⟨0, 0xFFFF⟩]
  | 'n' => addClass kLineTerminatorRanges
  | _ => []

/-- The loop of `CompareInverseRanges`, behind the range that was read last. -/
def compareInverseFrom (range : CharacterRange) : List CharacterRange → List Nat → Bool
  | next :: ranges, from_ :: to_ :: specialClass =>
    if from_ ≠ range.to_ + 1 then false
    else if (to_ : Int) ≠ (next.from_ : Int) - 1 then false
    else compareInverseFrom next ranges specialClass
  | _, _ => range.to_ = 0xFFFF

def compareInverseRanges (ranges : List CharacterRange) (specialClass : List Nat) : Bool :=
  match ranges with
  | range :: rest =>
    if ranges.length ≠ specialClass.length / 2 + 1 then false
    else if range.from_ ≠ 0 then false
    else compareInverseFrom range rest specialClass
  | [] => false

def compareRanges : List CharacterRange → List Nat → Bool
  | range :: ranges, from_ :: to_ :: specialClass =>
    if range.from_ ≠ from_ || range.to_ ≠ to_ then false else compareRanges ranges specialClass
  | [], [] => true
  | _, _ => false

/-- A character class, by the constructor that made it. -/
inductive RegExpCharacterClass where
  | ofRanges (ranges : List CharacterRange) (isNegated : Bool)
  | ofType (type : Char)
  deriving DecidableEq, Repr

def RegExpCharacterClass.ranges : RegExpCharacterClass → List CharacterRange
  | ofRanges ranges _ => ranges
  | ofType type => addClassEscape type

def RegExpCharacterClass.isNegated : RegExpCharacterClass → Bool
  | ofRanges _ isNegated => isNegated
  | ofType _ => false

/-- The `standard_type` of a class for which `is_standard` holds. -/
def RegExpCharacterClass.standardType : RegExpCharacterClass → Option Char
  | ofType type => some type
  | ofRanges ranges isNegated =>
    if isNegated then none
    else if compareRanges ranges kSpaceRanges then some 's'
    else if compareInverseRanges ranges kSpaceRanges then some 'S'
    else if compareInverseRanges ranges kLineTerminatorRanges then some '.'
    else if compareRanges ranges kLineTerminatorRanges then some 'n'
    else if compareRanges ranges kWordRanges then some 'w'
    else if compareInverseRanges ranges kWordRanges then some 'W'
    else none

end Standard

section Assembler

inductive Label where
  | onFailure
  | success
  | nextRange (i : Nat)
  deriving DecidableEq, Repr

/-- The operations of the macro assembler. -/
inductive Instruction where
  | goTo (label : Label)
  | checkPosition (cpOffset : Int) (onOutsideInput : Label)
  | loadCurrentCharacter (cpOffset : Int) (onEndOfInput : Label) (checkBounds : Bool)
  | checkCharacter (c : Nat) (onEqual : Label)
  | checkNotCharacter (c : Nat) (onNotEqual : Label)
  | checkCharacterLT (limit : Nat) (onLess : Label)
  | checkCharacterGT (limit : Nat) (onGreater : Label)
  | checkSpecialCharacterClass (type : Char) (onNoMatch : Label)
  | bind (label : Label)
  deriving DecidableEq, Repr

/-- What the assembler has of its own: the classes that it can check, and what it takes for their
characters. -/
structure MacroAssembler where
  checks : Char → Bool
  accepts : Char → Nat → Bool

inductive Outcome where
  | passed
  | failed
  | unbound
  | outside
  deriving DecidableEq, Repr

/-- A subject and a position in it. -/
structure Input where
  subject : List Nat
  position : Int

/-- The character at an offset from the current position. -/
def Input.charAt (input : Input) (cpOffset : Int) : Option Nat :=
  if 0 ≤ input.position + cpOffset then input.subject[(input.position + cpOffset).toNat]? else none

/-- The code from an instruction on, or, during a jump, from the label on. -/
def run (M : MacroAssembler) (input : Input) : Option Label → Nat → List Instruction → Outcome
  | none, _, [] => .passed
  | some label, _, [] => if label = .onFailure then .failed else .unbound
  | some label, current, .bind bound :: code =>
    if label = bound then run M input none current code else run M input (some label) current code
  | some label, current, _ :: code => run M input (some label) current code
  | none, current, .goTo label :: code => run M input (some label) current code
  | none, current, .checkPosition cpOffset label :: code =>
    match input.charAt cpOffset with
    | some _ => run M input none current code
    | none => run M input (some label) current code
  | none, current, .loadCurrentCharacter cpOffset label checkBounds :: code =>
    match input.charAt cpOffset with
    | some c => run M input none c code
    | none => if checkBounds then run M input (some label) current code else .outside
  | none, current, .checkCharacter c label :: code =>
    run M input (if current = c then some label else none) current code
  | none, current, .checkNotCharacter c label :: code =>
    run M input (if current ≠ c then some label else none) current code
  | none, current, .checkCharacterLT limit label :: code =>
    run M input (if current < limit then some label else none) current code
  | none, current, .checkCharacterGT limit label :: code =>
    run M input (if current > limit then some label else none) current code
  | none, current, .checkSpecialCharacterClass type label :: code =>
    run M input (if M.accepts type current then none else some label) current code
  | none, current, .bind _ :: code => run M input none current code

end Assembler

section Emit

/-- One turn of the loop over the ranges before the last valid one. -/
def emitRange (maxChar : Nat) (charIsInClass : Label) (i : Nat) (range : CharacterRange) : List Instruction :=
  let from_ := range.from_
  if from_ > maxChar then []
  else
    let to_ := if range.to_ > maxChar then maxChar else range.to_
    (if to_ = from_ then [Instruction.checkCharacter to_ charIsInClass]
    else
      (if from_ ≠ 0 then [Instruction.checkCharacterLT from_ (.nextRange i)] else []) ++
        if to_ ≠ maxChar then [Instruction.checkCharacterLT (to_ + 1) charIsInClass]
        else [.goTo charIsInClass]) ++ [Instruction.bind (.nextRange i)]

def emitRanges (maxChar : Nat) (charIsInClass : Label) : Nat → List CharacterRange → List Instruction
  | _, [] => []
  | i, range :: ranges =>
    emitRange maxChar charIsInClass i range ++ emitRanges maxChar charIsInClass (i + 1) ranges

/-- The code for the last valid range. -/
def emitLastRange (maxChar : Nat) (isNegated : Bool) (range : CharacterRange) : List Instruction :=
  let from_ := range.from_
  let to_ := if range.to_ > maxChar then maxChar else range.to_
  if to_ = from_ then
    if isNegated then [.checkCharacter to_ .onFailure] else [.checkNotCharacter to_ .onFailure]
  else
    (if from_ ≠ 0 then
      if isNegated then [Instruction.checkCharacterLT from_ .success]
      else [.checkCharacterLT from_ .onFailure]
    else []) ++
    if to_ ≠ kMaxUC16CharCode then
      if isNegated then [Instruction.checkCharacterLT (to_ + 1) .onFailure]
      else [.checkCharacterGT to_ .onFailure]
    else if isNegated then [Instruction.goTo .onFailure] else []

/-- The number of ranges up to the last valid one. -/
def validRanges (ranges : List CharacterRange) (maxChar : Nat) : Nat → Nat
  | 0 => 0
  | count + 1 =>
    if (ranges.getD count default).from_ ≤ maxChar then count + 1
    else validRanges ranges maxChar count

def maxChar (ascii : Bool) : Nat := if ascii then kMaxAsciiCharCode else kMaxUC16CharCode

def emitCharClass (M : MacroAssembler) (cc : RegExpCharacterClass) (ascii : Bool)
    (cpOffset : Int) (checkOffset preloaded : Bool) : List Instruction :=
  let ranges := cc.ranges
  let max := maxChar ascii
  let charIsInClass : Label := if cc.isNegated then .onFailure else .success
  let checkPosition : List Instruction :=
    if checkOffset then [.checkPosition cpOffset .onFailure] else []
  match validRanges ranges max ranges.length with
  | 0 => (if cc.isNegated then [] else [Instruction.goTo .onFailure]) ++ checkPosition
  | lastValidRange + 1 =>
    if lastValidRange = 0 && !cc.isNegated && (ranges.getD 0 default).isEverything max then
      checkPosition
    else
      (if preloaded then [] else [Instruction.loadCurrentCharacter cpOffset .onFailure checkOffset]) ++
        match cc.standardType.filter M.checks with
        | some type => [.checkSpecialCharacterClass type .onFailure]
        | none =>
          emitRanges max charIsInClass 0 (ranges.take lastValidRange) ++
            emitLastRange max cc.isNegated (ranges.getD lastValidRange default) ++ [Instruction.bind .success]

end Emit

end W16.CharacterRanges

/-!
## The code of a character class decides membership

Each range is clipped to the alphabet of the subject, and the code falls through for the characters
of the class. A jump to a label skips the code before it.
-/
namespace W16.CharacterRanges

variable (M : MacroAssembler) (input : Input) {c max : Nat}

section Standard

variable {ranges : List CharacterRange} {table : List Nat}

theorem compareRanges_eq (h : compareRanges ranges table = true) : ranges = addClass table := by
  induction ranges, table using compareRanges.induct with
  | case1 range ranges from_ to_ table hne =>
    rw [compareRanges, if_pos hne] at h
    simp at h
  | case2 range ranges from_ to_ table heq ih =>
    rw [compareRanges, if_neg heq] at h
    have hrange : range = ⟨from_, to_⟩ := by
      cases range
      simpa using heq
    rw [addClass, ← ih h, hrange]
  | case3 => rfl
  | case4 ranges table hcons hnil => simp [compareRanges] at h

theorem compareInverseFrom_eq {range : CharacterRange} (hlen : ranges.length = table.length / 2)
    (h : compareInverseFrom range ranges table = true) :
    range :: ranges = addClassNegated range.from_ table := by
  induction range, ranges, table using compareInverseFrom.induct with
  | case1 range next ranges from_ to_ table hne =>
    rw [compareInverseFrom, if_pos hne] at h
    simp at h
  | case2 range next ranges from_ to_ table heq hne =>
    rw [compareInverseFrom, if_neg heq, if_pos hne] at h
    simp at h
  | case3 range next ranges from_ to_ table heq heq' ih =>
    rw [compareInverseFrom, if_neg heq, if_neg heq'] at h
    simp only [List.length_cons] at hlen
    have hnext : to_ + 1 = next.from_ := by omega
    have hrange : range = ⟨range.from_, from_ - 1⟩ := by
      have : range.to_ = from_ - 1 := by omega
      rw [← this]
    rw [addClassNegated, hnext, ← ih (by omega) h, ← hrange]
  | case4 ranges range table hcons =>
    have hlast : range = ⟨range.from_, kMaxUC16CharCode⟩ := by
      have : range.to_ = kMaxUC16CharCode := by
        simpa [compareInverseFrom, kMaxUC16CharCode] using h
      rw [← this]
    match ranges, table with
    | [], [] => rw [addClassNegated, ← hlast]; simp
    | [], [_] => rw [addClassNegated, ← hlast]; simp
    | [], _ :: _ :: _ =>
      grind
    | _ :: _, [] => simp at hlen
    | _ :: _, [_] => simp at hlen
    | next :: ranges, from_ :: to_ :: table => exact absurd rfl (hcons _ _ _ _ _ rfl)

theorem compareInverseRanges_eq
    (h : compareInverseRanges ranges table = true) : ranges = addClassNegated 0 table := by
  cases ranges with
  | nil => simp [compareInverseRanges] at h
  | cons range rest =>
    rw [compareInverseRanges] at h
    by_cases hlen : (range :: rest).length ≠ table.length / 2 + 1
    · rw [if_pos hlen] at h
      simp at h
    · by_cases hfrom : range.from_ ≠ 0
      · grind
      · rw [if_neg hlen, if_neg hfrom] at h
        simp only [List.length_cons, Decidable.not_not] at hlen hfrom
        rw [compareInverseFrom_eq (by omega) h, hfrom]

/-- `is_standard` recognizes only the ranges of its type, and no negated class. -/
theorem standardType_spec {cc : RegExpCharacterClass} {type : Char} (h : cc.standardType = some type) :
    cc.ranges = addClassEscape type ∧ cc.isNegated = false := by
  cases cc with
  | ofType type' =>
    obtain rfl : type' = type := by simpa [RegExpCharacterClass.standardType] using h
    exact ⟨rfl, rfl⟩
  | ofRanges ranges isNegated =>
    simp only [RegExpCharacterClass.standardType] at h
    split_ifs at h with hnegated hs hS hdot hn hw hW <;> cases h
    · exact ⟨compareRanges_eq hs, by simpa [RegExpCharacterClass.isNegated] using hnegated⟩
    · exact ⟨compareInverseRanges_eq hS, by simpa [RegExpCharacterClass.isNegated] using hnegated⟩
    · exact ⟨compareInverseRanges_eq hdot, by simpa [RegExpCharacterClass.isNegated] using hnegated⟩
    · exact ⟨compareRanges_eq hn, by simpa [RegExpCharacterClass.isNegated] using hnegated⟩
    · exact ⟨compareRanges_eq hw, by simpa [RegExpCharacterClass.isNegated] using hnegated⟩
    · exact ⟨compareInverseRanges_eq hW, by simpa [RegExpCharacterClass.isNegated] using hnegated⟩

end Standard

section Ranges

/-- The ranges behind the last valid one have no character of the alphabet. -/
theorem covered_validRanges (ranges : List CharacterRange) (hc : c ≤ max) (count : Nat)
    (hcount : count ≤ ranges.length) :
    Covered (ranges.take count) c ↔ Covered (ranges.take (validRanges ranges max count)) c := by
  induction count with
  | zero => rfl
  | succ n ih =>
    rw [validRanges]
    by_cases hvalid : (ranges.getD n default).from_ ≤ max
    · rw [if_pos hvalid]
    · rw [if_neg hvalid, ← ih (by omega)]
      have htake : ranges.take (n + 1) = ranges.take n ++ [ranges.getD n default] := by
        grind [List.take_add_one]
      rw [htake, covered_append, covered_cons]
      simp only [not_covered_nil, or_false, or_iff_left_iff_imp]
      omega

theorem validRanges_le (ranges : List CharacterRange) (max count : Nat) :
    validRanges ranges max count ≤ count := by
  induction count with
  | zero => exact Nat.le_refl 0
  | succ n ih =>
    rw [validRanges]
    split_ifs <;> omega

end Ranges

section Run

/-- A jump skips code that does not bind its label. -/
theorem run_skip {label : Label} {code : List Instruction} (hcode : .bind label ∉ code)
    (current : Nat) (rest : List Instruction) :
    run M input (some label) current (code ++ rest) = run M input (some label) current rest := by
  induction code with
  | nil => rfl
  | cons instruction code ih =>
    have hhead : instruction ≠ .bind label := fun h => hcode (by simp [h])
    have hrest := ih fun h => hcode (by simp [h])
    cases instruction with
    | bind bound =>
      simp_all [run]
    | _ =>
      rw [List.cons_append, run, hrest]
      simp

variable {charIsInClass : Label}

theorem bind_mem_emitRange {label : Label} {i : Nat} {range : CharacterRange}
    (h : .bind label ∈ emitRange max charIsInClass i range) : label = .nextRange i := by
  simp only [emitRange] at h
  split_ifs at h <;> simp at h
  all_goals exact h

theorem bind_mem_emitRanges {label : Label} {i : Nat} {ranges : List CharacterRange}
    (h : .bind label ∈ emitRanges max charIsInClass i ranges) : ∃ j, label = .nextRange j := by
  induction ranges generalizing i with
  | nil => simp [emitRanges] at h
  | cons range ranges ih =>
    rw [emitRanges, List.mem_append] at h
    rcases h with h | h
    · exact ⟨i, bind_mem_emitRange h⟩
    · exact ih h

/-- The code for a range jumps for its characters, and goes on for the others. -/
theorem run_emitRange (hlabel : ∀ i, charIsInClass ≠ .nextRange i)
    (hc : c ≤ max) (i : Nat) (range : CharacterRange) (rest : List Instruction) :
    run M input none c (emitRange max charIsInClass i range ++ rest) =
      run M input (if range.from_ ≤ c ∧ c ≤ range.to_ then some charIsInClass else none) c rest := by
  simp only [emitRange]
  by_cases hout : range.from_ > max
  · rw [if_pos hout, if_neg (by omega)]
    rfl
  · rw [if_neg hout]
    have hclip : c ≤ range.to_ ↔ c ≤ (if range.to_ > max then max else range.to_) := by
      split_ifs <;> omega
    have hmax : (if range.to_ > max then max else range.to_) ≤ max := by
      split_ifs <;> omega
    rw [if_congr (and_congr_right fun _ => hclip) rfl rfl]
    generalize (if range.to_ > max then max else range.to_) = to_ at hmax
    have hbind := hlabel i
    by_cases hone : to_ = range.from_
    · have hsame : range.from_ ≤ c ∧ c ≤ to_ ↔ c = to_ := by omega
      rw [if_congr hsame rfl rfl, if_pos hone]
      grind [run]
    · simp only [hone, if_false]
      by_cases hbefore : c < range.from_
      · -- the code for the end of the range is skipped
        have hzero : range.from_ ≠ 0 := by omega
        have hnot : ¬(range.from_ ≤ c ∧ c ≤ to_) := by omega
        simp only [hzero, ne_eq, not_false_eq_true, if_true, hnot, if_false]
        by_cases hlast : to_ = max <;> simp [hlast, run, hbefore]
      · -- past the first test, only the end of the range matters
        have hend : ∀ code, code = (if to_ ≠ max then [Instruction.checkCharacterLT (to_ + 1)
            charIsInClass] else [.goTo charIsInClass]) →
            run M input none c (code ++ .bind (.nextRange i) :: rest) =
              run M input (if c ≤ to_ then some charIsInClass else none) c rest := by
          grind [run]
        have hin : (range.from_ ≤ c ∧ c ≤ to_) ↔ c ≤ to_ := by omega
        rw [if_congr hin rfl rfl, ← hend _ rfl]
        grind [run]

/-- The code for the ranges before the last valid one jumps for their characters. -/
theorem run_emitRanges (hlabel : ∀ i, charIsInClass ≠ .nextRange i)
    (hc : c ≤ max) (ranges : List CharacterRange) (i : Nat) (rest : List Instruction) :
    (Covered ranges c → run M input none c (emitRanges max charIsInClass i ranges ++ rest) =
        run M input (some charIsInClass) c rest) ∧
    (¬Covered ranges c → run M input none c (emitRanges max charIsInClass i ranges ++ rest) =
        run M input none c rest) := by
  induction ranges generalizing i with
  | nil => simp [emitRanges]
  | cons range ranges ih =>
    have hrange := run_emitRange M input hlabel hc i range (emitRanges max charIsInClass (i + 1) ranges ++ rest)
    rw [emitRanges, List.append_assoc, covered_cons]
    by_cases hin : range.from_ ≤ c ∧ c ≤ range.to_
    · rw [if_pos hin] at hrange
      grind [run_skip, bind_mem_emitRanges]
    · rw [if_neg hin] at hrange
      grind

/-- The code for the last valid range and what follows it. -/
theorem run_emitLastRange (isNegated : Bool) (range : CharacterRange) (hc : c ≤ max)
    (hmax : max ≤ kMaxUC16CharCode) :
    run M input none c (emitLastRange max isNegated range ++ [Instruction.bind .success]) =
      if (decide (range.from_ ≤ c ∧ c ≤ range.to_) != isNegated) = true then .passed
      else .failed := by
  simp only [emitLastRange]
  have hclip : c ≤ range.to_ ↔ c ≤ (if range.to_ > max then max else range.to_) := by
    split_ifs <;> omega
  have hle : (if range.to_ > max then max else range.to_) ≤ max := by
    split_ifs <;> omega
  simp only [hclip]
  generalize (if range.to_ > max then max else range.to_) = to_ at hle
  by_cases hone : to_ = range.from_
  · grind [run]
  · simp only [hone, if_false]
    by_cases hbefore : c < range.from_
    · -- the end of the range is skipped, in a negated class up to the label for success
      grind [run]
    · have hfrom : range.from_ ≤ c := by omega
      have hend : ∀ code, code = (if to_ ≠ kMaxUC16CharCode then
            if isNegated = true then [Instruction.checkCharacterLT (to_ + 1) .onFailure]
            else [.checkCharacterGT to_ .onFailure]
          else if isNegated = true then [.goTo .onFailure] else []) →
          run M input none c (code ++ [Instruction.bind .success]) =
            if (decide (c ≤ to_) != isNegated) = true then .passed else .failed := by
        grind [run]
      simp only [hfrom, true_and]
      grind [run]

end Run

/-- What the assembler takes for the characters of a class that it can check. -/
def MacroAssembler.Correct (M : MacroAssembler) (max : Nat) : Prop :=
  ∀ type, M.checks type = true → ∀ c ≤ max, (M.accepts type c = true ↔ Covered (addClassEscape type) c)

/-- A character is in the class, or not in its ranges when the class is negated. -/
def RegExpCharacterClass.Contains (cc : RegExpCharacterClass) (c : Nat) : Prop :=
  Covered cc.ranges c ↔ cc.isNegated = false

section Tests

/-- The tests of the current character, behind the load. -/
def classTests (M : MacroAssembler) (cc : RegExpCharacterClass) (max lastValidRange : Nat) : List Instruction :=
  match cc.standardType.filter M.checks with
  | some type => [.checkSpecialCharacterClass type .onFailure]
  | none =>
    emitRanges max (if cc.isNegated then .onFailure else .success) 0 (cc.ranges.take lastValidRange) ++
      emitLastRange max cc.isNegated (cc.ranges.getD lastValidRange default) ++ [Instruction.bind .success]

/-- No test binds the label of the failure. -/
theorem run_classTests_failure (cc : RegExpCharacterClass) (lastValidRange current : Nat) :
    run M input (some .onFailure) current (classTests M cc max lastValidRange) = .failed := by
  have hbind : .bind .onFailure ∉ classTests M cc max lastValidRange := by
    intro hmem
    rw [classTests] at hmem
    cases hspecial : cc.standardType.filter M.checks with
    | some type => simp [hspecial] at hmem
    | none =>
      simp only [hspecial, List.mem_append, or_assoc] at hmem
      rcases hmem with hmem | hmem | hmem
      · obtain ⟨j, hj⟩ := bind_mem_emitRanges hmem
        simp at hj
      · grind [emitLastRange]
      · simp at hmem
  have hskip := run_skip M input hbind current []
  rw [List.append_nil] at hskip
  rw [hskip, run, if_pos rfl]

theorem run_classTests (hM : M.Correct max) (hmax : max ≤ kMaxUC16CharCode) (hc : c ≤ max)
    {cc : RegExpCharacterClass} {lastValidRange : Nat}
    (hvalid : validRanges cc.ranges max cc.ranges.length = lastValidRange + 1) :
    (cc.Contains c → run M input none c (classTests M cc max lastValidRange) = .passed) ∧
    (¬cc.Contains c → run M input none c (classTests M cc max lastValidRange) = .failed) := by
  rw [classTests]
  cases hspecial : cc.standardType.filter M.checks with
  | some type =>
    obtain ⟨htype, hchecks⟩ := Option.filter_eq_some_iff.1 hspecial
    have hstandard := standardType_spec htype
    have hacc := hM type hchecks c hc
    simp_all [RegExpCharacterClass.Contains, run]
  | none =>
    have hle := validRanges_le cc.ranges max cc.ranges.length
    have htake : cc.ranges.take (lastValidRange + 1) =
        cc.ranges.take lastValidRange ++ [cc.ranges.getD lastValidRange default] := by
      grind [List.take_add_one]
    have hcov := covered_validRanges cc.ranges hc cc.ranges.length (Nat.le_refl _)
    rw [List.take_length, hvalid, htake, covered_append, covered_cons] at hcov
    have hlabel : ∀ i, (if cc.isNegated then Label.onFailure else .success) ≠ .nextRange i := by
      split_ifs <;> simp
    have hbefore := run_emitRanges M input hlabel hc (cc.ranges.take lastValidRange) 0
      (emitLastRange max cc.isNegated (cc.ranges.getD lastValidRange default) ++ [Instruction.bind .success])
    have hlast := run_emitLastRange M input cc.isNegated (cc.ranges.getD lastValidRange default) hc hmax
    rw [RegExpCharacterClass.Contains, hcov]
    simp only [List.append_assoc]
    by_cases hin : Covered (cc.ranges.take lastValidRange) c
    · rw [hbefore.1 hin, run_skip]
      · cases hnegated : cc.isNegated <;> simp [hin, run]
      · intro hmem
        simp only [emitLastRange] at hmem
        split_ifs at hmem <;> simp at hmem
    · rw [hbefore.2 hin, hlast]
      by_cases hrange : (cc.ranges.getD lastValidRange default).from_ ≤ c ∧
          c ≤ (cc.ranges.getD lastValidRange default).to_ <;>
        cases hnegated : cc.isNegated <;> simp [hin]

end Tests

/-- The check of the position alone passes in the subject and fails outside. -/
theorem run_checkPosition (checkOffset : Bool) (cpOffset : Int) (current : Nat) :
    (∀ c, input.charAt cpOffset = some c → run M input none current
      (if checkOffset then [.checkPosition cpOffset .onFailure] else []) = .passed) ∧
    (input.charAt cpOffset = none → checkOffset = true → run M input none current
      (if checkOffset then [.checkPosition cpOffset .onFailure] else []) = .failed) := by
  grind -linarith [run]

/-- The code falls through for the characters of the class, and fails for the others and, if it
has to check the position, outside the subject. -/
theorem emitCharClass_decides (M : MacroAssembler) (ascii : Bool) (hM : M.Correct (maxChar ascii))
    (cc : RegExpCharacterClass) (cpOffset : Int) (checkOffset preloaded : Bool) (input : Input)
    (hwidth : ∀ c ∈ input.subject, c ≤ maxChar ascii) (current : Nat)
    (hpreloaded : preloaded = true → input.charAt cpOffset = some current) :
    (∀ c, input.charAt cpOffset = some c → (cc.Contains c →
        run M input none current (emitCharClass M cc ascii cpOffset checkOffset preloaded) = .passed) ∧
      (¬cc.Contains c → run M input none current (emitCharClass M cc ascii cpOffset checkOffset preloaded) =
          .failed)) ∧
    (input.charAt cpOffset = none → checkOffset = true →
      run M input none current (emitCharClass M cc ascii cpOffset checkOffset preloaded) = .failed) := by
  have hmax : maxChar ascii ≤ kMaxUC16CharCode := by
    cases ascii <;> simp [maxChar, kMaxAsciiCharCode, kMaxUC16CharCode]
  have hchar : ∀ c, input.charAt cpOffset = some c → c ≤ maxChar ascii := by
    intro c hc
    rw [Input.charAt] at hc
    split_ifs at hc
    exact hwidth c (List.mem_of_getElem? hc)
  have hposition := run_checkPosition M input checkOffset cpOffset current
  cases hvalid : validRanges cc.ranges (maxChar ascii) cc.ranges.length with
  | zero =>
    have hnone : ∀ c, input.charAt cpOffset = some c → ¬Covered cc.ranges c := by
      intro c hc
      have hcovered := covered_validRanges cc.ranges (hchar c hc) cc.ranges.length (Nat.le_refl _)
      rw [List.take_length, hvalid] at hcovered
      simpa using hcovered
    simp only [emitCharClass, hvalid]
    cases hnegated : cc.isNegated with
    | true =>
      have hin : ∀ c, input.charAt cpOffset = some c → cc.Contains c := by
        intro c hc
        simp [RegExpCharacterClass.Contains, hnegated, hnone c hc]
      grind -linarith
    | false =>
      have hfailed : run M input none current ([Instruction.goTo .onFailure] ++
          if checkOffset then [Instruction.checkPosition cpOffset .onFailure] else []) = .failed := by
        cases checkOffset <;> simp [run]
      have hin : ∀ c, input.charAt cpOffset = some c → ¬cc.Contains c := by
        intro c hc
        simp [RegExpCharacterClass.Contains, hnegated, hnone c hc]
      grind -linarith
  | succ lastValidRange =>
    by_cases hevery : (lastValidRange = 0 && !cc.isNegated &&
        (cc.ranges.getD 0 default).isEverything (maxChar ascii)) = true
    · have hemit : emitCharClass M cc ascii cpOffset checkOffset preloaded =
          if checkOffset then [.checkPosition cpOffset .onFailure] else [] := by
        simp only [emitCharClass, hvalid, hevery, if_true]
      have hin : ∀ c, input.charAt cpOffset = some c → cc.Contains c := by
        intro c hc
        have hle := validRanges_le cc.ranges (maxChar ascii) cc.ranges.length
        have hc := hchar c hc
        simp only [Bool.and_eq_true, decide_eq_true_eq, Bool.not_eq_true',
          CharacterRange.isEverything] at hevery
        refine iff_of_true ⟨cc.ranges.getD 0 default, ?_, by omega, by omega⟩ hevery.1.2
        grind -linarith
      grind -linarith
    · have hemit : emitCharClass M cc ascii cpOffset checkOffset preloaded =
          (if preloaded then [] else [Instruction.loadCurrentCharacter cpOffset .onFailure checkOffset]) ++
            classTests M cc (maxChar ascii) lastValidRange := by
        simp only [emitCharClass, hvalid, hevery, classTests]
        rfl
      rw [hemit]
      constructor
      · intro c hc
        have htests := run_classTests M input hM hmax (hchar c hc) hvalid
        have hload : run M input none current
            ((if preloaded then [] else [Instruction.loadCurrentCharacter cpOffset .onFailure checkOffset]) ++
              classTests M cc (maxChar ascii) lastValidRange) =
            run M input none c (classTests M cc (maxChar ascii) lastValidRange) := by
          cases preloaded with
          | true =>
            grind -linarith
          | false => simp [run, hc]
        rw [hload]
        exact htests
      · intro hnone hcheck
        cases preloaded with
        | true =>
          grind -linarith
        | false =>
          simp only [Bool.false_eq_true, if_false, List.cons_append, List.nil_append, run, hnone,
            hcheck, if_true]
          exact run_classTests_failure M input cc lastValidRange current

/-- An assembler that checks all classes with a name. -/
def checkingAssembler : MacroAssembler where
  checks type := type ∈ ['s', 'd', 'D', '.', 'n', 'w', 'W', '*']
  accepts type c := (addClassEscape type).any (·.contains c)

theorem checkingAssembler_correct (max : Nat) : checkingAssembler.Correct max := by
  intro type _ c _
  simp [checkingAssembler, CharacterRange.contains, Covered]

/-- No digit follows the letter at the position. -/
theorem emitCharClass_decides_letter : run checkingAssembler ⟨[0x61, 0x62], 0⟩ none 0
      (emitCharClass checkingAssembler (.ofType 'd') true 1 true false) = .failed := by
  have hdecides := (emitCharClass_decides checkingAssembler true (checkingAssembler_correct _)
    (.ofType 'd') 1 true false ⟨[0x61, 0x62], 0⟩ (by decide) 0 (by simp)).1 0x62 rfl
  refine hdecides.2 ?_
  simp [RegExpCharacterClass.Contains, RegExpCharacterClass.ranges, RegExpCharacterClass.isNegated,
    addClassEscape, addClass, kDigitRanges]

end W16.CharacterRanges
