import W16.CanonicalRanges

/-!
# Case equivalents of a range

A range is expanded block by block, and the loop stops before a last character that begins a
block.
-/
namespace W16.CharacterRanges

variable {T : CaseTables} {bottom top pos c d : Nat} {ranges : List CharacterRange}

/-- The last character of the block of a character. -/
def CaseTables.blockEnd (T : CaseTables) (c : Nat) : Nat := ((T.canonrange c).head?).getD c

/-- What a character is case-equivalent to. -/
def CaseTables.Equivalent (T : CaseTables) (c d : Nat) : Prop := d = c ∨ d ∈ T.uncanonicalize c

/-- What the tables of the isolate are for: the first gives the last character of a block, and all
characters of a block have the equivalents of the last one, at the same distance. -/
structure CaseTables.Blocks (T : CaseTables) : Prop where
  length_le : ∀ c ≤ kMaxUC16CharCode, (T.canonrange c).length ≤ 1
  le_blockEnd : ∀ c ≤ kMaxUC16CharCode, c ≤ T.blockEnd c ∧ T.blockEnd c ≤ kMaxUC16CharCode
  same_block : ∀ c d, c ≤ d → d ≤ T.blockEnd c → c ≤ kMaxUC16CharCode → T.blockEnd d = T.blockEnd c
  shifted : ∀ c ≤ kMaxUC16CharCode, T.uncanonicalize c =
    (T.uncanonicalize (T.blockEnd c)).map (· - (T.blockEnd c - c))
  no_underflow : ∀ c ≤ kMaxUC16CharCode, ∀ x ∈ T.uncanonicalize (T.blockEnd c), T.blockEnd c - c ≤ x
  characters : ∀ c ≤ kMaxUC16CharCode, ∀ x ∈ T.uncanonicalize c, x ≤ kMaxUC16CharCode

/-- What the ranges add to the characters from the first to the last. -/
def Adds (bottom top : Nat) (ranges result : List CharacterRange) (added : Nat → Prop) : Prop :=
  ∃ more, result = ranges ++ more ∧
    ∀ d, (bottom ≤ d ∧ d ≤ top ∨ Covered more d) ↔ (bottom ≤ d ∧ d ≤ top ∨ added d)

theorem Adds.nothing : Adds bottom top ranges ranges fun _ => False :=
  ⟨[], by simp, by simp⟩

theorem Adds.trans {ranges' ranges'' : List CharacterRange} {added added' : Nat → Prop}
    (h : Adds bottom top ranges ranges' added) (h' : Adds bottom top ranges' ranges'' added') :
    Adds bottom top ranges ranges'' fun d => added d ∨ added' d := by
  obtain ⟨more, rfl, hmore⟩ := h
  obtain ⟨more', rfl, hmore'⟩ := h'
  refine ⟨more ++ more', by simp, fun d => ?_⟩
  have := hmore d
  have := hmore' d
  rw [covered_append]
  grind

theorem Adds.congr {result : List CharacterRange} {added added' : Nat → Prop}
    (h : Adds bottom top ranges result added)
    (hsame : ∀ d, ¬(bottom ≤ d ∧ d ≤ top) → (added d ↔ added' d)) :
    Adds bottom top ranges result added' := by
  obtain ⟨more, hres, hmore⟩ := h
  refine ⟨more, hres, fun d => ?_⟩
  have := hmore d
  have := hsame d
  grind

theorem uc16_eq {value : Int} (h : 0 ≤ value) (h' : value ≤ kMaxUC16CharCode) : uc16 value = value.toNat := by
  simp only [kMaxUC16CharCode] at h'
  simp only [uc16]
  omega

theorem adds_foldl {xs : List Nat} {add : List CharacterRange → Nat → List CharacterRange}
    (addedBy : Nat → Nat → Prop)
    (hadd : ∀ ranges, ∀ x ∈ xs, Adds bottom top ranges (add ranges x) (addedBy x)) :
    Adds bottom top ranges (xs.foldl add ranges) fun d => ∃ x ∈ xs, addedBy x d := by
  induction xs generalizing ranges with
  | nil => simpa using Adds.nothing
  | cons x xs ih =>
    have hrest := @ih (add ranges x) fun ranges y hy => hadd ranges y (by simp [hy])
    refine ((hadd ranges x (by simp)).trans hrest).congr fun d _ => ?_
    simp

/-- The characters of a block behind a position have their equivalents at the same distance. -/
theorem CaseTables.Blocks.mem_uncanonicalize (hT : T.Blocks) (hpos : pos ≤ c)
    (hc : c ≤ T.blockEnd pos) (hmax : pos ≤ kMaxUC16CharCode) :
    d ∈ T.uncanonicalize c ↔ ∃ x ∈ T.uncanonicalize (T.blockEnd pos), x - (T.blockEnd pos - c) = d := by
  have hend := (hT.le_blockEnd pos hmax).2
  have hsame := hT.same_block pos c hpos hc hmax
  rw [hT.shifted c (by omega), hsame]
  simp

/-- A block adds the equivalents of its characters. -/
theorem addBlock_adds (hT : T.Blocks) (hpos : pos ≤ top) (htop : top ≤ kMaxUC16CharCode) :
    Adds bottom top ranges (addBlock T bottom top pos (T.blockEnd pos) ranges)
      fun d => ∃ c, pos ≤ c ∧ c ≤ min (T.blockEnd pos) top ∧ d ∈ T.uncanonicalize c := by
  have hblock := hT.le_blockEnd pos (by omega)
  have hunder := hT.no_underflow pos (by omega)
  have hmax := hT.characters (T.blockEnd pos) hblock.2
  have hmem : ∀ c d, pos ≤ c → c ≤ T.blockEnd pos → pos ≤ kMaxUC16CharCode → (_ ↔ _) :=
    fun c d => hT.mem_uncanonicalize (d := d)
  generalize T.blockEnd pos = blockEnd at hblock hunder hmax hmem ⊢
  have hend : (if blockEnd > top then top else blockEnd) = min blockEnd top := by
    by_cases h : blockEnd > top
    · rw [if_pos h, Nat.min_eq_right (by omega)]
    · rw [if_neg h, Nat.min_eq_left (by omega)]
  rw [addBlock, hend]
  generalize hlast : min blockEnd top = last
  refine (adds_foldl (fun x d => x - (blockEnd - pos) ≤ d ∧ d ≤ x - (blockEnd - last))
    fun ranges x hx => ?_).congr fun d _ => ?_
  · have hx' := hunder x hx
    have hxmax := hmax x hx
    have hfrom : uc16 ((x : Int) - ((blockEnd : Int) - pos)) = x - (blockEnd - pos) := by
      rw [uc16_eq (by omega) (by omega)]
      omega
    have hto : uc16 ((x : Int) - ((blockEnd : Int) - last)) = x - (blockEnd - last) := by
      rw [uc16_eq (by omega) (by omega)]
      omega
    simp only [hfrom, hto]
    by_cases hin : bottom ≤ x - (blockEnd - pos) ∧ x - (blockEnd - last) ≤ top
    · simp only [hin, decide_true, Bool.and_self, if_true]
      refine Adds.nothing.congr fun d hd => ?_
      simp only [false_iff]
      omega
    · have hadd : ¬((decide (bottom ≤ x - (blockEnd - pos)) &&
          decide (x - (blockEnd - last) ≤ top)) = true) := by simpa using hin
      rw [if_neg hadd]
      exact ⟨_, rfl, by simp⟩
  · constructor
    · rintro ⟨x, hx, hfrom, hto⟩
      have hx' := hunder x hx
      refine ⟨blockEnd - (x - d), by omega, by omega, ?_⟩
      grind
    grind

/-- Where the loop stops: before the last character when that one begins a block. -/
def stop (T : CaseTables) (pos top : Nat) : Nat :=
  if pos = top ∨ pos < top ∧ T.blockEnd (top - 1) = top - 1 then top else top + 1

theorem le_stop (h : pos ≤ top + 1) : pos ≤ stop T pos top ∧ stop T pos top ≤ top + 1 := by
  rw [stop]
  split_ifs <;> omega

/-- The loop goes on behind a block as it would have from the first character of the block. -/
theorem stop_next (hT : T.Blocks) (hlt : pos < top) (htop : top ≤ kMaxUC16CharCode) :
    stop T (min (T.blockEnd pos) top + 1) top = stop T pos top := by
  by_cases hbeyond : top ≤ T.blockEnd pos
  · have hsame := hT.same_block pos (top - 1) (by omega) (by omega) (by omega)
    rw [Nat.min_eq_right hbeyond, stop, stop, if_neg (by omega), if_neg (by omega)]
  · rw [Nat.min_eq_left (by omega), stop, stop]
    by_cases hlast : T.blockEnd (top - 1) = top - 1
    · rw [if_pos (by omega), if_pos (by omega)]
    · have hne : T.blockEnd pos + 1 ≠ top := by
        intro heq
        have hsame := hT.same_block pos (top - 1) (by omega) (by omega) (by omega)
        omega
      rw [if_neg (by omega), if_neg (by omega)]

theorem addBlocks_adds (hT : T.Blocks) (htop : top ≤ kMaxUC16CharCode) (fuel : Nat)
    (hpos : pos ≤ top + 1) (hfuel : top < pos + fuel) :
    Adds bottom top ranges (addBlocks T bottom top fuel pos ranges)
      fun d => ∃ c, pos ≤ c ∧ c < stop T pos top ∧ d ∈ T.uncanonicalize c := by
  induction fuel generalizing pos ranges with
  | zero =>
    refine Adds.nothing.congr fun d _ => ?_
    have hstop := (le_stop (T := T) hpos).2
    simp only [false_iff]
    omega
  | succ fuel ih =>
    by_cases hlt : pos < top
    · have hblock := hT.le_blockEnd pos (by omega)
      have hend : (if T.blockEnd pos > top then top else T.blockEnd pos) = min (T.blockEnd pos) top := by
        by_cases h : T.blockEnd pos > top
        · rw [if_pos h, Nat.min_eq_right (by omega)]
        · rw [if_neg h, Nat.min_eq_left (by omega)]
      have hbds := @le_stop T top (min (T.blockEnd pos) top + 1) (by omega)
      have hrest := @ih (min (T.blockEnd pos) top + 1)
        (addBlock T bottom top pos (T.blockEnd pos) ranges) (by omega) (by omega)
      rw [stop_next hT hlt htop] at hrest hbds
      have hboth := (addBlock_adds hT (Nat.le_of_lt hlt) htop).trans hrest
      rw [addBlocks, if_pos hlt]
      dsimp only
      rw [← CaseTables.blockEnd, hend]
      refine hboth.congr fun d _ => ?_
      constructor
      · grind
      · grind
    · rw [addBlocks, if_neg hlt]
      refine Adds.nothing.congr fun d _ => ?_
      simp only [false_iff, stop]
      grind

/-- The last character that is expanded. -/
def CharacterRange.lastExpanded (range : CharacterRange) (isAscii : Bool) : Nat :=
  if isAscii then min range.to_ kMaxAsciiCharCode else range.to_

/-- The last character begins a block, and one of its equivalents is neither in the range nor
equivalent to a character before it. -/
def MissesLast (T : CaseTables) (bottom top : Nat) : Prop :=
  bottom < top ∧ T.blockEnd (top - 1) = top - 1 ∧ ∃ d, T.Equivalent top d ∧ ¬(bottom ≤ d ∧ d ≤ top) ∧
      ∀ c, bottom ≤ c → c < top → ¬T.Equivalent c d

/-- What the code adds, up to where its loop stops. -/
theorem addCaseEquivalents_adds (hT : T.Blocks) {range : CharacterRange}
    (hto : range.to_ ≤ kMaxUC16CharCode) (isAscii : Bool) (ranges : List CharacterRange) :
    Adds range.from_ (range.lastExpanded isAscii) ranges (range.addCaseEquivalents T isAscii ranges) fun d =>
      ∃ c, range.from_ ≤ c ∧ c ≤ range.lastExpanded isAscii ∧ (range.from_ < range.lastExpanded isAscii →
          c < stop T range.from_ (range.lastExpanded isAscii)) ∧ d ∈ T.uncanonicalize c := by
  by_cases hout : (isAscii && decide (range.from_ > kMaxAsciiCharCode)) = true
  · have hascii : isAscii = true ∧ kMaxAsciiCharCode < range.from_ := by simpa using hout
    simp only [CharacterRange.addCaseEquivalents, hout, if_true]
    refine Adds.nothing.congr fun d _ => ?_
    simp only [CharacterRange.lastExpanded, hascii.1, if_true, false_iff]
    omega
  · have hlast : (if (isAscii && decide (range.to_ > kMaxAsciiCharCode)) = true
        then kMaxAsciiCharCode else range.to_) = range.lastExpanded isAscii := by
      rw [CharacterRange.lastExpanded]
      grind
    have hmax : range.lastExpanded isAscii ≤ kMaxUC16CharCode := by
      grind
    simp only [CharacterRange.addCaseEquivalents, hout, hlast, Bool.false_eq_true, if_false]
    generalize range.lastExpanded isAscii = top at hmax ⊢
    by_cases hone : top = range.from_
    · subst hone
      simp only [if_true]
      refine (adds_foldl (fun x d => d = x) fun ranges x hx => ?_).congr fun d _ => ?_
      · have hxmax := hT.characters range.from_ hmax x hx
        have hx16 : uc16 (x : Int) = x := by
          rw [uc16_eq (by omega) (by omega)]
          omega
        by_cases hself : x = range.from_
        · simp only [hself, ne_eq, not_true, if_false]
          refine Adds.nothing.congr fun d hd => ?_
          simp only [false_iff]
          omega
        · simp only [hself, ne_eq, not_false_eq_true, if_true, hx16]
          refine ⟨_, rfl, fun d => ?_⟩
          simp only [CharacterRange.singleton, covered_cons, not_covered_nil, or_false]
          omega
      grind
    · simp only [hone, if_false]
      by_cases hlt : range.from_ < top
      · refine (addBlocks_adds hT hmax (top + 1) (by omega) (by omega)).congr fun d _ => ?_
        grind [le_stop]
      · rw [addBlocks, if_neg hlt]
        refine Adds.nothing.congr fun d _ => ?_
        simp only [false_iff]
        omega

/-- The range, as far as it is expanded, and what is added are the characters that are equivalent
to one of its characters. -/
def Complete (T : CaseTables) (range : CharacterRange) (isAscii : Bool) : Prop :=
  ∀ ranges, ∃ added, range.addCaseEquivalents T isAscii ranges = ranges ++ added ∧
    ∀ d, (range.from_ ≤ d ∧ d ≤ range.lastExpanded isAscii ∨ Covered added d) ↔
      ∃ c, (range.from_ ≤ c ∧ c ≤ range.lastExpanded isAscii) ∧ T.Equivalent c d

/-- Case expansion is complete exactly when the loop does not stop before a character with an
equivalent of its own. -/
theorem addCaseEquivalents_complete (T : CaseTables) (hT : T.Blocks) (range : CharacterRange)
    (hto : range.to_ ≤ kMaxUC16CharCode) (isAscii : Bool) :
    Complete T range isAscii ↔ ¬MissesLast T range.from_ (range.lastExpanded isAscii) := by
  have hadds := addCaseEquivalents_adds hT hto isAscii
  generalize hlast : range.lastExpanded isAscii = top at hadds ⊢
  constructor
  · rintro hcomplete ⟨hlt, hblock, d, hd, hout, hnot⟩
    obtain ⟨added, hresult, hadded⟩ := hcomplete []
    obtain ⟨more, hresult', hmore⟩ := hadds []
    obtain rfl : added = more := List.append_cancel_left (hresult.symm.trans hresult')
    rw [hlast] at hadded
    have hin := (hmore d).1 ((hadded d).2 ⟨top, ⟨Nat.le_of_lt hlt, Nat.le_refl _⟩, hd⟩)
    rcases hin with hin | ⟨c, hc, hc', hstop, hmem⟩
    · exact hout hin
    · have hbefore := hstop hlt
      rw [stop, if_pos (Or.inr ⟨hlt, hblock⟩)] at hbefore
      exact hnot c hc hbefore (Or.inr hmem)
  · intro hnot ranges
    obtain ⟨more, hresult, hmore⟩ := hadds ranges
    refine ⟨more, hresult, fun d => ?_⟩
    rw [hlast, hmore d]
    constructor
    · rintro (hin | ⟨c, hc, hc', -, hmem⟩)
      · exact ⟨d, hin, Or.inl rfl⟩
      · exact ⟨c, ⟨hc, hc'⟩, Or.inr hmem⟩
    · rintro ⟨c, ⟨hc, hc'⟩, rfl | hmem⟩
      · exact Or.inl ⟨hc, hc'⟩
      · by_cases hin : range.from_ ≤ d ∧ d ≤ top
        · exact Or.inl hin
        · by_cases hexpanded : range.from_ < top → c < stop T range.from_ top
          · exact Or.inr ⟨c, hc, hc', hexpanded, hmem⟩
          · -- the character is the last one, and the loop has stopped before it
            rw [Classical.not_imp] at hexpanded
            have hstop : T.blockEnd (top - 1) = top - 1 := by
              by_contra hne
              have hfull : stop T range.from_ top = top + 1 := by
                rw [stop, if_neg (by omega)]
              omega
            have hsame : stop T range.from_ top = top := by
              rw [stop, if_pos (Or.inr ⟨hexpanded.1, hstop⟩)]
            obtain rfl : c = top := by omega
            by_contra hnone
            refine hnot ⟨hexpanded.1, hstop, d, Or.inr hmem, hin, fun c' hfrom hlt heq => ?_⟩
            rcases heq with rfl | hmem'
            · exact hin ⟨hfrom, Nat.le_of_lt hlt⟩
            grind

/-- The tables for the letters of ASCII. -/
def letters : CaseTables where
  canonrange c := if 97 ≤ c ∧ c ≤ 122 then [122] else if 65 ≤ c ∧ c ≤ 90 then [90] else []
  uncanonicalize c :=
    if 97 ≤ c ∧ c ≤ 122 then [c - 32, c] else if 65 ≤ c ∧ c ≤ 90 then [c, c + 32] else []

theorem letters_blockEnd (c : Nat) : letters.blockEnd c =
    if 97 ≤ c ∧ c ≤ 122 then 122 else if 65 ≤ c ∧ c ≤ 90 then 90 else c := by
  simp only [CaseTables.blockEnd, letters]
  split_ifs <;> rfl

theorem letters_blocks : letters.Blocks := by
  constructor
  · intro c _
    simp only [letters]
    split_ifs <;> simp
  · grind [letters_blockEnd, kMaxUC16CharCode]
  · grind [letters_blockEnd]
  · intro c _
    rw [letters_blockEnd]
    simp only [letters]
    split_ifs <;> simp <;> omega
  · intro c _ x hx
    rw [letters_blockEnd] at hx ⊢
    simp only [letters] at hx
    split_ifs at hx ⊢ <;> simp at hx <;> omega
  grind [letters, kMaxUC16CharCode]

theorem addCaseEquivalents_complete_letters : Complete letters ⟨99, 102⟩ false ↔ ¬MissesLast letters 99 102 :=
  addCaseEquivalents_complete letters letters_blocks ⟨99, 102⟩ (by simp [kMaxUC16CharCode]) false

/-- The range from `Z` to `a` does not get the letter `A`. -/
theorem addCaseEquivalents_misses_letter : ¬∀ T : CaseTables, T.Blocks → ∀ range : CharacterRange,
    range.to_ ≤ kMaxUC16CharCode → ∀ isAscii, Complete T range isAscii := by
  intro h
  obtain ⟨added, hresult, hadded⟩ :=
    h letters letters_blocks ⟨90, 97⟩ (by simp [kMaxUC16CharCode]) false []
  have hcomputed : (⟨90, 97⟩ : CharacterRange).addCaseEquivalents letters false [] = [⟨122, 122⟩] := by decide
  rw [hcomputed, List.nil_append] at hresult
  subst hresult
  have hmissing := (hadded 65).2 ⟨97, by simp [CharacterRange.lastExpanded], by
    simp [CaseTables.Equivalent, letters]⟩
  simp [CharacterRange.lastExpanded] at hmissing

end W16.CharacterRanges
