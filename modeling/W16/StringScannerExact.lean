import W16.StringScanner
import W16.DoubleRounding
import W16.IntDoubleExact

/-!
# The scanner hands over an equivalent number

Of the significant digits the first 772 are kept, and a one stands for the others. The scale of
the number and the dropped digits go into the exponent. Only long strings can make an `int`
overflow.
-/
namespace W16.StringScanner

open List Option

open StringNumbers (advanceToNonspace kMaxSignificantDigits maxExponent isDigit kInfinitySymbol)
open JsonParsing (decimalValue AllDigits decimalValue_lt)
open Double (ofRat)

set_option linter.dupNamespace false

/-! ## Faults -/

/-- The result is in `P`. In long strings an `int` can overflow, and nothing else goes wrong. -/
def Safe {α : Type} (long : Prop) (x : Except Fault α) (P : α → Prop) : Prop :=
  match x with
  | .ok a => P a
  | .error .overflow => long
  | .error .assertion => long
  | .error .readAtEnd => False
  | .error .bufferOverflow => False

section Safe

variable {α β : Type} {long : Prop} {P : α → Prop}

@[simp] theorem safe_pure {a : α} : Safe long (pure a) P ↔ P a := Iff.rfl

theorem Safe.bind {x : Except Fault α} {f : α → Except Fault β} {Q : β → Prop} (hx : Safe long x P)
    (hf : ∀ a, P a → Safe long (f a) Q) : Safe long (x >>= f) Q := by
  cases x with
  | ok a => exact hf a hx
  | error fault => cases fault <;> exact hx

theorem Safe.mono {x : Except Fault α} {Q : α → Prop} (hx : Safe long x P) (h : ∀ a, P a → Q a) :
    Safe long x Q := by
  cases x with
  | ok a => exact h a hx
  | error fault => cases fault <;> exact hx

theorem checked_safe {n : Int} (h : ¬long → -2 ^ 31 ≤ n ∧ n < 2 ^ 31) : Safe long (checked n) (· = n) := by
  unfold checked
  split
  · rfl
  · rename_i hn
    exact by_contra fun hlong => hn (h hlong)

theorem read_cons (c : Nat) (cs : List Nat) : read (c :: cs) = .ok c := rfl

end Safe

/-! ## The digits so far -/

/-- The significant digits `S` have been scanned, `scale` characters of them or of zeros behind
the point, and `e` is what the exponent part adds. -/
structure Tracks (S : List Nat) (scale : Nat) (e : Int) (s : Scan) : Prop where
  buffer : s.buffer = S.take kMaxSignificantDigits
  significant : s.significantDigits = s.buffer.length
  dropped : s.nonzeroDigitDropped = (S.drop kMaxSignificantDigits).any (· ≠ 48)
  exponent : s.exponent + s.insignificantDigits = (S.drop kMaxSignificantDigits).length - scale + e
  low : e - scale ≤ s.exponent
  high : s.exponent ≤ e
  insignificant : s.insignificantDigits ≤ S.length

variable {long : Prop} {S : List Nat} {scale : Nat} {e : Int} {s : Scan} {c : Nat}

theorem Tracks.significant_eq (h : Tracks S scale e s) :
    s.significantDigits = min kMaxSignificantDigits S.length := by
  rw [h.significant, h.buffer, length_take]

theorem Tracks.length_lt (h : Tracks S scale e s) : s.buffer.length < kBufferSize := by
  have hmin := length_take_le kMaxSignificantDigits S
  rw [h.buffer]
  exact lt_of_le_of_lt hmin (by decide)

theorem Tracks.store (h : Tracks S scale e s) (c : Nat) :
    s.store c = .ok { s with buffer := s.buffer ++ [c] } := if_pos h.length_lt

theorem take_push (hlt : S.length < kMaxSignificantDigits) (c : Nat) :
    (S ++ [c]).take kMaxSignificantDigits = S.take kMaxSignificantDigits ++ [c] ∧
      (S ++ [c]).drop kMaxSignificantDigits = S.drop kMaxSignificantDigits := by
  have hlen : (S ++ [c]).length ≤ kMaxSignificantDigits := by
    rw [length_append, length_singleton]
    exact hlt
  rw [take_of_length_le hlen, take_of_length_le (le_of_lt hlt), drop_of_length_le hlen,
    drop_of_length_le (le_of_lt hlt)]
  exact ⟨rfl, rfl⟩

theorem drop_push (hge : kMaxSignificantDigits ≤ S.length) (c : Nat) :
    (S ++ [c]).take kMaxSignificantDigits = S.take kMaxSignificantDigits ∧
      (S ++ [c]).drop kMaxSignificantDigits = S.drop kMaxSignificantDigits ++ [c] :=
  ⟨take_append_of_le_length hge, drop_append_of_le_length hge⟩

/-- The digit is kept. -/
theorem Tracks.keep (h : Tracks S scale e s) (hlt : S.length < kMaxSignificantDigits) {s' : Scan} {k : Nat}
    (hbuf : s'.buffer = s.buffer ++ [c]) (hsignificant : s'.significantDigits = s.significantDigits + 1)
    (hdropped : s'.nonzeroDigitDropped = s.nonzeroDigitDropped) (hexp : s'.exponent = s.exponent - k)
    (hinsignificant : s'.insignificantDigits = s.insignificantDigits) :
    Tracks (S ++ [c]) (scale + k) e s' := by
  obtain ⟨htake, hdrop⟩ := take_push hlt c
  obtain ⟨h1, h2, h3, h4, h5, h6, h7⟩ := h
  refine ⟨?_, ?_, ?_, ?_, ?_, ?_, ?_⟩
  · rw [hbuf, htake, h1]
  · rw [hbuf, hsignificant, h2, length_append, length_singleton]
  · rw [hdropped, hdrop, h3]
  · rw [hexp, hinsignificant, hdrop]
    omega
  · omega
  · omega
  · rw [hinsignificant, length_append]
    omega

/-- The digit is dropped. -/
theorem Tracks.drop (h : Tracks S scale e s) (hge : kMaxSignificantDigits ≤ S.length) {s' : Scan} {k : Nat}
    (hk : k ≤ 1)
    (hbuf : s'.buffer = s.buffer) (hsignificant : s'.significantDigits = s.significantDigits)
    (hdropped : s'.nonzeroDigitDropped = (s.nonzeroDigitDropped || c ≠ 48)) (hexp : s'.exponent = s.exponent)
    (hinsignificant : s'.insignificantDigits = s.insignificantDigits + 1 - k) :
    Tracks (S ++ [c]) (scale + k) e s' := by
  obtain ⟨htake, hdrop⟩ := drop_push hge c
  obtain ⟨h1, h2, h3, h4, h5, h6, h7⟩ := h
  refine ⟨?_, ?_, ?_, ?_, ?_, ?_, ?_⟩
  · rw [hbuf, htake, h1]
  · rw [hbuf, hsignificant, h2]
  · rw [hdropped, hdrop, h3, any_append]
    simp
  · grind
  · omega
  · omega
  · rw [hinsignificant, length_append, length_singleton]
    omega

theorem integerDigit_safe (h : Tracks S 0 e s) (hshort : ¬long → S.length < 2 ^ 31 - 1) :
    Safe long (integerDigit s c) (fun s' => Tracks (S ++ [c]) 0 e s' ∧ (s.octal = false → s'.octal = false)) := by
  have hsignificant := h.significant_eq
  have hoctal : s.octal = false → (s.octal && decide (c < 56)) = false := fun hoctal => by rw [hoctal, Bool.false_and]
  unfold integerDigit
  by_cases hlt : S.length < kMaxSignificantDigits
  · rw [if_pos (by omega), h.store c]
    exact ⟨h.keep (k := 0) hlt rfl rfl rfl (by simp) rfl, hoctal⟩
  · rw [if_neg (by omega)]
    refine Safe.bind (checked_safe fun hlong => ?_) fun n hn => ?_
    · obtain ⟨-, -, -, hexp, -, hhigh, hinsignificant⟩ := h
      have := hshort hlong
      omega
    · subst hn
      exact ⟨h.drop (k := 0) (by omega) (by decide) rfl rfl rfl rfl (by simp), hoctal⟩

theorem fractionDigit_safe (h : Tracks S scale e s) (hshort : ¬long → -2 ^ 31 < e - scale ∧ e < 2 ^ 31) :
    Safe long (fractionDigit s c) (fun s' => Tracks (S ++ [c]) (scale + 1) e s') := by
  have hsignificant := h.significant_eq
  unfold fractionDigit
  by_cases hlt : S.length < kMaxSignificantDigits
  · rw [if_pos (by omega), h.store c]
    show Safe long (checked (s.exponent - 1) >>= _) _
    refine Safe.bind (checked_safe fun hlong => ?_) fun n hn => ?_
    · have := hshort hlong
      have := h.low
      have := h.high
      omega
    · subst hn
      exact h.keep (k := 1) hlt rfl rfl rfl rfl rfl
  · rw [if_neg (by omega)]
    exact h.drop (k := 1) (by omega) (by decide) rfl rfl rfl rfl (by simp)

/-- The digits, up to the end or another character. -/
theorem integerDigits_safe : ∀ (cs S : List Nat) (s : Scan), cs ≠ [] → Tracks S 0 e s →
    (¬long → S.length + cs.length < 2 ^ 31) →
    Safe long (integerDigits cs s) fun r =>
      r.2 = cs.dropWhile isDigit ∧ Tracks (S ++ cs.takeWhile isDigit) 0 e r.1 ∧
        (s.octal = false → r.1.octal = false) := by
  intro cs
  induction cs with
  | nil => exact fun _ _ hne => absurd rfl hne
  | cons c cs ih =>
    intro S s _ h hshort
    rw [length_cons] at hshort
    rw [integerDigits]
    by_cases hc : isDigit c = true
    · rw [if_pos hc, takeWhile_cons_of_pos hc, dropWhile_cons_of_pos hc]
      refine Safe.bind (integerDigit_safe (c := c) h fun hlong => by have := hshort hlong; omega) fun s' hs' => ?_
      by_cases hcs : cs = []
      · rw [if_pos hcs, hcs]
        exact ⟨rfl, hs'⟩
      · rw [if_neg hcs]
        have hrest := ih (S ++ [c]) s' hcs hs'.1 fun hlong => by
          grind -linarith
        rw [append_assoc, singleton_append] at hrest
        exact hrest.mono fun r hr => ⟨hr.1, hr.2.1, fun hoctal => hr.2.2 (hs'.2 hoctal)⟩
    simp [hc, h]

theorem fractionDigits_safe : ∀ (cs S : List Nat) (scale : Nat) (s : Scan), cs ≠ [] → Tracks S scale e s →
    (¬long → -2 ^ 31 < e - scale - cs.length ∧ e < 2 ^ 31) →
    Safe long (fractionDigits cs s) fun r =>
      r.2 = cs.dropWhile isDigit ∧
        Tracks (S ++ cs.takeWhile isDigit) (scale + (cs.takeWhile isDigit).length) e r.1 := by
  intro cs
  induction cs with
  | nil => exact fun _ _ _ hne => absurd rfl hne
  | cons c cs ih =>
    intro S scale s _ h hshort
    rw [length_cons] at hshort
    rw [fractionDigits]
    by_cases hc : isDigit c = true
    · rw [if_pos hc, takeWhile_cons_of_pos hc, dropWhile_cons_of_pos hc]
      refine Safe.bind (fractionDigit_safe (c := c) h fun hlong => by have := hshort hlong; omega) fun s' hs' => ?_
      by_cases hcs : cs = []
      · rw [if_pos hcs, hcs]
        exact ⟨rfl, hs'⟩
      · rw [if_neg hcs]
        have hrest := ih (S ++ [c]) (scale + 1) s' hcs hs' fun hlong => by
          have := hshort hlong
          omega
        rw [append_assoc, singleton_append] at hrest
        rwa [length_cons, add_comm _ 1, ← add_assoc]
    simp [hc, h]

/-! ## The digits that are handed over -/

theorem decimalValue_eq {ds : List Nat} (hds : AllDigits ds) (v : Nat) :
    decimalValue v ds = IntDouble.value 10 v ds := by
  induction ds generalizing v with
  | nil => rfl
  | cons c ds ih =>
    obtain ⟨hc, hds'⟩ := forall_mem_cons.1 hds
    unfold Json.IsDigit at hc
    have hread : IntDouble.readDigit 10 c = some (c - 48) := if_pos (by omega)
    rw [IntDouble.value_cons v ds hread, ← ih hds']
    rfl

theorem allDigits_ten {ds : List Nat} (hds : AllDigits ds) : IntDouble.AllDigits 10 ds := by
  intro c hc
  have hdigit := hds c hc
  unfold Json.IsDigit at hdigit
  rw [IntDouble.isDigit_iff, IntDouble.readDigit, if_pos (by omega)]
  rfl

theorem decimalValue_append (a : List Nat) {b : List Nat} (hb : AllDigits b) :
    decimalValue 0 (a ++ b) = decimalValue 0 a * 10 ^ b.length + decimalValue 0 b := by
  have happ : decimalValue 0 (a ++ b) = decimalValue (decimalValue 0 a) b := foldl_append
  rw [happ, decimalValue_eq hb, IntDouble.value_split, ← decimalValue_eq hb]

theorem decimalValue_eq_zero {ds : List Nat} (hds : AllDigits ds) : decimalValue 0 ds = 0 ↔ ∀ c ∈ ds, c = 48 := by
  rw [decimalValue_eq hds]
  exact IntDouble.value_eq_zero (by decide) (allDigits_ten hds)

/-- `772` digits of which the first is no zero. -/
theorem le_decimalValue_take (hS : AllDigits S) (hfirst : S.head? ≠ some 48) (hlen : kMaxSignificantDigits < S.length) :
    10 ^ 771 ≤ decimalValue 0 (S.take kMaxSignificantDigits) := by
  cases S with
  | nil => exact absurd hlen (Nat.not_lt_zero _)
  | cons c cs =>
    obtain ⟨hc, hcs⟩ := forall_mem_cons.1 hS
    have hmax : kMaxSignificantDigits = 771 + 1 := rfl
    have hne : c ≠ 48 := fun h => hfirst (by rw [h]; rfl)
    unfold Json.IsDigit at hc
    rw [hmax] at hlen ⊢
    rw [length_cons] at hlen
    have htake : AllDigits (cs.take 771) := fun d hd => hcs d (mem_of_mem_take hd)
    have happ := decimalValue_append [c] htake
    rw [length_take, Nat.min_eq_left (by omega)] at happ
    rw [take_succ_cons, ← singleton_append, happ]
    have hone : 1 ≤ decimalValue 0 [c] := by
      show 1 ≤ 0 * 10 + (c - 48)
      omega
    omega

/-- What is handed over for the digits `S` and the exponent `k`. -/
def Handed (S : List Nat) (k : Int) (buffer : List Nat) (exponent : Int) : Prop :=
  if (S.drop kMaxSignificantDigits).any (· ≠ 48) then
    buffer = S.take kMaxSignificantDigits ++ [49] ∧ exponent = (S.drop kMaxSignificantDigits).length + k - 1
  else buffer = S.take kMaxSignificantDigits ∧ exponent = (S.drop kMaxSignificantDigits).length + k

/-- The digits that are dropped do not change the double. -/
theorem Handed.ofRat_eq {k exponent : Int} {buffer : List Nat} (h : Handed S k buffer exponent) (hS : AllDigits S)
    (hfirst : S.head? ≠ some 48) :
    ofRat (decimalValue 0 buffer * 10 ^ exponent) = ofRat (decimalValue 0 S * 10 ^ k) := by
  have hdrop : AllDigits (S.drop kMaxSignificantDigits) := fun d hd => hS d (mem_of_mem_drop hd)
  have hsplit := decimalValue_append (S.take kMaxSignificantDigits) hdrop
  rw [take_append_drop] at hsplit
  have hlt := decimalValue_lt _ 0 hdrop
  have hzero := decimalValue_eq_zero hdrop
  have hten : (10 : ℚ) ≠ 0 := by norm_num
  unfold Handed at h
  split at h
  · rename_i hany
    obtain ⟨rfl, rfl⟩ := h
    obtain ⟨c, hc, hne⟩ := any_eq_true.1 hany
    have hlen : kMaxSignificantDigits < S.length := by
      grind
    have hbig := le_decimalValue_take hS hfirst hlen
    have hsticky : decimalValue 0 (S.take kMaxSignificantDigits ++ [49]) =
        decimalValue 0 (S.take kMaxSignificantDigits) * 10 + 1 := foldl_append
    have hpos : decimalValue 0 (S.drop kMaxSignificantDigits) ≠ 0 := fun h0 =>
      absurd (hzero.1 h0 c hc) (of_decide_eq_true hne)
    rw [hsticky, hsplit]
    generalize decimalValue 0 (S.drop kMaxSignificantDigits) = t at hlt hpos
    generalize (S.drop kMaxSignificantDigits).length = j at hlt
    have hlt' : (t : ℚ) < 10 ^ j := by
      have : t < 10 ^ j := by omega
      exact_mod_cast this
    have hpos' : (0 : ℚ) < t := by exact_mod_cast pos_of_ne_zero hpos
    have hscale : (10 : ℚ) ^ ((j : ℤ) + k) = 10 ^ j * 10 ^ k := by rw [zpow_add₀ hten, zpow_natCast]
    have hk : (0 : ℚ) < 10 ^ k := by positivity
    have hj : (0 : ℚ) < 10 ^ j := by positivity
    refine (Double.sameSide_of_inside (x := j + k) hbig ?_ ?_ ?_ ?_).ofRat_eq
    · rw [zpow_sub_one₀ hten, hscale]
      push_cast
      nlinarith [mul_pos hj hk]
    · rw [zpow_sub_one₀ hten, hscale]
      push_cast
      nlinarith [mul_pos hj hk]
    · push_cast
      nlinarith [mul_pos hpos' hk]
    · push_cast
      nlinarith [mul_pos (sub_pos.2 hlt') hk]
  · rename_i hany
    obtain ⟨rfl, rfl⟩ := h
    have h0 := hzero.2 fun c hc => by
        by_contra hne
        exact hany (any_eq_true.2 ⟨c, hc, decide_eq_true hne⟩)
    rw [hsplit, h0, zpow_add₀ hten, zpow_natCast]
    push_cast
    ring_nf

/-- What `parsing_done` hands over. -/
theorem parsingDone_safe (negative : Bool) (h : Tracks S scale e s)
    (hshort : ¬long → S.length ≤ 2 ^ 30 ∧ scale < 2 ^ 30 ∧ -2 ^ 30 < e ∧ e < 2 ^ 30) :
    Safe long (parsingDone negative s) fun o =>
      if s.octal then o = .intDouble 3 s.buffer negative
      else ∃ buffer exponent, o = .strtod negative buffer exponent ∧ Handed S (e - scale) buffer exponent := by
  have hexp := h.exponent
  have hlen := length_drop (i := kMaxSignificantDigits) (l := S)
  refine Safe.bind (checked_safe fun hlong => ?_) fun n hn => ?_
  · have := hshort hlong
    omega
  · subst hn
    by_cases hoctal : s.octal = true
    · simp [hoctal]
    · rw [if_neg hoctal]
      have hbuf := h.buffer
      have hdropped := h.dropped
      have hlt := h.length_lt
      unfold Handed
      rw [← hdropped, ← hbuf]
      by_cases hany : s.nonzeroDigitDropped = true
      · have hlt' : s.buffer.length ≤ kMaxSignificantDigits := hbuf ▸ length_take_le _ _
        have hstore : Scan.store { s with exponent := s.exponent + s.insignificantDigits } 49 =
            .ok { s with exponent := s.exponent + s.insignificantDigits, buffer := s.buffer ++ [49] } := if_pos hlt
        have hsize : (s.buffer ++ [49]).length < kBufferSize := by
          rw [length_append, length_singleton]
          exact lt_of_le_of_lt (Nat.succ_le_succ hlt') (by decide)
        rw [if_pos hany, hstore]
        show Safe long (checked (s.exponent + s.insignificantDigits - 1) >>= _) _
        refine Safe.bind (checked_safe fun hlong => ?_) fun n hn => ?_
        · have := hshort hlong
          omega
        · simp only [hoctal, Bool.false_eq_true, if_false, pure_bind, if_pos hsize]
          refine ⟨_, _, rfl, ?_⟩
          rw [if_pos hany]
          exact ⟨rfl, by omega⟩
      · simp only [hany, hoctal, Bool.false_eq_true, if_false, pure_bind, if_pos hlt]
        exact ⟨_, _, rfl, rfl, by omega⟩

/-- The number that is handed over, if there is one, is rounded as `v * 10 ^ k` is. -/
def HandsOver (v : Nat) (k : Int) (o : Outcome) : Prop :=
  ∀ negative buffer exponent, o = .strtod negative buffer exponent →
    ofRat (decimalValue 0 buffer * 10 ^ exponent) = ofRat (v * 10 ^ k)

/-- No integer part, fraction or exponent is so long that an `int` overflows. -/
def Short (S : List Nat) (scale : Nat) : Prop := S.length ≤ 2 ^ 30 ∧ scale < 2 ^ 29

variable (flags : Flags) (negative : Bool)

theorem parsingDone_handsOver (h : Tracks S scale e s) (hS : AllDigits S) (hfirst : S.head? ≠ some 48)
    (hshort : ¬long → Short S scale) (he : -2 ^ 30 < e ∧ e < 2 ^ 30) :
    Safe long (parsingDone negative s) (HandsOver (decimalValue 0 S) (e - scale)) := by
  have hbds : ¬long → S.length ≤ 2 ^ 30 ∧ scale < 2 ^ 30 ∧ -2 ^ 30 < e ∧ e < 2 ^ 30 := fun hlong => by
    have := hshort hlong
    unfold Short at this
    omega
  refine (parsingDone_safe negative h hbds).mono fun o ho n buffer exponent heq => ?_
  split at ho
  · rw [ho] at heq
    nomatch heq
  · obtain ⟨buffer', exponent', rfl, hhanded⟩ := ho
    obtain ⟨rfl, rfl, rfl⟩ : negative = n ∧ buffer' = buffer ∧ exponent' = exponent := by
      simpa using heq
    exact hhanded.ofRat_eq hS hfirst

theorem junk_handsOver {v : Nat} {k : Int} {o : Outcome} (h : ∀ n buffer exponent, o ≠ .strtod n buffer exponent) :
    HandsOver v k o := fun n buffer exponent heq => absurd heq (h n buffer exponent)

theorem trailing_handsOver (h : Tracks S scale e s) (hS : AllDigits S) (hfirst : S.head? ≠ some 48)
    (hshort : ¬long → Short S scale) (he : -2 ^ 30 < e ∧ e < 2 ^ 30) (current : List Nat) :
    Safe long (trailing flags negative s current) (HandsOver (decimalValue 0 S) (e - scale)) := by
  unfold trailing
  split
  · exact junk_handsOver fun _ _ _ => Outcome.noConfusion
  · exact parsingDone_handsOver negative h hS hfirst hshort he

theorem noExponent_handsOver (h : Tracks S scale 0 s) (hS : AllDigits S) (hfirst : S.head? ≠ some 48)
    (hshort : ¬long → Short S scale) :
    Safe long (noExponent flags negative s) (HandsOver (decimalValue 0 S) (0 - scale)) := by
  unfold noExponent
  split
  · exact parsingDone_handsOver negative h hS hfirst hshort (by decide)
  · exact junk_handsOver fun _ _ _ => Outcome.noConfusion

/-! ## The exponent part -/

/-- The exponent as the code limits it. -/
def clamp (e : Int) : Int := max (-maxExponent) (min e maxExponent)

theorem maxExponent_eq : maxExponent = 2 ^ 30 - 1 := by decide

theorem clamp_lt (e : Int) : -2 ^ 30 < clamp e ∧ clamp e < 2 ^ 30 := by
  have := maxExponent_eq
  unfold clamp
  omega

theorem exponentDigits_eq : ∀ (cs : List Nat) (v : Nat), exponentDigits cs (min (v : Int) maxExponent) =
    .ok (min (decimalValue v (cs.takeWhile isDigit) : Int) maxExponent, cs.dropWhile isDigit) := by
  intro cs
  induction cs with
  | nil => exact fun _ => rfl
  | cons c cs ih =>
    intro v
    have hmax := maxExponent_eq
    rw [exponentDigits]
    by_cases hc : isDigit c = true
    · rw [if_pos hc, takeWhile_cons_of_pos hc, dropWhile_cons_of_pos hc]
      have hdigit : 48 ≤ c ∧ c ≤ 57 := of_decide_eq_true hc
      have hih := ih (v * 10 + (c - 48))
      have hvalue : decimalValue (v * 10 + (c - 48)) (cs.takeWhile isDigit) =
          decimalValue v (c :: cs.takeWhile isDigit) := rfl
      rw [hvalue] at hih
      dsimp only
      split
      · rw [← hih]
        congr 1
        omega
      · have hstep : min (v : Int) maxExponent * 10 + ((c : Int) - 48) =
            min ((v * 10 + (c - 48) : Nat) : Int) maxExponent := by
          omega
        have hrange : -2 ^ 31 ≤ min ((v * 10 + (c - 48) : Nat) : Int) maxExponent ∧
            min ((v * 10 + (c - 48) : Nat) : Int) maxExponent < 2 ^ 31 := by omega
        rw [hstep, checked, if_pos hrange]
        exact hih
    · rw [if_neg hc, takeWhile_cons_of_neg hc, dropWhile_cons_of_neg hc]
      rfl

theorem Tracks.shift (h : Tracks S scale 0 s) (e : Int) :
    Tracks S scale e { s with exponent := s.exponent + e } where
  buffer := h.buffer
  significant := h.significant
  dropped := h.dropped
  exponent := by
    have := h.exponent
    show s.exponent + e + s.insignificantDigits = _
    omega
  low := by
    have := h.low
    show e - scale ≤ s.exponent + e
    omega
  high := by
    have := h.high
    show s.exponent + e ≤ e
    omega
  insignificant := h.insignificant

/-- The value of a sign and of digits. -/
def signedValue (minus : Bool) (ds : List Nat) : Int :=
  if minus then -(decimalValue 0 ds : Int) else decimalValue 0 ds

theorem clamp_signedValue (minus : Bool) (ds : List Nat) :
    (if minus then -min (decimalValue 0 ds : Int) maxExponent else min (decimalValue 0 ds : Int) maxExponent) =
      clamp (signedValue minus ds) := by
  have := maxExponent_eq
  unfold clamp signedValue
  grind

theorem clamp_zero (minus : Bool) : clamp (signedValue minus []) = 0 := by cases minus <;> decide

theorem exponentValue_handsOver (h : Tracks S scale 0 s) (hS : AllDigits S) (hfirst : S.head? ≠ some 48)
    (hshort : ¬long → Short S scale) (minus : Bool) (current : List Nat) :
    Safe long (exponentValue flags negative minus s current)
      (HandsOver (decimalValue 0 S) (clamp (signedValue minus (current.takeWhile isDigit)) - scale)) := by
  have hno := noExponent_handsOver flags negative h hS hfirst hshort
  unfold exponentValue
  cases current with
  | nil =>
    rw [if_pos rfl, takeWhile_nil, clamp_zero]
    exact hno
  | cons c cs =>
    rw [if_neg (cons_ne_nil _ _), read_cons]
    show Safe long (if _ then _ else _) _
    by_cases hc : isDigit c = true
    · rw [if_pos hc]
      have hmax := maxExponent_eq
      have hlow := h.low
      have hhigh := h.high
      split
      · have hdigs := exponentDigits_eq (c :: cs) 0
        rw [show min ((0 : Nat) : Int) maxExponent = 0 by omega] at hdigs
        rw [hdigs]
        show Safe long (checked _ >>= _) _
        rw [clamp_signedValue]
        have hclamp := clamp_lt (signedValue minus ((c :: cs).takeWhile isDigit))
        generalize clamp _ = e at hclamp
        refine Safe.bind (checked_safe fun hlong => ?_) fun n hn => ?_
        · have := hshort hlong
          omega
        · subst hn
          exact trailing_handsOver flags negative (h.shift e) hS hfirst hshort hclamp _
      · rename_i hassert
        refine by_contra fun hlong => hassert ?_
        have := hshort hlong
        unfold Short at this
        omega
    simp_all [clamp_zero]

/-- The exponent that characters start with. -/
def exponentAt (current : List Nat) : Int := signedValue (exponentOf current).1 (exponentOf current).2

theorem exponentOf_other (hc : ¬(c = 101 ∨ c = 69)) (cs : List Nat) : exponentOf (c :: cs) = (false, []) := by
  simp only [exponentOf, if_neg hc]

theorem exponentOf_end (hc : c = 101 ∨ c = 69) : exponentOf [c] = (false, []) := by
  simp only [exponentOf, if_pos hc]

theorem exponentOf_cons (hc : c = 101 ∨ c = 69) (sign : Nat) (rest : List Nat) :
    exponentOf (c :: sign :: rest) = if sign = 43 ∨ sign = 45 then (decide (sign = 45), rest.takeWhile isDigit)
      else (false, (sign :: rest).takeWhile isDigit) := by
  simp only [exponentOf, if_pos hc]

theorem exponentPart_handsOver (h : Tracks S scale 0 s) (hS : AllDigits S) (hfirst : S.head? ≠ some 48)
    (hshort : ¬long → Short S scale) {current : List Nat} (hc : c = 101 ∨ c = 69) :
    Safe long (exponentPart flags negative s (c :: current))
      (HandsOver (decimalValue 0 S) (clamp (exponentAt (c :: current)) - scale)) := by
  have hvalue := exponentValue_handsOver flags negative h hS hfirst hshort
  unfold exponentPart
  split
  · exact junk_handsOver fun _ _ _ => Outcome.noConfusion
  · cases current with
    | nil =>
      rw [exponentAt, exponentOf_end hc, clamp_zero]
      exact noExponent_handsOver flags negative h hS hfirst hshort
    | cons sign rest =>
      rw [exponentAt, exponentOf_cons hc]
      show Safe long (if sign = 43 ∨ sign = 45 then exponentValue flags negative (sign = 45) s rest
        else exponentValue flags negative false s (sign :: rest)) _
      grind

/-! ## The rest of the literal -/

theorem afterDigits_handsOver (h : Tracks S scale 0 s) (hS : AllDigits S) (hfirst : S.head? ≠ some 48)
    (hshort : ¬long → Short S scale) (leadingZero : Bool) {current : List Nat} (hne : current ≠ []) :
    Safe long (afterDigits flags negative leadingZero s current)
      (HandsOver (decimalValue 0 S) (clamp (exponentAt current) - scale)) := by
  unfold afterDigits
  split
  · exact junk_handsOver fun _ _ _ => Outcome.noConfusion
  · cases current with
    | nil => exact absurd rfl hne
    | cons c cs =>
      show Safe long (if _ then _ else _) _
      split
      · simp_all [exponentPart_handsOver]
      · rename_i hc
        rw [exponentAt, exponentOf_other hc, clamp_zero]
        exact trailing_handsOver flags negative h hS hfirst hshort (by decide) _

/-- Zeros in front of the fraction are only counted. -/
theorem fractionZeros_safe : ∀ (cs : List Nat) (exponent : Int), cs ≠ [] →
    (¬long → -2 ^ 31 ≤ exponent - cs.length ∧ exponent < 2 ^ 31) →
    Safe long (fractionZeros cs exponent) fun r =>
      r.2 ≠ [] → ∃ zeros : Nat, cs = replicate zeros 48 ++ r.2 ∧ r.2.head? ≠ some 48 ∧ r.1 = exponent - zeros := by
  intro cs
  induction cs with
  | nil => exact fun _ hne => absurd rfl hne
  | cons c cs ih =>
    intro exponent _ hshort
    rw [length_cons] at hshort
    rw [fractionZeros]
    by_cases hc : c = 48
    · rw [if_pos hc]
      by_cases hcs : cs = []
      · rw [if_pos hcs]
        exact fun h => absurd rfl h
      · rw [if_neg hcs]
        refine Safe.bind (checked_safe fun hlong => by have := hshort hlong; omega) fun n hn => ?_
        subst hn
        refine (ih (exponent - 1) hcs fun hlong => by have := hshort hlong; omega).mono fun r hr hne => ?_
        obtain ⟨zeros, hzeros, hhead, hexp⟩ := hr hne
        refine ⟨zeros + 1, ?_, hhead, ?_⟩
        · rw [hc, replicate_succ, cons_append, ← hzeros]
        · omega
    · rw [if_neg hc]
      refine fun _ => ⟨0, rfl, ?_, by simp⟩
      exact fun h => hc (some.inj h)

theorem parsingDone_octal (h : Tracks S scale e s) (hoctal : s.octal = true) (hshort : ¬long → Short S scale)
    (he : -2 ^ 30 < e ∧ e < 2 ^ 30) (v : Nat) (k : Int) :
    Safe long (parsingDone negative s) (HandsOver v k) := by
  have hbds : ¬long → S.length ≤ 2 ^ 30 ∧ scale < 2 ^ 30 ∧ -2 ^ 30 < e ∧ e < 2 ^ 30 := fun hlong => by
    have := hshort hlong
    unfold Short at this
    omega
  refine (parsingDone_safe negative h hbds).mono fun o ho => ?_
  simp_all [junk_handsOver]

theorem allDigits_takeWhile (cs : List Nat) : AllDigits (cs.takeWhile isDigit) :=
  fun _ hc => of_decide_eq_true (mem_takeWhile_imp (p := isDigit) hc)

variable {cs : List Nat}

theorem head?_takeWhile (h : cs.head? ≠ some 48) : (cs.takeWhile isDigit).head? ≠ some 48 := by
  cases cs with
  | nil => exact h
  | cons c cs =>
    rw [takeWhile_cons]
    split
    · exact h
    · exact some_ne_none 48 |>.symm

theorem head?_append {a b : List Nat} (ha : a.head? ≠ some 48) (hb : a = [] → b.head? ≠ some 48) :
    (a ++ b).head? ≠ some 48 := by
  simp_all

/-- The digits of the fraction, and what follows. -/
theorem fraction_handsOver (h : Tracks S scale 0 s) (hS : AllDigits S) (hfirst : S.head? ≠ some 48) (hne : cs ≠ []) (hhead : S = [] → cs.head? ≠ some 48)
    (hshort : ¬long → S.length + scale + cs.length < 2 ^ 29) (leadingZero : Bool) :
    Safe long (do
        let (s, current) ← fractionDigits cs s
        if current = [] then parsingDone negative s else afterDigits flags negative leadingZero s current)
      (HandsOver (decimalValue 0 (S ++ cs.takeWhile isDigit))
        (clamp (exponentAt (cs.dropWhile isDigit)) - (scale + (cs.takeWhile isDigit).length : Nat))) := by
  have hdigs : AllDigits (S ++ cs.takeWhile isDigit) := fun c hc =>
    (mem_append.1 hc).elim (hS c) (allDigits_takeWhile cs c)
  have hfirst' := head?_append hfirst fun hnil => head?_takeWhile (hhead hnil)
  have hlen := (takeWhile_sublist (l := cs) (p := isDigit)).length_le
  have hshort' : ¬long → Short (S ++ cs.takeWhile isDigit) (scale + (cs.takeWhile isDigit).length) := fun hlong => by
    grind [Short]
  refine Safe.bind (fractionDigits_safe cs S scale s hne h fun hlong => by have := hshort hlong; omega) ?_
  rintro ⟨s', current⟩ ⟨rfl, hs'⟩
  show Safe long (if _ then _ else _) _
  split
  · rename_i hend
    rw [hend, show exponentAt [] = signedValue false [] from rfl, clamp_zero]
    exact parsingDone_handsOver negative hs' hdigs hfirst' hshort' (by decide)
  · rename_i hend
    exact afterDigits_handsOver flags negative hs' hdigs hfirst' hshort' leadingZero hend

theorem decimalValue_zeros (zeros : Nat) (ds : List Nat) :
    decimalValue 0 (replicate zeros 48 ++ ds) = decimalValue 0 ds := by
  induction zeros with
  | zero => rfl
  | succ zeros ih =>
    exact ih

theorem takeWhile_zeros (zeros : Nat) (cs : List Nat) :
    (replicate zeros 48 ++ cs).takeWhile isDigit = replicate zeros 48 ++ cs.takeWhile isDigit := by
  induction zeros with
  | zero => rfl
  | succ zeros ih =>
    rw [replicate_succ, cons_append, takeWhile_cons_of_pos (by decide), ih, cons_append]

theorem dropWhile_zeros (zeros : Nat) (cs : List Nat) :
    (replicate zeros 48 ++ cs).dropWhile isDigit = cs.dropWhile isDigit := by
  induction zeros with
  | zero => rfl
  | succ zeros ih => rw [replicate_succ, cons_append, dropWhile_cons_of_pos (by decide), ih]

theorem pointPart_handsOver (h : Tracks S 0 0 s) (hS : AllDigits S) (hfirst : S.head? ≠ some 48)
    (hshort : ¬long → S.length + cs.length < 2 ^ 29) (leadingZero : Bool) :
    Safe long (pointPart flags negative leadingZero s (46 :: cs))
      (HandsOver (decimalValue 0 (S ++ cs.takeWhile isDigit))
        (clamp (exponentAt (cs.dropWhile isDigit)) - (cs.takeWhile isDigit).length)) := by
  have hshort' : ¬long → Short S 0 := fun hlong => by
    have := hshort hlong
    unfold Short
    omega
  unfold pointPart
  split
  · rename_i hoctal
    split
    · exact parsingDone_octal negative h hoctal hshort' (by decide) _ _
    · exact junk_handsOver fun _ _ _ => Outcome.noConfusion
  · rw [tail_cons]
    by_cases hcs : cs = []
    · subst hcs
      split
      · exact junk_handsOver fun _ _ _ => Outcome.noConfusion
      · have hdone := parsingDone_handsOver negative h hS hfirst hshort' (by decide)
        rw [takeWhile_nil, dropWhile_nil, append_nil,
          show exponentAt [] = signedValue false [] from rfl, clamp_zero]
        exact hdone
    · rw [if_neg hcs]
      by_cases hsignificant : s.significantDigits = 0
      · have hnil : S = [] := by
          have := h.significant_eq
          simp_all [kMaxSignificantDigits]
        subst hnil
        have hexponent : s.exponent = 0 := by
          have := h.low
          have := h.high
          omega
        simp only [if_pos hsignificant, hexponent]
        refine Safe.bind (fractionZeros_safe cs 0 hcs fun hlong => by have := hshort hlong; omega) ?_
        rintro ⟨exponent, current⟩ hzeros
        show Safe long (if current = [] then _ else _) _
        split
        · exact junk_handsOver fun _ _ _ => Outcome.noConfusion
        · rename_i hcur
          obtain ⟨zeros, hcs', hhead, hexp⟩ := hzeros hcur
          dsimp only at hcs' hhead hexp
          subst hcs' hexp
          have htracks : Tracks [] zeros 0 { s with exponent := 0 - (zeros : Int) } := by
            obtain ⟨h1, h2, h3, h4, h5, h6, h7⟩ := h
            refine ⟨h1, h2, h3, ?_, ?_, ?_, h7⟩
            · push_cast at h4 ⊢
              omega
            · exact Int.le_refl _
            · show 0 - (zeros : Int) ≤ 0
              omega
          have hrest := fraction_handsOver flags negative htracks hS hfirst hcur
            (fun _ => hhead) (fun hlong => by
              have := hshort hlong
              rw [length_append, length_replicate] at this
              omega) leadingZero
          rw [takeWhile_zeros, dropWhile_zeros, nil_append, decimalValue_zeros, length_append,
            length_replicate]
          exact hrest
      · have hne : S ≠ [] := fun hnil => hsignificant (by rw [h.significant_eq, hnil]; rfl)
        simp only [if_neg hsignificant]
        show Safe long (if cs = [] then _ else _) _
        rw [if_neg hcs]
        have hrest := fraction_handsOver flags negative h hS hfirst hcs
          (fun hnil => absurd hnil hne) (fun hlong => by have := hshort hlong; omega) leadingZero
        rw [zero_add] at hrest
        exact hrest

theorem literalOf_exponent (cs : List Nat) : (literalOf cs).exponent =
    exponentAt (if (cs.dropWhile isDigit).head? = some 46 then (cs.dropWhile isDigit).tail.dropWhile isDigit
      else cs.dropWhile isDigit) := rfl

theorem Tracks.setOctal (h : Tracks S scale e s) (octal : Bool) : Tracks S scale e { s with octal := octal } :=
  ⟨h.buffer, h.significant, h.dropped, h.exponent, h.low, h.high, h.insignificant⟩

/-- The double of the literal, with the exponent as the code limits it. -/
def LiteralHandsOver (l : Literal) (o : Outcome) : Prop :=
  HandsOver (decimalValue 0 (l.integer ++ l.fraction)) (clamp l.exponent - l.fraction.length) o

theorem digitsPart_handsOver (hne : cs ≠ []) (hhead : cs.head? ≠ some 48)
    (hshort : ¬long → cs.length < 2 ^ 29) (leadingZero : Bool) :
    Safe long (digitsPart flags negative leadingZero cs) (LiteralHandsOver (literalOf cs)) := by
  have hstart : Tracks [] 0 0 ⟨[], 0, 0, 0, false, leadingZero && flags.allowOctals⟩ := by
    constructor <;> simp
  have hdigs := allDigits_takeWhile cs
  have hfirst := head?_takeWhile hhead
  have hlen : (cs.takeWhile isDigit).length + (cs.dropWhile isDigit).length = cs.length := by
    rw [← length_append, takeWhile_append_dropWhile]
  have hshort' : ¬long → Short (cs.takeWhile isDigit) 0 := fun hlong => by
    have := hshort hlong
    unfold Short
    omega
  unfold LiteralHandsOver
  rw [literalOf_exponent]
  refine Safe.bind (integerDigits_safe cs [] _ hne hstart fun hlong => by
    have := hshort hlong
    rw [length_nil]
    omega) ?_
  rintro ⟨s, current⟩ ⟨rfl, hs, -⟩
  show Safe long (if cs.dropWhile isDigit = [] then _ else _) _
  unfold literalOf
  generalize cs.dropWhile isDigit = rest at hlen
  cases rest with
  | nil =>
    have hdone := parsingDone_handsOver negative hs hdigs hfirst hshort' (by decide)
    simpa [show exponentAt [] = signedValue false [] from rfl, clamp_zero] using hdone
  | cons c rest =>
    have hs' : Tracks (cs.takeWhile isDigit) 0 0 (if s.significantDigits = 0 then { s with octal := false } else s) := by
      split
      · exact hs.setOctal false
      · exact hs
    show Safe long (if c = 46 then _ else _) _
    by_cases hc : c = 46
    · subst hc
      rw [length_cons] at hlen
      exact pointPart_handsOver flags negative hs' hdigs hfirst (fun hlong => by have := hshort hlong; omega) leadingZero
    · have hrest : (c :: rest).head? ≠ some 46 := fun h => hc (some.inj h)
      have hafter := afterDigits_handsOver flags negative hs' hdigs hfirst hshort'
        leadingZero (cons_ne_nil c rest)
      simp_all

/-! ## The front of the string -/

theorem skipZeros_safe : ∀ (cs : List Nat), cs ≠ [] → Safe long (skipZeros cs) fun rest =>
      rest.head? ≠ some 48 ∧ ∃ zeros, cs = replicate zeros 48 ++ rest := by
  intro cs
  induction cs with
  | nil => exact fun hne => absurd rfl hne
  | cons c cs ih =>
    intro _
    rw [skipZeros]
    by_cases hc : c = 48
    · rw [if_pos hc]
      by_cases hcs : cs = []
      · rw [if_pos hcs]
        exact ⟨by simp, 1, by rw [hc, hcs]; rfl⟩
      · rw [if_neg hcs]
        refine (ih hcs).mono fun rest hrest => ?_
        obtain ⟨hhead, zeros, hzeros⟩ := hrest
        exact ⟨hhead, zeros + 1, by rw [hc, hzeros, replicate_succ, cons_append]⟩
    · rw [if_neg hc]
      exact ⟨fun h => hc (some.inj h), 0, rfl⟩

/-- Leading zeros change the digits of the literal only. -/
theorem literalOf_zeros (zeros : Nat) (cs : List Nat) : literalOf (replicate zeros 48 ++ cs) =
    { literalOf cs with integer := replicate zeros 48 ++ (literalOf cs).integer } := by
  unfold literalOf
  rw [takeWhile_zeros, dropWhile_zeros]

theorem LiteralHandsOver.zeros {o : Outcome} (h : LiteralHandsOver (literalOf cs) o) (zeros : Nat) :
    LiteralHandsOver (literalOf (replicate zeros 48 ++ cs)) o := by
  rw [literalOf_zeros]
  unfold LiteralHandsOver
  rw [append_assoc, decimalValue_zeros]
  exact h

theorem afterSign_handsOver (hne : cs ≠ []) (hshort : ¬long → cs.length < 2 ^ 29) :
    Safe long (afterSign flags negative cs) (LiteralHandsOver (literalOf cs)) := by
  unfold afterSign
  cases cs with
  | nil => exact absurd rfl hne
  | cons c cs =>
    show Safe long (if c = 73 then _ else _) _
    by_cases hinfinity : c = 73
    · rw [if_pos hinfinity]
      split
      · exact junk_handsOver fun _ _ _ => Outcome.noConfusion
      · split
        · exact junk_handsOver fun _ _ _ => Outcome.noConfusion
        · exact junk_handsOver fun _ _ _ => Outcome.noConfusion
    · rw [if_neg hinfinity]
      by_cases hzero : c = 48
      · subst hzero
        cases cs with
        | nil => exact junk_handsOver fun _ _ _ => Outcome.noConfusion
        | cons d ds =>
          show Safe long (if flags.allowHex = true ∧ (d = 120 ∨ d = 88) then _ else _) _
          split
          · cases ds with
            | nil => exact junk_handsOver fun _ _ _ => Outcome.noConfusion
            | cons x xs =>
              show Safe long (if IntDouble.isDigit x 16 = true then _ else _) _
              split
              · exact junk_handsOver fun _ _ _ => Outcome.noConfusion
              · exact junk_handsOver fun _ _ _ => Outcome.noConfusion
          · refine Safe.bind (skipZeros_safe (d :: ds) (cons_ne_nil _ _)) fun rest hrest => ?_
            obtain ⟨hhead, zeros, hzeros⟩ := hrest
            split
            · exact junk_handsOver fun _ _ _ => Outcome.noConfusion
            · rename_i hrest
              have hlen := congrArg List.length hzeros
              rw [length_append] at hlen
              rw [length_cons] at hshort
              have hdigs := digitsPart_handsOver flags negative hrest hhead
                (fun hlong => by have := hshort hlong; omega) true
              refine hdigs.mono fun o ho => ?_
              have hall := ho.zeros (zeros + 1)
              rwa [replicate_succ, cons_append, ← hzeros] at hall
      · rw [if_neg hzero]
        exact digitsPart_handsOver flags negative hne (fun h => hzero (some.inj h)) hshort false

theorem internalStringToDouble_handsOver (flags : Flags) (chars : List Nat) (hshort : ¬long → chars.length < 2 ^ 29) :
    Safe long (internalStringToDouble flags chars) (LiteralHandsOver (literal chars)) := by
  have hlen := (dropWhile_sublist (l := chars) StringNumbers.isWhiteSpace).length_le
  unfold internalStringToDouble literal advanceToNonspace
  generalize chars.dropWhile StringNumbers.isWhiteSpace = current at hlen
  cases current with
  | nil => exact junk_handsOver fun _ _ _ => Outcome.noConfusion
  | cons c cs =>
    rw [length_cons] at hlen
    show Safe long (if c = 43 ∨ c = 45 then _ else _) _
    by_cases hsign : c = 43 ∨ c = 45
    · simp only [if_pos hsign]
      split
      · exact junk_handsOver fun _ _ _ => Outcome.noConfusion
      grind [afterSign_handsOver]
    · simp only [if_neg hsign]
      exact afterSign_handsOver flags false (cons_ne_nil _ _) fun hlong => by
        have := hshort hlong
        rw [length_cons]
        omega

/-! ## The limit of the exponent -/

theorem infinity_bound : 2 ^ 54 * 2 ^ 970 ≤ 10 ^ 309 := by decide +kernel

theorem zero_bound : 2 ^ 1075 ≤ 10 ^ 324 := by decide +kernel

/-- Numbers of so many digits are above all doubles. -/
theorem ofRat_huge {v : Nat} {k : Int} (hv : 0 < v) (hk : 309 ≤ k) :
    ofRat (v * 10 ^ k) = Double.ofBits Double.infinityBits := by
  refine Double.ofRat_infinity ?_
  have hbound : (2 : ℚ) ^ 54 * 2 ^ 970 ≤ 10 ^ 309 := by exact_mod_cast infinity_bound
  have hpow : (10 : ℚ) ^ (309 : ℤ) ≤ 10 ^ k := zpow_le_zpow_right₀ (by norm_num) hk
  have hone : (1 : ℚ) ≤ v := by exact_mod_cast hv
  have hpos : (0 : ℚ) < 10 ^ k := by positivity
  calc ((2 : ℚ) ^ 54 - 1) * 2 ^ 970 ≤ 2 ^ 54 * 2 ^ 970 :=
        mul_le_mul_of_nonneg_right (sub_le_self _ zero_le_one) (by positivity)
    _ ≤ (10 : ℚ) ^ 309 := hbound
    _ ≤ 10 ^ k := hpow
    _ ≤ v * 10 ^ k := le_mul_of_one_le_left hpos.le hone

/-- Numbers so small are below all doubles. -/
theorem ofRat_tiny {v digits : Nat} {k : Int} (hv : v < 10 ^ digits) (hk : k + digits ≤ -324) :
    ofRat (v * 10 ^ k) = Double.ofBits 0 := by
  refine Double.ofRat_zero ?_
  have hbound : (2 : ℚ) ^ 1075 ≤ 10 ^ 324 := by exact_mod_cast zero_bound
  have hvq : (v : ℚ) ≤ 10 ^ (digits : ℤ) := by
    exact_mod_cast le_of_lt hv
  have hpow : (10 : ℚ) ^ (digits + k) ≤ 10 ^ (-324 : ℤ) := zpow_le_zpow_right₀ (by norm_num) (by omega)
  have hpos : (0 : ℚ) < 10 ^ k := by positivity
  calc (v : ℚ) * 10 ^ k ≤ 10 ^ (digits : ℤ) * 10 ^ k := mul_le_mul_of_nonneg_right hvq hpos.le
    _ = 10 ^ (digits + k) := (zpow_add₀ (by norm_num) _ _).symm
    _ ≤ 10 ^ (-324 : ℤ) := hpow
    _ ≤ 2 ^ (-1075 : ℤ) := by
      exact inv_anti₀ (by positivity) hbound

/-- Where the exponent is limited the digits cannot make up for it. -/
def Literal.Decisive (l : Literal) : Prop :=
  (maxExponent < l.exponent → l.fraction.length + 309 ≤ maxExponent) ∧
    (l.exponent < -maxExponent → l.integer.length + 324 ≤ maxExponent)

theorem Literal.ofRat_clamp {l : Literal} (hdigs : AllDigits (l.integer ++ l.fraction)) (h : l.Decisive) :
    ofRat (decimalValue 0 (l.integer ++ l.fraction) * 10 ^ (clamp l.exponent - l.fraction.length)) =
      ofRat l.value := by
  have hlt := decimalValue_lt _ 0 hdigs
  rw [zero_add, one_mul, length_append] at hlt
  unfold Literal.value
  obtain ⟨hhigh, hlow⟩ := h
  generalize l.exponent = e at hhigh hlow
  rcases lt_or_ge maxExponent e with hgt | hle
  · rcases Nat.eq_zero_or_pos (decimalValue 0 (l.integer ++ l.fraction)) with h0 | hpos
    · rw [h0, Nat.cast_zero, zero_mul, zero_mul]
    · have hclamp : clamp e = maxExponent := by
        unfold clamp
        omega
      rw [ofRat_huge hpos (by omega), ofRat_huge hpos (by omega)]
  · rcases lt_or_ge e (-maxExponent) with hlt' | hge
    · have hclamp : clamp e = -maxExponent := by
        unfold clamp
        omega
      rw [ofRat_tiny hlt (by omega), ofRat_tiny hlt (by omega)]
    · simp_all [clamp]

/-- The digits of the exponent are digits, behind its letter and its sign. -/
theorem exponentOf_digits (rest : List Nat) : AllDigits (exponentOf rest).2 ∧ ((exponentOf rest).2 ≠ [] →
      (exponentOf rest).2.length + 1 + (if (exponentOf rest).1 then 1 else 0) ≤ rest.length) := by
  have hnil : AllDigits [] := fun _ hc => absurd hc not_mem_nil
  have htake : ∀ cs : List Nat, (cs.takeWhile isDigit).length ≤ cs.length := fun cs =>
    (takeWhile_sublist isDigit).length_le
  cases rest with
  | nil => exact ⟨hnil, fun h => absurd rfl h⟩
  | cons c cs =>
    by_cases hc : c = 101 ∨ c = 69
    · cases cs with
      | nil =>
        rw [exponentOf_end hc]
        exact ⟨hnil, fun h => absurd rfl h⟩
      | cons sign rest =>
        have h1 := htake rest
        have h2 := htake (sign :: rest)
        rw [exponentOf_cons hc, length_cons, length_cons]
        rw [length_cons] at h2
        split
        · refine ⟨allDigits_takeWhile rest, fun _ => ?_⟩
          dsimp only
          split <;> omega
        · simp_all [allDigits_takeWhile]
    · rw [exponentOf_other hc]
      exact ⟨hnil, fun h => absurd rfl h⟩

theorem literalOf_length (cs : List Nat) : ∃ rest, (literalOf cs).exponent = exponentAt rest ∧
    (literalOf cs).integer.length + (literalOf cs).fraction.length + rest.length ≤ cs.length := by
  have hlen : (cs.takeWhile isDigit).length + (cs.dropWhile isDigit).length = cs.length := by
    rw [← length_append, takeWhile_append_dropWhile]
  refine ⟨_, literalOf_exponent cs, ?_⟩
  unfold literalOf
  grind [takeWhile_append_dropWhile, length_tail]

/-- An exponent that is limited has ten digits. -/
theorem exponentAt_length {rest : List Nat} (h : maxExponent < exponentAt rest ∨ exponentAt rest < -maxExponent) :
    11 ≤ rest.length ∧ (exponentAt rest < 0 → 12 ≤ rest.length) := by
  have hmax := maxExponent_eq
  obtain ⟨hdigs, hlen⟩ := exponentOf_digits rest
  have hlt := decimalValue_lt _ 0 hdigs
  unfold exponentAt signedValue at h ⊢
  generalize (exponentOf rest).2 = ds at h hlt hlen ⊢
  have hten : 10 ≤ ds.length := by
    by_contra hfew
    have hpow : 10 ^ ds.length ≤ 10 ^ 9 := Nat.pow_le_pow_right (by decide) (by omega)
    omega
  have hbound := hlen (fun hnil => by rw [hnil] at hten; exact absurd hten (by decide))
  grind

theorem decisive_of_length (h : cs.length < 2 ^ 30 - 312) : (literalOf cs).Decisive := by
  have hmax := maxExponent_eq
  obtain ⟨rest, hexp, hlen⟩ := literalOf_length cs
  unfold Literal.Decisive
  rw [hexp]
  constructor
  · intro hgt
    omega
  · intro hlt
    have hten := exponentAt_length (.inr hlt)
    omega

theorem literal_eq (chars : List Nat) : ∃ cs, literal chars = literalOf cs ∧ cs.length ≤ chars.length := by
  grind [dropWhile_sublist, literal, advanceToNonspace]

theorem allDigits_literalOf (cs : List Nat) : AllDigits ((literalOf cs).integer ++ (literalOf cs).fraction) := by
  intro c hc
  refine (mem_append.1 hc).elim (allDigits_takeWhile cs c) fun h => ?_
  unfold literalOf at h
  dsimp only at h
  split at h
  · exact allDigits_takeWhile _ c h
  · exact absurd h not_mem_nil

/-- Nothing is read behind the end or written behind the buffer, an `int` overflows in long
strings only, and `Strtod` gets a number that is rounded like the literal. -/
theorem internalStringToDouble_correct (flags : Flags) (chars : List Nat) :
    (∀ fault, internalStringToDouble flags chars = .error fault →
      (fault = .overflow ∨ fault = .assertion) ∧ 2 ^ 28 ≤ chars.length) ∧
    ∀ negative buffer exponent, internalStringToDouble flags chars = .ok (.strtod negative buffer exponent) →
      chars.length < 2 ^ 30 - 312 ∨ (literal chars).exponent.natAbs ≤ 2 ^ 30 - 1 →
      ofRat (decimalValue 0 buffer * 10 ^ exponent) = ofRat (literal chars).value := by
  have hsafe : Safe (2 ^ 29 ≤ chars.length) _ _ := internalStringToDouble_handsOver flags chars not_le.1
  constructor
  · intro fault hfault
    rw [hfault] at hsafe
    cases fault with
    | readAtEnd => exact hsafe.elim
    | bufferOverflow => exact hsafe.elim
    | overflow => exact ⟨.inl rfl, le_trans (by decide) hsafe⟩
    | assertion => exact ⟨.inr rfl, le_trans (by decide) hsafe⟩
  · intro negative buffer exponent hrun hlimit
    rw [hrun] at hsafe
    obtain ⟨cs, hliteral, hlen⟩ := literal_eq chars
    have hdecisive : (literal chars).Decisive := by
      rcases hlimit with hshort | hsmall
      · rw [hliteral]
        exact decisive_of_length (by omega)
      · have hmax := maxExponent_eq
        unfold Literal.Decisive
        omega
    refine (hsafe negative buffer exponent rfl).trans (Literal.ofRat_clamp ?_ hdecisive)
    rw [hliteral]
    exact allDigits_literalOf cs

/-- `1.5e3` -/
theorem internalStringToDouble_correct_point :
    ofRat (decimalValue 0 [49, 53] * 10 ^ (2 : ℤ)) = ofRat (literal [49, 46, 53, 101, 51]).value :=
  (internalStringToDouble_correct ⟨false, false, false⟩ [49, 46, 53, 101, 51]).2 false [49, 53] 2 (by decide)
    (.inl (by decide))

/-! ## An exponent that is limited -/

theorem Safe.exists_ok {α : Type} {x : Except Fault α} {P : α → Prop} (h : Safe False x P) : ∃ a, x = .ok a ∧ P a := by
  cases x with
  | ok a => exact ⟨a, rfl, h⟩
  | error fault => cases fault <;> exact h.elim

/-- `e-1073741824` -/
def hugeExponent : List Nat := [101, 45, 49, 48, 55, 51, 55, 52, 49, 56, 50, 52]

theorem exponentPart_huge (h : Tracks S 0 0 s) (hS : AllDigits S) (hfirst : S.head? ≠ some 48)
    (hshort : S.length ≤ 2 ^ 30) (hoctal : s.octal = false) : ∃ buffer exponent,
    exponentPart flags negative s hugeExponent = .ok (.strtod negative buffer exponent) ∧
      ofRat (decimalValue 0 buffer * 10 ^ exponent) = ofRat (decimalValue 0 S * 10 ^ (-(2 ^ 30 - 1) : ℤ)) := by
  have hexp : s.exponent = 0 := by
    have := h.low
    have := h.high
    omega
  have hshift := h.shift (-(2 ^ 30 - 1))
  have hdone := Safe.exists_ok (parsingDone_safe negative hshift fun _ => by omega)
  obtain ⟨o, hrun, ho⟩ := hdone
  rw [if_neg (by rw [hoctal]; exact Bool.false_ne_true)] at ho
  obtain ⟨buffer, exponent, rfl, hhanded⟩ := ho
  refine ⟨buffer, exponent, ?_, ?_⟩
  · rw [← hrun, exponentPart, hoctal]
    show exponentValue flags negative true s hugeExponent.tail.tail = _
    have hdigs : exponentDigits hugeExponent.tail.tail 0 = .ok (2 ^ 30 - 1, []) := rfl
    have hassert : -(maxExponent / 2) ≤ s.exponent ∧ s.exponent ≤ maxExponent / 2 := by
      rw [hexp]
      decide
    have hchecked : checked (s.exponent + if true then -(2 ^ 30 - 1) else 2 ^ 30 - 1) =
        .ok (s.exponent + -(2 ^ 30 - 1)) := by
      rw [hexp]
      rfl
    show (if -(maxExponent / 2) ≤ s.exponent ∧ s.exponent ≤ maxExponent / 2 then _ else _) = _
    rw [if_pos hassert]
    show (checked (s.exponent + if true then -(2 ^ 30 - 1) else 2 ^ 30 - 1) >>= _) = _
    rw [hchecked]
    show trailing flags negative _ [] = _
    rw [trailing, if_neg fun h => h.2 rfl, hoctal]
  · have heq := hhanded.ofRat_eq hS hfirst
    rwa [Nat.cast_zero, sub_zero] at heq

/-- A one, zeros, and the exponent. -/
def hugeLiteral (zeros : Nat) : List Nat := 49 :: (replicate zeros 48 ++ hugeExponent)

theorem hugeLiteral_digits (zeros : Nat) : (hugeLiteral zeros).takeWhile isDigit = 49 :: replicate zeros 48 ∧
    (hugeLiteral zeros).dropWhile isDigit = hugeExponent := by
  unfold hugeLiteral
  rw [takeWhile_cons_of_pos (by decide), dropWhile_cons_of_pos (by decide), takeWhile_zeros, dropWhile_zeros]
  exact ⟨congrArg _ (append_nil _), rfl⟩

theorem hugeLiteral_space (zeros : Nat) : advanceToNonspace (hugeLiteral zeros) = hugeLiteral zeros :=
  dropWhile_cons_of_neg (by decide)

theorem hugeLiteral_value (zeros : Nat) : (literal (hugeLiteral zeros)).value = 10 ^ (zeros - 2 ^ 30 : ℤ) ∧
    decimalValue 0 (49 :: replicate zeros 48) = 10 ^ zeros := by
  have hvalue : decimalValue 0 (49 :: replicate zeros 48) = 10 ^ zeros := by
    have happ := decimalValue_append [49] (b := replicate zeros 48) fun c hc => by
      rw [eq_of_mem_replicate hc]
      decide
    have hnil := decimalValue_zeros zeros []
    simp_all [decimalValue]
  refine ⟨?_, hvalue⟩
  have hliteral : literal (hugeLiteral zeros) = literalOf (hugeLiteral zeros) := by
    rfl
  have hparts : literalOf (hugeLiteral zeros) =
      ⟨49 :: replicate zeros 48, [], true, [49, 48, 55, 51, 55, 52, 49, 56, 50, 52]⟩ := by
    rw [literalOf, (hugeLiteral_digits zeros).1, (hugeLiteral_digits zeros).2]
    rfl
  rw [hliteral, hparts, Literal.value, append_nil, hvalue, Nat.cast_pow, ← zpow_natCast,
    show ((10 : ℕ) : ℚ) = 10 by norm_num, ← zpow_add₀ (by norm_num)]
  rfl

theorem scan_zeros (flags : Flags) {zeros : Nat} (hzeros : zeros < 2 ^ 30) : ∃ buffer exponent,
    internalStringToDouble flags (hugeLiteral zeros) = .ok (.strtod false buffer exponent) ∧
      ofRat (decimalValue 0 buffer * 10 ^ exponent) = ofRat (10 ^ (zeros - (2 ^ 30 - 1) : ℤ)) := by
  obtain ⟨htake, hdrop⟩ := hugeLiteral_digits zeros
  have hdigs := htake ▸ allDigits_takeWhile _
  have hstart : Tracks [] 0 0 ⟨[], 0, 0, 0, false, false⟩ := by constructor <;> simp
  obtain ⟨⟨s, current⟩, hrun, rfl, hs, hoctal⟩ :=
    Safe.exists_ok (integerDigits_safe (hugeLiteral zeros) [] _ (cons_ne_nil _ _) hstart fun _ => by
      have hlen : hugeExponent.length = 12 := rfl
      grind [hugeLiteral])
  rw [htake, nil_append] at hs
  obtain ⟨buffer, exponent, hpart, heq⟩ := exponentPart_huge flags false hs hdigs (by simp)
    (by rw [length_cons, length_replicate]; omega) (hoctal rfl)
  refine ⟨buffer, exponent, ?_, ?_⟩
  · have hsignificant : s.significantDigits ≠ 0 := by
      rw [hs.significant_eq, length_cons]
      have hmax : kMaxSignificantDigits = 772 := rfl
      omega
    rw [← hpart, internalStringToDouble, hugeLiteral_space]
    show digitsPart flags false false _ = _
    rw [digitsPart, Bool.false_and, hrun, hdrop]
    show afterDigits flags false false (if s.significantDigits = 0 then _ else s) hugeExponent = _
    rw [if_neg hsignificant, afterDigits, if_neg fun h => hsignificant h.2.2]
    rfl
  simp [hugeLiteral_value, zpow_add₀, sub_eq_add_neg, heq]

/-- `2 ^ 30 - 15` zeros behind a one, and the exponent `-2 ^ 30`: the literal is a tenth of the
number that is handed over. -/
theorem internalStringToDouble_limits : ∃ buffer exponent,
    internalStringToDouble ⟨false, false, false⟩ (hugeLiteral (2 ^ 30 - 15)) = .ok (.strtod false buffer exponent) ∧
      ofRat (decimalValue 0 buffer * 10 ^ exponent) ≠ ofRat (literal (hugeLiteral (2 ^ 30 - 15))).value := by
  obtain ⟨zeros, hzeros⟩ : ∃ zeros, zeros = 2 ^ 30 - 15 := ⟨_, rfl⟩
  rw [← hzeros]
  obtain ⟨buffer, exponent, hrun, heq⟩ := scan_zeros ⟨false, false, false⟩ (show zeros < 2 ^ 30 by omega)
  refine ⟨buffer, exponent, hrun, ?_⟩
  rw [heq, (hugeLiteral_value zeros).1, show (zeros - (2 ^ 30 - 1) : ℤ) = -14 by omega,
    show (zeros - 2 ^ 30 : ℤ) = -15 by omega]
  -- only the first of the two is above `2 ^ -48`
  intro hsame
  have hlower := Double.lower_succ (n := 975 * 2 ^ 52 - 1) (by decide)
  rw [show (Double.ofBits (975 * 2 ^ 52 - 1)).significand = 2 ^ 53 - 1 by decide,
    show (Double.ofBits (975 * 2 ^ 52 - 1)).exponent = -101 by decide] at hlower
  have hreaches : ∀ x : ℚ, Double.Reaches x (Double.ofBits (975 * 2 ^ 52)) ↔
      ((2 * (2 ^ 53 - 1) + 1 : ℕ) : ℚ) * 2 ^ (-101 - 1 : ℤ) ≤ x := fun x => by
    rw [← hlower, Double.Reaches, if_pos (by decide)]
    rfl
  have hfirst : Double.Reaches (10 ^ (-14 : ℤ)) (Double.ofBits (975 * 2 ^ 52)) := by
    rw [hreaches]
    norm_num
  rw [Double.reaches_iff (by decide) (by decide), hsame, ← Double.reaches_iff (by decide) (by decide), hreaches] at hfirst
  norm_num at hfirst

end W16.StringScanner
