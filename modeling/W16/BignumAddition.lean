import W16.BignumValue

/-!
# Assignment, addition and subtraction

Each loop is described after any number of rounds: what it has written, what it has left
alone, and the value of the bigits together with the carry or the borrow.
-/
namespace W16.Bignum

open Positional Function

variable {bs other : Nat → Nat}

variable {v : Nat} {bs : Nat → Nat} {b o : Bignum}

theorem update_lt {k : Nat} (h : ∀ j, bs j < radix) (hv : v < radix) (j : Nat) : update bs k v j < radix := by
  grind

/-! ## Assignment -/

/-- A number in one stored bigit. -/
theorem single_valid (hbs : ∀ j, bs j = 0) (hv : v < radix) (h0 : v ≠ 0) : Valid ⟨update bs 0 v, 1, 0⟩ where
  lt := update_lt (fun j => by rw [hbs j]; exact Nat.two_pow_pos 28) hv
  above := fun i hi => by
    grind
  used_le := show 1 ≤ 128 by decide
  exponent_lt := Nat.two_pow_pos 31
  clamped := .inr (by simpa using h0)
  zero := fun _ => rfl

theorem assignUInt16_meets (h : b.Valid) (hv : v < 2 ^ 16) :
    Meets (assignUInt16 b v) (fun r => r.Valid ∧ r.value = v) (Refused False) := by
  unfold assignUInt16
  by_cases h0 : v = 0
  · rw [if_pos h0, h0]
    exact ⟨zero_valid h, zero_value b⟩
  · rw [if_neg h0]
    refine Meets.pure ⟨single_valid (zero_bigits h) (by unfold radix; omega) h0, ?_⟩
    simp [value_eq, mantissa]

theorem splitLoop_frame (bs : Nat → Nat) (v i : Nat) {j : Nat} (hj : i ≤ j) :
    (splitLoop bs v i).1 j = bs j := by
  induction i with
  | zero => rfl
  | succ i ih =>
    show update (splitLoop bs v i).1 i _ j = bs j
    rw [update_of_ne (by omega)]
    exact ih (by omega)

theorem splitLoop_lt (h : ∀ j, bs j < radix) (v i j : Nat) : (splitLoop bs v i).1 j < radix := by
  induction i generalizing j with
  | zero => exact h j
  | succ i ih =>
    refine update_lt ih ?_ j
    rw [chunk_mod]
    exact Nat.mod_lt _ (Nat.two_pow_pos 28)

theorem splitLoop_value (bs : Nat → Nat) (v i : Nat) :
    ofLimbs radix (splitLoop bs v i).1 i + (splitLoop bs v i).2 * radix ^ i = v := by
  induction i with
  | zero => simp [splitLoop]
  | succ i ih =>
    show ofLimbs radix (update (splitLoop bs v i).1 i (chunk ((splitLoop bs v i).2 % radix))) (i + 1) +
      (splitLoop bs v i).2 / radix * radix ^ (i + 1) = v
    rw [ofLimbs_update_succ, chunk_mod, pow_succ]
    have hdiv := congrArg (· * radix ^ i) (Nat.mod_add_div (splitLoop bs v i).2 radix)
    linarith

theorem assignUInt64_meets (h : b.Valid) (hv : v < 2 ^ 64) :
    Meets (assignUInt64 b v) (fun r => r.Valid ∧ r.value = v ∧ r.exponent = 0) (Refused False) := by
  unfold assignUInt64
  by_cases h0 : v = 0
  · rw [if_pos h0, h0]
    exact ⟨zero_valid h, zero_value b, rfl⟩
  · rw [if_neg h0]
    have hlt := (zero_valid h).lt
    have hloose : Loose ⟨(splitLoop (zero b).bigits v 3).1, 3, 0⟩ :=
      ⟨splitLoop_lt hlt v 3, fun i hi => (splitLoop_frame _ v 3 hi).trans (zero_bigits h i),
        show 3 ≤ 128 by decide, Nat.two_pow_pos 31⟩
    refine Meets.pure ⟨clamp_valid hloose, ?_, ?_⟩
    · have hrest : (splitLoop (zero b).bigits v 3).2 = 0 := by
        exact Nat.div_eq_of_lt (by norm_num [radix]; omega)
      have := splitLoop_value (zero b).bigits v 3
      rw [hrest] at this
      refine (clamp_value hloose).trans ?_
      rw [value_eq]
      simpa [mantissa] using this
    · simp [clamp]

theorem assignBignum_bigits (h : b.Valid) (ho : o.Valid) (i : Nat) :
    (assignBignum b o).bigits i = o.bigits i := by
  unfold assignBignum
  by_cases hi : i < o.used
  · simp [hi]
  · rw [ho.above i (by omega)]
    by_cases hb : i < b.used
    · simp [hi, hb]
    · simp [hi, hb, h.above i (by omega)]

theorem assignBignum_eq (h : b.Valid) (ho : o.Valid) : assignBignum b o = o := by
  have hbs := funext (assignBignum_bigits h ho)
  simp_all [assignBignum]

/-! ## Addition -/

theorem addLoop_frame (bs other : Nat → Nat) (pos i : Nat) {j : Nat} (hj : j < pos ∨ pos + i ≤ j) :
    (addLoop bs other pos i).1 j = bs j := by
  induction i with
  | zero => rfl
  | succ i ih =>
    show update (addLoop bs other pos i).1 (pos + i) _ j = bs j
    rw [update_of_ne (by omega)]
    exact ih (by omega)

theorem addLoop_lt (h : ∀ j, bs j < radix) (pos i j : Nat) : (addLoop bs other pos i).1 j < radix := by
  induction i generalizing j with
  | zero => exact h j
  | succ i ih => exact update_lt ih (Nat.mod_lt _ (Nat.two_pow_pos 28)) j

/-- One round: the sum fits a chunk. -/
theorem add_step {x y carry : Nat} (hx : x < radix) (hy : y < radix) (hc : carry ≤ 1) :
    chunk (x + y + carry) % radix + radix * (chunk (x + y + carry) / radix) = x + y + carry ∧
      chunk (x + y + carry) / radix ≤ 1 := by
  rw [chunk_eq (by unfold radix at hx hy; omega)]
  unfold radix at *
  omega

theorem addLoop_carry (h : ∀ j, bs j < radix) (ho : ∀ j, other j < radix) (pos i : Nat) :
    (addLoop bs other pos i).2 ≤ 1 := by
  induction i with
  | zero => exact Nat.zero_le 1
  | succ i ih => exact (add_step (addLoop_lt h pos i _) (ho i) ih).2

theorem addLoop_value (h : ∀ j, bs j < radix) (ho : ∀ j, other j < radix) (pos i : Nat) {n : Nat}
    (hn : pos + i ≤ n) :
    ofLimbs radix (addLoop bs other pos i).1 n + (addLoop bs other pos i).2 * radix ^ (pos + i) =
      ofLimbs radix bs n + radix ^ pos * ofLimbs radix other i := by
  induction i with
  | zero => simp [addLoop]
  | succ i ih =>
    have ih := ih (by omega)
    obtain ⟨hstep, -⟩ := add_step (addLoop_lt h pos i (pos + i)) (ho i) (addLoop_carry h ho pos i)
    show ofLimbs radix (update (addLoop bs other pos i).1 (pos + i) _) n +
      chunk ((addLoop bs other pos i).1 (pos + i) + other i + (addLoop bs other pos i).2) / radix *
        radix ^ (pos + i + 1) = ofLimbs radix bs n + _
    have hup := ofLimbs_update (B := radix) (addLoop bs other pos i).1
      (chunk ((addLoop bs other pos i).1 (pos + i) + other i + (addLoop bs other pos i).2) % radix)
      (show pos + i < n by omega)
    have hmul := congrArg (· * radix ^ (pos + i)) hstep
    rw [ofLimbs_succ, pow_succ radix (pos + i), mul_add,
      show radix ^ pos * (other i * radix ^ i) = other i * radix ^ (pos + i) by ring]
    linarith

@[simp] theorem addCarry_zero (fuel : Nat) (bs : Nat → Nat) (pos : Nat) :
    addCarry fuel bs pos 0 = (bs, pos) := by
  cases fuel <;> rfl

/-- What the carry loop does when the bigits are zero from `top` on and there is fuel to get there. -/
structure Carried (bs : Nat → Nat) (pos carry top : Nat) (r : (Nat → Nat) × Nat) : Prop where
  lt : ∀ j, r.1 j < radix
  above : ∀ j, max r.2 top ≤ j → r.1 j = 0
  le_pos : pos ≤ r.2
  pos_le : r.2 ≤ max pos (top + 1)
  frame : ∀ j, r.2 ≤ j → r.1 j = bs j
  last : carry ≠ 0 → r.1 (r.2 - 1) ≠ 0
  value : ∀ n, top < n → ofLimbs radix r.1 n = ofLimbs radix bs n + carry * radix ^ pos

theorem addCarry_carried (fuel : Nat) {pos carry top : Nat}
    (hlt : ∀ j, bs j < radix) (htop : ∀ j, top ≤ j → bs j = 0) (hc : carry ≤ 1)
    (hfuel : carry ≠ 0 → pos ≤ top ∧ top < pos + fuel) :
    Carried bs pos carry top (addCarry fuel bs pos carry) := by
  induction fuel generalizing bs pos carry with
  | zero =>
    have h0 : carry = 0 := by
      by_contra h
      omega
    subst h0
    exact ⟨hlt, fun j hj => htop j (by omega), le_refl _, le_max_left _ _, fun _ _ => rfl,
      fun h => absurd rfl h, fun n _ => by simp [addCarry]⟩
  | succ fuel ih =>
    by_cases h0 : carry = 0
    · subst h0
      exact ⟨by simpa using hlt, fun j hj => by simpa using htop j (by omega), by simp,
        by simp, fun _ _ => by simp, fun h => absurd rfl h, fun n _ => by simp⟩
    · obtain ⟨hsum, hc'⟩ := add_step (hlt pos) (Nat.two_pow_pos 28 : 0 < radix) hc
      rw [add_zero] at hsum hc'
      have hstep : addCarry (fuel + 1) bs pos carry =
          addCarry fuel (update bs pos (chunk (bs pos + carry) % radix)) (pos + 1)
            (chunk (bs pos + carry) / radix) := by
        rw [addCarry, if_neg h0]
      have hlt' : ∀ j, update bs pos (chunk (bs pos + carry) % radix) j < radix :=
        update_lt hlt (Nat.mod_lt _ (Nat.two_pow_pos 28))
      -- the value after the write, with the next carry
      have hval : ∀ n, top < n → ofLimbs radix (update bs pos (chunk (bs pos + carry) % radix)) n +
            chunk (bs pos + carry) / radix * radix ^ (pos + 1) =
          ofLimbs radix bs n + carry * radix ^ pos := by
        intro n hn
        have hup := ofLimbs_update (B := radix) bs (chunk (bs pos + carry) % radix) (show pos < n by omega)
        have hmul := congrArg (· * radix ^ pos) hsum
        rw [pow_succ]
        linarith
      rw [hstep]
      generalize hq : chunk (bs pos + carry) / radix = q at hsum hc' hval ⊢
      by_cases hz : q = 0
      · -- the carry is absorbed here
        subst hz
        rw [addCarry_zero]
        refine ⟨hlt', fun j hj => ?_, Nat.le_succ pos, by omega, fun j hj => ?_, fun _ => ?_, fun n hn => ?_⟩
        · simp only [max_le_iff] at hj
          show update bs pos _ j = 0
          grind -linarith
        · exact update_of_ne (by omega) _ _
        · show update bs pos _ (pos + 1 - 1) ≠ 0
          grind -linarith
        · simpa using hval n hn
      · have hne : bs pos ≠ 0 := by
          grind -linarith
        have hpt : pos < top := by
          by_contra hge
          exact hne (htop pos (by omega))
        have htop' : ∀ j, top ≤ j → update bs pos (chunk (bs pos + carry) % radix) j = 0 := by
          grind -linarith
        have hr : Carried _ (pos + 1) q top _ := ih hlt' htop' hc' fun _ => ⟨by omega, by omega⟩
        refine ⟨hr.lt, hr.above, by have := hr.le_pos; omega, by have := hr.pos_le; omega,
          fun j hj => ?_, fun _ => hr.last hz, fun n hn => ?_⟩
        · have := hr.le_pos
          rw [hr.frame j hj, update_of_ne (by omega)]
        · rw [hr.value n hn]
          exact hval n hn

/-- The number the loops of `AddBignum` leave, from what they are known to do. -/
theorem added {a : Bignum} (ha : a.Valid) (ho : o.Valid) {off carry : Nat}
    {r : (Nat → Nat) × Nat} (hcap : max a.used (off + o.used) < 128) (hexp : o.exponent = a.exponent + off)
    (hframe : ∀ j, off + o.used ≤ j → bs j = a.bigits j)
    (hsum : ∀ n, off + o.used ≤ n → ofLimbs radix bs n + carry * radix ^ (off + o.used) =
      ofLimbs radix a.bigits n + radix ^ off * ofLimbs radix o.bigits o.used)
    (hr : Carried bs (off + o.used) carry (max a.used (off + o.used)) r)
    (hstay : carry = 0 → r.2 = off + o.used) :
    Valid ⟨r.1, max r.2 a.used, a.exponent⟩ ∧ value ⟨r.1, max r.2 a.used, a.exponent⟩ = a.value + o.value := by
  obtain ⟨bs', pos⟩ := r
  have hlow : off + o.used ≤ pos := hr.le_pos
  have hhigh := hr.pos_le
  have hmant : ofLimbs radix bs' (max pos a.used) = a.mantissa + radix ^ off * o.mantissa := by
    have hbig : max a.used (off + o.used) < max pos (max a.used (off + o.used) + 1) := by omega
    have h1 := hr.value _ hbig
    have h2 := hsum _ (show off + o.used ≤ max pos (max a.used (off + o.used) + 1) by omega)
    have h3 : ofLimbs radix bs' (max pos (max a.used (off + o.used) + 1))
        = ofLimbs radix bs' (max pos a.used) :=
      ofLimbs_extend (fun i hi => hr.above i (by omega)) (by omega)
    have h4 : ofLimbs radix a.bigits (max pos (max a.used (off + o.used) + 1)) = a.mantissa :=
      ofLimbs_extend ha.above (by omega)
    rw [h3] at h1
    rw [h4] at h2
    exact h1.trans h2
  refine ⟨⟨hr.lt, fun i hi => ?_, ?_, ha.exponent_lt, ?_, fun hu => ?_⟩, ?_⟩
  · have hi' : max pos a.used ≤ i := hi
    exact hr.above i (by omega)
  · show max pos a.used ≤ 128
    omega
  · show max pos a.used = 0 ∨ bs' (max pos a.used - 1) ≠ 0
    rcases Nat.lt_or_ge pos a.used with hp | hp
    · -- the loops stop below the top bigit of `a`
      right
      rw [max_eq_right (by omega), show bs' (a.used - 1) = bs (a.used - 1) from
        hr.frame _ (show pos ≤ a.used - 1 by omega), hframe _ (by omega)]
      exact ha.clamped.resolve_left (by omega)
    · rw [max_eq_left hp] at hmant ⊢
      by_cases hc : carry = 0
      · by_cases hu : o.used = 0
        · have := ho.zero hu
          omega
        · have hle : radix ^ (pos - 1) ≤ radix ^ off * o.mantissa := by
            rw [show pos - 1 = off + (o.used - 1) by omega, pow_add]
            exact Nat.mul_le_mul_left _ (ho.le_mantissa hu)
          refine .inr (limb_ne_zero (B := radix) (fun i _ => hr.lt i) ?_)
          grind
      · exact .inr (hr.last hc)
  · have hu' : max pos a.used = 0 := hu
    exact ha.zero (by omega)
  · rw [value_eq, value_eq a, value_eq o, hexp]
    show ofLimbs radix bs' (max pos a.used) * radix ^ a.exponent = _
    rw [hmant, pow_add]
    ring

theorem addBignum_meets {a : Bignum} (ha : a.Valid) (ho : o.Valid) :
    Meets (addBignum a o) (fun r => r.Valid ∧ r.value = a.value + o.value)
      (Refused (128 ≤ a.used + a.exponent ∨ 128 ≤ o.used + o.exponent)) := by
  refine (align_meets ha).bind (Refused.mono fun h' => .inl (by omega)) ?_
  rintro a' ⟨ha', hvalue, hexp, hlen⟩
  refine (bigitLength_meets a').bind (Refused.mono fun h' => .inl (by omega)) ?_
  rintro _ ⟨rfl, -⟩
  refine (bigitLength_meets o).bind (Refused.mono fun h' => .inr (by omega)) ?_
  rintro _ ⟨rfl, -⟩
  refine (int_meets _).bind (Refused.mono fun h' => by omega) ?_
  rintro _ ⟨rfl, -⟩
  refine (ensureCapacity_meets _).bind (Refused.mono fun h' => by omega) fun _ hcap => ?_
  obtain ⟨off, hoff⟩ : ∃ off, off = o.exponent - a'.exponent := ⟨_, rfl⟩
  rw [← hoff]
  have hframe : ∀ j, off + o.used ≤ j → (addLoop a'.bigits o.bigits off o.used).1 j = a'.bigits j :=
    fun j hj => addLoop_frame _ _ off o.used (.inr hj)
  have hr : Carried (addLoop a'.bigits o.bigits off o.used).1 (off + o.used)
      (addLoop a'.bigits o.bigits off o.used).2 (max a'.used (off + o.used)) _ :=
    addCarry_carried kBigitCapacity (addLoop_lt ha'.lt off o.used)
      (fun j hj => (hframe j (by omega)).trans (ha'.above j (by omega)))
      (addLoop_carry ha'.lt ho.lt off o.used)
      (fun _ => ⟨le_max_right _ _, by unfold kBigitCapacity; omega⟩)
  rw [← hvalue]
  have hres := added ha' ho (by omega) (by omega) hframe
    (fun n hn => addLoop_value ha'.lt ho.lt off o.used hn) hr (fun hc => by rw [hc, addCarry_zero])
  exact Meets.pure hres

theorem addUInt64_meets (h : b.Valid) (hv : v < 2 ^ 64) :
    Meets (addUInt64 b v) (fun r => r.Valid ∧ r.value = b.value + v) (Refused (128 ≤ b.used + b.exponent)) := by
  unfold addUInt64
  by_cases h0 : v = 0
  · rw [if_pos h0, h0]
    exact ⟨h, rfl⟩
  · rw [if_neg h0]
    refine (assignUInt64_meets empty_valid hv).bind (Refused.mono False.elim) ?_
    rintro o ⟨ho, hval, hexp⟩
    refine (addBignum_meets h ho).mono (fun r hr => by rw [← hval]; exact hr)
      (Refused.mono fun h' => h'.resolve_right ?_)
    have : o.value < radix ^ 3 := by rw [hval]; exact lt_trans hv (by decide)
    have := length_le ho this
    omega

/-! ## Subtraction -/

/-- One round of a subtraction. The sign of the difference is the next borrow. -/
theorem subtract_step {x y borrow : Nat} (hx : x < radix) (hy : y < radix) (hb : borrow ≤ 1) :
    chunkSub x y borrow % radix + y + borrow = x + radix * (chunkSub x y borrow / 2 ^ 31) ∧
      chunkSub x y borrow / 2 ^ 31 ≤ 1 := by
  unfold chunkSub chunk radix at *
  omega

theorem subtractLoop_frame (bs other : Nat → Nat) (off i : Nat) {j : Nat} (hj : i + off ≤ j) :
    (subtractLoop bs other off i).1 j = bs j := by
  induction i with
  | zero => rfl
  | succ i ih =>
    show update (subtractLoop bs other off i).1 (i + off) _ j = bs j
    rw [update_of_ne (by omega)]
    exact ih (by omega)

theorem subtractLoop_lt (h : ∀ j, bs j < radix) (off i j : Nat) :
    (subtractLoop bs other off i).1 j < radix := by
  induction i generalizing j with
  | zero => exact h j
  | succ i ih => exact update_lt ih (Nat.mod_lt _ (Nat.two_pow_pos 28)) j

theorem subtractLoop_borrow (h : ∀ j, bs j < radix) (ho : ∀ j, other j < radix) (off i : Nat) :
    (subtractLoop bs other off i).2 ≤ 1 := by
  induction i with
  | zero => exact Nat.zero_le 1
  | succ i ih => exact (subtract_step (subtractLoop_lt h off i _) (ho i) ih).2

theorem subtractLoop_value (h : ∀ j, bs j < radix) (ho : ∀ j, other j < radix) (off i : Nat) {n : Nat}
    (hn : i + off ≤ n) :
    ofLimbs radix (subtractLoop bs other off i).1 n + radix ^ off * ofLimbs radix other i =
      ofLimbs radix bs n + (subtractLoop bs other off i).2 * radix ^ (i + off) := by
  induction i with
  | zero => simp [subtractLoop]
  | succ i ih =>
    have ih := ih (by omega)
    obtain ⟨hstep, -⟩ := subtract_step (subtractLoop_lt h off i (i + off)) (ho i)
      (subtractLoop_borrow h ho off i)
    show ofLimbs radix (update (subtractLoop bs other off i).1 (i + off) _) n + _ =
      ofLimbs radix bs n + chunkSub ((subtractLoop bs other off i).1 (i + off)) (other i)
        (subtractLoop bs other off i).2 / 2 ^ 31 * radix ^ (i + 1 + off)
    have hup := ofLimbs_update (B := radix) (subtractLoop bs other off i).1
      (chunkSub ((subtractLoop bs other off i).1 (i + off)) (other i)
        (subtractLoop bs other off i).2 % radix) (show i + off < n by omega)
    have hmul := congrArg (· * radix ^ (i + off)) hstep
    rw [ofLimbs_succ, show i + 1 + off = i + off + 1 by omega, pow_succ radix (i + off), mul_add,
      show radix ^ off * (other i * radix ^ i) = other i * radix ^ (i + off) by ring]
    linarith

/-- A number that is large enough to lend has bigits where the borrow is. -/
theorem lend_lt {pos borrow n : Nat} (hlt : ∀ j, bs j < radix) (h0 : borrow ≠ 0)
    (hle : borrow * radix ^ pos ≤ ofLimbs radix bs n) : pos < n := by
  by_contra hge
  have h1 : radix ^ n ≤ radix ^ pos := Nat.pow_le_pow_right (Nat.two_pow_pos 28) (by omega)
  have h2 : 1 * radix ^ pos ≤ borrow * radix ^ pos := Nat.mul_le_mul_right _ (by omega)
  have h3 : ofLimbs radix bs n < radix ^ n := ofLimbs_lt fun i _ => hlt i
  omega

/-- The borrow loop, when the number is large enough to lend. -/
theorem subtractBorrow_spec (fuel : Nat) {pos borrow n : Nat}
    (hlt : ∀ j, bs j < radix) (hb : borrow ≤ 1) (hfuel : n ≤ pos + fuel)
    (hle : borrow * radix ^ pos ≤ ofLimbs radix bs n) :
    (∀ j, subtractBorrow fuel bs pos borrow j < radix) ∧
      (∀ j, n ≤ j → subtractBorrow fuel bs pos borrow j = bs j) ∧
      ofLimbs radix (subtractBorrow fuel bs pos borrow) n + borrow * radix ^ pos = ofLimbs radix bs n := by
  induction fuel generalizing bs pos borrow with
  | zero =>
    have h0 : borrow = 0 := by
      by_contra h
      have := lend_lt hlt h hle
      omega
    subst h0
    exact ⟨hlt, fun _ _ => rfl, by simp [subtractBorrow]⟩
  | succ fuel ih =>
    by_cases h0 : borrow = 0
    · simp [subtractBorrow, h0, hlt]
    · have hp := lend_lt hlt h0 hle
      obtain ⟨hstep, hb'⟩ := subtract_step (hlt pos) (Nat.two_pow_pos 28 : 0 < radix) hb
      have hup := ofLimbs_update (B := radix) bs (chunkSub (bs pos) 0 borrow % radix) hp
      have hmul := congrArg (· * radix ^ pos) hstep
      have hval : ofLimbs radix (update bs pos (chunkSub (bs pos) 0 borrow % radix)) n + borrow * radix ^ pos =
          ofLimbs radix bs n + chunkSub (bs pos) 0 borrow / 2 ^ 31 * radix ^ (pos + 1) := by
        rw [pow_succ radix pos]
        linarith
      have hlt' : ∀ j, update bs pos (chunkSub (bs pos) 0 borrow % radix) j < radix :=
        update_lt hlt (Nat.mod_lt _ (Nat.two_pow_pos 28))
      obtain ⟨h1, h2, h3⟩ := ih hlt' hb' (show n ≤ pos + 1 + fuel by omega) (by omega)
      have hrun : subtractBorrow (fuel + 1) bs pos borrow =
          subtractBorrow fuel (update bs pos (chunkSub (bs pos) 0 borrow % radix)) (pos + 1)
            (chunkSub (bs pos) 0 borrow / 2 ^ 31) := by
        rw [subtractBorrow, if_neg h0]
      rw [hrun]
      refine ⟨h1, fun j hj => ?_, by omega⟩
      rw [h2 j hj, update_of_ne (by omega)]

theorem subtractBignum_meets {a : Bignum} (ha : a.Valid) (ho : o.Valid) (hle : o.value ≤ a.value) :
    Meets (subtractBignum a o) (fun r => r.Valid ∧ r.value = a.value - o.value ∧ r.exponent ≤ o.exponent)
      (Refused (128 < a.used + a.exponent - o.exponent)) := by
  refine (align_meets ha).bind (Refused.mono id) ?_
  rintro a' ⟨ha', hvalue, hexp, hlen⟩
  obtain ⟨off, hoff⟩ : ∃ off, off = o.exponent - a'.exponent := ⟨_, rfl⟩
  rw [← hoff]
  rw [← hvalue, value_eq, value_eq a', show o.exponent = off + a'.exponent by omega, pow_add,
    ← mul_assoc] at hle
  have hmant := Nat.le_of_mul_le_mul_right hle (by positivity)
  have hpos : o.used + off ≤ a'.used := by
    by_cases hu : o.used = 0
    · have := ho.zero hu
      omega
    · have h1 : radix ^ (o.used - 1) * radix ^ off ≤ o.mantissa * radix ^ off :=
        Nat.mul_le_mul_right _ (ho.le_mantissa hu)
      rw [← pow_add] at h1
      have h2 := lt_of_le_of_lt (le_trans h1 hmant) ha'.mantissa_lt
      have := (Nat.pow_lt_pow_iff_right (by decide)).1 h2
      omega
  have hborrow := subtractLoop_borrow ha'.lt ho.lt off o.used
  have hloop := subtractLoop_value ha'.lt ho.lt off o.used hpos
  rw [mul_comm (radix ^ off)] at hloop
  have hlend : (subtractLoop a'.bigits o.bigits off o.used).2 * radix ^ (o.used + off) ≤
      ofLimbs radix (subtractLoop a'.bigits o.bigits off o.used).1 a'.used := by
    unfold mantissa at hmant
    omega
  obtain ⟨h1, h2, h3⟩ := subtractBorrow_spec kBigitCapacity (subtractLoop_lt ha'.lt off o.used) hborrow
    (le_trans ha'.used_le (Nat.le_add_left _ _)) hlend
  have hloose : Loose ⟨subtractBorrow kBigitCapacity (subtractLoop a'.bigits o.bigits off o.used).1
      (o.used + off) (subtractLoop a'.bigits o.bigits off o.used).2, a'.used, a'.exponent⟩ :=
    ⟨h1, fun i hi => ?_, ha'.used_le, ha'.exponent_lt⟩
  · refine Meets.pure ⟨clamp_valid hloose, (clamp_value hloose).trans ?_, le_trans (clamp_exponent_le _) hexp⟩
    rw [← hvalue, value_eq, value_eq a', value_eq o, show o.exponent = off + a'.exponent by omega,
      pow_add, ← mul_assoc, ← Nat.sub_mul]
    congr 1
    unfold mantissa at hmant ⊢
    simp only
    omega
  · have hi' : a'.used ≤ i := hi
    refine (h2 i hi').trans ?_
    rw [subtractLoop_frame _ _ off o.used (by omega)]
    exact ha'.above i hi'

end W16.Bignum
