import W16.BignumCompare

/-!
# Division by a number of about the same size

`SubtractTimes` moves on by two bigits a round in its second loop. That is harmless where
it is called, since the number has at most one bigit more than the multiple of `other`.
-/
namespace W16.Bignum

open Positional Function

variable {bs other : Nat → Nat} {b o : Bignum}

/-! ## SubtractTimes -/

variable {factor result total : Nat}

/-- One round: the borrow collects the high part of the product and the sign. -/
theorem subtractTimes_step {x y borrow : Nat} (hx : x < radix) (hy : y < radix)
    (hf : factor < 2 ^ 31) (hb : borrow ≤ factor) :
    chunkSub x (doubleChunk (borrow + doubleChunk (factor * y)) % radix) 0 % radix + factor * y + borrow =
      x + radix * chunk (chunkSub x (doubleChunk (borrow + doubleChunk (factor * y)) % radix) 0 / 2 ^ 31 +
        doubleChunk (borrow + doubleChunk (factor * y)) / radix) ∧
    chunk (chunkSub x (doubleChunk (borrow + doubleChunk (factor * y)) % radix) 0 / 2 ^ 31 +
        doubleChunk (borrow + doubleChunk (factor * y)) / radix) ≤ factor := by
  have hprod : factor * (y + 1) ≤ factor * radix := Nat.mul_le_mul_left _ hy
  rw [mul_add, mul_one] at hprod
  rw [doubleChunk_eq (show factor * y < 2 ^ 64 by unfold radix at *; omega),
    doubleChunk_eq (show borrow + factor * y < 2 ^ 64 by unfold radix at *; omega)]
  generalize factor * y = p at *
  have hm := Nat.mod_add_div (borrow + p) radix
  have hlt := Nat.mod_lt (borrow + p) (Nat.two_pow_pos 28 : 0 < radix)
  obtain ⟨hstep, hsign⟩ := subtract_step hx hlt (Nat.zero_le 1)
  generalize chunkSub x ((borrow + p) % radix) 0 = d at *
  -- the next borrow: either the product stays below the factor, or nothing is left to borrow
  have hnext : d / 2 ^ 31 + (borrow + p) / radix ≤ factor := by
    grind
  rw [chunk_eq (by omega)]
  refine ⟨?_, hnext⟩
  linarith

theorem subtractTimesLoop_frame (bs other : Nat → Nat) (factor off i : Nat) {j : Nat} (hj : i + off ≤ j) :
    (subtractTimesLoop bs other factor off i).1 j = bs j := by
  induction i with
  | zero => rfl
  | succ i ih =>
    show update (subtractTimesLoop bs other factor off i).1 (i + off) _ j = bs j
    rw [update_of_ne (by omega)]
    exact ih (by omega)

theorem subtractTimesLoop_lt (h : ∀ j, bs j < radix) (factor off i j : Nat) :
    (subtractTimesLoop bs other factor off i).1 j < radix := by
  induction i generalizing j with
  | zero => exact h j
  | succ i ih => exact update_lt ih (Nat.mod_lt _ (Nat.two_pow_pos 28)) j

theorem subtractTimesLoop_borrow (h : ∀ j, bs j < radix) (ho : ∀ j, other j < radix)
    (hf : factor < 2 ^ 31) (off i : Nat) : (subtractTimesLoop bs other factor off i).2 ≤ factor := by
  induction i with
  | zero => exact Nat.zero_le factor
  | succ i ih => exact (subtractTimes_step (subtractTimesLoop_lt h factor off i _) (ho i) hf ih).2

theorem subtractTimesLoop_value (h : ∀ j, bs j < radix) (ho : ∀ j, other j < radix)
    (hf : factor < 2 ^ 31) (off i : Nat) {n : Nat} (hn : i + off ≤ n) :
    ofLimbs radix (subtractTimesLoop bs other factor off i).1 n +
        factor * (ofLimbs radix other i * radix ^ off) =
      ofLimbs radix bs n + (subtractTimesLoop bs other factor off i).2 * radix ^ (i + off) := by
  induction i with
  | zero => simp [subtractTimesLoop]
  | succ i ih =>
    have ih := ih (by omega)
    obtain ⟨hstep, -⟩ := subtractTimes_step (subtractTimesLoop_lt h factor off i (i + off)) (ho i) hf
      (subtractTimesLoop_borrow h ho hf off i)
    obtain ⟨s, hs⟩ : ∃ s, s = subtractTimesLoop bs other factor off i := ⟨_, rfl⟩
    rw [← hs] at ih hstep
    have hnext : subtractTimesLoop bs other factor off (i + 1) =
        (update s.1 (i + off) (chunkSub (s.1 (i + off)) (doubleChunk (s.2 +
          doubleChunk (factor * other i)) % radix) 0 % radix), chunk (chunkSub (s.1 (i + off))
          (doubleChunk (s.2 + doubleChunk (factor * other i)) % radix) 0 / 2 ^ 31 +
          doubleChunk (s.2 + doubleChunk (factor * other i)) / radix)) := by
      rw [hs]
      rfl
    rw [hnext]
    have hup := ofLimbs_update (B := radix) s.1 (chunkSub (s.1 (i + off)) (doubleChunk (s.2 +
      doubleChunk (factor * other i)) % radix) 0 % radix) (show i + off < n by omega)
    have hmul := congrArg (· * radix ^ (i + off)) hstep
    rw [ofLimbs_succ, show i + 1 + off = i + off + 1 by omega, pow_succ radix (i + off)]
    have hterm : factor * ((ofLimbs radix other i + other i * radix ^ i) * radix ^ off) =
        factor * (ofLimbs radix other i * radix ^ off) + factor * other i * radix ^ (i + off) := by
      ring
    linarith

/-- `count` times `SubtractBignum`, aligned from the start. -/
theorem subtractRepeat_meets (n : Nat) {b : Bignum} (h : b.Valid) (ho : o.Valid)
    (hexp : b.exponent ≤ o.exponent) (hle : n * o.value ≤ b.value) :
    Meets (subtractRepeat o n b) (fun r => r.Valid ∧ r.value = b.value - n * o.value ∧ r.exponent ≤ o.exponent)
      (Refused False) := by
  induction n generalizing b with
  | zero => exact ⟨h, by simp, hexp⟩
  | succ n ih =>
    rw [add_mul, one_mul] at hle
    refine (subtractBignum_meets h ho (by omega)).bind (Refused.mono fun h' => ?_) ?_
    · have := h.used_le
      unfold kBigitCapacity at this
      omega
    rintro c ⟨hc, hval, hexp'⟩
    refine (ih hc hexp' (by omega)).mono ?_ fun _ he => he
    grind

/-- The second loop ends well where the bigit it starts at can pay the whole borrow. -/
theorem subtractTimesBorrow_spec (fuel : Nat) (h : b.Valid) {bs : Nat → Nat} {pos borrow m : Nat}
    (hlt : ∀ j, bs j < radix) (hframe : ∀ j, pos ≤ j → bs j = b.bigits j) (hpos : pos ≤ b.used)
    (htop : borrow = 0 ∨ pos < b.used ∧ borrow ≤ bs pos)
    (hm : ofLimbs radix bs b.used = m + borrow * radix ^ pos) :
    (subtractTimesBorrow (fuel + 2) ⟨bs, b.used, b.exponent⟩ pos borrow).Valid ∧
      (subtractTimesBorrow (fuel + 2) ⟨bs, b.used, b.exponent⟩ pos borrow).value = m * radix ^ b.exponent ∧
      (subtractTimesBorrow (fuel + 2) ⟨bs, b.used, b.exponent⟩ pos borrow).exponent ≤ b.exponent := by
  have hloose : Loose ⟨bs, b.used, b.exponent⟩ :=
    ⟨hlt, fun j hj => (hframe j (le_trans hpos hj)).trans (h.above j hj), h.used_le, h.exponent_lt⟩
  -- left early: the top bigit is the old one
  have hearly : ∀ f : Nat → Nat, Loose ⟨f, b.used, b.exponent⟩ → b.used ≠ 0 →
      f (b.used - 1) = b.bigits (b.used - 1) → Valid ⟨f, b.used, b.exponent⟩ := by
    intro f hf hu htop
    refine ⟨hf.lt, hf.above, h.used_le, h.exponent_lt, .inr ?_, fun h0 => absurd h0 hu⟩
    show f (b.used - 1) ≠ 0
    rw [htop]
    exact h.clamped.resolve_left hu
  unfold subtractTimesBorrow
  rcases Nat.eq_zero_or_pos borrow with rfl | h0
  · have hval : value ⟨bs, b.used, b.exponent⟩ = m * radix ^ b.exponent := by
      rw [value_eq]
      show ofLimbs radix bs b.used * _ = _
      rw [hm, zero_mul, add_zero]
    rcases Nat.lt_or_ge pos b.used with hp | hp
    · grind
    · rw [if_neg (show ¬ pos < b.used by omega)]
      exact ⟨clamp_valid hloose, (clamp_value hloose).trans hval, clamp_exponent_le _⟩
  · obtain ⟨hp, htop⟩ := htop.resolve_left (by omega)
    have hx := hlt pos
    have hd : chunkSub (bs pos) borrow 0 = bs pos - borrow := by
      unfold chunkSub chunk radix at *
      omega
    rw [if_pos hp, if_neg (show ¬ borrow = 0 by omega)]
    dsimp only
    rw [hd, Nat.mod_eq_of_lt (show bs pos - borrow < radix by omega),
      Nat.div_eq_of_lt (show bs pos - borrow < 2 ^ 31 by unfold radix at *; omega)]
    obtain ⟨f, hf⟩ : ∃ f, f = update bs pos (bs pos - borrow) := ⟨_, rfl⟩
    rw [← hf]
    have hne : ∀ j, j ≠ pos → f j = bs j := fun j hj => by rw [hf, update_of_ne hj]
    have hloose' : Loose ⟨f, b.used, b.exponent⟩ := by
      refine ⟨fun j => ?_, fun j hj => ?_, h.used_le, h.exponent_lt⟩
      · rw [hf]
        exact update_lt hlt (by omega) j
      · have hj : b.used ≤ j := hj
        exact (hne j (by omega)).trans (hloose.above j hj)
    have hval : value ⟨f, b.used, b.exponent⟩ = m * radix ^ b.exponent := by
      have hup := ofLimbs_update (B := radix) bs (bs pos - borrow) hp
      have hle : borrow * radix ^ pos ≤ bs pos * radix ^ pos := Nat.mul_le_mul_right _ htop
      rw [Nat.sub_mul] at hup
      rw [value_eq]
      show ofLimbs radix f b.used * _ = _
      grind
    unfold subtractTimesBorrow
    rcases Nat.lt_or_ge (pos + 2) b.used with hp2 | hp2
    · grind
    · rw [if_neg (show ¬ pos + 2 < b.used by omega)]
      exact ⟨clamp_valid hloose', (clamp_value hloose').trans hval, clamp_exponent_le _⟩

/-- What the multiple needs of the bigits of `b`, over the lowest bigit of `b`. -/
theorem multiple_le (h : b.Valid) (ho : o.Valid) (hexp : b.exponent ≤ o.exponent)
    (h3 : ¬ factor < 3) (hle : factor * o.value ≤ b.value) :
    factor * (o.mantissa * radix ^ (o.exponent - b.exponent)) ≤ b.mantissa ∧
      o.used + (o.exponent - b.exponent) ≤ b.used := by
  obtain ⟨off, hoff⟩ : ∃ off, off = o.exponent - b.exponent := ⟨_, rfl⟩
  rw [← hoff]
  have hoe : o.exponent = off + b.exponent := by omega
  rw [value_eq, value_eq b, hoe, pow_add, ← mul_assoc, ← mul_assoc] at hle
  have hmant : factor * (o.mantissa * radix ^ off) ≤ b.mantissa := by
    refine Nat.le_of_mul_le_mul_right ?_ (show 0 < radix ^ b.exponent by positivity)
    linarith
  refine ⟨hmant, ?_⟩
  by_cases hou : o.used = 0
  · have := ho.zero hou
    omega
  · have h1 : radix ^ (o.used - 1 + off) ≤ o.mantissa * radix ^ off := by
      rw [pow_add]
      exact Nat.mul_le_mul_right _ (ho.le_mantissa hou)
    have h2 : o.mantissa * radix ^ off ≤ factor * (o.mantissa * radix ^ off) :=
      Nat.le_mul_of_pos_left _ (by omega)
    have h3 := lt_of_le_of_lt (le_trans h1 (le_trans h2 hmant)) h.mantissa_lt
    have := (Nat.pow_lt_pow_iff_right (by decide)).1 h3
    omega

/-- The bigits the second loop looks at first hold the multiple. -/
theorem subtractTimes_fits (h : b.Valid) (ho : o.Valid) (hexp : b.exponent ≤ o.exponent) (hf : factor < 2 ^ 31) (hle : factor * o.value ≤ b.value)
    (hfits : factor < 3 ∨ factor * (o.mantissa * radix ^ (o.exponent - b.exponent)) ≤
      ofLimbs radix b.bigits (o.used + (o.exponent - b.exponent) + 1)) :
    Meets (subtractTimes b o factor)
      (fun r => r.Valid ∧ r.value = b.value - factor * o.value ∧ r.exponent ≤ o.exponent)
      (Refused False) := by
  unfold subtractTimes
  by_cases h3 : factor < 3
  · rw [if_pos h3]
    exact subtractRepeat_meets factor h ho hexp hle
  rw [if_neg h3]
  obtain ⟨hmant, hpos⟩ := multiple_le h ho hexp h3 hle
  have hfits := hfits.resolve_left h3
  obtain ⟨off, hoff⟩ : ∃ off, off = o.exponent - b.exponent := ⟨_, rfl⟩
  rw [← hoff] at hfits hmant hpos ⊢
  have hloop := fun n => subtractTimesLoop_value (n := n) h.lt ho.lt hf off o.used
  have hlt := @subtractTimesLoop_lt b.bigits o.bigits h.lt factor off o.used
  have hframe := fun j => subtractTimesLoop_frame (j := j) b.bigits o.bigits factor off o.used
  show Meets (Except.ok (subtractTimesBorrow kBigitCapacity
    ⟨(subtractTimesLoop b.bigits o.bigits factor off o.used).1, b.used, b.exponent⟩ (o.used + off)
    (subtractTimesLoop b.bigits o.bigits factor off o.used).2)) _ _
  generalize subtractTimesLoop b.bigits o.bigits factor off o.used = s at *
  have hm : ofLimbs radix s.1 b.used =
      b.mantissa - factor * (o.mantissa * radix ^ off) + s.2 * radix ^ (o.used + off) := by
    have := hloop _ hpos
    unfold mantissa at hmant ⊢
    omega
  have htop : s.2 ≤ s.1 (o.used + off) := by
    have hnext := hloop _ (Nat.le_succ _)
    have hlow : ofLimbs radix s.1 (o.used + off) < radix ^ (o.used + off) := ofLimbs_lt fun i _ => hlt i
    by_contra hgt
    have : (s.1 (o.used + off) + 1) * radix ^ (o.used + off) ≤ s.2 * radix ^ (o.used + off) :=
      Nat.mul_le_mul_right _ (by omega)
    rw [Nat.succ_eq_add_one, ofLimbs_succ] at hnext
    rw [add_mul] at this
    unfold mantissa at hfits
    omega
  have htop : s.2 = 0 ∨ o.used + off < b.used ∧ s.2 ≤ s.1 (o.used + off) := by
    rcases Nat.lt_or_ge (o.used + off) b.used with hp | hp
    · exact .inr ⟨hp, htop⟩
    · rw [hframe _ (le_refl _), h.above _ hp] at htop
      exact .inl (by omega)
  obtain ⟨h1, h2, h3⟩ := subtractTimesBorrow_spec 126 h hlt hframe hpos htop hm
  refine Meets.pure ⟨h1, h2.trans ?_, le_trans h3 hexp⟩
  rw [value_eq b, value_eq o, show o.exponent = off + b.exponent by omega, pow_add, Nat.sub_mul,
    mul_assoc, mul_assoc]

theorem subtractTimes_meets (h : b.Valid) (ho : o.Valid) (hexp : b.exponent ≤ o.exponent)
    (hlen : b.used + b.exponent ≤ o.used + o.exponent + 1) (hf : factor < radix)
    (hle : factor * o.value ≤ b.value) :
    Meets (subtractTimes b o factor)
      (fun r => r.Valid ∧ r.value = b.value - factor * o.value ∧ r.exponent ≤ o.exponent)
      (Refused False) := by
  refine subtractTimes_fits h ho hexp (lt_trans hf (by decide)) hle ?_
  by_cases h3 : factor < 3
  · exact .inl h3
  · refine .inr (le_trans (multiple_le h ho hexp h3 hle).1 (le_of_eq ?_))
    exact (ofLimbs_extend h.above (by omega)).symm

/-- The second loop leaves alone every bigit below the one it stands at. -/
theorem subtractTimesBorrow_below (fuel : Nat) {bs : Nat → Nat} {used exponent i borrow : Nat}
    (h : Loose ⟨bs, used, exponent⟩) :
    ∃ f, Loose ⟨f, used, exponent⟩ ∧ (∀ j < i, f j = bs j) ∧
      (subtractTimesBorrow fuel ⟨bs, used, exponent⟩ i borrow).value = value ⟨f, used, exponent⟩ := by
  induction fuel generalizing bs i borrow with
  | zero => exact ⟨bs, h, fun _ _ => rfl, clamp_value h⟩
  | succ fuel ih =>
    unfold subtractTimesBorrow
    by_cases hi : i < used
    · rw [if_pos hi]
      by_cases h0 : borrow = 0
      · grind
      · rw [if_neg h0]
        have hnext : Loose ⟨update bs i (chunkSub (bs i) borrow 0 % radix), used, exponent⟩ := by
          refine ⟨update_lt h.lt (Nat.mod_lt _ (Nat.two_pow_pos 28)), fun j hj => ?_, h.used_le, h.exponent_lt⟩
          have hj' : used ≤ j := hj
          exact (update_of_ne (by omega) _ _).trans (h.above j hj)
        obtain ⟨f, hf, hbelow, hval⟩ := @ih _ (i + 2) (chunkSub (bs i) borrow 0 / 2 ^ 31) hnext
        grind
    · rw [if_neg hi]
      exact ⟨bs, h, fun _ _ => rfl, clamp_value h⟩

/-- A bigit that is not looked at shows that a borrow was lost. -/
theorem ofLimbs_ne_of_skipped {f g : Nat → Nat} {pos n F : Nat} (hf : ∀ j, f j < radix)
    (hfn : ∀ j, n ≤ j → f j = 0) (hgn : ∀ j, n ≤ j → g j = 0) (hsame : f (pos + 1) = g (pos + 1))
    (hF : F < 2 ^ 31 * radix ^ pos) (hshort : ofLimbs radix g (pos + 1) < F) :
    ofLimbs radix f n + F ≠ ofLimbs radix g n := by
  have hsplit : ∀ k : Nat → Nat, (∀ j, n ≤ j → k j = 0) → ofLimbs radix k n =
      ofLimbs radix k (pos + 1) + k (pos + 1) * radix ^ (pos + 1) +
        radix ^ (pos + 2) * ofLimbs radix (fun i => k (pos + 2 + i)) n := by
    intro k hk
    rw [← ofLimbs_extend hk (show n ≤ pos + 2 + n by omega), ofLimbs_split, ofLimbs_succ _ k (pos + 1)]
  rw [hsplit f hfn, hsplit g hgn, hsame]
  have hlow : ofLimbs radix f (pos + 1) < radix ^ (pos + 1) := ofLimbs_lt fun j _ => hf j
  rw [pow_succ radix (pos + 1)]
  rw [show 2 ^ 31 * radix ^ pos = 8 * radix ^ (pos + 1) by rw [pow_succ]; unfold radix; ring] at hF
  generalize ofLimbs radix (fun i => f (pos + 2 + i)) n = y
  generalize ofLimbs radix (fun i => g (pos + 2 + i)) n = x
  generalize radix ^ (pos + 1) = P at *
  intro heq
  rcases Nat.lt_or_ge y x with hxy | hxy
  · have h1 : P * radix * (y + 1) ≤ P * radix * x := Nat.mul_le_mul_left _ hxy
    grind
  · have h1 : P * radix * x ≤ P * radix * y := Nat.mul_le_mul_left _ hxy
    omega

/-- A borrow that leaves the bigit above the top of `o` is lost. -/
theorem subtractTimes_short (h : b.Valid) (ho : o.Valid) (hexp : b.exponent ≤ o.exponent)
    (hf : factor < 2 ^ 31) (h3 : ¬ factor < 3) (hle : factor * o.value ≤ b.value)
    (hshort : ofLimbs radix b.bigits (o.used + (o.exponent - b.exponent) + 1) <
      factor * (o.mantissa * radix ^ (o.exponent - b.exponent))) {r : Bignum}
    (hr : subtractTimes b o factor = .ok r) :
    ∃ m, r.value = m * radix ^ b.exponent ∧
      m + factor * (o.mantissa * radix ^ (o.exponent - b.exponent)) ≠ b.mantissa := by
  obtain ⟨hmant, hpos⟩ := multiple_le h ho hexp h3 hle
  unfold subtractTimes at hr
  rw [if_neg h3] at hr
  generalize o.exponent - b.exponent = off at *
  have hpu : o.used + off < b.used := by
    by_contra hge
    rw [ofLimbs_extend h.above (by omega)] at hshort
    unfold mantissa at *
    omega
  have hloop := subtractTimesLoop_value (n := o.used + off + 1) h.lt ho.lt hf off o.used (Nat.le_succ _)
  have hlt := @subtractTimesLoop_lt b.bigits o.bigits h.lt factor off o.used
  have hframe := fun j => subtractTimesLoop_frame (j := j) b.bigits o.bigits factor off o.used
  replace hr := Except.ok.inj hr
  generalize subtractTimesLoop b.bigits o.bigits factor off o.used = s at *
  have hborrow : s.2 ≠ 0 := by
    grind [mantissa]
  unfold kBigitCapacity subtractTimesBorrow at hr
  rw [if_pos hpu, if_neg hborrow] at hr
  dsimp only at hr
  generalize chunkSub (s.1 (o.used + off)) s.2 0 = d at hr
  have hnext : Loose ⟨update s.1 (o.used + off) (d % radix), b.used, b.exponent⟩ := by
    refine ⟨update_lt hlt (Nat.mod_lt _ (Nat.two_pow_pos 28)), fun j hj => ?_, h.used_le, h.exponent_lt⟩
    have hj' : b.used ≤ j := hj
    exact (update_of_ne (by omega) _ _).trans ((hframe j (by omega)).trans (h.above j hj'))
  obtain ⟨f, hfl, hbelow, hval⟩ := @subtractTimesBorrow_below 127 _ _ _ (o.used + off + 2)
    (d / 2 ^ 31) hnext
  rw [hr, value_eq ⟨f, _, _⟩] at hval
  have hsame : f (o.used + off + 1) = b.bigits (o.used + off + 1) :=
    ((hbelow _ (by omega)).trans (update_of_ne (by omega) _ _)).trans (hframe _ (by omega))
  have hF : factor * (o.mantissa * radix ^ off) < 2 ^ 31 * radix ^ (o.used + off) := by
    rw [pow_add]
    exact Nat.mul_lt_mul'' hf (Nat.mul_lt_mul_of_pos_right ho.mantissa_lt (by positivity))
  exact ⟨_, hval, ofLimbs_ne_of_skipped hfl.lt hfl.above h.above hsame hF hshort⟩

/-- `SubtractTimes` subtracts the multiple exactly when no borrow leaves the bigit above the top
of `b`: the one after it is passed over. -/
theorem subtractTimes_exact_iff (a b : Bignum) (factor : Nat) (h : a.Valid) (ho : b.Valid)
    (hexp : a.exponent ≤ b.exponent) (hf : factor < 2 ^ 31) (hle : factor * b.value ≤ a.value) :
    (∃ r, subtractTimes a b factor = .ok r ∧ r.value = a.value - factor * b.value ∧ ∀ i, r.bigits i < radix) ↔
      factor < 3 ∨ factor * b.value ≤
        ofLimbs radix a.bigits (b.used + (b.exponent - a.exponent) + 1) * radix ^ a.exponent := by
  have hscale : factor * b.value =
      factor * (b.mantissa * radix ^ (b.exponent - a.exponent)) * radix ^ a.exponent := by
    rw [mul_assoc, mul_assoc b.mantissa, ← pow_add, Nat.sub_add_cancel hexp, ← value_eq]
  have hpow : 0 < radix ^ a.exponent := by positivity
  constructor
  · rintro ⟨r, hr, hval, -⟩
    by_contra hnot
    obtain ⟨h3, hnot⟩ := not_or.1 hnot
    obtain ⟨m, hm, hne⟩ := subtractTimes_short h ho hexp hf h3 hle
      (lt_of_not_ge fun hge => hnot (hscale.le.trans (Nat.mul_le_mul_right _ hge))) hr
    refine hne (Nat.eq_of_mul_eq_mul_right hpow ?_)
    rw [add_mul, ← hscale, ← hm, hval, ← value_eq]
    omega
  · intro hfits
    rw [hscale] at hfits
    have := subtractTimes_fits h ho hexp hf hle
      (hfits.imp_right fun hfits => Nat.le_of_mul_le_mul_right hfits hpow)
    cases hr : subtractTimes a b factor with
    | ok r =>
      rw [hr] at this
      exact ⟨r, rfl, this.2.1, this.1.lt⟩
    | error e =>
      rw [hr] at this
      exact absurd this (by simp [Meets, Refused])

/-- `radix ^ n`, with a bigit for each of its zeros. -/
def radixPower (n : Nat) : Bignum := ⟨fun i => if i = n then 1 else 0, n + 1, 0⟩

theorem radixPower_valid {n : Nat} (hn : n < kBigitCapacity) : (radixPower n).Valid := by
  refine ⟨fun i => ?_, fun i hi => ?_, hn, Nat.two_pow_pos 31, .inr (by simp [radixPower]), by simp [radixPower]⟩
  · show (if i = n then 1 else 0) < radix
    split <;> decide
  · have hi : n + 1 ≤ i := hi
    exact if_neg (by omega)

/-- The borrow of `3` comes to its end in the second bigit of `2 ^ 28`. -/
theorem subtractTimes_exact_iff_radixPower : ∃ r, subtractTimes (radixPower 1) (radixPower 0) 3 = .ok r ∧
      r.value = (radixPower 1).value - 3 * (radixPower 0).value ∧ ∀ i, r.bigits i < radix :=
  (subtractTimes_exact_iff _ _ 3 (radixPower_valid (by decide)) (radixPower_valid (by decide))
    (by decide) (by decide) (by decide)).2 (.inr (by decide))

/-- In `2 ^ 56` it passes over the top bigit. -/
theorem subtractTimes_skips_bigit :
    (radixPower 2).Valid ∧ (radixPower 0).Valid ∧ (radixPower 2).exponent ≤ (radixPower 0).exponent ∧
      3 * (radixPower 0).value ≤ (radixPower 2).value ∧
      ∃ r, subtractTimes (radixPower 2) (radixPower 0) 3 = .ok r ∧
        (radixPower 2).value - 3 * (radixPower 0).value = 2 ^ 56 - 3 ∧ r.value = 2 ^ 57 - 3 :=
  ⟨radixPower_valid (by decide), radixPower_valid (by decide), by decide, by decide, _, rfl, by decide,
    by decide⟩

/-! ## Division -/

/-- The top bigit and what is below it. -/
theorem exists_low (h : b.Valid) (hu : b.used ≠ 0) : ∃ low, low < radix ^ (b.used + b.exponent - 1) ∧
      b.value = b.bigits (b.used - 1) * radix ^ (b.used + b.exponent - 1) + low := by
  have hlow : ofLimbs radix b.bigits (b.used - 1) < radix ^ (b.used - 1) := ofLimbs_lt fun i _ => h.lt i
  have hm : b.mantissa = ofLimbs radix b.bigits (b.used - 1) +
      b.bigits (b.used - 1) * radix ^ (b.used - 1) := by
    rw [← ofLimbs_succ, Nat.sub_add_cancel (by omega)]
    rfl
  refine ⟨ofLimbs radix b.bigits (b.used - 1) * radix ^ b.exponent, ?_, ?_⟩
  · rw [show b.used + b.exponent - 1 = b.used - 1 + b.exponent by omega, pow_add]
    exact Nat.mul_lt_mul_of_pos_right hlow (by positivity)
  · rw [value_eq, hm, show b.used + b.exponent - 1 = b.used - 1 + b.exponent by omega, pow_add]
    ring

/-- How `divideTop` leaves the dividend: as long as the divisor, or shorter next to a divisor
whose top bigit is full. -/
structure Topped (o : Bignum) (total : Nat) (b : Bignum) (result : Nat) : Prop where
  valid : b.Valid
  used_ne : b.used ≠ 0
  exponent_le : b.exponent ≤ o.exponent
  total_eq : result * o.value + b.value = total
  full : o.used + o.exponent ≤ b.used + b.exponent ∨
    radix ^ (o.used + o.exponent) < o.value + radix ^ (o.used + o.exponent - 1)

/-- A round of `divideTop`: the top bigit times the divisor is strictly less than the dividend. -/
theorem Topped.round (ho : o.Valid) (ht : Topped o total b result) (hlen : b.used + b.exponent = o.used + o.exponent + 1) :
    b.bigits (b.used - 1) * o.value < b.value ∧
      (b.value - b.bigits (b.used - 1) * o.value < radix ^ (o.used + o.exponent - 1) →
        radix ^ (o.used + o.exponent) < o.value + radix ^ (o.used + o.exponent - 1)) := by
  obtain ⟨low, -, hval⟩ := exists_low ht.valid ht.used_ne
  have htop := ht.valid.clamped.resolve_left ht.used_ne
  have hlt := value_lt ho
  rw [hlen, Nat.add_sub_cancel] at hval
  generalize b.bigits (b.used - 1) = t at *
  have hmul : t * (o.value + 1) ≤ t * radix ^ (o.used + o.exponent) := Nat.mul_le_mul_left _ hlt
  rw [mul_add, mul_one] at hmul
  by_contra hge
  -- otherwise each of the `t` multiples leaves at least one unit of the next position
  have hge' : t * (o.value + radix ^ (o.used + o.exponent - 1)) ≤ t * radix ^ (o.used + o.exponent) :=
    Nat.mul_le_mul_left _ (by omega)
  have h1 : 1 * radix ^ (o.used + o.exponent - 1) ≤ t * radix ^ (o.used + o.exponent - 1) :=
    Nat.mul_le_mul_right _ (by omega)
  rw [mul_add] at hge'
  omega

section Quotient

variable {q d r n : Nat}

/-- What is left of a division after `q` multiples are gone. -/
theorem quotient_add (h : q * d + r = n) (hd : 0 < d) : q + r / d = n / d := by
  rw [← h, add_comm (q * d), Nat.add_mul_div_right _ _ hd, add_comm]

theorem quotient_eq (h : q * d + r = n) (hr : r < d) : q = n / d := by
  rw [← quotient_add h (by omega), Nat.div_eq_of_lt hr, add_zero]

theorem remainder_eq (h : q * d + r = n) (hr : r < d) : r = n % d := by
  rw [← h, add_comm (q * d), Nat.add_mul_mod_self_right, Nat.mod_eq_of_lt hr]

end Quotient

theorem divideTop_meets (fuel : Nat) {b : Bignum} (ho : o.Valid)
    (hou : o.used ≠ 0) (hlo : o.used + o.exponent < 2 ^ 31) (ht : Topped o total b result)
    (hlen : b.used + b.exponent < 2 ^ 31) (h16 : total / o.value < 2 ^ 16)
    (hfuel : b.value / o.value < fuel) :
    Meets (divideTop o fuel b result)
      (fun r => Topped o total r.1 r.2 ∧ r.1.used + r.1.exponent ≤ o.used + o.exponent)
      (Refused False) := by
  have hopos : 0 < o.value := pos_of_ne_zero fun h0 => hou ((value_eq_zero ho).1 h0)
  induction fuel generalizing b result with
  | zero => exact absurd hfuel (Nat.not_lt_zero _)
  | succ fuel ih =>
    refine (bigitLength_meets b).bind (Refused.mono fun h' => by omega) ?_
    rintro _ ⟨rfl, -⟩
    refine (bigitLength_meets o).bind (Refused.mono fun h' => by omega) ?_
    rintro _ ⟨rfl, -⟩
    by_cases hgt : b.used + b.exponent > o.used + o.exponent
    · rw [if_pos hgt]
      have hq := quotient_add ht.total_eq hopos
      -- the quotient has 16 bits, so the dividend has one bigit more at most
      have hshort : b.used + b.exponent ≤ o.used + o.exponent + 1 := by
        refine length_le ht.valid ?_
        have h1 : b.value < (b.value / o.value + 1) * o.value := Nat.lt_mul_of_div_lt (by omega) hopos
        have h2 : (b.value / o.value + 1) * o.value ≤ radix * radix ^ (o.used + o.exponent) :=
          Nat.mul_le_mul (by unfold radix; omega) (le_of_lt (value_lt ho))
        rw [pow_succ, mul_comm]
        omega
      obtain ⟨hless, hsmall⟩ := ht.round ho (by omega)
      have htop := ht.valid.clamped.resolve_left ht.used_ne
      have htlt := ht.valid.lt (b.used - 1)
      refine (subtractTimes_meets ht.valid ho ht.exponent_le hshort htlt (le_of_lt hless)).bind
        (fun _ he => he) ?_
      rintro c ⟨hc, hval, hexp⟩
      generalize b.bigits (b.used - 1) = t at *
      have hdiv : c.value / o.value = b.value / o.value - t := by
        rw [hval, mul_comm, Nat.sub_mul_div]
      have htq : t ≤ b.value / o.value := (Nat.le_div_iff_mul_le hopos).2 (le_of_lt hless)
      rw [Nat.mod_eq_of_lt (show result + t < 2 ^ 16 by omega)]
      have hcpos : c.used ≠ 0 := fun hu => by
        have := value_of_used_eq_zero hu
        omega
      refine ih ⟨hc, hcpos, hexp, ?_, ?_⟩ ?_ (by omega)
      · rw [add_mul, hval, ← ht.total_eq]
        omega
      · rcases lt_or_ge c.value (radix ^ (o.used + o.exponent - 1)) with hl | hl
        · exact .inr (hsmall (by rw [← hval]; exact hl))
        · have := lt_of_le_of_lt hl (value_lt hc)
          have := (Nat.pow_lt_pow_iff_right (by decide)).1 this
          omega
      · have hcb : c.value < radix ^ (b.used + b.exponent) := by
          have := value_lt ht.valid
          omega
        have := length_le hc hcb
        omega
    · rw [if_neg hgt]
      exact Meets.pure ⟨ht, by simp only; omega⟩

theorem divideRest_meets (fuel : Nat) {b : Bignum} (h : b.Valid) (ho : o.Valid)
    (hou : o.used ≠ 0) (hlo : o.used + o.exponent < 2 ^ 31) (hexp : b.exponent ≤ o.exponent)
    (hlen : b.used + b.exponent < 2 ^ 31) (ht : result * o.value + b.value = total)
    (h16 : total / o.value < 2 ^ 16) (hfuel : b.value / o.value < fuel) :
    Meets (divideRest o fuel b result)
      (fun r => r.1.Valid ∧ r.1.value = total % o.value ∧ r.2 = total / o.value) (Refused False) := by
  have hopos : 0 < o.value := pos_of_ne_zero fun h0 => hou ((value_eq_zero ho).1 h0)
  induction fuel generalizing b result with
  | zero => exact absurd hfuel (Nat.not_lt_zero _)
  | succ fuel ih =>
    refine (lessEqual_meets ho h).bind (Refused.mono fun h' => by omega) ?_
    rintro _ rfl
    have hq := quotient_add ht hopos
    by_cases hle : o.value ≤ b.value
    · rw [if_pos (by simpa using hle)]
      refine (subtractBignum_meets h ho hle).bind (Refused.mono fun h' => ?_) ?_
      · have := h.used_le
        unfold kBigitCapacity at this
        omega
      rintro c ⟨hc, hval, hexp'⟩
      have hdiv : c.value / o.value = b.value / o.value - 1 := by
        have := Nat.sub_mul_div b.value o.value 1
        rwa [mul_one, ← hval] at this
      have h1 : 1 ≤ b.value / o.value := (Nat.one_le_div_iff hopos).2 hle
      rw [Nat.mod_eq_of_lt (show result + 1 < 2 ^ 16 by omega)]
      refine ih hc hexp' ?_ ?_ (by omega)
      · have hcb : c.value < radix ^ (b.used + b.exponent) := by
          have := value_lt h
          omega
        have := length_le hc hcb
        omega
      grind
    · rw [if_neg (by simpa using hle)]
      have hsmall : b.value < o.value := by omega
      exact Meets.pure ⟨h, remainder_eq ht hsmall, quotient_eq ht hsmall⟩

/-- The estimate from the top bigits is not too large. -/
theorem estimate_le (ho : o.Valid) (hou : o.used ≠ 0)
    (ht : Topped o total b result) (hlen : b.used + b.exponent ≤ o.used + o.exponent) :
    b.bigits (b.used - 1) / (o.bigits (o.used - 1) + 1) * o.value ≤ b.value ∧ (b.bigits (b.used - 1) <
          o.bigits (o.used - 1) * (b.bigits (b.used - 1) / (o.bigits (o.used - 1) + 1) + 1) →
        b.value < (b.bigits (b.used - 1) / (o.bigits (o.used - 1) + 1) + 1) * o.value) := by
  obtain ⟨low, hlow, hval⟩ := exists_low ht.valid ht.used_ne
  obtain ⟨olow, holow, hoval⟩ := exists_low ho hou
  have htlt := ht.valid.lt (b.used - 1)
  generalize b.bigits (b.used - 1) = t at *
  generalize o.bigits (o.used - 1) = ot at *
  have hdiv := Nat.div_mul_le_self t (ot + 1)
  rcases Nat.lt_or_ge (b.used + b.exponent) (o.used + o.exponent) with hshort | hfull
  · -- the divisor's top bigit is full, so the estimate is zero
    have hpow : radix ^ (o.used + o.exponent) = radix * radix ^ (o.used + o.exponent - 1) := by
      rw [← pow_succ', Nat.sub_add_cancel (by omega)]
    have hone := ht.full.resolve_left (by omega)
    have hot : radix ≤ ot + 1 := by
      by_contra hlt
      have : (ot + 2) * radix ^ (o.used + o.exponent - 1) ≤ radix * radix ^ (o.used + o.exponent - 1) :=
        Nat.mul_le_mul_right _ (by omega)
      rw [add_mul] at this
      omega
    have hzero : t / (ot + 1) = 0 := Nat.div_eq_of_lt (by omega)
    have hb : b.value < radix ^ (o.used + o.exponent - 1) :=
      lt_of_lt_of_le (value_lt ht.valid) (Nat.pow_le_pow_right (Nat.two_pow_pos 28) (by omega))
    have hole := le_value ho hou
    grind
  · rw [show b.used + b.exponent = o.used + o.exponent by omega] at hval hlow
    generalize radix ^ (o.used + o.exponent - 1) = p at *
    refine ⟨?_, fun hlast => ?_⟩
    · calc t / (ot + 1) * o.value ≤ t / (ot + 1) * ((ot + 1) * p) :=
            Nat.mul_le_mul_left _ (by rw [add_mul]; omega)
        _ = t / (ot + 1) * (ot + 1) * p := by ring
        _ ≤ t * p := Nat.mul_le_mul_right _ hdiv
        _ ≤ b.value := by omega
    · calc b.value < (t + 1) * p := by rw [add_mul]; omega
        _ ≤ ot * (t / (ot + 1) + 1) * p := Nat.mul_le_mul_right _ hlast
        _ = (t / (ot + 1) + 1) * (ot * p) := by ring
        _ ≤ (t / (ot + 1) + 1) * o.value := Nat.mul_le_mul_left _ (by omega)

/-- A divisor of one bigit: the quotient of the top bigits is exact. -/
theorem single_quotient (ho : o.Valid) (h1 : o.used = 1)
    (ht : Topped o total b result) (hlen : b.used + b.exponent ≤ o.used + o.exponent) :
    b.used + b.exponent = o.used + o.exponent ∧
      b.value / o.value = b.bigits (b.used - 1) / o.bigits (o.used - 1) ∧
      o.value = o.bigits (o.used - 1) * radix ^ (o.used + o.exponent - 1) := by
  have hoval : o.value = o.bigits (o.used - 1) * radix ^ (o.used + o.exponent - 1) := by
    rw [value_eq, mantissa, h1, ofLimbs_one]
    congr 2
    omega
  have hpow : radix ^ (o.used + o.exponent) = radix * radix ^ (o.used + o.exponent - 1) := by
    rw [← pow_succ', Nat.sub_add_cancel (by omega)]
  have hfull : o.used + o.exponent ≤ b.used + b.exponent := by
    rcases ht.full with hf | hf
    · exact hf
    · have := Nat.mul_le_mul_right (radix ^ (o.used + o.exponent - 1)) (ho.lt (o.used - 1))
      rw [Nat.succ_mul] at this
      omega
  have heq : b.used + b.exponent = o.used + o.exponent := by omega
  refine ⟨heq, ?_, hoval⟩
  obtain ⟨low, hlow, hval⟩ := exists_low ht.valid ht.used_ne
  have hp : 0 < radix ^ (o.used + o.exponent - 1) := by positivity
  rw [heq] at hlow hval
  rw [hoval, mul_comm (o.bigits _), ← Nat.div_div_eq_div_mul, hval, Nat.add_comm,
    Nat.add_mul_div_right _ _ hp, Nat.div_eq_of_lt hlow, Nat.zero_add]

/-- Taking a part off the top bigit. -/
theorem single_remainder (h : b.Valid) (hu : b.used ≠ 0) {x q : Nat} (hx : q * x ≤ b.bigits (b.used - 1)) :
    (clamp ⟨update b.bigits (b.used - 1) (chunkSub (b.bigits (b.used - 1)) (x * q) 0), b.used,
        b.exponent⟩).Valid ∧
      (clamp ⟨update b.bigits (b.used - 1) (chunkSub (b.bigits (b.used - 1)) (x * q) 0), b.used,
        b.exponent⟩).value + q * x * radix ^ (b.used + b.exponent - 1) = b.value := by
  have htlt := h.lt (b.used - 1)
  rw [mul_comm x q]
  have hsub : chunkSub (b.bigits (b.used - 1)) (q * x) 0 = b.bigits (b.used - 1) - q * x := by
    unfold chunkSub chunk radix at *
    omega
  rw [hsub]
  have hloose : Loose ⟨update b.bigits (b.used - 1) (b.bigits (b.used - 1) - q * x), b.used, b.exponent⟩ := by
    refine ⟨update_lt h.lt (by omega), fun i hi => ?_, h.used_le, h.exponent_lt⟩
    have hi' : b.used ≤ i := hi
    show update _ _ _ i = 0
    rw [update_of_ne (by omega)]
    exact h.above i hi'
  refine ⟨clamp_valid hloose, ?_⟩
  have hup := ofLimbs_update (B := radix) b.bigits (b.bigits (b.used - 1) - q * x)
    (show b.used - 1 < b.used by omega)
  have hm : mantissa ⟨update b.bigits (b.used - 1) (b.bigits (b.used - 1) - q * x), b.used,
      b.exponent⟩ + q * x * radix ^ (b.used - 1) = b.mantissa := by
    have hle : q * x * radix ^ (b.used - 1) ≤ b.bigits (b.used - 1) * radix ^ (b.used - 1) :=
      Nat.mul_le_mul_right _ hx
    rw [Nat.sub_mul] at hup
    unfold mantissa
    simp only
    omega
  rw [clamp_value hloose, value_eq, value_eq b, ← hm,
    show b.used + b.exponent - 1 = b.used - 1 + b.exponent by omega, pow_add]
  ring

theorem divideModuloIntBignum_meets (h : b.Valid) (ho : o.Valid) (hou : o.used ≠ 0)
    (h16 : b.value / o.value < 2 ^ 16) :
    Meets (divideModuloIntBignum b o)
      (fun r => r.1.Valid ∧ r.1.value = b.value % o.value ∧ r.2 = b.value / o.value)
      (Refused (128 < b.used + b.exponent - o.exponent ∨ 2 ^ 31 ≤ b.used + b.exponent ∨
        2 ^ 31 ≤ o.used + o.exponent)) := by
  have hopos : 0 < o.value := pos_of_ne_zero fun h0 => hou ((value_eq_zero ho).1 h0)
  refine (bigitLength_meets b).bind (Refused.mono fun h' => .inr (.inl h')) ?_
  rintro _ ⟨rfl, hlb⟩
  refine (bigitLength_meets o).bind (Refused.mono fun h' => .inr (.inr h')) ?_
  rintro _ ⟨rfl, hlo⟩
  by_cases hshort : b.used + b.exponent < o.used + o.exponent
  · rw [if_pos hshort]
    have := value_lt_of_length_lt h ho hshort
    exact Meets.pure ⟨h, (Nat.mod_eq_of_lt this).symm, (Nat.div_eq_of_lt this).symm⟩
  rw [if_neg hshort]
  refine (align_meets h).bind (Refused.mono .inl) ?_
  rintro a ⟨ha, haval, haexp, halen⟩
  have hau : a.used ≠ 0 := fun hu => by
    omega
  have hstart : Topped o b.value a 0 := ⟨ha, hau, haexp, by omega, .inl (by omega)⟩
  refine (divideTop_meets (2 ^ 16) ho hou hlo hstart (by omega) h16 (by rw [haval]; exact h16)).bind
    (Refused.mono False.elim) ?_
  rintro ⟨c, result⟩ ⟨ht, hlen⟩
  simp only at ht hlen ⊢
  have hq := quotient_add ht.total_eq hopos
  have hr : c.value % o.value = b.value % o.value := by
    rw [← ht.total_eq, add_comm, Nat.add_mul_mod_self_right]
  by_cases h1 : o.used = 1
  · rw [if_pos h1]
    obtain ⟨heq, hquot, hoval⟩ := single_quotient ho h1 ht hlen
    obtain ⟨hv, hval⟩ := single_remainder ht.valid ht.used_ne
      (Nat.div_mul_le_self (c.bigits (c.used - 1)) (o.bigits (o.used - 1)))
    refine Meets.pure ⟨hv, ?_, ?_⟩
    · have hmod := Nat.mod_add_div c.value o.value
      have hprod : o.value * (c.value / o.value) = c.bigits (c.used - 1) / o.bigits (o.used - 1) *
          o.bigits (o.used - 1) * radix ^ (c.used + c.exponent - 1) := by
        rw [hquot, hoval, heq]
        ring
      simp only
      omega
    · rw [← hquot, hq, Nat.mod_eq_of_lt h16]
  · rw [if_neg h1]
    obtain ⟨hest, hlast⟩ := estimate_le ho hou ht hlen
    have hotlt := ho.lt (o.used - 1)
    have htlt := ht.valid.lt (c.used - 1)
    rw [chunk_eq (show o.bigits (o.used - 1) + 1 < 2 ^ 32 by unfold radix at *; omega)]
    have hestlt : c.bigits (c.used - 1) / (o.bigits (o.used - 1) + 1) < radix :=
      lt_of_le_of_lt (Nat.div_le_self _ _) htlt
    refine (subtractTimes_meets ht.valid ho ht.exponent_le (by omega) hestlt hest).bind
      (Refused.mono False.elim) ?_
    rintro d ⟨hd, hdval, hdexp⟩
    have hsmall : chunk (o.bigits (o.used - 1) * (c.bigits (c.used - 1) / (o.bigits (o.used - 1) + 1) + 1)) =
        o.bigits (o.used - 1) * (c.bigits (c.used - 1) / (o.bigits (o.used - 1) + 1) + 1) := by
      have hmul := Nat.div_mul_le_self (c.bigits (c.used - 1)) (o.bigits (o.used - 1) + 1)
      refine chunk_eq ?_
      grind
    rw [hsmall]
    generalize c.bigits (c.used - 1) / (o.bigits (o.used - 1) + 1) = est at *
    have hestq : est ≤ c.value / o.value := (Nat.le_div_iff_mul_le hopos).2 hest
    rw [Nat.mod_eq_of_lt (show result + est < 2 ^ 16 by omega)]
    have htotal : (result + est) * o.value + d.value = b.value := by
      rw [add_mul, hdval, ← ht.total_eq]
      omega
    by_cases hstop : o.bigits (o.used - 1) * (est + 1) > c.bigits (c.used - 1)
    · rw [if_pos hstop]
      have hdlt : d.value < o.value := by
        grind
      exact Meets.pure ⟨hd, remainder_eq htotal hdlt, quotient_eq htotal hdlt⟩
    · rw [if_neg hstop]
      have hdlen : d.used + d.exponent ≤ b.used + b.exponent := by
        refine length_le hd ?_
        have := value_lt h
        omega
      refine (divideRest_meets (2 ^ 16) hd ho hou hlo hdexp (by omega) htotal h16 ?_).mono
        (fun _ hp => hp) (Refused.mono False.elim)
      refine lt_of_le_of_lt (Nat.div_le_div_right ?_) h16
      omega

end W16.Bignum
