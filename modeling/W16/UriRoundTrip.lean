import Mathlib.Data.List.Basic
import W16.Uri

/-!
# URI encoding is inverted by decoding

What is written for a scalar value, what is read from it, and which strings can be read at all.
-/
namespace W16.Uris

open CodeUnits Octets List Option

set_option linter.dupNamespace false

/-! ## Bits -/

theorem and_15 (n : Nat) : n &&& 0xF = n % 16 := Nat.and_two_pow_sub_one_eq_mod n 4

theorem and_63 (n : Nat) : n &&& 63 = n % 64 := Nat.and_two_pow_sub_one_eq_mod n 6

theorem and_3 (n : Nat) : n &&& 3 = n % 4 := Nat.and_two_pow_sub_one_eq_mod n 2

theorem and_31 (n : Nat) : n &&& 0x1f = n % 32 := Nat.and_two_pow_sub_one_eq_mod n 5

theorem and_7 (n : Nat) : n &&& 0x07 = n % 8 := Nat.and_two_pow_sub_one_eq_mod n 3

theorem and_1023 (n : Nat) : n &&& 0x3ff = n % 1024 := Nat.and_two_pow_sub_one_eq_mod n 10

theorem shift_or_15 {a b : Nat} (h : b < 16) : (a <<< 4) ||| b = a * 16 + b := by
  rw [← Nat.shiftLeft_add_eq_or_of_lt (i := 4) h, Nat.shiftLeft_eq]

/-! ## Writing -/

/-- `%XX` for an octet. -/
def percent (o : Nat) : List Nat :=
  [37, hexCharCodeArray.getD (o / 16) 0, hexCharCodeArray.getD (o % 16) 0]

/-- The groups of the shortest form of a number. -/
def written (v : Nat) : List Nat := (form v).flatMap percent

theorem addEncodedOctet_eq (o : Nat) (result : List Nat) :
    uriAddEncodedOctetToBuffer o result = result ++ percent o := by
  rw [uriAddEncodedOctetToBuffer, and_15, Nat.shiftRight_eq_div_pow]
  rfl

theorem uriEncodeOctets_one (o : Nat) (result : List Nat) :
    uriEncodeOctets [o] result = result ++ percent o := addEncodedOctet_eq o result

theorem uriEncodeOctets_two {o p : Nat} (hp : p ≠ 0) (result : List Nat) :
    uriEncodeOctets [o, p] result = result ++ percent o ++ percent p := by
  simp only [uriEncodeOctets, getD_cons_zero, getD_cons_succ, getD_nil, if_pos hp,
    ne_eq, not_true_eq_false, if_false, addEncodedOctet_eq]

theorem uriEncodeOctets_three {o p q : Nat} (hp : p ≠ 0) (hq : q ≠ 0) (result : List Nat) :
    uriEncodeOctets [o, p, q] result = result ++ percent o ++ percent p ++ percent q := by
  simp only [uriEncodeOctets, getD_cons_zero, getD_cons_succ, getD_nil, if_pos hp,
    if_pos hq, ne_eq, not_true_eq_false, if_false, addEncodedOctet_eq]

theorem uriEncodeOctets_four {o p q r : Nat} (hp : p ≠ 0) (hq : q ≠ 0) (hr : r ≠ 0) (result : List Nat) :
    uriEncodeOctets [o, p, q, r] result = result ++ percent o ++ percent p ++ percent q ++ percent r := by
  simp [uriEncodeOctets, addEncodedOctet_eq, hp, hq, hr]

theorem uriEncodeSingle_eq {cc : Nat} (h : cc < 0x10000) (result : List Nat) :
    uriEncodeSingle cc result = result ++ written cc := by
  unfold uriEncodeSingle written
  simp only [and_15, and_63, Nat.shiftRight_eq_div_pow]
  by_cases h1 : cc ≤ 0x7F
  · rw [if_pos h1, uriEncodeOctets_one, form_one (by omega), flatMap_singleton]
  by_cases h2 : cc ≤ 0x7FF
  · rw [if_neg h1, if_pos h2, uriEncodeOctets_two (by omega), form_two (by omega) (by omega),
      show cc / 2 ^ 6 % 64 + 192 = 192 + cc / 64 by omega, Nat.add_comm (cc % 64)]
    simp
  · rw [if_neg h1, if_neg h2, uriEncodeOctets_three (by omega) (by omega),
      form_three (by omega) h, show cc / 2 ^ 12 % 16 + 224 = 224 + cc / 4096 by omega,
      show cc / 2 ^ 6 % 64 + 128 = 128 + cc / 64 % 64 by omega, Nat.add_comm (cc % 64)]
    simp

theorem uriEncodePair_eq {v cc1 cc2 : Nat} (hv : 0x10000 ≤ v) (hlt : v ≤ 0x10FFFF)
    (h : units v = [cc1, cc2]) (result : List Nat) :
    uriEncodePair cc1 cc2 result = result ++ written v := by
  rw [units_two hv] at h
  obtain ⟨rfl, rfl⟩ := h
  unfold uriEncodePair written
  simp only [and_15, and_63, and_3, Nat.shiftRight_eq_div_pow]
  rw [shift_or_15 (Nat.mod_lt _ (by decide)), shift_or_15 (Nat.mod_lt _ (by decide)),
    uriEncodeOctets_four (by omega) (by omega) (by omega), form_four hv]
  have e0 : ((0xD7C0 + v / 0x400) / 2 ^ 6 % 16 + 1) / 2 ^ 2 + 240 = 240 + v / 262144 := by omega
  have e1 : ((0xD7C0 + v / 0x400) / 2 ^ 6 % 16 + 1) % 4 * 16 + (0xD7C0 + v / 0x400) / 2 ^ 2 % 16 + 128
      = 128 + v / 4096 % 64 := by omega
  have e2 : (0xD7C0 + v / 0x400) % 4 * 16 + (0xDC00 + v % 0x400) / 2 ^ 6 % 16 + 128
      = 128 + v / 64 % 64 := by omega
  grind -linarith

/-! ## Encoding a string -/

theorem getElem?_of_drop {uri r : List Nat} {k c : Nat} (h : uri.drop k = c :: r) :
    uri[k]? = some c ∧ uri.drop (k + 1) = r := by
  constructor
  · have hhead := congrArg (fun l => l[0]?) h
    simpa using hhead
  · have htail := congrArg tail h
    rwa [tail_drop] at htail

theorem getElem?_of_drop_nil {uri : List Nat} {k : Nat} (h : uri.drop k = []) : uri[k]? = none :=
  List.getElem?_eq_none (drop_eq_nil_iff.1 h)

theorem drop_of_getElem? {uri : List Nat} {i c : Nat} (h : uri[i]? = some c) :
    uri.drop i = c :: uri.drop (i + 1) := by
  grind [drop_eq_getElem_cons]

/-- What `Encode` writes for a scalar value. -/
def encoded (unescape : Nat → Bool) (v : Nat) : List Nat := if unescape v then [v] else written v

/-- Only characters that are ASCII, and not the percent sign, are left as they are. -/
structure Plain (unescape : Nat → Bool) : Prop where
  ascii : ∀ c, unescape c = true → c < 128
  percent : unescape 37 = false

theorem Plain.not_surrogate {unescape : Nat → Bool} (h : Plain unescape) {c : Nat}
    (hc : Surrogate c) : unescape c = false := by
  cases hu : unescape c with
  | false => rfl
  | true =>
    have hlt := h.ascii c hu
    unfold Surrogate at hc
    omega

variable {unescape : Nat → Bool} {uri : List Nat}

/-- One turn of the loop on a unit that is a scalar value. -/
theorem encodeLoop_one {fuel k c : Nat} {result r : List Nat} (h : uri.drop k = c :: r)
    (hc : c < 0x10000) (hsur : ¬Surrogate c) :
    encodeLoop uri unescape (fuel + 1) k result =
      encodeLoop uri unescape fuel (k + 1) (result ++ encoded unescape c) := by
  unfold Surrogate at hsur
  rw [encodeLoop, (getElem?_of_drop h).1]
  by_cases hu : unescape c = true
  · simp only [hu, if_true, encoded]
  · have hlow : ¬(decide (c ≥ 0xDC00) && decide (c ≤ 0xDFFF)) = true := by
      simp only [Bool.and_eq_true, decide_eq_true_iff]
      omega
    have hother : (decide (c < 0xD800) || decide (c > 0xDBFF)) = true := by
      simp only [Bool.or_eq_true, decide_eq_true_iff]
      omega
    simp only [if_neg hu, if_neg hlow, if_pos hother, uriEncodeSingle_eq hc, encoded]

theorem encodeLoop_low (hp : Plain unescape) {fuel k c : Nat} {result r : List Nat}
    (h : uri.drop k = c :: r) (hlow : Low c) :
    encodeLoop uri unescape (fuel + 1) k result = some .uriError := by
  unfold Low at hlow
  have hu := hp.not_surrogate (c := c) (by unfold Surrogate; omega)
  have hbad : (decide (c ≥ 0xDC00) && decide (c ≤ 0xDFFF)) = true := by
    simp only [Bool.and_eq_true, decide_eq_true_iff]
    omega
  rw [encodeLoop, (getElem?_of_drop h).1]
  simp only [hu, Bool.false_eq_true, if_false, if_pos hbad]

/-- One turn of the loop on the first unit of a pair, or what should be one. -/
theorem encodeLoop_high (hp : Plain unescape) (fuel : Nat) (result : List Nat) {k c : Nat}
    {r : List Nat} (h : uri.drop k = c :: r) (hhigh : High c) :
    (r = [] → encodeLoop uri unescape (fuel + 1) k result = some .uriError) ∧
    (∀ d r', r = d :: r' → ¬Low d → encodeLoop uri unescape (fuel + 1) k result = some .uriError) ∧
    (∀ d r', r = d :: r' → Low d → encodeLoop uri unescape (fuel + 1) k result =
      encodeLoop uri unescape fuel (k + 2) (uriEncodePair c d result)) := by
  unfold High at hhigh
  have hu := hp.not_surrogate (c := c) (by unfold Surrogate; omega)
  have hgood : ¬(decide (c ≥ 0xDC00) && decide (c ≤ 0xDFFF)) = true := by
    simp only [Bool.and_eq_true, decide_eq_true_iff]
    omega
  have hpair : ¬(decide (c < 0xD800) || decide (c > 0xDBFF)) = true := by
    simp only [Bool.or_eq_true, decide_eq_true_iff]
    omega
  have hnext := (getElem?_of_drop h).2
  rw [encodeLoop, (getElem?_of_drop h).1]
  simp only [hu, Bool.false_eq_true, if_false, if_neg hgood, if_neg hpair]
  refine ⟨?_, ?_, ?_⟩
  · rintro rfl
    rw [getElem?_of_drop_nil hnext]
  · rintro d r' rfl hd
    rw [(getElem?_of_drop hnext).1]
    exact if_pos (by
      simp only [Bool.or_eq_true, decide_eq_true_iff]
      unfold Low at hd
      omega)
  · rintro d r' rfl hd
    rw [(getElem?_of_drop hnext).1]
    simp_all [if_neg, Low]

theorem encodeLoop_scalars (hp : Plain unescape) {vs : List Nat} : ∀ {fuel k : Nat}
    {result : List Nat}, (∀ v ∈ vs, Scalar v) → uri.drop k = vs.flatMap units → vs.length < fuel →
        encodeLoop uri unescape fuel k result = some (.value (result ++ vs.flatMap (encoded unescape))) := by
  induction vs with
  | nil =>
    intro fuel k result _ h hfuel
    obtain ⟨fuel, rfl⟩ : ∃ n, fuel = n + 1 := ⟨fuel - 1, by omega⟩
    rw [encodeLoop, getElem?_of_drop_nil h]
    simp
  | cons v vs ih =>
    intro fuel k result hvs h hfuel
    obtain ⟨fuel, rfl⟩ : ∃ n, fuel = n + 1 := ⟨fuel - 1, by omega⟩
    have hv := hvs v mem_cons_self
    have hvs' := fun w hw => hvs w (mem_cons_of_mem v hw)
    have hfuel' : vs.length < fuel := Nat.lt_of_succ_lt_succ hfuel
    rw [flatMap_cons] at h
    by_cases hone : v < 0x10000
    · rw [units_one hone, singleton_append] at h
      rw [encodeLoop_one h hone hv.2, ih hvs' (getElem?_of_drop h).2 hfuel', flatMap_cons,
        append_assoc]
    · have hlarge : 0x10000 ≤ v := Nat.le_of_not_lt hone
      have hpair := uriEncodePair_eq hlarge hv.1 (units_two hlarge) result
      rw [units_two hlarge, cons_append, singleton_append] at h
      have hle := hv.1
      have hnext := (getElem?_of_drop h).2
      have hu : unescape v = false := by
        cases hu : unescape v with
        | false => rfl
        | true =>
          have hlt := hp.ascii v hu
          omega
      have hhigh : High (0xD7C0 + v / 0x400) := by
        unfold High
        omega
      have hlow : Low (0xDC00 + v % 0x400) := by
        unfold Low
        omega
      rw [(encodeLoop_high hp fuel result h hhigh).2.2 _ _ rfl hlow, hpair,
        ih hvs' (getElem?_of_drop hnext).2 hfuel', flatMap_cons, encoded, hu, append_assoc]
      simp

theorem hasUnpaired_tail {c : Nat} {r : List Nat} (hc : ¬Surrogate c) (h : HasUnpaired (c :: r)) :
    HasUnpaired r := by
  obtain ⟨before, d, after, heq, hd⟩ := h
  cases before with
  | nil => exact absurd ((List.cons.inj heq).1 ▸ hd.surrogate) hc
  | cons b before =>
    exact ⟨before, d, after, (List.cons.inj heq).2, hd.surrogate, hd.high,
      fun hlow e r hr => hd.low hlow e (b :: r) (by rw [hr]; rfl)⟩

theorem hasUnpaired_pair {c d : Nat} {r : List Nat} (hc : High c) (hd : Low d)
    (h : HasUnpaired (c :: d :: r)) : HasUnpaired r := by
  obtain ⟨before, e, after, heq, he⟩ := h
  match before with
  | [] =>
    obtain ⟨rfl, rfl⟩ := List.cons.inj heq
    exact absurd hd (he.high hc d r rfl)
  | [b] =>
    obtain ⟨rfl, hrest⟩ := List.cons.inj heq
    obtain ⟨rfl, rfl⟩ := List.cons.inj hrest
    exact absurd hc (he.low hd c [] rfl)
  | a :: b :: before =>
    exact ⟨before, e, after, (List.cons.inj (List.cons.inj heq).2).2, he.surrogate, he.high,
      fun hlow f r hr => he.low hlow f (a :: b :: r) (by rw [hr]; rfl)⟩

theorem encodeLoop_unpaired (hp : Plain unescape) {fuel : Nat} : ∀ {k : Nat} {s result : List Nat},
    (∀ c ∈ s, c < 0x10000) → uri.drop k = s → HasUnpaired s → s.length < fuel →
      encodeLoop uri unescape fuel k result = some .uriError := by
  induction fuel with
  | zero => exact fun _ _ _ hfuel => absurd hfuel (Nat.not_lt_zero _)
  | succ fuel ih =>
    intro k s result hs h hbad hfuel
    cases s with
    | nil =>
      obtain ⟨before, c, after, heq, -⟩ := hbad
      cases before <;> cases heq
    | cons c r =>
      have hr : ∀ d ∈ r, d < 0x10000 := fun d hd => hs d (mem_cons_of_mem c hd)
      have hlen : r.length < fuel := Nat.lt_of_succ_lt_succ hfuel
      by_cases hsur : Surrogate c
      case neg =>
        rw [encodeLoop_one h (hs c mem_cons_self) hsur]
        exact ih hr (getElem?_of_drop h).2 (hasUnpaired_tail hsur hbad) hlen
      rcases high_or_low hsur with hhigh | hlow
      case inr => exact encodeLoop_low hp h hlow
      obtain ⟨hend, hsingle, hpair⟩ := encodeLoop_high hp fuel result h hhigh
      cases r with
      | nil => exact hend rfl
      | cons d r =>
        by_cases hd : Low d
        · rw [hpair d r rfl hd]
          exact ih (fun e he => hr e (mem_cons_of_mem d he))
            (getElem?_of_drop (getElem?_of_drop h).2).2 (hasUnpaired_pair hhigh hd hbad)
            (Nat.lt_of_succ_lt hlen)
        · exact hsingle d r rfl hd

theorem length_scalars (vs : List Nat) : vs.length ≤ (vs.flatMap units).length := by
  induction vs with
  | nil => exact Nat.le_refl _
  | cons v vs ih =>
    grind [units]

/-- `Encode` throws exactly for a string with an unpaired surrogate. -/
theorem encode_eq (hp : Plain unescape) (huri : ∀ c ∈ uri, c < 0x10000) :
    (HasUnpaired uri ∧ encode uri unescape = some .uriError) ∨
      ∃ vs : List Nat, (∀ v ∈ vs, Scalar v) ∧ uri = vs.flatMap units ∧ ¬HasUnpaired uri ∧
        encode uri unescape = some (.value (vs.flatMap (encoded unescape))) := by
  by_cases hbad : HasUnpaired uri
  · exact .inl ⟨hbad, encodeLoop_unpaired hp huri rfl hbad (Nat.lt_succ_self _)⟩
  · obtain ⟨vs, hvs, heq⟩ := exists_scalars huri hbad
    have hlen := length_scalars vs
    rw [← heq] at hlen
    exact .inr ⟨vs, hvs, heq, hbad, encodeLoop_scalars hp hvs heq (Nat.lt_succ_of_le hlen)⟩

/-! ## Groups of octets -/

/-- Groups of `%XX` and the octets they stand for. -/
inductive Spelled : List Nat → List Nat → Prop
  | nil : Spelled [] []
  | cons {h l a b : Nat} {text os : List Nat} : hexValueOf h = some a → hexValueOf l = some b →
      Spelled text os → Spelled (37 :: h :: l :: text) ((a * 16 + b) :: os)

theorem Spelled.append {t t' os os' : List Nat} (h : Spelled t os) (h' : Spelled t' os') :
    Spelled (t ++ t') (os ++ os') := by
  induction h with
  | nil => exact h'
  | cons ha hb _ ih => exact .cons ha hb ih

theorem Spelled.length {text os : List Nat} (h : Spelled text os) : text.length = 3 * os.length := by
  induction h with
  | nil => rfl
  | cons _ _ _ ih =>
    simp only [length_cons]
    omega

theorem hexValueOf_lt {code a : Nat} (h : hexValueOf code = some a) : a < 16 := by
  unfold hexValueOf at h
  grind

theorem Spelled.lt {text os : List Nat} (h : Spelled text os) : ∀ o ∈ os, o < 256 := by
  induction h with
  | nil => exact fun o ho => (nomatch ho)
  | cons ha hb _ ih =>
    intro o ho
    have ha := hexValueOf_lt ha
    have hb := hexValueOf_lt hb
    grind

theorem spelled_percent {o : Nat} (h : o < 256) : Spelled (percent o) [o] := by
  have hall : ∀ d : Fin 16, hexValueOf (hexCharCodeArray.getD d.val 0) = some d.val := by decide
  have hhigh := hall ⟨o / 16, by omega⟩
  have hlow := hall ⟨o % 16, by omega⟩
  have ho : o / 16 * 16 + o % 16 = o := by omega
  have hspell := Spelled.cons hhigh hlow .nil
  rwa [ho] at hspell

theorem spelled_written {v : Nat} (h : v ≤ 0x10FFFF) : Spelled (written v) (form v) := by
  have hlt : ∀ o ∈ form v, o < 256 := by
    intro o ho
    unfold form at ho
    grind
  have hall : ∀ os : List Nat, (∀ o ∈ os, o < 256) → Spelled (os.flatMap percent) os := by
    intro os
    induction os with
    | nil => exact fun _ => .nil
    | cons o os ih =>
      intro hos
      exact (spelled_percent (hos o mem_cons_self)).append
        (ih fun p hp => hos p (mem_cons_of_mem o hp))
  exact hall _ hlt

theorem hexCharsToCharCode_eq {h l o : Nat} : uriHexCharsToCharCode (some h) (some l) = some o ↔
    ∃ a b, hexValueOf h = some a ∧ hexValueOf l = some b ∧ o = a * 16 + b := by
  simp only [uriHexCharsToCharCode, bind_eq_bind, bind_some, bind_eq_some_iff]
  constructor
  · rintro ⟨a, ha, b, hb, ho⟩
    rw [shift_or_15 (hexValueOf_lt hb)] at ho
    exact ⟨a, b, ha, hb, (some.inj ho).symm⟩
  · rintro ⟨a, b, ha, hb, rfl⟩
    exact ⟨a, ha, b, hb, by rw [shift_or_15 (hexValueOf_lt hb)]; rfl⟩

theorem octetsLoop_spelled {text os : List Nat} (h : Spelled text os) : ∀ {k : Nat} {rest : List Nat},
    uri.drop (k + 1) = text ++ rest → octetsLoop uri os.length k = some os := by
  induction h with
  | nil => exact fun _ => rfl
  | @cons hc lc a b text os ha hb _ ih =>
    intro k rest hdrop
    obtain ⟨h1, hd1⟩ := getElem?_of_drop hdrop
    obtain ⟨h2, hd2⟩ := getElem?_of_drop hd1
    obtain ⟨h3, hd3⟩ := getElem?_of_drop hd2
    have hread := hexCharsToCharCode_eq.2 ⟨a, b, ha, hb, rfl⟩
    rw [length_cons, octetsLoop, if_neg (not_not.2 h1), h2, h3, hread]
    simp only [bind_eq_bind, bind_some, ih hd3]
    rfl

theorem octetsLoop_some {n : Nat} : ∀ {k : Nat} {os : List Nat}, octetsLoop uri n k = some os →
    ∃ text, Spelled text os ∧ os.length = n ∧ uri.drop (k + 1) = text ++ uri.drop (k + 1 + 3 * n) := by
  induction n with
  | zero =>
    intro k os h
    obtain rfl := some.inj h
    exact ⟨[], .nil, rfl, rfl⟩
  | succ n ih =>
    intro k os h
    rw [octetsLoop] at h
    split at h
    · cases h
    · next h1 =>
      rw [ne_eq, not_not] at h1
      simp only [bind_eq_bind, bind_eq_some_iff] at h
      obtain ⟨o, hread, os', hos', heq⟩ := h
      obtain rfl := some.inj heq
      cases h2 : uri[k + 2]? with
      | none => rw [h2] at hread; cases hread
      | some hc =>
        cases h3 : uri[k + 3]? with
        | none => rw [h2, h3] at hread; simp [uriHexCharsToCharCode] at hread
        | some lc =>
          rw [h2, h3] at hread
          obtain ⟨a, b, ha, hb, rfl⟩ := hexCharsToCharCode_eq.1 hread
          obtain ⟨text, htext, hlen, hdrop⟩ := ih hos'
          refine ⟨37 :: hc :: lc :: text, .cons ha hb htext, by rw [length_cons, hlen], ?_⟩
          rw [drop_of_getElem? h1, drop_of_getElem? h2, drop_of_getElem? h3, hdrop]
          grind

/-! ## Octets of one character -/

theorem isTail_iff {o : Nat} : isTail o = true ↔ 128 ≤ o ∧ o < 192 := by
  grind [isTail]

theorem countLoop_eq (o : Nat) (h : o < 256) (h' : 128 ≤ o) :
    countLoop o 8 0 = (if o < 192 then 1 else if o < 224 then 2 else if o < 240 then 3
      else if o < 248 then 4 else countLoop o 8 0) ∧ (248 ≤ o → 4 < countLoop o 8 0) := by
  have hall : ∀ o : Fin 256, 128 ≤ o.val → countLoop o.val 8 0 = (if o.val < 192 then 1
      else if o.val < 224 then 2 else if o.val < 240 then 3 else if o.val < 248 then 4
      else countLoop o.val 8 0) ∧ (248 ≤ o.val → 4 < countLoop o.val 8 0) := by decide +kernel
  exact hall ⟨o, h⟩ h'

/-- The value of octets that are the form of a character. -/
theorem octetsValue_two {a b : Nat} (ha : a < 32) (hb : b < 64) (h : 128 ≤ a * 64 + b) (o p : Nat) :
    octetsValue (192 + a) (128 + b) o p = some (a * 64 + b) := by
  have htail : isTail (128 + b) = true := isTail_iff.2 (by omega)
  have hvalue : ((192 + a) % 32) <<< 6 + (128 + b) % 64 = a * 64 + b := by
    omega
  have hgood : ¬(decide (a * 64 + b < 128) || decide (a * 64 + b > 2047)) = true := by
    simp only [Bool.or_eq_true, decide_eq_true_iff]
    omega
  unfold octetsValue
  rw [if_neg (by omega), if_neg (by omega), if_pos (by omega), htail]
  simp only [Bool.not_true, Bool.false_eq_true, if_false, and_31, and_63, hvalue, if_neg hgood]

theorem octetsValue_three {a b c : Nat} (ha : a < 16) (hb : b < 64) (hc : c < 64)
    (h : 2048 ≤ (a * 64 + b) * 64 + c) (p : Nat) :
    octetsValue (224 + a) (128 + b) (128 + c) p = some ((a * 64 + b) * 64 + c) := by
  have htail : isTail (128 + b) = true := isTail_iff.2 (by omega)
  have htail' : isTail (128 + c) = true := isTail_iff.2 (by omega)
  have hvalue : ((224 + a) % 16) <<< 12 + ((128 + b) % 64) <<< 6 + (128 + c) % 64 = (a * 64 + b) * 64 + c := by
    omega
  have hgood : ¬(decide ((a * 64 + b) * 64 + c < 2048) || decide ((a * 64 + b) * 64 + c > 65535)) = true := by
    simp only [Bool.or_eq_true, decide_eq_true_iff]
    omega
  unfold octetsValue
  rw [if_neg (by omega), if_neg (by omega), if_neg (by omega), if_pos (by omega), htail, htail']
  simp [and_15, and_63, hvalue, hgood]

theorem octetsValue_four {a b c d : Nat} (ha : a < 8) (hb : b < 64) (hc : c < 64) (hd : d < 64)
    (h : 65536 ≤ ((a * 64 + b) * 64 + c) * 64 + d)
    (h' : ((a * 64 + b) * 64 + c) * 64 + d ≤ 0x10FFFF) :
    octetsValue (240 + a) (128 + b) (128 + c) (128 + d) = some (((a * 64 + b) * 64 + c) * 64 + d) := by
  have htail : isTail (128 + b) = true := isTail_iff.2 (by omega)
  have htail' : isTail (128 + c) = true := isTail_iff.2 (by omega)
  have htail'' : isTail (128 + d) = true := isTail_iff.2 (by omega)
  have hvalue : ((240 + a) % 8) <<< 18 + ((128 + b) % 64) <<< 12 + ((128 + c) % 64) <<< 6 +
      (128 + d) % 64 = ((a * 64 + b) * 64 + c) * 64 + d := by
    omega
  have hgood : ¬(decide (((a * 64 + b) * 64 + c) * 64 + d < 65536) ||
      decide (((a * 64 + b) * 64 + c) * 64 + d > 1114111)) = true := by
    simp only [Bool.or_eq_true, decide_eq_true_iff]
    omega
  unfold octetsValue
  rw [if_neg (by omega), if_neg (by omega), if_neg (by omega), if_neg (by omega),
    if_pos (by omega), htail, htail', htail'']
  simp [and_7, and_63, hvalue, hgood]

/-- The octets that have a value are the form of a character, if there are as many as the first
one tells. -/
theorem octetsValue_some {o0 v n : Nat} {os : List Nat} (h0 : 128 ≤ o0) (hlt : o0 < 256)
    (hn : countLoop o0 8 0 = n) (hlen : os.length + 1 = n) (hfour : n ≤ 4)
    (h : octetsValue o0 (os.getD 0 0) (os.getD 1 0) (os.getD 2 0) = some v) :
    128 ≤ v ∧ v ≤ 0x10FFFF ∧ o0 :: os = form v := by
  obtain ⟨hcount, hbig⟩ := countLoop_eq o0 hlt h0
  rw [hn] at hcount hbig
  have hsize : o0 < 248 := by
    omega
  unfold octetsValue at h
  rw [if_neg (by omega)] at h
  split at h
  · cases h
  split at h
  · rename_i hE0
    rw [if_neg (by omega), if_pos hE0] at hcount
    match os, hlen with
    | [o1], _ =>
      split at h
      · cases h
      · rename_i htail
        rw [Bool.not_eq_true', Bool.not_eq_false, getD_cons_zero, isTail_iff] at htail
        dsimp only at h
        split at h
        · cases h
        · rename_i hrange
          obtain rfl := some.inj h
          rw [getD_cons_zero, and_31, and_63, Nat.shiftLeft_eq] at hrange ⊢
          rw [form_two (by omega) (by omega)]
          simp only [List.cons.injEq, and_true]
          omega
    | [], hlen => simp at hlen; omega
    | _ :: _ :: _, hlen => simp at hlen; omega
  rename_i hE0
  split at h
  · rename_i hF0
    rw [if_neg (by omega), if_neg hE0, if_pos hF0] at hcount
    match os, hlen with
    | [o1, o2], _ =>
      split at h
      · cases h
      rename_i htail
      split at h
      · cases h
      rename_i htail'
      rw [Bool.not_eq_true', Bool.not_eq_false, getD_cons_zero, isTail_iff] at htail
      rw [Bool.not_eq_true', Bool.not_eq_false, getD_cons_succ, getD_cons_zero, isTail_iff] at htail'
      dsimp only at h
      split at h
      · cases h
      · rename_i hrange
        rw [Bool.or_eq_true, decide_eq_true_iff, decide_eq_true_iff] at hrange
        obtain rfl := some.inj h
        simp only [getD_cons_zero, getD_cons_succ, and_15, and_63, Nat.shiftLeft_eq] at hrange ⊢
        rw [form_three (by omega) (by omega)]
        simp only [List.cons.injEq, and_true]
        omega
    | [], hlen => simp at hlen; omega
    | [_], hlen => simp at hlen; omega
    | _ :: _ :: _ :: _, hlen => simp at hlen; omega
  rename_i hF0
  rw [if_neg (by omega), if_neg hE0, if_neg hF0, if_pos hsize] at hcount
  match os, hlen with
  | [o1, o2, o3], _ =>
    split at h
    · cases h
    rename_i htail
    split at h
    · cases h
    rename_i htail'
    split at h
    · cases h
    rename_i htail''
    rw [Bool.not_eq_true', Bool.not_eq_false, getD_cons_zero, isTail_iff] at htail
    rw [Bool.not_eq_true', Bool.not_eq_false, getD_cons_succ, getD_cons_zero, isTail_iff] at htail'
    rw [Bool.not_eq_true', Bool.not_eq_false, getD_cons_succ, getD_cons_succ,
      getD_cons_zero, isTail_iff] at htail''
    dsimp only at h
    split at h
    · cases h
    · rename_i hrange
      rw [Bool.or_eq_true, decide_eq_true_iff, decide_eq_true_iff] at hrange
      obtain rfl := some.inj h
      simp only [getD_cons_zero, getD_cons_succ, and_7, and_63, Nat.shiftLeft_eq] at hrange ⊢
      rw [form_four (by omega)]
      simp only [List.cons.injEq, and_true]
      omega
  | [], hlen => simp at hlen; omega
  | [_], hlen => simp at hlen; omega
  | [_, _], hlen => simp at hlen; omega
  | _ :: _ :: _ :: _ :: _, hlen => simp at hlen; omega

theorem units_eq (v : Nat) : (if v < 0x10000 then some [v]
    else some [(v >>> 10) + 0xd7c0, (v &&& 0x3ff) + 0xdc00]) = some (units v) := by
  unfold units
  split
  · rfl
  · rw [Nat.shiftRight_eq_div_pow, and_1023, Nat.add_comm, Nat.add_comm (v % 1024)]

theorem uriDecodeOctets_form {v : Nat} (h : 128 ≤ v) (h' : v ≤ 0x10FFFF) :
    uriDecodeOctets (form v) = some (units v) := by
  have hvalue : octetsValue ((form v).getD 0 0) ((form v).getD 1 0) ((form v).getD 2 0)
      ((form v).getD 3 0) = some v := by
    by_cases h2 : v < 2048
    · have hv := octetsValue_two (a := v / 64) (b := v % 64) (by omega) (by omega) (by omega) 0 0
      rw [show v / 64 * 64 + v % 64 = v by omega] at hv
      rw [form_two h h2]
      exact hv
    by_cases h3 : v < 65536
    · have hv := octetsValue_three (a := v / 4096) (b := v / 64 % 64) (c := v % 64) (by omega)
        (by omega) (by omega) (by omega) 0
      rw [show (v / 4096 * 64 + v / 64 % 64) * 64 + v % 64 = v by omega] at hv
      rw [form_three (by omega) h3]
      exact hv
    · have hv := octetsValue_four (a := v / 262144) (b := v / 4096 % 64) (c := v / 64 % 64)
        (d := v % 64) (by omega) (by omega) (by omega) (by omega) (by omega) (by omega)
      rw [show ((v / 262144 * 64 + v / 4096 % 64) * 64 + v / 64 % 64) * 64 + v % 64 = v by omega] at hv
      rw [form_four (by omega)]
      exact hv
  rw [uriDecodeOctets, hvalue]
  exact units_eq v

theorem uriDecodeOctets_some {o0 n : Nat} {os us : List Nat} (h0 : 128 ≤ o0) (hlt : o0 < 256)
    (hn : countLoop o0 8 0 = n) (hlen : os.length + 1 = n) (hfour : n ≤ 4)
    (h : uriDecodeOctets (o0 :: os) = some us) :
    ∃ v, 128 ≤ v ∧ v ≤ 0x10FFFF ∧ o0 :: os = form v ∧ us = units v := by
  simp only [uriDecodeOctets, bind_eq_bind, bind_eq_some_iff] at h
  obtain ⟨v, hvalue, hunits⟩ := h
  rw [units_eq] at hunits
  obtain ⟨hle, hle', hform⟩ := octetsValue_some h0 hlt hn hlen hfour hvalue
  exact ⟨v, hle, hle', hform, (some.inj hunits).symm⟩

/-! ## Decoding a string -/

/-- A character that is not the percent sign, or the groups of a number. -/
inductive Piece where
  | char (c : Nat)
  | group (text : List Nat) (v : Nat)

def Piece.text : Piece → List Nat
  | char c => [c]
  | group text _ => text

/-- The number is one of those wanted and the text its shortest form. -/
def Piece.Valid (wanted : Nat → Prop) : Piece → Prop
  | char c => c ≠ 37
  | group text v => wanted v ∧ ∃ os, Spelled text os ∧ Shortest os v

/-- What `Decode` writes: a reserved character stays a group. -/
def Piece.decoded (reserved : Nat → Bool) : Piece → List Nat
  | char c => [c]
  | group text v => if v < 128 ∧ reserved v = true then text else units v

def CodePoint (v : Nat) : Prop := v ≤ 0x10FFFF

/-- The string is these pieces, one after the other. -/
structure Splits (wanted : Nat → Prop) (u : List Nat) (ps : List Piece) : Prop where
  valid : ∀ p ∈ ps, p.Valid wanted
  text : u = ps.flatMap Piece.text

theorem count_form {v o0 : Nat} {os : List Nat} (h : 128 ≤ v) (h' : v ≤ 0x10FFFF) (hform : form v = o0 :: os) :
    128 ≤ o0 ∧ o0 < 256 ∧ countLoop o0 8 0 = os.length + 1 ∧ 1 ≤ os.length ∧ os.length ≤ 3 := by
  have hlt : o0 < 256 := (spelled_written h').lt o0 (by rw [hform]; exact mem_cons_self)
  obtain ⟨a, r, heq, hcases⟩ := form_head v
  rw [hform] at heq
  obtain ⟨rfl, rfl⟩ := List.cons.inj heq
  have hsmall : o0 < 248 := by
    grind [form_four]
  have hcount := (countLoop_eq o0 hlt (by omega)).1
  grind

theorem shiftRight_7 {cc : Nat} : cc >>> 7 ≠ 0 ↔ 128 ≤ cc := by
  omega

theorem length_of_drop {k : Nat} {l : List Nat} (h : uri.drop k = l) (hl : l ≠ []) :
    uri.length = k + l.length := by
  have hlen := congrArg List.length h
  grind [length_pos_iff]

/-- A turn at a piece writes what it stands for and goes behind it. -/
theorem decodeStep_piece (reserved : Nat → Bool) {p : Piece} (hp : p.Valid CodePoint) {k : Nat}
    {rest : List Nat} (h : uri.drop k = p.text ++ rest) :
    ∃ ch, uri[k]? = some ch ∧ decodeStep uri reserved k ch = some (p.decoded reserved, k + p.text.length) := by
  cases p with
  | char c =>
    refine ⟨c, (getElem?_of_drop h).1, ?_⟩
    rw [decodeStep, if_neg hp]
    rfl
  | group text v =>
    obtain ⟨hv, os, hspell, hshort⟩ := hp
    obtain ⟨-, rfl⟩ := shortest_iff.1 hshort
    change uri.drop k = text ++ rest at h
    obtain ⟨o0, os, hform, -⟩ := form_head v
    rw [hform] at hspell
    obtain _ | @⟨hc, lc, a, b, text, _, ha, hb, hrest⟩ := hspell
    have hlen := length_of_drop h (by simp)
    obtain ⟨hk, hd1⟩ := getElem?_of_drop h
    obtain ⟨h1, hd2⟩ := getElem?_of_drop hd1
    obtain ⟨h2, hd3⟩ := getElem?_of_drop hd2
    have hread := hexCharsToCharCode_eq.2 ⟨a, b, ha, hb, rfl⟩
    have htext := hrest.length
    simp only [cons_append, length_cons, length_append] at hlen
    refine ⟨37, hk, ?_⟩
    rw [decodeStep, if_pos rfl, if_neg (by omega), h1, h2, hread]
    simp only [bind_eq_bind, bind_some]
    by_cases hascii : v < 128
    · rw [form_one hascii] at hform
      obtain ⟨hva, rfl⟩ := List.cons.inj hform
      obtain rfl : text = [] := eq_nil_of_length_eq_zero (by simpa using htext)
      rw [← hva, if_neg (by omega)]
      have hg1 : uri.getD (k + 2 - 1) 0 = hc := by
        simp [h1]
      have hg2 : uri.getD (k + 2) 0 = lc := by
        rw [getD_eq_getElem?_getD, h2]
        rfl
      rw [hg1, hg2, Piece.decoded]
      by_cases hres : reserved v = true
      · rw [if_pos hres, if_pos ⟨hascii, hres⟩]
        rfl
      · rw [if_neg hres, if_neg fun hboth => hres hboth.2, units_one (by omega)]
        rfl
    · obtain ⟨h0, h0', hcount, hmin, hmax⟩ := count_form (Nat.le_of_not_lt hascii) hv hform
      rw [if_pos (shiftRight_7.2 h0), hcount, Nat.add_sub_cancel, octetsLoop_spelled hrest hd3]
      have hn : ¬(decide (os.length + 1 = 1) || decide (os.length + 1 > 4)) = true := by
        simp only [Bool.or_eq_true, decide_eq_true_iff]
        omega
      rw [if_neg hn, if_neg (by omega)]
      simp only [bind_some]
      rw [← hform, uriDecodeOctets_form (Nat.le_of_not_lt hascii) hv, Piece.decoded,
        if_neg fun hboth => hascii hboth.1]
      simp only [bind_some, Piece.text, length_cons, htext]
      rw [show k + 2 + 3 * os.length + 1 = k + (3 * os.length + 1 + 1 + 1) by omega]
      rfl

/-- A turn that does not throw is at a piece. -/
theorem decodeStep_some {reserved : Nat → Bool} {k ch k' : Nat} {us : List Nat}
    (hch : uri[k]? = some ch) (h : decodeStep uri reserved k ch = some (us, k')) :
    ∃ p : Piece, p.Valid CodePoint ∧ us = p.decoded reserved ∧ k < k' ∧ uri.drop k = p.text ++ uri.drop k' := by
  have hdrop := drop_of_getElem? hch
  unfold decodeStep at h
  split at h
  case isFalse hne =>
    cases h
    exact ⟨.char ch, hne, rfl, Nat.lt_succ_self k, hdrop⟩
  case isTrue h37 =>
  subst h37
  split at h
  case isTrue => cases h
  case isFalse hroom =>
  have h1 : ∃ c, uri[k + 1]? = some c := ⟨_, List.getElem?_eq_getElem (by omega)⟩
  have h2 : ∃ c, uri[k + 2]? = some c := ⟨_, List.getElem?_eq_getElem (by omega)⟩
  obtain ⟨hc, h1⟩ := h1
  obtain ⟨lc, h2⟩ := h2
  rw [h1, h2] at h
  simp only [bind_eq_bind, bind_eq_some_iff] at h
  obtain ⟨cc, hread, h⟩ := h
  obtain ⟨a, b, ha, hb, hcc⟩ := hexCharsToCharCode_eq.1 hread
  have ha' := hexValueOf_lt ha
  have hb' := hexValueOf_lt hb
  rw [drop_of_getElem? h1, drop_of_getElem? h2] at hdrop
  split at h
  case isFalse hascii =>
    have hspell : Spelled [37, hc, lc] (form cc) := by
      rw [form_one (by omega), hcc]
      exact .cons ha hb .nil
    have hvalid : (Piece.group [37, hc, lc] cc).Valid CodePoint :=
      ⟨show cc ≤ 0x10FFFF by omega, _, hspell, shortest_iff.2 ⟨show cc < 2097152 by omega, rfl⟩⟩
    have hg1 : uri.getD (k + 2 - 1) 0 = hc := by
      simp [h1]
    have hg2 : uri.getD (k + 2) 0 = lc := by
      rw [getD_eq_getElem?_getD, h2]
      rfl
    rw [hg1, hg2] at h
    split at h
    · next hres =>
      cases h
      exact ⟨_, hvalid, (if_pos ⟨by omega, hres⟩).symm, by omega, hdrop⟩
    · next hres =>
      cases h
      refine ⟨_, hvalid, ?_, by omega, hdrop⟩
      rw [Piece.decoded, if_neg fun hboth => hres hboth.2, units_one (by omega)]
  case isTrue hlarge =>
    rw [shiftRight_7] at hlarge
    split at h
    · cases h
    next hcount =>
    rw [Bool.or_eq_true, decide_eq_true_iff, decide_eq_true_iff] at hcount
    split at h
    · cases h
    next hin =>
    simp only [bind_eq_some_iff] at h
    obtain ⟨os, hos, us', hus, h⟩ := h
    cases h
    obtain ⟨text, htext, hlen, hrest⟩ := octetsLoop_some hos
    have hpos : 1 ≤ countLoop cc 8 0 := by
      have hall : ∀ o : Fin 256, 1 ≤ countLoop o.val 8 0 := by decide +kernel
      exact hall ⟨cc, by omega⟩
    obtain ⟨v, hv, hv', hform, rfl⟩ := uriDecodeOctets_some hlarge (by omega) rfl (by omega) (by omega) hus
    have hspell : Spelled (37 :: hc :: lc :: text) (form v) := by
      rw [← hform, hcc]
      exact .cons ha hb htext
    refine ⟨.group (37 :: hc :: lc :: text) v, ⟨hv', _, hspell, shortest_iff.2
      ⟨show v < 2097152 by omega, rfl⟩⟩, ?_, by omega, ?_⟩
    · rw [Piece.decoded, if_neg fun hboth => absurd hboth.1 (by omega)]
    · rw [hdrop, show k + 1 + 1 + 1 = k + 2 + 1 by omega, hrest,
        show k + 2 + 3 * (countLoop cc 8 0 - 1) + 1 = k + 2 + 1 + 3 * (countLoop cc 8 0 - 1) by omega]
      rfl

theorem Piece.text_ne_nil {p : Piece} {wanted : Nat → Prop} (hp : p.Valid wanted) : p.text ≠ [] := by
  cases p with
  | char c => exact cons_ne_nil _ _
  | group text v =>
    obtain ⟨-, os, hspell, hshort⟩ := hp
    obtain ⟨-, rfl⟩ := shortest_iff.1 hshort
    obtain ⟨a, r, hform, -⟩ := form_head v
    rw [hform] at hspell
    cases hspell
    exact cons_ne_nil _ _

theorem decodeLoop_pieces {reserved : Nat → Bool} {ps : List Piece} : ∀ {fuel k : Nat}
    {result : List Nat}, (∀ p ∈ ps, p.Valid CodePoint) → uri.drop k = ps.flatMap Piece.text → ps.length < fuel →
      decodeLoop uri reserved fuel k result =
        some (.value (result ++ ps.flatMap (Piece.decoded reserved))) := by
  induction ps with
  | nil =>
    intro fuel k result _ h hfuel
    obtain ⟨fuel, rfl⟩ : ∃ n, fuel = n + 1 := ⟨fuel - 1, by omega⟩
    rw [decodeLoop, getElem?_of_drop_nil h]
    simp
  | cons p ps ih =>
    intro fuel k result hps h hfuel
    obtain ⟨fuel, rfl⟩ : ∃ n, fuel = n + 1 := ⟨fuel - 1, by omega⟩
    have hp := hps p mem_cons_self
    rw [flatMap_cons] at h
    obtain ⟨ch, hch, hstep⟩ := decodeStep_piece reserved hp h
    have hnext : uri.drop (k + p.text.length) = ps.flatMap Piece.text := by
      rw [← drop_drop, h, drop_left]
    rw [decodeLoop, hch]
    simp only [hstep]
    rw [ih (fun q hq => hps q (mem_cons_of_mem p hq)) hnext (Nat.lt_of_succ_lt_succ hfuel),
      flatMap_cons, append_assoc]

/-- The loop ends, and it throws or is over pieces. -/
theorem decodeLoop_total (reserved : Nat → Bool) {fuel : Nat} : ∀ (k : Nat) (result : List Nat),
    uri.length - k < fuel → decodeLoop uri reserved fuel k result = some .uriError ∨
      ∃ ps : List Piece, (∀ p ∈ ps, p.Valid CodePoint) ∧ uri.drop k = ps.flatMap Piece.text := by
  induction fuel with
  | zero => exact fun _ _ hfuel => absurd hfuel (Nat.not_lt_zero _)
  | succ fuel ih =>
    intro k result hfuel
    cases hch : uri[k]? with
    | none =>
      rw [List.getElem?_eq_none_iff] at hch
      exact .inr ⟨[], fun p hp => (nomatch hp), drop_eq_nil_of_le hch⟩
    | some ch =>
      rw [decodeLoop, hch]
      have hlt := (List.getElem?_eq_some_iff.1 hch).1
      cases hstep : decodeStep uri reserved k ch with
      | none => exact .inl (by simp only [hstep])
      | some r =>
        obtain ⟨us, k'⟩ := r
        obtain ⟨p, hp, -, hk, htext⟩ := decodeStep_some hch hstep
        simp only [hstep]
        rcases ih k' (result ++ us) (by omega) with herror | ⟨ps, hps, hrest⟩
        · exact .inl herror
        · refine .inr ⟨p :: ps, fun q hq => ?_, ?_⟩
          · grind
          · rw [htext, hrest, flatMap_cons]

theorem length_pieces {ps : List Piece} {wanted : Nat → Prop} (h : ∀ p ∈ ps, p.Valid wanted) :
    ps.length ≤ (ps.flatMap Piece.text).length := by
  induction ps with
  | nil => exact Nat.le_refl _
  | cons p ps ih =>
    have hp := length_pos_iff.2 (Piece.text_ne_nil (h p mem_cons_self))
    have hrest := ih fun q hq => h q (mem_cons_of_mem p hq)
    rw [flatMap_cons, length_append, length_cons]
    omega

theorem decode_splits {reserved : Nat → Bool} {ps : List Piece} (h : Splits CodePoint uri ps) :
    decode uri reserved = some (.value (ps.flatMap (Piece.decoded reserved))) := by
  have hlen := length_pieces h.valid
  rw [← h.text] at hlen
  exact decodeLoop_pieces h.valid h.text (Nat.lt_succ_of_le hlen)

/-- `Decode` throws, or the string splits into pieces. -/
theorem decode_total (uri : List Nat) (reserved : Nat → Bool) :
    decode uri reserved = some .uriError ∨ ∃ ps, Splits CodePoint uri ps := by
  rcases decodeLoop_total reserved 0 [] (Nat.lt_succ_self uri.length) with
    herror | ⟨ps, hps, htext⟩
  · exact .inl herror
  · exact .inr ⟨ps, hps, htext⟩

/-! ## One way to split -/

/-- Of two groups one after the other the octets of one go on with those of the other. -/
theorem Spelled.comparable {t os : List Nat} (h : Spelled t os) : ∀ {t' os' r r' : List Nat},
    Spelled t' os' → t ++ r = t' ++ r' → ∃ s s', os ++ s = os' ++ s' := by
  induction h with
  | nil => exact fun {_ os' _ _} _ _ => ⟨os', [], by simp⟩
  | @cons hc lc a b t os ha hb _ ih =>
    intro t' os' r r' h' heq
    obtain _ | @⟨hc', lc', a', b', t', os', ha', hb', h'⟩ := h'
    · exact ⟨[], _, by simp; rfl⟩
    · simp only [cons_append, List.cons.injEq, true_and] at heq
      obtain ⟨rfl, rfl, heq⟩ := heq
      obtain rfl := some.inj (ha.symm.trans ha')
      obtain rfl := some.inj (hb.symm.trans hb')
      obtain ⟨s, s', hs⟩ := ih h' heq
      exact ⟨s, s', by rw [cons_append, cons_append, hs]⟩

theorem Piece.unique {p q : Piece} {wanted : Nat → Prop} (hp : p.Valid wanted) (hq : q.Valid wanted)
    {r r' : List Nat} (h : p.text ++ r = q.text ++ r') : p = q ∧ r = r' := by
  have hstart : ∀ {c text v} {r r' : List Nat}, c ≠ 37 → (Piece.group text v).Valid wanted →
      [c] ++ r ≠ text ++ r' := by
    rintro c text v r r' hc ⟨-, os, hspell, hshort⟩ heq
    obtain ⟨-, rfl⟩ := shortest_iff.1 hshort
    obtain ⟨a, s, hform, -⟩ := form_head v
    rw [hform] at hspell
    cases hspell
    exact hc (List.cons.inj heq).1
  cases p with
  | char c =>
    cases q with
    | char d =>
      obtain ⟨rfl, rfl⟩ := List.cons.inj h
      exact ⟨rfl, rfl⟩
    | group text v => exact absurd h (hstart hp hq)
  | group text v =>
    cases q with
    | char d => exact absurd h.symm (hstart hq hp)
    | group text' v' =>
      obtain ⟨-, os, hspell, hshort⟩ := hp
      obtain ⟨-, os', hspell', hshort'⟩ := hq
      obtain ⟨-, rfl⟩ := shortest_iff.1 hshort
      obtain ⟨-, rfl⟩ := shortest_iff.1 hshort'
      obtain ⟨s, s', hs⟩ := hspell.comparable hspell' h
      obtain ⟨rfl, -⟩ := form_append_inj hs
      obtain ⟨htext, hrest⟩ := append_inj h (hspell.length.trans hspell'.length.symm)
      have htext' : text = text' := htext
      exact ⟨by rw [htext'], hrest⟩

theorem Splits.unique {wanted : Nat → Prop} {u : List Nat} {ps : List Piece} :
    ∀ {qs : List Piece}, Splits wanted u ps → Splits wanted u qs → ps = qs := by
  induction ps generalizing u with
  | nil =>
    intro qs h h'
    cases qs with
    | nil => rfl
    | cons q qs =>
      have hne := Piece.text_ne_nil (h'.valid q mem_cons_self)
      have heq := h.text.symm.trans h'.text
      exact absurd (append_eq_nil_iff.1 heq.symm).1 hne
  | cons p ps ih =>
    intro qs h h'
    have hp := h.valid p mem_cons_self
    cases qs with
    | nil =>
      have heq := h'.text.symm.trans h.text
      exact absurd (append_eq_nil_iff.1 heq.symm).1 (Piece.text_ne_nil hp)
    | cons q qs =>
      have heq := h.text.symm.trans h'.text
      obtain ⟨rfl, hrest⟩ := Piece.unique hp (h'.valid q mem_cons_self) heq
      rw [ih (u := ps.flatMap Piece.text) ⟨fun x hx => h.valid x (mem_cons_of_mem p hx), rfl⟩
        ⟨fun x hx => h'.valid x (mem_cons_of_mem p hx), hrest⟩]

theorem Splits.mono {wanted wanted' : Nat → Prop} {u : List Nat} {ps : List Piece}
    (h : Splits wanted u ps) (himp : ∀ text v, Piece.group text v ∈ ps → wanted v → wanted' v) :
    Splits wanted' u ps := by
  refine ⟨fun p hp => ?_, h.text⟩
  have hvalid := h.valid p hp
  cases p with
  | char c => exact hvalid
  | group text v => exact ⟨himp text v hp hvalid.1, hvalid.2⟩

/-! ## Round trips -/

/-- The pieces that a scalar value is encoded as. -/
def encodedPiece (unescape : Nat → Bool) (v : Nat) : Piece :=
  if unescape v then .char v else .group (written v) v

theorem splits_encoded (hp : Plain unescape) {vs : List Nat} (hvs : ∀ v ∈ vs, Scalar v) :
    Splits CodePoint (vs.flatMap (encoded unescape)) (vs.map (encodedPiece unescape)) := by
  constructor
  · intro p hmem
    obtain ⟨v, hv, rfl⟩ := mem_map.1 hmem
    unfold encodedPiece
    split
    · next hu =>
      rintro rfl
      rw [hp.percent] at hu
      cases hu
    · have hle := (hvs v hv).1
      exact ⟨hle, _, spelled_written hle, shortest_iff.2 ⟨show v < 2097152 by omega, rfl⟩⟩
  · rw [flatMap_map]
    refine congrArg (fun f => vs.flatMap f) (funext fun v => ?_)
    unfold encoded encodedPiece
    split <;> rfl

theorem decoded_encoded (hp : Plain unescape) {reserved : Nat → Bool}
    (hres : ∀ c, reserved c = true → unescape c = true) (vs : List Nat) :
    (vs.map (encodedPiece unescape)).flatMap (Piece.decoded reserved) = vs.flatMap units := by
  rw [flatMap_map]
  refine congrArg (fun f => vs.flatMap f) (funext fun v => ?_)
  unfold encodedPiece
  split
  · next hu =>
    have hlt := hp.ascii v hu
    rw [units_one (by omega)]
    rfl
  · next hu =>
    exact if_neg fun hboth => hu (hres v hboth.2)

theorem hexCharCode_lt (i : Nat) : hexCharCodeArray.getD i 0 < 0x10000 := by
  by_cases h : i < 16
  · have hall : ∀ i : Fin 16, hexCharCodeArray.getD i.val 0 < 0x10000 := by decide
    exact hall ⟨i, h⟩
  · rw [getD_eq_getElem?_getD, List.getElem?_eq_none (Nat.le_of_not_lt h)]
    decide

theorem encoded_lt (hp : Plain unescape) (vs : List Nat) :
    ∀ c ∈ vs.flatMap (encoded unescape), c < 0x10000 := by
  intro c hc
  obtain ⟨v, -, hc⟩ := mem_flatMap.1 hc
  unfold encoded at hc
  split at hc
  · next hu =>
    obtain rfl := mem_singleton.1 hc
    have hlt := hp.ascii c hu
    omega
  · obtain ⟨o, -, hc⟩ := mem_flatMap.1 hc
    simp only [percent, mem_cons, not_mem_nil, or_false] at hc
    grind [hexCharCode_lt]

theorem codes_lt (s : List UInt16) : ∀ c ∈ codes s, c < 0x10000 := by
  intro c hc
  obtain ⟨x, -, rfl⟩ := mem_map.1 hc
  exact x.toNat_lt

theorem exists_codes {l : List Nat} (h : ∀ c ∈ l, c < 0x10000) : ∃ s : List UInt16, codes s = l := by
  refine ⟨l.map UInt16.ofNat, ?_⟩
  rw [codes, List.map_map]
  conv => rhs; rw [← map_id l]
  grind [map_congr_left, UInt16.toNat_ofNat']

theorem plain_unescapePredicate : Plain unescapePredicate := by
  refine ⟨fun c h => ?_, by decide⟩
  simp only [unescapePredicate, isAlphaNumeric, Bool.or_eq_true, Bool.and_eq_true, decide_eq_true_iff] at h
  omega

theorem plain_unescapeComponentPredicate : Plain unescapeComponentPredicate := by
  refine ⟨fun c h => ?_, by decide⟩
  simp only [unescapeComponentPredicate, isAlphaNumeric, Bool.or_eq_true, Bool.and_eq_true,
    decide_eq_true_iff] at h
  omega

theorem unescape_of_reserved (c : Nat) (h : reservedPredicate c = true) : unescapePredicate c = true := by
  simp only [reservedPredicate, Bool.or_eq_true, Bool.and_eq_true, decide_eq_true_iff] at h
  simp only [unescapePredicate, Bool.or_eq_true, Bool.and_eq_true, decide_eq_true_iff]
  omega

/-- Encoding throws for an unpaired surrogate only, and decoding gives the string back. -/
theorem encode_decode (hp : Plain unescape) {reserved : Nat → Bool}
    (hres : ∀ c, reserved c = true → unescape c = true) (s : List UInt16) :
    (encode (codes s) unescape = some .uriError ↔ HasUnpaired (codes s)) ∧
      (¬HasUnpaired (codes s) → ∃ e : List UInt16, encode (codes s) unescape = some (.value (codes e)) ∧
        decode (codes e) reserved = some (.value (codes s))) := by
  rcases encode_eq hp (codes_lt s) with ⟨hbad, herror⟩ | ⟨vs, hvs, heq, hgood, hvalue⟩
  · simp [hbad, herror]
  · refine ⟨⟨fun herror => ?_, fun hbad => absurd hbad hgood⟩, fun _ => ?_⟩
    · rw [hvalue] at herror
      cases herror
    · obtain ⟨e, he⟩ := exists_codes (encoded_lt hp vs)
      refine ⟨e, by rw [hvalue, he], ?_⟩
      rw [he, decode_splits (splits_encoded hp hvs), decoded_encoded hp hres, heq]

/-! ## Strict decoding -/

/-- What a piece stands for. -/
def Piece.units (p : Piece) : List Nat := p.decoded fun _ => false

/-- Decoding gives the characters and scalar values that the string consists of, throws where it
consists of none, and brings in no unpaired surrogate. -/
structure DecodesStrictly (u : List UInt16) : Prop where
  value : ∀ out, uriDecodeComponent u = some (.value out) ↔
    ∃ ps, Splits Scalar (codes u) ps ∧ out = ps.flatMap Piece.units
  throws : uriDecodeComponent u = some .uriError ↔ ¬∃ ps, Splits Scalar (codes u) ps
  literal : ∀ before c after, uriDecodeComponent u = some (.value (before ++ c :: after)) →
    Unpaired before c after → ∃ ps qs : List Piece, Splits Scalar (codes u) (ps ++ .char c :: qs) ∧
      before = ps.flatMap Piece.units ∧ after = qs.flatMap Piece.units

/-- The string consists of characters and of code points, of which one is a surrogate. -/
def SpellsSurrogate (u : List UInt16) : Prop :=
  ∃ ps text v, Splits CodePoint (codes u) ps ∧ Piece.group text v ∈ ps ∧ Surrogate v

theorem units_group (text : List Nat) (v : Nat) : (Piece.group text v).units = CodeUnits.units v :=
  if_neg fun hboth => Bool.false_ne_true hboth.2

theorem unpaired_literal {ps : List Piece} (hps : ∀ p ∈ ps, p.Valid Scalar) {before after : List Nat}
    {c : Nat} (h : ps.flatMap Piece.units = before ++ c :: after) (hc : Unpaired before c after) :
    ∃ ps₁ ps₂ : List Piece, ps = ps₁ ++ .char c :: ps₂ ∧ before = ps₁.flatMap Piece.units ∧
      after = ps₂.flatMap Piece.units := by
  obtain ⟨ps₁, p, ps₂, b, a, rfl, hp, rfl, rfl⟩ := flatMap_split Piece.units h
  have hvalid := hps p (mem_append_right _ mem_cons_self)
  cases p with
  | char d =>
    cases b with
    | nil =>
      obtain ⟨rfl, rfl⟩ := List.cons.inj hp
      exact ⟨ps₁, ps₂, rfl, append_nil _, rfl⟩
    | cons x b =>
      have := (List.cons.inj hp).2
      cases b <;> cases this
  | group text v =>
    rw [units_group] at hp
    exact absurd hc (not_unpaired_units hvalid.1 hp)

theorem splits_scalar {u : List UInt16} (h : ¬SpellsSurrogate u) {ps : List Piece}
    (hps : Splits CodePoint (codes u) ps) : Splits Scalar (codes u) ps :=
  hps.mono fun text v hmem hv => ⟨hv, fun hsur => h ⟨ps, text, v, hps, hmem, hsur⟩⟩

theorem splits_codePoint {u : List UInt16} {ps : List Piece} (h : Splits Scalar (codes u) ps) :
    Splits CodePoint (codes u) ps := h.mono fun _ _ _ hv => hv.1

theorem decodesStrictly_of_not {u : List UInt16} (h : ¬SpellsSurrogate u) : DecodesStrictly u := by
  have hsplits : ∀ {ps}, Splits Scalar (codes u) ps →
      uriDecodeComponent u = some (.value (ps.flatMap Piece.units)) :=
    fun hps => decode_splits (splits_codePoint hps)
  have hsome : ∀ {out}, uriDecodeComponent u = some (.value out) →
      ∃ ps, Splits Scalar (codes u) ps ∧ out = ps.flatMap Piece.units := by
    intro out hout
    rcases decode_total (codes u) fun _ => false with herror | ⟨ps, hps⟩
    · rw [uriDecodeComponent, herror] at hout
      cases hout
    · have hscalar := splits_scalar h hps
      grind
  refine ⟨fun out => ⟨hsome, ?_⟩, ⟨?_, fun hnone => ?_⟩, fun before c after hout hc => ?_⟩
  · rintro ⟨ps, hps, rfl⟩
    exact hsplits hps
  · grind
  · rcases decode_total (codes u) fun _ => false with herror | ⟨ps, hps⟩
    · exact herror
    · exact absurd ⟨ps, splits_scalar h hps⟩ hnone
  · obtain ⟨ps, hps, heq⟩ := hsome hout
    obtain ⟨ps₁, ps₂, rfl, hbefore, hafter⟩ := unpaired_literal hps.valid heq.symm hc
    exact ⟨ps₁, ps₂, hps, hbefore, hafter⟩

theorem not_decodesStrictly {u : List UInt16} (h : SpellsSurrogate u) : ¬DecodesStrictly u := by
  obtain ⟨ps, text, v, hps, hmem, hsur⟩ := h
  intro hstrict
  obtain ⟨qs, hqs, -⟩ := (hstrict.value _).1 (decode_splits hps)
  obtain rfl := hps.unique (splits_codePoint hqs)
  exact (hqs.valid _ hmem).1.2 hsur

/-- Encoding and decoding are inverse, and decoding is strict but for groups that spell a
surrogate. -/
theorem uri_coding (s u : List UInt16) : (((uriEncode s = some .uriError ↔ HasUnpaired (codes s)) ∧
        (¬HasUnpaired (codes s) → ∃ e, uriEncode s = some (.value (codes e)) ∧
          uriDecode e = some (.value (codes s)))) ∧
      (uriEncodeComponent s = some .uriError ↔ HasUnpaired (codes s)) ∧
        (¬HasUnpaired (codes s) → ∃ e, uriEncodeComponent s = some (.value (codes e)) ∧
          uriDecodeComponent e = some (.value (codes s)))) ∧
    (DecodesStrictly u ↔ ¬SpellsSurrogate u) :=
  ⟨⟨encode_decode plain_unescapePredicate unescape_of_reserved s,
    encode_decode plain_unescapeComponentPredicate (fun _ h => (Bool.false_ne_true h).elim) s⟩,
    fun h hbad => not_decodesStrictly hbad h, decodesStrictly_of_not⟩

/-- `%ED%A0%80` -/
def surrogateGroups : List UInt16 := [37, 69, 68, 37, 65, 48, 37, 56, 48]

/-- It is decoded to a surrogate that is not in it. -/
theorem uri_coding_fails : ¬DecodesStrictly surrogateGroups ∧
    uriDecodeComponent surrogateGroups = some (.value [0xD800]) := by
  refine ⟨not_decodesStrictly ⟨[.group (codes surrogateGroups) 0xD800], codes surrogateGroups, 0xD800,
    ⟨?_, rfl⟩, mem_singleton_self _, by decide, by decide⟩, by decide +kernel⟩
  intro p hp
  obtain rfl := mem_singleton.1 hp
  have hspelled : Spelled (codes surrogateGroups) [237, 160, 128] :=
    .cons (a := 14) (b := 13) rfl rfl (.cons (a := 10) (b := 0) rfl rfl (.cons (a := 8) (b := 0) rfl rfl .nil))
  exact ⟨show 0xD800 ≤ 0x10FFFF by decide, _, hspelled, shortest_iff.2 ⟨by decide, by decide⟩⟩

end W16.Uris
