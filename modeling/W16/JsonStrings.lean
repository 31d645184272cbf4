import W16.JsonGrammar
import W16.JsonParser

/-!
# Scanning JSON strings

A scanner stands between the characters it has passed and those that are left. All ways through
the scanning of a string give the characters of the grammar.
-/
namespace W16.JsonParsing

open Json List

variable {source : Source} {pre rest : List Nat}

/-- The character at the front, or the end marker. -/
def front : List Nat → Int
  | [] => -1
  | c :: _ => c

/-- The scanner after the first of two parts of the source. -/
def cursor (pre rest : List Nat) : Scanner := ⟨pre.length, front rest⟩

@[simp] theorem cursor_c0 (pre rest : List Nat) : (cursor pre rest).c0 = front rest := rfl

@[simp] theorem cursor_position (pre rest : List Nat) : (cursor pre rest).position = pre.length := rfl

theorem advance_to {s : Scanner} (h : source.chars = pre ++ rest) (hs : s.position + 1 = pre.length) :
    advance source s = cursor pre rest := by
  have hlen : source.chars.length = pre.length + rest.length := by rw [h, length_append]
  unfold advance cursor
  rw [hs]
  cases rest with
  | nil =>
    rw [length_nil] at hlen
    rw [if_pos (by omega)]
    rfl
  | cons c rest =>
    rw [length_cons] at hlen
    rw [if_neg (by omega), Int.toNat_natCast, h, getD_append_right _ _ _ _ (Nat.le_refl _), Nat.sub_self]
    rfl

variable {c x : Nat} {r t chars : List Nat}

theorem advance_cursor (h : source.chars = pre ++ c :: rest) :
    advance source (cursor pre (c :: rest)) = cursor (pre ++ [c]) rest :=
  advance_to (by rw [h, append_assoc]; rfl) (by rw [cursor_position, length_append]; rfl)

/-- Characters of a string are two bytes at most. -/
theorem char_lt (h : source.chars = pre ++ c :: rest) : c < 0x10000 := by
  have hvalid := source.valid c (h ▸ mem_append_right _ (mem_cons_self ..))
  split at hvalid <;> omega

theorem char_lt_ascii (h : source.chars = pre ++ c :: rest) (hone : source.oneByte = true) : c < 0x80 := by
  have hvalid := source.valid c (h ▸ mem_append_right _ (mem_cons_self ..))
  rwa [if_pos hone] at hvalid

/-! ## White space -/

def NoBlank (rest : List Nat) : Prop := ∀ c r, rest = c :: r → ¬IsBlank c

theorem lor_bit_le {a k : Nat} (h : a ||| 0x20 ≤ k) : a ≤ k := le_trans Nat.left_le_or h

theorem hexValue_nat (c : Nat) : hexValue c = (match hexDigit c with | some v => (v : Int) | none => -1) := by
  by_cases hsmall : c < 103
  · revert c
    decide
  · have hor : ∀ a : Nat, 55 ≤ a → ¬a ||| 0x20 ≤ 54 := fun a ha hle => by
      have := lor_bit_le hle
      omega
    have hnone : hexDigit c = none := by
      unfold hexDigit
      grind
    have hcast : (c : Int) - 48 = ((c - 48 : Nat) : Int) := by omega
    have hlor : Int.lor ((c - 48 : Nat) : Int) 0x20 = (((c - 48) ||| 0x20 : Nat) : Int) := rfl
    have hbig := hor (c - 48) (by omega)
    rw [hnone, hexValue]
    grind

theorem hexDigit_lt {v : Nat} (h : hexDigit c = some v) : v < 16 := by
  unfold hexDigit at h
  grind

/-- One digit of an escape. -/
theorem scanHexDigits_succ {n : Nat} {value : Int} (h : source.chars = pre ++ x :: c :: r) :
    scanHexDigits source (n + 1) value (cursor pre (x :: c :: r)) = match hexDigit c with
      | none => (none, cursor (pre ++ [x]) (c :: r))
      | some v => scanHexDigits source n (value * 16 + v) (cursor (pre ++ [x]) (c :: r)) := by
  rw [scanHexDigits, advance_cursor h]
  show (if hexValue c < 0 then (none, cursor (pre ++ [x]) (c :: r))
    else scanHexDigits source n (value * 16 + hexValue c) (cursor (pre ++ [x]) (c :: r))) = _
  rw [hexValue_nat]
  grind

theorem scanHexDigits_end {n : Nat} {value : Int} (h : source.chars = pre ++ [x]) :
    scanHexDigits source (n + 1) value (cursor pre [x]) = (none, cursor (pre ++ [x]) []) := by
  rw [scanHexDigits, advance_cursor h]
  exact if_pos (show hexValue (-1) < 0 by decide +kernel)

theorem scanHexDigits_four {a b d i j k l : Nat}
    (h : source.chars = pre ++ x :: a :: b :: c :: d :: r) (ha : hexDigit a = some i)
    (hb : hexDigit b = some j) (hc : hexDigit c = some k) (hd : hexDigit d = some l) :
    scanHexDigits source 4 0 (cursor pre (x :: a :: b :: c :: d :: r)) =
      (some ((((i * 16 + j) * 16 + k) * 16 + l : Nat) : Int), cursor (pre ++ [x, a, b, c]) (d :: r)) := by
  rw [scanHexDigits_succ h, ha]
  dsimp only
  rw [scanHexDigits_succ (by rw [h, append_assoc]; rfl), hb]
  dsimp only
  rw [scanHexDigits_succ (by rw [h, append_assoc, append_assoc]; rfl), hc]
  dsimp only
  rw [scanHexDigits_succ (by rw [h, append_assoc, append_assoc, append_assoc]; rfl), hd]
  dsimp only
  rw [scanHexDigits, append_assoc, append_assoc, append_assoc]
  simp

/-- A digit is at the front where a digit is scanned. -/
theorem scanHexDigits_front {n : Nat} {value : Int} (h : source.chars = pre ++ x :: rest)
    (hsome : (scanHexDigits source (n + 1) value (cursor pre (x :: rest))).1.isSome) :
    ∃ c r v, rest = c :: r ∧ hexDigit c = some v ∧
      (scanHexDigits source n (value * 16 + v) (cursor (pre ++ [x]) (c :: r))).1.isSome := by
  cases rest with
  | nil =>
    rw [scanHexDigits_end h] at hsome
    cases hsome
  | cons c r =>
    rw [scanHexDigits_succ h] at hsome
    grind

/-- Without four digits there is no character. -/
theorem scanHexDigits_some (h : source.chars = pre ++ x :: rest)
    (hsome : (scanHexDigits source 4 0 (cursor pre (x :: rest))).1.isSome) :
    ∃ a b c d i j k l r, rest = a :: b :: c :: d :: r ∧ hexDigit a = some i ∧ hexDigit b = some j ∧
      hexDigit c = some k ∧ hexDigit d = some l := by
  obtain ⟨a, r1, i, rfl, ha, h1⟩ := scanHexDigits_front h hsome
  obtain ⟨b, r2, j, rfl, hb, h2⟩ := scanHexDigits_front (by rw [h, append_assoc]; rfl) h1
  obtain ⟨c, r3, k, rfl, hc, h3⟩ :=
    scanHexDigits_front (by rw [h, append_assoc, append_assoc]; rfl) h2
  obtain ⟨d, r, l, rfl, hd, _⟩ := scanHexDigits_front
    (by rw [h, append_assoc, append_assoc, append_assoc]; rfl) h3
  grind

/-! ## What a scan finds -/

/-- A character begins with no quote, and is no beginning of another one. -/
theorem character_head (h : Character t c) : ∃ d r, t = d :: r ∧ d ≠ 34 := by
  cases h with
  | plain _ h34 _ => exact ⟨_, _, rfl, h34⟩
  | escape _ => exact ⟨_, _, rfl, by decide⟩
  | unicode _ _ _ _ => exact ⟨_, _, rfl, by decide⟩

theorem character_unique {t' r' : List Nat} {c' : Nat} (h : Character t c) (h' : Character t' c')
    (heq : t ++ r = t' ++ r') : t = t' ∧ c = c' ∧ r = r' := by
  cases h with
  | plain h32 h34 h92 =>
    cases h' with
    | plain _ _ _ =>
      grind
    | escape _ => exact absurd (List.cons.inj heq).1 h92
    | unicode _ _ _ _ => exact absurd (List.cons.inj heq).1 h92
  | escape he =>
    cases h' with
    | plain _ _ h92 => exact absurd (List.cons.inj heq).1.symm h92
    | escape he' =>
      grind
    | unicode _ _ _ _ =>
      obtain ⟨rfl, -⟩ := List.cons.inj (List.cons.inj heq).2
      cases he
  | unicode ha hb hc hd =>
    cases h' with
    | plain _ _ h92 => exact absurd (List.cons.inj heq).1.symm h92
    | escape he' =>
      obtain ⟨rfl, -⟩ := List.cons.inj (List.cons.inj heq).2
      cases he'
    | unicode ha' hb' hc' hd' =>
      grind

/-- The result of a scan of the rest of a string, after what is written already. -/
structure Scans (source : Source) (written pre rest : List Nat) (r : Option (List Nat) × Scanner) : Prop where
  complete : ∀ text units rest', rest = text ++ 34 :: rest' → Characters text units →
    r = (some (written ++ units), advanceSkipWhitespace source (cursor (pre ++ text) (34 :: rest')))
  sound : r.1.isSome → ∃ text units rest', rest = text ++ 34 :: rest' ∧ Characters text units

theorem Scans.done (written : List Nat) (hrest : ∃ r, rest = 34 :: r) :
    Scans source written pre rest (some written, advanceSkipWhitespace source (cursor pre rest)) := by
  obtain ⟨r, rfl⟩ := hrest
  refine ⟨fun text units rest' heq htext => ?_, fun _ => ⟨[], [], r, rfl, .nil⟩⟩
  cases htext with
  | nil =>
    grind
  | cons hc _ =>
    obtain ⟨d, t, rfl, hne⟩ := character_head hc
    exact absurd (List.cons.inj heq).1.symm hne

theorem Scans.fail {written : List Nat} {s : Scanner} (hquote : ∀ r, rest ≠ 34 :: r)
    (hnone : ∀ t c r, Character t c → rest ≠ t ++ r) : Scans source written pre rest (none, s) := by
  refine ⟨fun text units rest' heq htext => ?_, fun h => (nomatch h)⟩
  cases htext with
  | nil => exact absurd heq (hquote _)
  | cons hc _ => exact absurd (heq.trans (append_assoc ..)) (hnone _ _ _ hc)

theorem Scans.step {written rest' : List Nat} {r : Option (List Nat) × Scanner}
    (hc : Character t c) (h : Scans source (written ++ [c]) (pre ++ t) rest' r) :
    Scans source written pre (t ++ rest') r := by
  refine ⟨fun text units rest'' heq htext => ?_, fun hsome => ?_⟩
  · cases htext with
    | nil =>
      grind [character_head]
    | cons hc' hs =>
      obtain ⟨rfl, rfl, rfl⟩ := character_unique hc hc' (heq.trans (append_assoc ..))
      rw [h.complete _ _ _ rfl hs, append_assoc, append_assoc]
      rfl
  · obtain ⟨text, units, rest'', rfl, htext⟩ := h.sound hsome
    exact ⟨t ++ text, c :: units, rest'', (append_assoc ..).symm, .cons hc htext⟩

/-! ## The loop with a sink -/

theorem escapedChar_nat (e : Nat) : escapedChar e = (escape e).map (fun c : Nat => (c : Int)) := by
  by_cases hsmall : e < 117
  · revert e
    decide
  · have hnone : escape e = none := by
      unfold escape
      split <;> first | omega | rfl
    rw [hnone, escapedChar, if_neg (by omega), if_neg (by omega), if_neg (by omega), if_neg (by omega),
      if_neg (by omega), if_neg (by omega)]
    rfl

theorem escape_lt {e : Nat} (h : escape e = some c) : c < 0x80 := by
  unfold escape at h
  split at h <;> cases h <;> decide

def Sink.bound : Sink → Nat
  | ascii => 0x80
  | twoByte => 0x10000

theorem Sink.store_of_lt (sink : Sink) (h : c < sink.bound) : sink.store c = c := by
  cases sink with
  | ascii =>
    have hlt : c < 0x80 := h
    show ((c : Int) % 0x100).toNat = c
    omega
  | twoByte =>
    have hlt : c < 0x10000 := h
    show ((c : Int) % 0x10000).toNat = c
    omega

/-- The prefix is copied as it is, and the new string has room for one more character. -/
theorem newSeqString_spec {sink : Sink} {seg : List Nat} {start finish : Nat}
    (hseg : (chars.take finish).drop start = seg) (hlen : (finish : Int) - start = seg.length)
    (hbound : ∀ c ∈ seg, c < sink.bound) (h : source.chars = pre ++ rest) (hne : rest ≠ []) :
    (newSeqString source sink chars start finish (cursor pre rest)).written = seg ∧
      (newSeqString source sink chars start finish (cursor pre rest)).count <
        (newSeqString source sink chars start finish (cursor pre rest)).length := by
  have hwr : (newSeqString source sink chars start finish (cursor pre rest)).written = seg := by
    show ((chars.take finish).drop start).map (fun c : Nat => sink.store c) = seg
    rw [hseg]
    exact (map_congr_left fun c hc => Sink.store_of_lt sink (hbound c hc)).trans (map_id' seg)
  refine ⟨hwr, ?_⟩
  have hpos := length_pos_of_ne_nil hne
  have htotal : source.chars.length = pre.length + rest.length := by rw [h, length_append]
  rw [SeqString.count, hwr]
  show (seg.length : Int) < min ((finish : Int) - start + source.chars.length - pre.length)
    (max kInitialSpecialStringLength (2 * ((finish : Int) - start)))
  have hinit : kInitialSpecialStringLength = 1024 := rfl
  omega

/-- The turns that are needed: four for every character, and for a change of the string. -/
def need (sink : Sink) (seqStr : SeqString) (rest : List Nat) : Nat :=
  4 * rest.length + (if sink = .ascii then 2 else 0) + (if seqStr.length ≤ seqStr.count then 1 else 0)

theorem need_le (sink : Sink) (seqStr : SeqString) (rest : List Nat) :
    need sink seqStr rest ≤ 4 * rest.length + (if sink = .ascii then 2 else 0) + 1 := by
  unfold need
  split <;> split <;> omega

theorem le_need (sink : Sink) (seqStr : SeqString) (rest : List Nat) :
    4 * rest.length + (if sink = .ascii then 2 else 0) ≤ need sink seqStr rest := by
  unfold need
  omega

/-- Starting over with two bytes a character. -/
theorem need_twoByte {sink : Sink} {seqStr seqStr' : SeqString} (hsink : sink = .ascii)
    (hroom : seqStr'.count < seqStr'.length) : need .twoByte seqStr' rest < need sink seqStr rest := by
  grind [need]

/-- The loop scans what is left, wherever it stands. -/
def Ready (source : Source) (turns : Nat) : Prop :=
  ∀ (sink : Sink) (seqStr : SeqString) (pre rest : List Nat), source.chars = pre ++ rest →
    (∀ c ∈ seqStr.written, c < sink.bound) → need sink seqStr rest < turns →
    Scans source seqStr.written pre rest (slowScanLoop source turns sink seqStr (cursor pre rest))

variable {turns : Nat} {sink : Sink} {seqStr : SeqString}

theorem Ready.restart (hready : Ready source turns) {sink' : Sink} (h : source.chars = pre ++ rest)
    (hne : rest ≠ []) (hbound : ∀ c ∈ seqStr.written, c < sink'.bound)
    (hneed : ∀ seqStr' : SeqString, seqStr'.count < seqStr'.length → need sink' seqStr' rest < turns) :
    Scans source seqStr.written pre rest (slowScanLoop source turns sink'
      (newSeqString source sink' seqStr.written 0 seqStr.written.length (cursor pre rest))
      (cursor pre rest)) := by
  obtain ⟨hwr, hroom⟩ := newSeqString_spec
    (show (seqStr.written.take seqStr.written.length).drop 0 = seqStr.written by
      rw [take_length, drop_zero]) (Int.sub_zero _) hbound h hne
  have hscans := hready sink' _ pre rest h (by rwa [hwr]) (hneed _ hroom)
  rwa [hwr] at hscans

theorem Ready.grow (hready : Ready source turns) (h : source.chars = pre ++ rest) (hne : rest ≠ [])
    (hbound : ∀ c ∈ seqStr.written, c < sink.bound) (hfull : seqStr.length ≤ seqStr.count)
    (hneed : need sink seqStr rest ≤ turns) :
    Scans source seqStr.written pre rest (slowScanLoop source turns sink
      (newSeqString source sink seqStr.written 0 seqStr.written.length (cursor pre rest))
      (cursor pre rest)) := by
  refine hready.restart h hne hbound fun seqStr' hroom => ?_
  unfold need at hneed ⊢
  grind

theorem Ready.widen (hready : Ready source turns) (h : source.chars = pre ++ rest) (hne : rest ≠ [])
    (hbound : ∀ c ∈ seqStr.written, c < sink.bound) (hsink : sink ≠ .twoByte)
    (hneed : need sink seqStr rest ≤ turns) :
    Scans source seqStr.written pre rest (slowScanLoop source turns .twoByte
      (newSeqString source .twoByte seqStr.written 0 seqStr.written.length (cursor pre rest))
      (cursor pre rest)) := by
  have hascii : sink = .ascii := by
    cases sink with
    | ascii => rfl
    | twoByte => exact absurd rfl hsink
  refine hready.restart h hne (fun c hc => ?_) fun seqStr' hroom =>
    lt_of_lt_of_le (need_twoByte hascii hroom) hneed
  have hlt := hbound c hc
  rw [hascii] at hlt
  exact lt_trans hlt (by decide)

theorem Ready.store (hready : Ready source turns) {rest' : List Nat}
    (h : source.chars = pre ++ (t ++ rest')) (hc : Character t c)
    (hbound : ∀ c ∈ seqStr.written, c < sink.bound) (hlt : c < sink.bound)
    (hneed : need sink seqStr (t ++ rest') ≤ turns) :
    Scans source seqStr.written pre (t ++ rest')
      (slowScanLoop source turns sink (seqStr.set sink c) (cursor (pre ++ t) rest')) := by
  have hset : (seqStr.set sink c).written = seqStr.written ++ [c] := by
    rw [SeqString.set, Sink.store_of_lt sink hlt]
  refine Scans.step hc ?_
  rw [← hset]
  refine hready sink _ _ _ (by rw [h, append_assoc]) ?_ ?_
  · grind
  · grind [character_head, need_le, le_need]

theorem not_character_unicode {r' : List Nat} (hc : Character t c) (heq : 92 :: 117 :: r = t ++ r') :
    ∃ a b c d i j k l r'', r = a :: b :: c :: d :: r'' ∧ hexDigit a = some i ∧ hexDigit b = some j ∧
      hexDigit c = some k ∧ hexDigit d = some l := by
  cases hc with
  | plain _ _ h92 => exact absurd (List.cons.inj heq).1.symm h92
  | escape he =>
    obtain ⟨rfl, -⟩ := List.cons.inj (List.cons.inj heq).2
    cases he
  | unicode ha hb hc hd =>
    simp_all

/-- The turn for an escape with four digits. The scanner goes back to the backslash for another sink. -/
theorem Ready.unicode (hready : Ready source turns) (h : source.chars = pre ++ 92 :: 117 :: rest)
    (hbound : ∀ c ∈ seqStr.written, c < sink.bound)
    (hneed : need sink seqStr (92 :: 117 :: rest) ≤ turns) :
    Scans source seqStr.written pre (92 :: 117 :: rest)
      (match scanHexDigits source 4 0 (cursor (pre ++ [92]) (117 :: rest)) with
      | (none, s) => (none, s)
      | (some value, s) =>
        if sink = .twoByte ∨ value ≤ kMaxAsciiCharCode then
          slowScanLoop source turns sink (seqStr.set sink value) (advance source s)
        else
          slowScanLoop source turns .twoByte
            (newSeqString source .twoByte seqStr.written 0 seqStr.written.length
              (advance source { s with position := s.position - 6 }))
            (advance source { s with position := s.position - 6 })) := by
  have h' : source.chars = (pre ++ [92]) ++ 117 :: rest := by rw [h, append_assoc]; rfl
  cases hscan : scanHexDigits source 4 0 (cursor (pre ++ [92]) (117 :: rest)) with
  | mk value s =>
    cases value with
    | none =>
      refine Scans.fail (by simp) fun t c r' hc heq => ?_
      obtain ⟨a, b, c, d, i, j, k, l, r, rfl, ha, hb, hc, hd⟩ := not_character_unicode hc heq
      rw [scanHexDigits_four h' ha hb hc hd] at hscan
      cases hscan
    | some value =>
      obtain ⟨a, b, c, d, i, j, k, l, r, rfl, ha, hb, hc, hd⟩ :=
        scanHexDigits_some h' (by rw [hscan]; rfl)
      have hchar := Character.unicode ha hb hc hd
      have hi := hexDigit_lt ha
      have hj := hexDigit_lt hb
      have hk := hexDigit_lt hc
      have hl := hexDigit_lt hd
      rw [scanHexDigits_four h' ha hb hc hd] at hscan
      obtain ⟨hvalue, rfl⟩ := Prod.mk.inj hscan
      obtain rfl := Option.some.inj hvalue
      have hlt : ((i * 16 + j) * 16 + k) * 16 + l < 0x10000 := by omega
      generalize ((i * 16 + j) * 16 + k) * 16 + l = v at hchar hlt ⊢
      dsimp only
      by_cases hfits : sink = .twoByte ∨ (v : Int) ≤ kMaxAsciiCharCode
      · rw [if_pos hfits, advance_cursor (by rw [h]; simp),
          show pre ++ [92] ++ [117, a, b, c] ++ [d] = pre ++ [92, 117, a, b, c, d] by simp]
        refine hready.store (t := [92, 117, a, b, c, d]) h hchar hbound ?_ hneed
        cases sink with
        | ascii =>
          have hle : (v : Int) ≤ 0x7f := hfits.resolve_left (by decide)
          show v < 0x80
          omega
        | twoByte => exact hlt
      · rw [if_neg hfits, advance_to h (by simp; omega)]
        exact hready.widen h (by simp) hbound (fun hsink => hfits (Or.inl hsink)) hneed

/-- The turn for an escape. -/
theorem Ready.escape (hready : Ready source turns) (h : source.chars = pre ++ 92 :: rest)
    (hbound : ∀ c ∈ seqStr.written, c < sink.bound) (hneed : need sink seqStr (92 :: rest) ≤ turns) :
    Scans source seqStr.written pre (92 :: rest) (match escapedChar (front rest) with
      | some c => slowScanLoop source turns sink (seqStr.set sink c)
          (advance source (cursor (pre ++ [92]) rest))
      | none =>
        if front rest = 117 then
          match scanHexDigits source 4 0 (cursor (pre ++ [92]) rest) with
          | (none, s) => (none, s)
          | (some value, s) =>
            if sink = .twoByte ∨ value ≤ kMaxAsciiCharCode then
              slowScanLoop source turns sink (seqStr.set sink value) (advance source s)
            else
              slowScanLoop source turns .twoByte
                (newSeqString source .twoByte seqStr.written 0 seqStr.written.length
                  (advance source { s with position := s.position - 6 }))
                (advance source { s with position := s.position - 6 })
        else (none, cursor (pre ++ [92]) rest)) := by
  cases rest with
  | nil =>
    refine Scans.fail (by simp) fun t c r hc heq => ?_
    cases hc with
    | plain _ _ h92 => exact absurd (List.cons.inj heq).1.symm h92
    | escape _ => cases (List.cons.inj heq).2
    | unicode _ _ _ _ => cases (List.cons.inj heq).2
  | cons e r =>
    rw [front, escapedChar_nat]
    cases he : Json.escape e with
    | some c =>
      rw [advance_cursor (by rw [h, append_assoc]; rfl), append_assoc]
      exact hready.store (t := [92, e]) h (.escape he) hbound
        (lt_of_lt_of_le (escape_lt he) (by cases sink <;> decide)) hneed
    | none =>
      by_cases hu : e = 117
      · subst hu
        exact hready.unicode h hbound hneed
      · rw [if_neg (by omega)]
        refine Scans.fail (by simp) fun t c r' hc heq => ?_
        cases hc with
        | plain _ _ h92 => exact absurd (List.cons.inj heq).1.symm h92
        | escape he' =>
          grind
        | unicode _ _ _ _ => exact hu (List.cons.inj (List.cons.inj heq).2).1

/-- Every run of the loop scans what is left. -/
theorem ready (source : Source) : ∀ turns : Nat, Ready source turns := by
  intro turns
  induction turns with
  | zero => exact fun _ _ _ _ _ _ h => absurd h (Nat.not_lt_zero _)
  | succ turns ih =>
    intro sink seqStr pre rest h hbound hneed
    rw [slowScanLoop, cursor_c0]
    cases rest with
    | nil =>
      refine Scans.fail (fun r hr => (nomatch hr)) fun t c r hc heq => ?_
      obtain ⟨d, t', rfl, _⟩ := character_head hc
      cases heq
    | cons c rest =>
      rw [front]
      by_cases hquote : c = 34
      · simp [Scans.done, hquote]
      rw [if_neg (by omega)]
      have hnotquote : ∀ r, c :: rest ≠ 34 :: r := fun r hr => hquote (List.cons.inj hr).1
      by_cases hcontrol : c < 0x20
      · rw [if_pos (by omega)]
        refine Scans.fail hnotquote fun t d r hc heq => ?_
        cases hc with
        | plain h32 _ _ => exact absurd (List.cons.inj heq).1 (by omega)
        | escape _ => exact absurd (List.cons.inj heq).1 (by omega)
        | unicode _ _ _ _ => exact absurd (List.cons.inj heq).1 (by omega)
      rw [if_neg (by omega)]
      by_cases hfull : seqStr.count ≥ seqStr.length
      · rw [if_pos hfull]
        exact ih.grow h (by simp) hbound hfull (Nat.le_of_lt_succ hneed)
      rw [if_neg hfull]
      by_cases hback : c = 92
      · subst hback
        rw [if_neg (by decide), advance_cursor h]
        exact ih.escape h hbound (Nat.le_of_lt_succ hneed)
      rw [if_pos (by omega)]
      by_cases hfits : sink = .twoByte ∨ source.oneByte = true ∨ (c : Int) ≤ kMaxAsciiCharCode
      · rw [if_pos hfits, advance_cursor h]
        refine ih.store (t := [c]) h (.plain (by omega) hquote hback) hbound ?_ (Nat.le_of_lt_succ hneed)
        cases sink with
        | twoByte => exact char_lt h
        | ascii =>
          obtain hsink | hone | hle := hfits
          · cases hsink
          · exact char_lt_ascii h hone
          · have hle' : (c : Int) ≤ 0x7f := hle
            show c < 0x80
            omega
      · rw [if_neg hfits]
        exact ih.widen h (by simp) hbound (fun hsink => hfits (Or.inl hsink)) (Nat.le_of_lt_succ hneed)

theorem slowScanJsonString_spec {seg : List Nat} {start finish : Nat} {sink : Sink}
    (hseg : (chars.take finish).drop start = seg) (hlen : (finish : Int) - start = seg.length)
    (hbound : ∀ c ∈ seg, c < sink.bound) (h : source.chars = pre ++ rest) (hne : rest ≠ []) :
    Scans source seg pre rest (slowScanJsonString source sink chars start finish (cursor pre rest)) := by
  obtain ⟨hwr, hroom⟩ := newSeqString_spec hseg hlen hbound h hne
  have hscans := ready source (4 * (source.chars.length + 1)) sink
    (newSeqString source sink chars start finish (cursor pre rest)) pre rest h (by rwa [hwr]) (by
      have hle := need_le sink (newSeqString source sink chars start finish (cursor pre rest)) rest
      grind)
  rwa [hwr] at hscans

/-! ## The fast case -/

/-- Characters that the fast case passes. -/
def Fast (seg : List Nat) : Prop := ∀ c ∈ seg, 32 ≤ c ∧ c < 0x80 ∧ c ≠ 34 ∧ c ≠ 92

theorem front_eq_iff : front rest = c ↔ ∃ r, rest = c :: r := by
  cases rest with
  | nil => simp [front]
  | cons d rest =>
    simp [front]

/-- The characters that were passed. -/
theorem slice_eq {seg : List Nat} (h : chars = pre ++ (seg ++ rest)) :
    (chars.take (pre ++ seg).length).drop pre.length = seg := by
  rw [h, ← append_assoc, take_left' rfl, drop_left' rfl]

theorem fastScanLoop_spec (pre : List Nat) : ∀ (turns : Nat) (seg rest : List Nat),
    source.chars = pre ++ (seg ++ rest) → Fast seg → (∀ r, rest ≠ 34 :: r) → rest.length < turns →
    Scans source seg (pre ++ seg) rest (fastScanLoop source pre.length turns (cursor (pre ++ seg) rest)) := by
  intro turns
  induction turns with
  | zero => omega
  | succ turns ih =>
    intro seg rest h hfast hnotquote hlt
    have h' : source.chars = (pre ++ seg) ++ rest := by rw [h, append_assoc]
    have hlen : (((pre ++ seg).length : Nat) : Int) - pre.length = seg.length := by
      rw [length_append]
      omega
    rw [fastScanLoop, cursor_c0, cursor_position, Int.toNat_natCast]
    cases rest with
    | nil =>
      refine Scans.fail hnotquote fun t c r hc heq => ?_
      obtain ⟨d, t', rfl, _⟩ := character_head hc
      cases heq
    | cons c rest =>
      rw [front]
      have hquote : c ≠ 34 := fun hc => hnotquote rest (by rw [hc])
      by_cases hcontrol : c < 0x20
      · rw [if_pos (by omega)]
        refine Scans.fail hnotquote fun t d r hc heq => ?_
        cases hc with
        | plain h32 _ _ => exact absurd (List.cons.inj heq).1 (by omega)
        | escape _ => exact absurd (List.cons.inj heq).1 (by omega)
        | unicode _ _ _ _ => exact absurd (List.cons.inj heq).1 (by omega)
      rw [if_neg (by omega)]
      by_cases hback : c = 92
      · rw [if_neg (by omega)]
        exact slowScanJsonString_spec (slice_eq h) hlen (fun d hd => (hfast d hd).2.1) h' (by simp)
      rw [if_pos (by omega)]
      by_cases hascii : (c : Int) ≤ kMaxAsciiCharCode
      · rw [if_pos hascii, advance_cursor h']
        have hle : (c : Int) ≤ 0x7f := hascii
        have hfast' : Fast (seg ++ [c]) := by
          intro d hd
          obtain hd | hd := mem_append.1 hd
          · exact hfast d hd
          grind
        have hnext : source.chars = pre ++ ((seg ++ [c]) ++ rest) := by rw [h, append_assoc]; rfl
        refine Scans.step (t := [c]) (.plain (by omega) hquote hback) ?_
        dsimp only
        rw [cursor_c0, append_assoc]
        by_cases hend : front rest = 34
        · rw [if_neg (not_not.2 hend), cursor_position, Int.toNat_natCast, slice_eq hnext]
          have hstore := (map_congr_left fun d hd => Sink.store_of_lt .ascii (hfast' d hd).2.1).trans (map_id' _)
          rw [hstore]
          exact Scans.done _ (front_eq_iff.1 hend)
        · rw [if_pos hend]
          exact ih (seg ++ [c]) rest hnext hfast' (fun r hr => hend (front_eq_iff.2 ⟨r, hr⟩))
            (by rw [length_cons] at hlt; omega)
      · rw [if_neg hascii]
        exact slowScanJsonString_spec (slice_eq h) hlen
          (fun d hd => lt_trans (hfast d hd).2.1 (by decide)) h' (by simp)

/-- The string that begins at a quote. -/
theorem scanJsonString_spec (h : source.chars = pre ++ 34 :: rest) :
    Scans source [] (pre ++ [34]) rest (scanJsonString source (cursor pre (34 :: rest))) := by
  rw [scanJsonString, advance_cursor h, cursor_c0]
  by_cases hend : front rest = 34
  · rw [if_pos hend]
    exact Scans.done _ (front_eq_iff.1 hend)
  · rw [if_neg hend, cursor_position, Int.toNat_natCast]
    have hscans := fastScanLoop_spec (pre ++ [34]) (source.chars.length + 1) [] rest
      (by rw [h, append_assoc]; rfl) (fun c hc => absurd hc not_mem_nil)
      (fun r hr => hend (front_eq_iff.2 ⟨r, hr⟩)) (by grind)
    rwa [append_nil] at hscans

end W16.JsonParsing
