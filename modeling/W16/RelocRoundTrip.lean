import W16.RelocInfo
import Mathlib.Tactic.Ring
import Mathlib.Tactic.SplitIfs
import Mathlib.Tactic.Linarith
import Mathlib.Tactic.Positivity

/-!
# What is written is read back

Each format of a record is read by the rounds of `next` that its bytes take. The reader
follows the writer's deltas for the modes that it wants.
-/
namespace W16.Reloc

open List

set_option linter.dupNamespace false

/-! ## Numbers in bytes -/

theorem byte_lt (x : Int) : byte x < 2 ^ 8 := by
  unfold byte
  omega

theorem wrap_idem (size : Nat) (x : Int) : wrap size (wrap size x) = wrap size x := Int.bmod_bmod

/-- Adding the wrapped difference gives the wrapped number. -/
theorem wrap_add_sub (size : Nat) (x y : Int) : wrap size (y + wrap size (x - y)) = wrap size x := by
  simp [wrap]

theorem or_shift {x b i : Nat} (h : x < 2 ^ i) : x ||| b <<< i = x + b * 2 ^ i := by
  rw [Nat.or_comm, ← Nat.shiftLeft_add_eq_or_of_lt h, Nat.shiftLeft_eq, add_comm]

theorem append_lt {x b i k : Nat} (hx : x < 2 ^ i) (hb : b < 2 ^ k) : x + b * 2 ^ i < 2 ^ (i + k) := by
  have h := Nat.mul_le_mul_right (2 ^ i) hb
  grind

/-- The value of the low bytes of a number. -/
def low (n : Nat) (x : Int) : Nat := (x % 2 ^ (8 * n)).toNat

theorem low_succ (n : Nat) (x : Int) : low (n + 1) x = byte x + low n (x / 2 ^ 8) * 2 ^ 8 := by
  unfold low byte
  have hp : (0 : Int) < 2 ^ (8 * n) := by positivity
  have h := Int.emod_add_mul_ediv x (2 ^ 8 * 2 ^ (8 * n))
  have hdiv : x / 2 ^ 8 / 2 ^ (8 * n) = x / (2 ^ 8 * 2 ^ (8 * n)) := Int.ediv_ediv_of_nonneg (by decide)
  have h1 := Int.emod_add_mul_ediv x (2 ^ 8)
  have h2 := Int.emod_add_mul_ediv (x / 2 ^ 8) (2 ^ (8 * n))
  rw [show (2 : Int) ^ (8 * (n + 1)) = 2 ^ 8 * 2 ^ (8 * n) by rw [← pow_add]; congr 1; omega]
  rw [hdiv] at h2
  have hsum : x % (2 ^ 8 * 2 ^ (8 * n)) = x % 2 ^ 8 + x / 2 ^ 8 % 2 ^ (8 * n) * 2 ^ 8 := by
    grind
  omega

theorem wrap_low (size : Nat) (x : Int) : wrap size (low size x) = wrap size x := by
  have hp : (0 : Int) < 2 ^ (8 * size) := by positivity
  unfold wrap low
  rw [Int.toNat_of_nonneg (Int.emod_nonneg x hp.ne')]
  have hcast : ((2 ^ (8 * size) : Nat) : Int) = 2 ^ (8 * size) := by simp
  rw [← hcast, Int.emod_bmod]

/-! ## Moving through the stream -/

namespace Iterator

variable {target : Target} {it it' it₁ : Iterator} {rest : List Nat} {c pc : Nat}

/-- The iterator at another place of the stream. -/
def moved (it : Iterator) (rest : List Nat) (c pc : Nat) : Iterator :=
  { it with bytes := rest, current := c, rinfo := { it.rinfo with pc := pc } }

@[simp] theorem advance_moved (b : Nat) : (it.moved (b :: rest) c pc).advance = some (it.moved rest b pc) := rfl

@[simp] theorem addPc_moved (delta : Nat) : (it.moved rest c pc).addPc delta = it.moved rest c (pc + delta) := rfl

@[simp] theorem moved_current : (it.moved rest c pc).current = c := rfl

@[simp] theorem moved_bytes : (it.moved rest c pc).bytes = rest := rfl

@[simp] theorem moved_modeMask : (it.moved rest c pc).modeMask = it.modeMask := rfl

theorem moved_self (h : it.bytes = rest) : it = it.moved rest it.current it.rinfo.pc := by
  rw [← h]
  rfl

theorem readBytes_moved (n i x b : Nat) : readBytes (n + 1) i x (it.moved (b :: rest) c pc) =
    readBytes n (i + 1) (x ||| b <<< (i * 8)) (it.moved rest b pc) := rfl

theorem readChunks_moved (n i x b : Nat) : readChunks (n + 1) i x (it.moved (b :: rest) c pc) =
    if b % 2 = 1 then some (x ||| (b / 2) <<< (i * 7), it.moved rest b pc)
    else readChunks n (i + 1) (x ||| (b / 2) <<< (i * 7)) (it.moved rest b pc) := rfl

theorem readBytes_dataBytes (it : Iterator) (rest : List Nat) (c pc n : Nat) {i x : Nat} (y : Int)
    (hx : x < 2 ^ (i * 8)) :
    ∃ c', readBytes n i x (it.moved (dataBytes n y ++ rest) c pc) =
      some (x + low n y * 2 ^ (i * 8), it.moved rest c' pc) := by
  induction n generalizing i x y c with
  | zero => exact ⟨c, by simp [readBytes, dataBytes, low]⟩
  | succ n ih =>
    have hx' : x + byte y * 2 ^ (i * 8) < 2 ^ ((i + 1) * 8) := by
      rw [add_mul]
      exact append_lt hx (byte_lt y)
    obtain ⟨c', hc⟩ := ih (byte y) (y / 2 ^ 8) hx'
    refine ⟨c', ?_⟩
    rw [dataBytes, cons_append, readBytes_moved, or_shift hx, hc, low_succ]
    ring_nf

theorem advanceBy_dataBytes (it : Iterator) (rest : List Nat) (c pc n : Nat) (y : Int) :
    ∃ c', advanceBy n (it.moved (dataBytes n y ++ rest) c pc) = some (it.moved rest c' pc) := by
  induction n generalizing y c with
  | zero => exact ⟨c, rfl⟩
  | succ n ih =>
    simp [dataBytes, advanceBy, ih]

/-- The chunks of a jump are read up to the tagged one. -/
theorem readChunks_chunks (it : Iterator) (rest : List Nat) (c pc n : Nat) {i x jump fuel : Nat}
    (hx : x < 2 ^ (i * 7)) (h0 : 0 < jump) (hjump : jump < 2 ^ (n * 7)) (hfuel : n ≤ fuel) :
    ∃ c', readChunks n i x (it.moved (tagLast (chunks fuel jump) ++ rest) c pc) =
      some (x + jump * 2 ^ (i * 7), it.moved rest c' pc) := by
  induction n generalizing i x jump fuel c with
  | zero => omega
  | succ n ih =>
    obtain ⟨fuel, rfl⟩ : ∃ k, fuel = k + 1 := ⟨fuel - 1, by omega⟩
    have hor : ∀ b : Nat, x ||| b <<< (i * 7) = x + b * 2 ^ (i * 7) := fun b => or_shift hx
    have hlow : jump % 2 ^ 7 < 2 ^ 7 := Nat.mod_lt _ (by decide)
    by_cases hlast : jump < 2 ^ 7
    · -- The only chunk left carries the tag.
      have hchunks : tagLast (chunks (fuel + 1) jump) = [jump * 2 + 1] := by
        have hrest : chunks fuel 0 = [] := by cases fuel <;> rfl
        rw [chunks, if_pos h0]
        simp only [kChunkBits, kLastChunkTagBits, Nat.mod_eq_of_lt hlast, Nat.div_eq_of_lt hlast, hrest]
        rfl
      refine ⟨jump * 2 + 1, ?_⟩
      rw [hchunks, cons_append, nil_append, readChunks_moved, if_pos (by omega),
        show (jump * 2 + 1) / 2 = jump by omega, hor]
    · have hdiv : 0 < jump / 2 ^ 7 := Nat.div_pos (by omega) (by decide)
      obtain ⟨b, bs, hbs⟩ : ∃ b bs, chunks fuel (jump / 2 ^ 7) = b :: bs := by
        cases fuel with
        | zero =>
          have : n = 0 := by omega
          subst this
          omega
        | succ fuel => exact ⟨_, _, by rw [chunks, if_pos hdiv]⟩
      have hchunks : tagLast (chunks (fuel + 1) jump) =
          jump % 2 ^ 7 * 2 :: tagLast (chunks fuel (jump / 2 ^ 7)) := by
        rw [chunks, if_pos h0]
        simp only [kChunkBits, kLastChunkTagBits]
        rw [hbs]
        rfl
      have hx' : x + jump % 2 ^ 7 * 2 ^ (i * 7) < 2 ^ ((i + 1) * 7) := by
        rw [add_mul]
        exact append_lt hx hlow
      have hjump' : jump / 2 ^ 7 < 2 ^ (n * 7) := by
        rw [Nat.div_lt_iff_lt_mul (by decide), ← pow_add]
        rwa [add_mul] at hjump
      obtain ⟨c', hc⟩ := ih (jump % 2 ^ 7 * 2) hx' hdiv hjump' (show n ≤ fuel by omega)
      refine ⟨c', ?_⟩
      rw [hchunks, cons_append, readChunks_moved, if_neg (by omega),
        show jump % 2 ^ 7 * 2 / 2 = jump % 2 ^ 7 by omega, hor, hc]
      have hsplit := Nat.mod_add_div jump (2 ^ 7)
      nth_rewrite 3 [← hsplit]
      ring_nf

/-! ## Rounds of `next` -/

/-- Rounds that find nothing. -/
inductive Passes (target : Target) : Iterator → Iterator → Prop
  | refl (it : Iterator) : Passes target it it
  | round {it it₁ it₂ : Iterator} : body target it = some (it₁, false) → it₁.bytes.length < it.bytes.length →
      Passes target it₁ it₂ → Passes target it it₂

theorem Passes.trans (h : Passes target it it₁) (h' : Passes target it₁ it') : Passes target it it' := by
  induction h with
  | refl => exact h'
  | round hb hl _ ih => exact .round hb hl (ih h')

theorem Passes.single (h : body target it = some (it', false)) (hl : it'.bytes.length < it.bytes.length) :
    Passes target it it' := .round h hl (.refl it')

theorem ne_nil_of_length_lt {xs ys : List Nat} (h : xs.length < ys.length) : ys ≠ [] := by
  rintro rfl
  simp at h

theorem Passes.nextLoop_eq (h : Passes target it it') {fuel : Nat} (hfuel : it.bytes.length ≤ fuel) :
    ∃ fuel', it'.bytes.length ≤ fuel' ∧ nextLoop target fuel it = nextLoop target fuel' it' := by
  induction h generalizing fuel with
  | refl it => exact ⟨fuel, hfuel, rfl⟩
  | @round it it₁ it₂ hb hl _ ih =>
    obtain ⟨n, rfl⟩ : ∃ n, fuel = n + 1 := ⟨fuel - 1, by omega⟩
    obtain ⟨fuel', hf, he⟩ := ih (show it₁.bytes.length ≤ n by omega)
    refine ⟨fuel', hf, ?_⟩
    rw [nextLoop, if_neg (ne_nil_of_length_lt hl), hb, ← he]
    rfl

/-- The round that finds a record. -/
def Finds (target : Target) (it it' : Iterator) : Prop :=
  ∃ it₁, Passes target it it₁ ∧ it₁.bytes ≠ [] ∧ body target it₁ = some (it', true)

theorem Finds.nextLoop_eq (h : Finds target it it') {fuel : Nat} (hfuel : it.bytes.length ≤ fuel) :
    nextLoop target fuel it = some it' := by
  obtain ⟨it₁, hpass, hne, hbody⟩ := h
  obtain ⟨fuel', hfuel', he⟩ := hpass.nextLoop_eq hfuel
  have hpos := length_pos_iff.2 hne
  obtain ⟨n, rfl⟩ : ∃ n, fuel' = n + 1 := ⟨fuel' - 1, by omega⟩
  rw [he, nextLoop, if_neg hne, hbody]
  rfl

theorem Passes.finds (h : Passes target it it₁) (hne : it₁.bytes ≠ []) (hbody : body target it₁ = some (it', true)) :
    Finds target it it' := ⟨it₁, h, hne, hbody⟩

/-- Rounds up to the one that finds a record, if one does. -/
def Reads (target : Target) (it : Iterator) (r : Iterator × Bool) : Prop :=
  if r.2 then Finds target it r.1 else Passes target it r.1

theorem Passes.reads {r : Iterator × Bool} (h : Passes target it it₁) (hbody : body target it₁ = some r)
    (hl : r.1.bytes.length < it₁.bytes.length) : Reads target it r := by
  obtain ⟨it', found⟩ := r
  cases found with
  | true => exact h.finds (ne_nil_of_length_lt hl) hbody
  | false => exact h.trans (.single hbody hl)

/-! ## The formats -/

/-- The body of the loop at a byte of the stream. -/
theorem body_moved (b : Nat) : body target (it.moved (b :: rest) c pc) =
    (if b % 4 = 0 then some ((it.moved rest b (pc + b / 4)).select .embeddedObject)
    else if b % 4 = 1 then some ((it.moved rest b (pc + b / 4)).select .codeTarget)
    else if b % 4 = 2 then (it.moved rest b (pc + b / 4)).advance.bind fun it =>
      if it.current % 4 = 0 then
        if wants it.modeMask .codeTargetWithId then some ((it.setMode .codeTargetWithId).readTaggedId, true)
        else some (it, false)
      else if it.modeMask &&& kPositionMask != 0 then
        some (it.readTaggedPosition.select (positionModeFromTag (it.current % 4)))
      else some (it, false)
    else if b / 4 % 16 = 15 then
      if b / 64 = 1 then (it.moved rest b pc).advanceReadVariableLengthPCJump.bind fun it => some (it, false)
      else (it.moved rest b pc).advanceReadPC.bind fun it => some (it, false)
    else if b / 4 % 16 = 14 then
      if b / 64 = 0 then
        if wants it.modeMask .codeTargetWithId then
          ((it.moved rest b pc).setMode .codeTargetWithId).advanceReadId.bind fun it => some (it, true)
        else (advanceBy 4 (it.moved rest b pc)).bind fun it => some (it, false)
      else if b / 64 ≠ 3 then
        if it.modeMask &&& kPositionMask != 0 then
          (it.moved rest b pc).advanceReadPosition.bind fun it => some (it.select (positionModeFromTag (b / 64)))
        else (advanceBy 4 (it.moved rest b pc)).bind fun it => some (it, false)
      else
        if wants it.modeMask .comment then
          (((it.moved rest b pc).setMode .comment).advanceReadData target).bind fun it => some (it, true)
        else (advanceBy target.kIntptrSize (it.moved rest b pc)).bind fun it => some (it, false)
    else (it.moved rest b pc).advanceReadPC.bind fun it =>
      modes[b / 4 % 16 + 1]?.bind fun mode => some (it.select mode)) := rfl

theorem extraTag_eq (extra top : Nat) : extraTag extra top = top * 64 + extra * 4 + 3 := rfl

variable {delta : Nat}

/-- The jump in front of a record. -/
theorem jump_passes (target : Target) (it : Iterator) (rest : List Nat) (c pc : Nat) (h : delta < 2 ^ 32) :
    ∃ c' pc', Passes target (it.moved ((variableLengthPCJump delta).1 ++ rest) c pc) (it.moved rest c' pc') ∧
      pc' + (variableLengthPCJump delta).2 = pc + delta ∧ (variableLengthPCJump delta).2 < 2 ^ 6 := by
  unfold variableLengthPCJump
  split
  · rename_i hsmall
    exact ⟨c, pc, .refl _, rfl, hsmall⟩
  · rename_i hlarge
    have hlarge : ¬delta < 2 ^ 6 := hlarge
    obtain ⟨c', hc⟩ := readChunks_chunks it rest (extraTag 15 1) pc 4 (show 0 < 2 ^ (0 * 7) by decide)
      (show 0 < delta / 2 ^ 6 from Nat.div_pos (by omega) (by decide)) (by omega) (show 4 ≤ 32 by decide)
    refine ⟨c', pc + delta / 2 ^ 6 * 2 ^ 6, .single ?_ ?_, ?_, Nat.mod_lt _ (by decide)⟩
    · have hread : (it.moved (tagLast (chunks 32 (delta / 2 ^ 6)) ++ rest) (extraTag 15 1) pc).advanceReadVariableLengthPCJump =
          some (it.moved rest c' (pc + delta / 2 ^ 6 * 2 ^ 6)) := by
        unfold advanceReadVariableLengthPCJump
        rw [kIntSize, hc]
        show some (it.moved rest c' (pc + (0 + delta / 2 ^ 6 * 2 ^ (0 * 7)) * 2 ^ 6 % 2 ^ 32)) = _
        rw [Nat.mod_eq_of_lt (by omega)]
        simp
      show body target (it.moved (extraTag 15 1 :: (tagLast (chunks 32 (delta / 2 ^ 6)) ++ rest)) c pc) = _
      rw [body_moved, if_neg (by decide), if_neg (by decide), if_neg (by decide), if_pos (by decide),
        if_pos (by decide), hread]
      rfl
    · show rest.length < (extraTag 15 1 :: (tagLast (chunks 32 (delta / 2 ^ 6)) ++ rest)).length
      simp only [length_cons, length_append]
      omega
    · show pc + delta / 2 ^ 6 * 2 ^ 6 + delta % 2 ^ 6 = _
      omega

/-- What is left of a tagged pc is one byte with the rest of the delta. -/
theorem taggedPC_passes (target : Target) (it : Iterator) (rest : List Nat) (c pc : Nat) {tag : Nat}
    (h : delta < 2 ^ 32) (ht : tag < 4) :
    ∃ c' pc' b, Passes target (it.moved (taggedPC delta tag ++ rest) c pc) (it.moved (b :: rest) c' pc') ∧
      b % 4 = tag ∧ pc' + b / 4 = pc + delta := by
  obtain ⟨c', pc', hpass, hpc, hsmall⟩ :=
    jump_passes target it (((variableLengthPCJump delta).2 * 4 + tag) :: rest) c pc h
  refine ⟨c', pc', (variableLengthPCJump delta).2 * 4 + tag, ?_, by omega, by omega⟩
  have hbytes : taggedPC delta tag ++ rest =
      (variableLengthPCJump delta).1 ++ (((variableLengthPCJump delta).2 * 4 + tag) :: rest) := by
    show ((variableLengthPCJump delta).1 ++ [(variableLengthPCJump delta).2 * 4 + tag]) ++ rest = _
    simp
  rwa [hbytes]

/-- What is left of an extra tagged pc are the tag and the rest of the delta. -/
theorem extraTaggedPC_passes (target : Target) (it : Iterator) (rest : List Nat) (c pc : Nat)
    (extra : Nat) (h : delta < 2 ^ 32) :
    ∃ c' pc' b, Passes target (it.moved (extraTaggedPC delta extra ++ rest) c pc)
        (it.moved (extraTag extra 0 :: b :: rest) c' pc') ∧ pc' + b = pc + delta := by
  obtain ⟨c', pc', hpass, hpc, -⟩ :=
    jump_passes target it (extraTag extra 0 :: (variableLengthPCJump delta).2 :: rest) c pc h
  refine ⟨c', pc', (variableLengthPCJump delta).2, ?_, hpc⟩
  have hbytes : extraTaggedPC delta extra ++ rest =
      (variableLengthPCJump delta).1 ++ (extraTag extra 0 :: (variableLengthPCJump delta).2 :: rest) := by
    show ((variableLengthPCJump delta).1 ++ [extraTag extra 0, (variableLengthPCJump delta).2]) ++ rest = _
    simp
  rwa [hbytes]

/-- The pc of a long record. -/
theorem pcJump_passes (target : Target) (it : Iterator) (rest : List Nat) (c pc : Nat) (h : delta < 2 ^ 32) :
    ∃ c', Passes target (it.moved (extraTaggedPC delta kPCJumpExtraTag ++ rest) c pc) (it.moved rest c' (pc + delta)) := by
  obtain ⟨c', pc', b, hpass, hpc⟩ := extraTaggedPC_passes target it rest c pc kPCJumpExtraTag h
  refine ⟨b, hpass.trans (.single ?_ ?_)⟩
  · rw [body_moved, if_neg (by decide), if_neg (by decide), if_neg (by decide), if_pos (by decide),
      if_neg (by decide), ← hpc]
    rfl
  · simp only [moved_bytes, length_cons]
    omega

theorem select_bytes (mode : Mode) (it : Iterator) : (it.select mode).1.bytes = it.bytes := by
  unfold select
  split <;> rfl

theorem taggedPC_reads_object (target : Target) (it : Iterator) (rest : List Nat) (c pc : Nat) (h : delta < 2 ^ 32) :
    ∃ c', Reads target (it.moved (taggedPC delta kEmbeddedObjectTag ++ rest) c pc)
      ((it.moved rest c' (pc + delta)).select .embeddedObject) := by
  obtain ⟨c', pc', b, hpass, htag, hpc⟩ :=
    taggedPC_passes target it rest c pc h (show kEmbeddedObjectTag < 4 by decide)
  have htag : b % 4 = 0 := htag
  refine ⟨b, hpass.reads ?_ (by rw [select_bytes]; simp)⟩
  rw [body_moved, if_pos htag, hpc]

theorem taggedPC_reads_target (target : Target) (it : Iterator) (rest : List Nat) (c pc : Nat) (h : delta < 2 ^ 32) :
    ∃ c', Reads target (it.moved (taggedPC delta kCodeTargetTag ++ rest) c pc)
      ((it.moved rest c' (pc + delta)).select .codeTarget) := by
  obtain ⟨c', pc', b, hpass, htag, hpc⟩ :=
    taggedPC_passes target it rest c pc h (show kCodeTargetTag < 4 by decide)
  have htag : b % 4 = 1 := htag
  refine ⟨b, hpass.reads ?_ (by rw [select_bytes]; simp)⟩
  rw [body_moved, if_neg (by omega), if_pos htag, hpc]

theorem extraTaggedPC_reads (target : Target) (it : Iterator) (rest : List Nat) (c pc : Nat)
    {extra : Nat} {mode : Mode} (h : delta < 2 ^ 32) (hextra : extra < 14)
    (hmode : modes[extra + 1]? = some mode) :
    ∃ c', Reads target (it.moved (extraTaggedPC delta extra ++ rest) c pc)
      ((it.moved rest c' (pc + delta)).select mode) := by
  obtain ⟨c', pc', b, hpass, hpc⟩ := extraTaggedPC_passes target it rest c pc extra h
  have hshorter : rest.length < rest.length + 1 + 1 := by omega
  refine ⟨b, hpass.reads ?_ (by rw [select_bytes]; exact hshorter)⟩
  have htag : extraTag extra 0 / 4 % 16 = extra := by
    rw [extraTag_eq]
    omega
  rw [body_moved, if_neg (by rw [extraTag_eq]; omega), if_neg (by rw [extraTag_eq]; omega),
    if_neg (by rw [extraTag_eq]; omega), if_neg (by omega), if_neg (by omega), htag, hmode, ← hpc]
  rfl

section Data

variable {delta : Nat} {d : Int}

theorem tagged_byte {tag : Nat} (ht : tag < 4) (hd : isIntn d kSmallDataBits = true) :
    byte (d * 4 + tag) % 4 = tag ∧ taggedDelta (byte (d * 4 + tag)) = d := by
  have hd : (decide (-32 ≤ d) && decide (d < 32)) = true := hd
  obtain ⟨h1, h2⟩ : -32 ≤ d ∧ d < 32 := by simpa using hd
  have hbyte : (byte (d * 4 + tag) : Int) = (d * 4 + tag) % 256 := by
    unfold byte
    omega
  have hwrap : wrap 1 (byte (d * 4 + tag)) = d * 4 + tag := by
    rw [hbyte]
    unfold wrap
    grind
  unfold taggedDelta
  rw [hwrap, kLocatableTypeTagBits]
  omega

/-- The second byte of a short record with data. -/
theorem body_locatable {b : Nat} (hb : b % 4 = 2) (x : Nat) : body target (it.moved (b :: x :: rest) c pc) =
    (if x % 4 = 0 then
      if wants it.modeMask .codeTargetWithId then
        some (((it.moved rest x (pc + b / 4)).setMode .codeTargetWithId).addId (taggedDelta x), true)
      else some (it.moved rest x (pc + b / 4), false)
    else if it.modeMask &&& kPositionMask != 0 then
      some (((it.moved rest x (pc + b / 4)).addPosition (taggedDelta x)).select (positionModeFromTag (x % 4)))
    else some (it.moved rest x (pc + b / 4), false)) := by
  rw [body_moved, if_neg (by omega), if_neg (by omega), if_pos hb]
  rfl

/-- The tag of the data of a long record. -/
theorem body_data (top : Nat) : body target (it.moved (extraTag kDataJumpExtraTag top :: rest) c pc) =
    (if top = 0 then
      if wants it.modeMask .codeTargetWithId then
        ((it.moved rest (extraTag 14 top) pc).setMode .codeTargetWithId).advanceReadId.bind fun it => some (it, true)
      else (advanceBy 4 (it.moved rest (extraTag 14 top) pc)).bind fun it => some (it, false)
    else if top ≠ 3 then
      if it.modeMask &&& kPositionMask != 0 then
        (it.moved rest (extraTag 14 top) pc).advanceReadPosition.bind fun it =>
          some (it.select (positionModeFromTag top))
      else (advanceBy 4 (it.moved rest (extraTag 14 top) pc)).bind fun it => some (it, false)
    else
      if wants it.modeMask .comment then
        (((it.moved rest (extraTag 14 top) pc).setMode .comment).advanceReadData target).bind fun it => some (it, true)
      else (advanceBy target.kIntptrSize (it.moved rest (extraTag 14 top) pc)).bind fun it => some (it, false)) := by
  have htag : extraTag 14 top / 4 % 16 = 14 := by
    rw [extraTag_eq]
    omega
  have htop : extraTag 14 top / 64 = top := by
    rw [extraTag_eq]
    omega
  show body target (it.moved (extraTag 14 top :: rest) c pc) = _
  rw [body_moved, if_neg (by rw [extraTag_eq]; omega), if_neg (by rw [extraTag_eq]; omega),
    if_neg (by rw [extraTag_eq]; omega), if_neg (by omega), if_pos htag, htop]

theorem advanceReadId_moved (it : Iterator) (rest : List Nat) (c pc : Nat) (mode : Mode) (hd : wrap kIntSize d = d) :
    ∃ c', ((it.moved (dataBytes kIntSize d ++ rest) c pc).setMode mode).advanceReadId =
      some (((it.moved rest c' pc).setMode mode).addId d) := by
  obtain ⟨c', hc⟩ := readBytes_dataBytes (it.setMode mode) rest c pc kIntSize d (show 0 < 2 ^ (0 * 8) by decide)
  refine ⟨c', ?_⟩
  unfold advanceReadId
  show (readBytes kIntSize 0 0 ((it.setMode mode).moved (dataBytes kIntSize d ++ rest) c pc)).bind _ = _
  rw [hc]
  show some (((it.moved rest c' pc).setMode mode).addId (wrap kIntSize ((0 + low kIntSize d * 1 : Nat) : Int))) = _
  rw [zero_add, mul_one, wrap_low, hd]

theorem advanceReadPosition_moved (it : Iterator) (rest : List Nat) (c pc : Nat) (hd : wrap kIntSize d = d) :
    ∃ c', (it.moved (dataBytes kIntSize d ++ rest) c pc).advanceReadPosition =
      some ((it.moved rest c' pc).addPosition d) := by
  obtain ⟨c', hc⟩ := readBytes_dataBytes it rest c pc kIntSize d (show 0 < 2 ^ (0 * 8) by decide)
  refine ⟨c', ?_⟩
  unfold advanceReadPosition
  rw [hc]
  show some ((it.moved rest c' pc).addPosition (wrap kIntSize ((0 + low kIntSize d * 1 : Nat) : Int))) = _
  rw [zero_add, mul_one, wrap_low, hd]

theorem advanceReadData_moved (it : Iterator) (rest : List Nat) (c pc : Nat) (target : Target) (mode : Mode)
    (hd : wrap target.kIntptrSize d = d) :
    ∃ c', ((it.moved (dataBytes target.kIntptrSize d ++ rest) c pc).setMode mode).advanceReadData target =
      some (((it.moved rest c' pc).setMode mode).setData d) := by
  obtain ⟨c', hc⟩ := readBytes_dataBytes (it.setMode mode) rest c pc target.kIntptrSize d
    (show 0 < 2 ^ (0 * 8) by decide)
  refine ⟨c', ?_⟩
  show (readBytes target.kIntptrSize 0 0 ((it.setMode mode).moved (dataBytes target.kIntptrSize d ++ rest) c pc)).bind
    _ = _
  rw [hc]
  show some (((it.moved rest c' pc).setMode mode).setData
    (wrap target.kIntptrSize ((0 + low target.kIntptrSize d * 1 : Nat) : Int))) = _
  rw [zero_add, mul_one, wrap_low, hd]

theorem rest_shorter (x : Nat) (ys rest : List Nat) : rest.length < (x :: (ys ++ rest)).length := by
  simp only [length_cons, length_append]
  omega

/-- Both formats of an id. -/
theorem locatable_reads_id (target : Target) (it : Iterator) (rest : List Nat) (c pc : Nat) (h : delta < 2 ^ 32) (hd : wrap kIntSize d = d) :
    ∃ c', Reads target (it.moved (locatable delta d kCodeWithIdTag ++ rest) c pc)
      (if wants it.modeMask .codeTargetWithId then
        (((it.moved rest c' (pc + delta)).setMode .codeTargetWithId).addId d, true)
      else (it.moved rest c' (pc + delta), false)) := by
  have hbytes : ∀ c' pc', (if wants it.modeMask .codeTargetWithId then
      (((it.moved rest c' pc').setMode .codeTargetWithId).addId d, true)
      else (it.moved rest c' pc', false)).1.bytes = rest := by
    intro c' pc'
    split <;> rfl
  unfold locatable
  split
  · rename_i hsmall
    obtain ⟨hmod, hdelta⟩ := tagged_byte (show kCodeWithIdTag < 4 by decide) hsmall
    have hmod : byte (d * 4 + kCodeWithIdTag) % 4 = 0 := hmod
    obtain ⟨c', pc', b, hpass, htag, hpc⟩ := taggedPC_passes target it
      (byte (d * 4 + kCodeWithIdTag) :: rest) c pc h (show kLocatableTag < 4 by decide)
    refine ⟨byte (d * 4 + kCodeWithIdTag), ?_⟩
    rw [append_assoc]
    refine hpass.reads ?_ (by rw [hbytes]; exact rest_shorter b [_] rest)
    rw [body_locatable htag, if_pos hmod, hpc, hdelta]
    split <;> rfl
  · obtain ⟨c', hpass⟩ := pcJump_passes target it (extraTaggedData kIntSize d kCodeWithIdTag ++ rest) c pc h
    obtain ⟨c₁, hread⟩ := advanceReadId_moved it rest (extraTag 14 0) (pc + delta) .codeTargetWithId hd
    obtain ⟨c₂, hskip⟩ := advanceBy_dataBytes it rest (extraTag 14 0) (pc + delta) 4 d
    rw [append_assoc]
    refine ⟨if wants it.modeMask .codeTargetWithId then c₁ else c₂,
      hpass.reads ?_ (by rw [hbytes]; exact rest_shorter _ (dataBytes kIntSize d) rest)⟩
    show body target (it.moved (extraTag kDataJumpExtraTag 0 :: (dataBytes kIntSize d ++ rest)) c' (pc + delta)) = _
    rw [body_data, if_pos rfl, hread, show kIntSize = 4 from rfl, hskip]
    cases wants it.modeMask .codeTargetWithId <;> rfl

/-- Both formats of a position. -/
theorem locatable_reads_position (target : Target) (it : Iterator) (rest : List Nat) (c pc : Nat) {mode : Mode}
    (hmode : mode.isPosition = true) (h : delta < 2 ^ 32) (hd : wrap kIntSize d = d) :
    ∃ c', Reads target (it.moved (locatable delta d mode.positionTag ++ rest) c pc)
      (if it.modeMask &&& kPositionMask != 0 then
        ((it.moved rest c' (pc + delta)).addPosition d).select mode
      else (it.moved rest c' (pc + delta), false)) := by
  have hbytes : ∀ c' pc', (if it.modeMask &&& kPositionMask != 0 then
      ((it.moved rest c' pc').addPosition d).select mode
      else (it.moved rest c' pc', false)).1.bytes = rest := by
    intro c' pc'
    split
    · rw [select_bytes]
      rfl
    · rfl
  obtain ⟨htag4, htag0, htag3, hfrom⟩ : mode.positionTag < 4 ∧ mode.positionTag ≠ 0 ∧ mode.positionTag ≠ 3 ∧
      positionModeFromTag mode.positionTag = mode := by
    cases mode <;> first | decide | cases hmode
  unfold locatable
  split
  · rename_i hsmall
    obtain ⟨hmod, hdelta⟩ := tagged_byte htag4 hsmall
    obtain ⟨c', pc', b, hpass, htag, hpc⟩ := taggedPC_passes target it
      (byte (d * 4 + mode.positionTag) :: rest) c pc h (show kLocatableTag < 4 by decide)
    refine ⟨byte (d * 4 + mode.positionTag), ?_⟩
    rw [append_assoc]
    refine hpass.reads ?_ (by rw [hbytes]; exact rest_shorter b [_] rest)
    rw [body_locatable htag, if_neg (by omega), hmod, hfrom, hpc, hdelta]
    split <;> rfl
  · obtain ⟨c', hpass⟩ := pcJump_passes target it (extraTaggedData kIntSize d mode.positionTag ++ rest) c pc h
    obtain ⟨c₁, hread⟩ := advanceReadPosition_moved it rest (extraTag 14 mode.positionTag) (pc + delta) hd
    obtain ⟨c₂, hskip⟩ := advanceBy_dataBytes it rest (extraTag 14 mode.positionTag) (pc + delta) 4 d
    rw [append_assoc]
    refine ⟨if it.modeMask &&& kPositionMask != 0 then c₁ else c₂,
      hpass.reads ?_ (by rw [hbytes]; exact rest_shorter _ (dataBytes kIntSize d) rest)⟩
    show body target (it.moved (extraTag kDataJumpExtraTag mode.positionTag :: (dataBytes kIntSize d ++ rest)) c'
      (pc + delta)) = _
    rw [body_data, if_neg htag0, if_pos htag3, hread, hfrom, show kIntSize = 4 from rfl, hskip]
    cases (it.modeMask &&& kPositionMask != 0) <;> rfl

theorem comment_reads (target : Target) (it : Iterator) (rest : List Nat) (c pc : Nat) (h : delta < 2 ^ 32)
    (hd : wrap target.kIntptrSize d = d) :
    ∃ c', Reads target (it.moved (extraTaggedPC delta kPCJumpExtraTag ++
        extraTaggedData target.kIntptrSize d kCommentTag ++ rest) c pc)
      (if wants it.modeMask .comment then
        (((it.moved rest c' (pc + delta)).setMode .comment).setData d, true)
      else (it.moved rest c' (pc + delta), false)) := by
  have hbytes : ∀ c' pc', (if wants it.modeMask .comment then
      (((it.moved rest c' pc').setMode .comment).setData d, true)
      else (it.moved rest c' pc', false)).1.bytes = rest := by
    intro c' pc'
    split <;> rfl
  obtain ⟨c', hpass⟩ := pcJump_passes target it (extraTaggedData target.kIntptrSize d kCommentTag ++ rest) c pc h
  obtain ⟨c₁, hread⟩ := advanceReadData_moved it rest (extraTag 14 3) (pc + delta) target .comment hd
  obtain ⟨c₂, hskip⟩ := advanceBy_dataBytes it rest (extraTag 14 3) (pc + delta) target.kIntptrSize d
  rw [append_assoc]
  refine ⟨if wants it.modeMask .comment then c₁ else c₂,
    hpass.reads ?_ (by rw [hbytes]; exact rest_shorter _ (dataBytes target.kIntptrSize d) rest)⟩
  show body target (it.moved (extraTag kDataJumpExtraTag 3 :: (dataBytes target.kIntptrSize d ++ rest)) c'
    (pc + delta)) = _
  rw [body_data, if_neg (by decide), if_neg (by decide), hread, hskip]
  cases wants it.modeMask .comment <;> rfl

end Data

end Iterator

/-! ## A record -/

open Iterator

variable {target : Target} {it it' : Iterator} {rest : List Nat}

def Mode.carriesData (mode : Mode) : Bool :=
  mode = .codeTargetWithId || mode.isPosition || mode = .comment

/-- What a reader may rely on: modes without data leave the data as it was. -/
def RelocInfo.seen (rinfo : RelocInfo) : Nat × Mode × Option Int :=
  (rinfo.pc, rinfo.rmode, if rinfo.rmode.carriesData then some rinfo.data else none)

theorem seen_eq {r r' : RelocInfo} (hpc : r.pc = r'.pc) (hmode : r.rmode = r'.rmode)
    (hdata : r'.rmode.carriesData = true → r.data = r'.data) : r.seen = r'.seen := by
  unfold RelocInfo.seen
  grind -linarith

/-- A record that may be written after another pc. -/
structure Fits (target : Target) (lastPc : Nat) (rinfo : RelocInfo) : Prop where
  le : lastPc ≤ rinfo.pc
  delta : rinfo.pc - lastPc < 2 ^ 32
  int : rinfo.rmode = .codeTargetWithId ∨ rinfo.rmode.isPosition = true → wrap kIntSize rinfo.data = rinfo.data
  intptr : rinfo.rmode = .comment → wrap target.kIntptrSize rinfo.data = rinfo.data

/-- A sequence of records with non-decreasing pcs. -/
inductive Sequence (target : Target) : Nat → List RelocInfo → Prop
  | nil (lastPc : Nat) : Sequence target lastPc []
  | cons {lastPc : Nat} {rinfo : RelocInfo} {rinfos : List RelocInfo} : Fits target lastPc rinfo →
      Sequence target rinfo.pc rinfos → Sequence target lastPc (rinfo :: rinfos)

/-- The bytes of one record. -/
def encoded (target : Target) (w : Writer) (rinfo : RelocInfo) : List Nat :=
  (write target ⟨[], w.lastPc, w.lastId, w.lastPosition⟩ rinfo).bytes

theorem write_bytes (w : Writer) (rinfo : RelocInfo) :
    (write target w rinfo).bytes = w.bytes ++ encoded target w rinfo := by
  unfold encoded write
  split_ifs <;> rfl

/-- The reader knows the writer's deltas as far as the modes that it wants need them. -/
structure Tracks (it : Iterator) (w : Writer) : Prop where
  pc : it.rinfo.pc = w.lastPc
  id : wants it.modeMask .codeTargetWithId = true → it.lastId = w.lastId
  position : (it.modeMask &&& kPositionMask != 0) = true → it.lastPosition = w.lastPosition

theorem wants_position {mask : BitVec 32} {mode : Mode} (hmode : mode.isPosition = true)
    (h : wants mask mode = true) : (mask &&& kPositionMask != 0) = true := by
  by_contra h0
  have h0 : mask &&& kPositionMask = 0 := by simpa using h0
  have hmask : mode.mask = kPositionMask &&& mode.mask := by
    cases mode <;> first | decide | cases hmode
  unfold wants at h
  rw [hmask, ← BitVec.and_assoc, h0] at h
  simp at h

/-- The reader has read the bytes of a record and found it if it wants it. -/
structure Follows (target : Target) (it : Iterator) (rest : List Nat) (w : Writer) (rinfo : RelocInfo)
    (it' : Iterator) : Prop where
  reads : Reads target it (it', wants it.modeMask rinfo.rmode)
  bytes : it'.bytes = rest
  tracks : Tracks it' (write target w rinfo)
  mask : it'.modeMask = it.modeMask
  notDone : it'.done = it.done
  seen : wants it.modeMask rinfo.rmode = true → it'.rinfo.seen = rinfo.seen

section Record

variable {w : Writer} {rinfo : RelocInfo} {c pc : Nat}

/-- A record that ends with `SetMode`. -/
theorem follows_select {it₁ : Iterator} (hreads : Reads target it (it₁.select rinfo.rmode)) (hbytes : it₁.bytes = rest)
    (htracks : Tracks it₁ (write target w rinfo)) (hmask : it₁.modeMask = it.modeMask)
    (hdone : it₁.done = it.done) (hpc : it₁.rinfo.pc = rinfo.pc)
    (hdata : rinfo.rmode.carriesData = true → wants it.modeMask rinfo.rmode = true → it₁.rinfo.data = rinfo.data) :
    ∃ it', Follows target it rest w rinfo it' := by
  unfold select at hreads
  rw [hmask] at hreads
  cases hw : wants it.modeMask rinfo.rmode with
  | false =>
    rw [hw, if_neg (by decide)] at hreads
    exact ⟨it₁, by rwa [hw], hbytes, htracks, hmask, hdone, fun h => by rw [hw] at h; cases h⟩
  | true =>
    rw [hw, if_pos rfl] at hreads
    refine ⟨it₁.setMode rinfo.rmode, by rwa [hw], hbytes, ⟨htracks.pc, htracks.id, htracks.position⟩, hmask, hdone,
      fun _ => seen_eq hpc rfl fun hc => hdata hc hw⟩

theorem delta_eq (hf : Fits target w.lastPc rinfo) : (rinfo.pc - w.lastPc) % 2 ^ 32 = rinfo.pc - w.lastPc :=
  Nat.mod_eq_of_lt hf.delta

theorem pc_eq (htr : Tracks it w) (hf : Fits target w.lastPc rinfo) :
    it.rinfo.pc + (rinfo.pc - w.lastPc) % 2 ^ 32 = rinfo.pc := by
  have := hf.le
  rw [delta_eq hf, htr.pc]
  omega

/-- A record without data: the deltas of the data stay as they are. -/
theorem follows_plain (htr : Tracks it w) (hf : Fits target w.lastPc rinfo) (hplain : rinfo.rmode.carriesData = false)
    (hreads : ∃ c', Reads target it
      ((it.moved rest c' (it.rinfo.pc + (rinfo.pc - w.lastPc) % 2 ^ 32)).select rinfo.rmode))
    (hwrite : (write target w rinfo).lastPc = rinfo.pc ∧ (write target w rinfo).lastId = w.lastId ∧
      (write target w rinfo).lastPosition = w.lastPosition) :
    ∃ it', Follows target it rest w rinfo it' := by
  obtain ⟨c', hreads⟩ := hreads
  obtain ⟨h1, h2, h3⟩ := hwrite
  rw [pc_eq htr hf] at hreads
  refine follows_select hreads rfl ⟨?_, ?_, ?_⟩ rfl rfl rfl fun h => by rw [hplain] at h; cases h
  · rw [h1]
    rfl
  · rw [h2]
    exact htr.id
  · rw [h3]
    exact htr.position

theorem follows_id (htr : Tracks it w) (hf : Fits target w.lastPc rinfo) (hmode : rinfo.rmode = .codeTargetWithId)
    (hbytes : it.bytes = encoded target w rinfo ++ rest) : ∃ it', Follows target it rest w rinfo it' := by
  have hdata := hf.int (.inl hmode)
  have hpc := pc_eq htr hf
  obtain ⟨pc, rmode, data⟩ := rinfo
  subst hmode
  have hbytes : it.bytes = locatable ((pc - w.lastPc) % 2 ^ 32) (wrap kIntSize (wrap kIntSize data - w.lastId))
      kCodeWithIdTag ++ rest := hbytes
  obtain ⟨c', hreads⟩ := locatable_reads_id target it rest it.current it.rinfo.pc
    (Nat.mod_lt (pc - w.lastPc) (Nat.two_pow_pos 32))
    (wrap_idem kIntSize (wrap kIntSize data - w.lastId))
  rw [← hbytes, ← moved_self rfl, hpc] at hreads
  cases hw : wants it.modeMask .codeTargetWithId with
  | false =>
    rw [hw, if_neg (by decide)] at hreads
    have hno : ¬wants it.modeMask .codeTargetWithId = true := by
      rw [hw]
      decide
    exact ⟨it.moved rest c' pc, by rwa [hw], rfl, ⟨rfl, fun h => absurd h hno, htr.position⟩, rfl, rfl,
      fun h => absurd h hno⟩
  | true =>
    rw [hw, if_pos rfl] at hreads
    have hid : wrap kIntSize (it.lastId + wrap kIntSize (wrap kIntSize data - w.lastId)) = data := by
      rw [htr.id hw, wrap_add_sub, wrap_idem, hdata]
    refine ⟨((it.moved rest c' pc).setMode .codeTargetWithId).addId
      (wrap kIntSize (wrap kIntSize data - w.lastId)), by rwa [hw], rfl, ⟨rfl, fun _ => ?_, htr.position⟩, rfl, rfl,
      fun _ => seen_eq rfl rfl fun _ => hid⟩
    show wrap kIntSize (it.lastId + _) = wrap kIntSize data
    rw [hid, hdata]

theorem follows_position (htr : Tracks it w) (hf : Fits target w.lastPc rinfo) (hmode : rinfo.rmode.isPosition = true)
    (hbytes : it.bytes = encoded target w rinfo ++ rest) : ∃ it', Follows target it rest w rinfo it' := by
  have hdata := hf.int (.inr hmode)
  have hpc := pc_eq htr hf
  have henc : encoded target w rinfo = locatable ((rinfo.pc - w.lastPc) % 2 ^ 32)
      (wrap kIntSize (wrap kIntSize rinfo.data - w.lastPosition)) rinfo.rmode.positionTag ∧
      (write target w rinfo).lastPc = rinfo.pc ∧ (write target w rinfo).lastId = w.lastId ∧
      (write target w rinfo).lastPosition = wrap kIntSize rinfo.data := by
    obtain ⟨pc, rmode, data⟩ := rinfo
    cases rmode <;> first | exact ⟨rfl, rfl, rfl, rfl⟩ | cases hmode
  obtain ⟨henc, h1, h2, h3⟩ := henc
  rw [henc] at hbytes
  obtain ⟨c', hreads⟩ := locatable_reads_position target it rest it.current it.rinfo.pc hmode
    (Nat.mod_lt (rinfo.pc - w.lastPc) (Nat.two_pow_pos 32))
    (wrap_idem kIntSize (wrap kIntSize rinfo.data - w.lastPosition))
  rw [← hbytes, ← moved_self rfl, hpc] at hreads
  cases hw : (it.modeMask &&& kPositionMask != 0) with
  | false =>
    have hnot : wants it.modeMask rinfo.rmode = false := by
      by_contra h
      rw [Bool.not_eq_false] at h
      rw [wants_position hmode h] at hw
      cases hw
    rw [hw, if_neg (by decide)] at hreads
    refine ⟨it.moved rest c' rinfo.pc, by rwa [hnot], rfl, ⟨h1.symm, ?_, fun h => absurd h ?_⟩, rfl, rfl,
      fun h => absurd h ?_⟩
    · rw [h2]
      exact htr.id
    · simp_all
    · rw [hnot]
      decide
  | true =>
    rw [hw, if_pos rfl] at hreads
    have hpos : wrap kIntSize (it.lastPosition + wrap kIntSize (wrap kIntSize rinfo.data - w.lastPosition)) =
        rinfo.data := by
      rw [htr.position hw, wrap_add_sub, wrap_idem, hdata]
    refine follows_select hreads rfl ⟨h1.symm, ?_, fun _ => ?_⟩ rfl rfl rfl fun _ _ => hpos
    · rw [h2]
      exact htr.id
    · rw [h3]
      show wrap kIntSize (it.lastPosition + _) = _
      rw [hpos, hdata]

theorem follows_comment (htr : Tracks it w) (hf : Fits target w.lastPc rinfo) (hmode : rinfo.rmode = .comment)
    (hbytes : it.bytes = encoded target w rinfo ++ rest) : ∃ it', Follows target it rest w rinfo it' := by
  have hdata := hf.intptr hmode
  have hpc := pc_eq htr hf
  obtain ⟨pc, rmode, data⟩ := rinfo
  subst hmode
  have hbytes : it.bytes = extraTaggedPC ((pc - w.lastPc) % 2 ^ 32) kPCJumpExtraTag ++
      extraTaggedData target.kIntptrSize data kCommentTag ++ rest := hbytes
  obtain ⟨c', hreads⟩ := comment_reads target it rest it.current it.rinfo.pc
    (Nat.mod_lt (pc - w.lastPc) (Nat.two_pow_pos 32)) hdata
  rw [← hbytes, ← moved_self rfl, hpc] at hreads
  cases hw : wants it.modeMask .comment with
  | false =>
    rw [hw, if_neg (by decide)] at hreads
    refine ⟨it.moved rest c' pc, by rwa [hw], rfl, ⟨rfl, htr.id, htr.position⟩, rfl, rfl, fun h => absurd h ?_⟩
    rw [hw]
    decide
  | true =>
    rw [hw, if_pos rfl] at hreads
    exact ⟨((it.moved rest c' pc).setMode .comment).setData data, by rwa [hw], rfl, ⟨rfl, htr.id, htr.position⟩, rfl,
      rfl, fun _ => seen_eq rfl rfl fun _ => rfl⟩

/-- The modes whose extra tag is their place in the enumeration. -/
def Mode.isExtra (mode : Mode) : Bool :=
  !mode.carriesData && mode ≠ .embeddedObject && mode ≠ .codeTarget

theorem index_extra {mode : Mode} (h : mode.isExtra = true) :
    mode.index - 1 < 14 ∧ modes[mode.index - 1 + 1]? = some mode := by
  cases mode <;> first | decide | cases h

theorem encoded_extra (target : Target) (w : Writer) (h : rinfo.rmode.isExtra = true) :
    encoded target w rinfo = extraTaggedPC ((rinfo.pc - w.lastPc) % 2 ^ 32) (rinfo.rmode.index - 1) := by
  obtain ⟨pc, rmode, data⟩ := rinfo
  cases rmode <;> first | rfl | cases h

/-- Without data only the pc changes. -/
theorem write_plain (w : Writer) (hplain : rinfo.rmode.carriesData = false) :
    (write target w rinfo).lastPc = rinfo.pc ∧ (write target w rinfo).lastId = w.lastId ∧
      (write target w rinfo).lastPosition = w.lastPosition := by
  obtain ⟨pc, rmode, data⟩ := rinfo
  cases rmode <;> first | exact ⟨rfl, rfl, rfl⟩ | cases hplain

theorem follows_record (htr : Tracks it w) (hf : Fits target w.lastPc rinfo)
    (hbytes : it.bytes = encoded target w rinfo ++ rest) : ∃ it', Follows target it rest w rinfo it' := by
  have hlt : (rinfo.pc - w.lastPc) % 2 ^ 32 < 2 ^ 32 := Nat.mod_lt _ (Nat.two_pow_pos 32)
  have hself := moved_self hbytes
  by_cases hid : rinfo.rmode = .codeTargetWithId
  · exact follows_id htr hf hid hbytes
  by_cases hpos : rinfo.rmode.isPosition = true
  · exact follows_position htr hf hpos hbytes
  by_cases hcomment : rinfo.rmode = .comment
  · exact follows_comment htr hf hcomment hbytes
  have hplain : rinfo.rmode.carriesData = false := by simp [Mode.carriesData, hid, hpos, hcomment]
  refine follows_plain htr hf hplain ?_ (write_plain w hplain)
  by_cases hobj : rinfo.rmode = .embeddedObject
  · have henc : encoded target w rinfo = taggedPC ((rinfo.pc - w.lastPc) % 2 ^ 32) kEmbeddedObjectTag := by
      unfold encoded write
      rw [if_pos hobj]
      rfl
    obtain ⟨c', hreads⟩ := taggedPC_reads_object target it rest it.current it.rinfo.pc hlt
    grind -linarith
  by_cases htarget : rinfo.rmode = .codeTarget
  · have henc : encoded target w rinfo = taggedPC ((rinfo.pc - w.lastPc) % 2 ^ 32) kCodeTargetTag := by
      unfold encoded write
      rw [if_neg hobj, if_pos htarget]
      rfl
    obtain ⟨c', hreads⟩ := taggedPC_reads_target target it rest it.current it.rinfo.pc hlt
    grind -linarith
  · have hextra : rinfo.rmode.isExtra = true := by simp [Mode.isExtra, hplain, hobj, htarget]
    obtain ⟨hindex, hmode⟩ := index_extra hextra
    obtain ⟨c', hreads⟩ := extraTaggedPC_reads target it rest it.current it.rinfo.pc hlt hindex hmode
    rw [← encoded_extra target w hextra, ← hself] at hreads
    exact ⟨c', hreads⟩

end Record

/-! ## A whole stream -/

/-- The bytes that a sequence of calls of `Write` adds. -/
def encodedAll (target : Target) : Writer → List RelocInfo → List Nat
  | _, [] => []
  | w, rinfo :: rinfos => encoded target w rinfo ++ encodedAll target (write target w rinfo) rinfos

theorem foldl_write_bytes (w : Writer) (rinfos : List RelocInfo) :
    (rinfos.foldl (write target) w).bytes = w.bytes ++ encodedAll target w rinfos := by
  induction rinfos generalizing w with
  | nil => simp [encodedAll]
  | cons rinfo rinfos ih =>
    rw [foldl_cons, ih, write_bytes, encodedAll, append_assoc]

theorem write_lastPc (w : Writer) (rinfo : RelocInfo) : (write target w rinfo).lastPc = rinfo.pc := by
  unfold write
  split_ifs <;> rfl

/-- From any place between two records the rest of the stream is read. -/
theorem read_rest (it : Iterator) (rinfos : List RelocInfo) {w : Writer} (htr : Tracks it w) (hs : Sequence target w.lastPc rinfos)
    (hbytes : it.bytes = encodedAll target w rinfos) (hdone : it.done = false) :
    ∃ it', (∀ fuel, it.bytes.length ≤ fuel → nextLoop target fuel it = some it') ∧
      ∀ fuel, rinfos.length < fuel → ∃ found last, records target fuel it' = some (found, last) ∧
        found.map RelocInfo.seen = (rinfos.filter fun r => wants it.modeMask r.rmode).map RelocInfo.seen ∧
        last.bytes = [] ∧ last.done = true := by
  induction rinfos generalizing it w with
  | nil =>
    have hnil : it.bytes = [] := hbytes
    refine ⟨{ it with done := true }, fun fuel _ => ?_, fun fuel hfuel => ?_⟩
    · cases fuel with
      | zero => rfl
      | succ fuel => rw [nextLoop, if_pos hnil]
    · obtain ⟨n, rfl⟩ : ∃ n, fuel = n + 1 := ⟨fuel - 1, by omega⟩
      exact ⟨[], { it with done := true }, rfl, rfl, hnil, rfl⟩
  | cons rinfo rinfos ih =>
    cases hs with
    | cons hf hs =>
      obtain ⟨it₁, hfollows⟩ := follows_record htr hf hbytes
      obtain ⟨it₂, hnext, hrecords⟩ := ih it₁ hfollows.tracks (by rwa [write_lastPc]) hfollows.bytes
        (hfollows.notDone.trans hdone)
      rw [hfollows.mask] at hrecords
      have hreads := hfollows.reads
      cases hw : wants it.modeMask rinfo.rmode with
      | false =>
        rw [hw] at hreads
        refine ⟨it₂, fun fuel hfuel => ?_, fun fuel hfuel => ?_⟩
        · obtain ⟨fuel', hfuel', he⟩ := Passes.nextLoop_eq hreads hfuel
          rw [he, hnext fuel' hfuel']
        · obtain ⟨found, last, h1, h2, h3⟩ := hrecords fuel (by rw [length_cons] at hfuel; omega)
          exact ⟨found, last, h1, by rw [h2, filter_cons_of_neg (by rw [hw]; decide)], h3⟩
      | true =>
        rw [hw] at hreads
        refine ⟨it₁, fun fuel hfuel => Finds.nextLoop_eq hreads hfuel, fun fuel hfuel => ?_⟩
        obtain ⟨n, rfl⟩ : ∃ n, fuel = n + 1 := ⟨fuel - 1, by omega⟩
        obtain ⟨found, last, h1, h2, h3⟩ := hrecords n (by rw [length_cons] at hfuel; omega)
        refine ⟨it₁.rinfo :: found, last, ?_, ?_, h3⟩
        · rw [records, hfollows.notDone.trans hdone, if_neg (by decide), Iterator.next, hnext _ (le_refl _)]
          simp [h1]
        · rw [map_cons, h2, filter_cons, if_pos hw, map_cons, hfollows.seen hw]

/-! ## Sizes -/

theorem chunks_length (n : Nat) (fuel : Nat) {jump : Nat} (h : jump < 2 ^ (n * 7)) : (chunks fuel jump).length ≤ n := by
  induction n generalizing fuel jump with
  | zero =>
    obtain rfl : jump = 0 := by simpa using h
    cases fuel <;> simp [chunks]
  | succ n ih =>
    cases fuel with
    | zero => simp [chunks]
    | succ fuel =>
      unfold chunks
      split
      · have hdiv : jump / 2 ^ kChunkBits < 2 ^ (n * 7) := by
          rw [add_mul, pow_add] at h
          exact Nat.div_lt_of_lt_mul (by rwa [mul_comm] at h)
        have := ih fuel hdiv
        rw [length_cons]
        omega
      · simp

theorem tagLast_length (bytes : List Nat) : (tagLast bytes).length = bytes.length := by
  induction bytes with
  | nil => rfl
  | cons b rest ih =>
    cases rest with
    | nil => rfl
    | cons c rest =>
      rw [tagLast, length_cons, ih]
      rfl

variable {delta : Nat}

theorem jump_length (h : delta < 2 ^ 32) : (variableLengthPCJump delta).1.length ≤ 5 := by
  unfold variableLengthPCJump
  split
  · simp
  · have := chunks_length 4 32 (show delta / 2 ^ 6 < 2 ^ (4 * 7) by omega)
    show (_ :: tagLast (chunks 32 (delta / 2 ^ 6))).length ≤ 5
    rw [length_cons, tagLast_length]
    omega

theorem taggedPC_length (tag : Nat) (h : delta < 2 ^ 32) :
    1 ≤ (taggedPC delta tag).length ∧ (taggedPC delta tag).length ≤ 6 := by
  have := jump_length h
  show 1 ≤ ((variableLengthPCJump delta).1 ++ [_]).length ∧ ((variableLengthPCJump delta).1 ++ [_]).length ≤ 6
  rw [length_append, length_singleton]
  omega

theorem extraTaggedPC_length (extra : Nat) (h : delta < 2 ^ 32) :
    2 ≤ (extraTaggedPC delta extra).length ∧ (extraTaggedPC delta extra).length ≤ 7 := by
  have := jump_length h
  show 2 ≤ ((variableLengthPCJump delta).1 ++ [_, _]).length ∧ ((variableLengthPCJump delta).1 ++ [_, _]).length ≤ 7
  rw [length_append, length_cons, length_singleton]
  omega

theorem dataBytes_length (n : Nat) (d : Int) : (dataBytes n d).length = n := by
  induction n generalizing d with
  | zero => rfl
  | succ n ih => rw [dataBytes, length_cons, ih]

theorem locatable_length (d : Int) (tag : Nat) (h : delta < 2 ^ 32) :
    1 ≤ (locatable delta d tag).length ∧ (locatable delta d tag).length ≤ 12 := by
  unfold locatable
  split
  · have := taggedPC_length kLocatableTag h
    rw [length_append, taggedData, length_singleton]
    omega
  · have := extraTaggedPC_length kPCJumpExtraTag h
    rw [length_append, extraTaggedData, length_cons, dataBytes_length, kIntSize]
    omega

def kMaxSize : Nat := 16

theorem encoded_length (target : Target) (w : Writer) (rinfo : RelocInfo) :
    1 ≤ (encoded target w rinfo).length ∧ (encoded target w rinfo).length ≤ kMaxSize := by
  have h : (rinfo.pc - w.lastPc) % 2 ^ 32 < 2 ^ 32 := Nat.mod_lt _ (Nat.two_pow_pos 32)
  have h1 := fun tag => taggedPC_length tag h
  have h2 := fun extra => extraTaggedPC_length extra h
  have h3 := fun d tag => locatable_length d tag h
  unfold encoded write kMaxSize
  split_ifs
  · have := h1 kEmbeddedObjectTag
    simp only [nil_append]
    omega
  · have := h1 kCodeTargetTag
    simp only [nil_append]
    omega
  · grind -linarith
  · grind -linarith
  · have := h2 kPCJumpExtraTag
    simp only [nil_append, length_append, extraTaggedData, length_cons, dataBytes_length]
    cases target <;> (simp only [Target.kIntptrSize]; omega)
  grind -linarith

theorem length_le_encodedAll (target : Target) (w : Writer) (rinfos : List RelocInfo) :
    rinfos.length ≤ (encodedAll target w rinfos).length := by
  induction rinfos generalizing w with
  | nil => simp
  | cons rinfo rinfos ih =>
    have h1 := (encoded_length target w rinfo).1
    have h2 := ih (write target w rinfo)
    rw [encodedAll, length_append, length_cons]
    omega

/-- Whatever records are written, the iterator finds exactly those of the modes in the mask, in their
order and with their pc, mode and data, and ends at the end of the stream. No record takes more than
`kMaxSize` bytes. -/
theorem read_written (target : Target) (pc : Nat) (mask : BitVec 32) (rinfos : List RelocInfo)
    (h : Sequence target pc rinfos) :
    (∃ found last, readAll target pc (writeAll target pc rinfos).bytes mask = some (found, last) ∧
      found.map RelocInfo.seen = (rinfos.filter fun r => wants mask r.rmode).map RelocInfo.seen ∧
      last.bytes = [] ∧ last.done = true) ∧
    ∀ w rinfo, (write target w rinfo).bytes.length ≤ w.bytes.length + kMaxSize := by
  refine ⟨?_, fun w rinfo => ?_⟩
  · have hbytes : (writeAll target pc rinfos).bytes = encodedAll target (.new pc) rinfos := by
      rw [writeAll, foldl_write_bytes]
      rfl
    rw [hbytes]
    by_cases hmask : mask = 0
    · -- An empty mask selects nothing, and the stream is not read at all.
      subst hmask
      refine ⟨[], _, rfl, ?_, rfl, rfl⟩
      have hnone : ∀ r : RelocInfo, wants 0 r.rmode = false := fun r => by
        show (0#32 &&& r.rmode.mask != 0) = false
        rw [BitVec.zero_and]
        rfl
      rw [filter_eq_nil_iff.2 fun r _ => by rw [hnone r]; decide]
    · obtain ⟨it', hnext, hrecords⟩ := read_rest ⟨encodedAll target (.new pc) rinfos, 0,
        ⟨pc, .codeTarget, 0⟩, false, mask, 0, 0⟩ rinfos ⟨rfl, fun _ => rfl, fun _ => rfl⟩ h rfl rfl
      obtain ⟨found, last, h1, h2⟩ := hrecords ((encodedAll target (.new pc) rinfos).length + 1)
        (Nat.lt_succ_of_le (length_le_encodedAll target (.new pc) rinfos))
      refine ⟨found, last, ?_, h2⟩
      unfold readAll Iterator.new
      rw [if_neg hmask, Iterator.next, hnext _ (le_refl _)]
      exact h1
  · have := (encoded_length target w rinfo).2
    rw [write_bytes, length_append]
    omega

/-- A position, a far comment and an id, read for positions only. -/
theorem read_written_positions : ∃ found last,
    readAll .bits64 100 (writeAll .bits64 100 [⟨104, .position, 7⟩, ⟨70000, .comment, -5⟩,
      ⟨70000, .codeTargetWithId, 3⟩, ⟨70001, .statementPosition, -2147483648⟩]).bytes
      (Mode.position.mask ||| Mode.statementPosition.mask) = some (found, last) ∧
    found.map RelocInfo.seen = [(104, .position, some 7), (70001, .statementPosition, some (-2147483648))] := by
  obtain ⟨⟨found, last, h1, h2, -⟩, -⟩ := read_written .bits64 100 (Mode.position.mask ||| Mode.statementPosition.mask)
    [⟨104, .position, 7⟩, ⟨70000, .comment, -5⟩, ⟨70000, .codeTargetWithId, 3⟩,
      ⟨70001, .statementPosition, -2147483648⟩]
    (.cons ⟨by decide, by decide, fun _ => by decide, fun _ => by decide⟩
      (.cons ⟨by decide, by decide, fun _ => by decide, fun _ => by decide⟩
        (.cons ⟨by decide, by decide, fun _ => by decide, fun _ => by decide⟩
          (.cons ⟨by decide, by decide, fun _ => by decide, fun _ => by decide⟩ (.nil _)))))
  exact ⟨found, last, h1, h2⟩

end W16.Reloc
