import Mathlib.Algebra.Order.Field.Rat
import Mathlib.Tactic.Linarith
import Mathlib.Tactic.NormNum

/-!
# The cache of daylight savings offsets

`date.js` keeps the offset of the last time that was asked for with an interval on which the
offset is the same. Times are exact numbers of milliseconds. `dstOffset t` stands for
`%DateDaylightSavingsOffset(EquivalentTime(t))`, and `dateLocalTimeOffset` for what
`%DateLocalTimeOffset()` returns.
-/
namespace W16.DstOffset

def msPerDay : ℚ := 86400000

/-- `DST_offset_cache` -/
structure Cache where
  offset : ℚ
  start : ℚ
  end_ : ℚ
  increment : ℚ

def initialIncrement : ℚ := 19 * msPerDay

/-- `none` is an undefined `local_time_offset`. `key` and `val` are the fields of `ltcache`. -/
structure State where
  cache : Cache
  localTimeOffset : Option ℚ
  key : Option ℚ
  val : Option ℚ

def initial : State := ⟨⟨0, 0, -1, 0⟩, none, none, none⟩

variable (dstOffset : ℚ → ℚ) (dateLocalTimeOffset : ℚ)

def State.setLocalTimeOffset (s : State) : State :=
  { s with localTimeOffset := some (s.localTimeOffset.getD dateLocalTimeOffset) }

/-- The cache shrinks to the time. -/
def miss (t : ℚ) (s : State) : ℚ × State :=
  (dstOffset t, { s.setLocalTimeOffset dateLocalTimeOffset with
    cache := ⟨dstOffset t, t, t, initialIncrement⟩ })

/-- The part of `DaylightSavingsOffset` for `t ≤ new_end`. -/
def extend (t newEnd : ℚ) (cache : Cache) : ℚ × Cache :=
  let endOffset := dstOffset newEnd
  if cache.offset = endOffset then
    (endOffset, { cache with end_ := newEnd, increment := initialIncrement })
  else if dstOffset t = endOffset then (dstOffset t, ⟨dstOffset t, t, newEnd, initialIncrement⟩)
  else (dstOffset t, ⟨dstOffset t, cache.start, t, cache.increment / 3⟩)

def daylightSavingsOffset (t : ℚ) (s : State) : ℚ × State :=
  if s.cache.start ≤ t then
    if t ≤ s.cache.end_ then (s.cache.offset, s)
    else if t ≤ s.cache.end_ + s.cache.increment then
      let (offset, cache) := extend dstOffset t (s.cache.end_ + s.cache.increment) s.cache
      (offset, { s.setLocalTimeOffset dateLocalTimeOffset with cache := cache })
    else miss dstOffset dateLocalTimeOffset t s
  else miss dstOffset dateLocalTimeOffset t s

/-- `%_ObjectEquals` compares references: `same` says whether an equal key is the same object. -/
def localTimeNoCheck (same : Bool) (time : ℚ) (s : State) : Option ℚ × State :=
  if same ∧ s.key = some time then (s.val, s)
  else
    let (offset, s) :=
      if s.cache.start ≤ time ∧ time ≤ s.cache.end_ then (s.cache.offset, s)
      else daylightSavingsOffset dstOffset dateLocalTimeOffset time s
    let val := s.localTimeOffset.map fun localTimeOffset => time + localTimeOffset + offset
    (val, { s with key := some time, val := val })

inductive Call where
  | daylightSavingsOffset (t : ℚ)
  | localTimeNoCheck (same : Bool) (time : ℚ)

def call (c : Call) (s : State) : Option ℚ × State :=
  match c with
  | .daylightSavingsOffset t =>
    ((daylightSavingsOffset dstOffset dateLocalTimeOffset t s).1,
      (daylightSavingsOffset dstOffset dateLocalTimeOffset t s).2)
  | .localTimeNoCheck same time => localTimeNoCheck dstOffset dateLocalTimeOffset same time s

/-- The results of the calls and the last state. -/
def run : List Call → State → List (Option ℚ) × State
  | [], s => ([], s)
  | c :: calls, s =>
    let r := call dstOffset dateLocalTimeOffset c s
    let rest := run calls r.2
    (r.1 :: rest.1, rest.2)

/-! ## Transparency -/

/-- What a call returns without the caches. -/
def Call.exact : Call → ℚ
  | .daylightSavingsOffset t => dstOffset t
  | .localTimeNoCheck _ time => time + dateLocalTimeOffset + dstOffset time

/-- At most one change in any window of 19 days. -/
def ChangesAtMostOnce : Prop :=
  ∀ x y z, x ≤ y → y ≤ z → z - x ≤ 19 * msPerDay → dstOffset x = dstOffset y ∨ dstOffset y = dstOffset z

/-- The offset is right on the interval, and an interval that is empty is not extended. -/
structure Cache.Good (cache : Cache) : Prop where
  constant : ∀ t, cache.start ≤ t → t ≤ cache.end_ → dstOffset t = cache.offset
  increment_nonneg : 0 ≤ cache.increment
  increment_le : cache.increment ≤ initialIncrement
  filled : cache.start ≤ cache.end_ ∨ cache.end_ + cache.increment < cache.start

structure Good (s : State) : Prop where
  cache : s.cache.Good dstOffset
  localTimeOffset : s.localTimeOffset.getD dateLocalTimeOffset = dateLocalTimeOffset
  known : s.cache.start ≤ s.cache.end_ → s.localTimeOffset = some dateLocalTimeOffset
  val : ∀ time, s.key = some time → s.val = some (time + dateLocalTimeOffset + dstOffset time)

variable {dstOffset} {dateLocalTimeOffset} {s : State} {t : ℚ}

theorem initialIncrement_nonneg : 0 ≤ initialIncrement := by norm_num [initialIncrement, msPerDay]

theorem good_initial : Good dstOffset dateLocalTimeOffset initial where
  cache := ⟨fun t h h' => absurd (h.trans h') (by norm_num [initial]), le_refl 0, initialIncrement_nonneg,
    .inr (by norm_num [initial])⟩
  localTimeOffset := rfl
  known h := absurd h (by norm_num [initial])
  val _ h := by cases h

/-- The interval of one time. -/
theorem Cache.good_single (t : ℚ) : Cache.Good dstOffset ⟨dstOffset t, t, t, initialIncrement⟩ where
  constant _ h h' := congrArg dstOffset (le_antisymm h' h)
  increment_nonneg := initialIncrement_nonneg
  increment_le := le_refl _
  filled := .inl (le_refl t)

/-- The three offsets decide where the one change can be. -/
theorem Cache.Good.extend (honce : ChangesAtMostOnce dstOffset) {cache : Cache} (h : cache.Good dstOffset)
    (hstart : cache.start ≤ t) (hend : cache.end_ < t) (hnew : t ≤ cache.end_ + cache.increment) :
    (extend dstOffset t (cache.end_ + cache.increment) cache).1 = dstOffset t ∧
      (extend dstOffset t (cache.end_ + cache.increment) cache).2.Good dstOffset ∧
      (extend dstOffset t (cache.end_ + cache.increment) cache).2.start ≤
        (extend dstOffset t (cache.end_ + cache.increment) cache).2.end_ := by
  have hfill : cache.start ≤ cache.end_ := h.filled.resolve_right (by linarith)
  have hoff := h.constant _ hfill (le_refl _)
  have hwindow : ∀ x y, cache.end_ ≤ x → x ≤ y → y ≤ cache.end_ + cache.increment →
      dstOffset x = dstOffset y ∨ dstOffset y = dstOffset (cache.end_ + cache.increment) := fun x y hx hxy hy =>
    honce x y _ hxy hy (by have := h.increment_le; rw [initialIncrement] at this; linarith)
  unfold DstOffset.extend
  by_cases hsame : cache.offset = dstOffset (cache.end_ + cache.increment)
  · -- the offset is the same at both ends
    have hbtw : ∀ x, cache.end_ ≤ x → x ≤ cache.end_ + cache.increment → dstOffset x = cache.offset := by
      grind
    rw [if_pos hsame]
    refine ⟨hsame ▸ (hbtw t hend.le hnew).symm, ⟨fun x hx hx' => ?_, initialIncrement_nonneg, le_refl _,
      .inl (by linarith)⟩, by linarith⟩
    rcases le_total x cache.end_ with hle | hle
    · exact h.constant x hx hle
    · exact hbtw x hle hx'
  · rw [if_neg hsame]
    by_cases hbehind : dstOffset t = dstOffset (cache.end_ + cache.increment)
    · -- the change is before the time
      rw [if_pos hbehind]
      refine ⟨rfl, ⟨fun x hx hx' => ?_, initialIncrement_nonneg, le_refl _, .inl hnew⟩, hnew⟩
      grind
    · -- the change is behind the time
      rw [if_neg hbehind]
      have hbtw : ∀ x, cache.end_ ≤ x → x ≤ t → dstOffset x = dstOffset t := fun x hx hx' =>
        (hwindow x t hx hx' hnew).resolve_right hbehind
      have hnonneg := h.increment_nonneg
      have hle := h.increment_le
      refine ⟨rfl, ⟨fun x hx hx' => ?_, by linarith, ?_, .inl hstart⟩, hstart⟩
      · rcases le_total x cache.end_ with hle' | hle'
        · rw [← hbtw cache.end_ (le_refl _) hend.le, hoff]
          exact h.constant x hx hle'
        · exact hbtw x hle' hx'
      grind

theorem Good.miss (h : Good dstOffset dateLocalTimeOffset s) :
    Good dstOffset dateLocalTimeOffset (miss dstOffset dateLocalTimeOffset t s).2 where
  cache := Cache.good_single t
  localTimeOffset := by simp [DstOffset.miss, State.setLocalTimeOffset, h.localTimeOffset]
  known _ := by simp [DstOffset.miss, State.setLocalTimeOffset, h.localTimeOffset]
  val := h.val

theorem Good.daylightSavingsOffset (honce : ChangesAtMostOnce dstOffset) (h : Good dstOffset dateLocalTimeOffset s) :
    (daylightSavingsOffset dstOffset dateLocalTimeOffset t s).1 = dstOffset t ∧
      Good dstOffset dateLocalTimeOffset (daylightSavingsOffset dstOffset dateLocalTimeOffset t s).2 ∧
      (daylightSavingsOffset dstOffset dateLocalTimeOffset t s).2.localTimeOffset = some dateLocalTimeOffset := by
  have hmiss := (h.miss (t := t)).known (le_refl t)
  unfold DstOffset.daylightSavingsOffset
  by_cases hstart : s.cache.start ≤ t
  · rw [if_pos hstart]
    by_cases hend : t ≤ s.cache.end_
    · rw [if_pos hend]
      exact ⟨(h.cache.constant t hstart hend).symm, h, h.known (hstart.trans hend)⟩
    · rw [if_neg hend]
      by_cases hnew : t ≤ s.cache.end_ + s.cache.increment
      · obtain ⟨hoff, hcache, -⟩ := h.cache.extend honce hstart (not_le.1 hend) hnew
        have hknown := congrArg some h.localTimeOffset
        rw [if_pos hnew]
        exact ⟨hoff, ⟨hcache, h.localTimeOffset, fun _ => hknown, h.val⟩, hknown⟩
      · rw [if_neg hnew]
        exact ⟨rfl, h.miss, hmiss⟩
  · rw [if_neg hstart]
    exact ⟨rfl, h.miss, hmiss⟩

theorem Good.localTimeNoCheck (honce : ChangesAtMostOnce dstOffset) (h : Good dstOffset dateLocalTimeOffset s)
    (same : Bool) : (localTimeNoCheck dstOffset dateLocalTimeOffset same t s).1 =
        some (t + dateLocalTimeOffset + dstOffset t) ∧
      Good dstOffset dateLocalTimeOffset (localTimeNoCheck dstOffset dateLocalTimeOffset same t s).2 := by
  have hset : ∀ (s : State) (offset : ℚ), offset = dstOffset t → Good dstOffset dateLocalTimeOffset s →
      s.localTimeOffset = some dateLocalTimeOffset →
      let val := s.localTimeOffset.map fun localTimeOffset => t + localTimeOffset + offset
      val = some (t + dateLocalTimeOffset + dstOffset t) ∧
        Good dstOffset dateLocalTimeOffset { s with key := some t, val := val } := by
    rintro s _ rfl hs hknown
    have hval : (s.localTimeOffset.map fun localTimeOffset => t + localTimeOffset + dstOffset t) =
        some (t + dateLocalTimeOffset + dstOffset t) := by rw [hknown, Option.map_some]
    refine ⟨hval, hs.cache, hs.localTimeOffset, hs.known, fun time htime => ?_⟩
    rw [← Option.some.inj htime]
    exact hval
  unfold DstOffset.localTimeNoCheck
  by_cases hkey : same ∧ s.key = some t
  · rw [if_pos hkey]
    exact ⟨h.val t hkey.2, h⟩
  · rw [if_neg hkey]
    by_cases hhit : s.cache.start ≤ t ∧ t ≤ s.cache.end_
    · simp only [if_pos hhit]
      exact hset s _ (h.cache.constant t hhit.1 hhit.2).symm h (h.known (hhit.1.trans hhit.2))
    · obtain ⟨hoff, hgood, hknown⟩ := h.daylightSavingsOffset honce (t := t)
      grind

theorem Good.call (honce : ChangesAtMostOnce dstOffset) (h : Good dstOffset dateLocalTimeOffset s) (c : Call) :
    (call dstOffset dateLocalTimeOffset c s).1 = some (c.exact dstOffset dateLocalTimeOffset) ∧
      Good dstOffset dateLocalTimeOffset (call dstOffset dateLocalTimeOffset c s).2 := by
  cases c with
  | daylightSavingsOffset t =>
    obtain ⟨hoff, hgood, -⟩ := h.daylightSavingsOffset honce (t := t)
    exact ⟨congrArg some hoff, hgood⟩
  | localTimeNoCheck same time => exact h.localTimeNoCheck honce same

theorem Good.run (honce : ChangesAtMostOnce dstOffset) (calls : List Call) :
    ∀ {s : State}, Good dstOffset dateLocalTimeOffset s →
    (run dstOffset dateLocalTimeOffset calls s).1 = calls.map (some <| ·.exact dstOffset dateLocalTimeOffset) ∧
      Good dstOffset dateLocalTimeOffset (run dstOffset dateLocalTimeOffset calls s).2 := by
  induction calls with
  | nil => exact fun h => ⟨rfl, h⟩
  | cons c calls ih =>
    intro s h
    obtain ⟨hexact, hgood⟩ := h.call honce c
    simp [DstOffset.run, ih, hgood, hexact]

/-- After any calls the results are those without the caches, and the cached offset is the one of
every time in its interval. -/
theorem cache_transparent (dstOffset : ℚ → ℚ) (dateLocalTimeOffset : ℚ) (honce : ChangesAtMostOnce dstOffset)
    (calls : List Call) :
    (run dstOffset dateLocalTimeOffset calls initial).1 =
        calls.map (some <| ·.exact dstOffset dateLocalTimeOffset) ∧
      (∀ t, (run dstOffset dateLocalTimeOffset calls initial).2.cache.start ≤ t →
        t ≤ (run dstOffset dateLocalTimeOffset calls initial).2.cache.end_ →
        dstOffset t = (run dstOffset dateLocalTimeOffset calls initial).2.cache.offset) ∧
      (run dstOffset dateLocalTimeOffset calls initial).2.cache.increment ≤ 19 * msPerDay := by
  obtain ⟨hexact, hgood⟩ := (good_initial : Good dstOffset dateLocalTimeOffset initial).run honce calls
  exact ⟨hexact, hgood.cache.constant, hgood.cache.increment_le⟩

/-- One hour from the day 100 on. -/
def summer (t : ℚ) : ℚ := if t < 100 * msPerDay then 0 else 3600000

/-- The interval grows to the day 95, the next query lies behind the change, and the last before it. -/
theorem cache_transparent_summer : ChangesAtMostOnce summer ∧
      (run summer 7200000 [.daylightSavingsOffset (76 * msPerDay), .daylightSavingsOffset (90 * msPerDay),
        .localTimeNoCheck false (101 * msPerDay), .daylightSavingsOffset (90 * msPerDay)] initial).1 =
      [some 0, some 0, some (101 * msPerDay + 7200000 + 3600000), some 0] := by
  have honce : ChangesAtMostOnce summer := by
    intro x y z hxy hyz _
    unfold summer
    grind
  refine ⟨honce, (cache_transparent summer 7200000 honce _).1.trans ?_⟩
  norm_num [Call.exact, summer, msPerDay]

end W16.DstOffset
