import W16.DeferredActions

/-!
# Deferred actions have the effect of immediate ones
-/
namespace W16.Traces

open DispatchTables List Option

set_option linter.dupNamespace false

variable {cleared position : Int} {registers : Registers} {reg r : Nat}

/-! ## Registers by their use -/

/-- Loop counters are set and incremented, position registers are stored to, and capture
registers are stored to and cleared. -/
inductive Kind where
  | counter | position | capture
  deriving DecidableEq

def DeferredAction.Fits (kind : Nat → Kind) : DeferredAction → Prop
  | .setRegister reg _ | .incrementRegister reg => kind reg = .counter
  | .storePosition reg _ isCapture => kind reg = if isCapture then .capture else .position
  | .clearCaptures from_ to_ => ∀ r, from_ ≤ r → r ≤ to_ → kind r = .capture

/-- A capture register from 2 on holds no position when it is stored to. -/
def Alternates (cleared position : Int) (registers : Registers) : List DeferredAction → Prop
  | [] => True
  | action :: older =>
    (match action with
      | .storePosition reg _ true =>
        1 < reg → immediate cleared position registers older reg = cleared
      | _ => True) ∧ Alternates cleared position registers older

theorem perform_of_not_mentions {action : DeferredAction} (h : action.mentions r = false) :
    action.perform cleared position registers r = registers r := by
  cases action with
  | setRegister reg v => exact write_other _ _ (Ne.symm (by simpa [DeferredAction.mentions] using h))
  | incrementRegister reg =>
    exact write_other _ _ (Ne.symm (by simpa [DeferredAction.mentions] using h))
  | storePosition reg cpOffset isCapture =>
    exact write_other _ _ (Ne.symm (by simpa [DeferredAction.mentions] using h))
  | clearCaptures from_ to_ =>
    have : ¬(from_ ≤ r ∧ r ≤ to_) := by simpa [DeferredAction.mentions] using h
    exact if_neg this

theorem immediate_of_not_mentions {actions : List DeferredAction}
    (h : ∀ action ∈ actions, action.mentions r = false) :
    immediate cleared position registers actions r = registers r := by
  induction actions with
  | nil => rfl
  | cons action older ih =>
    simp_all [immediate, perform_of_not_mentions]

/-! ## The scan -/

/-- The value that the scanned actions give to a register that holds `x`. -/
def Scan.result (cleared position : Int) (scan : Scan) (x : Int) : Int :=
  if scan.storePosition ≠ -1 then position + scan.storePosition
  else if scan.clear then cleared
  else if scan.absolute then scan.value
  else x + scan.value

/-- What is asserted of the variables of the scan. -/
def Scan.Consistent (scan : Scan) : Kind → Prop
  | .counter => scan.storePosition = -1 ∧ scan.clear = false
  | .position => scan.absolute = false ∧ scan.value = 0 ∧ scan.clear = false
  | .capture => scan.absolute = false ∧ scan.value = 0

theorem consistent_init (kind : Kind) : Scan.Consistent {} kind := by
  cases kind <;> simp [Scan.Consistent]

/-- One more action, done before those that have been scanned. -/
theorem result_next {kind : Nat → Kind} {scan : Scan} {action : DeferredAction}
    (hfits : action.Fits kind) (hment : action.mentions reg = true)
    (hscan : scan.Consistent (kind reg)) :
    (scan.next reg action).Consistent (kind reg) ∧
      (scan.next reg action).result cleared position (registers reg) =
        scan.result cleared position (action.perform cleared position registers reg) := by
  cases action with
  | setRegister reg' v =>
    obtain rfl : reg' = reg := by simpa [DeferredAction.mentions] using hment
    have hkind : kind reg' = .counter := hfits
    rw [hkind] at hscan ⊢
    obtain ⟨hstore, hclear⟩ := hscan
    rw [DeferredAction.perform, write_same, Scan.next]
    cases habs : scan.absolute with
    | false => simp [Scan.Consistent, Scan.result, hstore, hclear, habs, Int.add_comm]
    | true => simp [Scan.Consistent, Scan.result, hstore, hclear, habs]
  | incrementRegister reg' =>
    obtain rfl : reg' = reg := by simpa [DeferredAction.mentions] using hment
    have hkind : kind reg' = .counter := hfits
    rw [hkind] at hscan ⊢
    obtain ⟨hstore, hclear⟩ := hscan
    rw [DeferredAction.perform, write_same, Scan.next]
    cases habs : scan.absolute with
    | false =>
      simp only [Scan.Consistent, Scan.result, hstore, hclear, habs, Bool.false_eq_true, if_false,
        ne_eq, not_true, and_self, true_and]
      omega
    | true => simp [Scan.Consistent, Scan.result, hstore, hclear, habs]
  | storePosition reg' cpOffset isCapture =>
    obtain rfl : reg' = reg := by simpa [DeferredAction.mentions] using hment
    have habs : scan.absolute = false ∧ scan.value = 0 := by
      rw [show kind reg' = _ from hfits] at hscan
      cases isCapture with
      | true => exact hscan
      | false => exact ⟨hscan.1, hscan.2.1⟩
    refine ⟨?_, ?_⟩
    · grind [Scan.Consistent, Scan.next, DeferredAction.Fits]
    · rw [DeferredAction.perform, write_same, Scan.next]
      grind [Scan.result]
  | clearCaptures from_ to_ =>
    have hin : from_ ≤ reg ∧ reg ≤ to_ := by simpa [DeferredAction.mentions] using hment
    have hkind : kind reg = .capture := hfits reg hin.1 hin.2
    rw [hkind] at hscan ⊢
    obtain ⟨habs, hvalue⟩ := hscan
    have hperf : (DeferredAction.clearCaptures from_ to_).perform cleared position registers reg =
        cleared := if_pos hin
    rw [hperf, Scan.next]
    refine ⟨⟨habs, hvalue⟩, ?_⟩
    by_cases hstore : scan.storePosition = -1
    · cases hclear : scan.clear <;> simp [Scan.result, hstore, hclear, habs, hvalue]
    · simp [Scan.result, hstore]

theorem result_scanFrom {kind : Nat → Kind} (reg : Nat) {actions : List DeferredAction}
    (hfits : ∀ action ∈ actions, action.Fits kind) {scan : Scan}
    (hscan : scan.Consistent (kind reg)) :
    (scanFrom reg scan actions).result cleared position (registers reg) =
      scan.result cleared position (immediate cleared position registers actions reg) := by
  induction actions generalizing scan with
  | nil => rfl
  | cons action older ih =>
    have hfits' : ∀ a ∈ older, a.Fits kind := fun a ha => hfits a (mem_cons_of_mem _ ha)
    rw [scanFrom, immediate]
    by_cases hment : action.mentions reg = true
    · have hnext := fun registers => @result_next cleared position registers reg kind scan action
        (hfits action mem_cons_self) hment hscan
      rw [if_pos hment, ih hfits' (hnext registers).1]
      exact (hnext _).2
    · rw [if_neg hment, ih hfits' hscan, perform_of_not_mentions (Bool.eq_false_iff.2 hment)]

/-- The scan gives a register the value of the immediate actions. -/
theorem result_scan {kind : Nat → Kind} (reg : Nat) {actions : List DeferredAction}
    (hfits : ∀ action ∈ actions, action.Fits kind) :
    (scanFrom reg {} actions).result cleared position (registers reg) =
      immediate cleared position registers actions reg := by
  rw [result_scanFrom reg hfits (consistent_init _)]
  simp [Scan.result]

/-- The undo action of the scan of all actions. -/
def undoOf (actions : List DeferredAction) (reg : Nat) : DeferredActionUndoType :=
  (scanFrom reg {} actions).undoAction

theorem scanFrom_of_not_mentions {actions : List DeferredAction} {scan : Scan}
    (h : ∀ action ∈ actions, action.mentions reg = false) : scanFrom reg scan actions = scan := by
  induction actions generalizing scan with
  | nil => rfl
  | cons action older ih =>
    simp_all [scanFrom]

/-- A register above 1 that is not restored has only been mentioned when it holds no position
before the actions. -/
theorem undo_scanFrom (hreg : 1 < reg) {actions : List DeferredAction}
    (halt : Alternates cleared position registers actions) (scan : Scan) :
    (scanFrom reg scan actions).undoAction = .restore ∨ (∀ action ∈ actions, action.mentions reg = false) ∨
      (scanFrom reg scan actions).undoAction = .clear ∧ registers reg = cleared := by
  induction actions generalizing scan with
  | nil => exact .inr (.inl fun a ha => nomatch ha)
  | cons action older ih =>
    obtain ⟨hfirst, halt⟩ := halt
    rw [scanFrom]
    rcases ih halt (if action.mentions reg = true then scan.next reg action else scan) with h | h | h
    · exact .inl h
    · rw [scanFrom_of_not_mentions h]
      by_cases hment : action.mentions reg = true
      · rw [if_pos hment]
        cases action with
        | setRegister reg' v =>
          rw [Scan.next]
          split <;> exact .inl rfl
        | incrementRegister reg' =>
          rw [Scan.next]
          split <;> exact .inl rfl
        | clearCaptures from_ to_ => exact .inl rfl
        | storePosition reg' cpOffset isCapture =>
          obtain rfl : reg' = reg := by simpa [DeferredAction.mentions] using hment
          have hnot : ¬reg' ≤ 1 := by omega
          cases isCapture with
          | false => exact .inl (by simp [Scan.next, hnot])
          | true =>
            simp_all [Scan.next, immediate_of_not_mentions]
      grind
    · exact .inr (.inr h)

theorem undoOf_eq (hreg : 1 < reg) {actions : List DeferredAction}
    (halt : Alternates cleared position registers actions) :
    undoOf actions reg = .restore ∨ (∀ action ∈ actions, action.mentions reg = false) ∨
      undoOf actions reg = .clear ∧ registers reg = cleared := undo_scanFrom hreg halt {}

/-! ## Affected registers -/

theorem findAffected_alone (from_ n : Nat) {z : Zone} (hz : Alone z) :
    Alone ((range' from_ n).foldl (·.set 0 ·) z) ∧
      ∀ w, ((range' from_ n).foldl (·.set 0 ·) z).get 0 w =
        (z.get 0 w || decide (from_ ≤ w ∧ w < from_ + n)) := by
  induction n generalizing from_ z with
  | zero =>
    grind
  | succ n ih =>
    obtain ⟨hz', hget⟩ := alone_set hz from_
    obtain ⟨hall, hgets⟩ := ih (from_ + 1) hz'
    refine ⟨hall, fun w => (hgets w).trans ?_⟩
    grind

/-- The set has the registers that are mentioned, and none is above the maximum. -/
theorem findAffectedRegisters_spec {actions : List DeferredAction} {z : Zone} (hz : Alone z)
    (maxRegister : Int) :
    Alone (findAffectedRegisters actions z maxRegister).1 ∧
    (∀ r, (findAffectedRegisters actions z maxRegister).1.get 0 r = (z.get 0 r || actions.any (·.mentions r))) ∧
    maxRegister ≤ (findAffectedRegisters actions z maxRegister).2 ∧
    ∀ action ∈ actions, ∀ r, action.mentions r = true →
      (r : Int) ≤ (findAffectedRegisters actions z maxRegister).2 := by
  induction actions generalizing z maxRegister with
  | nil => simp [findAffectedRegisters, hz]
  | cons action actions ih =>
    -- one register, or a range of them
    have hstep : ∀ (z' : Zone) (top : Nat), Alone z' → (∀ r, z'.get 0 r = (z.get 0 r || action.mentions r)) →
        (∀ r, action.mentions r = true → r ≤ top) →
        findAffectedRegisters (action :: actions) z maxRegister =
          findAffectedRegisters actions z' (max maxRegister top) →
        Alone (findAffectedRegisters (action :: actions) z maxRegister).1 ∧
        (∀ r, (findAffectedRegisters (action :: actions) z maxRegister).1.get 0 r =
          (z.get 0 r || (action :: actions).any (·.mentions r))) ∧
        maxRegister ≤ (findAffectedRegisters (action :: actions) z maxRegister).2 ∧
        ∀ a ∈ action :: actions, ∀ r, a.mentions r = true →
          (r : Int) ≤ (findAffectedRegisters (action :: actions) z maxRegister).2 := by
      intro z' top hz' hget htop heq
      obtain ⟨hall, hgets, hmax, hment⟩ := ih hz' (max maxRegister top)
      grind -linarith
    have hone : ∀ reg : Nat, (∀ r, action.mentions r = (reg == r)) →
        ∀ r, (z.set 0 reg).get 0 r = (z.get 0 r || action.mentions r) := by
      intro reg hment r
      rw [(alone_set hz reg).2, hment]
      grind -linarith
    cases action with
    | setRegister reg v =>
      exact hstep (z.set 0 reg) reg (alone_set hz reg).1 (hone reg fun r => rfl)
        (fun r hr => by simp [DeferredAction.mentions] at hr; omega) rfl
    | incrementRegister reg =>
      exact hstep (z.set 0 reg) reg (alone_set hz reg).1 (hone reg fun r => rfl)
        (fun r hr => by simp [DeferredAction.mentions] at hr; omega) rfl
    | storePosition reg cpOffset isCapture =>
      exact hstep (z.set 0 reg) reg (alone_set hz reg).1 (hone reg fun r => rfl)
        (fun r hr => by simp [DeferredAction.mentions] at hr; omega) rfl
    | clearCaptures from_ to_ =>
      obtain ⟨hz', hget⟩ := findAffected_alone from_ (to_ + 1 - from_) hz
      refine hstep _ to_ hz' (fun r => ?_) (fun r hr => by simp [DeferredAction.mentions] at hr; omega) rfl
      rw [hget, DeferredAction.mentions]
      have : from_ ≤ r ∧ r < from_ + (to_ + 1 - from_) ↔ from_ ≤ r ∧ r ≤ to_ := by omega
      simp [this]

theorem alone_newSet : Alone newSet := ⟨_, rfl, .inl ⟨rfl, rfl⟩⟩

theorem get_newSet (r : Nat) : newSet.get 0 r = false := by
  show (if r < kFirstLimit then (0 : BitVec 32).getLsbD r else false) = false
  split
  · exact BitVec.getLsbD_zero
  · rfl

/-! ## The code -/

/-- What has been pushed for the registers below `n`. -/
def saved (actions : List DeferredAction) (registers : Registers) : Nat → List Entry
  | 0 => []
  | reg + 1 =>
    if undoOf actions reg = .restore then .value (registers reg) :: saved actions registers reg
    else saved actions registers reg

theorem saved_of_no_restore {actions : List DeferredAction} {k n : Nat} (hkn : k ≤ n)
    (h : ∀ r, k ≤ r → r < n → undoOf actions r ≠ .restore) :
    saved actions registers n = saved actions registers k := by
  induction hkn with
  | refl => rfl
  | step hle ih =>
    rw [saved, if_neg (h _ hle (Nat.lt_succ_self _))]
    exact ih fun r hkr hr => h r hkr (Nat.lt_succ_of_lt hr)

theorem run_perform (scan : Scan) (reg : Nat) (m : Machine) : run cleared (scan.perform reg) m = some { m with
      registers := write m.registers reg (scan.result cleared m.position (m.registers reg)) } := by
  have hclear : clear cleared m.registers reg reg = write m.registers reg cleared := by
    funext r
    simp only [clear, write]
    omega
  rw [Scan.perform, Scan.result]
  split
  · rfl
  · split
    · rw [← hclear]
      rfl
    · split
      · rfl
      · split
        · rfl
        · next hvalue =>
          have hsame : write m.registers reg (m.registers reg + scan.value) = m.registers := by
            funext r
            rw [Decidable.not_not.1 hvalue, Int.add_zero]
            grind [write_same, write_other]
          rw [hsame]
          rfl

/-- The loop of `PerformDeferredActions` after the registers below `n`. -/
structure Performed (cleared : Int) (actions : List DeferredAction) (m : Machine) (n : Nat)
    (s : Performing) : Prop where
  run : run cleared s.code m = some { m with
      registers := fun r =>
        if r < n then immediate cleared m.position m.registers actions r else m.registers r
      stack := saved actions m.registers n ++ m.stack }
  toPop : Alone s.registersToPop ∧ ∀ r, s.registersToPop.get 0 r = true ↔ r < n ∧ undoOf actions r = .restore
  toClear : Alone s.registersToClear ∧
    ∀ r, s.registersToClear.get 0 r = true ↔ r < n ∧ undoOf actions r = .clear

/-- A set that gets the register with the undo action, or not. -/
theorem set_iff {z : Zone} {n : Nat} {p : Nat → Prop} (hz : Alone z)
    (hget : ∀ r, z.get 0 r = true ↔ r < n ∧ p r) :
    (p n → Alone (z.set 0 n) ∧ ∀ r, (z.set 0 n).get 0 r = true ↔ r < n + 1 ∧ p r) ∧
    (¬p n → ∀ r, z.get 0 r = true ↔ r < n + 1 ∧ p r) := by
  grind [alone_set]

/-- The registers after one more register has its value. -/
theorem write_immediate (actions : List DeferredAction) (registers : Registers) (n : Nat) :
    write (fun r => if r < n then immediate cleared position registers actions r else registers r) n
      (immediate cleared position registers actions n) =
    fun r => if r < n + 1 then immediate cleared position registers actions r else registers r := by
  funext r
  by_cases hr : r = n
  · rw [hr, write_same, if_pos (Nat.lt_succ_self _)]
  · rw [write_other _ _ hr]
    omega

theorem performed_succ {kind : Nat → Kind} {actions : List DeferredAction}
    (hfits : ∀ action ∈ actions, action.Fits kind) {affected : Zone}
    (haffected : ∀ r, affected.get 0 r = actions.any (·.mentions r)) (pushLimit : Nat) {m : Machine}
    {n : Nat} {s : Performing} (h : Performed cleared actions m n s) :
    Performed cleared actions m (n + 1) (performRegister pushLimit actions affected s n) := by
  obtain ⟨hrun, ⟨hpop, hpops⟩, ⟨hclear, hclears⟩⟩ := h
  obtain ⟨hset, hsame⟩ := set_iff hpop hpops
  obtain ⟨hset', hsame'⟩ := set_iff hclear hclears
  have hres := fun registers =>
    @result_scan cleared m.position registers kind n actions hfits
  rw [performRegister, haffected]
  by_cases hany : actions.any (·.mentions n) = true
  · rw [if_pos hany]
    have hperf := @run_perform cleared (scanFrom n {} actions) n
    cases hundo : (scanFrom n {} actions).undoAction with
    | restore =>
      have hundo' : undoOf actions n = .restore := hundo
      simp only [hundo]
      refine ⟨?_, hset hundo', ⟨hclear, hsame' (by rw [hundo']; decide)⟩⟩
      rw [append_assoc, run_append hrun, cons_append, run, Instruction.exec,
        bind_some, nil_append, hperf]
      simp only [lt_irrefl, if_false]
      rw [hres m.registers, write_immediate, saved, if_pos hundo']
      rfl
    | clear =>
      have hundo' : undoOf actions n = .clear := hundo
      simp only [hundo]
      refine ⟨?_, ⟨hpop, hsame (by rw [hundo']; decide)⟩, hset' hundo'⟩
      simp [run_append, write_immediate, saved, hrun, hperf, hres, hundo']
    | ignore =>
      have hundo' : undoOf actions n = .ignore := hundo
      simp only [hundo]
      refine ⟨?_, ⟨hpop, hsame (by rw [hundo']; decide)⟩, hclear, hsame' (by rw [hundo']; decide)⟩
      simp [run_append, write_immediate, saved, hrun, hperf, hres, hundo']
  · rw [if_neg hany]
    have hnot : ∀ action ∈ actions, action.mentions n = false := by simpa using hany
    have hundo : undoOf actions n = .ignore := by
      rw [undoOf, scanFrom_of_not_mentions hnot]
    refine ⟨?_, ⟨hpop, hsame (by rw [hundo]; decide)⟩, hclear, hsame' (by rw [hundo]; decide)⟩
    rw [hrun, saved, if_neg (by rw [hundo]; decide), ← write_immediate, immediate_of_not_mentions hnot]
    congr 2
    funext r
    by_cases hr : r = n
    · rw [hr, write_same, if_neg (lt_irrefl _)]
    · rw [write_other _ _ hr]

theorem performDeferredActions_spec {kind : Nat → Kind} {actions : List DeferredAction}
    (hfits : ∀ action ∈ actions, action.Fits kind) {affected : Zone}
    (haffected : ∀ r, affected.get 0 r = actions.any (·.mentions r)) (stackLimitSlack : Nat)
    (maxRegister : Int) (m : Machine) :
    Performed cleared actions m (maxRegister + 1).toNat
      (performDeferredActions stackLimitSlack actions maxRegister affected) := by
  rw [performDeferredActions]
  induction (maxRegister + 1).toNat with
  | zero =>
    refine ⟨?_, ⟨alone_newSet, fun r => ?_⟩, alone_newSet, fun r => ?_⟩
    · simp [run, saved]
    · simp [get_newSet]
    · simp [get_newSet]
  | succ n ih =>
    rw [range_succ, foldl_append]
    exact performed_succ hfits haffected _ ih

/-- Registers that are popped or cleared have the values from before, where the others had them
already. -/
theorem run_restoreBelow {actions : List DeferredAction} {toPop toClear : Zone} {before : Registers}
    (hcleared : ∀ r, 1 < r → undoOf actions r = .clear → before r = cleared) {top : Nat}
    (hpop : ∀ r, toPop.get 0 r = true ↔ r < top ∧ undoOf actions r = .restore)
    (hclear : ∀ r, toClear.get 0 r = true ↔ r < top ∧ undoOf actions r = .clear)
    (n : Nat) (hn : n ≤ top) (m : Machine) (stack : List Entry)
    (hstack : m.stack = saved actions before n ++ stack) :
    ∃ m', run cleared (restoreBelow toPop toClear n) m = some m' ∧ m'.position = m.position ∧ m'.stack = stack ∧
      (∀ r, n ≤ r → m'.registers r = m.registers r) ∧
      ∀ r, 1 < r → (undoOf actions r = .ignore → m.registers r = before r) → r < n →
        m'.registers r = before r := by
  induction n using Nat.strongRecOn generalizing m with
  | _ n ih =>
    cases n with
    | zero =>
      exact ⟨m, by rw [restoreBelow]; rfl, rfl, hstack, fun _ _ => rfl, fun r _ _ hr => nomatch hr⟩
    | succ reg =>
      rw [restoreBelow]
      by_cases hp : toPop.get 0 reg = true
      · have hundo := ((hpop reg).1 hp).2
        rw [if_pos hp, run]
        rw [saved, if_pos hundo, cons_append] at hstack
        have hexec : (Instruction.popRegister reg).exec cleared m = some
            { m with registers := write m.registers reg (before reg)
                     stack := saved actions before reg ++ stack } := by
          rw [Instruction.exec, hstack]
        obtain ⟨m', hrun, hpos, hst, habove, hbelow⟩ := ih reg (Nat.lt_succ_self _) (by omega)
          { m with registers := write m.registers reg (before reg)
                   stack := saved actions before reg ++ stack } rfl
        rw [hexec]
        refine ⟨m', hrun, hpos, hst, fun r hr => ?_, fun r hr hignore hrn => ?_⟩
        · exact (habove r (by omega)).trans (write_other _ _ (by omega))
        · by_cases hreg : r = reg
          · simp [habove, hreg]
          · exact hbelow r hr (fun hi => (write_other _ _ hreg).trans (hignore hi)) (by omega)
      · rw [if_neg hp]
        by_cases hc : toClear.get 0 reg = true
        · -- the run of registers to clear that ends here
          have hrange : ∀ k, k ≤ reg → ∀ r, clearStart toClear k ≤ r → r < k → undoOf actions r = .clear := by
            intro k
            induction k with
            | zero => exact fun _ r _ hr => nomatch hr
            | succ k ihk =>
              intro hk r hfrom hr
              rw [clearStart] at hfrom
              split at hfrom
              · next hget =>
                rcases Nat.lt_succ_iff_lt_or_eq.1 hr with hr | rfl
                · exact ihk (by omega) r hfrom hr
                · exact ((hclear r).1 hget).2
              · omega
          have hall : ∀ r, clearStart toClear reg ≤ r → r < reg + 1 → undoOf actions r = .clear := by
            grind
          have hle := clearStart_le toClear reg
          rw [if_pos hc, run, Instruction.exec]
          have hsaved : saved actions before (reg + 1) = saved actions before (clearStart toClear reg) :=
            saved_of_no_restore (by omega) fun r hfrom hr => by rw [hall r hfrom hr]; decide
          obtain ⟨m', hrun, hpos, hst, habove, hbelow⟩ := ih (clearStart toClear reg) (by omega)
            (by omega) { m with registers := clear cleared m.registers (clearStart toClear reg) reg }
            (by rw [← hsaved]; exact hstack)
          refine ⟨m', hrun, hpos, hst, fun r hr => ?_, fun r hr hignore hrn => ?_⟩
          · exact (habove r (by omega)).trans (if_neg (by omega))
          · by_cases hfrom : clearStart toClear reg ≤ r
            · rw [habove r hfrom, hcleared r hr (hall r hfrom hrn)]
              exact if_pos ⟨hfrom, by omega⟩
            · exact hbelow r hr (fun hi => (if_neg (by omega)).trans (hignore hi)) (by omega)
        · rw [if_neg hc]
          have hnone : undoOf actions reg ≠ .restore := fun h => hp ((hpop reg).2 ⟨by omega, h⟩)
          have hignored : undoOf actions reg = .ignore := by
            cases hundo : undoOf actions reg with
            | ignore => rfl
            | restore => exact absurd hundo hnone
            | clear => grind
          rw [saved, if_neg hnone] at hstack
          obtain ⟨m', hrun, hpos, hst, habove, hbelow⟩ := ih reg (Nat.lt_succ_self _) (by omega) m hstack
          grind

/-! ## Flush -/

/-- All that is done and undone by the two pieces of code of `PerformDeferredActions` and
`RestoreAffectedRegisters`. -/
theorem performed_and_restored {kind : Nat → Kind} {actions : List DeferredAction}
    (hfits : ∀ action ∈ actions, action.Fits kind) (stackLimitSlack : Nat) (m : Machine)
    (halt : Alternates cleared m.position m.registers actions) {found : Zone × Int}
    (hfound : findAffectedRegisters actions newSet (-1) = found) {performed : Performing}
    (hperformed : performDeferredActions stackLimitSlack actions found.2 found.1 = performed) :
    ∃ stack, run cleared performed.code m = some
        { m with registers := immediate cleared m.position m.registers actions
                 stack := stack ++ m.stack } ∧
      ∀ (back : Machine) (rest : List Entry), back.stack = stack ++ rest →
        (∀ r, 1 < r → back.registers r = immediate cleared m.position m.registers actions r) →
        ∃ m', run cleared (restoreAffectedRegisters found.2 performed.registersToPop
            performed.registersToClear) back = some m' ∧
          m'.stack = rest ∧ ∀ r, 1 < r → m'.registers r = m.registers r := by
  obtain ⟨-, hget, -, hmax⟩ := @findAffectedRegisters_spec actions _ alone_newSet (-1)
  rw [hfound] at hget hmax
  have haffected : ∀ r, found.1.get 0 r = actions.any (·.mentions r) := fun r => by
    rw [hget, get_newSet, Bool.false_or]
  -- registers from the maximum on are not mentioned
  have hbeyond : ∀ r, (found.2 + 1).toNat ≤ r → ∀ action ∈ actions, action.mentions r = false := by
    grind -linarith
  obtain ⟨hrun, ⟨-, hpop⟩, -, hclear⟩ :=
    @performDeferredActions_spec cleared kind actions hfits _ haffected stackLimitSlack found.2 m
  rw [hperformed] at hrun hpop hclear
  have hregs : (fun r => if r < (found.2 + 1).toNat then
      immediate cleared m.position m.registers actions r else m.registers r) =
      immediate cleared m.position m.registers actions := by
    funext r
    split
    · rfl
    · next hr => exact (immediate_of_not_mentions (hbeyond r (Nat.le_of_not_lt hr))).symm
  rw [hregs] at hrun
  refine ⟨_, hrun, fun back rest hback hagree => ?_⟩
  have hcleared : ∀ r, 1 < r → undoOf actions r = .clear → m.registers r = cleared := by
    intro r hr hundo
    rcases undoOf_eq hr halt with h | h | ⟨-, h⟩
    · rw [hundo] at h
      cases h
    · rw [undoOf, scanFrom_of_not_mentions h] at hundo
      cases hundo
    · exact h
  have hignored : ∀ r, 1 < r → undoOf actions r = .ignore → back.registers r = m.registers r := by
    intro r hr hundo
    rcases undoOf_eq hr halt with h | h | ⟨h, -⟩
    · rw [hundo] at h
      cases h
    · rw [hagree r hr, immediate_of_not_mentions h]
    · rw [hundo] at h
      cases h
  obtain ⟨m', hrestore, -, hstack, habove, hbelow⟩ := run_restoreBelow hcleared hpop hclear
    (found.2 + 1).toNat (Nat.le_refl _) back rest hback
  refine ⟨m', hrestore, hstack, fun r hr => ?_⟩
  by_cases hin : r < (found.2 + 1).toNat
  · exact hbelow r hr (hignored r hr) hin
  · have hr' := Nat.le_of_not_lt hin
    rw [habove r hr', hagree r hr, immediate_of_not_mentions (hbeyond r hr')]

theorem run_advance (d : Int) (m : Machine) :
    run cleared (if d ≠ 0 then [.advanceCurrentPosition d] else []) m =
      some { m with position := m.position + d } := by
  split
  · rfl
  · next hd =>
    rw [Decidable.not_not.1 hd, Int.add_zero]
    rfl

/-- The code before the successor leaves the registers as the actions one by one would. When the
successor backtracks to the undo code, which finds the stack and the registers from 2 on as the
successor got them, then both are as they were before. -/
theorem flush_immediate (cleared : Int) {kind : Nat → Kind} (stackLimitSlack undo : Nat)
    (trace : Trace) (hfits : ∀ action ∈ trace.actions, action.Fits kind) (m : Machine)
    (halt : Alternates cleared m.position m.registers trace.actions) :
    ∃ m', run cleared (trace.flush stackLimitSlack undo).enter m = some m' ∧
      m'.registers = immediate cleared m.position m.registers trace.actions ∧
      m'.position = m.position + trace.cpOffset ∧
      ((trace.flush stackLimitSlack undo).undo = none → m'.registers = m.registers ∧ m'.stack = m.stack) ∧
      ∀ code leave, (trace.flush stackLimitSlack undo).undo = some (code, leave) →
        ∃ stack, m'.stack = .code undo :: stack ∧ ∀ back : Machine, back.stack = stack →
            (∀ r, 1 < r → back.registers r = m'.registers r) →
            ∃ m'', run cleared code back = some m'' ∧
              (∀ r, 1 < r → m''.registers r = m.registers r) ∧ m''.stack = m.stack ∧
              (trace.backtrack.isSome = true → m''.position = m.position) := by
  rw [Trace.flush]
  by_cases hnothing : (trace.actions.isEmpty && trace.backtrack.isNone) = true
  · simp only [hnothing, if_true]
    have hempty : trace.actions = [] := by
      grind -linarith
    refine ⟨_, run_advance trace.cpOffset m, by rw [hempty]; rfl, rfl, fun _ => ⟨rfl, rfl⟩, ?_⟩
    intro code leave h
    cases h
  · simp only [hnothing, Bool.false_eq_true, if_false]
    generalize hfound : findAffectedRegisters trace.actions newSet (-1) = found
    generalize hperformed : performDeferredActions stackLimitSlack trace.actions found.2 found.1 = performed
    cases hbacktrack : trace.backtrack with
    | none =>
      obtain ⟨stack, hrun, hback⟩ :=
        performed_and_restored hfits stackLimitSlack m halt hfound hperformed
      refine ⟨⟨immediate cleared m.position m.registers trace.actions, m.position + trace.cpOffset,
        .code undo :: (stack ++ m.stack)⟩, ?_, rfl, rfl, fun h => (nomatch h), ?_⟩
      · simp only [isSome_none, Bool.false_eq_true, if_false, nil_append]
        rw [append_assoc, run_append hrun, run_append (run_advance _ _)]
        rfl
      · intro code leave h
        obtain ⟨rfl, rfl⟩ := Prod.mk.inj (some.inj h)
        refine ⟨_, rfl, fun back hstack hagree => ?_⟩
        obtain ⟨m'', hrun'', hstack'', hregisters⟩ := hback back m.stack hstack hagree
        grind -linarith
    | some label =>
      obtain ⟨stack, hrun, hback⟩ := performed_and_restored hfits stackLimitSlack
        { m with stack := .value m.position :: m.stack } halt hfound hperformed
      refine ⟨⟨immediate cleared m.position m.registers trace.actions, m.position + trace.cpOffset,
        .code undo :: (stack ++ .value m.position :: m.stack)⟩, ?_, rfl, rfl,
        fun h => (nomatch h), ?_⟩
      · simp only [isSome_some, if_true]
        rw [append_assoc, append_assoc, cons_append, nil_append, run,
          Instruction.exec, bind_some, run_append hrun, run_append (run_advance _ _)]
        rfl
      · intro code leave h
        obtain ⟨rfl, rfl⟩ := Prod.mk.inj (some.inj h)
        refine ⟨_, rfl, fun back hstack hagree => ?_⟩
        obtain ⟨m'', hrun'', hstack'', hregisters⟩ :=
          hback back (.value m.position :: m.stack) hstack hagree
        refine ⟨⟨m''.registers, m.position, m.stack⟩, ?_, hregisters, rfl, fun _ => rfl⟩
        · rw [run_append hrun'', run, Instruction.exec, hstack'']
          rfl

/-- A capture that is cleared and stored to again inside a counted loop. -/
def captureInLoop : Trace where
  cpOffset := 2
  actions := [.storePosition 3 2 true, .storePosition 2 1 true, .clearCaptures 2 3,
    .incrementRegister 4, .setRegister 4 0]
  backtrack := some 7

theorem flush_immediate_captureInLoop :
    ∃ m', run (-1) (captureInLoop.flush 32 8).enter ⟨fun r => r, 5, []⟩ = some m' ∧
      m'.registers 2 = 6 ∧ m'.registers 3 = 7 ∧ m'.registers 4 = 1 := by
  have hfits : ∀ action ∈ captureInLoop.actions, action.Fits fun r => if r = 4 then .counter else .capture := by
    intro action haction
    simp only [captureInLoop, mem_cons, not_mem_nil, or_false] at haction
    rcases haction with rfl | rfl | rfl | rfl | rfl
    · rfl
    · rfl
    · intro r hfrom hto
      exact if_neg (by omega)
    · rfl
    · rfl
  obtain ⟨m', hrun, hregisters, -⟩ := flush_immediate (-1) 32 8 captureInLoop hfits
    ⟨fun r => r, 5, []⟩ ⟨fun _ => by decide, fun _ => by decide, trivial, trivial, trivial, trivial⟩
  exact ⟨m', hrun, by rw [hregisters]; decide, by rw [hregisters]; decide, by rw [hregisters]; decide⟩

end W16.Traces
