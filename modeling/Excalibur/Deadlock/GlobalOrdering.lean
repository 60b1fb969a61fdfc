import Excalibur.Library.OrderedWaiting
import Excalibur.Library.Run

/-! # Transfers under a global lock order

Threads run `transfer` on two locks each and take the one with the lower id first.  The
locks are non-reentrant flags: `acquire` blocks while the flag is set, whoever set it.  That
a set flag has one thread behind it is an invariant (`Invariant`), and with it the state is
a case of waiting in order: a thread that wants its second lock holds the first only.
-/

namespace Excalibur.Deadlock

open Excalibur.Library

/-- The arguments of `transfer`. -/
structure Transfer (κ ω : Type) where
  firstIntended : κ
  secondIntended : κ
  who : ω

/-- How far a thread has come. -/
inductive Phase where
  | starting
  | holdsFirst
  | holdsBoth
  | marked
  | releasedSecond
  | finished
  deriving Repr, DecidableEq

/-- `locked` are the flags of the locks, `completed` is the dictionary. -/
structure State (ι κ ω : Type) where
  phase : ι → Phase
  locked : κ → Bool
  completed : ω → Bool

variable {ι κ ω : Type}

/-- `sorted((first_intended, second_intended), key=id)`. -/
def Transfer.first (id : κ → Nat) (t : Transfer κ ω) : κ :=
  if id t.secondIntended < id t.firstIntended then t.secondIntended else t.firstIntended

def Transfer.second (id : κ → Nat) (t : Transfer κ ω) : κ :=
  if id t.secondIntended < id t.firstIntended then t.firstIntended else t.secondIntended

def start : State ι κ ω where
  phase := fun _ => .starting
  locked := fun _ => false
  completed := fun _ => false

/-- `acquire`, which blocks while the lock is locked. -/
def acquire [DecidableEq ι] [DecidableEq κ] (s : State ι κ ω) (i : ι) (lock : κ) (next : Phase) :
    Option (State ι κ ω) :=
  if s.locked lock then none
  else some { s with
    phase := Function.update s.phase i next
    locked := Function.update s.locked lock true }

def release [DecidableEq ι] [DecidableEq κ] (s : State ι κ ω) (i : ι) (lock : κ) (next : Phase) :
    State ι κ ω :=
  { s with
    phase := Function.update s.phase i next
    locked := Function.update s.locked lock false }

/-- `completed[who] = True`. -/
def mark [DecidableEq ι] [DecidableEq ω] (transfers : ι → Transfer κ ω) (s : State ι κ ω) (i : ι) :
    State ι κ ω :=
  { s with
    phase := Function.update s.phase i .marked
    completed := Function.update s.completed (transfers i).who true }

/-- The next step of thread `i`. -/
def step [DecidableEq ι] [DecidableEq κ] [DecidableEq ω] (id : κ → Nat)
    (transfers : ι → Transfer κ ω) (s : State ι κ ω) (i : ι) : Option (State ι κ ω) :=
  match s.phase i with
  | .starting => acquire s i ((transfers i).first id) .holdsFirst
  | .holdsFirst => acquire s i ((transfers i).second id) .holdsBoth
  | .holdsBoth => some (mark transfers s i)
  -- The two `with` blocks are left from the inside out.
  | .marked => some (release s i ((transfers i).second id) .releasedSecond)
  | .releasedSecond => some (release s i ((transfers i).first id) .finished)
  | .finished => none

/-! ## Holding and waiting -/

/-- The locks a thread holds, of its first and its second. -/
def Phase.held (first second : κ) : Phase → List κ
  | .starting => []
  | .holdsFirst => [first]
  | .holdsBoth => [first, second]
  | .marked => [first, second]
  | .releasedSecond => [first]
  | .finished => []

/-- The lock a thread is at the acquisition of. -/
def Phase.wanted (first second : κ) : Phase → Option κ
  | .starting => some first
  | .holdsFirst => some second
  | _ => none

/-- Whether `completed[who] = True` has been run. -/
def Phase.past : Phase → Bool
  | .marked => true
  | .releasedSecond => true
  | .finished => true
  | _ => false

/-- The steps a thread has still to take. -/
def Phase.remaining : Phase → Nat
  | .starting => 5
  | .holdsFirst => 4
  | .holdsBoth => 3
  | .marked => 2
  | .releasedSecond => 1
  | .finished => 0

def waiting (id : κ → Nat) (transfers : ι → Transfer κ ω) (s : State ι κ ω) : Waiting ι κ where
  holds := fun i lock => lock ∈ (s.phase i).held ((transfers i).first id) ((transfers i).second id)
  wants := fun i => (s.phase i).wanted ((transfers i).first id) ((transfers i).second id)

section Transfers

variable {id : κ → Nat} {transfers : ι → Transfer κ ω} {s next : State ι κ ω} {i : ι}

theorem first_lt_second (injective : Function.Injective id) {t : Transfer κ ω}
    (distinct : t.firstIntended ≠ t.secondIntended) : id (t.first id) < id (t.second id) := by
  have apart : id t.firstIntended ≠ id t.secondIntended := injective.ne distinct
  simp only [Transfer.first, Transfer.second]
  split <;> omega

theorem ordered (injective : Function.Injective id)
    (distinct : ∀ i, (transfers i).firstIntended ≠ (transfers i).secondIntended)
    (s : State ι κ ω) : (waiting id transfers s).Ordered id := by
  intro i wanted held wants holds
  simp only [waiting] at wants holds
  have less := first_lt_second injective (distinct i)
  cases phase : s.phase i with
  | holdsFirst =>
    simp only [phase, Phase.wanted, Phase.held, Option.some.injEq, List.mem_singleton] at wants holds
    subst wants holds
    exact less
  | _ => simp [phase, Phase.wanted, Phase.held] at wants holds

/-- Who has come past the mark is completed. -/
def Recorded (transfers : ι → Transfer κ ω) (s : State ι κ ω) : Prop :=
  ∀ i, (s.phase i).past = true → s.completed (transfers i).who = true

structure Invariant (id : κ → Nat) (transfers : ι → Transfer κ ω) (s : State ι κ ω) : Prop where
  exclusive : Exclusive s.locked (waiting id transfers s).holds
  recorded : Recorded transfers s

theorem start_invariant : Invariant id transfers start := by
  refine ⟨⟨?_, ?_⟩, ?_⟩
  · simp [start, waiting, Phase.held]
  · simp [start, waiting, Phase.held]
  · simp [Recorded, start, Phase.past]

/-! ## One step -/

variable [DecidableEq ι]

/-- What a thread holds after its own step; the others hold what they held. -/
theorem holds_update {after : Phase} (moved : next.phase = Function.update s.phase i after)
    (j : ι) (lock : κ) :
    (waiting id transfers next).holds j lock ↔
      if j = i then lock ∈ after.held ((transfers i).first id) ((transfers i).second id)
      else (waiting id transfers s).holds j lock := by
  simp only [waiting, moved, Function.update_apply]
  by_cases same : j = i
  · subst same
    simp
  · simp [same]

theorem Recorded.update {after : Phase} (recorded : Recorded transfers s)
    (moved : next.phase = Function.update s.phase i after)
    (kept : ∀ who, s.completed who = true → next.completed who = true)
    (own : after.past = true → next.completed (transfers i).who = true) :
    Recorded transfers next := by
  intro j past
  rw [moved] at past
  by_cases same : j = i
  · subst same
    rw [Function.update_self] at past
    exact own past
  · rw [Function.update_of_ne same] at past
    exact kept _ (recorded j past)

variable [DecidableEq κ]

theorem acquire_eq_some {lock : κ} {after : Phase} (stepped : acquire s i lock after = some next) :
    s.locked lock = false ∧ next = { s with
      phase := Function.update s.phase i after
      locked := Function.update s.locked lock true } := by
  unfold acquire at stepped
  split at stepped
  · contradiction
  · next free => exact ⟨Bool.eq_false_of_not_eq_true free, (Option.some.inj stepped).symm⟩

theorem exclusive_acquired (exclusive : Exclusive s.locked (waiting id transfers s).holds)
    {lock : κ} {after : Phase} (free : s.locked lock = false)
    (moved : next.phase = Function.update s.phase i after)
    (taken : ∀ other, other ∈ after.held ((transfers i).first id) ((transfers i).second id) ↔
      (waiting id transfers s).holds i other ∨ other = lock) :
    Exclusive (Function.update s.locked lock true) (waiting id transfers next).holds := by
  apply exclusive.take (i := i) free
  intro j other
  rw [holds_update moved, taken]
  by_cases same : j = i
  · simp [same]
  · simp [same]

theorem exclusive_released (exclusive : Exclusive s.locked (waiting id transfers s).holds)
    {lock : κ} {after : Phase} (held : (waiting id transfers s).holds i lock)
    (moved : next.phase = Function.update s.phase i after)
    (given : ∀ other, other ∈ after.held ((transfers i).first id) ((transfers i).second id) ↔
      (waiting id transfers s).holds i other ∧ other ≠ lock) :
    Exclusive (Function.update s.locked lock false) (waiting id transfers next).holds := by
  apply exclusive.give held
  intro j other
  rw [holds_update moved, given]
  by_cases same : j = i
  · simp [same]
  · simp [same]

variable [DecidableEq ω]

/-- The five steps, each with the phase it is taken in. -/
theorem step_cases (stepped : step id transfers s i = some next) :
    (s.phase i = .starting ∧ acquire s i ((transfers i).first id) .holdsFirst = some next) ∨
    (s.phase i = .holdsFirst ∧ acquire s i ((transfers i).second id) .holdsBoth = some next) ∨
    (s.phase i = .holdsBoth ∧ next = mark transfers s i) ∨
    (s.phase i = .marked ∧ next = release s i ((transfers i).second id) .releasedSecond) ∨
    (s.phase i = .releasedSecond ∧ next = release s i ((transfers i).first id) .finished) := by
  unfold step at stepped
  cases phase : s.phase i <;> simp_all

theorem exclusive_step (injective : Function.Injective id)
    (distinct : ∀ i, (transfers i).firstIntended ≠ (transfers i).secondIntended)
    (exclusive : Exclusive s.locked (waiting id transfers s).holds)
    (stepped : step id transfers s i = some next) :
    Exclusive next.locked (waiting id transfers next).holds := by
  -- The two locks differ, so that giving the second back leaves the first held.
  have apart : (transfers i).first id ≠ (transfers i).second id := by
    intro same
    have less := first_lt_second injective (distinct i)
    rw [same] at less
    exact lt_irrefl _ less
  rcases step_cases stepped with
    ⟨phase, acquired⟩ | ⟨phase, acquired⟩ | ⟨phase, rfl⟩ | ⟨phase, rfl⟩ | ⟨phase, rfl⟩
  · obtain ⟨free, rfl⟩ := acquire_eq_some acquired
    apply exclusive_acquired exclusive free rfl
    simp [waiting, phase, Phase.held]
  · obtain ⟨free, rfl⟩ := acquire_eq_some acquired
    apply exclusive_acquired exclusive free rfl
    simp [waiting, phase, Phase.held]
  · apply exclusive.congr
    intro j other
    rw [holds_update (s := s) (i := i) rfl]
    by_cases same : j = i
    · simp [same, waiting, phase, Phase.held]
    · simp [same]
  · apply exclusive_released exclusive (by simp [waiting, phase, Phase.held]) rfl
    intro other
    simp only [waiting, phase, Phase.held, List.mem_cons, List.not_mem_nil]
    grind
  · apply exclusive_released exclusive (by simp [waiting, phase, Phase.held]) rfl
    simp [waiting, phase, Phase.held]

theorem recorded_step (recorded : Recorded transfers s)
    (stepped : step id transfers s i = some next) : Recorded transfers next := by
  rcases step_cases stepped with
    ⟨phase, acquired⟩ | ⟨phase, acquired⟩ | ⟨phase, rfl⟩ | ⟨phase, rfl⟩ | ⟨phase, rfl⟩
  · obtain ⟨-, rfl⟩ := acquire_eq_some acquired
    refine recorded.update (i := i) rfl (fun _ done => done) ?_
    simp [Phase.past]
  · obtain ⟨-, rfl⟩ := acquire_eq_some acquired
    refine recorded.update (i := i) rfl (fun _ done => done) ?_
    simp [Phase.past]
  · refine recorded.update (i := i) rfl ?_ ?_
    · intro who done
      simp [mark, Function.update_apply, done]
    · simp [mark]
  · refine recorded.update (i := i) rfl (fun _ done => done) ?_
    intro _
    exact recorded i (by simp [phase, Phase.past])
  · refine recorded.update (i := i) rfl (fun _ done => done) ?_
    intro _
    exact recorded i (by simp [phase, Phase.past])

/-- A step brings its thread one step nearer to the end. -/
theorem step_phase (stepped : step id transfers s i = some next) :
    ∃ after : Phase, next.phase = Function.update s.phase i after ∧
      after.remaining + 1 = (s.phase i).remaining := by
  rcases step_cases stepped with
    ⟨phase, acquired⟩ | ⟨phase, acquired⟩ | ⟨phase, rfl⟩ | ⟨phase, rfl⟩ | ⟨phase, rfl⟩
  · obtain ⟨-, rfl⟩ := acquire_eq_some acquired
    exact ⟨_, rfl, by rw [phase]; rfl⟩
  · obtain ⟨-, rfl⟩ := acquire_eq_some acquired
    exact ⟨_, rfl, by rw [phase]; rfl⟩
  · exact ⟨_, rfl, by rw [phase]; rfl⟩
  · exact ⟨_, rfl, by rw [phase]; rfl⟩
  · exact ⟨_, rfl, by rw [phase]; rfl⟩

theorem run_keeps_invariant (injective : Function.Injective id)
    (distinct : ∀ i, (transfers i).firstIntended ≠ (transfers i).secondIntended)
    {events : List ι} (reached : run (step id transfers) start events = some s) :
    Invariant id transfers s := by
  apply run_invariant start_invariant _ events s (visited_finish reached)
  intro state i next stepped invariant
  constructor
  · exact exclusive_step injective distinct invariant.exclusive stepped
  · exact recorded_step invariant.recorded stepped

/-! ## Getting to the end -/

/-- A thread that cannot step has finished or stands before a locked lock. -/
theorem blocked (stuck : step id transfers s i = none) :
    s.phase i = .finished ∨ ∃ lock, (waiting id transfers s).wants i = some lock ∧
      s.locked lock = true := by
  unfold step at stuck
  cases phase : s.phase i <;> simp_all [acquire, waiting, Phase.wanted]

theorem exists_step [Finite ι] (injective : Function.Injective id)
    (distinct : ∀ i, (transfers i).firstIntended ≠ (transfers i).secondIntended)
    (exclusive : Exclusive s.locked (waiting id transfers s).holds)
    (unfinished : s.phase i ≠ .finished) :
    ∃ j next, s.phase j ≠ .finished ∧ step id transfers s j = some next := by
  -- The end of a chain of waiting threads from `i` waits for nobody.
  obtain ⟨j, chain, free⟩ := Waiting.exists_not_waiting (ordered injective distinct s) i
  have unfinishedEnd : s.phase j ≠ .finished := by
    rcases Waiting.holds_of_chain chain with rfl | ⟨lock, held⟩
    · exact unfinished
    · intro finished
      simp [waiting, finished, Phase.held] at held
  cases stepped : step id transfers s j with
  | some next => exact ⟨j, next, unfinishedEnd, stepped⟩
  | none =>
    rcases blocked stepped with finished | ⟨lock, wants, locked⟩
    · exact absurd finished unfinishedEnd
    · obtain ⟨k, held⟩ := (exclusive.locked_iff lock).mp locked
      exact absurd ⟨lock, wants, held⟩ (free k)

def remaining [Fintype ι] (s : State ι κ ω) : Nat := ∑ i, (s.phase i).remaining

theorem remaining_step [Fintype ι] (stepped : step id transfers s i = some next) :
    remaining next + 1 = remaining s := by
  obtain ⟨after, moved, lower⟩ := step_phase stepped
  have others : ∑ j ∈ Finset.univ.erase i, (next.phase j).remaining =
      ∑ j ∈ Finset.univ.erase i, (s.phase j).remaining := by
    apply Finset.sum_congr rfl
    intro j member
    rw [moved, Function.update_of_ne (Finset.ne_of_mem_erase member)]
  unfold remaining
  rw [← Finset.add_sum_erase _ _ (Finset.mem_univ i), others, moved, Function.update_self,
    ← Finset.add_sum_erase _ (fun j => (s.phase j).remaining) (Finset.mem_univ i), ← lower]
  omega

theorem length_le [Fintype ι] {events : List ι}
    (reached : run (step id transfers) start events = some s) :
    events.length ≤ 5 * Fintype.card ι := by
  have spent := length_add_rank remaining (fun _ _ _ => remaining_step) reached
  have all : remaining (start : State ι κ ω) = 5 * Fintype.card ι := by
    simp [remaining, start, Phase.remaining, mul_comm]
  omega

/-- Whatever the order of the steps, no run comes to a deadlock, and a run that cannot go
    on has completed every transfer and left every lock free. -/
theorem global_ordering_completes [Fintype ι] (injective : Function.Injective id)
    (distinct : ∀ i, (transfers i).firstIntended ≠ (transfers i).secondIntended)
    (events : List ι) (reached : run (step id transfers) start events = some s) :
    ((∃ i, s.phase i ≠ .finished) →
      ∃ j next, s.phase j ≠ .finished ∧ step id transfers s j = some next) ∧
    (∀ i, ¬ Relation.TransGen (waiting id transfers s).WaitsFor i i) ∧
    events.length ≤ 5 * Fintype.card ι ∧
    ((∀ i, step id transfers s i = none) →
      (∀ i, s.phase i = .finished ∧ s.completed (transfers i).who = true) ∧
      ∀ lock, s.locked lock = false) := by
  have invariant := run_keeps_invariant injective distinct reached
  have progress (i : ι) (unfinished : s.phase i ≠ .finished) :=
    exists_step injective distinct invariant.exclusive unfinished
  refine ⟨?_, Waiting.no_cycle (ordered injective distinct s), length_le reached, ?_⟩
  · rintro ⟨i, unfinished⟩
    exact progress i unfinished
  · intro halted
    -- A transfer left unfinished would have some step to take.
    have finished (i : ι) : s.phase i = .finished := by
      by_contra unfinished
      obtain ⟨j, next, -, stepped⟩ := progress i unfinished
      rw [halted j] at stepped
      contradiction
    refine ⟨?_, ?_⟩
    · intro i
      exact ⟨finished i, invariant.recorded i (by simp [finished i, Phase.past])⟩
    · intro lock
      rw [Bool.eq_false_iff]
      intro locked
      -- A lock that is taken has a holder, and a finished transfer holds none.
      obtain ⟨i, held⟩ := (invariant.exclusive.locked_iff lock).mp locked
      simp [waiting, finished i, Phase.held] at held

end Transfers

/-! ## The two threads -/

/-- The two threads of the demonstration, on `lock_a` (`false`) and `lock_b` (`true`). -/
def twoThreads : Bool → Transfer Bool String
  | false => { firstIntended := false, secondIntended := true, who := "t1" }
  | true => { firstIntended := true, secondIntended := false, who := "t2" }

theorem two_threads_wait_in_order :
    ∃ s, run (step Bool.toNat twoThreads) start [false, false, false] = some s ∧
      (∀ i, ¬ Relation.TransGen (waiting Bool.toNat twoThreads s).WaitsFor i i) ∧
      [false, false, false].length ≤ 5 * Fintype.card Bool := by
  have runs : (run (step Bool.toNat twoThreads) start [false, false, false]).isSome = true := by
    decide
  obtain ⟨s, reached⟩ := Option.isSome_iff_exists.mp runs
  have settled := global_ordering_completes (by decide) (by decide) _ reached
  exact ⟨s, reached, settled.2.1, settled.2.2.1⟩

end Excalibur.Deadlock
