import Excalibur.Library.OrderedWaiting
import Excalibur.Library.Run

/-! # Transfers that give up

The threads of `fixed_with_trylock` take their locks in the order they were given, and an
acquisition that times out makes a thread give back what it holds and start again.  A
waiting thread is one that takes no step; the step of a thread whose lock is still locked is
its timeout.  So a thread can always step, and what is left to show is that the steps lead
somewhere.
-/

namespace Excalibur.Deadlock.TryLock

open Excalibur.Library

/-- The arguments of `transfer`. -/
structure Transfer (κ ω : Type) where
  first : κ
  second : κ
  who : ω

inductive Phase where
  | trying
  | holdsFirst
  | holdsBoth
  | marked
  | releasedSecond
  | gaveUp
  | backingOff
  | finished
  deriving Repr, DecidableEq

structure State (ι κ ω : Type) where
  phase : ι → Phase
  locked : κ → Bool
  completed : ω → Bool

variable {ι κ ω : Type}

def start : State ι κ ω where
  phase := fun _ => .trying
  locked := fun _ => false
  completed := fun _ => false

/-- `acquire(timeout=0.1)`. -/
def acquire [DecidableEq ι] [DecidableEq κ] (s : State ι κ ω) (i : ι) (lock : κ)
    (got timedOut : Phase) : State ι κ ω :=
  if s.locked lock then { s with phase := Function.update s.phase i timedOut }
  else { s with
    phase := Function.update s.phase i got
    locked := Function.update s.locked lock true }

def release [DecidableEq ι] [DecidableEq κ] (s : State ι κ ω) (i : ι) (lock : κ) (next : Phase) :
    State ι κ ω :=
  { s with
    phase := Function.update s.phase i next
    locked := Function.update s.locked lock false }

/-- The next step of thread `i`. -/
def step [DecidableEq ι] [DecidableEq κ] [DecidableEq ω] (transfers : ι → Transfer κ ω)
    (s : State ι κ ω) (i : ι) : Option (State ι κ ω) :=
  match s.phase i with
  | .trying => some (acquire s i (transfers i).first .holdsFirst .backingOff)
  | .holdsFirst => some (acquire s i (transfers i).second .holdsBoth .gaveUp)
  | .holdsBoth => some { s with
      phase := Function.update s.phase i .marked
      completed := Function.update s.completed (transfers i).who true }
  -- `return` leaves through the two `finally` blocks.
  | .marked => some (release s i (transfers i).second .releasedSecond)
  | .releasedSecond => some (release s i (transfers i).first .finished)
  | .gaveUp => some (release s i (transfers i).first .backingOff)
  | .backingOff => some { s with phase := Function.update s.phase i .trying }
  | .finished => none

/-! ## Holding -/

def Phase.held (first second : κ) : Phase → List κ
  | .holdsFirst => [first]
  | .holdsBoth => [first, second]
  | .marked => [first, second]
  | .releasedSecond => [first]
  | .gaveUp => [first]
  | _ => []

/-- Whether `completed[who] = True` has been run. -/
def Phase.past : Phase → Bool
  | .marked => true
  | .releasedSecond => true
  | .finished => true
  | _ => false

/-- The steps after which a thread holds nothing, got or not what it tries to get. -/
def Phase.toFree : Phase → Nat
  | .holdsFirst => 4
  | .holdsBoth => 3
  | .marked => 2
  | .releasedSecond => 1
  | .gaveUp => 1
  | _ => 0

/-- The steps to the end for a thread that gets every lock. -/
def Phase.remaining : Phase → Nat
  | .gaveUp => 7
  | .backingOff => 6
  | .trying => 5
  | .holdsFirst => 4
  | .holdsBoth => 3
  | .marked => 2
  | .releasedSecond => 1
  | .finished => 0

def holds (transfers : ι → Transfer κ ω) (s : State ι κ ω) (i : ι) (lock : κ) : Prop :=
  lock ∈ (s.phase i).held (transfers i).first (transfers i).second

structure Invariant (transfers : ι → Transfer κ ω) (s : State ι κ ω) : Prop where
  exclusive : Exclusive s.locked (holds transfers s)
  recorded : ∀ i, (s.phase i).past = true → s.completed (transfers i).who = true

section Transfers

variable {transfers : ι → Transfer κ ω} {s next : State ι κ ω} {i : ι}

theorem start_invariant : Invariant transfers start := by
  refine ⟨⟨?_, ?_⟩, ?_⟩
  · simp [start, holds, Phase.held]
  · simp [start, holds, Phase.held]
  · simp [start, Phase.past]

theorem not_holds_of_toFree (free : (s.phase i).toFree = 0) (lock : κ) :
    ¬ holds transfers s i lock := by
  cases phase : s.phase i <;> simp_all [holds, Phase.toFree, Phase.held]

/-- Nothing is held by any thread but `i`. -/
def Alone (transfers : ι → Transfer κ ω) (s : State ι κ ω) (i : ι) : Prop :=
  ∀ j, j ≠ i → ∀ lock, ¬ holds transfers s j lock

theorem free_of_alone (invariant : Invariant transfers s) (alone : Alone transfers s i) {lock : κ}
    (notHeld : ¬ holds transfers s i lock) : s.locked lock = false := by
  rw [Bool.eq_false_iff]
  intro locked
  obtain ⟨j, held⟩ := (invariant.exclusive.locked_iff lock).mp locked
  by_cases same : j = i
  · exact notHeld (same ▸ held)
  · exact alone j same lock held

variable [DecidableEq ι]

theorem holds_update {after : Phase} (moved : next.phase = Function.update s.phase i after)
    (j : ι) (lock : κ) :
    holds transfers next j lock ↔
      if j = i then lock ∈ after.held (transfers i).first (transfers i).second
      else holds transfers s j lock := by
  simp only [holds, moved, Function.update_apply]
  by_cases same : j = i
  · subst same
    simp
  · simp [same]

variable [DecidableEq κ]

/-- What a step does to the locks: it takes a free one, gives one back that its thread
    holds, or leaves them as they are. -/
inductive LockEffect (transfers : ι → Transfer κ ω) (s next : State ι κ ω) (i : ι) (after : Phase) :
    Prop where
  | takes (lock : κ) (free : s.locked lock = false)
      (set : next.locked = Function.update s.locked lock true)
      (taken : ∀ other, other ∈ after.held (transfers i).first (transfers i).second ↔
        holds transfers s i other ∨ other = lock)
  | gives (lock : κ) (held : holds transfers s i lock)
      (cleared : next.locked = Function.update s.locked lock false)
      (given : ∀ other, other ∈ after.held (transfers i).first (transfers i).second ↔
        holds transfers s i other ∧ other ≠ lock)
  | keeps (same : next.locked = s.locked)
      (kept : ∀ other, other ∈ after.held (transfers i).first (transfers i).second ↔
        holds transfers s i other)

theorem LockEffect.exclusive {after : Phase} (effect : LockEffect transfers s next i after)
    (moved : next.phase = Function.update s.phase i after)
    (exclusive : Exclusive s.locked (holds transfers s)) :
    Exclusive next.locked (holds transfers next) := by
  cases effect with
  | takes lock free set taken =>
    rw [set]
    apply exclusive.take (i := i) free
    intro j other
    rw [holds_update moved, taken]
    by_cases same : j = i
    · simp [same]
    · simp [same]
  | gives lock held cleared given =>
    rw [cleared]
    apply exclusive.give held
    intro j other
    rw [holds_update moved, given]
    by_cases same : j = i
    · simp [same]
    · simp [same]
  | keeps same kept =>
    rw [same]
    apply exclusive.congr
    intro j other
    rw [holds_update moved, kept]
    by_cases same : j = i
    · simp [same]
    · simp [same]

theorem acquire_effect (transfers : ι → Transfer κ ω) (s : State ι κ ω) (i : ι) (lock : κ)
    (got timedOut : Phase)
    (gets : ∀ other, other ∈ got.held (transfers i).first (transfers i).second ↔
      holds transfers s i other ∨ other = lock)
    (misses : ∀ other, other ∈ timedOut.held (transfers i).first (transfers i).second ↔
      holds transfers s i other) :
    ∃ after, (after = got ∨ after = timedOut) ∧
      (acquire s i lock got timedOut).phase = Function.update s.phase i after ∧
      LockEffect transfers s (acquire s i lock got timedOut) i after := by
  unfold acquire
  split
  · exact ⟨timedOut, .inr rfl, rfl, .keeps rfl misses⟩
  · rename_i free
    exact ⟨got, .inl rfl, rfl, .takes lock (Bool.eq_false_of_not_eq_true free) rfl gets⟩

theorem acquire_completed (lock : κ) (got timedOut : Phase) :
    (acquire s i lock got timedOut).completed = s.completed := by
  unfold acquire
  split <;> rfl

variable [DecidableEq ω]

/-- A step moves its own thread, and only a thread that is completed gets past the mark. -/
theorem step_effect (distinct : ∀ i, (transfers i).first ≠ (transfers i).second)
    (stepped : step transfers s i = some next) :
    ∃ after, next.phase = Function.update s.phase i after ∧ LockEffect transfers s next i after ∧
      (∀ who, s.completed who = true → next.completed who = true) ∧
      (after.past = true → (s.phase i).past = true ∨ next.completed (transfers i).who = true) := by
  have apart := distinct i
  unfold step at stepped
  cases phase : s.phase i with
  | trying =>
    simp only [phase, Option.some.injEq] at stepped
    subst stepped
    obtain ⟨after, named, moved, effect⟩ := acquire_effect transfers s i
      (transfers i).first .holdsFirst .backingOff (by simp [holds, phase, Phase.held])
      (by simp [holds, phase, Phase.held])
    refine ⟨after, moved, effect, ?_, ?_⟩
    · rw [acquire_completed]
      exact fun _ done => done
    · rcases named with rfl | rfl <;> simp [Phase.past]
  | holdsFirst =>
    simp only [phase, Option.some.injEq] at stepped
    subst stepped
    obtain ⟨after, named, moved, effect⟩ := acquire_effect transfers s i
      (transfers i).second .holdsBoth .gaveUp (by simp [holds, phase, Phase.held])
      (by simp [holds, phase, Phase.held])
    refine ⟨after, moved, effect, ?_, ?_⟩
    · rw [acquire_completed]
      exact fun _ done => done
    · rcases named with rfl | rfl <;> simp [Phase.past]
  | holdsBoth =>
    simp only [phase, Option.some.injEq] at stepped
    subst stepped
    refine ⟨.marked, rfl, .keeps rfl (by simp [holds, phase, Phase.held]), ?_, ?_⟩
    · intro who done
      simp [Function.update_apply, done]
    · simp
  | marked =>
    simp only [phase, Option.some.injEq] at stepped
    subst stepped
    refine ⟨.releasedSecond, rfl, .gives (transfers i).second ?_ rfl ?_, fun _ done => done, ?_⟩
    · simp [holds, phase, Phase.held]
    · intro other
      simp only [holds, phase, Phase.held, List.mem_cons, List.not_mem_nil]
      grind
    · simp [Phase.past]
  | releasedSecond =>
    simp only [phase, Option.some.injEq] at stepped
    subst stepped
    refine ⟨.finished, rfl, .gives (transfers i).first ?_ rfl ?_, fun _ done => done, ?_⟩
    · simp [holds, phase, Phase.held]
    · simp [holds, phase, Phase.held]
    · simp [Phase.past]
  | gaveUp =>
    simp only [phase, Option.some.injEq] at stepped
    subst stepped
    refine ⟨.backingOff, rfl, .gives (transfers i).first ?_ rfl ?_, fun _ done => done, ?_⟩
    · simp [holds, phase, Phase.held]
    · simp [holds, phase, Phase.held]
    · simp [Phase.past]
  | backingOff =>
    simp only [phase, Option.some.injEq] at stepped
    subst stepped
    refine ⟨.trying, rfl, .keeps rfl (by simp [holds, phase, Phase.held]), fun _ done => done, ?_⟩
    simp [Phase.past]
  | finished =>
    rw [phase] at stepped
    contradiction

theorem step_keeps_invariant (distinct : ∀ i, (transfers i).first ≠ (transfers i).second)
    (stepped : step transfers s i = some next) (invariant : Invariant transfers s) :
    Invariant transfers next := by
  obtain ⟨after, moved, effect, kept, own⟩ := step_effect distinct stepped
  refine ⟨effect.exclusive moved invariant.exclusive, ?_⟩
  intro j past
  rw [moved] at past
  by_cases same : j = i
  · subst same
    rw [Function.update_self] at past
    rcases own past with before | done
    · exact kept _ (invariant.recorded j before)
    · exact done
  · rw [Function.update_of_ne same] at past
    exact kept _ (invariant.recorded j past)

theorem run_keeps_invariant (distinct : ∀ i, (transfers i).first ≠ (transfers i).second)
    {events : List ι} (invariant : Invariant transfers s)
    (reached : run (step transfers) s events = some next) : Invariant transfers next :=
  run_invariant invariant (fun _ _ _ stepped => step_keeps_invariant distinct stepped) events next
    (visited_finish reached)

/-! ## Getting to the end -/

theorem exists_step (unfinished : s.phase i ≠ .finished) : ∃ next, step transfers s i = some next := by
  cases stepped : step transfers s i with
  | some next => exact ⟨next, rfl⟩
  | none =>
    unfold step at stepped
    split at stepped <;> simp_all

theorem toFree_step (holding : (s.phase i).toFree ≠ 0) (stepped : step transfers s i = some next) :
    (next.phase i).toFree < (s.phase i).toFree := by
  unfold step at stepped
  cases phase : s.phase i with
  | holdsFirst =>
    simp only [phase, Option.some.injEq, acquire] at stepped
    subst stepped
    split <;> simp [Phase.toFree]
  | trying | backingOff | finished => simp [phase, Phase.toFree] at holding
  | _ =>
    simp only [phase, Option.some.injEq] at stepped
    subst stepped
    simp [release, Phase.toFree]

/-- A thread that is alone gets every lock. -/
theorem remaining_step (distinct : ∀ i, (transfers i).first ≠ (transfers i).second)
    (invariant : Invariant transfers s) (alone : Alone transfers s i)
    (stepped : step transfers s i = some next) :
    (next.phase i).remaining < (s.phase i).remaining := by
  unfold step at stepped
  cases phase : s.phase i with
  | trying =>
    have free : s.locked (transfers i).first = false :=
      free_of_alone invariant alone (by simp [holds, phase, Phase.held])
    simp only [phase, Option.some.injEq, acquire, free] at stepped
    subst stepped
    simp [Phase.remaining]
  | holdsFirst =>
    have free : s.locked (transfers i).second = false :=
      free_of_alone invariant alone (by simp [holds, phase, Phase.held, (distinct i).symm])
    simp only [phase, Option.some.injEq, acquire, free] at stepped
    subst stepped
    simp [Phase.remaining]
  | finished => simp [phase] at stepped
  | _ =>
    simp only [phase, Option.some.injEq] at stepped
    subst stepped
    simp [release, Phase.remaining]

theorem phase_of_other (distinct : ∀ i, (transfers i).first ≠ (transfers i).second)
    (stepped : step transfers s i = some next) {j : ι} (other : j ≠ i) :
    next.phase j = s.phase j := by
  obtain ⟨after, moved, -⟩ := step_effect distinct stepped
  rw [moved, Function.update_of_ne other]

/-- A thread gets rid of what it holds in four steps, and nobody else is moved. -/
theorem run_to_free (distinct : ∀ i, (transfers i).first ≠ (transfers i).second)
    (invariant : Invariant transfers s) (i : ι) :
    ∃ count finish, count ≤ (s.phase i).toFree ∧
      run (step transfers) s (List.replicate count i) = some finish ∧
      (Invariant transfers finish ∧ ∀ j, j ≠ i → finish.phase j = s.phase j) ∧
      (finish.phase i).toFree = 0 := by
  have nearer (state : State ι κ ω)
      (here : Invariant transfers state ∧ ∀ j, j ≠ i → state.phase j = s.phase j)
      (holding : (state.phase i).toFree ≠ 0) : ∃ next, step transfers state i = some next ∧
        (Invariant transfers next ∧ ∀ j, j ≠ i → next.phase j = s.phase j) ∧
        (next.phase i).toFree < (state.phase i).toFree := by
    have unfinished : state.phase i ≠ .finished := by
      intro finished
      rw [finished] at holding
      exact holding rfl
    obtain ⟨next, stepped⟩ : ∃ next, step transfers state i = some next := exists_step unfinished
    refine ⟨next, stepped, ⟨step_keeps_invariant distinct stepped here.1, ?_⟩,
      toFree_step holding stepped⟩
    intro j other
    rw [phase_of_other distinct stepped other, here.2 j other]
  exact exists_run_alone (fun (state : State ι κ ω) => (state.phase i).toFree) nearer
    ⟨invariant, fun _ _ => rfl⟩

/-- A thread that runs while the others hold nothing finishes in seven steps. -/
theorem run_to_finished (distinct : ∀ i, (transfers i).first ≠ (transfers i).second)
    (invariant : Invariant transfers s) (alone : Alone transfers s i) :
    ∃ count finish, count ≤ (s.phase i).remaining ∧
      run (step transfers) s (List.replicate count i) = some finish ∧
      (Invariant transfers finish ∧ ∀ j, j ≠ i → finish.phase j = s.phase j) ∧
      finish.phase i = .finished := by
  have nearer (state : State ι κ ω)
      (here : Invariant transfers state ∧ ∀ j, j ≠ i → state.phase j = s.phase j)
      (unfinished : state.phase i ≠ .finished) : ∃ next, step transfers state i = some next ∧
        (Invariant transfers next ∧ ∀ j, j ≠ i → next.phase j = s.phase j) ∧
        (next.phase i).remaining < (state.phase i).remaining := by
    obtain ⟨next, stepped⟩ : ∃ next, step transfers state i = some next := exists_step unfinished
    have still : Alone transfers state i := by
      intro j other lock
      rw [holds, here.2 j other]
      exact alone j other lock
    refine ⟨next, stepped, ⟨step_keeps_invariant distinct stepped here.1, ?_⟩,
      remaining_step distinct here.1 still stepped⟩
    intro j other
    rw [phase_of_other distinct stepped other, here.2 j other]
  exact exists_run_alone (fun (state : State ι κ ω) => (state.phase i).remaining) nearer
    ⟨invariant, fun _ _ => rfl⟩

/-- From every state that is reached, all threads can still be brought to their end. -/
theorem exists_completion [Finite ι] (distinct : ∀ i, (transfers i).first ≠ (transfers i).second)
    (invariant : Invariant transfers s) :
    ∃ events finish, run (step transfers) s events = some finish ∧ Invariant transfers finish ∧
      ∀ i, finish.phase i = .finished := by
  have := Fintype.ofFinite ι
  -- First nobody holds anything, then one thread after the other runs alone.
  have letGo (i : ι) (state : State ι κ ω) (here : Invariant transfers state) :
      ∃ events finish, run (step transfers) state events = some finish ∧
        Invariant transfers finish ∧ (finish.phase i).toFree = 0 ∧
        ∀ j, (state.phase j).toFree = 0 → (finish.phase j).toFree = 0 := by
    obtain ⟨count, finish, -, reached, ⟨kept, others⟩, free⟩ := run_to_free distinct here i
    refine ⟨_, finish, reached, kept, free, fun j freeBefore => ?_⟩
    by_cases same : j = i
    · rw [same]
      exact free
    · rw [others j same]
      exact freeBefore
  have complete (i : ι) (state : State ι κ ω)
      (here : Invariant transfers state ∧ ∀ j, (state.phase j).toFree = 0) :
      ∃ events finish, run (step transfers) state events = some finish ∧
        (Invariant transfers finish ∧ ∀ j, (finish.phase j).toFree = 0) ∧
        finish.phase i = .finished ∧ ∀ j, state.phase j = .finished → finish.phase j = .finished := by
    have alone : Alone transfers state i := fun j _ => not_holds_of_toFree (here.2 j)
    obtain ⟨count, finish, -, reached, ⟨kept, others⟩, done⟩ := run_to_finished distinct here.1 alone
    refine ⟨_, finish, reached, ⟨kept, fun j => ?_⟩, done, fun j doneBefore => ?_⟩
    · by_cases same : j = i
      · rw [same, done]
        rfl
      · rw [others j same]
        exact here.2 j
    · by_cases same : j = i
      · rw [same]
        exact done
      · rw [others j same]
        exact doneBefore
  obtain ⟨first, quiet, reachedQuiet, quietInvariant, nobody⟩ :=
    exists_run_each letGo Finset.univ.toList invariant
  obtain ⟨second, finish, reached, ⟨finishInvariant, -⟩, finished⟩ :=
    exists_run_each complete Finset.univ.toList ⟨quietInvariant, fun i => nobody i (by simp)⟩
  refine ⟨first ++ second, finish, ?_, finishInvariant, fun i => finished i (by simp)⟩
  rw [run_append, reachedQuiet]
  exact reached

/-- Whatever the order of the steps, no lock has two holders and no thread is stuck; a
    thread that runs while the others hold nothing finishes in seven steps, and the whole
    run can still be completed, with every lock free. -/
theorem trylock_can_complete [Finite ι] (distinct : ∀ i, (transfers i).first ≠ (transfers i).second)
    (events : List ι) (reached : run (step transfers) start events = some s) :
    Exclusive s.locked (holds transfers s) ∧
    (∀ i, s.phase i ≠ .finished → ∃ next, step transfers s i = some next) ∧
    (∀ i, (∀ j, j ≠ i → ∀ lock, ¬ holds transfers s j lock) → ∃ count finish, count ≤ 7 ∧
      run (step transfers) s (List.replicate count i) = some finish ∧
      finish.phase i = .finished ∧ finish.completed (transfers i).who = true) ∧
    ∃ more finish, run (step transfers) s more = some finish ∧
      (∀ i, finish.phase i = .finished ∧ finish.completed (transfers i).who = true) ∧
      ∀ lock, finish.locked lock = false := by
  have invariant := run_keeps_invariant distinct start_invariant reached
  refine ⟨invariant.exclusive, fun i => exists_step, ?_, ?_⟩
  · intro i alone
    obtain ⟨count, finish, few, ran, ⟨kept, -⟩, done⟩ := run_to_finished distinct invariant alone
    have most : (s.phase i).remaining ≤ 7 := by cases s.phase i <;> decide
    exact ⟨count, finish, few.trans most, ran, done, kept.recorded i (by rw [done]; rfl)⟩
  · obtain ⟨more, finish, ran, kept, done⟩ := exists_completion distinct invariant
    refine ⟨more, finish, ran, fun i => ⟨done i, kept.recorded i (by rw [done i]; rfl)⟩, ?_⟩
    intro lock
    rw [Bool.eq_false_iff]
    intro locked
    obtain ⟨i, held⟩ := (kept.exclusive.locked_iff lock).mp locked
    simp [holds, done i, Phase.held] at held

/-- Two threads with opposite orders can also send each other away for ever. -/
theorem crossed_transfers_livelock {j : ι} (apart : i ≠ j)
    (distinct : ∀ i, (transfers i).first ≠ (transfers i).second)
    (firstCrossed : (transfers i).first = (transfers j).second)
    (secondCrossed : (transfers i).second = (transfers j).first) (rounds : Nat) :
    run (step transfers) start (List.replicate rounds [i, j, i, j, i, j, i, j]).flatten =
      some start := by
  have round : run (step transfers) start [i, j, i, j, i, j, i, j] = some start := by
    have other := distinct j
    simp [run, step, start, acquire, release, apart, apart.symm, firstCrossed, secondCrossed, other,
      other.symm]
    constructor
    · funext k
      simp only [Function.update_apply]
      split <;> simp_all
    · funext k
      simp only [Function.update_apply]
      split <;> simp_all
  induction rounds with
  | zero => rfl
  | succ rounds ih =>
    rw [List.replicate_succ, List.flatten_cons, run_append, round]
    exact ih

end Transfers

/-! ## The two threads -/

/-- The two threads of the demonstration, on `lock_a` (`false`) and `lock_b` (`true`). -/
def twoThreads : Bool → Transfer Bool String
  | false => { first := false, second := true, who := "t1" }
  | true => { first := true, second := false, who := "t2" }

/-- Both threads hold their first lock, which is the deadlock without timeouts. -/
theorem two_threads_can_complete :
    ∃ s, run (step twoThreads) start [false, true] = some s ∧
      (s.phase false = .holdsFirst ∧ s.phase true = .holdsFirst) ∧
      ∃ more finish, run (step twoThreads) s more = some finish ∧
        (∀ i, finish.phase i = .finished ∧ finish.completed (twoThreads i).who = true) ∧
        ∀ lock, finish.locked lock = false := by
  refine ⟨_, rfl, ⟨rfl, rfl⟩, ?_⟩
  have distinct : ∀ i, (twoThreads i).first ≠ (twoThreads i).second := by decide
  exact (trylock_can_complete distinct [false, true] rfl).2.2.2

end Excalibur.Deadlock.TryLock
