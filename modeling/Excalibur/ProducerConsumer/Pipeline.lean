import Excalibur.Library.Crew

/-! # The threads of the pipelines

`run_with_raw_buffer` and `run_with_stdlib_queue` start the same threads on two
buffers.  Here are the threads and what they keep, whatever the buffer: `Conserves`
relates them to the items held between the effect of a `put` and that of a `get`.
-/

namespace Excalibur.ProducerConsumer

open Excalibur.Library

/-- What the buffer holds: a produced number, or the pill `_DONE`. -/
inductive Item where
  | number (n : Nat)
  | done
  deriving Repr, DecidableEq

namespace Item

def isDone : Item → Bool
  | .number _ => false
  | .done => true

def value : Item → Option Nat
  | .number n => some n
  | .done => none

end Item

/-- Where the main thread is: joining the `k`-th producer, putting the `k`-th pill,
    or joining the `k`-th consumer. -/
inductive Main where
  | joining (k : Nat)
  | stopping (k : Nat)
  | awaiting (k : Nat)
  | returned
  deriving Repr, DecidableEq

inductive Thread where
  | producer (pid : Nat)
  | consumer (id : Nat)
  | main
  deriving Repr, DecidableEq

/-- `producers` has the number of items that each producer has put; `entered`
    records the order in which items enter the buffer. -/
structure Threads where
  perProducer : Nat
  producers : List Nat
  main : Main
  consumers : Crew Item
  consumed : List Nat
  entered : List Item
  deriving Repr, DecidableEq

namespace Threads

def start (numProducers numConsumers perProducer : Nat) : Threads :=
  { perProducer := perProducer, producers := List.replicate numProducers 0, main := .joining 0,
    consumers := .assemble numConsumers, consumed := [], entered := [] }

/-- The item of the `put` that a thread has come to. -/
def pending (t : Threads) : Thread → Option Item
  | .producer pid =>
    match t.producers[pid]? with
    | some i => if i < t.perProducer then some (.number (pid * t.perProducer + i)) else none
    | none => none
  | .consumer _ => none
  | .main =>
    match t.main with
    | .stopping k => if k < t.consumers.members.length then some .done else none
    | _ => none

/-- A thread after its `put(item)` has taken effect. -/
def putReturns (t : Threads) (item : Item) : Thread → Threads
  | .producer pid =>
    { t with producers := t.producers.modify pid (· + 1), entered := t.entered ++ [item] }
  | .consumer _ => t
  | .main =>
    match t.main with
    | .stopping k => { t with main := .stopping (k + 1), entered := t.entered ++ [item] }
    | _ => t

/-- Consumer `id` after its `get` has taken `item`. -/
def getReturns (t : Threads) (id : Nat) (item : Item) : Option Threads :=
  (t.consumers.take id item).map fun consumers => { t with consumers := consumers }

/-- Consumer `id` tests its item for `_DONE` and appends a number to `consumed`. -/
def consume (t : Threads) (id : Nat) : Option Threads :=
  (t.consumers.handle id).map fun (item, consumers) =>
    { t with consumers := consumers, consumed := t.consumed ++ item.value.toList }

/-- Consumer `id` goes back to its `get`, or returns after `_DONE`. -/
def loop (t : Threads) (id : Nat) : Option Threads :=
  (t.consumers.finish Item.isDone id).map fun consumers => { t with consumers := consumers }

/-- The main thread moves on without a `put`. -/
def advance (t : Threads) : Option Threads :=
  match t.main with
  | .joining k =>
    match t.producers[k]? with
    | some i => if i < t.perProducer then none else some { t with main := .joining (k + 1) }
    | none => some { t with main := .stopping 0 }
  | .stopping k =>
    if k < t.consumers.members.length then none else some { t with main := .awaiting 0 }
  | .awaiting k =>
    match t.consumers.members[k]? with
    | some (.gone _) => some { t with main := .awaiting (k + 1) }
    | some _ => none
    | none => some { t with main := .returned }
  | .returned => none

def Exited (t : Threads) : Prop :=
  ∀ member ∈ t.consumers.members, ∃ item, member = .gone item

end Threads

theorem consumers_putReturns (t : Threads) (item : Item) (thread : Thread) :
    (t.putReturns item thread).consumers = t.consumers := by
  cases thread with
  | producer pid => rfl
  | consumer id => rfl
  | main =>
    simp only [Threads.putReturns]
    split <;> rfl

/-- What `advance` leaves as it is. -/
theorem advance_keeps {t next : Threads} (advanced : t.advance = some next) :
    next.consumers = t.consumers ∧ next.producers = t.producers ∧
      next.perProducer = t.perProducer := by
  unfold Threads.advance at advanced
  split at advanced
  · split at advanced
    · split at advanced
      · cases advanced
      · cases advanced
        exact ⟨rfl, rfl, rfl⟩
    · cases advanced
      exact ⟨rfl, rfl, rfl⟩
  · split at advanced
    · cases advanced
    · cases advanced
      exact ⟨rfl, rfl, rfl⟩
  · split at advanced
    · cases advanced
      exact ⟨rfl, rfl, rfl⟩
    · cases advanced
    · cases advanced
      exact ⟨rfl, rfl, rfl⟩
  · cases advanced

theorem getReturns_of_idle {t : Threads} {id : Nat} (idle : t.consumers.members[id]? = some .idle)
    (item : Item) : ∃ next, t.getReturns id item = some next := by
  rw [Threads.getReturns, Crew.take_eq_some.mpr ⟨idle, rfl⟩]
  exact ⟨_, rfl⟩

/-! ## What the threads keep -/

namespace Main

/-- The producers known to have finished. -/
def joined (numProducers : Nat) : Main → Nat
  | .joining k => k
  | _ => numProducers

def pills (numConsumers : Nat) : Main → Nat
  | .joining _ => 0
  | .stopping k => k
  | _ => numConsumers

end Main

/-- The items `buf` are those between the threads' puts and gets: each number is
    entered once, when its producer comes to it, and pills come after all numbers. -/
structure Conserves (numProducers numConsumers perProducer : Nat) (t : Threads)
    (buf : List Item) : Prop where
  per : t.perProducer = perProducer
  crewSize : t.consumers.members.length = numConsumers
  accounts : t.consumers.Accounts Item.isDone
  fifo : t.entered = t.consumers.taken.map Prod.snd ++ buf
  pillsLast : ∃ numbers : List Nat,
    t.entered = numbers.map .number ++ List.replicate (t.main.pills numConsumers) .done
  once : ∀ n, t.entered.count (.number n) =
    if n % perProducer < t.producers.getD (n / perProducer) 0 then 1 else 0
  producerCount : t.producers.length = numProducers
  quota : ∀ pid i : Nat, t.producers[pid]? = some i → i ≤ perProducer
  joined : ∀ pid i : Nat, t.producers[pid]? = some i → pid < t.main.joined numProducers → i = perProducer
  pillsLe : t.main.pills numConsumers ≤ numConsumers
  recorded : t.consumed = t.consumers.handled.filterMap Item.value

section Keeping

variable {numProducers numConsumers perProducer : Nat} {t next : Threads} {buf : List Item}

theorem conserves_start (numProducers numConsumers perProducer : Nat) :
    Conserves numProducers numConsumers perProducer
      (.start numProducers numConsumers perProducer) [] := by
  refine ⟨rfl, ?_, Crew.accounts_assemble _ _, rfl, ⟨[], rfl⟩, ?_, ?_, ?_, ?_, ?_, rfl⟩
  · simp [Threads.start, Crew.assemble]
  · intro n
    simp [Threads.start]
  · simp [Threads.start]
  · intro pid i found
    simp only [Threads.start, List.getElem?_replicate] at found
    split at found
    · cases found
      exact Nat.zero_le _
    · cases found
  · intro pid i _ early
    simp [Threads.start, Main.joined] at early
  · simp [Threads.start, Main.pills]

theorem conserves_getReturns {id : Nat} {item : Item}
    (conserves : Conserves numProducers numConsumers perProducer t (item :: buf))
    (got : t.getReturns id item = some next) :
    Conserves numProducers numConsumers perProducer next buf := by
  obtain ⟨consumers, took, rfl⟩ := Option.map_eq_some_iff.mp got
  have accounts := Crew.accounts_take conserves.accounts took
  obtain ⟨-, rfl⟩ := Crew.take_eq_some.mp took
  refine { conserves with crewSize := ?_, accounts := accounts, fifo := ?_ }
  · simpa using conserves.crewSize
  · simpa using conserves.fifo

theorem conserves_consume {id : Nat}
    (conserves : Conserves numProducers numConsumers perProducer t buf)
    (consumed : t.consume id = some next) :
    Conserves numProducers numConsumers perProducer next buf := by
  obtain ⟨⟨item, consumers⟩, handled, rfl⟩ := Option.map_eq_some_iff.mp consumed
  have accounts := Crew.accounts_handle conserves.accounts handled
  obtain ⟨-, rfl⟩ := Crew.handle_eq_some.mp handled
  refine { conserves with crewSize := ?_, accounts := accounts, recorded := ?_ }
  · simpa using conserves.crewSize
  · rw [List.filterMap_append, ← conserves.recorded]
    cases item with
    | number n => rfl
    | done => rfl

theorem conserves_loop {id : Nat}
    (conserves : Conserves numProducers numConsumers perProducer t buf)
    (looped : t.loop id = some next) :
    Conserves numProducers numConsumers perProducer next buf := by
  obtain ⟨consumers, finished, rfl⟩ := Option.map_eq_some_iff.mp looped
  have accounts := Crew.accounts_finish conserves.accounts finished
  obtain ⟨item, -, rfl⟩ := Crew.finish_eq_some.mp finished
  refine { conserves with crewSize := ?_, accounts := accounts }
  simpa using conserves.crewSize

/-- A producer with something left to put is not joined, so no pill is in yet. -/
theorem no_pills_of_producing {pid i : Nat}
    (conserves : Conserves numProducers numConsumers perProducer t buf)
    (found : t.producers[pid]? = some i) (more : i < perProducer) :
    t.main.pills numConsumers = 0 ∧ ¬ pid < t.main.joined numProducers := by
  have notJoined : ¬ pid < t.main.joined numProducers := by
    intro early
    have finished := conserves.joined pid i found early
    omega
  have inside : pid < numProducers := by
    rw [← conserves.producerCount]
    exact (List.getElem?_eq_some_iff.mp found).1
  refine ⟨?_, notJoined⟩
  cases main : t.main with
  | joining k => rfl
  | stopping k => exact absurd (by rw [main]; exact inside) notJoined
  | awaiting k => exact absurd (by rw [main]; exact inside) notJoined
  | returned => exact absurd (by rw [main]; exact inside) notJoined

theorem conserves_produce {pid i : Nat}
    (conserves : Conserves numProducers numConsumers perProducer t buf)
    (found : t.producers[pid]? = some i) (more : i < perProducer) :
    Conserves numProducers numConsumers perProducer
      (t.putReturns (.number (pid * perProducer + i)) (.producer pid))
      (buf ++ [.number (pid * perProducer + i)]) := by
  obtain ⟨noPills, notJoined⟩ := no_pills_of_producing conserves found more
  have changed (other : Nat) : (t.producers.modify pid (· + 1))[other]? =
      if pid = other then some (i + 1) else t.producers[other]? := by
    rw [List.getElem?_modify]
    by_cases same : pid = other
    · simp [← same, found]
    · simp [same]
  -- of the ledger, only the row of this producer changes
  refine { conserves with
    fifo := ?_, pillsLast := ?_, once := ?_, producerCount := ?_, quota := ?_, joined := ?_ }
  · show t.entered ++ _ = t.consumers.taken.map Prod.snd ++ (buf ++ _)
    rw [conserves.fifo, List.append_assoc]
  · obtain ⟨numbers, entered⟩ := conserves.pillsLast
    refine ⟨numbers ++ [pid * perProducer + i], ?_⟩
    show t.entered ++ _ = _ ++ List.replicate (t.main.pills numConsumers) Item.done
    rw [entered, noPills]
    simp
  · intro n
    show (t.entered ++ _).count _ = if _ < (t.producers.modify pid (· + 1)).getD _ 0 then 1 else 0
    rw [List.count_append, conserves.once n, List.getD, List.getD, changed]
    by_cases same : pid * perProducer + i = n
    · -- The number entered is the next one of its producer.
      have quotient : n / perProducer = pid := by
        rw [← same, Nat.mul_comm, Nat.mul_add_div (by omega), Nat.div_eq_of_lt more, Nat.add_zero]
      have remainder : n % perProducer = i := by
        rw [← same, Nat.mul_comm, Nat.mul_add_mod, Nat.mod_eq_of_lt more]
      simp [quotient, remainder, found, same]
    · by_cases sameProducer : pid = n / perProducer
      · have remainder : n % perProducer ≠ i := by
          intro equal
          apply same
          rw [sameProducer, ← equal, Nat.mul_comm]
          exact Nat.div_add_mod n perProducer
        rw [if_pos sameProducer, ← sameProducer, found]
        have sooner : n % perProducer < i ↔ n % perProducer < i + 1 := by omega
        simp [same, sooner]
      · simp [same, sameProducer]
  · show (t.producers.modify pid (· + 1)).length = numProducers
    rw [List.length_modify, conserves.producerCount]
  · intro other j foundOther
    have foundNext := (changed other).symm.trans foundOther
    split at foundNext
    · cases foundNext
      exact more
    · exact conserves.quota other j foundNext
  · intro other j foundOther early
    have foundNext := (changed other).symm.trans foundOther
    split at foundNext
    · rename_i same
      -- a producer that still produces has not been joined
      exact absurd (same ▸ early) notJoined
    · exact conserves.joined other j foundNext early

theorem conserves_pill {k : Nat}
    (conserves : Conserves numProducers numConsumers perProducer t buf)
    (stopping : t.main = .stopping k) (more : k < numConsumers) :
    Conserves numProducers numConsumers perProducer (t.putReturns .done .main)
      (buf ++ [.done]) := by
  have put : t.putReturns .done .main =
      { t with main := .stopping (k + 1), entered := t.entered ++ [.done] } := by
    simp [Threads.putReturns, stopping]
  have joined := conserves.joined
  have pillsLast := conserves.pillsLast
  rw [stopping] at joined pillsLast
  rw [put]
  -- a pill is no number, so every count stays as it is
  refine { conserves with
    fifo := ?_, pillsLast := ?_, once := ?_, joined := joined, pillsLe := more }
  · rw [conserves.fifo, List.append_assoc]
  · obtain ⟨numbers, entered⟩ := pillsLast
    refine ⟨numbers, ?_⟩
    show t.entered ++ [Item.done] = _ ++ List.replicate (k + 1) Item.done
    rw [entered, List.append_assoc, List.replicate_succ']
    rfl
  · intro n
    rw [List.count_append, conserves.once n]
    simp

theorem conserves_put {thread : Thread} {item : Item}
    (conserves : Conserves numProducers numConsumers perProducer t buf)
    (pending : t.pending thread = some item) :
    Conserves numProducers numConsumers perProducer (t.putReturns item thread)
      (buf ++ [item]) := by
  cases thread with
  | producer pid =>
    simp only [Threads.pending] at pending
    split at pending
    · rename_i i found
      split at pending
      · rename_i more
        cases pending
        rw [conserves.per] at more ⊢
        exact conserves_produce conserves found more
      · cases pending
    · cases pending
  | consumer id => cases pending
  | main =>
    simp only [Threads.pending] at pending
    split at pending
    · rename_i k stopping
      split at pending
      · rename_i more
        cases pending
        rw [conserves.crewSize] at more
        exact conserves_pill conserves stopping more
      · cases pending
    · cases pending

theorem conserves_advance (conserves : Conserves numProducers numConsumers perProducer t buf)
    (advanced : t.advance = some next) :
    Conserves numProducers numConsumers perProducer next buf := by
  have joined := conserves.joined
  have pillsLast := conserves.pillsLast
  have pillsLe := conserves.pillsLe
  unfold Threads.advance at advanced
  split at advanced
  · rename_i k main
    rw [main] at joined pillsLast
    split at advanced
    · rename_i i found
      split at advanced
      · cases advanced
      · rename_i finished
        cases advanced
        refine { conserves with joined := ?_, pillsLast := pillsLast, pillsLe := Nat.zero_le _ }
        intro pid j foundOther early
        -- `join` has returned for producer `k`, which has used up its quota
        obtain before | same : pid < k ∨ pid = k := Nat.lt_succ_iff_lt_or_eq.mp early
        · exact joined pid j foundOther before
        · have quota := conserves.quota pid j foundOther
          have equal : j = i := Option.some.inj (foundOther.symm.trans (same ▸ found))
          rw [conserves.per] at finished
          omega
    · rename_i beyond
      cases advanced
      refine { conserves with joined := ?_, pillsLast := pillsLast, pillsLe := Nat.zero_le _ }
      intro pid i found _
      -- the last producer has been joined
      apply joined pid i found
      have inside := (List.getElem?_eq_some_iff.mp found).1
      have outside := List.getElem?_eq_none_iff.mp beyond
      exact Nat.lt_of_lt_of_le inside outside
  · rename_i k main
    rw [main] at joined pillsLast pillsLe
    split at advanced
    · cases advanced
    · rename_i all
      cases advanced
      rw [conserves.crewSize] at all
      have every : k = numConsumers := Nat.le_antisymm pillsLe (Nat.not_lt.mp all)
      refine { conserves with joined := joined, pillsLast := ?_, pillsLe := Nat.le_refl _ }
      exact every ▸ pillsLast
  · rename_i k main
    rw [main] at joined pillsLast pillsLe
    split at advanced
    · cases advanced
      exact { conserves with joined := joined, pillsLast := pillsLast, pillsLe := pillsLe }
    · cases advanced
    · cases advanced
      exact { conserves with joined := joined, pillsLast := pillsLast, pillsLe := pillsLe }
  · cases advanced

/-! ## At rest and at the end -/

/-- No thread can move without a `get`, and no consumer waits for one. -/
theorem exited_of_resting (resting : ∀ id, t.consume id = none ∧ t.loop id = none)
    (nobodyWaits : ∀ id : Nat, t.consumers.members[id]? ≠ some Member.idle) : t.Exited := by
  intro member inCrew
  have rests : ∀ id, t.consumers.handle id = none ∧ t.consumers.finish Item.isDone id = none := by
    intro id
    exact ⟨Option.map_eq_none_iff.mp (resting id).1, Option.map_eq_none_iff.mp (resting id).2⟩
  obtain rfl | gone := Crew.rest_or_gone rests inCrew
  · obtain ⟨id, found⟩ := List.mem_iff_getElem?.mp inCrew
    exact absurd found (nobodyWaits id)
  · exact gone

/-- The pills that consumers have taken. -/
theorem pills_taken (conserves : Conserves numProducers numConsumers perProducer t buf) :
    (t.consumers.departures Item.isDone).length + buf.countP Item.isDone =
      t.main.pills numConsumers := by
  obtain ⟨numbers, entered⟩ := conserves.pillsLast
  have departed := conserves.accounts.departed.length_eq
  have noNumbers : (numbers.map Item.number).countP Item.isDone = 0 := by
    rw [List.countP_map]
    simp [Function.comp_def, Item.isDone]
  have onlyPills : (List.replicate (t.main.pills numConsumers) Item.done).countP Item.isDone =
      t.main.pills numConsumers := by
    rw [List.countP_replicate]
    rfl
  rw [← departed, ← List.countP_eq_length_filter, ← List.countP_append, ← conserves.fifo, entered,
    List.countP_append, noNumbers, onlyPills, Nat.zero_add]

/-- With the buffer empty, nobody about to put and the main thread blocked, every
    consumer has been given its pill. -/
theorem nobody_waits_of_quiet
    (conserves : Conserves numProducers numConsumers perProducer t [])
    (noPut : ∀ thread, t.pending thread = none) (blocked : t.advance = none) (id : Nat) :
    t.consumers.members[id]? ≠ some Member.idle := by
  have all : t.main.pills numConsumers = numConsumers := by
    cases main : t.main with
    | joining k =>
      exfalso
      -- the producer that is joined would have to be about to put
      simp only [Threads.advance, main] at blocked
      split at blocked
      · rename_i i found
        split at blocked
        · rename_i more
          have producing := noPut (.producer k)
          simp [Threads.pending, found, more] at producing
        · cases blocked
      · cases blocked
    | stopping k =>
      exfalso
      -- and while it sends pills the main thread is about to put itself
      simp only [Threads.advance, main] at blocked
      split at blocked
      · rename_i more
        have stopping := noPut .main
        simp [Threads.pending, main, more] at stopping
      · cases blocked
    | awaiting k => rfl
    | returned => rfl
  have taken := pills_taken conserves
  rw [all, List.countP_nil, Nat.add_zero, ← conserves.crewSize] at taken
  exact Crew.not_idle_of_departures taken id

theorem count_value (items : List Item) (n : Nat) :
    (items.filterMap Item.value).count n = items.count (.number n) := by
  induction items with
  | nil => rfl
  | cons item items ih =>
    cases item with
    | number m =>
      show (m :: items.filterMap Item.value).count n = _
      rw [List.count_cons, List.count_cons, ih]
      simp
    | done =>
      show (items.filterMap Item.value).count n = _
      rw [List.count_cons, ih]
      simp

theorem all_pills (conserves : Conserves numProducers numConsumers perProducer t buf)
    (exited : t.Exited) :
    t.main.pills numConsumers = numConsumers ∧ buf.countP Item.isDone = 0 := by
  have taken := pills_taken conserves
  have departed := Crew.departures_of_gone Item.isDone exited
  have pillsLe := conserves.pillsLe
  rw [departed, conserves.crewSize] at taken
  omega

/-- Pills come last, so an item still held after the last consumer left would be one. -/
theorem empty_of_exited (some : 1 ≤ numConsumers)
    (conserves : Conserves numProducers numConsumers perProducer t buf) (exited : t.Exited) :
    buf = [] := by
  obtain ⟨all, noPill⟩ := all_pills conserves exited
  obtain ⟨numbers, entered⟩ := conserves.pillsLast
  obtain ⟨fewer, rfl⟩ := Nat.exists_eq_add_of_le' some
  rw [all, List.replicate_succ', ← List.append_assoc, conserves.fifo] at entered
  apply eq_nil_of_last_taken entered
  intro left
  exact List.countP_eq_zero.mp noPill _ left rfl

theorem one_pill_each (conserves : Conserves numProducers numConsumers perProducer t buf)
    (exited : t.Exited) {id : Nat} (inside : id < numConsumers) :
    (t.consumers.takenBy id).count .done = 1 := by
  rw [← conserves.crewSize] at inside
  obtain ⟨item, gone⟩ := exited _ (List.getElem_mem inside)
  have own := conserves.accounts.own id
  rw [List.getElem?_eq_getElem inside, gone] at own
  have isPill : item.isDone = true :=
    conserves.accounts.left item (gone ▸ List.getElem_mem inside)
  have counted : (t.consumers.takenBy id).countP Item.isDone = 1 := by
    rw [List.countP_eq_length_filter, own]
    rfl
  rw [← counted]
  apply List.countP_congr
  intro other _
  cases other with
  | number n => simp [Item.isDone]
  | done => simp [Item.isDone]

theorem consumed_perm (some : 1 ≤ numConsumers)
    (conserves : Conserves numProducers numConsumers perProducer t buf) (exited : t.Exited) :
    t.consumed.Perm (List.range (numProducers * perProducer)) := by
  have handled : t.consumed.Perm (t.entered.filterMap Item.value) := by
    rw [conserves.recorded, conserves.fifo, empty_of_exited some conserves exited, List.append_nil]
    exact ((conserves.accounts.handled_of_gone exited).filterMap _).symm
  have finished (pid : Nat) : t.producers.getD pid 0 = if pid < numProducers then perProducer else 0 := by
    have joined : t.main.joined numProducers = numProducers := by
      have all := (all_pills conserves exited).1
      cases main : t.main with
      | joining k =>
        rw [main] at all
        simp only [Main.pills] at all
        omega
      | stopping k => rfl
      | awaiting k => rfl
      | returned => rfl
    by_cases inside : pid < numProducers
    · rw [if_pos inside]
      rw [← conserves.producerCount] at inside
      have found := List.getElem?_eq_getElem inside
      rw [List.getD, found]
      exact conserves.joined pid _ found (by rw [joined, ← conserves.producerCount]; exact inside)
    · rw [if_neg inside, List.getD, List.getElem?_eq_none (by rw [conserves.producerCount]; omega)]
      rfl
  -- number `n` is entered by producer `n / perProducer`, once it is finished
  refine handled.trans (List.perm_iff_count.mpr ?_)
  intro n
  rw [count_value, conserves.once n, finished, List.nodup_range.count]
  simp only [List.mem_range]
  by_cases positive : 0 < perProducer
  · have quotient : n / perProducer < numProducers ↔ n < numProducers * perProducer :=
      Nat.div_lt_iff_lt_mul positive
    have remainder := Nat.mod_lt n positive
    by_cases inside : n / perProducer < numProducers
    · simp [inside, remainder, quotient.mp inside]
    · have outside : ¬ n < numProducers * perProducer := fun less => inside (quotient.mpr less)
      simp [inside, outside]
  · have zero : perProducer = 0 := by omega
    simp [zero]

end Keeping

/-! ## The self-verification -/

/-- The assertions on the numbers consumed, with their messages. -/
def verify (consumed : List Nat) (numProducers perProducer : Nat) (label : String) :
    Except String Unit :=
  if consumed.length ≠ consumed.toFinset.card then
    .error (label ++ ": duplicate items detected!")
  else if consumed.toFinset ≠ Finset.range (numProducers * perProducer) then
    .error (label ++ ": lost or extra items detected!")
  else if consumed.length ≠ numProducers * perProducer then
    .error (label ++ ": count mismatch")
  else .ok ()

/-- The assertions pass exactly for the orders in which every number is consumed once. -/
theorem verify_eq_ok_iff {consumed : List Nat} {numProducers perProducer : Nat} {label : String} :
    verify consumed numProducers perProducer label = .ok () ↔
      consumed.Perm (List.range (numProducers * perProducer)) := by
  have noDuplicates : consumed.length = consumed.toFinset.card ↔ consumed.Nodup := by
    rw [eq_comm]
    exact Multiset.toFinset_card_eq_card_iff_nodup (m := (consumed : Multiset Nat))
  constructor
  · intro passed
    unfold verify at passed
    -- the three assertions: no duplicates, nothing lost or extra, the right count
    split_ifs at passed with duplicates others count
    have nodup := noDuplicates.mp (not_not.mp duplicates)
    apply (List.perm_ext_iff_of_nodup nodup List.nodup_range).mpr
    intro n
    rw [← List.mem_toFinset, not_not.mp others, Finset.mem_range, List.mem_range]
  · intro perm
    have nodup : consumed.Nodup := perm.nodup_iff.mpr List.nodup_range
    have same : consumed.toFinset = Finset.range (numProducers * perProducer) := by
      ext n
      rw [List.mem_toFinset, perm.mem_iff, List.mem_range, Finset.mem_range]
    have count : consumed.length = numProducers * perProducer := by
      rw [perm.length_eq, List.length_range]
    unfold verify
    rw [if_neg (not_not.mpr (noDuplicates.mpr nodup)), if_neg (not_not.mpr same),
      if_neg (not_not.mpr count)]

end Excalibur.ProducerConsumer
