import Mathlib

/-! # Greedy admission

Requests come one after the other and are admitted or refused for good.  A law says which
requests may be admitted after a history of answered ones, and it is monotone when a history
with fewer admissions, counted from any point on, allows whatever one with more allows.
Under such a law nobody gets further than who admits whatever the law allows.
-/

namespace Excalibur.Library

variable {α : Type*}

/-- How many of the answered requests were admitted. -/
def admissions (entries : List (α × Bool)) : Nat := entries.countP Prod.snd

theorem admissions_append (first second : List (α × Bool)) :
    admissions (first ++ second) = admissions first + admissions second :=
  List.countP_append

@[simp] theorem admissions_singleton (request : α) (answer : Bool) :
    admissions [(request, answer)] = answer.toNat := by
  cases answer <;> rfl

/-- The requests `calls` under a law that depends on how many were admitted lately. -/
def MonotoneLaw (calls : List α) (law : List (α × Bool) → α → Prop) : Prop :=
  ∀ more fewer request, more.map Prod.fst = fewer.map Prod.fst →
    more.map Prod.fst ++ [request] <+: calls →
    (∀ start, admissions (fewer.drop start) ≤ admissions (more.drop start)) →
    law more request → law fewer request

/-- An entry between those before it and those after it. -/
theorem split_at {entries : List (α × Bool)} {n : Nat} (inside : n < entries.length) :
    entries = entries.take n ++ (entries[n].1, entries[n].2) :: entries.drop (n + 1) := by
  rw [Prod.mk.eta, List.cons_getElem_drop_succ, List.take_append_drop]

theorem admissions_take_succ {entries : List (α × Bool)} {n : Nat} (inside : n < entries.length) :
    admissions (entries.take (n + 1)) = admissions (entries.take n) + entries[n].2.toNat := by
  rw [List.take_succ_eq_append_getElem inside, admissions_append]
  exact congrArg _ (admissions_singleton _ _)

theorem admissions_take_of_le (entries : List (α × Bool)) {start n : Nat} (within : start ≤ n) :
    admissions (entries.take n) =
      admissions (entries.take start) + admissions ((entries.take n).drop start) := by
  have first : (entries.take n).take start = entries.take start := by
    rw [List.take_take, min_eq_left within]
  rw [← first, ← admissions_append, List.take_append_drop]

/-- At every point, who admits whatever the law allows has admitted the most. -/
theorem greedy_is_ahead {law : List (α × Bool) → α → Prop} {greedy other : List (α × Bool)}
    (monotone : MonotoneLaw (other.map Prod.fst) law)
    (same : greedy.map Prod.fst = other.map Prod.fst)
    (admits : ∀ before request answer after, greedy = before ++ (request, answer) :: after →
      law before request → answer = true)
    (obeys : ∀ before request after, other = before ++ (request, true) :: after →
      law before request) (n : Nat) :
    admissions (other.take n) ≤ admissions (greedy.take n) := by
  have lengths : greedy.length = other.length := by
    simpa using congrArg List.length same
  induction n using Nat.strong_induction_on with
  | _ n ih =>
    cases n with
    | zero => simp
    | succ n =>
      by_cases inside : n < other.length
      · have insideGreedy : n < greedy.length := by omega
        have before := ih n (Nat.lt_succ_self n)
        rw [admissions_take_succ inside, admissions_take_succ insideGreedy]
        by_cases behind : admissions (other.take n) < admissions (greedy.take n)
        · have atMost : other[n].2.toNat ≤ 1 := Bool.toNat_le _
          omega
        -- They are level.  If the other admits, its recent admissions are at least those of
        -- the greedy one, so that the law allows the request there too.
        · cases answer : other[n].2 with
          | false =>
            simp only [Bool.toNat_false]
            omega
          | true =>
            have otherSplit := split_at inside
            rw [answer] at otherSplit
            have request : other[n].1 = greedy[n].1 := by
              have atN := congrArg (·[n]?) same
              simpa [inside, insideGreedy] using atN.symm
            have allowed := obeys _ _ _ otherSplit
            have fewer : ∀ start, admissions ((greedy.take n).drop start) ≤
                admissions ((other.take n).drop start) := by
              intro start
              by_cases within : start ≤ n
              · have earlier := ih start (by omega)
                have greedySum := admissions_take_of_le greedy within
                have otherSum := admissions_take_of_le other within
                omega
              · rw [List.drop_eq_nil_of_le (by simp; omega)]
                exact Nat.zero_le _
            have prefixes : (other.take n).map Prod.fst = (greedy.take n).map Prod.fst := by
              rw [List.map_take, List.map_take, same]
            have upToHere : (other.take n).map Prod.fst ++ [other[n].1] <+: other.map Prod.fst := by
              rw [← List.map_singleton (f := Prod.fst), ← List.map_append,
                ← List.take_succ_eq_append_getElem inside]
              exact (List.take_prefix _ _).map _
            have allowedGreedy := monotone _ _ _ prefixes upToHere fewer allowed
            rw [request] at allowedGreedy
            rw [admits _ _ _ _ (split_at insideGreedy) allowedGreedy]
            simp only [Bool.toNat_true]
            omega
      · rw [List.take_of_length_le (by omega), List.take_of_length_le (by omega)]
        have whole := ih n (Nat.lt_succ_self n)
        rwa [List.take_of_length_le (by omega), List.take_of_length_le (by omega)] at whole

end Excalibur.Library
