import Excalibur.Backends.InflightCount
import Excalibur.Library.Amortized

/-! # Ejected members

The health loop writes `healthy` and `_select` reads it without the lock, so a request can
still go to a member that has just failed its probe: a thread may have listed it before.
Nothing else can happen: each of these threads gives the member one request at most, and no
thread lists it again before a probe succeeds.
-/

namespace Excalibur.Backends

open Excalibur.Library Excalibur.Python

/-- Whether the thread may still pick member `i` from the list it has made. -/
def Handler.lists (i : Nat) : Handler → Bool
  | .choosing healthy => decide (i ∈ healthy)
  | _ => false

/-- Whether its next step gives member `i` the request. -/
def Handler.picks (i : Nat) (p : ReverseProxy) : Handler → Bool
  | .choosing healthy => decide ((p.pick healthy).1 = some i)
  | _ => false

namespace Traffic

/-- Whether the step gives member `i` a request. -/
def selects (i : Nat) (s : Traffic) : Move → Bool
  | .proceed h => s.handlers[h]?.any (Handler.picks i s.proxy)
  | _ => false

/-- How many threads may still pick member `i`. -/
def listing (s : Traffic) (i : Nat) : Nat := s.handlers.countP (Handler.lists i)

variable {s next : Traffic} {move : Move} {i : Nat}

section Health

variable {p : ReverseProxy} {handler moved : Handler} {proxy : ReverseProxy}

theorem healthy_setInflight (j : Nat) (inflight : Int) :
    i ∈ (p.setInflight j inflight).healthyMembers ↔ i ∈ p.healthyMembers := by
  simp only [ReverseProxy.mem_healthyMembers, ReverseProxy.setInflight, List.getElem?_modify]
  by_cases same : j = i
  · cases p.members[i]? <;> simp [same]
  · simp [same]

/-- No step of a thread changes who is healthy. -/
theorem healthy_proceed (proceeds : handler.proceed p = some (moved, proxy)) :
    i ∈ proxy.healthyMembers ↔ i ∈ p.healthyMembers := by
  cases handler with
  | choosing healthy =>
    cases proceeds
    simp only [ReverseProxy.mem_healthyMembers, (p.pick_kept healthy).1]
  | raising j seen =>
    cases proceeds
    exact healthy_setInflight j (seen + 1)
  | lowering j seen =>
    cases proceeds
    exact healthy_setInflight j (seen - 1)
  | gone => cases proceeds
  | _ =>
    cases proceeds
    exact Iff.rfl

theorem healthy_probe {j : Nat} {ok : Bool} (spared : j = i → ok = false)
    (ejected : i ∉ p.healthyMembers) : i ∉ (p.probe j ok).healthyMembers := by
  by_cases same : j = i
  · subst same
    simp [ReverseProxy.mem_healthyMembers, ReverseProxy.probe, spared rfl]
  · rwa [ReverseProxy.mem_healthyMembers, ReverseProxy.probe_other same,
      ← ReverseProxy.mem_healthyMembers]

end Health

theorem ejected_step (stepped : s.step move = some next) (down : move ≠ .probe i true)
    (ejected : i ∉ s.proxy.healthyMembers) : i ∉ next.proxy.healthyMembers := by
  obtain ⟨j, ok, rfl, rfl⟩ | ⟨h, handler, moved, proxy, -, -, proceeds, rfl⟩ |
    ⟨h, handler, moved, -, -, -, rfl⟩ := step_cases stepped
  · apply healthy_probe _ ejected
    rintro rfl
    simpa using down
  · exact fun back => ejected ((healthy_proceed proceeds).mp back)
  · exact ejected

/-- A thread that picks an ejected member has listed it, and nobody lists it now. -/
theorem lists_proceed {p proxy : ReverseProxy} {handler moved : Handler}
    (proceeds : handler.proceed p = some (moved, proxy)) (ejected : i ∉ p.healthyMembers) :
    (handler.picks i p).toNat + (moved.lists i).toNat ≤ (handler.lists i).toNat := by
  cases handler with
  | reading =>
    simp only [Handler.proceed, Option.some.injEq, Prod.mk.injEq] at proceeds
    rw [← proceeds.1]
    split
    · exact Nat.zero_le _
    · simp [Handler.picks, Handler.lists, ejected]
  | choosing healthy =>
    simp only [Handler.proceed, Option.some.injEq, Prod.mk.injEq] at proceeds
    have dropped : moved.lists i = false := by
      rw [← proceeds.1]
      cases (p.pick healthy).1 <;> rfl
    by_cases picked : (p.pick healthy).1 = some i
    · rw [dropped]
      simp [Handler.lists, Handler.picks, picked, ReverseProxy.mem_of_pick picked]
    · rw [dropped]
      simp [Handler.picks, picked]
  | gone => cases proceeds
  | _ =>
    cases proceeds
    exact le_refl _

theorem lists_fail {handler moved : Handler} (fails : handler.fail = some moved) :
    moved.lists i = false := by
  cases handler with
  | reading =>
    cases fails
    rfl
  | proxying j =>
    cases fails
    rfl
  | _ => cases fails

theorem listing_step (stepped : s.step move = some next) (ejected : i ∉ s.proxy.healthyMembers) :
    (selects i s move).toNat + next.listing i ≤ s.listing i := by
  obtain ⟨j, ok, rfl, rfl⟩ | ⟨h, handler, moved, proxy, rfl, found, proceeds, rfl⟩ |
    ⟨h, handler, moved, rfl, found, fails, rfl⟩ := step_cases stepped
  · exact (Nat.zero_add _).le
  · have moves := countP_set_add found moved (Handler.lists i)
    have fewer := lists_proceed proceeds ejected
    have asNat : ∀ b : Bool, (if b then 1 else 0) = b.toNat := by decide
    simp only [asNat] at moves
    simp only [selects, found, Option.any_some, listing]
    omega
  · have moves := countP_set_add found moved (Handler.lists i)
    simp only [lists_fail fails, Bool.false_eq_true, if_false] at moves
    simp only [selects, listing, Bool.toNat_false, Nat.zero_add]
    omega

/-- In any state and under any interleaving: until a probe of an ejected member succeeds, it
    is given no more requests than threads had listed it, and fewer by those that could
    still pick it. -/
theorem ejected_member_is_drained {s finish : Traffic} {moves : List Move} {i : Nat}
    (ejected : i ∉ s.proxy.healthyMembers) (goes : run step s moves = some finish)
    (down : .probe i true ∉ moves) :
    countTaken step (selects i) s moves + finish.listing i ≤ s.listing i := by
  have comes : ∀ state move, Taken step s moves state move → move ≠ .probe i true := by
    rintro state move ⟨first, last, -, rfl, -⟩ rfl
    exact down (by simp)
  have stays : ∀ state, Visited step s moves state → i ∉ state.proxy.healthyMembers :=
    visited_induction ejected fun state move next taken stepped before =>
      ejected_step stepped (comes state move taken) before
  have pays : ∀ state move, Taken step s moves state move → ∀ next, step state move = some next →
      (selects i state move).toNat + next.listing i ≤
        state.listing i + 0 * ((fun _ _ => false : Traffic → Move → Bool) state move).toNat := by
    intro state move taken next stepped
    simpa using listing_step stepped (stays state taken.visited)
  simpa using countTaken_add_le (fun state => state.listing i) 0 goes pays

/-- Both threads have listed both members when member 1 fails its probe. -/
def justEjected : Traffic where
  proxy := (ReverseProxy.init 2 (lit "round_robin")).probe 1 false
  handlers := [.choosing [0, 1], .choosing [0, 1], .reading]

def afterEjection : List Move :=
  [.proceed 0, .probe 1 false, .proceed 2, .proceed 2, .proceed 1]

theorem justEjected_is_drained :
    (∃ finish, run step justEjected afterEjection = some finish ∧
      countTaken step (selects 1) justEjected afterEjection + finish.listing 1 ≤
        justEjected.listing 1) ∧
      countTaken step (selects 1) justEjected afterEjection = 2 :=
  ⟨⟨_, rfl, ejected_member_is_drained (by decide) rfl (by decide)⟩, by decide⟩

end Traffic

end Excalibur.Backends
