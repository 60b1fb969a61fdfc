import Mathlib

/-! # Crews

A crew is a fixed list of members.  Each of them takes a message, handles it,
finishes it and comes back for the next one, or leaves for good when the message is
of the kind `leaves`.  `Accounts` says that no message is lost or handled twice
whatever the order of the members' steps: what was taken was handled or is in a
member's hands, and the members that left, or are about to, took one leaving message
each, and no others.
-/

namespace Excalibur.Library

open scoped List

/-! ## Replacing an element -/

theorem exists_split_of_getElem? {α : Type*} {l : List α} {i : Nat} {old : α}
    (found : l[i]? = some old) :
    ∃ before after, l = before ++ old :: after ∧ before.length = i ∧
      ∀ new, l.set i new = before ++ new :: after := by
  obtain ⟨inside, rfl⟩ := List.getElem?_eq_some_iff.mp found
  refine ⟨l.take i, l.drop (i + 1), ?_, ?_, ?_⟩
  · simp
  · simp [Nat.le_of_lt inside]
  · intro new
    rw [List.set_eq_take_append_cons_drop, if_pos inside]

theorem countP_set_add {α : Type*} {l : List α} {i : Nat} {old : α} (found : l[i]? = some old)
    (new : α) (f : α → Bool) :
    (l.set i new).countP f + (if f old then 1 else 0) = l.countP f + if f new then 1 else 0 := by
  obtain ⟨before, after, split, -, replaced⟩ := exists_split_of_getElem? found
  rw [replaced, split, List.countP_append, List.countP_append, List.countP_cons, List.countP_cons]
  omega

section Collected

variable {α β : Type*} {l : List α} {i : Nat} {old new : α} {f : α → Option β} {value : β}

theorem collected_same (found : l[i]? = some old) (same : f new = f old) :
    (l.set i new).filterMap f = l.filterMap f := by
  obtain ⟨before, after, split, -, replaced⟩ := exists_split_of_getElem? found
  rw [replaced, split, List.filterMap_append, List.filterMap_append, List.filterMap_cons,
    List.filterMap_cons, same]

theorem collected_more (found : l[i]? = some old) (nothing : f old = none)
    (something : f new = some value) :
    ((l.set i new).filterMap f).Perm (value :: l.filterMap f) := by
  obtain ⟨before, after, split, -, replaced⟩ := exists_split_of_getElem? found
  rw [replaced, split, List.filterMap_append, List.filterMap_append,
    List.filterMap_cons_some something, List.filterMap_cons_none nothing]
  exact List.perm_middle

theorem collected_less (found : l[i]? = some old) (something : f old = some value)
    (nothing : f new = none) :
    (l.filterMap f).Perm (value :: (l.set i new).filterMap f) := by
  obtain ⟨before, after, split, -, replaced⟩ := exists_split_of_getElem? found
  rw [replaced, split, List.filterMap_append, List.filterMap_append,
    List.filterMap_cons_some something, List.filterMap_cons_none nothing]
  exact List.perm_middle

end Collected

/-- Nothing is left of a list behind its last element. -/
theorem eq_nil_of_last_taken {α : Type*} {taken items front : List α} {last : α}
    (split : taken ++ items = front ++ [last]) (notLeft : last ∉ items) : items = [] := by
  obtain rfl | ⟨others, final, rfl⟩ := List.eq_nil_or_concat items
  · rfl
  · rw [List.concat_eq_append, ← List.append_assoc] at split
    obtain ⟨-, same⟩ := List.append_inj' split rfl
    rw [List.singleton_inj.mp same] at notLeft
    exact absurd (by simp) notLeft

/-! ## Members -/

inductive Member (μ : Type*) where
  | idle
  | holding (message : μ)
  | finishing (message : μ)
  | gone (message : μ)
  deriving Repr, DecidableEq

namespace Member

variable {μ : Type*}

/-- A message taken and not handled yet. -/
def held : Member μ → Option μ
  | .holding message => some message
  | _ => none

/-- A message not finished yet. -/
def working : Member μ → Option μ
  | .holding message => some message
  | .finishing message => some message
  | _ => none

/-- The message on which the member leaves or has left. -/
def leaving (leaves : μ → Bool) : Member μ → Option μ
  | .idle => none
  | .holding message => if leaves message then some message else none
  | .finishing message => if leaves message then some message else none
  | .gone message => some message

theorem leaving_holding (leaves : μ → Bool) (message : μ) :
    ((Member.holding message).leaving leaves).toList = [message].filter leaves := by
  by_cases goes : leaves message = true
  · simp [leaving, goes]
  · simp [leaving, goes]

end Member

/-- `taken` and `handled` record which member took what and what was handled. -/
structure Crew (μ : Type*) where
  members : List (Member μ)
  taken : List (Nat × μ)
  handled : List μ
  deriving Repr, DecidableEq

namespace Crew

variable {μ : Type*}

def assemble (size : Nat) : Crew μ :=
  { members := List.replicate size .idle, taken := [], handled := [] }

/-- Member `i` takes a message. -/
def take (c : Crew μ) (i : Nat) (message : μ) : Option (Crew μ) :=
  match c.members[i]? with
  | some .idle =>
    some { c with
      members := c.members.set i (.holding message), taken := c.taken ++ [(i, message)] }
  | _ => none

/-- Member `i` handles the message it holds. -/
def handle (c : Crew μ) (i : Nat) : Option (μ × Crew μ) :=
  match c.members[i]? with
  | some (.holding message) =>
    some (message, { c with
      members := c.members.set i (.finishing message), handled := c.handled ++ [message] })
  | _ => none

/-- Member `i` is done with the message it has handled. -/
def finish (leaves : μ → Bool) (c : Crew μ) (i : Nat) : Option (Crew μ) :=
  match c.members[i]? with
  | some (.finishing message) =>
    some { c with
      members := c.members.set i (if leaves message then .gone message else .idle) }
  | _ => none

theorem take_eq_some {c next : Crew μ} {i : Nat} {message : μ} :
    c.take i message = some next ↔ c.members[i]? = some .idle ∧ next = { c with
      members := c.members.set i (.holding message), taken := c.taken ++ [(i, message)] } := by
  unfold take
  split
  · rename_i idle
    simp [idle, eq_comm]
  · rename_i busy
    constructor
    · intro impossible
      cases impossible
    · rintro ⟨idle, -⟩
      exact absurd idle busy

theorem handle_eq_some {c next : Crew μ} {i : Nat} {message : μ} :
    c.handle i = some (message, next) ↔ c.members[i]? = some (.holding message) ∧ next = { c with
      members := c.members.set i (.finishing message), handled := c.handled ++ [message] } := by
  unfold handle
  split
  · rename_i held found
    simp only [found, Option.some.injEq, Prod.mk.injEq, Member.holding.injEq]
    constructor
    · rintro ⟨rfl, rfl⟩
      exact ⟨rfl, rfl⟩
    · rintro ⟨rfl, rfl⟩
      exact ⟨rfl, rfl⟩
  · rename_i other
    constructor
    · intro impossible
      cases impossible
    · rintro ⟨holding, -⟩
      exact absurd holding (other message)

theorem finish_eq_some {leaves : μ → Bool} {c next : Crew μ} {i : Nat} :
    c.finish leaves i = some next ↔ ∃ message, c.members[i]? = some (.finishing message) ∧
      next = { c with
        members := c.members.set i (if leaves message then .gone message else .idle) } := by
  unfold finish
  split
  · rename_i message found
    simp only [found, Option.some.injEq, Member.finishing.injEq, exists_eq_left']
    exact eq_comm
  · rename_i other
    constructor
    · intro impossible
      cases impossible
    · rintro ⟨message, found, -⟩
      exact absurd found (other message)

/-! ## Accounts -/

/-- The messages taken and not handled. -/
def inHand (c : Crew μ) : List μ := c.members.filterMap Member.held

/-- The messages taken and not finished. -/
def inWork (c : Crew μ) : List μ := c.members.filterMap Member.working

/-- The messages on which members leave or have left. -/
def departures (leaves : μ → Bool) (c : Crew μ) : List μ :=
  c.members.filterMap (Member.leaving leaves)

/-- The messages that member `i` took. -/
def takenBy (c : Crew μ) (i : Nat) : List μ :=
  (c.taken.filter fun entry => entry.1 == i).map Prod.snd

theorem inWork_of_inHand {c : Crew μ} {message : μ} (inHand : message ∈ c.inHand) :
    message ∈ c.inWork := by
  obtain ⟨member, inCrew, held⟩ := List.mem_filterMap.mp inHand
  refine List.mem_filterMap.mpr ⟨member, inCrew, ?_⟩
  cases member with
  | holding => exact held
  | idle => cases held
  | finishing => cases held
  | gone => cases held

structure Accounts (leaves : μ → Bool) (c : Crew μ) : Prop where
  kept : (c.taken.map Prod.snd).Perm (c.handled ++ c.inHand)
  departed : ((c.taken.map Prod.snd).filter leaves).Perm (c.departures leaves)
  own : ∀ i, (c.takenBy i).filter leaves = (c.members[i]?.bind (Member.leaving leaves)).toList
  left : ∀ message, Member.gone message ∈ c.members → leaves message = true

theorem accounts_assemble (leaves : μ → Bool) (size : Nat) :
    (assemble size : Crew μ).Accounts leaves := by
  refine ⟨?_, ?_, ?_, ?_⟩
  · simp [assemble, inHand, List.filterMap_replicate, Member.held]
  · simp [assemble, departures, List.filterMap_replicate, Member.leaving]
  · intro i
    simp only [assemble, takenBy, List.getElem?_replicate]
    split
    · rfl
    · rfl
  · simp [assemble]

section Steps

variable {leaves : μ → Bool} {c next : Crew μ} {i : Nat} {message : μ}

theorem inHand_take (took : c.take i message = some next) :
    next.inHand.Perm (message :: c.inHand) := by
  obtain ⟨idle, rfl⟩ := take_eq_some.mp took
  exact collected_more idle rfl rfl

theorem inHand_handle (handled : c.handle i = some (message, next)) :
    c.inHand.Perm (message :: next.inHand) := by
  obtain ⟨holding, rfl⟩ := handle_eq_some.mp handled
  exact collected_less holding rfl rfl

theorem inHand_finish (finished : c.finish leaves i = some next) : next.inHand = c.inHand := by
  obtain ⟨message, finishing, rfl⟩ := finish_eq_some.mp finished
  apply collected_same finishing
  split <;> rfl

theorem inWork_take (took : c.take i message = some next) :
    next.inWork.Perm (message :: c.inWork) := by
  obtain ⟨idle, rfl⟩ := take_eq_some.mp took
  exact collected_more idle rfl rfl

theorem inWork_handle (handled : c.handle i = some (message, next)) : next.inWork = c.inWork := by
  obtain ⟨holding, rfl⟩ := handle_eq_some.mp handled
  exact collected_same holding rfl

theorem inWork_finish (finished : c.finish leaves i = some next) :
    ∃ message, c.inWork.Perm (message :: next.inWork) := by
  obtain ⟨message, finishing, rfl⟩ := finish_eq_some.mp finished
  refine ⟨message, collected_less finishing rfl ?_⟩
  split <;> rfl

theorem departures_take (took : c.take i message = some next) :
    (next.departures leaves).Perm ([message].filter leaves ++ c.departures leaves) := by
  obtain ⟨idle, rfl⟩ := take_eq_some.mp took
  by_cases leaving : leaves message = true
  · rw [List.filter_cons_of_pos leaving]
    exact collected_more idle rfl (by simp [Member.leaving, leaving])
  · rw [List.filter_cons_of_neg leaving]
    exact .of_eq (collected_same idle (by simp [Member.leaving, leaving]))

theorem departures_handle (handled : c.handle i = some (message, next)) :
    next.departures leaves = c.departures leaves := by
  obtain ⟨holding, rfl⟩ := handle_eq_some.mp handled
  exact collected_same holding rfl

theorem departures_finish (finished : c.finish leaves i = some next) :
    next.departures leaves = c.departures leaves := by
  obtain ⟨message, finishing, rfl⟩ := finish_eq_some.mp finished
  apply collected_same finishing
  by_cases leaving : leaves message = true
  · simp [Member.leaving, leaving]
  · simp [Member.leaving, leaving]

/-- Which messages a member leaves on, after one member changed. -/
theorem own_set {member : Member μ} {j : Nat} (inside : i < c.members.length) :
    ((c.members.set i member)[j]?.bind (Member.leaving leaves)) =
      if j = i then member.leaving leaves else c.members[j]?.bind (Member.leaving leaves) := by
  by_cases same : j = i
  · rw [if_pos same, same, List.getElem?_set_self inside]
    rfl
  · rw [if_neg same, List.getElem?_set_ne (Ne.symm same)]

theorem accounts_take (accounts : c.Accounts leaves) (took : c.take i message = some next) :
    next.Accounts leaves := by
  have departures : (next.departures leaves).Perm _ := departures_take took
  have inHand := inHand_take took
  obtain ⟨idle, rfl⟩ := take_eq_some.mp took
  have inside : i < c.members.length := (List.getElem?_eq_some_iff.mp idle).1
  refine ⟨?_, ?_, ?_, ?_⟩
  · rw [List.map_append, List.map_singleton]
    -- The message taken is the one now in hand.
    calc c.taken.map Prod.snd ++ [message]
      _ ~ message :: c.taken.map Prod.snd := List.perm_append_singleton _ _
      _ ~ message :: (c.handled ++ c.inHand) := accounts.kept.cons _
      _ ~ c.handled ++ message :: c.inHand := List.perm_middle.symm
      _ ~ _ := inHand.symm.append_left _
  · rw [List.map_append, List.filter_append, List.map_singleton]
    calc (c.taken.map Prod.snd).filter leaves ++ [message].filter leaves
      _ ~ [message].filter leaves ++ (c.taken.map Prod.snd).filter leaves :=
        List.perm_append_comm
      _ ~ [message].filter leaves ++ c.departures leaves := accounts.departed.append_left _
      _ ~ _ := departures.symm
  · intro j
    rw [own_set inside]
    by_cases same : j = i
    · have before := accounts.own i
      rw [idle] at before
      have mine : ({ c with
          members := c.members.set i (.holding message),
          taken := c.taken ++ [(i, message)] } : Crew μ).takenBy i = c.takenBy i ++ [message] := by
        simp [takenBy]
      rw [if_pos same, same, mine, List.filter_append, before, Member.leaving_holding]
      rfl
    · have before := accounts.own j
      rw [if_neg same, ← before]
      simp [takenBy, Ne.symm same]
  · intro other gone
    rcases List.mem_or_eq_of_mem_set gone with before | now
    · exact accounts.left other before
    · cases now

theorem accounts_handle (accounts : c.Accounts leaves)
    (handled : c.handle i = some (message, next)) : next.Accounts leaves := by
  have departures : next.departures leaves = _ := departures_handle handled
  have inHand := inHand_handle handled
  obtain ⟨holding, rfl⟩ := handle_eq_some.mp handled
  have inside : i < c.members.length := (List.getElem?_eq_some_iff.mp holding).1
  refine ⟨?_, ?_, ?_, ?_⟩
  -- The message moves from the hands to what was handled.
  · refine (accounts.kept.trans (inHand.append_left _)).trans ?_
    rw [List.append_assoc]
    exact .refl _
  · rw [departures]
    exact accounts.departed
  · intro j
    rw [own_set inside]
    by_cases same : j = i
    · have before := accounts.own i
      rw [holding] at before
      rw [if_pos same, same]
      exact before
    · rw [if_neg same]
      exact accounts.own j
  · intro other gone
    rcases List.mem_or_eq_of_mem_set gone with before | now
    · exact accounts.left other before
    · cases now

theorem accounts_finish (accounts : c.Accounts leaves) (finished : c.finish leaves i = some next) :
    next.Accounts leaves := by
  have departures := departures_finish finished
  have inHand := inHand_finish finished
  obtain ⟨message, finishing, rfl⟩ := finish_eq_some.mp finished
  have inside : i < c.members.length := (List.getElem?_eq_some_iff.mp finishing).1
  -- A member that has finished counts its message towards leaving as before.
  have leaving : (if leaves message then Member.gone message else .idle).leaving leaves =
      (Member.finishing message).leaving leaves := by
    by_cases goes : leaves message = true
    · simp [Member.leaving, goes]
    · simp [Member.leaving, goes]
  refine ⟨?_, ?_, ?_, ?_⟩
  · rw [inHand]
    exact accounts.kept
  · rw [departures]
    exact accounts.departed
  · intro j
    rw [own_set inside]
    by_cases same : j = i
    · have before := accounts.own i
      rw [finishing] at before
      rw [if_pos same, same, leaving]
      exact before
    · rw [if_neg same]
      exact accounts.own j
  · intro other gone
    rcases List.mem_or_eq_of_mem_set gone with before | now
    · exact accounts.left other before
    · by_cases goes : leaves message = true
      · rw [if_pos goes] at now
        cases now
        exact goes
      · rw [if_neg goes] at now
        cases now

end Steps

/-! ## Progress and completion -/

section Completion

variable {leaves : μ → Bool} {c : Crew μ}

theorem departures_le (leaves : μ → Bool) (c : Crew μ) :
    (c.departures leaves).length ≤ c.members.length :=
  List.length_filterMap_le _ _

/-- Once as many leaving messages are taken as there are members, no member comes
    back for another message. -/
theorem not_idle_of_departures (all : (c.departures leaves).length = c.members.length) (i : Nat) :
    c.members[i]? ≠ some .idle := by
  intro idle
  have some := List.filterMap_length_eq_length.mp all _ (List.mem_of_getElem? idle)
  cases some

/-- A crew that can neither handle nor finish anything holds nothing. -/
theorem rest_or_gone (resting : ∀ i, c.handle i = none ∧ c.finish leaves i = none)
    {member : Member μ} (inCrew : member ∈ c.members) :
    member = .idle ∨ ∃ message, member = .gone message := by
  obtain ⟨i, inside, rfl⟩ := List.getElem_of_mem inCrew
  have found := List.getElem?_eq_getElem inside
  cases member : c.members[i] with
  | idle => exact .inl rfl
  | holding message =>
    rw [member] at found
    have handles : c.handle i = some (message, _) := handle_eq_some.mpr ⟨found, rfl⟩
    simp [(resting i).1] at handles
  | finishing message =>
    rw [member] at found
    have finishes : c.finish leaves i = some _ := finish_eq_some.mpr ⟨message, found, rfl⟩
    simp [(resting i).2] at finishes
  | gone message => exact .inr ⟨message, rfl⟩

/-- Everything taken is handled when all members have left. -/
theorem Accounts.handled_of_gone (accounts : c.Accounts leaves)
    (gone : ∀ member ∈ c.members, ∃ message, member = .gone message) :
    (c.taken.map Prod.snd).Perm c.handled := by
  have nothing : c.inHand = [] := by
    rw [inHand, List.filterMap_eq_nil_iff]
    intro member inCrew
    obtain ⟨message, rfl⟩ := gone member inCrew
    rfl
  simpa [nothing] using accounts.kept

theorem departures_of_gone (leaves : μ → Bool)
    (gone : ∀ member ∈ c.members, ∃ message, member = .gone message) :
    (c.departures leaves).length = c.members.length := by
  apply List.filterMap_length_eq_length.mpr
  intro member inCrew
  obtain ⟨message, rfl⟩ := gone member inCrew
  rfl

end Completion

end Crew

end Excalibur.Library
