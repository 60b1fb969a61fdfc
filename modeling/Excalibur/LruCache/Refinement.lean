import Excalibur.LruCache.Cache

/-! # The linked cache refines the abstract one

`Represents c nodes` is the representation invariant: the nodes are chained
between the two sentinels and the dictionary leads each key to the one node that
carries it.  Every splice sequence is first reduced to a statement about the
chain; the simulation then only compares lists.
-/

namespace Excalibur.LruCache

open Excalibur.Library Excalibur.Python

/-! ## Splices -/

section Splices

variable {α : Type} {h : Heap α}

theorem remove_eq {p r n : Ref} (prev : (h.cell r).prev = some p) (next : (h.cell r).next = some n)
    (other : p ≠ r) : remove h r = .ok (h.unlink p n) := by
  simp [remove, target, prev, next, other.symm, Heap.unlink, bind, Except.bind, pure, Except.pure]

theorem pushFront_eq {head r b : Ref} (next : (h.cell head).next = some b) (other : r ≠ head) :
    pushFront h head r = .ok (h.insertBetween head r b) := by
  simp [pushFront, target, next, other.symm, Heap.insertBetween, bind, Except.bind, pure,
    Except.pure]

/-- What a sequence of splices keeps: payloads and allocation. -/
structure SameItems (h h' : Heap α) : Prop where
  item : ∀ r, (h'.cell r).item = (h.cell r).item
  fresh : h'.fresh = h.fresh

theorem remove_linked {head tail r : Ref} {before after : List Ref}
    (linked : h.Linked (head :: (before ++ r :: after ++ [tail])))
    (distinct : (head :: (before ++ r :: after ++ [tail])).Nodup) :
    ∃ h', remove h r = .ok h' ∧ h'.Linked (head :: (before ++ after ++ [tail])) ∧
      SameItems h h' := by
  obtain ⟨p, n, prev, next, other, unlinked⟩ := linked.exists_neighbours distinct
  exact ⟨h.unlink p n, remove_eq prev next other, unlinked, ⟨by simp, rfl⟩⟩

theorem pushFront_linked {head tail r : Ref} {nodes : List Ref}
    (linked : h.Linked (head :: (nodes ++ [tail]))) (distinct : (head :: (nodes ++ [tail])).Nodup)
    (outside : r ∉ head :: (nodes ++ [tail])) :
    ∃ h', pushFront h head r = .ok h' ∧ h'.Linked (head :: (r :: nodes ++ [tail])) ∧
      SameItems h h' := by
  obtain ⟨b, rest, split⟩ : ∃ b rest, nodes ++ [tail] = b :: rest :=
    List.exists_cons_of_ne_nil (by simp)
  rw [split] at linked distinct outside
  have next := (Heap.linked_cons_cons.mp linked).1.1
  have other : r ≠ head := fun same => outside (by simp [same])
  refine ⟨h.insertBetween head r b, pushFront_eq next other, ?_, ⟨by simp, rfl⟩⟩
  rw [List.cons_append, split]
  exact linked.insertBetween distinct outside

theorem moveToFront_linked {head tail r : Ref} {before after : List Ref}
    (linked : h.Linked (head :: (before ++ r :: after ++ [tail])))
    (distinct : (head :: (before ++ r :: after ++ [tail])).Nodup) :
    ∃ h₁ h₂, remove h r = .ok h₁ ∧ pushFront h₁ head r = .ok h₂ ∧
      h₂.Linked (head :: (r :: (before ++ after) ++ [tail])) ∧ SameItems h h₂ := by
  obtain ⟨h₁, removed, unlinked, same₁⟩ := remove_linked linked distinct
  have reordered : (head :: (before ++ r :: after ++ [tail])).Perm
      (r :: head :: (before ++ after ++ [tail])) := by
    refine .trans (.cons head ?_) (.swap r head _)
    simp only [List.append_assoc, List.cons_append]
    exact List.perm_middle
  obtain ⟨outside, distinctRest⟩ := List.nodup_cons.mp (reordered.nodup_iff.mp distinct)
  obtain ⟨h₂, pushed, relinked, same₂⟩ := pushFront_linked unlinked distinctRest outside
  refine ⟨h₁, h₂, removed, pushed, relinked, ⟨fun s => ?_, ?_⟩⟩
  · rw [same₂.item, same₁.item]
  · rw [same₂.fresh, same₁.fresh]

end Splices

/-! ## The representation -/

section Refinement

variable {κ β : Type}

def contents (h : Heap (Entry κ β)) (nodes : List Ref) : List (κ × β) :=
  nodes.map fun r => ((h.cell r).item.key, (h.cell r).item.value)

theorem contents_append (h : Heap (Entry κ β)) (before after : List Ref) :
    contents h (before ++ after) = contents h before ++ contents h after :=
  List.map_append

theorem contents_congr {h h' : Heap (Entry κ β)} {nodes : List Ref}
    (same : ∀ r ∈ nodes, (h'.cell r).item = (h.cell r).item) :
    contents h' nodes = contents h nodes := by
  apply List.map_congr_left
  intro r member
  rw [same r member]

variable [DecidableEq κ]

/-- The nodes of the list, most recent first. -/
structure Represents (c : LRUCache κ β) (nodes : List Ref) : Prop where
  linked : c.heap.Linked (c.head :: (nodes ++ [c.tail]))
  distinct : (c.head :: (nodes ++ [c.tail])).Nodup
  allocated : ∀ r ∈ c.head :: (nodes ++ [c.tail]), r < c.heap.fresh
  mapped : ∀ key r, c.map.lookup key = some r ↔ r ∈ nodes ∧ (c.heap.cell r).item.key = key
  sized : len c.map = nodes.length

/-- The cache carries the pairs of the abstract cache, in its order, and has its
    counters. -/
structure Simulates (c : LRUCache κ β) (m : LruModel κ β) : Prop where
  represented : ∃ nodes, Represents c nodes ∧ contents c.heap nodes = m.items
  capacity : c.capacity = m.capacity
  hits : c.hits = m.hits
  misses : c.misses = m.misses
  evictions : c.evictions = m.evictions

theorem Represents.absent {c : LRUCache κ β} {nodes : List Ref} (rep : Represents c nodes)
    {key : κ} (absent : c.map.lookup key = none) : (contents c.heap nodes).lookup key = none := by
  apply List.lookup_eq_none_iff.mpr
  intro item member
  obtain ⟨r, inNodes, rfl⟩ := List.mem_map.mp member
  have other : key ≠ (c.heap.cell r).item.key := fun same => by
    have found := (rep.mapped key r).mpr ⟨inNodes, same.symm⟩
    simp [absent] at found
  simpa using other

/-- Where a key leads, the list splits at its node. -/
theorem Represents.present {c : LRUCache κ β} {nodes : List Ref} (rep : Represents c nodes)
    {key : κ} {r : Ref} (found : c.map.lookup key = some r) :
    ∃ before after, nodes = before ++ r :: after ∧ (c.heap.cell r).item.key = key ∧
      (contents c.heap nodes).lookup key = some (c.heap.cell r).item.value := by
  obtain ⟨member, carries⟩ := (rep.mapped key r).mp found
  obtain ⟨before, after, rfl⟩ := List.append_of_mem member
  refine ⟨before, after, rfl, carries, ?_⟩
  refine List.lookup_eq_some_iff.mpr ⟨contents c.heap before, contents c.heap after, ?_, ?_⟩
  · simp [contents, carries]
  · intro item inBefore
    obtain ⟨s, sBefore, rfl⟩ := List.mem_map.mp inBefore
    have other : key ≠ (c.heap.cell s).item.key := fun same => by
      -- A second node with the key would be the one the dictionary leads to.
      have again := (rep.mapped key s).mpr ⟨by simp [sBefore], same.symm⟩
      cases found.symm.trans again
      have distinct := (List.nodup_cons.mp rep.distinct).2
      simp [List.nodup_append] at distinct
      exact (distinct.2.2 r sBefore).1 rfl
    simpa using other

/-! ## What the operations do to the representation -/

theorem Represents.move {c : LRUCache κ β} {before after : List Ref} {r : Ref}
    (rep : Represents c (before ++ r :: after)) {h : Heap (Entry κ β)}
    (linked : h.Linked (c.head :: (r :: (before ++ after) ++ [c.tail])))
    (keys : ∀ s, (h.cell s).item.key = (c.heap.cell s).item.key) (fresh : h.fresh = c.heap.fresh)
    (hits : Nat) : Represents { c with heap := h, hits := hits } (r :: (before ++ after)) := by
  have reordered : (before ++ r :: after).Perm (r :: (before ++ after)) := List.perm_middle
  have whole := (reordered.append_right [c.tail]).cons c.head
  refine ⟨linked, whole.nodup_iff.mp rep.distinct, fun s member => ?_, fun key s => ?_, ?_⟩
  · simp only [fresh]
    exact rep.allocated s (whole.mem_iff.mpr member)
  · simp only [keys]
    rw [rep.mapped key s, reordered.mem_iff]
  · rw [← reordered.length_eq]
    exact rep.sized

theorem Represents.push {c : LRUCache κ β} {nodes : List Ref} (rep : Represents c nodes) {key : κ}
    (absent : c.map.lookup key = none) (value : β) {h : Heap (Entry κ β)}
    (linked : h.Linked (c.head :: (c.heap.fresh :: nodes ++ [c.tail])))
    (same : SameItems (c.heap.alloc ⟨key, value⟩).2 h) :
    Represents { c with map := c.map.insert key c.heap.fresh, heap := h }
      (c.heap.fresh :: nodes) := by
  have reordered : (c.head :: (c.heap.fresh :: nodes ++ [c.tail])).Perm
      (c.heap.fresh :: c.head :: (nodes ++ [c.tail])) := .swap _ _ _
  have unallocated : c.heap.fresh ∉ c.head :: (nodes ++ [c.tail]) := fun member =>
    lt_irrefl _ (rep.allocated _ member)
  have oldItem : ∀ s ∈ nodes, (h.cell s).item = (c.heap.cell s).item := fun s member => by
    rw [same.item, Heap.alloc_cell_of_lt _ _ (rep.allocated s (by simp [member]))]
  refine ⟨linked, ?_, fun s member => ?_, fun other s => ?_, ?_⟩
  · exact reordered.nodup_iff.mpr (List.nodup_cons.mpr ⟨unallocated, rep.distinct⟩)
  · simp only [same.fresh, Heap.alloc_fresh]
    rcases List.mem_cons.mp (reordered.mem_iff.mp member) with rfl | old
    · exact Nat.lt_succ_self _
    · exact Nat.lt_succ_of_lt (rep.allocated s old)
  -- the dictionary leads to the new node under the new key, and as before otherwise
  · have newItem : (h.cell c.heap.fresh).item = ⟨key, value⟩ := by
      rw [same.item, Heap.alloc_cell_fresh]
    have onOld : s ∈ nodes → ((h.cell s).item.key = other ↔ c.map.lookup other = some s) := by
      intro member
      rw [rep.mapped other s, oldItem s member]
      simp [member]
    rw [List.mem_cons]
    rcases eq_or_ne other key with rfl | different
    · rw [AList.lookup_insert, Option.some.injEq]
      constructor
      · intro same
        subst same
        exact ⟨.inl rfl, by rw [newItem]⟩
      · rintro ⟨rfl | member, carries⟩
        · rfl
        -- an old node with the new key would have been found
        · simp [(onOld member).mp carries] at absent
    · rw [AList.lookup_insert_ne different]
      constructor
      · intro found
        have member := ((rep.mapped other s).mp found).1
        exact ⟨.inr member, (onOld member).mpr found⟩
      · rintro ⟨rfl | member, carries⟩
        · rw [newItem] at carries
          exact absurd carries.symm different
        · exact (onOld member).mp carries
  · rw [len_insert_of_absent absent, rep.sized, List.length_cons]

theorem Represents.evict {c : LRUCache κ β} {before : List Ref} {r : Ref}
    (rep : Represents c (before ++ [r])) {h : Heap (Entry κ β)}
    (linked : h.Linked (c.head :: (before ++ [c.tail]))) (same : SameItems c.heap h)
    (evictions : Nat) :
    Represents
      { c with map := c.map.erase (c.heap.cell r).item.key, heap := h, evictions := evictions }
      before := by
  have smaller : (c.head :: (before ++ [c.tail])).Sublist
      (c.head :: (before ++ [r] ++ [c.tail])) := by simp
  have distinct := (List.nodup_cons.mp rep.distinct).2
  have foundR : c.map.lookup (c.heap.cell r).item.key = some r :=
    (rep.mapped _ r).mpr ⟨by simp, rfl⟩
  refine ⟨linked, rep.distinct.sublist smaller, fun s member => ?_, fun key s => ?_, ?_⟩
  · simp only [same.fresh]
    exact rep.allocated s (smaller.subset member)
  · simp only [same.item]
    rcases eq_or_ne key (c.heap.cell r).item.key with rfl | different
    · simp only [AList.lookup_erase, reduceCtorEq, false_iff, not_and]
      intro member carries
      -- The dictionary leads to one node per key, and `r` is not in `before`.
      have found := (rep.mapped _ s).mpr ⟨by simp [member], carries⟩
      cases foundR.symm.trans found
      simp [List.nodup_append] at distinct
      exact (distinct.2.2 r member).1 rfl
    · rw [AList.lookup_erase_ne different, rep.mapped key s]
      simp only [List.mem_append, List.mem_singleton]
      constructor
      · rintro ⟨member | rfl, carries⟩
        · exact ⟨member, carries⟩
        · exact absurd carries.symm different
      · rintro ⟨member, carries⟩
        exact ⟨.inl member, carries⟩
  · have shorter := len_erase_of_present foundR
    have sized := rep.sized
    simp only [List.length_append, List.length_singleton] at sized
    simp only
    omega

/-! ## The simulation -/

/-- What a split of the list means for the abstract items. -/
theorem Simulates.touch {c : LRUCache κ β} {m : LruModel κ β} {before after : List Ref} {r : Ref}
    (items : contents c.heap (before ++ r :: after) = m.items) {h : Heap (Entry κ β)}
    (others : ∀ s ∈ before ++ after, (h.cell s).item = (c.heap.cell s).item)
    {key : κ} (carried : (c.heap.cell r).item.key = key) (carries : (h.cell r).item.key = key) :
    contents h (r :: (before ++ after)) = touch m.items key (h.cell r).item.value := by
  have split : m.items = contents c.heap before ++
      (key, (c.heap.cell r).item.value) :: contents c.heap after := by
    rw [← items, contents_append]
    simp [contents, carried]
  have distinct := m.distinct
  rw [split] at distinct
  rw [split, touch_of_split distinct, ← contents_append, ← contents_congr others]
  simp [contents, carries]

theorem get_simulates {c : LRUCache κ β} {m : LruModel κ β} (simulates : Simulates c m) (key : κ)
    (default : β) :
    ∃ next, get c key default = .ok ((m.get key default).1, next) ∧
      Simulates next (m.get key default).2 := by
  obtain ⟨⟨nodes, rep, items⟩, capacity, hits, misses, evictions⟩ := simulates
  unfold get
  cases found : c.map.lookup key with
  | none =>
    -- A miss changes a counter and nothing else.
    have absent := rep.absent found
    rw [items] at absent
    rw [LruModel.get_absent absent]
    refine ⟨_, rfl, ⟨nodes, ?_, items⟩, capacity, hits, ?_, evictions⟩
    · exact ⟨rep.linked, rep.distinct, rep.allocated, rep.mapped, rep.sized⟩
    · simp [misses]
  | some r =>
    -- A hit splits the list at its node, which both sides move to the front.
    obtain ⟨before, after, rfl, carries, present⟩ := rep.present found
    rw [items] at present
    obtain ⟨distinct, bounded, answered⟩ := LruModel.get_present present default
    obtain ⟨h₁, h₂, removed, pushed, linked, same⟩ := moveToFront_linked rep.linked rep.distinct
    simp only [removed, pushed, bind, Except.bind, pure, Except.pure, same.item, answered]
    refine ⟨_, rfl, ⟨r :: (before ++ after), ?_, ?_⟩, capacity, ?_, misses, evictions⟩
    · exact rep.move linked (fun s => by rw [same.item]) same.fresh (c.hits + 1)
    · have moved := Simulates.touch items (fun s _ => same.item s) carries (by rw [same.item, carries])
      rw [same.item] at moved
      exact moved
    · simp [hits]

theorem put_present_simulates {c : LRUCache κ β} {m : LruModel κ β} (simulates : Simulates c m)
    {key : κ} (value : β) {r : Ref} (found : c.map.lookup key = some r) :
    ∃ next, put c key value = .ok next ∧ Simulates next (m.put key value) := by
  obtain ⟨⟨nodes, rep, items⟩, capacity, hits, misses, evictions⟩ := simulates
  obtain ⟨before, after, rfl, carries, present⟩ := rep.present found
  rw [items] at present
  obtain ⟨distinct, bounded, answered⟩ := LruModel.put_present present value
  obtain ⟨h₁, h₂, removed, pushed, linked, same⟩ := moveToFront_linked
    (rep.linked.setItem r ⟨(c.heap.cell r).item.key, value⟩) rep.distinct
  have written : (h₂.cell r).item = ⟨(c.heap.cell r).item.key, value⟩ := by
    rw [same.item, Heap.setItem_item, if_pos rfl]
  -- Only the value of the node itself is written.
  have unwritten : ∀ s, s ≠ r → (h₂.cell s).item = (c.heap.cell s).item := fun s other => by
    rw [same.item, Heap.setItem_item, if_neg other]
  have keys : ∀ s, (h₂.cell s).item.key = (c.heap.cell s).item.key := fun s => by
    rcases eq_or_ne s r with rfl | other
    · rw [written]
    · rw [unwritten s other]
  simp only [put, found, removed, pushed, bind, Except.bind, pure, Except.pure, answered]
  refine ⟨_, rfl, ⟨r :: (before ++ after), ?_, ?_⟩, capacity, hits, misses, evictions⟩
  · exact rep.move linked keys same.fresh c.hits
  · have others : ∀ s ∈ before ++ after, (h₂.cell s).item = (c.heap.cell s).item := by
      intro s member
      apply unwritten s
      intro same
      subst same
      have middle : (before ++ s :: after).Nodup := by
        have whole := (List.nodup_cons.mp rep.distinct).2
        exact (List.nodup_append.mp whole).1
      exact (List.nodup_cons.mp (List.nodup_middle.mp middle)).1 member
    have moved := Simulates.touch items others carries (by rw [written, carries])
    rw [written] at moved
    exact moved

/-- Inserting a new node, and evicting the last one when the cache is over its capacity. -/
theorem put_absent_simulates {c : LRUCache κ β} {m : LruModel κ β} (simulates : Simulates c m)
    {key : κ} (value : β) (found : c.map.lookup key = none) :
    ∃ next, put c key value = .ok next ∧ Simulates next (m.put key value) := by
  obtain ⟨⟨nodes, rep, items⟩, capacity, hits, misses, evictions⟩ := simulates
  have absent := rep.absent found
  rw [items] at absent
  have unallocated : c.heap.fresh ∉ c.head :: (nodes ++ [c.tail]) := fun member =>
    lt_irrefl _ (rep.allocated _ member)
  obtain ⟨h, pushed, linked, same⟩ := pushFront_linked
    (rep.linked.alloc rep.allocated ⟨key, value⟩) rep.distinct unallocated
  -- With the new node in front the list represents one pair more, maybe one too many.
  have rep' := rep.push found value linked same
  have items' : contents h (c.heap.fresh :: nodes) = (key, value) :: m.items := by
    have oldItem : ∀ s ∈ nodes, (h.cell s).item = (c.heap.cell s).item := fun s member => by
      rw [same.item, Heap.alloc_cell_of_lt _ _ (rep.allocated s (by simp [member]))]
    have newItem : (h.cell c.heap.fresh).item = ⟨key, value⟩ := by
      rw [same.item, Heap.alloc_cell_fresh]
    rw [← items, ← contents_congr oldItem]
    simp [contents, newItem]
  have length : len (c.map.insert key c.heap.fresh) = ((key, value) :: m.items).length := by
    rw [rep'.sized, ← items', contents, List.length_map]
  simp only [put, found, Heap.alloc_ref, pushed, bind, Except.bind, pure, Except.pure, length]
  by_cases full : c.capacity < (((key, value) :: m.items).length : Int)
  · obtain ⟨distinct, bounded, answered⟩ := LruModel.put_full absent (capacity ▸ full)
    obtain ⟨before, lru, split⟩ : ∃ before lru, c.heap.fresh :: nodes = before ++ [lru] := by
      simpa using List.eq_nil_or_concat (c.heap.fresh :: nodes)
    rw [split] at rep' items'
    -- The node before the tail sentinel is the last one.
    have ending : h.Linked ((c.head :: before) ++ [lru, c.tail]) := by simpa using rep'.linked
    have last := ending.last_prev
    obtain ⟨h', removed, unlinked, same'⟩ : ∃ h', remove h lru = .ok h' ∧
        h'.Linked (c.head :: (before ++ [] ++ [c.tail])) ∧ SameItems h h' :=
      remove_linked rep'.linked rep'.distinct
    rw [List.append_nil] at unlinked
    have leads : (c.map.insert key c.heap.fresh).lookup (h.cell lru).item.key = some lru :=
      (rep'.mapped _ lru).mpr ⟨by simp, rfl⟩
    have deleted : delItem (c.map.insert key c.heap.fresh) (h.cell lru).item.key =
        .ok ((c.map.insert key c.heap.fresh).erase (h.cell lru).item.key) := by
      rw [delItem, if_pos]
      rw [← AList.lookup_isSome, leads]
      rfl
    simp only [if_pos full, last, target, removed, same'.item, deleted, answered]
    refine ⟨_, rfl, ⟨before, rep'.evict unlinked same' (c.evictions + 1), ?_⟩, capacity, hits,
      misses, ?_⟩
    · have pairs : contents h' before = contents h before :=
        contents_congr fun s _ => same'.item s
      rw [contents_append] at items'
      simp only [pairs, ← items']
      simp [contents]
    · simp [evictions]
  · obtain ⟨distinct, bounded, answered⟩ := LruModel.put_fits absent (capacity ▸ not_lt.mp full)
    rw [if_neg full, answered]
    exact ⟨_, rfl, ⟨_, rep', items'⟩, capacity, hits, misses, evictions⟩

theorem forward : Forward (call (κ := κ) (β := β)) LruModel.answer Simulates := by
  intro c m request simulates
  cases request with
  | get key default =>
    obtain ⟨next, got, related⟩ := get_simulates simulates key default
    refine ⟨next, ?_, related⟩
    simp [call, got, bind, Except.bind, pure, Except.pure, LruModel.answer]
  | put key value =>
    obtain ⟨next, done, related⟩ : ∃ next, put c key value = .ok next ∧
        Simulates next (m.put key value) := by
      cases found : c.map.lookup key with
      | none => exact put_absent_simulates simulates value found
      | some r => exact put_present_simulates simulates value found
    refine ⟨next, ?_, related⟩
    simp [call, done, bind, Except.bind, pure, Except.pure, LruModel.answer]

theorem init_simulates (noneKey : κ) (noneValue : β) {capacity : Int} (positive : 0 < capacity) :
    ∃ c, init noneKey noneValue capacity = .ok c ∧
      Simulates c (LruModel.init capacity positive) := by
  refine ⟨_, if_pos positive, ⟨[], ⟨?_, ?_, ?_, ?_, rfl⟩, rfl⟩, rfl, rfl, rfl, rfl⟩
  · exact Heap.linked_cons_cons.mpr ⟨⟨by simp [Heap.empty], by simp⟩, List.isChain_singleton _⟩
  · simp [Heap.empty]
  · simp [Heap.empty]
  · simp

/-- Every sequence of calls on a new cache returns what the abstract cache
    answers and leaves a heap that carries its list and counters. -/
theorem lru_cache_refines_model (noneKey : κ) (noneValue : β) (capacity : Int)
    (positive : 0 < capacity) (requests : List (Call κ β)) :
    ∃ new finish, init noneKey noneValue capacity = .ok new ∧
      calls call new requests =
        .ok ((answers LruModel.answer (LruModel.init capacity positive) requests).1, finish) ∧
      Simulates finish (answers LruModel.answer (LruModel.init capacity positive) requests).2 := by
  obtain ⟨new, created, start⟩ := init_simulates noneKey noneValue positive
  obtain ⟨finish, returned, related⟩ := forward.calls start requests
  exact ⟨new, finish, created, returned, related⟩

/-- With capacity 2, a hit on `a` makes `b` the pair that `c` pushes out. -/
theorem lru_cache_evicts_least_recently_used :
    ∃ new finish, init 'z' none 2 = .ok new ∧
      calls call new [.put 'a' (some 1), .put 'b' (some 2), .get 'a' none, .put 'c' (some 3),
        .get 'b' none, .get 'a' none] =
        .ok ([none, none, some (some 1), none, some none, some (some 1)], finish) ∧
      finish.evictions = 1 := by
  obtain ⟨new, finish, created, returned, related⟩ := lru_cache_refines_model 'z' (none : Option Nat)
    2 (by decide) [.put 'a' (some 1), .put 'b' (some 2), .get 'a' none, .put 'c' (some 3),
      .get 'b' none, .get 'a' none]
  exact ⟨new, finish, created, returned, related.evictions⟩

end Refinement

end Excalibur.LruCache
