import KernelElevator.LinkRefinement
import KernelElevator.Leaks

/-!
# Clearing the building

`delete_passenger` on the links, whatever the lists hold.

* `Low.Cleared` — what it leaves: empty queues, those on board as they were, and of the records
  those that were in no queue.
* `deletePassenger_clears` — this it does in every memory that represents a state.
* `exists_represents` — and each state whose passengers have records of their own has one.
-/

namespace KernelElevator

open Ring (Mem Lists)

namespace Low

variable {l t : Low} {r : Option Int} {pos : Cell} {fuel : ℕ}

/-! ## What the bodies touch -/

theorem kfree_inv (h : l.kfree pos = some t) :
    l.mem.live pos = true ∧ t = { l with mem := l.mem.setLive pos false } := by
  cases pos with
  | record id =>
    obtain ⟨hlive, h⟩ := Option.ite_none_right_eq_some.1 h
    exact ⟨hlive, (Option.some.inj h).symm⟩
  | head place => exact absurd h (by simp [kfree])
  | poison1 => exact absurd h (by simp [kfree])
  | poison2 => exact absurd h (by simp [kfree])

theorem moveBody_inv (h : moveBody pos l = some (r, t)) :
    ∃ mem : Mem Cell, mem.live = l.mem.live ∧ t = { l with mem, count := l.count + 1 } := by
  obtain ⟨mem, hmem, h⟩ := Option.bind_eq_some_iff.1 h
  obtain ⟨-, rfl⟩ := Prod.mk.inj (Option.some.inj h)
  exact ⟨mem, Mem.listMoveTail_live hmem, rfl⟩

theorem freeBody_inv (h : freeBody pos l = some (r, t)) :
    ∃ mem : Mem Cell, mem.live = l.mem.live ∧ l.mem.live pos = true ∧
      t = { l with mem := mem.setLive pos false } := by
  obtain ⟨mem, hmem, h⟩ := Option.bind_eq_some_iff.1 h
  obtain ⟨u, hu, h⟩ := Option.bind_eq_some_iff.1 h
  obtain ⟨-, rfl⟩ := Prod.mk.inj (Option.some.inj h)
  obtain ⟨hlive, rfl⟩ := kfree_inv hu
  have hmem := Mem.listDel_live hmem
  exact ⟨mem, hmem, hmem ▸ hlive, rfl⟩

theorem traverse_inv {place : Place} {body : Cell → Low → Option (Option Int × Low)}
    {P : List Cell → Low → Prop}
    (hbody : ∀ past pos u r v, P past u → body pos u = some (r, v) → P (past ++ [pos]) v)
    (hl : P [] l) (h : l.traverse place body fuel = some (r, t)) :
    ∃ nodes u, P nodes u ∧ t = { u with walks := u.walks ++ [⟨place, nodes⟩] } := by
  obtain ⟨⟨nodes, r', u⟩, hu, h⟩ := Option.bind_eq_some_iff.1 h
  obtain ⟨-, rfl⟩ := Prod.mk.inj (Option.some.inj h)
  obtain ⟨first, -, hu⟩ := Option.bind_eq_some_iff.1 hu
  obtain ⟨second, -, hu⟩ := Option.bind_eq_some_iff.1 hu
  exact ⟨nodes, u, Ring.forEachSafe_history hbody hl hu, rfl⟩

/-- To move frees nothing. -/
theorem moveFloors_inv {ks : List (Fin 10)} (h : moveFloors fuel ks l = some t) :
    t.mem.live = l.mem.live ∧ t.passenger = l.passenger := by
  induction ks generalizing l with
  | nil =>
    obtain rfl := Option.some.inj h
    exact ⟨rfl, rfl⟩
  | cons k ks ih =>
    obtain ⟨⟨r, u⟩, hu, h⟩ := Option.bind_eq_some_iff.1 h
    have hkeep : ∀ (past : List Cell) pos v r w,
        v.mem.live = l.mem.live ∧ v.passenger = l.passenger → moveBody pos v = some (r, w) →
        w.mem.live = l.mem.live ∧ w.passenger = l.passenger := by
      intro past pos v r w hv hw
      obtain ⟨mem, hlive, rfl⟩ := moveBody_inv hw
      exact ⟨hlive.trans hv.1, hv.2⟩
    obtain ⟨nodes, v, hv, rfl⟩ := traverse_inv hkeep ⟨rfl, rfl⟩ hu
    obtain ⟨hlive, hpassenger⟩ := ih h
    exact ⟨hlive.trans hv.1, hpassenger.trans hv.2⟩

/-- The nodes `past` have been freed since `l`, each once. -/
structure Freed (l : Low) (past : List Cell) (t : Low) : Prop where
  once : past.Nodup
  live : ∀ c, t.mem.live c = true ↔ l.mem.live c = true ∧ c ∉ past
  passenger : t.passenger = l.passenger

theorem freeBody_freed {past : List Cell} {u v : Low} (hu : Freed l past u)
    (h : freeBody pos u = some (r, v)) : Freed l (past ++ [pos]) v := by
  obtain ⟨mem, hmem, hpos, rfl⟩ := freeBody_inv h
  refine ⟨?_, ?_, hu.passenger⟩
  · -- To free a node again would have failed.
    have hnew : pos ∉ past := ((hu.live pos).1 hpos).2
    exact List.nodup_append.2 ⟨hu.once, List.nodup_singleton pos, fun c hc d hd heq =>
      hnew (List.mem_singleton.1 hd ▸ heq ▸ hc)⟩
  · intro c
    by_cases hc : c = pos
    · simp [hc]
    · have hlive := hu.live c
      simp [Mem.setLive, hmem, hc, hlive]

/-- The nodes that the last traversal of `delete_passenger` stands on are those freed. -/
theorem deletePassenger_inv {n : Int} (h : l.deletePassenger fuel = some (n, t)) :
    ∃ walks nodes, t.walks = walks ++ [⟨.moveList, nodes⟩] ∧ nodes.Nodup ∧
      t.passenger = l.passenger ∧ ∀ c, t.mem.live c = true ↔
        l.mem.live c = true ∧ c ≠ .head .moveList ∧ c ∉ nodes := by
  rw [deletePassenger] at h
  obtain ⟨mem, hinit, h⟩ := Option.bind_eq_some_iff.1 h
  obtain ⟨u, hu, h⟩ := Option.bind_eq_some_iff.1 h
  obtain ⟨⟨r, v⟩, hv, h⟩ := Option.bind_eq_some_iff.1 h
  obtain ⟨-, rfl⟩ := Prod.mk.inj (Option.some.inj h)
  obtain ⟨hlive, hpassenger⟩ := moveFloors_inv hu
  obtain ⟨nodes, w, hw, rfl⟩ := traverse_inv (P := Freed u)
    (fun past pos u r v hpast hbody => freeBody_freed hpast hbody) ⟨List.nodup_nil, by simp, rfl⟩ hv
  refine ⟨w.walks, nodes, rfl, hw.once, hw.passenger.trans hpassenger, ?_⟩
  intro c
  by_cases hc : c = .head .moveList
  · simp [hc]
  · have hmem : mem.live c = l.mem.live c := by
      rw [Mem.initListHead_live hinit]
      exact Function.update_of_ne hc _ _
    have hfreed := hw.live c
    rw [hlive] at hfreed
    simp only at hfreed
    simp [Mem.setLive, hc, hfreed, hmem]

/-! ## What is left -/

/-- The building of `s` has been cleared: `t` is what `l` has become. -/
structure Cleared (s : State) (l t : Low) : Prop where
  /-- Empty queues, and the riders linked in their order. -/
  represents : Represents {i | i ≠ .moveList} { s with floors := fun _ => [] } [] t
  /-- Each queue is taken from its front, and the records are freed in that order. -/
  walks : t.walks = l.walks ++
    ((List.finRange 10).map (fun k => Walk.whole (.floor k) (s.floors k)) ++
      [Walk.whole .moveList (waiting s)])
  once : ((waiting s).map Passenger.cell).Nodup
  live : ∀ c, t.mem.live c = true ↔
    l.mem.live c = true ∧ c ≠ .head .moveList ∧ c ∉ (waiting s).map Passenger.cell
  riders : ∀ p ∈ s.onboard, t.mem.live p.cell = true
  globals : t.globals = l.globals
  passenger : t.passenger = l.passenger

end Low

/-- **Every passenger queued is freed once, nobody else, and the count is right.** -/
theorem deletePassenger_clears {s : State} {l : Low} (h : Represents {i | i ≠ .moveList} s [] l)
    (fuel : ℕ) (hfuel : (waiting s).length < fuel) :
    (∃ t, l.deletePassenger fuel = some (((waiting s).length : Int), t) ∧ Low.Cleared s l t) ∧
    deletePassenger s = (((waiting s).length : Int),
      { s with floors := fun _ => []
               live := s.live.diff ((waiting s).map Passenger.id)
               log := s.log ++ (waiting s).map fun p => Event.freed p.id }) := by
  refine ⟨?_, deletePassenger_spec s⟩
  obtain ⟨t, walks, hrun, ht, hwalks, hnodup, rfl⟩ :=
    Low.deletePassenger_refines h (by simp) (by simp) hfuel
  rw [deletePassenger_spec] at hrun ht
  have hcleared : Represents {i | i ≠ .moveList} { s with floors := fun _ => [] } [] t :=
    ⟨ht.linked, ht.globals⟩
  obtain ⟨before, nodes, hlast, -, hpassenger, hlive⟩ := Low.deletePassenger_inv hrun
  -- The traversal of `move_list` is the last.
  have hnodes : nodes = (waiting s).map Passenger.cell := by
    rw [hwalks, ← List.append_assoc] at hlast
    exact congrArg Walk.nodes (List.singleton_inj.1 (List.append_inj' hlast rfl).2).symm
  subst hnodes
  refine ⟨t, hrun, hcleared, hwalks, hnodup (Walk.whole .moveList (waiting s)) (by simp), hlive, ?_,
    ht.globals.trans h.globals.symm, hpassenger⟩
  intro p hp
  exact hcleared.linked.live (i := .onboard) (by simp) hp

theorem oneEach_cleared :
    ∃ t, oneEachLow.deletePassenger 2 = some (1, t) ∧ Low.Cleared oneEach oneEachLow t :=
  (deletePassenger_clears oneEach_represents 2 (by decide)).1

/-! ## Every content has a memory -/

/-- `list_add_tail` of a new record. -/
theorem Linked.listAddTail {used : Set Place} {xs : Place → List Passenger} {mem : Mem Cell}
    {passenger : Nat → Passenger} {i : Place} {p : Passenger} (h : Linked used xs mem passenger)
    (hi : i ∈ used) (hlive : mem.live p.cell = true)
    (hnew : ∀ j ∈ used, ∀ q ∈ xs j, q.id ≠ p.id) :
    ∃ mem', mem.listAddTail p.cell (.head i) = some mem' ∧ mem'.live = mem.live ∧
      Linked used (Function.update xs i (xs i ++ [p])) mem'
        (Function.update passenger p.id p) := by
  have hout : ∀ j ∈ used, p.cell ∉ .head j :: (xs j).map Passenger.cell := by
    intro j hj hmem
    rcases List.mem_cons.1 hmem with heq | hmem
    · exact cell_ne_head p j heq
    · obtain ⟨q, hq, heq⟩ := List.mem_map.1 hmem
      exact hnew j hj q hq (Cell.record.inj heq)
  obtain ⟨mem', hrun, hsame, hlists⟩ := h.lists.listAddTail hi hlive hout
  refine ⟨mem', hrun, hsame, ?_, ?_⟩
  · rw [cells_update, List.map_append]
    exact hlists
  · intro j hj q hq
    have hold : q ∈ xs j → Function.update passenger p.id p q.id = q := by
      intro hq
      rw [Function.update_of_ne (hnew j hj q hq)]
      exact h.passenger j hj q hq
    by_cases hji : j = i
    · subst hji
      rw [Function.update_self] at hq
      rcases List.mem_append.1 hq with hq | hq
      · exact hold hq
      · rw [List.mem_singleton.1 hq, Function.update_self]
    · rw [Function.update_of_ne hji] at hq
      exact hold hq

/-- The list of a place, from the passengers in the order in which they were linked. -/
def linkedAt (links : List (Place × Passenger)) (i : Place) : List Passenger :=
  (links.filter (·.1 = i)).map Prod.snd

theorem linkedAt_snoc (links : List (Place × Passenger)) (i : Place) (p : Passenger) :
    linkedAt (links ++ [(i, p)]) =
      Function.update (linkedAt links) i (linkedAt links i ++ [p]) := by
  funext j
  by_cases hj : j = i
  · subst hj
    simp [linkedAt]
  · simp [linkedAt, hj, Ne.symm hj]

theorem exists_linked (links : List (Place × Passenger))
    (hlinks : (links.map (·.2.id)).Nodup) :
    ∃ mem passenger, (∀ c, mem.live c = true) ∧
      Linked Set.univ (linkedAt links) mem passenger := by
  induction links using List.reverseRecOn with
  | nil =>
    refine ⟨⟨⟨id, id⟩, fun _ => true⟩, fun id => ⟨id, 0, 0, 0, 0, 0, .equal⟩, fun _ => rfl,
      ⟨?_, fun _ _ _ _ => rfl, ?_⟩, ?_⟩
    · intro i _
      exact ⟨⟨rfl, rfl⟩, List.nodup_singleton _⟩
    · intro i _ j _ hij
      simpa [linkedAt] using Ne.symm hij
    · intro i _ p hp
      exact absurd hp List.not_mem_nil
  | append_singleton links link ih =>
    obtain ⟨i, p⟩ := link
    rw [List.map_append, List.nodup_append] at hlinks
    obtain ⟨hlinks, -, hnew⟩ := hlinks
    obtain ⟨mem, passenger, hlive, hlinked⟩ := ih hlinks
    obtain ⟨mem', -, hsame, hlinked'⟩ := hlinked.listAddTail (Set.mem_univ i) (hlive p.cell) (by
      intro j _ q hq
      obtain ⟨link, hlink, rfl⟩ := List.mem_map.1 hq
      exact hnew _ (List.mem_map_of_mem (List.mem_of_mem_filter hlink)) _ (by simp))
    refine ⟨mem', _, ?_, linkedAt_snoc links i p ▸ hlinked'⟩
    intro c
    rw [hsame]
    exact hlive c

theorem linkedAt_floors {ks : List (Fin 10)} (hks : ks.Nodup) (floors : Fin 10 → List Passenger)
    (j : Fin 10) : linkedAt (ks.flatMap fun k => (floors k).map (Prod.mk (.floor k))) (.floor j) =
      if j ∈ ks then floors j else [] := by
  induction ks with
  | nil => rfl
  | cons k ks ih =>
    obtain ⟨hk, hks⟩ := List.nodup_cons.1 hks
    have hrest := ih hks
    rw [linkedAt] at hrest ⊢
    rw [List.flatMap_cons, List.filter_append, List.map_append, hrest]
    by_cases hj : j = k
    · subst hj
      simp [List.filter_map, Function.comp_def, hk]
    · simp [List.filter_map, Function.comp_def, hj, Ne.symm hj]

/-- The passengers on the lists, riders first. -/
def State.placed (s : State) : List (Place × Passenger) :=
  s.onboard.map (Prod.mk .onboard) ++
    (List.finRange 10).flatMap fun k => (s.floors k).map (Prod.mk (.floor k))

theorem placed_snd (s : State) : s.placed.map Prod.snd = s.onboard ++ waiting s := by
  simp [State.placed, waiting, List.map_flatMap, Function.comp_def]

theorem linkedAt_placed (s : State) : linkedAt s.placed = s.lists [] := by
  have hother : ∀ i : Place, (∀ k, i ≠ .floor k) → ((List.finRange 10).flatMap fun k =>
      (s.floors k).map (Prod.mk (Place.floor k))).filter (·.1 = i) = [] := by
    intro i hi
    rw [List.filter_eq_nil_iff]
    intro link hlink
    obtain ⟨k, -, hlink⟩ := List.mem_flatMap.1 hlink
    obtain ⟨p, -, rfl⟩ := List.mem_map.1 hlink
    simpa using (hi k).symm
  funext i
  cases i with
  | onboard =>
    rw [linkedAt, State.placed, List.filter_append, hother _ (by simp)]
    simp [List.filter_map, Function.comp_def, State.lists]
  | floor j =>
    have hfloor := linkedAt_floors (List.nodup_finRange 10) s.floors j
    rw [if_pos (List.mem_finRange j), linkedAt] at hfloor
    rw [linkedAt, State.placed, List.filter_append, List.map_append, hfloor]
    simp [List.filter_map, Function.comp_def, State.lists]
  | moveList =>
    rw [linkedAt, State.placed, List.filter_append, hother _ (by simp)]
    simp [List.filter_map, Function.comp_def, State.lists]

/-- **Every content of the lists has a memory.** -/
theorem exists_represents {s : State} (hids : ((s.onboard ++ waiting s).map Passenger.id).Nodup) :
    ∃ l, Represents {i | i ≠ .moveList} s [] l := by
  rw [← placed_snd, List.map_map] at hids
  obtain ⟨mem, passenger, -, hlinked⟩ := exists_linked s.placed hids
  rw [linkedAt_placed] at hlinked
  exact ⟨⟨mem, passenger, s.globals, 0, []⟩, ⟨hlinked.lists.mono (Set.subset_univ _),
    fun i _ => hlinked.passenger i (Set.mem_univ i)⟩, rfl⟩

/-- So has every state that the module gets into. -/
theorem exists_represents_after (ls : List Label) :
    ∃ l, Represents {i | i ≠ .moveList} (after ls) [] l := by
  have hserves := serves_after ls
  have hledger := ledger_after ls
  refine exists_represents ?_
  rw [List.map_append, List.nodup_append]
  refine ⟨?_, nodup_waiting_ids hserves hledger, ?_⟩
  · refine List.Nodup.map_on ?_ ?_
    · intro p hp q hq hid
      exact hledger.id_inj (hserves.accepted_of_onboard hp) (hserves.accepted_of_onboard hq) hid
    · rw [List.nodup_iff_count_le_one]
      intro p
      by_cases hp : p ∈ (after ls).onboard
      · have hone := hserves.count_eq_one (hserves.accepted_of_onboard hp)
        omega
      · rw [List.count_eq_zero.2 hp]
        exact Nat.zero_le 1
  · intro id hid id' hid' heq
    obtain ⟨p, hp, rfl⟩ := List.mem_map.1 hid
    obtain ⟨q, hq, rfl⟩ := List.mem_map.1 hid'
    obtain ⟨k, hk⟩ := mem_waiting.1 hq
    have hsame := hledger.id_inj (hserves.accepted_of_onboard hp) (hserves.accepted_of_floor hk) heq
    exact hserves.not_queued_of_onboard hp k (hsame ▸ hk)

end KernelElevator
