import KernelElevator.Position

/-!
# The passenger records

`add_passenger` allocates a record; only `delete_passenger` frees one, and it knows the queues
only.

* `Ledger` — the invariant: the live records are those of everybody accepted, each its own.
* `deletePassenger_spec` — the queues are emptied, and exactly their records freed, in order.
-/

namespace KernelElevator

/-! ## The ledger -/

/-- Everybody accepted has the record of its number, all of them live, none freed. -/
structure Ledger (s : State) : Prop where
  ids : s.accepted.map Passenger.id = List.range s.records
  live : s.live = List.range s.records
  unfreed : ∀ id, .freed id ∉ s.log

theorem accepted_snoc {s t : State} {e : Event} (h : t.log = s.log ++ [e])
    (hlinked : ∀ p, e ≠ .linked p) : t.accepted = s.accepted := by
  rw [State.accepted, h, acts_snoc]
  cases e with
  | linked p => exact absurd rfl (hlinked p)
  | opened floor => exact congrArg _ (List.append_nil _)
  | freed id => exact congrArg _ (List.append_nil _)
  | _ => exact (Delivery.arrived_snoc _ _).trans (List.append_nil _)

theorem Ledger.log {s t : State} (h : Ledger s) {e : Event} (hlog : t.log = s.log ++ [e])
    (hlinked : ∀ p, e ≠ .linked p) (hfreed : ∀ id, e ≠ .freed id) (hrecords : t.records = s.records)
    (hlive : t.live = s.live) : Ledger t where
  ids := by rw [accepted_snoc hlog hlinked, hrecords, h.ids]
  live := by rw [hlive, hrecords, h.live]
  unfreed := by
    intro id hid
    rw [hlog] at hid
    rcases List.mem_append.1 hid with hid | hid
    · exact h.unfreed id hid
    · exact hfreed id (List.mem_singleton.1 hid).symm

theorem ledger_effect {s t : State} (heff : Effect s t) (h : Ledger s) : Ledger t := by
  cases heff with
  | control => exact { h with }
  | admitted p hid _ =>
    have haccepted : (s.allocate.link p).accepted = s.accepted ++ [p] := by
      show Delivery.arrived (acts (s.log ++ _)) = _
      rw [acts_snoc]
      exact Delivery.arrived_snoc _ _
    refine ⟨?_, ?_, ?_⟩
    · show _ = List.range (s.records + 1)
      rw [haccepted, List.map_append, h.ids, List.range_succ, List.map_singleton, hid]
    · show s.live ++ [s.records] = List.range (s.records + 1)
      rw [h.live, List.range_succ]
    · intro id hfreed
      rcases List.mem_append.1 hfreed with hfreed | hfreed
      · exact h.unfreed id hfreed
      · simp at hfreed
  | opened => exact h.log (e := .opened _) rfl (by simp) (by simp) rfl rfl
  | boarded p => exact h.log (e := .boarded _ p) rfl (by simp) (by simp) rfl rfl
  | servedHere p => exact h.log (e := .servedHere _ p) rfl (by simp) (by simp) rfl rfl
  | letOff p => exact h.log (e := .unloaded _ p) rfl (by simp) (by simp) rfl rfl

/-- The ledger is kept in every state of every run. -/
theorem ledger_after (ls : List Label) : Ledger (after ls) :=
  run_of_effect (fun _ _ => ledger_effect) ls
    ⟨rfl, rfl, fun _ hid => absurd hid List.not_mem_nil⟩

/-- A record belongs to one passenger. -/
theorem Ledger.id_inj {s : State} (h : Ledger s) {p q : Passenger} (hp : p ∈ s.accepted)
    (hq : q ∈ s.accepted) (hid : p.id = q.id) : p = q := by
  have hnd : (s.accepted.map Passenger.id).Nodup := by
    rw [h.ids]
    exact List.nodup_range
  exact List.inj_on_of_nodup_map hnd hp hq hid

theorem Ledger.mem_live {s : State} (h : Ledger s) {id : Nat} :
    id ∈ s.live ↔ ∃ p ∈ s.accepted, p.id = id := by
  rw [h.live, ← h.ids, List.mem_map]

/-! ## Clearing the floors -/

/-- Everybody waiting, by floor and in the order of the queues. -/
def waiting (s : State) : List Passenger := (List.finRange 10).flatMap s.floors

theorem moveFloor_spec (k : Fin 10) (ps : List Passenger) (s : State) (moveList : List Passenger)
    (count : Int) (hq : s.floors k = ps) : moveFloor k ps (s, moveList, count) =
      ({ s with floors := Function.update s.floors k [] }, moveList ++ ps, count + ps.length) := by
  induction ps generalizing s moveList count with
  | nil => simp [moveFloor, ← hq]
  | cons p ps ih =>
    rw [moveFloor, ih _ _ _ (by simp [hq])]
    simp only [Function.update_idem, List.append_assoc, List.singleton_append, List.length_cons]
    push_cast
    rw [add_assoc, add_comm 1]

theorem moveFloors_spec {ks : List (Fin 10)} (hks : ks.Nodup) (s : State)
    (moveList : List Passenger) (count : Int) : moveFloors ks (s, moveList, count) =
      ({ s with floors := fun k => if k ∈ ks then [] else s.floors k },
        moveList ++ ks.flatMap s.floors, count + (ks.flatMap s.floors).length) := by
  induction ks generalizing s moveList count with
  | nil => simp [moveFloors]
  | cons k ks ih =>
    obtain ⟨hk, hks⟩ := List.nodup_cons.1 hks
    have hrest : ks.flatMap (Function.update s.floors k []) = ks.flatMap s.floors := by
      refine List.flatMap_congr fun j hj => Function.update_of_ne ?_ _ _
      rintro rfl
      exact hk hj
    have hclear : (fun j => if j ∈ ks then [] else Function.update s.floors k [] j) =
        fun j => if j ∈ k :: ks then [] else s.floors j := by
      funext j
      by_cases hj : j = k
      · simp [hj]
      · simp [hj]
    rw [moveFloors, moveFloor_spec k _ s moveList count rfl, ih hks]
    dsimp only
    rw [hrest, hclear, List.flatMap_cons, List.length_append, Nat.cast_add, List.append_assoc,
      add_assoc]

theorem freeAll_spec (ps : List Passenger) (s : State) : freeAll ps s =
    { s with live := s.live.diff (ps.map Passenger.id),
             log := s.log ++ ps.map fun p => Event.freed p.id } := by
  induction ps generalizing s with
  | nil => simp [freeAll]
  | cons p ps ih =>
    rw [freeAll, ih]
    simp [List.diff_cons]

/-- `delete_passenger` empties the queues and frees the records of everybody waiting. -/
theorem deletePassenger_spec (s : State) : deletePassenger s = (((waiting s).length : Int),
    { s with floors := fun _ => []
             live := s.live.diff ((waiting s).map Passenger.id)
             log := s.log ++ (waiting s).map fun p => Event.freed p.id }) := by
  unfold deletePassenger
  rw [moveFloors_spec (List.nodup_finRange 10)]
  simp only [freeAll_spec, List.nil_append, zero_add, List.mem_finRange, if_true]
  rfl

end KernelElevator
