import KernelElevator.Reading
import KernelElevator.ReportedState
import Mathlib.Algebra.Order.BigOperators.Group.List

/-!
# What a reader sees

The queues grow at their ends only, and a request that has returned stays so. What a reader finds in
a `next` link is the next of those that are to be seen at that moment; when it finds the list head,
it has come past all of them.

* `Held` — what the requests keep; `At` — what the phases of the reader mean.
* `read_shows` — the text shows each queue as it is at one moment of its traversal.
* `read_returns` — the reader returns, however the requests come in.
-/

namespace KernelElevator.Reading

open Machine Boarding

variable {r : Reading} {ms : List Step} {l : Step}

/-! ## One more move -/

theorem lobby_snoc : r.lobby (ms ++ [l]) = r.step l (r.lobby ms) := run_append ..

theorem order_append (ns : List Step) (s : Lobby) :
    r.order (ms ++ ns) s = r.order ms s ++ r.order ns (run r.step ms s) := by
  induction ms generalizing s with
  | nil => rfl
  | cons l ms ih =>
    rw [List.cons_append, order, ih, order, List.append_assoc]
    rfl

theorem order_snoc :
    r.order (ms ++ [l]) r.start = r.order ms r.start ++ r.enters (r.lobby ms) l := by
  rw [order_append, order, order, List.append_nil]
  rfl

theorem mem_enters {s : Lobby} {id : Nat} {p : Passenger} : p ∈ r.enters s (.call id) ↔
    (∃ j, slot (r.passenger id).startFloor = some j) ∧
      (∃ t, s.config.stage (.record id) = .read t) ∧ p = r.passenger id := by
  rw [enters]
  cases slot (r.passenger id).startFloor with
  | none => simp
  | some j =>
    cases s.config.stage (.record id) with
    | read t => simp
    | _ => simp

/-! ## The queues -/

/-- The nodes of `onboard` or of a queue, in the making. -/
def nodes (r : Reading) (ms : List Step) (i : Option (Fin 10)) : List Cell :=
  ((linkAll (r.order ms r.start) r.state).list i).map Passenger.cell

theorem nodes_floor (k : Fin 10) : r.nodes ms (some k) =
    (r.state.floors k ++ onFloor k (r.order ms r.start)).map Passenger.cell := by
  rw [nodes, State.list, linkAll_floors]

/-- The list that a request appends to. -/
def owner (r : Reading) : Cell → Option (Option (Fin 10))
  | .record id => (slot (r.passenger id).startFloor).map some
  | _ => none

/-- What the requests keep. -/
structure Held (r : Reading) (ms : List Step) : Prop where
  entering : Ring.Entering listHead r.owner (r.lobby ms).config (r.nodes ms)
  outside : ∀ x, x ∉ r.calls.map Passenger.cell → (r.lobby ms).config.stage x = .done
  nodup : (r.order ms r.start).Nodup
  ordered : ∀ p ∈ r.order ms r.start, p ∈ r.calls ∧ ((r.lobby ms).config.stage p.cell).Entered

theorem held_start (r : Reading) : Held r [] := by
  have hstart (n : Cell) : r.start.config.stage n = .start ∧ (∃ p ∈ r.calls, n = p.cell) ∨
      r.start.config.stage n = .done := by
    by_cases hn : n ∈ r.calls.map Passenger.cell
    · obtain ⟨p, hp, rfl⟩ := List.mem_map.1 hn
      exact .inl ⟨if_pos hn, p, hp, rfl⟩
    · exact .inr (if_neg hn)
  refine ⟨⟨begin_making r.records r.holds, ?_, ?_⟩, fun x hx => if_neg hx, List.nodup_nil,
    by simp [order]⟩
  · intro n hn i
    rcases hstart n with ⟨-, p, hp, rfl⟩ | hdone
    · exact call_not_mem r.records hp i
    · exact absurd (show ((r.start.config.stage n).Entered) by rw [hdone]; trivial) hn
  · intro n i _ t ht
    have ht : t ∈ (r.start.config.stage n).tail := ht
    rcases hstart n with ⟨hs, -⟩ | hs
    · rw [hs] at ht
      cases ht
    · rw [hs] at ht
      cases ht

/-- A request that is yet to return. -/
theorem Held.exists_call (h : Held r ms) {id : Nat}
    (hid : (r.lobby ms).config.stage (.record id) ≠ .done) :
    ∃ p ∈ r.calls, Cell.record id = p.cell ∧ r.passenger id = p := by
  have hmem : Cell.record id ∈ r.calls.map Passenger.cell := by
    by_contra hout
    exact hid (h.outside _ hout)
  obtain ⟨p, hp, hcell⟩ := List.mem_map.1 hmem
  obtain rfl : p.id = id := by simpa [Passenger.cell] using hcell
  exact ⟨p, hp, rfl, r.filled p (List.mem_append_right _ hp)⟩

/-- A request that has returned, or that was for no floor, does nothing. -/
theorem call_idle {s : Lobby} {id : Nat} (hidle : slot (r.passenger id).startFloor = none ∨
    s.config.stage (.record id) = .done) :
    r.step (.call id) s = s ∧ r.enters s (.call id) = [] := by
  constructor
  · show s.callStep r.passenger id = s
    rw [Lobby.callStep]
    cases hj : slot (r.passenger id).startFloor with
    | none => rfl
    | some j =>
      have hdone := hidle.resolve_left (by simp [hj])
      show { s with config := Ring.move (listHead (some j)) (.record id) s.config } = s
      rw [Ring.move, hdone]
  · apply List.eq_nil_iff_forall_not_mem.2
    intro p hp
    obtain ⟨⟨j, hj⟩, ⟨t, ht⟩, -⟩ := mem_enters.1 hp
    rcases hidle with hnone | hdone
    · exact absurd (hj.symm.trans hnone) (by simp)
    · exact absurd (ht.symm.trans hdone) (by simp)

theorem call_config {s : Lobby} {id : Nat} {j : Fin 10}
    (hj : slot (r.passenger id).startFloor = some j) :
    (r.step (.call id) s).config = Ring.move (listHead (some j)) (.record id) s.config := by
  show (s.callStep r.passenger id).config = _
  rw [Lobby.callStep, hj]

theorem Held.nodes_call (h : Held r ms) {id : Nat} {j : Fin 10}
    (hj : slot (r.passenger id).startFloor = some j)
    (hid : (r.lobby ms).config.stage (.record id) ≠ .done) :
    r.nodes (ms ++ [.call id]) = Function.update (r.nodes ms) (some j)
      (Ring.grown (r.lobby ms).config (.record id) (r.nodes ms (some j))) := by
  obtain ⟨p, -, hcell, hp⟩ := h.exists_call hid
  funext i
  cases i with
  | none => simp [nodes, State.list, linkAll_onboard]
  | some k =>
    rw [nodes_floor, order_snoc, onFloor_append, ← List.append_assoc, List.map_append,
      ← nodes_floor]
    by_cases hk : k = j
    · subst hk
      rw [Function.update_self, Ring.grown, enters, hj, hp]
      rw [hp] at hj
      cases (r.lobby ms).config.stage (.record id) with
      | read t => simp [onFloor, hj, hcell]
      | _ => simp [onFloor]
    · rw [Function.update_of_ne (by simpa using hk), List.append_right_eq_self, List.map_eq_nil_iff,
        onFloor, List.filter_eq_nil_iff]
      intro q hq
      obtain ⟨-, -, rfl⟩ := mem_enters.1 hq
      simpa [hj] using Ne.symm hk

/-- **A request moves on.** -/
theorem Held.call (h : Held r ms) {id : Nat}
    (hl : OnTime r.passenger (r.lobby ms) (.call id)) : Held r (ms ++ [.call id]) := by
  by_cases hidle : slot (r.passenger id).startFloor = none ∨
      (r.lobby ms).config.stage (.record id) = .done
  · obtain ⟨hstep, henters⟩ := call_idle hidle
    have hlobby : r.lobby (ms ++ [.call id]) = r.lobby ms := lobby_snoc.trans hstep
    have horder : r.order (ms ++ [.call id]) r.start = r.order ms r.start := by
      rw [order_snoc, henters, List.append_nil]
    have hnodes : r.nodes (ms ++ [.call id]) = r.nodes ms := by
      unfold nodes
      rw [horder]
    exact ⟨by rw [hlobby, hnodes]; exact h.entering, by rw [hlobby]; exact h.outside,
      by rw [horder]; exact h.nodup, by rw [hlobby, horder]; exact h.ordered⟩
  · obtain ⟨hslot, hid⟩ := not_or.1 hidle
    obtain ⟨j, hj⟩ := Option.ne_none_iff_exists'.1 hslot
    have hconfig : (r.lobby (ms ++ [.call id])).config =
        Ring.move (listHead (some j)) (.record id) (r.lobby ms).config := by
      rw [lobby_snoc, call_config hj]
    obtain ⟨p, hp, hcell, hpassenger⟩ := h.exists_call hid
    have hentered : ∀ x, ((r.lobby ms).config.stage x).Entered →
        ((r.lobby (ms ++ [.call id])).config.stage x).Entered := by
      intro x hx
      rw [hconfig]
      by_cases hxn : x = .record id
      · subst hxn
        exact Ring.move_entered.2 (.inl hx)
      · rwa [Ring.move_stage_ne hxn]
    refine ⟨?_, ?_, ?_, ?_⟩
    · rw [hconfig, h.nodes_call hj hid]
      exact h.entering.move (by simp [owner, hj]) (hl j hj)
    · intro x hx
      rw [hconfig]
      exact Ring.move_done (h.outside x hx)
    · rw [order_snoc]
      refine List.nodup_append.2 ⟨h.nodup, ?_, ?_⟩
      · rw [enters]
        split
        · exact List.nodup_singleton _
        · exact List.nodup_nil
      · rintro q hq q' hq' rfl
        obtain ⟨-, ⟨t, ht⟩, rfl⟩ := mem_enters.1 hq'
        have he := (h.ordered _ hq).2
        rw [hpassenger, ← hcell, ht] at he
        exact he
    · rw [order_snoc]
      intro q hq
      rcases List.mem_append.1 hq with hq | hq
      · exact ⟨(h.ordered q hq).1, hentered _ (h.ordered q hq).2⟩
      · obtain ⟨-, hread, rfl⟩ := mem_enters.1 hq
        rw [hpassenger]
        refine ⟨hp, ?_⟩
        rw [hconfig, ← hcell]
        exact Ring.move_entered.2 (.inr hread)

/-- The reader does not change the links. -/
theorem read_config (s : Lobby) : (r.step .read s).config = s.config := by
  show (s.access r.state r.members).config = _
  unfold Lobby.access
  cases s.read with
  | test k temp dummy =>
    by_cases htemp : temp = listHead (some k)
    · by_cases hk : k.val + 1 < 10
      · simp [htemp, Lobby.nextFloor, hk, Lobby.goto]
      · simp [htemp, Lobby.nextFloor, hk, Lobby.goto]
    · simp [htemp, Lobby.goto]
  | _ => rfl

theorem order_read : r.order (ms ++ [.read]) r.start = r.order ms r.start := by
  rw [order_snoc, enters, List.append_nil]

theorem config_read : (r.lobby (ms ++ [.read])).config = (r.lobby ms).config := by
  rw [lobby_snoc, read_config]

theorem nodes_read : r.nodes (ms ++ [.read]) = r.nodes ms := by
  unfold nodes
  rw [order_read]

theorem Held.read (h : Held r ms) : Held r (ms ++ [.read]) :=
  ⟨by rw [config_read, nodes_read]; exact h.entering, by rw [config_read]; exact h.outside,
    by rw [order_read]; exact h.nodup, by rw [config_read, order_read]; exact h.ordered⟩

/-! ## What there was to see -/

/-- What there was to see of a queue at a moment of its traversal. -/
def Snapshot (r : Reading) (ms : List Step) (k : Fin 10) (ps : List Passenger) : Prop :=
  ∃ w ≤ ms.length, (r.lobby (ms.take w)).read.floor = some k ∧ ps = r.shown (ms.take w) k

theorem Snapshot.snoc {k : Fin 10} {ps : List Passenger} (h : Snapshot r ms k ps) :
    Snapshot r (ms ++ [l]) k ps := by
  obtain ⟨w, hw, hfloor, hps⟩ := h
  refine ⟨w, by rw [List.length_append]; omega, ?_⟩
  rw [List.take_append_of_le_length hw]
  exact ⟨hfloor, hps⟩

theorem snapshot_now {k : Fin 10} (hfloor : (r.lobby ms).read.floor = some k) :
    Snapshot r ms k (r.shown ms k) :=
  ⟨ms.length, le_rfl, by rw [List.take_length]; exact hfloor, by rw [List.take_length]⟩

/-- Those who waited at the start are linked in. -/
theorem old_done (h : Held r ms) {k : Fin 10} {p : Passenger} (hp : p ∈ r.state.floors k) :
    (r.lobby ms).config.stage p.cell = .done := by
  apply h.outside
  intro hmem
  obtain ⟨q, hq, hcell⟩ := List.mem_map.1 hmem
  refine call_not_mem r.records hq (some k) ?_
  rw [hcell]
  exact List.mem_cons_of_mem _ (List.mem_map_of_mem hp)

/-- What there is to see of a queue are its visible nodes. -/
theorem visible_nodes (h : Held r ms) (k : Fin 10) :
    Ring.visible (r.lobby ms).config (r.nodes ms (some k)) = (r.shown ms k).map Passenger.cell := by
  have hold : ∀ x ∈ (r.state.floors k).map Passenger.cell, (r.lobby ms).config.stage x = .done := by
    intro x hx
    obtain ⟨p, hp, rfl⟩ := List.mem_map.1 hx
    exact old_done h hp
  rw [nodes_floor, Ring.visible, List.map_append,
    List.takeWhile_append_of_pos (by simpa using hold), List.takeWhile_map, shown, List.map_append]
  rfl

/-! ## The reader -/

/-- The nodes of what there was to see. -/
def Was (r : Reading) (ms : List Step) (k : Fin 10) (seen : List Cell) : Prop :=
  ∃ ps, Snapshot r ms k ps ∧ seen = ps.map Passenger.cell

/-- The reader has come past `seen`, and goes on with `x`. -/
def Ahead (r : Reading) (ms : List Step) (k : Fin 10) : List Cell → Cell → Prop :=
  Ring.Upcoming (listHead (some k)) (r.lobby ms).config (r.nodes ms (some k)) (Was r ms k)

/-- The sums over these nodes. -/
def sumsOf (r : Reading) (seen : List Cell) : Int × Int :=
  seen.foldl (fun sums x => (sums.1 + (r.members x).1, sums.2 + (r.members x).2)) (0, 0)

/-- The text with the rows of the floors below `n`. -/
def rows (r : Reading) (F : Fin 10 → List Passenger) (n : ℕ) : String :=
  (((List.finRange 10).take n).map fun j => sumsLine (waitingSums (F j)) j).foldl (· ++ ·)
    (opening r.state)

/-- The floors below `n` have been read. -/
structure Past (r : Reading) (ms : List Step) (F : Fin 10 → List Passenger) (n : ℕ) : Prop where
  snapshots : ∀ j : Fin 10, j.val < n → Snapshot r ms j (F j)
  message : (r.lobby ms).message = rows r F n

/-- How often the reader has moved, up to 3. -/
def pace (F : Fin 10 → List Passenger) (n : ℕ) (seen : List Cell) : ℕ :=
  3 * n + 2 * (((List.finRange 10).take n).map fun j => (F j).length).sum + 2 * seen.length

/-- What the phases of the reader mean, when it has found `F` on the floors before this one, and has
come past `seen` on this one. -/
def At (r : Reading) (ms : List Step) (F : Fin 10 → List Passenger) (seen : List Cell) : Prop :=
  match (r.lobby ms).read with
  | .enter => ms.count .read = 0
  | .first k => Past r ms F k ∧ seen = [] ∧ (r.lobby ms).sums = sumsOf r seen ∧
      ms.count .read = 1 + pace F k seen
  | .save k temp => Past r ms F k ∧ Ahead r ms k seen temp ∧ (r.lobby ms).sums = sumsOf r seen ∧
      ms.count .read = 2 + pace F k seen
  | .test k temp dummy => Past r ms F k ∧ Ahead r ms k seen temp ∧
      (temp ≠ listHead (some k) → Ahead r ms k (seen ++ [temp]) dummy) ∧
      (r.lobby ms).sums = sumsOf r seen ∧ ms.count .read = 3 + pace F k seen
  | .returned => (∀ j, Snapshot r ms j (F j)) ∧ (r.lobby ms).message = rows r F 10 ++ "\n"

/-! ## A request moves -/

theorem call_read (r : Reading) (ms : List Step) (id : Nat) :
    (r.lobby (ms ++ [.call id])).read = (r.lobby ms).read ∧
    (r.lobby (ms ++ [.call id])).sums = (r.lobby ms).sums ∧
    (r.lobby (ms ++ [.call id])).message = (r.lobby ms).message := by
  have hstep : r.lobby (ms ++ [.call id]) = (r.lobby ms).callStep r.passenger id := lobby_snoc
  rw [hstep, Lobby.callStep]
  cases slot (r.passenger id).startFloor with
  | none => exact ⟨rfl, rfl, rfl⟩
  | some j => exact ⟨rfl, rfl, rfl⟩

theorem call_done (id : Nat) {x : Cell} (hx : (r.lobby ms).config.stage x = .done) :
    (r.lobby (ms ++ [.call id])).config.stage x = .done := by
  rw [lobby_snoc]
  cases hj : slot (r.passenger id).startFloor with
  | none => rwa [(call_idle (.inl hj)).1]
  | some j =>
    rw [call_config hj]
    exact Ring.move_done hx

theorem Was.snoc {k : Fin 10} {seen : List Cell} (h : Was r ms k seen) :
    Was r (ms ++ [l]) k seen := by
  obtain ⟨ps, hps, hseen⟩ := h
  exact ⟨ps, hps.snoc, hseen⟩

theorem Past.snoc {F : Fin 10 → List Passenger} {n : ℕ} (h : Past r ms F n)
    (hmessage : (r.lobby (ms ++ [l])).message = (r.lobby ms).message) : Past r (ms ++ [l]) F n :=
  ⟨fun j hj => (h.snapshots j hj).snoc, hmessage.trans h.message⟩

theorem Ahead.call {k : Fin 10} {seen : List Cell} {x : Cell} (h : Ahead r ms k seen x) (id : Nat) :
    Ahead r (ms ++ [.call id]) k seen x := by
  refine Ring.Upcoming.mono h ?_ (fun y => call_done id) fun _ => Was.snoc
  rw [nodes_floor, nodes_floor, order_snoc, onFloor_append, ← List.append_assoc]
  exact (List.prefix_append ..).map _

theorem At.call {F : Fin 10 → List Passenger} {seen : List Cell} (h : At r ms F seen) (id : Nat) :
    At r (ms ++ [.call id]) F seen := by
  obtain ⟨hread, hsums, hmessage⟩ := call_read r ms id
  have hcount : (ms ++ [Step.call id]).count .read = ms.count .read := by simp
  rw [At] at h ⊢
  rw [hread, hsums, hcount]
  cases hs : (r.lobby ms).read with
  | enter =>
    rw [hs] at h
    exact h
  | first k =>
    rw [hs] at h
    exact ⟨h.1.snoc hmessage, h.2⟩
  | save k temp =>
    rw [hs] at h
    exact ⟨h.1.snoc hmessage, h.2.1.call id, h.2.2⟩
  | test k temp dummy =>
    rw [hs] at h
    exact ⟨h.1.snoc hmessage, h.2.1.call id, fun htemp => (h.2.2.1 htemp).call id, h.2.2.2⟩
  | returned =>
    rw [hs] at h
    exact ⟨fun j => (h.1 j).snoc, hmessage.trans h.2⟩

/-! ## The reader moves -/

theorem Ahead.read {k : Fin 10} {seen : List Cell} {x : Cell} (h : Ahead r ms k seen x) :
    Ahead r (ms ++ [.read]) k seen x := by
  refine Ring.Upcoming.mono h ?_ ?_ fun _ => Was.snoc
  · rw [nodes_read]
  · intro y hy
    rwa [config_read]

/-- What it finds in a `next` link. -/
theorem Held.found (h : Held r ms) {k : Fin 10} (hfloor : (r.lobby ms).read.floor = some k)
    (seen : List Cell) {rest : List Cell} (hnodes : r.nodes ms (some k) = seen ++ rest)
    (hseen : ∀ y ∈ seen, (r.lobby ms).config.stage y = .done) :
    Ahead r (ms ++ [.read]) k seen
      ((r.lobby ms).config.links.next (seen.getLastD (listHead (some k)))) := by
  have hmaking := h.entering.rings.making (some k)
  have hwas : Was r (ms ++ [.read]) k (Ring.visible (r.lobby ms).config (r.nodes ms (some k))) :=
    ⟨r.shown ms k, (snapshot_now hfloor).snoc, visible_nodes h k⟩
  rw [hnodes] at hmaking hwas
  rw [Ahead, config_read, nodes_read, hnodes]
  exact hmaking.upcoming hseen hwas

/-- It does not take a passenger for the list head. -/
theorem Held.ne_listHead (h : Held r ms) {k : Fin 10} {x : Cell} (hx : x ∈ r.nodes ms (some k)) :
    x ≠ listHead (some k) := (h.entering.rings.making (some k)).head_ne hx

theorem Held.was_of_ahead (h : Held r ms) {k : Fin 10} {seen : List Cell}
    (hahead : Ahead r ms k seen (listHead (some k))) : Was r ms k seen := by
  refine (hahead.resolve_left ?_).2
  rintro ⟨rest, hnodes, -⟩
  exact h.ne_listHead (x := listHead (some k)) (by simp [hnodes]) rfl

theorem Snapshot.subset (h : Held r ms) {k : Fin 10} {ps : List Passenger}
    (hps : Snapshot r ms k ps) : ps.length ≤ (r.state.floors k ++ onFloor k r.calls).length ∧
      ∀ p ∈ ps, r.passenger p.id = p := by
  obtain ⟨w, -, -, rfl⟩ := hps
  have horder : r.order (ms.take w) r.start <+: r.order ms r.start := by
    nth_rewrite 2 [← List.take_append_drop w ms]
    rw [order_append]
    exact List.prefix_append ..
  have hsub : (r.order (ms.take w) r.start).Subperm r.calls := by
    apply (h.nodup.sublist horder.sublist).subperm
    intro p hp
    exact (h.ordered p (horder.subset hp)).1
  have hwhile := List.takeWhile_sublist
    (l := onFloor k (r.order (ms.take w) r.start))
    fun p => decide ((r.lobby (ms.take w)).config.stage p.cell = .done)
  constructor
  · rw [shown, List.length_append, List.length_append]
    exact Nat.add_le_add_left (hwhile.length_le.trans (hsub.filter _).length_le) _
  · intro p hp
    apply r.filled
    rcases List.mem_append.1 hp with hp | hp
    · exact List.mem_append_left _ (list_subset r.state (some k) p hp)
    · exact List.mem_append_right _ (hsub.subset (List.mem_of_mem_filter (hwhile.subset hp)))

theorem take_finRange_succ (k : Fin 10) :
    (List.finRange 10).take (k.val + 1) = (List.finRange 10).take k.val ++ [k] := by
  rw [List.take_succ_eq_append_getElem (by simp)]
  simp

theorem lt_of_mem_take {k j : Fin 10} (hj : j ∈ (List.finRange 10).take k.val) : j.val < k.val := by
  obtain ⟨i, hi, rfl⟩ := List.mem_take_iff_getElem.1 hj
  rw [List.getElem_finRange]
  exact lt_of_lt_of_le hi (Nat.min_le_left ..)

/-- One floor more. -/
theorem map_take_update {α : Type*} (g : Fin 10 → List Passenger → α) (F : Fin 10 → List Passenger)
    (k : Fin 10) (ps : List Passenger) :
    ((List.finRange 10).take (k.val + 1)).map (fun j => g j (Function.update F k ps j)) =
      ((List.finRange 10).take k.val).map (fun j => g j (F j)) ++ [g k ps] := by
  rw [take_finRange_succ, List.map_append, List.map_singleton, Function.update_self,
    List.append_cancel_right_eq]
  apply List.map_congr_left
  intro j hj
  have hne : j ≠ k := fun heq => absurd (lt_of_mem_take hj) (by rw [heq]; exact lt_irrefl _)
  rw [Function.update_of_ne hne]

theorem rows_succ (F : Fin 10 → List Passenger) (k : Fin 10) (ps : List Passenger) :
    rows r (Function.update F k ps) (k.val + 1) =
      rows r F k.val ++ sumsLine (waitingSums ps) k := by
  rw [rows, map_take_update (fun j ps => sumsLine (waitingSums ps) j), List.foldl_append]
  rfl

theorem pace_succ (F : Fin 10 → List Passenger) (k : Fin 10) (ps : List Passenger) :
    pace (Function.update F k ps) (k.val + 1) [] = 3 + pace F k (ps.map Passenger.cell) := by
  rw [pace, map_take_update (fun _ ps => ps.length), List.sum_append, pace, List.length_map]
  simp only [List.sum_singleton, List.length_nil]
  omega

theorem rows_all (F : Fin 10 → List Passenger) :
    rows r F 10 ++ "\n" = report { r.state with floors := F } := by
  rw [rows, List.foldl_map]
  rfl

theorem sumsOf_append (seen : List Cell) (x : Cell) : sumsOf r (seen ++ [x]) =
    ((sumsOf r seen).1 + (r.members x).1, (sumsOf r seen).2 + (r.members x).2) := by
  rw [sumsOf, List.foldl_append]
  rfl

theorem sumsOf_cells {ps : List Passenger} (hps : ∀ p ∈ ps, r.passenger p.id = p) :
    sumsOf r (ps.map Passenger.cell) = waitingSums ps := by
  rw [sumsOf, List.foldl_map, waitingSums]
  apply List.foldl_ext
  intro sums p hp
  rw [Passenger.cell, members, hps p hp]

/-- The reader is at the end of a queue. -/
theorem At.row {F : Fin 10 → List Passenger} {seen : List Cell} {k : Fin 10} {dummy : Cell}
    (h : Held r ms) (hat : At r ms F seen)
    (hs : (r.lobby ms).read = .test k (listHead (some k)) dummy) :
    ∃ F, At r (ms ++ [.read]) F [] := by
  have hstep : r.lobby (ms ++ [.read]) = (r.lobby ms).access r.state r.members := lobby_snoc
  have hcount : (ms ++ [Step.read]).count .read = ms.count .read + 1 := by simp
  rw [At, hs] at hat
  rw [Lobby.access, hs] at hstep
  obtain ⟨hpast, hahead, -, hsums, hpace⟩ := hat
  obtain ⟨ps, hps, rfl⟩ := h.was_of_ahead hahead
  obtain ⟨-, hfilled⟩ := hps.subset h
  rw [sumsOf_cells hfilled] at hsums
  have hsnapshots : ∀ j : Fin 10, j.val < k.val + 1 →
      Snapshot r (ms ++ [.read]) j (Function.update F k ps j) := by
    intro j hj
    by_cases hjk : j = k
    · subst hjk
      rw [Function.update_self]
      exact hps.snoc
    · rw [Function.update_of_ne hjk]
      have hne : j.val ≠ k.val := fun heq => hjk (Fin.ext heq)
      exact (hpast.snapshots j (by omega)).snoc
  have hrows := rows_succ (r := r) F k ps
  have hpace' := pace_succ F k ps
  refine ⟨Function.update F k ps, ?_⟩
  rw [At, hcount]
  by_cases hk : k.val + 1 < 10
  · simp only [if_pos, Lobby.nextFloor, hk, dite_true] at hstep
    rw [hstep]
    refine ⟨⟨hsnapshots, ?_⟩, rfl, rfl, ?_⟩
    · rw [hstep, hrows, ← hpast.message, ← hsums]
      rfl
    · show _ = 1 + pace _ (k.val + 1) []
      omega
  · simp only [if_pos, Lobby.nextFloor, hk, dite_false] at hstep
    have hten : k.val + 1 = 10 := by omega
    rw [hten] at hrows hsnapshots
    rw [hstep]
    refine ⟨fun j => hsnapshots j j.isLt, ?_⟩
    rw [hrows, ← hpast.message, ← hsums]
    rfl

theorem At.read {F : Fin 10 → List Passenger} {seen : List Cell} (h : Held r ms)
    (hat : At r ms F seen) : ∃ F seen, At r (ms ++ [.read]) F seen := by
  have hstep : r.lobby (ms ++ [.read]) = (r.lobby ms).access r.state r.members := lobby_snoc
  have hcount : (ms ++ [Step.read]).count .read = ms.count .read + 1 := by simp
  rw [At] at hat
  cases hs : (r.lobby ms).read with
  | enter =>
    rw [hs] at hat
    rw [Lobby.access, hs] at hstep
    refine ⟨fun _ => [], [], ?_⟩
    rw [At, hcount, hstep]
    refine ⟨⟨fun j hj => absurd hj (Nat.not_lt_zero _), ?_⟩, rfl, rfl, by rw [hat]; rfl⟩
    rw [hstep]
    rfl
  | first k =>
    rw [hs] at hat
    rw [Lobby.access, hs] at hstep
    obtain ⟨hpast, rfl, hsums, hpace⟩ := hat
    refine ⟨F, [], ?_⟩
    rw [At, hcount, hstep]
    refine ⟨hpast.snoc (by rw [hstep]; rfl), ?_, hsums, by omega⟩
    exact h.found (by rw [hs]; rfl) [] (List.nil_append _).symm (by simp)
  | save k temp =>
    rw [hs] at hat
    rw [Lobby.access, hs] at hstep
    obtain ⟨hpast, hahead, hsums, hpace⟩ := hat
    refine ⟨F, seen, ?_⟩
    rw [At, hcount, hstep]
    refine ⟨hpast.snoc (by rw [hstep]; rfl), hahead.read, ?_, hsums, by omega⟩
    intro htemp
    obtain ⟨rest, hnodes, hseen⟩ := hahead.resolve_right fun hend => htemp hend.1
    have hfound := h.found (by rw [hs]; rfl) (seen ++ [temp])
      (hnodes.trans (by rw [List.append_assoc]; rfl)) hseen
    rwa [List.getLastD_concat] at hfound
  | test k temp dummy =>
    rw [hs] at hat
    rw [Lobby.access, hs] at hstep
    by_cases htemp : temp = listHead (some k)
    · subst htemp
      obtain ⟨F', hat'⟩ := At.row h (by rw [At, hs]; exact hat) hs
      exact ⟨F', [], hat'⟩
    · simp only [if_neg htemp] at hstep
      obtain ⟨hpast, -, hnext, hsums, hpace⟩ := hat
      refine ⟨F, seen ++ [temp], ?_⟩
      rw [At, hcount, hstep]
      refine ⟨hpast.snoc (by rw [hstep]; rfl), (hnext htemp).read, ?_, ?_⟩
      · rw [sumsOf_append, ← hsums]
        rfl
      · rw [hpace, pace, pace, List.length_append, List.length_singleton]
        omega
  | returned =>
    rw [hs] at hat
    rw [Lobby.access, hs] at hstep
    refine ⟨F, seen, ?_⟩
    rw [At, hstep, hs]
    exact ⟨fun j => (hat.1 j).snoc, hat.2⟩

/-! ## Runs -/

theorem inv_run (hontime : Along r.step (OnTime r.passenger) ms r.start) :
    Held r ms ∧ ∃ F seen, At r ms F seen := by
  induction ms using List.reverseRecOn with
  | nil => exact ⟨held_start r, fun _ => [], [], rfl⟩
  | append_singleton ms l ih =>
    obtain ⟨hms, hl, -⟩ := along_append.1 hontime
    obtain ⟨hheld, F, seen, hat⟩ := ih hms
    cases l with
    | call id => exact ⟨hheld.call hl, F, seen, hat.call id⟩
    | read => exact ⟨hheld.read, At.read hheld hat⟩

/-- **A read shows each queue as it is at one moment**, while it goes through that queue: with those
who waited at the start, and the passengers of requests up to the first that has yet to return. -/
theorem read_shows (r : Reading)
    (hontime : Along r.step (OnTime r.passenger) r.moves r.start)
    (hread : (r.lobby r.moves).read = .returned) :
    ∃ moment : Fin 10 → ℕ,
      (∀ k, moment k ≤ r.moves.length ∧
        (r.lobby (r.moves.take (moment k))).read.floor = some k) ∧
      (r.lobby r.moves).message =
        report { r.state with floors := fun k => r.shown (r.moves.take (moment k)) k } := by
  obtain ⟨-, F, seen, hat⟩ := inv_run hontime
  rw [At, hread] at hat
  obtain ⟨hsnapshots, hmessage⟩ := hat
  choose moment hle hfloor hshown using hsnapshots
  refine ⟨moment, fun k => ⟨hle k, hfloor k⟩, ?_⟩
  rw [hmessage, rows_all, show F = _ from funext hshown]

/-- An adult waits on floor 1. Once the reader is past that floor, a request comes in there, and
then one on floor 4; both have returned before the reader goes on. -/
def passedBy : Reading where
  state := (meeting []).state
  links := (meeting []).links
  passenger := (meeting []).passenger
  beside := fun _ => (0, 0)
  calls := twoCome
  moves := List.replicate 6 .read ++ List.replicate 5 (.call 2) ++ List.replicate 5 (.call 3) ++
    List.replicate 31 .read
  holds := (meeting []).holds
  records := (meeting []).records
  filled := (meeting []).filled

theorem passedBy_shows : ∃ moment : Fin 10 → ℕ,
    (∀ k, moment k ≤ passedBy.moves.length ∧
      (passedBy.lobby (passedBy.moves.take (moment k))).read.floor = some k) ∧
    (passedBy.lobby passedBy.moves).message = report { queueWaits [adultWaiting] with
      floors := fun k => passedBy.shown (passedBy.moves.take (moment k)) k } :=
  read_shows passedBy (by decide +kernel) (by decide +kernel)

theorem fourth_lt : 3 < 10 := by decide

/-- The index of floor 4. -/
def fourth : Fin 10 := ⟨3, fourth_lt⟩

/-- The text shows the second request and not the first: it is not the report of any one moment. -/
theorem passedBy_mixed : ∀ w ≤ passedBy.moves.length, (passedBy.lobby passedBy.moves).message ≠
    report { queueWaits [adultWaiting] with
      floors := fun k => passedBy.shown (passedBy.moves.take w) k } := by
  have hground : ∀ w ≤ passedBy.moves.length,
      (passedBy.lobby (passedBy.moves.take w)).read.floor = some ground →
      (waitingSums (passedBy.shown (passedBy.moves.take w) ground)).2 = 1 := by decide +kernel
  have hfourth : ∀ w ≤ passedBy.moves.length,
      (passedBy.lobby (passedBy.moves.take w)).read.floor = some fourth →
      (waitingSums (passedBy.shown (passedBy.moves.take w) fourth)).2 = 1 := by decide +kernel
  have hnever : ∀ w ≤ passedBy.moves.length,
      (waitingSums (passedBy.shown (passedBy.moves.take w) ground)).2 = 1 →
      (waitingSums (passedBy.shown (passedBy.moves.take w) fourth)).2 ≠ 1 := by decide +kernel
  have hreturned : (passedBy.lobby passedBy.moves).read = .returned := by decide +kernel
  obtain ⟨-, F, seen, hat⟩ := @inv_run passedBy passedBy.moves (by decide +kernel)
  rw [At, hreturned, rows_all] at hat
  obtain ⟨hsnapshots, hmessage⟩ := hat
  intro w hw heq
  rw [hmessage, report_eq_report, reportLines_eq_iff, waitingLines_eq_iff] at heq
  obtain ⟨u, hu, hfloor, hF⟩ := hsnapshots ground
  obtain ⟨v, hv, hfloor', hF'⟩ := hsnapshots fourth
  refine hnever w hw ?_ ?_
  · rw [← (heq.2.2 ground).2]
    exact (congrArg (fun ps => (waitingSums ps).2) hF).trans (hground u hu hfloor)
  · rw [← (heq.2.2 fourth).2]
    exact (congrArg (fun ps => (waitingSums ps).2) hF').trans (hfourth v hv hfloor')

/-! ## The reader returns -/

/-- What has been read so far, and a part of the next queue, are no more than all there is. -/
theorem sum_take_le {f g : Fin 10 → ℕ} {k : Fin 10} {m : ℕ}
    (hf : ∀ j : Fin 10, j.val < k.val → f j ≤ g j) (hm : m ≤ g k) :
    (((List.finRange 10).take k.val).map f).sum + m ≤ ((List.finRange 10).map g).sum := by
  calc (((List.finRange 10).take k.val).map f).sum + m
      ≤ (((List.finRange 10).take k.val).map g).sum + g k :=
        Nat.add_le_add (List.sum_le_sum fun j hj => hf j (lt_of_mem_take hj)) hm
    _ = (((List.finRange 10).take (k.val + 1)).map g).sum := by
        rw [take_finRange_succ, List.map_append, List.sum_append, List.map_singleton,
          List.sum_singleton]
    _ ≤ ((List.finRange 10).map g).sum :=
        ((List.take_sublist _ _).map g).sum_le_sum fun _ _ => Nat.zero_le _

theorem pace_le {F : Fin 10 → List Passenger} {seen : List Cell} {k : Fin 10} (h : Held r ms)
    (hpast : Past r ms F k) (hseen : seen.length ≤ (r.state.floors k ++ onFloor k r.calls).length) :
    pace F k seen ≤ 27 + 2 * (waiting (linkAll r.calls r.state)).length := by
  have htotal : (waiting (linkAll r.calls r.state)).length =
      ((List.finRange 10).map fun j => (r.state.floors j ++ onFloor j r.calls).length).sum := by
    rw [waiting, List.length_flatMap]
    simp only [linkAll_floors]
  have hsum := sum_take_le (f := fun j => (F j).length)
    (fun j hj => ((hpast.snapshots j hj).subset h).1) hseen
  rw [pace, htotal]
  omega

theorem Held.length_le (h : Held r ms) {k : Fin 10} {seen : List Cell} {x : Cell}
    (hahead : Ahead r ms k seen x) :
    seen.length ≤ (r.state.floors k ++ onFloor k r.calls).length := by
  refine Ring.Upcoming.length_le hahead ?_ ?_
  · have hsub : (r.order ms r.start).Subperm r.calls :=
      h.nodup.subperm fun p hp => (h.ordered p hp).1
    rw [nodes_floor, List.length_map, List.length_append, List.length_append]
    exact Nat.add_le_add_left (hsub.filter _).length_le _
  · rintro l ⟨ps, hps, rfl⟩
    rw [List.length_map]
    exact (hps.subset h).1

/-- **A read returns**, within 2 of its steps for everybody who may be waiting, and 31 more. -/
theorem read_returns (r : Reading)
    (hontime : Along r.step (OnTime r.passenger) r.moves r.start)
    (hcount : 2 * (waiting (linkAll r.calls r.state)).length + 30 < r.moves.count .read) :
    (r.lobby r.moves).read = .returned := by
  obtain ⟨hheld, F, seen, hat⟩ := inv_run hontime
  rw [At] at hat
  cases hs : (r.lobby r.moves).read with
  | returned => rfl
  | enter =>
    rw [hs] at hat
    exact absurd hat (by omega)
  | first k =>
    rw [hs] at hat
    obtain ⟨hpast, rfl, -, hpace⟩ := hat
    have hle : pace F k [] ≤ _ := pace_le hheld hpast (Nat.zero_le _)
    omega
  | save k temp =>
    rw [hs] at hat
    obtain ⟨hpast, hahead, -, hpace⟩ := hat
    exact absurd (pace_le hheld hpast (hheld.length_le hahead)) (by omega)
  | test k temp dummy =>
    rw [hs] at hat
    obtain ⟨hpast, hahead, -, -, hpace⟩ := hat
    exact absurd (pace_le hheld hpast (hheld.length_le hahead)) (by omega)

theorem passedBy_returns : (passedBy.lobby passedBy.moves).read = .returned := by
  refine read_returns passedBy ?_ ?_
  · decide +kernel
  · decide +kernel

end KernelElevator.Reading
