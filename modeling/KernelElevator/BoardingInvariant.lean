import KernelElevator.Boarding

/-!
# Boarding: the invariant

What memory holds while `load_elevator` takes passengers out of a queue and requests append to it.
The requests come in with one of their writes, and a passenger goes out with the first write of
`__list_del_entry`; in between, the lists are rings in the making.

* `Requests` — how far the requests are; `At` — what the phases of `load_elevator` mean.
* `Inv` — both, and the lists; `Inv.call` — a request that is on time keeps it.
-/

namespace KernelElevator

/-! ## Cells -/

theorem listHead_ne_record (i : Option (Fin 10)) (id : Nat) : listHead i ≠ .record id := by
  cases i <;> simp [listHead]

theorem cell_ne_listHead (p : Passenger) (i : Option (Fin 10)) : p.cell ≠ listHead i :=
  (listHead_ne_record i p.id).symm

/-! ## The records -/

section Records

variable {s : State} {calls : List Passenger} {links : Ring.Links Cell}

theorem list_subset (s : State) (i : Option (Fin 10)) :
    ∀ p ∈ s.list i, p ∈ s.onboard ++ waiting s := by
  intro p hp
  cases i with
  | none => exact List.mem_append_left _ hp
  | some k => exact List.mem_append_right _ (List.mem_flatMap.2 ⟨k, List.mem_finRange k, hp⟩)

variable (h : ((s.onboard ++ waiting s ++ calls).map Passenger.id).Nodup)

include h

theorem list_disjoint {i j : Option (Fin 10)} (hij : i ≠ j) :
    List.Disjoint ((s.list i).map Passenger.cell) ((s.list j).map Passenger.cell) := by
  rw [List.map_append, List.nodup_append] at h
  -- Two records with one name are the same passenger.
  have hinj : ∀ p q : Passenger, p ∈ s.onboard ++ waiting s → q ∈ s.onboard ++ waiting s →
      p.cell = q.cell → p = q := by
    intro p q hp hq hcell
    exact List.inj_on_of_nodup_map h.1 hp hq (by simpa [Passenger.cell] using hcell)
  have hnodup := h.1.of_map _
  rw [List.nodup_append, waiting, List.nodup_flatMap] at hnodup
  obtain ⟨-, ⟨-, hfloors⟩, hboard⟩ := hnodup
  have hsym : Std.Symm (Function.onFun List.Disjoint s.floors) := ⟨fun _ _ h => h.symm⟩
  intro x hx hx'
  obtain ⟨p, hp, rfl⟩ := List.mem_map.1 hx
  obtain ⟨q, hq, hcell⟩ := List.mem_map.1 hx'
  obtain rfl := hinj q p (list_subset s j q hq) (list_subset s i p hp) hcell
  have hwaiting : ∀ k, q ∈ s.floors k → q ∈ (List.finRange 10).flatMap s.floors :=
    fun k hk => List.mem_flatMap.2 ⟨k, List.mem_finRange k, hk⟩
  cases i with
  | none =>
    cases j with
    | none => exact hij rfl
    | some k => exact hboard q hp q (hwaiting k hq) rfl
  | some k =>
    cases j with
    | none => exact hboard q hq q (hwaiting k hp) rfl
    | some l =>
      have hkl : k ≠ l := fun heq => hij (congrArg some heq)
      exact hfloors.forall (List.mem_finRange k) (List.mem_finRange l) hkl hp hq

theorem call_not_mem {p : Passenger} (hp : p ∈ calls) (i : Option (Fin 10)) :
    p.cell ∉ listHead i :: (s.list i).map Passenger.cell := by
  intro hmem
  rcases List.mem_cons.1 hmem with hmem | hmem
  · exact cell_ne_listHead p i hmem
  · obtain ⟨q, hq, hcell⟩ := List.mem_map.1 hmem
    rw [List.map_append, List.nodup_append] at h
    refine h.2.2 q.id (List.mem_map_of_mem (list_subset s i q hq)) p.id (List.mem_map_of_mem hp) ?_
    simpa [Passenger.cell] using hcell

/-- Before any request has moved, the nodes of the lists are linked in. -/
theorem begin_done (i : Option (Fin 10)) : ∀ x ∈ listHead i :: (s.list i).map Passenger.cell,
    (Ring.begin links (calls.map Passenger.cell)).stage x = .done := by
  intro x hx
  refine if_neg fun hmem => ?_
  obtain ⟨p, hp, rfl⟩ := List.mem_map.1 hmem
  exact call_not_mem h hp i hx

theorem begin_making (hholds : Holds s links) :
    Ring.AllMaking listHead (Ring.begin links (calls.map Passenger.cell))
      (fun i => (s.list i).map Passenger.cell) := by
  refine ⟨fun i => Ring.making_of_isRing (hholds i) (begin_done h i), ?_⟩
  intro i j hij x hx hx'
  rcases List.mem_cons.1 hx with rfl | hx
  · rcases List.mem_cons.1 hx' with heq | hx'
    · cases i <;> cases j <;> simp [listHead] at hij heq
      exact hij heq
    · obtain ⟨p, -, hcell⟩ := List.mem_map.1 hx'
      exact cell_ne_listHead p i hcell
  · rcases List.mem_cons.1 hx' with rfl | hx'
    · obtain ⟨p, -, hcell⟩ := List.mem_map.1 hx
      exact cell_ne_listHead p j hcell
    · exact list_disjoint h hij hx hx'

end Records

namespace Boarding

/-! ## The invariant -/

/-- The links and stages with the second write of `__list_del_entry` done along with the first, and
with `list_add_tail` on `onboard` as one more insertion. -/
def view (s : Landing) : Ring.Config Cell :=
  match s.load with
  | .setNext _ _ _ prev next => (s.setNext prev next).config
  | .addTail pos _ stage => { s.config with stage := Function.update s.config.stage pos stage }
  | _ => s.config

/-- The passenger that is on its way from the queue to `onboard`. -/
def underway : LoadPhase → List Cell
  | .setNext true pos _ _ _ => [pos]
  | .addTail pos _ .start => [pos]
  | .addTail pos _ (.read _) => [pos]
  | _ => []

/-- An upper bound on how often `load_elevator` has moved since it took a passenger, with 12 to
start from. -/
def rank : LoadPhase → Nat
  | .enter => 12
  | .first => 13
  | .save _ => 14
  | .test .. => 15
  | .readPrev .. => 16
  | .readNext .. => 17
  | .setPrev .. => 18
  | .setNext .. => 7
  | .poisonNext .. => 8
  | .poisonPrev .. => 9
  | .addTail _ _ .start => 8
  | .addTail _ _ (.read _) => 9
  | .addTail _ _ (.headSet _) => 10
  | .addTail _ _ (.nextSet _) => 11
  | .addTail _ _ (.prevSet _) => 12
  | .addTail _ _ .done => 13
  | .returned _ => 16

/-- The requests `E` have entered the lists, in this order. -/
structure Requests (r : Boarding) (E : List Passenger) (L : Option (Fin 10) → List Cell)
    (c : Ring.Config Cell) : Prop where
  nodup : E.Nodup
  subset : ∀ p ∈ E, p ∈ r.calls
  entered : ∀ p ∈ r.calls, p ∈ E ↔ (c.stage p.cell).Entered
  outside : ∀ x, x ∉ r.calls.map Passenger.cell → c.stage x = .done
  fresh : ∀ p ∈ r.calls, ¬ (c.stage p.cell).Entered → ∀ i, p.cell ∉ listHead i :: L i
  placed : ∀ p ∈ r.calls, ∀ j, slot p.startFloor = some j → ∀ t ∈ (c.stage p.cell).tail,
    p.cell ∈ L (some j)
  aboard : ∀ x ∈ L none, c.stage x = .done

/-- `x` is the first of these, and linked in. -/
def Front (s : Landing) (x : Cell) (ps : List Passenger) : Prop :=
  ∃ p qs, ps = p :: qs ∧ x = p.cell ∧ s.config.stage x = .done

section Phases

variable (r : Boarding) (T rest : List Passenger) (s : Landing)

/-- The traversal goes on with `x`: the first passenger, or the list head when `m` have been taken
and nobody else was there at the start. -/
def Next (x : Cell) (ps : List Passenger) (m : Nat) : Prop :=
  (x = listHead (some r.floor) ∧ (r.state.floors r.floor).length ≤ m ∧ 0 < m) ∨ Front s x ps

def Loaded : Prop := s.globals = T.foldl (Globals.take r.floor) r.state.globals

/-- The first passenger is about to be taken out. -/
def Removing (board : Bool) (pos n : Cell) : Prop :=
  ∃ p ps, rest = p :: ps ∧ pos = p.cell ∧ s.config.stage pos = .done ∧
    Next r s n ps (T.length + 1) ∧
    (board = true ↔ p.state ≠ .equal) ∧
    (p.state = .equal ∨ (T.foldl (Globals.take r.floor) r.state.globals).Fits p) ∧
    Loaded r (T ++ [p]) s

/-- What the phases of `load_elevator` mean, when it has taken `T` and `rest` is left. -/
def At (L : Option (Fin 10) → List Cell) : Prop :=
  match s.load with
  | .enter => T = [] ∧ Loaded r T s
  | .first => T = [] ∧ Loaded r T s ∧
      s.config.links.next (listHead (some r.floor)) ≠ listHead (some r.floor)
  | .save pos => Next r s pos rest T.length ∧ Loaded r T s
  | .test pos n => Loaded r T s ∧
      ((pos = listHead (some r.floor) ∧ (r.state.floors r.floor).length ≤ T.length ∧ 0 < T.length) ∨
        ∃ p ps, rest = p :: ps ∧ pos = p.cell ∧ s.config.stage pos = .done ∧
          Next r s n ps (T.length + 1))
  | .readPrev board pos n => Removing r T rest s board pos n
  | .readNext board pos n prev =>
    Removing r T rest s board pos n ∧ prev = listHead (some r.floor)
  | .setPrev board pos n prev next =>
    Removing r T rest s board pos n ∧ prev = listHead (some r.floor) ∧
      (next = listHead (some r.floor) ∧ (r.state.floors r.floor).length ≤ T.length + 1 ∨
        Front s next rest.tail)
  | .setNext _ pos n prev _ =>
    Next r s n rest T.length ∧ Loaded r T s ∧ prev = listHead (some r.floor) ∧
      (∀ i, pos ∉ listHead i :: L i) ∧ s.config.stage pos = .done
  | .poisonNext pos n =>
    Next r s n rest T.length ∧ Loaded r T s ∧ (∀ i, pos ∉ listHead i :: L i) ∧
      s.config.stage pos = .done
  | .poisonPrev pos n =>
    Next r s n rest T.length ∧ Loaded r T s ∧ (∀ i, pos ∉ listHead i :: L i) ∧
      s.config.stage pos = .done
  | .addTail pos n stage =>
    Next r s n rest T.length ∧ Loaded r T s ∧ s.config.stage pos = .done ∧
      (∀ i, pos ≠ listHead i) ∧ (¬ stage.Entered → ∀ i, pos ∉ listHead i :: L i) ∧
      (∀ t ∈ stage.tail, pos ∈ L none) ∧
      (∀ t, stage = .read t → s.config.links.prev (listHead none) = t) ∧ stage ≠ .done
  | .returned value => Loaded r T s ∧
      (value = 0 ∧ (r.state.floors r.floor).length ≤ T.length ∧ 0 < T.length ∨
        value = -1 ∧ (T = [] ∧ r.state.floors r.floor = [] ∨
          rest ≠ [] ∧ Stops (T.foldl (Globals.take r.floor) r.state.globals) rest))

end Phases

/-- The requests `E` have entered, and `load_elevator` has taken `T` out of the queue. -/
structure Inv (r : Boarding) (E T rest : List Passenger) (L : Option (Fin 10) → List Cell)
    (s : Landing) : Prop where
  rings : Ring.AllMaking listHead (view s) L
  requests : Requests r E L s.config
  queue : r.state.floors r.floor ++ onFloor r.floor E = T ++ rest
  takes : Takeable r.floor T r.state.globals
  here : L (some r.floor) = rest.map Passenger.cell
  others : ∀ j, j ≠ r.floor → L (some j) = (r.state.floors j ++ onFloor j E).map Passenger.cell
  onboard : L none ++ underway s.load =
    (r.state.onboard ++ T.filter (·.state ≠ .equal)).map Passenger.cell
  phase : At r T rest s L
  steps : s.steps + 12 ≤ 12 * T.length + rank s.load

/-! ## A request moves -/

section Call

variable {r : Boarding} {E T rest : List Passenger} {L L' : Option (Fin 10) → List Cell}
  {s s' : Landing} {x : Cell} {ps : List Passenger} {m : Nat}

theorem Front.mono (h : Front s x ps)
    (hdone : ∀ x, s.config.stage x = .done → s'.config.stage x = .done) (l : List Passenger) :
    Front s' x (ps ++ l) := by
  obtain ⟨p, qs, rfl, hx, hstage⟩ := h
  exact ⟨p, qs ++ l, rfl, hx, hdone x hstage⟩

theorem Next.mono (h : Next r s x ps m)
    (hdone : ∀ x, s.config.stage x = .done → s'.config.stage x = .done) (l : List Passenger) :
    Next r s' x (ps ++ l) m := h.imp_right fun hfront => hfront.mono hdone l

theorem Removing.mono {board : Bool} {pos n : Cell} (h : Removing r T rest s board pos n)
    (hglobals : s'.globals = s.globals)
    (hdone : ∀ x, s.config.stage x = .done → s'.config.stage x = .done) (l : List Passenger) :
    Removing r T (rest ++ l) s' board pos n := by
  obtain ⟨p, ps, rfl, hpos, hstage, hnext, hboard, hfits, hloaded⟩ := h
  exact ⟨p, ps ++ l, rfl, hpos, hdone _ hstage, hnext.mono hdone l, hboard, hfits,
    hglobals.trans hloaded⟩

/-- What a move of a request leaves alone. -/
structure Undisturbed (r : Boarding) (s s' : Landing) (L L' : Option (Fin 10) → List Cell) :
    Prop where
  load : s'.load = s.load
  globals : s'.globals = s.globals
  steps : s'.steps = s.steps
  done : ∀ x, s.config.stage x = .done → s'.config.stage x = .done
  tail : s'.config.links.prev (listHead none) = s.config.links.prev (listHead none)
  first : s.config.links.next (listHead (some r.floor)) ≠ listHead (some r.floor) →
    s'.config.links.next (listHead (some r.floor)) ≠ listHead (some r.floor)
  onboard : L' none = L none
  out : ∀ x, s.config.stage x = .done → (∀ i, x ∉ listHead i :: L i) → ∀ i, x ∉ listHead i :: L' i

theorem At.mono (h : At r T rest s L) (hsame : Undisturbed r s s' L L') (l : List Passenger) :
    At r T (rest ++ l) s' L' := by
  obtain ⟨hload, hglobals, -, hdone, htail, hfirst, honboard, hout⟩ := hsame
  have hloaded : ∀ {T}, Loaded r T s → Loaded r T s' := fun h => hglobals.trans h
  rw [At, hload]
  rw [At] at h
  cases hs : s.load with
  | enter =>
    rw [hs] at h
    exact ⟨h.1, hloaded h.2⟩
  | first =>
    rw [hs] at h
    exact ⟨h.1, hloaded h.2.1, hfirst h.2.2⟩
  | save pos =>
    rw [hs] at h
    exact ⟨h.1.mono hdone l, hloaded h.2⟩
  | test pos n =>
    rw [hs] at h
    refine ⟨hloaded h.1, h.2.imp_right ?_⟩
    rintro ⟨p, ps, rfl, hpos, hstage, hnext⟩
    exact ⟨p, ps ++ l, rfl, hpos, hdone _ hstage, hnext.mono hdone l⟩
  | readPrev board pos n =>
    rw [hs] at h
    exact Removing.mono h hglobals hdone l
  | readNext board pos n prev =>
    rw [hs] at h
    exact ⟨h.1.mono hglobals hdone l, h.2⟩
  | setPrev board pos n prev next =>
    rw [hs] at h
    obtain ⟨hremoving, hprev, hnext⟩ := h
    refine ⟨hremoving.mono hglobals hdone l, hprev, hnext.imp_right ?_⟩
    intro hfront
    obtain ⟨p, ps, rfl, -⟩ := hremoving
    exact hfront.mono hdone l
  | setNext board pos n prev next =>
    rw [hs] at h
    obtain ⟨hnext, hl, hprev, hpos, hstage⟩ := h
    exact ⟨hnext.mono hdone l, hloaded hl, hprev, hout _ hstage hpos, hdone _ hstage⟩
  | poisonNext pos n =>
    rw [hs] at h
    obtain ⟨hnext, hl, hpos, hstage⟩ := h
    exact ⟨hnext.mono hdone l, hloaded hl, hout _ hstage hpos, hdone _ hstage⟩
  | poisonPrev pos n =>
    rw [hs] at h
    obtain ⟨hnext, hl, hpos, hstage⟩ := h
    exact ⟨hnext.mono hdone l, hloaded hl, hout _ hstage hpos, hdone _ hstage⟩
  | addTail pos n stage =>
    rw [hs] at h
    obtain ⟨hnext, hl, hstage, hhead, hfresh, hmem, hread, hnot⟩ := h
    refine ⟨hnext.mono hdone l, hloaded hl, hdone _ hstage, hhead, ?_, ?_, ?_, hnot⟩
    · intro he
      exact hout _ hstage (hfresh he)
    · intro t ht
      rw [honboard]
      exact hmem t ht
    · intro t ht
      rw [htail]
      exact hread t ht
  | returned value =>
    rw [hs] at h
    refine ⟨hloaded h.1, h.2.imp_right fun hfull => ⟨hfull.1, hfull.2.imp_right ?_⟩⟩
    rintro ⟨hne, hstops⟩
    refine ⟨by simp [hne], ?_⟩
    intro p hp
    rw [List.head?_append_of_ne_nil _ hne] at hp
    exact hstops p hp

/-- The passenger whose request writes `head->prev`. -/
def newcomer (c : Ring.Config Cell) (p : Passenger) : List Passenger :=
  match c.stage p.cell with
  | .read _ => [p]
  | _ => []

theorem grown_eq (c : Ring.Config Cell) (p : Passenger) (xs : List Cell) :
    Ring.grown c p.cell xs = xs ++ (newcomer c p).map Passenger.cell := by
  unfold Ring.grown newcomer
  cases c.stage p.cell with
  | read t => rfl
  | _ => exact (List.append_nil xs).symm

theorem mem_newcomer {c : Ring.Config Cell} {p q : Passenger} :
    q ∈ newcomer c p ↔ q = p ∧ ∃ t, c.stage p.cell = .read t := by
  unfold newcomer
  cases c.stage p.cell with
  | read t => simp
  | _ => simp

theorem cell_inj {p q : Passenger} (hp : p ∈ r.calls) (hq : q ∈ r.calls) (h : p.cell = q.cell) :
    p = q := by
  have hid : p.id = q.id := by simpa [Passenger.cell] using h
  rw [← r.filled p (List.mem_append_right _ hp), ← r.filled q (List.mem_append_right _ hq), hid]

/-- A request that has yet to return. -/
theorem Requests.exists_call {c : Ring.Config Cell} (h : Requests r E L c) {id : Nat}
    (hid : c.stage (.record id) ≠ .done) : ∃ p ∈ r.calls, p.id = id ∧ r.passenger id = p := by
  have hmem : Cell.record id ∈ r.calls.map Passenger.cell := by
    by_contra hout
    exact hid (h.outside _ hout)
  obtain ⟨p, hp, hcell⟩ := List.mem_map.1 hmem
  obtain rfl : p.id = id := by simpa [Passenger.cell] using hcell
  exact ⟨p, hp, rfl, r.filled p (List.mem_append_right _ hp)⟩

theorem Requests.move {c : Ring.Config Cell} (h : Requests r E L c) {p : Passenger} {j : Fin 10}
    (hp : p ∈ r.calls) (hj : slot p.startFloor = some j) :
    Requests r (E ++ newcomer c p)
      (Function.update L (some j) (Ring.grown c p.cell (L (some j))))
      (Ring.move (listHead (some j)) p.cell c) := by
  have hother : ∀ q ∈ r.calls, q ≠ p →
      (Ring.move (listHead (some j)) p.cell c).stage q.cell = c.stage q.cell := by
    intro q hq hqp
    exact Ring.move_stage_ne fun heq => hqp (cell_inj hq hp heq)
  -- Nobody but the newcomer gets into a list, and nobody gets out.
  have hsub : ∀ i x, x ∈ Function.update L (some j) (Ring.grown c p.cell (L (some j))) i →
      x ∈ L i ∨ x = p.cell ∧ ∃ t, c.stage p.cell = .read t := by
    intro i x hx
    by_cases hi : i = some j
    · rw [hi, Function.update_self] at hx
      rw [hi]
      exact (Ring.mem_grown.1 hx).imp_right And.symm
    · rw [Function.update_of_ne hi] at hx
      exact .inl hx
  have hsup : ∀ i x, x ∈ L i →
      x ∈ Function.update L (some j) (Ring.grown c p.cell (L (some j))) i := by
    intro i x hx
    by_cases hi : i = some j
    · rw [hi] at hx
      rw [hi, Function.update_self]
      exact Ring.mem_grown.2 (.inl hx)
    · rwa [Function.update_of_ne hi]
  refine ⟨?_, ?_, ?_, ?_, ?_, ?_, ?_⟩
  · refine List.nodup_append.2 ⟨h.nodup, ?_, ?_⟩
    · unfold newcomer
      cases c.stage p.cell with
      | read t => exact List.nodup_singleton p
      | _ => exact List.nodup_nil
    · intro q hq q' hq' heq
      obtain ⟨rfl, t, ht⟩ := mem_newcomer.1 hq'
      rw [heq] at hq
      have hentered := (h.entered _ hp).1 hq
      rw [ht] at hentered
      exact hentered
  · intro q hq
    rcases List.mem_append.1 hq with hq | hq
    · exact h.subset q hq
    · rw [(mem_newcomer.1 hq).1]
      exact hp
  · intro q hq
    rw [List.mem_append, mem_newcomer, h.entered q hq]
    by_cases hqp : q = p
    · subst hqp
      rw [Ring.move_entered]
      simp
    · rw [hother q hq hqp]
      simp [hqp]
  · intro x hx
    exact Ring.move_done (h.outside x hx)
  · intro q hq hfresh i hmem
    have hbefore : ¬ (c.stage q.cell).Entered := by
      by_cases hqp : q = p
      · rw [hqp, Ring.move_entered, not_or] at hfresh
        rw [hqp]
        exact hfresh.1
      · rwa [hother q hq hqp] at hfresh
    rcases List.mem_cons.1 hmem with hmem | hmem
    · exact cell_ne_listHead q i hmem
    · rcases hsub i _ hmem with hmem | ⟨hcell, t, ht⟩
      · exact h.fresh q hq hbefore i (List.mem_cons_of_mem _ hmem)
      · rw [cell_inj hq hp hcell, Ring.move_entered] at hfresh
        exact hfresh (.inr ⟨t, ht⟩)
  · intro q hq i hi t ht
    by_cases hqp : q = p
    · subst hqp
      obtain rfl : j = i := Option.some.inj (hj.symm.trans hi)
      rw [Function.update_self, Ring.mem_grown]
      rcases Ring.tail_of_move ht with ht | ht
      · exact .inl (h.placed q hq j hj t ht)
      · exact .inr ⟨⟨t, ht⟩, rfl⟩
    · rw [hother q hq hqp] at ht
      exact hsup _ _ (h.placed q hq i hi t ht)
  · intro x hx
    rw [Function.update_of_ne (by simp)] at hx
    exact Ring.move_done (h.aboard x hx)

/-- The view has the moving request where it is. -/
theorem view_stage {n : Cell} (h : At r T rest s L) (hn : s.config.stage n ≠ .done) :
    (view s).stage n = s.config.stage n := by
  rw [At] at h
  unfold view
  cases hs : s.load with
  | addTail pos m stage =>
    rw [hs] at h
    have hne : n ≠ pos := fun heq => hn (heq ▸ h.2.2.1)
    exact Function.update_of_ne hne _ _
  | _ => rfl

theorem view_prev (s : Landing) : (view s).links.prev = s.config.links.prev := by
  unfold view
  cases s.load with
  | _ => rfl

theorem view_move {n head : Cell} (h : At r T rest s L) (hn : s.config.stage n ≠ .done)
    (hhead : ∀ i, n ≠ listHead i) (hpending : ∀ t, s.config.stage n = .prevSet t → ¬ Pending s t) :
    view { s with config := Ring.move head n s.config } = Ring.move head n (view s) := by
  rw [At] at h
  unfold view
  cases hs : s.load with
  | setNext board pos m prev next =>
    rw [hs] at h
    obtain ⟨-, -, hprev, -⟩ := h
    refine (Ring.move_setNext (hprev ▸ (hhead _).symm) ?_).symm
    intro t ht heq
    exact hpending t ht ⟨board, pos, m, next, by rw [hs, heq]⟩
  | addTail pos m stage =>
    rw [hs] at h
    have hne : pos ≠ n := fun heq => hn (heq ▸ h.2.2.1)
    exact (Ring.move_setStage hne).symm
  | _ => rfl

/-- In the view, too, nobody links himself behind a cell that will still set its own link. -/
theorem timely_view {n : Cell} {j : Fin 10} (h : At r T rest s L)
    (hrings : Ring.AllMaking listHead (view s) L) (hn : s.config.stage n ≠ .done)
    (hmem : ∀ t ∈ (s.config.stage n).tail, n ∈ L (some j))
    (htimely : Ring.Timely (listHead (some j)) s.config n) :
    Ring.Timely (listHead (some j)) (view s) n := by
  have hstage := view_stage h hn
  refine ⟨?_, ?_⟩
  · rw [hstage, view_prev]
    exact htimely.1
  · intro t ht u hu
    have ht' : t ∈ ((view s).stage n).tail := by rw [ht]; rfl
    have htmem : t ∈ listHead (some j) :: L (some j) :=
      (hrings.making (some j)).forming.tail_mem (hmem t (hstage ▸ ht')) ht'
    rw [hstage] at ht
    rw [At] at h
    unfold view at hu
    cases hs : s.load with
    | addTail pos m stage =>
      rw [hs] at h hu
      obtain ⟨-, -, -, -, -, honboard, -, -⟩ := h
      by_cases htpos : t = pos
      · have hsame : stage = .headSet u := by simpa [htpos] using hu
        have hpos : pos ∈ L none := honboard u (by rw [hsame]; rfl)
        exact hrings.disjoint (some j) none (by simp) htmem
          (htpos ▸ List.mem_cons_of_mem _ hpos)
      · exact htimely.2 t ht u (by simpa [htpos] using hu)
    | _ =>
      rw [hs] at hu
      exact htimely.2 t ht u hu

/-- **A request that is on time** adds its passenger to its queue, at one of its moves. -/
theorem Inv.call (h : Inv r E T rest L s) {id : Nat}
    (hontime : OnTime r.passenger r.floor s (.call id)) :
    ∃ E' rest' L', Inv r E' T rest' L' (s.callStep r.passenger id) := by
  rw [Landing.callStep]
  cases hj : slot (r.passenger id).startFloor with
  | none => exact ⟨E, rest, L, h⟩
  | some j =>
    obtain ⟨htimely, hpending⟩ := hontime j hj
    by_cases hdone : s.config.stage (.record id) = .done
    · refine ⟨E, rest, L, ?_⟩
      have hmove : Ring.move (listHead (some j)) (.record id) s.config = s.config := by
        rw [Ring.move, hdone]
      simp only [hmove]
      exact h
    obtain ⟨p, hp, rfl, hpassenger⟩ := h.requests.exists_call hdone
    rw [hpassenger] at hj
    have hmem := h.requests.placed p hp j hj
    have hstage : (view s).stage p.cell = s.config.stage p.cell := view_stage h.phase hdone
    have hcomm : view { s with config := Ring.move (listHead (some j)) p.cell s.config } =
        Ring.move (listHead (some j)) p.cell (view s) :=
      view_move h.phase hdone (cell_ne_listHead p) hpending
    have hnew : newcomer (view s) p = newcomer s.config p := by
      unfold newcomer
      rw [hstage]
    set l := newcomer s.config p with hl
    have hL : Function.update L (some j) (Ring.grown (view s) p.cell (L (some j))) =
        Function.update L (some j) (Ring.grown s.config p.cell (L (some j))) := by
      rw [grown_eq, grown_eq, hnew]
    have hrings := h.rings.move (n := p.cell) (i := some j) (cell_ne_listHead p)
      (by rw [hstage]; exact h.requests.fresh p hp) (by rw [hstage]; exact hmem)
      (timely_view h.phase h.rings hdone hmem htimely)
    rw [hL, ← hcomm] at hrings
    -- The other passengers keep their queues.
    have hqueue : ∀ i : Fin 10,
        Function.update L (some j) (Ring.grown s.config p.cell (L (some j))) (some i) =
          L (some i) ++ (onFloor i l).map Passenger.cell := by
      intro i
      by_cases hi : i = j
      · have hon : onFloor i l = l := by
          refine List.filter_eq_self.2 ?_
          intro q hq
          rw [(mem_newcomer.1 hq).1, hi]
          simpa using hj
        rw [hi, Function.update_self, grown_eq, ← hi, hon]
      · have hon : onFloor i l = [] := by
          refine List.filter_eq_nil_iff.2 ?_
          intro q hq
          rw [(mem_newcomer.1 hq).1, hj]
          simpa using Ne.symm hi
        rw [Function.update_of_ne (by simpa using hi), hon, List.map_nil, List.append_nil]
    have hsame : Undisturbed r s
        { s with config := Ring.move (listHead (some j)) p.cell s.config } L
        (Function.update L (some j) (Ring.grown s.config p.cell (L (some j)))) := by
      refine ⟨rfl, rfl, rfl, fun _ => Ring.move_done, ?_, ?_, ?_, ?_⟩
      · exact Ring.move_prev (by simp [listHead]) (cell_ne_listHead p none).symm
      · exact Ring.move_next_ne (cell_ne_listHead p _).symm (cell_ne_listHead p _)
      · exact Function.update_of_ne (by simp) _ _
      · intro x hx hout i hxi
        rcases List.mem_cons.1 hxi with hxi | hxi
        · exact hout i (hxi ▸ List.mem_cons_self)
        · by_cases hi : i = some j
          · rw [hi, Function.update_self, Ring.mem_grown] at hxi
            rcases hxi with hxi | ⟨⟨t, ht⟩, rfl⟩
            · exact hout (some j) (List.mem_cons_of_mem _ hxi)
            · rw [ht] at hx
              cases hx
          · rw [Function.update_of_ne hi] at hxi
            exact hout i (List.mem_cons_of_mem _ hxi)
    refine ⟨E ++ l, rest ++ onFloor r.floor l, _, hrings, h.requests.move hp hj, ?_, h.takes, ?_,
      ?_, ?_, h.phase.mono hsame _, h.steps⟩
    · rw [onFloor_append, ← List.append_assoc, h.queue, List.append_assoc]
    · rw [hqueue, h.here, List.map_append]
    · intro i hi
      rw [hqueue, h.others i hi, onFloor_append, ← List.map_append, List.append_assoc]
    · rw [Function.update_of_ne (by simp)]
      exact h.onboard

end Call

end Boarding

end KernelElevator
