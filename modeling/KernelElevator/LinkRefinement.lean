import KernelElevator.LinkLevel
import KernelElevator.FloorStop

/-!
# The traversals do what the functions do

Each `list_for_each_safe` of `load_elevator`, `unload_elevator` and `delete_passenger` has a loop
invariant: the memory represents a state, and the list that is ahead of the traversal is a part of
its list, behind the passengers that have stayed on it. What the body does is one step of the
function on lists.

* `Low.Refines` — a call ends, and leaves a memory that represents the outcome of the function.
* `traversals_refine` — so do the three functions, for any memory, with traversals that stand on no
  node of another list and on none twice.
* `printing_visits_again` — but a call has more than one traversal.
-/

namespace KernelElevator

open Ring (Mem Lists)

theorem putQueue_floorOf (floors : Fin 10 → List Passenger) (k : Fin 10) (q : List Passenger) :
    putQueue floors (floorOf k) q = Function.update floors k q := by
  rw [putQueue, slot_floorOf]

theorem bump_floorOf (served : Fin 10 → Int) (k : Fin 10) :
    bump served (floorOf k) = Function.update served k (served k + 1) := by
  rw [bump, slot_floorOf]

theorem serve_floorOf (g : Globals) (k : Fin 10) : Low.serve (floorOf k) g =
    some { g with served := bump g.served (floorOf k), totalServed := g.totalServed + 1 } := by
  simp [Low.serve, slot_floorOf, bump_floorOf]

namespace Low

variable {used : Set Place} {s : State} {moveList : List Passenger} {l : Low} {fuel : ℕ}

theorem entry_cell {p : Passenger} (hlive : l.mem.live p.cell = true)
    (hp : l.passenger p.id = p) : l.entry p.cell = some p := by
  rw [Passenger.cell] at hlive
  simp [Passenger.cell, entry, hlive, hp]

theorem exists_traverse {γ : Type} {place : Place} {body : Cell → Low → Option (Option Int × Low)}
    {I : List Passenger → γ → Low → Prop}
    {Q : List Passenger → γ → List Cell → Option Int → Low → Prop}
    (hinv : Ring.LoopInvariant Passenger.cell mem (.head place) body I Q) {ps : List Passenger}
    {g : γ} (hl : I ps g l)
    (hfirst : l.mem.next (.head place) = some ((ps.map Passenger.cell).headD (.head place)))
    (hfuel : ps.length < fuel) :
    ∃ nodes r t, l.traverse place body fuel =
      some (r, { t with walks := t.walks ++ [⟨place, nodes⟩] }) ∧ Q ps g nodes r t := by
  obtain ⟨nodes, r, t, hrun, hQ⟩ := hinv.listForEachSafe hl hfirst hfuel
  exact ⟨nodes, r, t, by simp [traverse, hrun], hQ⟩

theorem printWhoOnIt_eq (h : Represents used s moveList l) (hon : .onboard ∈ used)
    (hfuel : s.onboard.length < fuel) : l.printWhoOnIt fuel =
      some { l with walks := l.walks ++ [Walk.whole .onboard s.onboard] } := by
  have hinv : Ring.LoopInvariant Passenger.cell mem (.head .onboard) printBody
      (fun ps (_ : Unit) t => t = l ∧ ∃ past, s.onboard = past ++ ps)
      (fun ps _ nodes r t => nodes = ps.map Passenger.cell ∧ r = none ∧ t = l) := by
    refine ⟨fun p => cell_ne_head p .onboard, ?_, ?_, ?_⟩
    · intro _ t ht
      rw [ht.1]
      exact ⟨⟨_, h.linked.first hon⟩, rfl, rfl, rfl⟩
    · intro p ps _ t ht
      obtain ⟨rfl, past, hpast⟩ := ht
      exact h.linked.next hon hpast
    · intro p ps _ t ht
      obtain ⟨rfl, past, hpast⟩ := ht
      have hp : p ∈ s.lists moveList .onboard := by
        show p ∈ s.onboard
        simp [hpast]
      have hentry := entry_cell (h.linked.live hon hp) (h.linked.passenger _ hon p hp)
      refine .inr ⟨(), t, by simp [printBody, hentry], ⟨rfl, past ++ [p], by simp [hpast]⟩, ?_⟩
      intro nodes r u hu
      exact ⟨congrArg (p.cell :: ·) hu.1, hu.2⟩
  obtain ⟨nodes, r, t, hrun, rfl, rfl, rfl⟩ :=
    exists_traverse (g := ()) hinv ⟨rfl, [], rfl⟩ (h.linked.first hon) hfuel
  simp [printWhoOnIt, hrun, Walk.whole]

/-- The call ends, given enough fuel, with what the function on lists returns, and leaves its
outcome in memory; its traversals stand on no node twice, and are as `P` says. -/
def Refines (used : Set Place) (l : Low) (call : Option (Int × Low)) (outcome : Int × State)
    (P : List Walk → Prop) : Prop :=
  ∃ t walks, call = some (outcome.1, t) ∧ Represents used outcome.2 [] t ∧
    t.walks = l.walks ++ walks ∧ (∀ w ∈ walks, w.nodes.Nodup) ∧ P walks

/-- The traversals of a call that has one of its own, which stands on nodes of the passengers `ps`
of `place`, or none. Those before it are of `print_who_on_it`, over what is on board at the time. -/
def OwnWalk (place : Place) (ps : List Passenger) (prints : List (List Passenger))
    (walks : List Walk) : Prop :=
  walks = [] ∨ ∃ own, walks = prints.map (Walk.whole .onboard) ++ [own] ∧ own.place = place ∧
    own.nodes <+: ps.map Passenger.cell

/-- What a traversal achieves that has come to the outcome of a function: with the walks before it,
and those of `print_who_on_it` in its body. -/
structure Achieves (used : Set Place) (moveList : List Passenger) (walks : List Walk)
    (outcome : Int × State) (prints : List (List Passenger)) (r : Option Int) (t : Low) : Prop where
  value : r.getD 0 = outcome.1
  represents : Represents used outcome.2 moveList t
  walks : t.walks = walks ++ prints.map (Walk.whole .onboard)
  nodup : ∀ qs ∈ prints, (qs.map Passenger.cell).Nodup

/-- The body has printed the passengers `qs`. -/
theorem Achieves.print {walks : List Walk} {outcome : Int × State} {prints : List (List Passenger)}
    {qs : List Passenger} {r : Option Int} {t : Low}
    (h : Achieves used moveList (walks ++ [Walk.whole .onboard qs]) outcome prints r t)
    (hqs : (qs.map Passenger.cell).Nodup) :
    Achieves used moveList walks outcome (qs :: prints) r t := by
  refine ⟨h.value, h.represents, ?_, ?_⟩
  · rw [h.walks, List.append_assoc, List.map_cons, List.singleton_append]
  · intro qs' hqs'
    rcases List.mem_cons.1 hqs' with rfl | hqs'
    · exact hqs
    · exact h.nodup qs' hqs'

/-- A call without a traversal. -/
theorem refines_of_none {call : Option (Int × Low)} {outcome : Int × State} {place : Place}
    {ps : List Passenger} {prints : List (List Passenger)} (hcall : call = some (outcome.1, l))
    (h : Represents used outcome.2 [] l) : Refines used l call outcome (OwnWalk place ps prints) :=
  ⟨l, [], hcall, h, (List.append_nil _).symm, by simp, .inl rfl⟩

/-- A call with the traversal of a list. -/
theorem refines_of_own {call : Option (Int × Low)} {outcome : Int × State} {place : Place}
    {ps : List Passenger} {prints : List (List Passenger)} {nodes : List Cell} {r : Option Int}
    {t : Low}
    (hcall : call = some (r.getD 0, { t with walks := t.walks ++ [⟨place, nodes⟩] }))
    (h : Achieves used [] l.walks outcome prints r t) (hnodes : nodes <+: ps.map Passenger.cell)
    (hnodup : (ps.map Passenger.cell).Nodup) :
    Refines used l call outcome (OwnWalk place ps prints) := by
  refine ⟨{ t with walks := t.walks ++ [⟨place, nodes⟩] },
    prints.map (Walk.whole .onboard) ++ [⟨place, nodes⟩], ?_,
    ⟨h.represents.linked, h.represents.globals⟩, ?_, ?_, .inr ⟨_, rfl, rfl, hnodes⟩⟩
  · rw [hcall, h.value]
  · rw [h.walks, List.append_assoc]
  · intro w hw
    rcases List.mem_append.1 hw with hw | hw
    · obtain ⟨qs, hqs, rfl⟩ := List.mem_map.1 hw
      exact h.nodup qs hqs
    · rw [List.mem_singleton.1 hw]
      exact hnodup.sublist hnodes.sublist

/-- The state that the memory represents, and the walks so far. -/
structure Ghost where
  state : State
  walks : List Walk

/-! ## Loading -/

section Load

variable {k : Fin 10} {p : Passenger} {ps : List Passenger}

theorem entry_front (h : Represents used s moveList l) (hk : .floor k ∈ used)
    (hq : s.floors k = p :: ps) : l.entry p.cell = some p := by
  have hp : p ∈ s.lists moveList (.floor k) := by
    show p ∈ s.floors k
    simp [hq]
  exact entry_cell (h.linked.live hk hp) (h.linked.passenger _ hk p hp)

theorem lists_serveHere (moveList : List Passenger) (hq : s.floors k = p :: ps) :
    (s.serveHere (floorOf k) p).lists moveList =
      Function.update (s.lists moveList) (.floor k) ps := by
  have hfloors : (s.serveHere (floorOf k) p).floors = Function.update s.floors k ps := by
    show putQueue s.floors (floorOf k) ((s.queue (floorOf k)).erase p) = _
    rw [State.queue, getQueue_floorOf, hq, List.erase_cons_head, putQueue_floorOf]
  rw [← lists_floors, ← hfloors]
  rfl

theorem lists_board (moveList : List Passenger) (hq : s.floors k = p :: ps) :
    (s.board (floorOf k) p).lists moveList =
      Function.update (Function.update (s.lists moveList) (.floor k) ps) .onboard
        (s.onboard ++ [p]) := by
  rw [← lists_serveHere _ hq, ← lists_onboard]
  rfl

theorem loadBody_serves (fuel : ℕ) (h : Represents used s moveList l) (hk : .floor k ∈ used)
    (hq : s.floors k = p :: ps) (hequal : p.state = .equal) :
    ∃ t, loadBody (floorOf k) fuel p.cell l = some (none, t) ∧
      Represents used (s.serveHere (floorOf k) p) moveList t ∧ t.walks = l.walks := by
  have hxs : s.lists moveList (.floor k) = [] ++ p :: ps := hq
  obtain ⟨mem', hmem, -, hlinked, -⟩ := h.linked.listDel hk hxs
  rw [List.nil_append, ← lists_serveHere _ hq] at hlinked
  refine ⟨{ l with mem := mem', globals := (s.serveHere (floorOf k) p).globals }, ?_,
    ⟨hlinked, rfl⟩, rfl⟩
  simp only [loadBody, entry_front h hk hq, Option.bind_eq_bind, Option.bind_some, if_pos hequal,
    serve_floorOf, hmem, h.globals]
  rfl

theorem loadBody_boards (h : Represents used s moveList l) (hk : .floor k ∈ used)
    (hon : .onboard ∈ used) (hq : s.floors k = p :: ps) (hequal : p.state ≠ .equal)
    (hfits : Fits s p) (hfuel : s.onboard.length + 1 < fuel) :
    ∃ t, loadBody (floorOf k) fuel p.cell l = some (none, t) ∧
      Represents used (s.board (floorOf k) p) moveList t ∧
      t.walks = l.walks ++ [Walk.whole .onboard (s.onboard ++ [p])] := by
  have hxs : s.lists moveList (.floor k) = [] ++ p :: ps := hq
  obtain ⟨mem', hmem, -, hlinked⟩ := h.linked.listMoveTail hk hon (by simp) hxs
  rw [List.nil_append] at hlinked
  have hrep : Represents used (s.board (floorOf k) p) moveList
      { l with mem := mem', globals := (s.board (floorOf k) p).globals } := by
    refine ⟨?_, rfl⟩
    rw [lists_board _ hq]
    exact hlinked
  have hlength : (s.board (floorOf k) p).onboard.length < fuel := by
    show (s.onboard ++ [p]).length < fuel
    rwa [List.length_append]
  have hprint := printWhoOnIt_eq hrep hon hlength
  refine ⟨{ l with
      mem := mem'
      globals := (s.board (floorOf k) p).globals
      walks := l.walks ++ [Walk.whole .onboard (s.onboard ++ [p])] }, ?_,
    ⟨hrep.linked, rfl⟩, rfl⟩
  have hfits' : s.globals.currentWeight + p.weightUnits ≤ maxWeight ∧
      s.globals.currentUnits + p.spaceUnits ≤ maxUnits := hfits
  simp only [loadBody, entry_front h hk hq, Option.bind_eq_bind, Option.bind_some, if_neg hequal,
    h.globals, if_pos hfits', hmem]
  show (printWhoOnIt fuel { l with mem := mem', globals := (s.board (floorOf k) p).globals }).bind
    (fun l => some (none, l)) = _
  rw [hprint]
  rfl

theorem loadBody_stops (h : Represents used s moveList l) (hk : .floor k ∈ used)
    (hq : s.floors k = p :: ps) (hequal : p.state ≠ .equal) (hfits : ¬ Fits s p) :
    loadBody (floorOf k) fuel p.cell l = some (some (-1), l) := by
  have hfits' : ¬ (s.globals.currentWeight + p.weightUnits ≤ maxWeight ∧
      s.globals.currentUnits + p.spaceUnits ≤ maxUnits) := hfits
  simp only [loadBody, entry_front h hk hq, Option.bind_eq_bind, Option.bind_some, if_neg hequal,
    h.globals, if_neg hfits']
  rfl

/-- Who is on board each time that `load_elevator` prints them. -/
def loadPrints (weight units : Int) (onboard : List Passenger) :
    List Passenger → List (List Passenger)
  | [] => []
  | p :: ps =>
    if p.state = .equal then loadPrints weight units onboard ps
    else if weight + p.weightUnits ≤ maxWeight ∧ units + p.spaceUnits ≤ maxUnits then
      (onboard ++ [p]) ::
        loadPrints (weight + p.weightUnits) (units + p.spaceUnits) (onboard ++ [p]) ps
    else []

/-- The traversal of a queue has come to the passengers `ps`; there is fuel to print everybody who
may board. -/
structure Loading (used : Set Place) (moveList : List Passenger) (k : Fin 10) (fuel : ℕ)
    (ps : List Passenger) (g : Ghost) (l : Low) : Prop where
  represents : Represents used g.state moveList l
  ahead : g.state.floors k = ps
  fuel : g.state.onboard.length + ps.length < fuel
  walks : l.walks = g.walks

theorem load_invariant (fuel : ℕ) (hk : .floor k ∈ used) (hon : .onboard ∈ used) :
    Ring.LoopInvariant Passenger.cell mem (.head (.floor k)) (loadBody (floorOf k) fuel)
      (Loading used moveList k fuel) (fun ps g nodes r t => nodes <+: ps.map Passenger.cell ∧
        Achieves used moveList g.walks (loadLoop (floorOf k) ps g.state)
          (loadPrints g.state.currentWeight g.state.currentUnits g.state.onboard ps) r t) := by
  refine ⟨fun p => cell_ne_head p _, ?_, ?_, ?_⟩
  · intro g l h
    exact ⟨⟨_, h.represents.linked.first hk⟩, List.nil_prefix, rfl, h.represents,
      by simp [h.walks, loadPrints], by simp [loadPrints]⟩
  · intro p ps g l h
    exact h.represents.linked.next_front hk h.ahead
  · intro p ps g l h
    obtain ⟨s, ws⟩ := g
    obtain ⟨hrep, hq, hfuel, hws⟩ := h
    rw [List.length_cons] at hfuel
    simp only at hrep hq hfuel hws
    by_cases hequal : p.state = .equal
    · obtain ⟨t, hrun, ht, htws⟩ := loadBody_serves fuel hrep hk hq hequal
      have hrest : (s.serveHere (floorOf k) p).floors k = ps :=
        (congrFun (lists_serveHere moveList hq) (.floor k)).trans
          (Function.update_self ..)
      refine .inr ⟨⟨s.serveHere (floorOf k) p, ws⟩, t, hrun,
        ⟨ht, hrest, ?_, htws.trans hws⟩, ?_⟩
      · show s.onboard.length + ps.length < fuel
        omega
      · intro nodes r u hu
        rw [loadLoop, if_pos hequal, loadPrints, if_pos hequal]
        exact ⟨by simpa using hu.1, hu.2⟩
    · by_cases hfits : Fits s p
      · obtain ⟨t, hrun, ht, htws⟩ :=
          loadBody_boards hrep hk hon hq hequal hfits (show s.onboard.length + 1 < fuel by omega)
        have hrest : (s.board (floorOf k) p).floors k = ps := by
          have hlists := congrFun (lists_board moveList hq) (.floor k)
          rw [Function.update_of_ne (by simp), Function.update_self] at hlists
          exact hlists
        refine .inr ⟨⟨s.board (floorOf k) p, _⟩, t, hrun,
          ⟨ht, hrest, ?_, by rw [htws, hws]⟩, ?_⟩
        · show (s.onboard ++ [p]).length + ps.length < fuel
          rw [List.length_append, List.length_singleton]
          omega
        · intro nodes r u hu
          rw [loadLoop, if_neg hequal, if_pos hfits, loadPrints, if_neg hequal]
          have hfits' : s.currentWeight + p.weightUnits ≤ maxWeight ∧
              s.currentUnits + p.spaceUnits ≤ maxUnits := hfits
          simp only [if_pos hfits']
          exact ⟨by simpa using hu.1, hu.2.print (ht.linked.nodup hon)⟩
      · refine .inl ⟨-1, l, loadBody_stops hrep hk hq hequal hfits, by simp, ?_⟩
        have hfits' : ¬ (s.currentWeight + p.weightUnits ≤ maxWeight ∧
            s.currentUnits + p.spaceUnits ≤ maxUnits) := hfits
        rw [loadLoop, if_neg hequal, if_neg hfits, loadPrints, if_neg hequal]
        simp only [if_neg hfits']
        exact ⟨rfl, hrep, by simp [hws], by simp⟩

/-- **`load_elevator`.** -/
theorem loadElevator_refines (h : Represents used s [] l) (hk : .floor k ∈ used)
    (hon : .onboard ∈ used) (hfuel : s.onboard.length + (s.floors k).length < fuel) :
    Refines used l (loadElevator (floorOf k) fuel l) (KernelElevator.loadElevator (floorOf k) s)
      (OwnWalk (.floor k) (s.floors k)
        (loadPrints s.currentWeight s.currentUnits s.onboard (s.floors k))) := by
  have hglobals : l.globals.currentFloor = s.currentFloor := congrArg Globals.currentFloor h.globals
  by_cases hfloor : floorOf k = s.currentFloor
  swap
  · rw [loadElevator, hglobals, if_pos hfloor, KernelElevator.loadElevator, if_pos hfloor]
    exact refines_of_none rfl h
  have hrep : Represents used { s with log := s.log ++ [.opened (floorOf k)] } [] l :=
    ⟨h.linked, h.globals⟩
  have hqueue : ({ s with log := s.log ++ [.opened (floorOf k)] } : State).queue (floorOf k) =
      s.floors k := getQueue_floorOf s.floors k
  have hempty : l.mem.listEmpty (.head (.floor k)) = some (decide (s.floors k = [])) :=
    h.linked.listEmpty hk
  rw [KernelElevator.loadElevator, if_neg (not_not.2 hfloor)]
  simp only [loadElevator, hglobals, if_neg (not_not.2 hfloor), slot_floorOf, hempty, hqueue,
    Option.bind_eq_bind, Option.bind_some]
  by_cases hq : s.floors k = []
  · rw [if_pos hq]
    exact refines_of_none (by simp [hq]) hrep
  · obtain ⟨nodes, r, t, hrun, hnodes, hachieves⟩ := exists_traverse (load_invariant fuel hk hon)
      (g := ⟨{ s with log := s.log ++ [.opened (floorOf k)] }, l.walks⟩)
      ⟨hrep, rfl, hfuel, rfl⟩ (h.linked.first hk) (lt_of_le_of_lt (Nat.le_add_left _ _) hfuel)
    rw [if_neg hq]
    exact refines_of_own (by simp [hq, hrun]) hachieves hnodes (h.linked.nodup hk)

end Load

/-! ## Unloading -/

section Unload

variable {k : Fin 10} {p : Passenger} {kept ps : List Passenger}

theorem entry_onboard (h : Represents used s moveList l) (hon : .onboard ∈ used)
    (hp : p ∈ s.onboard) : l.entry p.cell = some p :=
  entry_cell (h.linked.live hon hp) (h.linked.passenger _ hon p hp)

theorem onboard_letOff (h : Represents used s moveList l) (hon : .onboard ∈ used)
    (hs : s.onboard = kept ++ p :: ps) : (s.letOff (floorOf k) p).onboard = kept ++ ps := by
  have hnodup := (h.linked.lists.ring .onboard hon).nodup
  have hp : p ∉ kept := by
    intro hmem
    have hcells : (s.onboard.map Passenger.cell).Nodup := (List.nodup_cons.1 hnodup).2
    have hnd := List.Nodup.of_map _ hcells
    rw [hs, List.nodup_append] at hnd
    exact hnd.2.2 p hmem p List.mem_cons_self rfl
  simp [State.letOff, hs, List.erase_append_right _ hp]

theorem lists_letOff {floor : Int} (hs : (s.letOff floor p).onboard = ps) :
    (s.letOff floor p).lists moveList = Function.update (s.lists moveList) .onboard ps := by
  rw [← lists_onboard, ← hs]
  rfl

theorem unloadBody_keeps (h : Represents used s moveList l) (hon : .onboard ∈ used)
    (hp : p ∈ s.onboard) {floor : Int} (hd : p.destinationFloor ≠ floor) :
    unloadBody floor fuel p.cell l = some (none, l) := by
  simp only [unloadBody, entry_onboard h hon hp, Option.bind_eq_bind, Option.bind_some, if_neg hd]
  rfl

theorem unloadBody_letsOff (h : Represents used s moveList l) (hon : .onboard ∈ used)
    (hs : s.onboard = kept ++ p :: ps) (hd : p.destinationFloor = floorOf k)
    (hfuel : (kept ++ ps).length < fuel) :
    ∃ t, unloadBody (floorOf k) fuel p.cell l = some (none, t) ∧
      Represents used (s.letOff (floorOf k) p) moveList t ∧
      t.walks = l.walks ++ [Walk.whole .onboard (kept ++ ps)] := by
  have hletOff := onboard_letOff (k := k) h hon hs
  obtain ⟨mem', hmem, -, hlinked, -⟩ := h.linked.listDel hon hs
  have hrep : Represents used (s.letOff (floorOf k) p) moveList
      { l with mem := mem', globals := (s.letOff (floorOf k) p).globals } := by
    refine ⟨?_, rfl⟩
    rw [lists_letOff hletOff]
    exact hlinked
  have hprint := printWhoOnIt_eq hrep hon (hletOff ▸ hfuel)
  rw [hletOff] at hprint
  refine ⟨{ l with
      mem := mem'
      globals := (s.letOff (floorOf k) p).globals
      walks := l.walks ++ [Walk.whole .onboard (kept ++ ps)] }, ?_,
    ⟨hrep.linked, rfl⟩, rfl⟩
  have hp : p ∈ s.onboard := by simp [hs]
  simp only [unloadBody, entry_onboard h hon hp, Option.bind_eq_bind, Option.bind_some, if_pos hd,
    h.globals, serve_floorOf, hmem]
  show (printWhoOnIt fuel { l with mem := mem', globals := (s.letOff (floorOf k) p).globals }).bind
    (fun l => some (none, l)) = _
  rw [hprint]
  rfl

/-- Who is on board each time that `unload_elevator` prints them. -/
def unloadPrints (floor : Int) (kept : List Passenger) : List Passenger → List (List Passenger)
  | [] => []
  | p :: ps =>
    if p.destinationFloor = floor then (kept ++ ps) :: unloadPrints floor kept ps
    else unloadPrints floor (kept ++ [p]) ps

/-- The traversal of `onboard` has come to the passengers `ps`, and `kept` have stayed. -/
structure LettingOff (used : Set Place) (moveList : List Passenger) (fuel : ℕ)
    (ps : List Passenger) (g : List Passenger × Ghost) (l : Low) : Prop where
  represents : Represents used g.2.state moveList l
  ahead : g.2.state.onboard = g.1 ++ ps
  fuel : g.2.state.onboard.length < fuel
  walks : l.walks = g.2.walks

theorem unload_invariant (hon : .onboard ∈ used) :
    Ring.LoopInvariant Passenger.cell mem (.head .onboard) (unloadBody (floorOf k) fuel)
      (LettingOff used moveList fuel) (fun ps g nodes r t => nodes = ps.map Passenger.cell ∧
        Achieves used moveList g.2.walks (0, unloadLoop (floorOf k) ps g.2.state)
          (unloadPrints (floorOf k) g.1 ps) r t) := by
  refine ⟨fun p => cell_ne_head p _, ?_, ?_, ?_⟩
  · intro g l h
    exact ⟨⟨_, h.represents.linked.first hon⟩, rfl, rfl, h.represents,
      by simp [h.walks, unloadPrints], by simp [unloadPrints]⟩
  · intro p ps g l h
    exact h.represents.linked.next hon h.ahead
  · intro p ps g l h
    obtain ⟨kept, s, ws⟩ := g
    obtain ⟨hrep, hs, hfuel, hws⟩ := h
    simp only at hrep hs hfuel hws
    by_cases hd : p.destinationFloor = floorOf k
    · have hrest : (s.letOff (floorOf k) p).onboard = kept ++ ps := onboard_letOff hrep hon hs
      have hlength : (kept ++ ps).length < fuel := by
        rw [hs] at hfuel
        simp only [List.length_append, List.length_cons] at hfuel ⊢
        omega
      obtain ⟨t, hrun, ht, htws⟩ := unloadBody_letsOff hrep hon hs hd hlength
      refine .inr ⟨⟨kept, s.letOff (floorOf k) p, _⟩, t, hrun,
        ⟨ht, hrest, hrest ▸ hlength, by rw [htws, hws]⟩, ?_⟩
      intro nodes r u hu
      rw [unloadLoop, if_pos hd, unloadPrints, if_pos hd]
      have hnodup := ht.linked.nodup hon
      exact ⟨congrArg (p.cell :: ·) hu.1, hu.2.print (hrest ▸ hnodup)⟩
    · have hp : p ∈ s.onboard := by simp [hs]
      refine .inr ⟨⟨kept ++ [p], s, ws⟩, l, unloadBody_keeps hrep hon hp hd,
        ⟨hrep, by simp [hs], hfuel, hws⟩, ?_⟩
      intro nodes r u hu
      rw [unloadLoop, if_neg hd, unloadPrints, if_neg hd]
      exact ⟨congrArg (p.cell :: ·) hu.1, hu.2⟩

/-- **`unload_elevator`.** -/
theorem unloadElevator_refines (h : Represents used s [] l) (hon : .onboard ∈ used)
    (hfuel : s.onboard.length < fuel) :
    Refines used l (unloadElevator (floorOf k) fuel l) (KernelElevator.unloadElevator (floorOf k) s)
      (OwnWalk .onboard s.onboard (unloadPrints (floorOf k) [] s.onboard)) := by
  have hglobals : l.globals.currentFloor = s.currentFloor := congrArg Globals.currentFloor h.globals
  rw [KernelElevator.unloadElevator, unloadElevator, hglobals]
  by_cases hfloor : s.currentFloor = floorOf k
  · rw [if_neg (not_not.2 hfloor), if_neg (not_not.2 hfloor)]
    obtain ⟨nodes, r, t, hrun, rfl, hachieves⟩ := exists_traverse (unload_invariant (k := k) hon)
      (g := ⟨[], s, l.walks⟩) ⟨h, rfl, hfuel, rfl⟩ (h.linked.first hon) hfuel
    exact refines_of_own (by simp [hrun]) hachieves (List.prefix_refl _) (h.linked.nodup hon)
  · rw [if_pos hfloor, if_pos hfloor]
    exact refines_of_none rfl h

end Unload

/-! ## Deleting -/

section Delete

variable {k : Fin 10} {p : Passenger} {ps : List Passenger}

theorem lists_move (hq : s.floors k = p :: ps) :
    ({ s with floors := Function.update s.floors k ((s.floors k).erase p) } : State).lists
        (moveList ++ [p]) =
      Function.update (Function.update (s.lists moveList) (.floor k) ps) .moveList
        (moveList ++ [p]) := by
  rw [← lists_floors, ← lists_moveList, hq, List.erase_cons_head]

theorem moveBody_moves (h : Represents used s moveList l) (hk : .floor k ∈ used)
    (hmove : .moveList ∈ used) (hq : s.floors k = p :: ps) :
    ∃ t, moveBody p.cell l = some (none, t) ∧
      Represents used { s with floors := Function.update s.floors k ((s.floors k).erase p) }
        (moveList ++ [p]) t ∧ t.count = l.count + 1 ∧ t.walks = l.walks := by
  have hxs : s.lists moveList (.floor k) = [] ++ p :: ps := hq
  obtain ⟨mem', hmem, -, hlinked⟩ := h.linked.listMoveTail hk hmove (by simp) hxs
  refine ⟨{ l with mem := mem', count := l.count + 1 }, ?_, ⟨?_, h.globals⟩, rfl, rfl⟩
  · simp only [moveBody, hmem, Option.bind_eq_bind, Option.bind_some]
    rfl
  · rw [lists_move hq]
    exact hlinked

/-- The traversal of a queue has come to the passengers `ps`, with the accumulators `acc` of
`moveFloor`. -/
structure Moving (used : Set Place) (k : Fin 10) (walks : List Walk) (ps : List Passenger)
    (acc : State × List Passenger × Int) (l : Low) : Prop where
  represents : Represents used acc.1 acc.2.1 l
  count : l.count = acc.2.2
  ahead : acc.1.floors k = ps
  walks : l.walks = walks

theorem move_invariant (walks : List Walk) (hk : .floor k ∈ used) (hmove : .moveList ∈ used) :
    Ring.LoopInvariant Passenger.cell mem (.head (.floor k)) moveBody (Moving used k walks)
      (fun ps acc nodes _ t => nodes = ps.map Passenger.cell ∧
        Represents used (moveFloor k ps acc).1 (moveFloor k ps acc).2.1 t ∧
        t.count = (moveFloor k ps acc).2.2 ∧ t.walks = walks) := by
  refine ⟨fun p => cell_ne_head p _, ?_, ?_, ?_⟩
  · intro acc l h
    exact ⟨⟨_, h.represents.linked.first hk⟩, rfl, h.represents, h.count, h.walks⟩
  · intro p ps acc l h
    exact h.represents.linked.next_front hk h.ahead
  · intro p ps acc l h
    obtain ⟨s, moveList, count⟩ := acc
    obtain ⟨hrep, hcount, hq, hws⟩ := h
    simp only at hrep hcount hq
    obtain ⟨t, hrun, ht, htcount, htws⟩ := moveBody_moves hrep hk hmove hq
    refine .inr ⟨(_, moveList ++ [p], count + 1), t, hrun,
      ⟨ht, by rw [htcount, hcount], ?_, htws.trans hws⟩, ?_⟩
    · show Function.update s.floors k ((s.floors k).erase p) k = ps
      rw [Function.update_self, hq, List.erase_cons_head]
    · intro nodes r u hu
      exact ⟨congrArg (p.cell :: ·) hu.1, hu.2⟩

theorem moveFloors_refines (fuel : ℕ) (hmove : .moveList ∈ used) {ks : List (Fin 10)}
    (hks : ks.Nodup) (hused : ∀ k ∈ ks, .floor k ∈ used) {count : Int}
    (h : Represents used s moveList l) (hcount : l.count = count)
    (hfuel : ∀ k ∈ ks, (s.floors k).length < fuel) :
    ∃ t, moveFloors fuel ks l = some t ∧
      Represents used (KernelElevator.moveFloors ks (s, moveList, count)).1
        (KernelElevator.moveFloors ks (s, moveList, count)).2.1 t ∧
      t.count = (KernelElevator.moveFloors ks (s, moveList, count)).2.2 ∧
      t.walks = l.walks ++ ks.map fun k => Walk.whole (.floor k) (s.floors k) := by
  induction ks generalizing s moveList l count with
  | nil => exact ⟨l, rfl, h, hcount, by simp⟩
  | cons k ks ih =>
    obtain ⟨hk, hks⟩ := List.nodup_cons.1 hks
    obtain ⟨nodes, r, t, hrun, rfl, ht, htcount, htws⟩ :=
      exists_traverse (move_invariant l.walks (hused k List.mem_cons_self) hmove)
        (g := (s, moveList, count)) ⟨h, hcount, rfl, rfl⟩
        (h.linked.first (hused k List.mem_cons_self)) (hfuel k List.mem_cons_self)
    rw [moveFloor_spec k _ s moveList count rfl] at ht htcount
    have hother : ∀ j ∈ ks, Function.update s.floors k [] j = s.floors j := by
      intro j hj
      have hjk : j ≠ k := fun heq => hk (heq ▸ hj)
      exact Function.update_of_ne hjk _ _
    have hrep : Represents used { s with floors := Function.update s.floors k [] }
        (moveList ++ s.floors k)
        { t with walks := t.walks ++ [Walk.whole (.floor k) (s.floors k)] } :=
      ⟨ht.linked, ht.globals⟩
    obtain ⟨u, hloop, hu, hucount, huws⟩ := ih hks
      (fun j hj => hused j (List.mem_cons_of_mem k hj)) hrep htcount (by
        intro j hj
        show (Function.update s.floors k [] j).length < fuel
        rw [hother j hj]
        exact hfuel j (List.mem_cons_of_mem k hj))
    rw [KernelElevator.moveFloors, moveFloor_spec k _ s moveList count rfl]
    refine ⟨u, ?_, hu, hucount, ?_⟩
    · have hfirst : traverse (.floor k) moveBody fuel l =
          some (r, { t with walks := t.walks ++ [Walk.whole (.floor k) (s.floors k)] }) := hrun
      simp [moveFloors, hfirst, hloop]
    · rw [huws, htws, List.map_cons, List.append_assoc, List.singleton_append]
      congr 2
      apply List.map_congr_left
      intro j hj
      show Walk.whole (.floor j) (Function.update s.floors k [] j) = _
      rw [hother j hj]

theorem freeBody_frees (h : Represents used s (p :: ps) l) (hmove : .moveList ∈ used) :
    ∃ t, freeBody p.cell l = some (none, t) ∧
      Represents used { s with live := s.live.erase p.id, log := s.log ++ [.freed p.id] } ps t ∧
      t.count = l.count ∧ t.walks = l.walks := by
  have hlive := h.linked.live hmove (p := p) List.mem_cons_self
  have hxs : s.lists (p :: ps) .moveList = [] ++ p :: ps := rfl
  obtain ⟨mem', hmem, hlive', hlinked, hout⟩ := h.linked.listDel hmove hxs
  rw [List.nil_append, ← lists_moveList] at hlinked hout
  rw [← hlive'] at hlive
  refine ⟨{ l with mem := mem'.setLive p.cell false }, ?_, ⟨hlinked.setLive hout false, h.globals⟩,
    rfl, rfl⟩
  rw [Passenger.cell] at hlive hmem ⊢
  simp [freeBody, hmem, kfree, hlive]

theorem free_invariant (count : Int) (walks : List Walk) (hmove : .moveList ∈ used) :
    Ring.LoopInvariant Passenger.cell mem (.head .moveList) freeBody
      (fun ps s t => Represents used s ps t ∧ t.count = count ∧ t.walks = walks)
      (fun ps s nodes _ t => nodes = ps.map Passenger.cell ∧
        Represents used (freeAll ps s) [] t ∧ t.count = count ∧ t.walks = walks) := by
  refine ⟨fun p => cell_ne_head p _, ?_, ?_, ?_⟩
  · intro s l h
    exact ⟨⟨_, h.1.linked.first hmove⟩, rfl, h⟩
  · intro p ps s l h
    exact h.1.linked.next_front hmove rfl
  · intro p ps s l h
    obtain ⟨hrep, hcount, hws⟩ := h
    obtain ⟨t, hrun, ht, htcount, htws⟩ := freeBody_frees hrep hmove
    refine .inr ⟨_, t, hrun, ⟨ht, htcount.trans hcount, htws.trans hws⟩, ?_⟩
    intro nodes r u hu
    exact ⟨congrArg (p.cell :: ·) hu.1, hu.2⟩

theorem length_floor_le (s : State) (k : Fin 10) : (s.floors k).length ≤ (waiting s).length := by
  have hmem : s.floors k ∈ (List.finRange 10).map s.floors :=
    List.mem_map_of_mem (List.mem_finRange k)
  rw [waiting, List.flatMap_def]
  exact (List.sublist_flatten_of_mem hmem).length_le

theorem moveList_not_mem (hmove : .moveList ∉ used) (xs : Place → List Passenger) :
    ∀ i ∈ used, Cell.head .moveList ∉ Cell.head i :: (xs i).map Passenger.cell := by
  intro i hi hmem
  rcases List.mem_cons.1 hmem with heq | hmem
  · exact hmove ((Cell.head.inj heq) ▸ hi)
  · obtain ⟨p, -, hp⟩ := List.mem_map.1 hmem
    exact cell_ne_head p _ hp

/-- `move_list` comes into scope. -/
theorem enter_moveList (h : Represents used s [] l) (hmove : .moveList ∉ used) :
    ∃ m, (l.mem.setLive (.head .moveList) true).initListHead (.head .moveList) = some m ∧
      Represents (insert .moveList used) s [] { l with mem := m, count := 0 } := by
  have hout := moveList_not_mem hmove (s.lists [])
  obtain ⟨m, hrun, -, hlists⟩ := (h.linked.lists.setLive hout true).initListHead
    (i := .moveList) (Ring.Mem.setLive_self ..) rfl hout
  refine ⟨m, hrun, ⟨hlists, ?_⟩, h.globals⟩
  rintro i (rfl | hi) p hp
  · exact absurd hp List.not_mem_nil
  · exact h.linked.passenger i hi p hp

/-- And goes out of scope. -/
theorem leave_moveList (h : Represents (insert .moveList used) s [] l) (hmove : .moveList ∉ used) :
    Represents used s [] { l with mem := l.mem.setLive (.head .moveList) false } := by
  have hsub : used ⊆ insert .moveList used := Set.subset_insert _ _
  have hlinked : Linked used (s.lists []) l.mem l.passenger :=
    ⟨h.linked.lists.mono hsub, fun i hi => h.linked.passenger i (hsub hi)⟩
  exact ⟨hlinked.setLive (moveList_not_mem hmove _) false, h.globals⟩

/-- **`delete_passenger`.** -/
theorem deletePassenger_refines (h : Represents used s [] l) (hfloors : ∀ k, .floor k ∈ used)
    (hmove : .moveList ∉ used) (hfuel : (waiting s).length < fuel) :
    Refines used l (deletePassenger fuel l) (KernelElevator.deletePassenger s) (· =
      (List.finRange 10).map (fun k => Walk.whole (.floor k) (s.floors k)) ++
        [Walk.whole .moveList (waiting s)]) := by
  obtain ⟨m, hinit, hentered⟩ := enter_moveList h hmove
  have hscope : .moveList ∈ insert .moveList used := Set.mem_insert _ _
  have hzero : ({ l with mem := m, count := 0 } : Low).count = 0 := rfl
  obtain ⟨t, hmoves, ht, hcount, hws⟩ := moveFloors_refines fuel hscope
    (List.nodup_finRange 10) (fun k _ => Set.mem_insert_of_mem _ (hfloors k)) hentered hzero
    fun k _ => lt_of_le_of_lt (length_floor_le s k) hfuel
  have hmoved : (KernelElevator.moveFloors (List.finRange 10) (s, [], 0)).2.1 = waiting s := by
    rw [moveFloors_spec (List.nodup_finRange 10)]
    rfl
  rw [KernelElevator.deletePassenger]
  generalize KernelElevator.moveFloors (List.finRange 10) (s, [], 0) = moved at ht hcount hmoved ⊢
  rw [hmoved] at ht
  obtain ⟨nodes, r, u, hfrees, rfl, hu, hucount, huws⟩ := exists_traverse
    (free_invariant moved.2.2 t.walks hscope) ⟨ht, hcount, rfl⟩ (ht.linked.first hscope) hfuel
  rw [← hmoved] at hu
  refine ⟨_, _, ?_, leave_moveList (l := { u with walks := u.walks ++
    [Walk.whole .moveList (waiting s)] }) ⟨hu.linked, hu.globals⟩ hmove, ?_, ?_, rfl⟩
  · simp only [deletePassenger, hinit, hmoves, hfrees, Option.bind_eq_bind, Option.bind_some,
      hucount]
    rfl
  · simp [huws, hws]
  · intro w hw
    rcases List.mem_append.1 hw with hw | hw
    · obtain ⟨k, -, rfl⟩ := List.mem_map.1 hw
      exact h.linked.nodup (hfloors k)
    · rw [List.mem_singleton.1 hw]
      exact ht.linked.nodup hscope

end Delete

end Low

/-! ## The lists afterwards -/

/-- `load_elevator` takes a part of the queue from its front; who does not get off there boards. -/
theorem loadElevator_lists (s : State) (k : Fin 10) : ∃ n,
    (loadElevator (floorOf k) s).2.lists [] = Function.update
      (Function.update (s.lists []) (.floor k) ((s.floors k).drop n)) .onboard
      (s.onboard ++ ((s.floors k).take n).filter (·.state ≠ .equal)) := by
  have hlists : ∀ (t : State) (q r : List Passenger), t.floors = Function.update s.floors k q →
      t.onboard = r → t.lists [] =
        Function.update (Function.update (s.lists []) (.floor k) q) .onboard r := by
    rintro t q r hfloors rfl
    rw [← lists_floors, ← lists_onboard, ← hfloors]
    rfl
  by_cases hfloor : floorOf k = s.currentFloor
  · obtain ⟨honboard, hqueue, -, -⟩ := load_spec s
    have hprefix : takenHere s <+: s.floors k := by
      rw [takenHere, ← hfloor, State.queue, getQueue_floorOf]
      exact taken_isPrefix _ _ _
    have hq : s.queue (floorOf k) = s.floors k := getQueue_floorOf s.floors k
    rw [← hfloor, hq] at hqueue
    rw [← hfloor] at honboard
    refine ⟨(takenHere s).length, hlists _ _ _ (floors_of_queue hqueue) ?_⟩
    rw [honboard, ← List.prefix_iff_eq_take.1 hprefix]
  · refine ⟨0, hlists _ _ _ ?_ ?_⟩
    · rw [loadElevator, if_pos hfloor, List.drop_zero, Function.update_eq_self]
    · rw [loadElevator, if_pos hfloor, List.take_zero, List.filter_nil, List.append_nil]

theorem unloadElevator_lists (s : State) {k : Fin 10} (hfloor : s.currentFloor = floorOf k) :
    (unloadElevator (floorOf k) s).2.lists [] = Function.update (s.lists []) .onboard
      (s.onboard.filter (·.destinationFloor ≠ floorOf k)) := by
  obtain ⟨honboard, hfloors, -, -⟩ := unload_spec s
  rw [hfloor] at honboard hfloors
  rw [← honboard, ← lists_onboard, ← hfloors]
  rfl

theorem deletePassenger_lists (s : State) :
    (deletePassenger s).2.lists [] = Function.update (fun _ => []) .onboard s.onboard := by
  rw [deletePassenger_spec]
  funext i
  cases i with
  | onboard => rfl
  | floor j => rfl
  | moveList => rfl

/-- **The traversals do what the functions do**, in any memory that represents the state on the
lists in use, whatever else it holds: they end, stand on no node of another list and on none twice,
and leave a memory that represents the outcome. -/
theorem traversals_refine {used : Set Place} {s : State} {l : Low} (h : Represents used s [] l)
    (hon : .onboard ∈ used) (fuel : ℕ) :
    (∀ k, .floor k ∈ used → s.onboard.length + (s.floors k).length < fuel →
      Low.Refines used l (l.loadElevator (floorOf k) fuel) (loadElevator (floorOf k) s)
        (Low.OwnWalk (.floor k) (s.floors k)
          (Low.loadPrints s.currentWeight s.currentUnits s.onboard (s.floors k))) ∧
      ∃ n, (loadElevator (floorOf k) s).2.lists [] = Function.update
        (Function.update (s.lists []) (.floor k) ((s.floors k).drop n)) .onboard
        (s.onboard ++ ((s.floors k).take n).filter (·.state ≠ .equal))) ∧
    (∀ k, s.onboard.length < fuel →
      Low.Refines used l (l.unloadElevator (floorOf k) fuel) (unloadElevator (floorOf k) s)
        (Low.OwnWalk .onboard s.onboard (Low.unloadPrints (floorOf k) [] s.onboard)) ∧
      (s.currentFloor = floorOf k → (unloadElevator (floorOf k) s).2.lists [] = Function.update
        (s.lists []) .onboard (s.onboard.filter (·.destinationFloor ≠ floorOf k)))) ∧
    ((∀ k, .floor k ∈ used) → .moveList ∉ used → (waiting s).length < fuel →
      Low.Refines used l (l.deletePassenger fuel) (deletePassenger s) (· =
        (List.finRange 10).map (fun k => Walk.whole (.floor k) (s.floors k)) ++
          [Walk.whole .moveList (waiting s)]) ∧
      (deletePassenger s).2.lists [] = Function.update (fun _ => []) .onboard s.onboard) := by
  refine ⟨?_, ?_, ?_⟩
  · intro k hk hfuel
    exact ⟨Low.loadElevator_refines h hk hon hfuel, loadElevator_lists s k⟩
  · intro k hfuel
    exact ⟨Low.unloadElevator_refines h hon hfuel, unloadElevator_lists s⟩
  · intro hfloors hmove hfuel
    exact ⟨Low.deletePassenger_refines h hfloors hmove hfuel, deletePassenger_lists s⟩

/-! ## One rider and one who waits -/

def adultRiding : Passenger := ⟨0, 2, 1, 2, 3, adult, .up⟩
def adultWaiting : Passenger := ⟨1, 2, 1, 1, 5, adult, .up⟩

def oneEach : State :=
  { elevatorInit with
    currentFloor := 1
    currentWeight := 2
    currentUnits := 1
    onboard := [adultRiding]
    floors := Function.update (fun _ => []) 0 [adultWaiting] }

/-- In a ring of two, both links lead to the other cell. -/
def otherCell : Cell → Cell
  | .head .onboard => .record 0
  | .record 0 => .head .onboard
  | .head (.floor 0) => .record 1
  | .record 1 => .head (.floor 0)
  | c => c

def oneEachLow : Low where
  mem := ⟨⟨otherCell, otherCell⟩, fun _ => true⟩
  passenger := fun id => if id = 0 then adultRiding else adultWaiting
  globals := oneEach.globals
  count := 0
  walks := []

/-- The list that a cell is on. -/
def listOf : Cell → Place
  | .head i => i
  | .record 0 => .onboard
  | _ => .floor 0

theorem oneEach_cases (i : Place) : (i = .onboard ∧ oneEach.lists [] i = [adultRiding]) ∨
    (i = .floor 0 ∧ oneEach.lists [] i = [adultWaiting]) ∨
    (i ≠ .onboard ∧ i ≠ .floor 0 ∧ oneEach.lists [] i = []) := by
  cases i with
  | onboard => exact .inl ⟨rfl, rfl⟩
  | floor k =>
    by_cases hk : k = 0
    · subst hk
      exact .inr (.inl ⟨rfl, rfl⟩)
    · have hempty : oneEach.floors k = [] := by simp [oneEach, hk]
      exact .inr (.inr ⟨by simp, by simpa using hk, hempty⟩)
  | moveList => exact .inr (.inr ⟨by simp, by simp, rfl⟩)

theorem listOf_eq {i : Place} {x : Cell}
    (hx : x ∈ .head i :: (oneEach.lists [] i).map Passenger.cell) : listOf x = i := by
  rcases oneEach_cases i with ⟨rfl, hi⟩ | ⟨rfl, hi⟩ | ⟨-, -, hi⟩
  · rw [hi] at hx
    rcases List.mem_pair.1 hx with rfl | rfl
    · rfl
    · rfl
  · rw [hi] at hx
    rcases List.mem_pair.1 hx with rfl | rfl
    · rfl
    · rfl
  · rw [hi] at hx
    rw [List.mem_singleton.1 hx]
    rfl

theorem oneEach_represents : Represents {i | i ≠ .moveList} oneEach [] oneEachLow := by
  refine ⟨⟨⟨?_, fun _ _ _ _ => rfl, ?_⟩, ?_⟩, rfl⟩
  · intro i _
    rcases oneEach_cases i with ⟨rfl, hi⟩ | ⟨rfl, hi⟩ | ⟨hon, hfloor, hi⟩
    · exact ⟨⟨⟨rfl, rfl⟩, rfl, rfl⟩, by decide⟩
    · exact ⟨⟨⟨rfl, rfl⟩, rfl, rfl⟩, by decide⟩
    · have hself : otherCell (.head i) = .head i := by
        unfold otherCell
        split <;> simp_all
      simp only [hi]
      exact ⟨⟨hself, hself⟩, List.nodup_singleton _⟩
  · intro i _ j _ hij x hxi hxj
    exact hij ((listOf_eq hxi).symm.trans (listOf_eq hxj))
  · intro i _ p hp
    rcases oneEach_cases i with ⟨rfl, hi⟩ | ⟨rfl, hi⟩ | ⟨-, -, hi⟩
    · rw [hi] at hp
      rw [List.mem_singleton.1 hp]
      rfl
    · rw [hi] at hp
      rw [List.mem_singleton.1 hp]
      rfl
    · rw [hi] at hp
      exact absurd hp List.not_mem_nil

theorem oneEach_refined :
    Low.Refines {i | i ≠ .moveList} oneEachLow (oneEachLow.loadElevator (floorOf 0) 3)
      (loadElevator (floorOf 0) oneEach)
      (Low.OwnWalk (.floor 0) [adultWaiting] [[adultRiding, adultWaiting]]) ∧
    ∃ t, oneEachLow.deletePassenger 3 = some (1, t) := by
  obtain ⟨hload, -, hdelete⟩ := traversals_refine oneEach_represents (by simp) 3
  obtain ⟨⟨t, -, hrun, -⟩, -⟩ := hdelete (by simp) (by simp) (by decide)
  exact ⟨(hload 0 (by simp) (by decide)).1, t, hrun⟩

/-- `load_elevator` stands on the rider too, and twice on the node that it moves: `print_who_on_it`
goes over `onboard`. -/
theorem printing_visits_again : Represents {i | i ≠ .moveList} oneEach [] oneEachLow ∧
    ∃ t, oneEachLow.loadElevator 1 3 = some (0, t) ∧
      adultRiding.cell ∈ t.walks.flatMap Walk.nodes ∧ adultRiding ∉ oneEach.floors 0 ∧
      ¬ (t.walks.flatMap Walk.nodes).Nodup := by
  have hrun : (oneEachLow.loadElevator 1 3).map (fun r => (r.1, r.2.walks)) = some (0,
      [⟨.onboard, [.record 0, .record 1]⟩, ⟨.floor 0, [.record 1]⟩]) := by
    decide
  obtain ⟨⟨value, t⟩, ht, heq⟩ := Option.map_eq_some_iff.1 hrun
  obtain ⟨rfl, hwalks⟩ := Prod.mk.inj heq
  refine ⟨oneEach_represents, t, ht, ?_, by decide, ?_⟩
  · rw [hwalks]
    decide
  · rw [hwalks]
    decide

end KernelElevator
