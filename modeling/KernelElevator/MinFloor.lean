import KernelElevator.LinkLevel
import KernelElevator.Frames

/-!
# The search of `min_floor`

`min_floor` is left over from a SCAN scheduler, and nothing calls it. It goes over the queues and
looks at `list_first_entry(temp)`, which is the entry *after* `temp`: the first passenger of a queue
is passed over, and behind the last one it takes the list head for a passenger.

* `minFloor` — the search on lists; `minFloors_refines` — the search on the links does the same.
* `entries_cons` — what it looks at; `minFloor_chooses` — what it finds there.
* `SelectsPickup` — what a search for the next pickup should do.
-/

namespace KernelElevator

/-! ## The search -/

/-- The members of a `Passenger` that `min_floor` reads. A `state` outside the enumeration is
`none`. -/
structure Fields where
  weightUnits : Int
  spaceUnits : Int
  startFloor : Int
  state : Option Status

def Passenger.fields (p : Passenger) : Fields :=
  ⟨p.weightUnits, p.spaceUnits, p.startFloor, some p.state⟩

/-- What `list_first_entry` returns a pointer to: a record, or the memory around `floors[k]`. -/
inductive Entry where
  | passenger (p : Passenger)
  | head (k : Fin 10)
  deriving DecidableEq

/-- The memory around the list heads is whatever it is. -/
def Entry.fields (heads : Fin 10 → Fields) : Entry → Fields
  | .passenger p => p.fields
  | .head k => heads k

/-- The locals of `min_floor`, and `elevator.state`. -/
structure Search where
  minDiff : Int
  minFloor : Int
  state : Status
  /-- A history that no code reads. -/
  examined : List Entry

/-- `if(tempNum < minDiff)`, for the floor `floor`. -/
def Search.consider (t : Search) (tempNum floor : Int) : Search :=
  if tempNum < t.minDiff then { t with minDiff := tempNum, minFloor := floor } else t

section Search

variable (heads : Fin 10 → Fields) (s : State)

/-- The body of the inner loop, for the entry `e` that `p` points to. -/
def examine (e : Entry) (t : Search) : Search :=
  let p := e.fields heads
  let t := { t with examined := t.examined ++ [e] }
  if some s.previousState = p.state ∧ s.previousState = .up ∧
      s.currentWeight + p.weightUnits ≤ maxWeight ∧ s.currentUnits + p.spaceUnits ≤ maxUnits then
    t.consider (p.startFloor - s.currentFloor) p.startFloor
  else if some s.previousState = p.state ∧ s.previousState = .down ∧
      s.currentWeight + p.weightUnits ≤ maxWeight ∧ s.currentUnits + p.spaceUnits ≤ maxUnits then
    t.consider (s.currentFloor - p.startFloor) p.startFloor
  else if s.previousState ≠ .up ∧ s.previousState ≠ .down ∧
      s.currentWeight + p.weightUnits ≤ maxWeight ∧ s.currentUnits + p.spaceUnits ≤ maxUnits then
    if p.startFloor < s.currentFloor then
      { t with state := .down }.consider (s.currentFloor - p.startFloor) p.startFloor
    else
      { t with state := .up }.consider (p.startFloor - s.currentFloor) p.startFloor
  else t

/-- `list_first_entry(temp, Passenger, list)`, for the passengers behind `temp`. -/
def firstEntry (k : Fin 10) : List Passenger → Entry
  | [] => .head k
  | p :: _ => .passenger p

/-- `list_for_each_safe` on `floors[k]`. -/
def scanQueue (k : Fin 10) : List Passenger → Search → Search
  | [], t => t
  | _ :: ps, t => scanQueue k ps (examine heads s (firstEntry k ps) t)

def scanFloors : List (Fin 10) → Search → Search
  | [], t => t
  | k :: ks, t => scanFloors ks (scanQueue heads s k (s.floors k) t)

/-- The search, at the end of its loops. -/
def scan : Search := scanFloors heads s (List.finRange 10) ⟨10, 0, s.state, []⟩

/-- `min_floor`, which does not use its argument. -/
def minFloor (_floor : Int) : Int × State :=
  ((scan heads s).minFloor, { s with state := (scan heads s).state })

end Search

/-! ## On the links -/

namespace Low

/-- `list_first_entry(pos, Passenger, list)`. -/
def firstEntry (l : Low) (pos : Cell) : Option Entry := do
  match ← l.mem.next pos with
  | .record id => if l.mem.live (.record id) then some (.passenger (l.passenger id)) else none
  | .head (.floor k) => some (.head k)
  | _ => none

/-- The body of the inner loop, on the links of `l` and the elevator of `s`. -/
def minBody (heads : Fin 10 → Fields) (s : State) (l : Low) (pos : Cell) (t : Search) :
    Option (Option Int × Search) := do
  let e ← l.firstEntry pos
  return (none, examine heads s e t)

def minFloors (heads : Fin 10 → Fields) (s : State) (l : Low) (fuel : ℕ) :
    List (Fin 10) → Search → Option Search
  | [], t => some t
  | k :: ks, t => do
    let (_, _, t) ←
      Ring.listForEachSafe (fun _ => l.mem) (.head (.floor k)) (minBody heads s l) fuel t
    minFloors heads s l fuel ks t

section Refinement

variable {used : Set Place} {s : State} {moveList : List Passenger} {l : Low} {k : Fin 10}

theorem firstEntry_eq (h : Represents used s moveList l) (hk : .floor k ∈ used)
    {past ps : List Passenger} {p : Passenger} (hq : s.floors k = past ++ p :: ps) :
    l.firstEntry p.cell = some (KernelElevator.firstEntry k ps) := by
  have hxs : s.lists moveList (.floor k) = past ++ p :: ps := hq
  rw [firstEntry, h.linked.next hk hxs]
  cases ps with
  | nil => rfl
  | cons q ps =>
    have hmem : q ∈ s.lists moveList (.floor k) := by simp [hxs]
    have hlive := h.linked.live hk hmem
    have hq' := h.linked.passenger _ hk q hmem
    rw [Passenger.cell] at hlive
    simp [Passenger.cell, hlive, hq', KernelElevator.firstEntry]

theorem scan_invariant (heads : Fin 10 → Fields) (h : Represents used s moveList l)
    (hk : .floor k ∈ used) :
    Ring.LoopInvariant Passenger.cell (fun _ => l.mem) (.head (.floor k)) (minBody heads s l)
      (fun ps g t => t = g ∧ ∃ past, s.floors k = past ++ ps)
      (fun ps g _ _ t => t = scanQueue heads s k ps g) := by
  refine ⟨fun p => cell_ne_head p _, ?_, ?_, ?_⟩
  · intro g t ht
    exact ⟨⟨_, h.linked.first hk⟩, ht.1⟩
  · intro p ps g t ht
    obtain ⟨-, past, hq⟩ := ht
    exact h.linked.next hk hq
  · intro p ps g t ht
    obtain ⟨rfl, past, hq⟩ := ht
    refine .inr ⟨examine heads s (KernelElevator.firstEntry k ps) t, _, ?_,
      ⟨rfl, past ++ [p], by simp [hq]⟩, fun _ _ _ hu => hu⟩
    simp [minBody, firstEntry_eq h hk hq]

/-- **The search on the links ends, and does what the search on lists does.** -/
theorem minFloors_refines (heads : Fin 10 → Fields) (h : Represents used s moveList l)
    (hfloors : ∀ k, .floor k ∈ used) {fuel : ℕ} (hfuel : ∀ k, (s.floors k).length < fuel)
    (ks : List (Fin 10)) (t : Search) :
    minFloors heads s l fuel ks t = some (scanFloors heads s ks t) := by
  induction ks generalizing t with
  | nil => rfl
  | cons k ks ih =>
    obtain ⟨nodes, r, u, hrun, rfl⟩ := (scan_invariant heads h (hfloors k)).listForEachSafe
      (g := t) ⟨rfl, [], rfl⟩ (h.linked.first (hfloors k)) (hfuel k)
    simp [minFloors, hrun, ih, scanFloors]

end Refinement

end Low

/-! ## What it looks at -/

/-- The entries behind each node of a queue. -/
def entries (k : Fin 10) : List Passenger → List Entry
  | [] => []
  | _ :: ps => firstEntry k ps :: entries k ps

/-- All but the first passenger, and the list head. -/
theorem entries_cons (k : Fin 10) (p : Passenger) (ps : List Passenger) :
    entries k (p :: ps) = ps.map Entry.passenger ++ [.head k] := by
  induction ps generalizing p with
  | nil => rfl
  | cons q ps ih =>
    rw [entries, ih q]
    rfl

def State.entries (s : State) : List Entry :=
  (List.finRange 10).flatMap fun k => KernelElevator.entries k (s.floors k)

section Scan

variable (heads : Fin 10 → Fields) (s : State)

theorem scanQueue_eq (k : Fin 10) (ps : List Passenger) (t : Search) :
    scanQueue heads s k ps t = (entries k ps).foldl (fun t e => examine heads s e t) t := by
  induction ps generalizing t with
  | nil => rfl
  | cons p ps ih => exact ih _

theorem scanFloors_eq (ks : List (Fin 10)) (t : Search) :
    scanFloors heads s ks t = (ks.flatMap fun k => entries k (s.floors k)).foldl
      (fun t e => examine heads s e t) t := by
  induction ks generalizing t with
  | nil => rfl
  | cons k ks ih => rw [scanFloors, ih, scanQueue_eq, List.flatMap_cons, List.foldl_append]

theorem scan_eq : scan heads s =
    s.entries.foldl (fun t e => examine heads s e t) ⟨10, 0, s.state, []⟩ :=
  scanFloors_eq heads s _ _

end Scan

/-! ## What it finds there -/

/-- There is room, and the direction is that of the last ride, if it had one. -/
def Fields.Suits (s : State) (f : Fields) : Prop :=
  (s.previousState = .up ∨ s.previousState = .down → f.state = some s.previousState) ∧
    s.currentWeight + f.weightUnits ≤ maxWeight ∧ s.currentUnits + f.spaceUnits ≤ maxUnits

instance (s : State) (f : Fields) : Decidable (f.Suits s) :=
  inferInstanceAs (Decidable ((_ → _) ∧ _))

/-- `tempNum`: behind the elevator it is negative, unless the last ride had no direction. -/
def Fields.distance (s : State) (f : Fields) : Int :=
  if s.previousState = .up then f.startFloor - s.currentFloor
  else if s.previousState = .down then s.currentFloor - f.startFloor
  else if f.startFloor < s.currentFloor then s.currentFloor - f.startFloor
  else f.startFloor - s.currentFloor

/-- `elevator.state`, after an entry that suits. -/
def Fields.turn (s : State) (f : Fields) (state : Status) : Status :=
  if s.previousState = .up ∨ s.previousState = .down then state
  else if f.startFloor < s.currentFloor then .down
  else .up

section Find

variable {heads : Fin 10 → Fields} {s : State} {e : Entry} {t u : Search}

theorem examine_of_not_suits (h : ¬ (e.fields heads).Suits s) :
    examine heads s e t = { t with examined := t.examined ++ [e] } := by
  rw [examine, if_neg, if_neg, if_neg]
  · intro hthird
    obtain ⟨hup, hdown, hfits⟩ := hthird
    exact h ⟨fun hdir => absurd hdir (not_or.2 ⟨hup, hdown⟩), hfits⟩
  · intro hsecond
    obtain ⟨hstate, -, hfits⟩ := hsecond
    exact h ⟨fun _ => hstate.symm, hfits⟩
  · intro hfirst
    obtain ⟨hstate, -, hfits⟩ := hfirst
    exact h ⟨fun _ => hstate.symm, hfits⟩

theorem examine_of_suits (h : (e.fields heads).Suits s) :
    examine heads s e t = Search.consider
      { t with examined := t.examined ++ [e]
               state := (e.fields heads).turn s t.state }
      ((e.fields heads).distance s) (e.fields heads).startFloor := by
  obtain ⟨hstate, hfits⟩ := h
  by_cases hup : s.previousState = .up
  · rw [examine, if_pos ⟨(hstate (.inl hup)).symm, hup, hfits⟩]
    simp only [Fields.distance, Fields.turn, hup, true_or, if_true]
  · by_cases hdown : s.previousState = .down
    · rw [examine, if_neg fun hfirst => hup hfirst.2.1,
        if_pos ⟨(hstate (.inr hdown)).symm, hdown, hfits⟩]
      simp [Fields.distance, Fields.turn, hdown]
    · rw [examine, if_neg fun hfirst => hup hfirst.2.1, if_neg fun hsecond => hdown hsecond.2.1,
        if_pos ⟨hup, hdown, hfits⟩]
      by_cases hbelow : (e.fields heads).startFloor < s.currentFloor
      · simp [Fields.distance, Fields.turn, hup, hdown, hbelow]
      · simp [Fields.distance, Fields.turn, hup, hdown, hbelow]

/-- What the search has found among the entries `es`, on its way from `t` to `u`. -/
structure Found (heads : Fin 10 → Fields) (s : State) (es : List Entry) (t u : Search) : Prop where
  examined : u.examined = t.examined ++ es
  least : ∀ e ∈ es, (e.fields heads).Suits s → u.minDiff ≤ (e.fields heads).distance s
  choice : (u.minDiff = t.minDiff ∧ u.minFloor = t.minFloor) ∨
    u.minDiff < t.minDiff ∧ ∃ e ∈ es, (e.fields heads).Suits s ∧
      u.minDiff = (e.fields heads).distance s ∧ u.minFloor = (e.fields heads).startFloor
  state : s.previousState = .up ∨ s.previousState = .down → u.state = t.state

theorem found_one (heads : Fin 10 → Fields) (s : State) (e : Entry) (t : Search) :
    Found heads s [e] t (examine heads s e t) := by
  by_cases hsuits : (e.fields heads).Suits s
  · rw [examine_of_suits hsuits, Search.consider]
    by_cases hlt : (e.fields heads).distance s < t.minDiff
    · rw [if_pos hlt]
      exact ⟨rfl, by simp, .inr ⟨hlt, e, by simp, hsuits, rfl, rfl⟩, fun hdir => if_pos hdir⟩
    · rw [if_neg hlt]
      exact ⟨rfl, by simpa using fun _ => Int.not_lt.1 hlt, .inl ⟨rfl, rfl⟩,
        fun hdir => if_pos hdir⟩
  · rw [examine_of_not_suits hsuits]
    exact ⟨rfl, by simp [hsuits], .inl ⟨rfl, rfl⟩, fun _ => rfl⟩

theorem Found.minDiff_le {es : List Entry} (h : Found heads s es t u) : u.minDiff ≤ t.minDiff := by
  rcases h.choice with ⟨heq, -⟩ | ⟨hlt, -⟩
  · exact heq.le
  · exact hlt.le

theorem Found.trans {es es' : List Entry} {v : Search} (h : Found heads s es t u)
    (h' : Found heads s es' u v) : Found heads s (es ++ es') t v := by
  refine ⟨by rw [h'.examined, h.examined, List.append_assoc], ?_, ?_,
    fun hdir => (h'.state hdir).trans (h.state hdir)⟩
  · intro e he hsuits
    rcases List.mem_append.1 he with he | he
    · exact h'.minDiff_le.trans (h.least e he hsuits)
    · exact h'.least e he hsuits
  · rcases h'.choice with ⟨hdiff', hfloor'⟩ | ⟨hlt', e, he, hsuits, hdiff', hfloor'⟩
    · rw [hdiff', hfloor']
      rcases h.choice with hsame | ⟨hlt, e, he, hchosen⟩
      · exact .inl hsame
      · exact .inr ⟨hlt, e, List.mem_append_left _ he, hchosen⟩
    · exact .inr ⟨hlt'.trans_le h.minDiff_le, e, List.mem_append_right _ he, hsuits, hdiff',
        hfloor'⟩

theorem foldl_examine (heads : Fin 10 → Fields) (s : State) (es : List Entry) (t : Search) :
    Found heads s es t (es.foldl (fun t e => examine heads s e t) t) := by
  induction es generalizing t with
  | nil => exact ⟨(List.append_nil _).symm, by simp, .inl ⟨rfl, rfl⟩, fun _ => rfl⟩
  | cons e es ih => exact (found_one heads s e t).trans (ih _)

theorem scan_found (heads : Fin 10 → Fields) (s : State) :
    Found heads s s.entries ⟨10, 0, s.state, []⟩ (scan heads s) :=
  scan_eq heads s ▸ foldl_examine heads s s.entries _

end Find

/-- **`min_floor` chooses** an entry that suits and is the nearest of those it looks at, if one is
nearer than 10, and else 0. With a direction recorded, it leaves `elevator.state` alone. -/
theorem minFloor_chooses (heads : Fin 10 → Fields) (s : State) (floor : Int) :
    ((minFloor heads s floor).1 = 0 ∧
        (∀ e ∈ s.entries, (e.fields heads).Suits s → 10 ≤ (e.fields heads).distance s) ∨
      ∃ e ∈ s.entries, (e.fields heads).Suits s ∧ (e.fields heads).distance s < 10 ∧
        (minFloor heads s floor).1 = (e.fields heads).startFloor ∧
        ∀ e' ∈ s.entries, (e'.fields heads).Suits s →
          (e.fields heads).distance s ≤ (e'.fields heads).distance s) ∧
    (s.previousState = .up ∨ s.previousState = .down → (minFloor heads s floor).2 = s) := by
  have hfound := scan_found heads s
  have hleast := hfound.least
  refine ⟨?_, ?_⟩
  · rcases hfound.choice with ⟨hdiff, hfloor⟩ | ⟨hlt, e, he, hsuits, hdiff, hfloor⟩
    · rw [hdiff] at hleast
      exact .inl ⟨hfloor, hleast⟩
    · rw [hdiff] at hlt hleast
      exact .inr ⟨e, he, hsuits, hlt, hfloor, hleast⟩
  · intro hdir
    rw [minFloor, hfound.state hdir]

/-! ## The next pickup -/

/-- What a search for the next pickup should do: look at everybody waiting, once, and choose the
nearest floor ahead of somebody who suits, if there is one; and change nothing. -/
structure SelectsPickup (heads : Fin 10 → Fields) (s : State) (floor : Int) : Prop where
  examined : (scan heads s).examined.Perm ((waiting s).map Entry.passenger)
  none : (∀ p ∈ waiting s, ¬ p.fields.Suits s) → (minFloor heads s floor).1 = 0
  nearest : (∃ p ∈ waiting s, p.fields.Suits s) →
    ∃ p ∈ waiting s, p.fields.Suits s ∧ (minFloor heads s floor).1 = p.startFloor ∧
      ∀ q ∈ waiting s, q.fields.Suits s →
        NotBefore s.previousState s.currentFloor q.startFloor →
        NotBefore s.previousState s.currentFloor p.startFloor ∧
          (p.startFloor - s.currentFloor).natAbs ≤ (q.startFloor - s.currentFloor).natAbs
  unchanged : (minFloor heads s floor).2 = s

/-- **`min_floor` does so if and only if nobody is waiting.** -/
theorem selectsPickup_iff (heads : Fin 10 → Fields) (s : State) (floor : Int) :
    SelectsPickup heads s floor ↔ ∀ k, s.floors k = [] := by
  constructor
  · intro h k
    have hperm := h.examined
    rw [(scan_found heads s).examined, List.nil_append] at hperm
    cases hq : s.floors k with
    | nil => rfl
    | cons p ps =>
      -- The last entry of a queue is its head.
      have hhead : Entry.head k ∈ s.entries := by
        refine List.mem_flatMap.2 ⟨k, List.mem_finRange k, ?_⟩
        rw [hq, entries_cons]
        exact List.mem_append_right _ (List.mem_singleton_self _)
      obtain ⟨q, -, hq⟩ := List.mem_map.1 (hperm.mem_iff.1 hhead)
      exact absurd hq (by simp)
  · intro h
    have hentries : s.entries = [] := by
      simp [State.entries, h, entries]
    have hwaiting : waiting s = [] := by
      simp [waiting, h]
    have hscan : scan heads s = ⟨10, 0, s.state, []⟩ := by
      rw [scan_eq, hentries]
      rfl
    refine ⟨?_, ?_, ?_, ?_⟩
    · rw [hscan, hwaiting]
      exact .nil
    · intro _
      rw [minFloor, hscan]
    · intro hsome
      obtain ⟨p, hp, -⟩ := hsome
      rw [hwaiting] at hp
      exact absurd hp List.not_mem_nil
    · rw [minFloor, hscan]

/-- An adult waits at floor 3, and the elevator has just been started. -/
def onePickup : State := after [.call (.request adult 3 5 true), .call .start]

/-- `min_floor` finds only the list head, and turns the elevator down. -/
theorem onePickup_missed : Accounting onePickup ∧
    (1 ≤ onePickup.currentFloor ∧ onePickup.currentFloor ≤ 10) ∧
    (scan (fun _ => ⟨0, 0, 0, none⟩) onePickup).examined = [.head 2] ∧
    (minFloor (fun _ => ⟨0, 0, 0, none⟩) onePickup 1).1 = 0 ∧
    (minFloor (fun _ => ⟨0, 0, 0, none⟩) onePickup 1).2.state = .down ∧
    ¬ SelectsPickup (fun _ => ⟨0, 0, 0, none⟩) onePickup 1 := by
  refine ⟨accounting_after _, by decide, by decide, by decide, by decide, ?_⟩
  intro h
  obtain ⟨p, hp, -, hfloor, -⟩ := h.nearest ⟨⟨0, 2, 1, 3, 5, adult, .up⟩, by decide, by decide⟩
  have hstart : ∀ p ∈ waiting onePickup, p.startFloor = 3 := by decide
  rw [hstart p hp] at hfloor
  exact absurd hfloor (by decide)

end KernelElevator
