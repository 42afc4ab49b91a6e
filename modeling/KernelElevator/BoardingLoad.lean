import KernelElevator.BoardingInvariant

/-!
# Boarding: the steps of `load_elevator`

Each access of `load_elevator` keeps the invariant, if it is on time.

* `Inv.setPrev` — the first write of `__list_del_entry` takes a passenger out of the queue.
* `Inv.addTail` — `list_add_tail` puts him on board.
* `Inv.load` — all of them.
-/

namespace KernelElevator.Boarding

/-! ## `load_elevator` moves -/

section Load

variable {r : Boarding} {E T rest : List Passenger} {L : Option (Fin 10) → List Cell}
  {s s' : Landing}

/-- A step that only reads. -/
theorem Inv.reads (h : Inv r E T rest L s) (hconfig : s'.config = s.config)
    (hview : view s' = view s) (hunderway : underway s'.load = underway s.load)
    (hphase : At r T rest s' L) (hsteps : s'.steps = s.steps + 1)
    (hrank : rank s.load < rank s'.load) : Inv r E T rest L s' := by
  refine ⟨hview ▸ h.rings, hconfig ▸ h.requests, h.queue, h.takes, h.here, h.others,
    hunderway ▸ h.onboard, hphase, ?_⟩
  have hsofar := h.steps
  omega

/-- Who waited before is linked in. -/
theorem old_done (h : Requests r E L s.config) {p : Passenger}
    (hp : p ∈ r.state.floors r.floor) : s.config.stage p.cell = .done := by
  apply h.outside
  intro hmem
  obtain ⟨q, hq, hcell⟩ := List.mem_map.1 hmem
  refine call_not_mem r.records hq (some r.floor) ?_
  rw [hcell]
  exact List.mem_cons_of_mem _ (List.mem_map_of_mem hp)

/-- Where a `next` link leads to the list head, nobody who waited before comes after. -/
theorem old_le (h : Requests r E L s.config) {pre ps qs : List Passenger} {a : Cell}
    (hq : r.state.floors r.floor ++ qs = pre ++ ps)
    (hforming : Ring.Forming (listHead (some r.floor)) s.config a (ps.map Passenger.cell))
    (hnext : s.config.links.next a = listHead (some r.floor)) :
    (r.state.floors r.floor).length ≤ pre.length := by
  by_contra hlt
  obtain ⟨as, hpre, -⟩ | ⟨as, hold, hps⟩ := List.append_eq_append_iff.1 hq
  · rw [hpre, List.length_append] at hlt
    omega
  · cases as with
    | nil =>
      rw [hold, List.append_nil] at hlt
      exact hlt le_rfl
    | cons p as =>
      have hp : p ∈ r.state.floors r.floor := by simp [hold]
      rw [hps] at hforming
      rw [(hforming.1.done (old_done h hp)).1] at hnext
      exact cell_ne_listHead p _ hnext

/-- The records of the queue are filled in. -/
theorem Inv.filled (h : Inv r E T rest L s) {p : Passenger} (hp : p ∈ rest) :
    r.passenger p.id = p := by
  apply r.filled
  have hmem : p ∈ r.state.floors r.floor ++ onFloor r.floor E := by
    rw [h.queue]
    exact List.mem_append_right _ hp
  rcases List.mem_append.1 hmem with hold | hnew
  · have hwaiting : p ∈ waiting r.state := List.mem_flatMap.2 ⟨r.floor, List.mem_finRange _, hold⟩
    exact List.mem_append_left _ (List.mem_append_right _ hwaiting)
  · exact List.mem_append_right _ (h.requests.subset p (List.mem_of_mem_filter hnew))

/-- The queue of the floor, while `load_elevator` only reads. -/
theorem Inv.making (h : Inv r E T rest L s) (hview : view s = s.config) :
    Ring.Making (listHead (some r.floor)) s.config (rest.map Passenger.cell) := by
  have hmaking := h.rings.making (some r.floor)
  rwa [hview, h.here] at hmaking

/-- What the `next` link of the first passenger leads to. -/
theorem Inv.next_front (h : Inv r E T rest L s) (hview : view s = s.config) {p : Passenger}
    {ps : List Passenger} (hrest : rest = p :: ps) (hp : s.config.stage p.cell = .done) :
    s.config.links.next p.cell = listHead (some r.floor) ∧
        (r.state.floors r.floor).length ≤ T.length + 1 ∨
      Front s (s.config.links.next p.cell) ps := by
  have hmaking := h.making hview
  rw [hrest, List.map_cons] at hmaking
  rcases (hmaking.front hp).2 with hnext | ⟨ys, hys, hdone⟩
  · have hq : r.state.floors r.floor ++ onFloor r.floor E = (T ++ [p]) ++ ps := by
      rw [h.queue, hrest, List.append_assoc, List.singleton_append]
    have hle := old_le h.requests hq hmaking.forming.2 hnext
    rw [List.length_append, List.length_singleton] at hle
    exact .inl ⟨hnext, hle⟩
  · obtain ⟨q, qs, rfl, hq, -⟩ := List.map_eq_cons_iff.1 hys
    exact .inr ⟨q, qs, rfl, hq.symm, hdone⟩

theorem Inv.enter (h : Inv r E T rest L s) (hs : s.load = .enter) :
    Inv r E T rest L (s.loadStep r.passenger r.floor) := by
  have hview : view s = s.config := by
    unfold view
    rw [hs]
  have hphase := h.phase
  rw [At, hs] at hphase
  obtain ⟨rfl, hloaded⟩ := hphase
  have hfloor : s.globals.currentFloor = floorOf r.floor := by
    rw [show s.globals = r.state.globals from hloaded]
    exact r.here
  rw [Landing.loadStep, hs]
  simp only [Landing.access, hs]
  rw [if_neg (not_not.2 hfloor.symm)]
  by_cases hempty : s.config.links.next (listHead (some r.floor)) = listHead (some r.floor)
  · rw [if_pos hempty]
    have hle := old_le h.requests h.queue (h.making hview).forming hempty
    have hold : r.state.floors r.floor = [] := List.length_eq_zero_iff.1 (Nat.le_zero.1 hle)
    refine h.reads rfl (by rw [hview]; rfl) (by rw [hs]; rfl) ?_ rfl
      (by rw [hs]; exact (by decide : 12 < 16))
    exact ⟨hloaded, .inr ⟨rfl, .inl ⟨rfl, hold⟩⟩⟩
  · rw [if_neg hempty]
    refine h.reads rfl (by rw [hview]; rfl) (by rw [hs]; rfl) ?_ rfl
      (by rw [hs]; exact (by decide : 12 < 13))
    exact ⟨rfl, hloaded, hempty⟩

theorem Inv.first (h : Inv r E T rest L s) (hs : s.load = .first) :
    Inv r E T rest L (s.loadStep r.passenger r.floor) := by
  have hview : view s = s.config := by
    unfold view
    rw [hs]
  have hphase := h.phase
  rw [At, hs] at hphase
  obtain ⟨rfl, hloaded, hne⟩ := hphase
  have hmaking := h.making hview
  have hleads := hmaking.leads _ List.mem_cons_self (by rw [hmaking.idle]; trivial)
  obtain ⟨hmem, hdone, hprev⟩ := hleads.resolve_left hne
  obtain ⟨ys, hys⟩ := hmaking.forming.eq_cons hmaking.nodup hmem hdone hprev
  obtain ⟨p, ps, rfl, hp, -⟩ := List.map_eq_cons_iff.1 hys
  rw [Landing.loadStep, hs]
  simp only [Landing.access, hs]
  refine h.reads rfl (by rw [hview]; rfl) (by rw [hs]; rfl) ?_ rfl
    (by rw [hs]; exact (by decide : 13 < 14))
  exact ⟨.inr ⟨p, ps, rfl, hp.symm, hdone⟩, hloaded⟩

theorem Inv.save (h : Inv r E T rest L s) {pos : Cell} (hs : s.load = .save pos) :
    Inv r E T rest L (s.loadStep r.passenger r.floor) := by
  have hview : view s = s.config := by
    unfold view
    rw [hs]
  have hphase := h.phase
  rw [At, hs] at hphase
  obtain ⟨hnext, hloaded⟩ := hphase
  rw [Landing.loadStep, hs]
  simp only [Landing.access, hs]
  refine h.reads rfl (by rw [hview]; rfl) (by rw [hs]; rfl) ?_ rfl
    (by rw [hs]; exact (by decide : 14 < 15))
  refine ⟨hloaded, hnext.imp_right ?_⟩
  rintro ⟨p, ps, hrest, rfl, hdone⟩
  refine ⟨p, ps, hrest, rfl, hdone, (h.next_front hview hrest hdone).imp_left ?_⟩
  rintro ⟨hhead, hle⟩
  exact ⟨hhead, hle, Nat.succ_pos _⟩

theorem Inv.test (h : Inv r E T rest L s) {pos n : Cell} (hs : s.load = .test pos n) :
    Inv r E T rest L (s.loadStep r.passenger r.floor) := by
  have hview : view s = s.config := by
    unfold view
    rw [hs]
  have hphase := h.phase
  rw [At, hs] at hphase
  obtain ⟨hloaded, hpos⟩ := hphase
  have hloaded' : s.globals = T.foldl (Globals.take r.floor) r.state.globals := hloaded
  rw [Landing.loadStep, hs]
  simp only [Landing.access, hs]
  rcases hpos with ⟨rfl, hle, hlt⟩ | ⟨p, ps, hrest, rfl, hdone, hnext⟩
  · rw [if_pos rfl]
    refine h.reads rfl (by rw [hview]; rfl) (by rw [hs]; rfl) ?_ rfl
      (by rw [hs]; exact (by decide : 15 < 16))
    exact ⟨hloaded, .inl ⟨rfl, hle, hlt⟩⟩
  · rw [if_neg (cell_ne_listHead p _)]
    have hp : r.passenger p.id = p := h.filled (by simp [hrest])
    simp only [Passenger.cell, hp, Landing.body]
    have htake : ∀ g, g = s.globals.take r.floor p →
        Loaded r (T ++ [p]) { s with globals := g } := by
      intro g hg
      rw [Loaded, List.foldl_append, ← hloaded']
      exact hg
    by_cases hequal : p.state = .equal
    · rw [if_pos hequal]
      refine h.reads rfl (by rw [hview]; rfl) (by rw [hs]; rfl) ?_ rfl
        (by rw [hs]; exact (by decide : 15 < 16))
      exact ⟨p, ps, hrest, rfl, hdone, hnext, by simp [hequal], .inl hequal,
        htake _ (by rw [Globals.take, if_pos hequal]; rfl)⟩
    · rw [if_neg hequal]
      by_cases hfits : s.globals.Fits p
      · rw [if_pos hfits]
        refine h.reads rfl (by rw [hview]; rfl) (by rw [hs]; rfl) ?_ rfl
          (by rw [hs]; exact (by decide : 15 < 16))
        exact ⟨p, ps, hrest, rfl, hdone, hnext, by simp [hequal], .inr (hloaded' ▸ hfits),
          htake _ (by rw [Globals.take, if_neg hequal]; rfl)⟩
      · rw [if_neg hfits]
        refine h.reads rfl (by rw [hview]; rfl) (by rw [hs]; rfl) ?_ rfl
          (by rw [hs]; exact (by decide : 15 < 16))
        refine ⟨hloaded, .inr ⟨rfl, .inr ⟨by simp [hrest], ?_⟩⟩⟩
        intro q hq
        rw [hrest] at hq
        obtain rfl : p = q := Option.some.inj hq
        exact ⟨hequal, hloaded' ▸ hfits⟩

theorem Inv.readPrev (h : Inv r E T rest L s) {board : Bool} {pos n : Cell}
    (hs : s.load = .readPrev board pos n) :
    Inv r E T rest L (s.loadStep r.passenger r.floor) := by
  have hview : view s = s.config := by
    unfold view
    rw [hs]
  have hphase := h.phase
  rw [At, hs] at hphase
  have hprev : s.config.links.prev pos = listHead (some r.floor) := by
    obtain ⟨p, ps, hrest, rfl, hdone, -⟩ := hphase
    have hmaking := h.making hview
    rw [hrest, List.map_cons] at hmaking
    exact (hmaking.front hdone).1
  rw [Landing.loadStep, hs]
  simp only [Landing.access, hs]
  refine h.reads rfl (by rw [hview]; rfl) (by rw [hs]; rfl) ?_ rfl
    (by rw [hs]; exact (by decide : 16 < 17))
  exact ⟨hphase, hprev⟩

theorem Inv.readNext (h : Inv r E T rest L s) {board : Bool} {pos n prev : Cell}
    (hs : s.load = .readNext board pos n prev) :
    Inv r E T rest L (s.loadStep r.passenger r.floor) := by
  have hview : view s = s.config := by
    unfold view
    rw [hs]
  have hphase := h.phase
  rw [At, hs] at hphase
  obtain ⟨hremoving, hprev⟩ := hphase
  have hnext : s.config.links.next pos = listHead (some r.floor) ∧
        (r.state.floors r.floor).length ≤ T.length + 1 ∨
      Front s (s.config.links.next pos) rest.tail := by
    obtain ⟨p, ps, hrest, rfl, hdone, -⟩ := hremoving
    rw [hrest]
    exact h.next_front hview hrest hdone
  rw [Landing.loadStep, hs]
  simp only [Landing.access, hs]
  refine h.reads rfl (by rw [hview]; rfl) (by rw [hs]; rfl) ?_ rfl
    (by rw [hs]; exact (by decide : 17 < 18))
  exact ⟨hremoving, hprev, hnext⟩

/-- The links of the first passenger when `load_elevator` is about to use what it has read. -/
theorem Inv.next_eq (h : Inv r E T rest L s) (hview : view s = s.config) {p : Passenger}
    {ps : List Passenger} {next : Cell} (hrest : rest = p :: ps)
    (hp : s.config.stage p.cell = .done)
    (hnext : next = listHead (some r.floor) ∨ Front s next ps)
    (hontime : next = listHead (some r.floor) →
      s.config.links.prev (listHead (some r.floor)) = p.cell) :
    s.config.links.next p.cell = next := by
  have hmaking := h.making hview
  rw [hrest, List.map_cons] at hmaking
  rcases hnext with hhead | ⟨q, qs, rfl, rfl, hq⟩
  · have hnil := hmaking.forming.2.eq_nil (List.nodup_cons.1 hmaking.nodup).2 (hontime hhead)
    rcases (hmaking.front hp).2 with hnext | ⟨ys, hys, -⟩
    · rw [hnext, hhead]
    · rw [hys] at hnil
      cases hnil
  · exact (hmaking.forming.2.1.done hq).1

/-- **The first write of `__list_del_entry`** takes the passenger out of the queue. -/
theorem Inv.setPrev (h : Inv r E T rest L s) {board : Bool} {pos n prev next : Cell}
    (hs : s.load = .setPrev board pos n prev next)
    (hontime : OnTime r.passenger r.floor s .load) :
    ∃ p ps, rest = p :: ps ∧ Inv r E (T ++ [p]) ps
      (Function.update L (some r.floor) (ps.map Passenger.cell))
      (s.loadStep r.passenger r.floor) := by
  have hview : view s = s.config := by
    unfold view
    rw [hs]
  have hphase := h.phase
  rw [At, hs] at hphase
  obtain ⟨⟨p, ps, hrest, rfl, hdone, hn, hboard, hfits, hloaded⟩, rfl, hnext⟩ := hphase
  rw [hrest] at hnext
  have hclear : next = listHead (some r.floor) →
      s.config.links.prev (listHead (some r.floor)) = p.cell := by
    rintro rfl
    exact hontime _ _ _ _ hs
  have hnexteq := h.next_eq hview hrest hdone (hnext.imp_left And.left) hclear
  have hmaking := h.making hview
  rw [hrest, List.map_cons] at hmaking
  have hpreveq := (hmaking.front hdone).1
  have hL : L (some r.floor) = p.cell :: ps.map Passenger.cell := by
    rw [h.here, hrest, List.map_cons]
  have hrings := h.rings
  rw [hview] at hrings
  obtain ⟨hrings, hout⟩ := hrings.unlink hL hdone (by rw [hnexteq]; exact hclear)
  have hsub : ∀ i x, x ∈ Function.update L (some r.floor) (ps.map Passenger.cell) i → x ∈ L i := by
    intro i x hx
    by_cases hi : i = some r.floor
    · rw [hi, Function.update_self] at hx
      rw [hi, hL]
      exact List.mem_cons_of_mem _ hx
    · rwa [Function.update_of_ne hi] at hx
  refine ⟨p, ps, hrest, ?_⟩
  rw [Landing.loadStep, hs]
  simp only [Landing.access, hs]
  refine ⟨?_, ⟨h.requests.nodup, h.requests.subset, h.requests.entered, h.requests.outside, ?_, ?_,
    ?_⟩, ?_, ?_, Function.update_self .., ?_, ?_, ?_, ?_⟩
  · rw [Ring.Links.unlink, hpreveq, hnexteq] at hrings
    exact hrings
  · intro q hq he i hmem
    refine h.requests.fresh q hq he i ?_
    exact List.cons_subset_cons _ (fun x hx => hsub i x hx) hmem
  · intro q hq j hj t ht
    have hmem := h.requests.placed q hq j hj t ht
    by_cases hi : some j = some r.floor
    · have hne : q.cell ≠ p.cell := by
        intro heq
        rw [heq] at ht
        simp [Landing.goto, Landing.setPrev, hdone, Ring.Stage.tail] at ht
      rw [hi, hL] at hmem
      rw [hi, Function.update_self]
      exact (List.mem_cons.1 hmem).resolve_left hne
    · rwa [Function.update_of_ne hi]
  · intro x hx
    exact h.requests.aboard x (hsub _ _ hx)
  · rw [h.queue, hrest, List.append_assoc, List.singleton_append]
  · exact takeable_append.2 ⟨h.takes, hfits, trivial⟩
  · intro j hj
    rw [Function.update_of_ne (by simpa using hj)]
    exact h.others j hj
  · have honboard := h.onboard
    rw [hs] at honboard
    rw [Function.update_of_ne (by simp), List.filter_append, ← List.append_assoc, List.map_append,
      ← honboard]
    by_cases hequal : p.state = .equal
    · have hfalse : board = false := by simpa [hequal] using hboard
      simp [hfalse, hequal, Landing.goto, underway]
    · have htrue : board = true := hboard.2 hequal
      simp [htrue, hequal, Landing.goto, underway]
  · refine ⟨?_, hloaded, rfl, hout, hdone⟩
    rw [List.length_append, List.length_singleton]
    exact hn
  · have hsteps := h.steps
    rw [hs] at hsteps
    rw [List.length_append, List.length_singleton]
    show s.steps + 1 + 12 ≤ 12 * (T.length + 1) + 7
    have hsteps' : s.steps + 12 ≤ 12 * T.length + 18 := hsteps
    omega

/-- A write to the links of the passenger that has been taken out. -/
theorem Inv.writes (h : Inv r E T rest L s) {pos : Cell}
    (hout : ∀ i, pos ∉ listHead i :: L i) (hstage : s'.config.stage = s.config.stage)
    (hview : ∀ x, x ≠ pos → Ring.Agree (view s) (view s') x)
    (hunderway : underway s'.load = underway s.load) (hphase : At r T rest s' L)
    (hsteps : s'.steps = s.steps + 1) (hrank : rank s.load < rank s'.load) :
    Inv r E T rest L s' := by
  obtain ⟨hnodup, hsubset, hentered, houtside, hfresh, hplaced, haboard⟩ := h.requests
  refine ⟨h.rings.outside ?_, ⟨hnodup, hsubset, ?_, ?_, ?_, ?_, ?_⟩, h.queue, h.takes, h.here,
    h.others, hunderway ▸ h.onboard, hphase, ?_⟩
  · intro i x hx
    exact hview x fun heq => hout i (heq ▸ hx)
  · rwa [hstage]
  · rwa [hstage]
  · rwa [hstage]
  · rwa [hstage]
  · rwa [hstage]
  · have hsofar := h.steps
    omega

/-- The second write, and nothing has happened to the view. -/
theorem Inv.setNext (h : Inv r E T rest L s) {board : Bool} {pos n prev next : Cell}
    (hs : s.load = .setNext board pos n prev next) :
    Inv r E T rest L (s.loadStep r.passenger r.floor) := by
  have hview : view s = (s.setNext prev next).config := by
    unfold view
    rw [hs]
  have hphase := h.phase
  rw [At, hs] at hphase
  obtain ⟨hnext, hloaded, hprev, hout, hdone⟩ := hphase
  rw [Landing.loadStep, hs]
  simp only [Landing.access, hs]
  cases board with
  | false =>
    refine h.writes hout rfl ?_ (by rw [hs]; rfl) ⟨hnext, hloaded, hout, hdone⟩ rfl
      (by rw [hs]; exact (by decide : 7 < 8))
    intro x _
    rw [hview]
    exact ⟨rfl, rfl, rfl⟩
  | true =>
    refine h.writes hout rfl ?_ (by rw [hs]; rfl) ?_ rfl (by rw [hs]; exact (by decide : 7 < 8))
    · intro x hx
      rw [hview]
      exact ⟨Function.update_of_ne hx _ _, rfl, rfl⟩
    · refine ⟨hnext, hloaded, hdone, ?_, fun _ => hout, ?_, ?_, ?_⟩
      · exact fun i heq => hout i (heq ▸ List.mem_cons_self)
      · simp [Ring.Stage.tail]
      · simp
      · simp

theorem Inv.poisonNext (h : Inv r E T rest L s) {pos n : Cell} (hs : s.load = .poisonNext pos n) :
    Inv r E T rest L (s.loadStep r.passenger r.floor) := by
  have hview : view s = s.config := by
    unfold view
    rw [hs]
  have hphase := h.phase
  rw [At, hs] at hphase
  obtain ⟨hnext, hloaded, hout, hdone⟩ := hphase
  rw [Landing.loadStep, hs]
  simp only [Landing.access, hs]
  refine h.writes hout rfl ?_ (by rw [hs]; rfl) ⟨hnext, hloaded, hout, hdone⟩ rfl
    (by rw [hs]; exact (by decide : 8 < 9))
  intro x hx
  rw [hview]
  exact ⟨rfl, Function.update_of_ne hx _ _, rfl⟩

theorem Inv.poisonPrev (h : Inv r E T rest L s) {pos n : Cell} (hs : s.load = .poisonPrev pos n) :
    Inv r E T rest L (s.loadStep r.passenger r.floor) := by
  have hview : view s = s.config := by
    unfold view
    rw [hs]
  have hphase := h.phase
  rw [At, hs] at hphase
  obtain ⟨hnext, hloaded, hout, hdone⟩ := hphase
  rw [Landing.loadStep, hs]
  simp only [Landing.access, hs]
  refine h.writes hout rfl ?_ (by rw [hs]; rfl) ⟨hnext, hloaded⟩ rfl
    (by rw [hs]; exact (by decide : 9 < 14))
  intro x hx
  rw [hview]
  exact ⟨rfl, rfl, Function.update_of_ne hx _ _⟩

/-- The insertion into `onboard`, which nobody else touches, is timely. -/
theorem timely_addTail (hrings : Ring.AllMaking listHead (view s) L) {pos : Cell}
    (haboard : ∀ x ∈ L none, x ≠ pos → (view s).stage x = .done)
    (hmem : ∀ t ∈ ((view s).stage pos).tail, pos ∈ L none)
    (hread : ∀ t, (view s).stage pos = .read t → (view s).links.prev (listHead none) = t) :
    Ring.Timely (listHead none) (view s) pos := by
  refine ⟨hread, ?_⟩
  intro t ht u hu
  have ht' : t ∈ ((view s).stage pos).tail := by rw [ht]; rfl
  have hmaking := hrings.making none
  rcases List.mem_cons.1 (hmaking.forming.tail_mem (hmem t ht') ht') with rfl | htmem
  · rw [hmaking.idle] at hu
    cases hu
  · by_cases htpos : t = pos
    · rw [← htpos, hu] at ht
      cases ht
    · rw [haboard t htmem htpos] at hu
      cases hu

/-- Where the insertion into `onboard` goes on, with the stage that it has come to. -/
def afterAdd (pos n : Cell) (stage : Ring.Stage Cell) : LoadPhase :=
  if stage = .done then .save n else .addTail pos n stage

theorem afterAdd_move {c : Ring.Config Cell} {head pos n : Cell} {stage : Ring.Stage Cell}
    (hstage : c.stage pos = stage) (hnot : stage ≠ .done) (xs : List Cell) :
    rank (.addTail pos n stage) < rank (afterAdd pos n ((Ring.move head pos c).stage pos)) ∧
      Ring.grown c pos xs ++ underway (afterAdd pos n ((Ring.move head pos c).stage pos)) =
        xs ++ underway (.addTail pos n stage) := by
  cases stage with
  | done => exact absurd rfl hnot
  | _ => simp [Ring.move, Ring.grown, hstage, afterAdd, rank, underway]

theorem view_afterAdd {c : Ring.Config Cell} {pos n : Cell}
    (hload : s.load = afterAdd pos n (c.stage pos)) (hlinks : s.config.links = c.links)
    (hstage : Function.update s.config.stage pos (c.stage pos) = c.stage)
    (hdone : s.config.stage pos = .done) : view s = c := by
  have hconfig : (⟨s.config.links, c.stage⟩ : Ring.Config Cell) = c := by
    rw [hlinks]
  unfold view
  rw [hload, afterAdd]
  by_cases hend : c.stage pos = .done
  · rw [if_pos hend]
    rw [hend, ← hdone, Function.update_eq_self] at hstage
    rw [← hstage] at hconfig
    exact hconfig
  · rw [if_neg hend]
    simp only [hstage]
    exact hconfig

/-- **A step of `list_add_tail` on `onboard`.** -/
theorem Inv.addTail (h : Inv r E T rest L s) {pos n : Cell} {stage : Ring.Stage Cell}
    (hs : s.load = .addTail pos n stage) :
    ∃ L', Inv r E T rest L' (s.loadStep r.passenger r.floor) := by
  have hview : view s = { s.config with stage := Function.update s.config.stage pos stage } := by
    unfold view
    rw [hs]
  have hphase := h.phase
  rw [At, hs] at hphase
  obtain ⟨hnext, hloaded, hdone, hhead, hfresh, hmem, hread, hnot⟩ := hphase
  have hpos : (view s).stage pos = stage := by
    rw [hview]
    exact Function.update_self ..
  have hother : ∀ x, x ≠ pos → (view s).stage x = s.config.stage x := by
    intro x hx
    rw [hview]
    exact Function.update_of_ne hx _ _
  have htimely : Ring.Timely (listHead none) (view s) pos := by
    refine timely_addTail h.rings ?_ (by rwa [hpos]) ?_
    · intro x hx hne
      rw [hother x hne]
      exact h.requests.aboard x hx
    · rw [hpos, view_prev]
      exact hread
  have hrings := h.rings.move hhead (by rwa [hpos]) (by rwa [hpos]) htimely
  have hgrown : ∀ x ∈ Function.update L none (Ring.grown (view s) pos (L none)) none,
      x ∈ L none ∨ x = pos := by
    intro x hx
    rw [Function.update_self, Ring.mem_grown] at hx
    exact hx.imp_right And.right
  obtain ⟨hnodup, hsubset, hentered, houtside, hfreshcalls, hplaced, haboard⟩ := h.requests
  -- The stages of the requests stay as they are.
  have hrequests : ∀ c : Ring.Config Cell, c.stage = s.config.stage →
      Requests r E (Function.update L none (Ring.grown (view s) pos (L none))) c := by
    intro c hc
    refine ⟨hnodup, hsubset, ?_, ?_, ?_, ?_, ?_⟩
    · rwa [hc]
    · rwa [hc]
    · intro q hq he i hmemq
      rw [hc] at he
      by_cases hi : i = none
      · subst hi
        rcases List.mem_cons.1 hmemq with hmemq | hmemq
        · exact cell_ne_listHead q none hmemq
        · rcases hgrown _ hmemq with hmemq | heq
          · exact hfreshcalls q hq he none (List.mem_cons_of_mem _ hmemq)
          · rw [heq, hdone] at he
            exact he trivial
      · rw [Function.update_of_ne hi] at hmemq
        exact hfreshcalls q hq he i hmemq
    · rw [hc]
      intro q hq j hj t ht
      rw [Function.update_of_ne (by simp)]
      exact hplaced q hq j hj t ht
    · rw [hc]
      intro x hx
      rcases hgrown x hx with hx | rfl
      · exact haboard x hx
      · exact hdone
  have hstage : (Ring.move (listHead none) pos (view s)).stage = Function.update s.config.stage pos
      ((Ring.move (listHead none) pos (view s)).stage pos) := by
    funext x
    by_cases hx : x = pos
    · rw [hx, Function.update_self]
    · rw [Function.update_of_ne hx, Ring.move_stage_ne hx, hother x hx]
  obtain ⟨hrank, honboard⟩ : rank (.addTail pos n stage) <
      rank (afterAdd pos n ((Ring.move (listHead none) pos (view s)).stage pos)) ∧ _ :=
    afterAdd_move hpos hnot (L none)
  have hthen : At r T rest { s with
      config.links := (Ring.move (listHead none) pos (view s)).links
      load := afterAdd pos n ((Ring.move (listHead none) pos (view s)).stage pos)
      steps := s.steps + 1 }
      (Function.update L none (Ring.grown (view s) pos (L none))) := by
    rw [At, afterAdd]
    by_cases hend : (Ring.move (listHead none) pos (view s)).stage pos = .done
    · rw [if_pos hend]
      exact ⟨hnext, hloaded⟩
    · rw [if_neg hend]
      refine ⟨hnext, hloaded, hdone, hhead, ?_, ?_, ?_, hend⟩
      · intro he i hmemi
        rw [Ring.move_entered, hpos, not_or] at he
        by_cases hi : i = none
        · subst hi
          rcases List.mem_cons.1 hmemi with hmemi | hmemi
          · exact hhead none hmemi
          · rw [Function.update_self, Ring.mem_grown, hpos] at hmemi
            rcases hmemi with hmemi | ⟨hreads, -⟩
            · exact hfresh he.1 none (List.mem_cons_of_mem _ hmemi)
            · exact he.2 hreads
        · rw [Function.update_of_ne hi] at hmemi
          exact hfresh he.1 i hmemi
      · intro t ht
        rw [Function.update_self, Ring.mem_grown, hpos]
        rcases Ring.tail_of_move ht with ht | ht
        · rw [hpos] at ht
          exact .inl (hmem t ht)
        · rw [hpos] at ht
          exact .inr ⟨⟨t, ht⟩, rfl⟩
      · intro t ht
        cases stage with
        | start =>
          simp only [Ring.move, hpos, Function.update_self, Ring.Stage.read.injEq] at ht ⊢
          exact ht
        | _ => simp [Ring.move, hpos] at ht
  rw [Landing.loadStep, hs]
  simp only [Landing.access, hs, ← hview]
  set c := Ring.move (listHead none) pos (view s) with hc
  refine ⟨_, ?_, hrequests _ rfl, h.queue, h.takes, ?_, ?_, ?_, ?_, ?_⟩
  · rw [← view_afterAdd (s := { s with
        config.links := c.links, load := afterAdd pos n (c.stage pos), steps := s.steps + 1 })
      rfl rfl hstage.symm hdone] at hrings
    exact hrings
  · rw [Function.update_of_ne (by simp)]
    exact h.here
  · intro j hj
    rw [Function.update_of_ne (by simp)]
    exact h.others j hj
  · rw [Function.update_self, ← h.onboard, hs]
    exact honboard
  · exact hthen
  · have hsteps := h.steps
    rw [hs] at hsteps
    show s.steps + 1 + 12 ≤ 12 * T.length + rank (afterAdd pos n (c.stage pos))
    omega

theorem Inv.load (h : Inv r E T rest L s) (hontime : OnTime r.passenger r.floor s .load) :
    ∃ T' rest' L', Inv r E T' rest' L' (s.loadStep r.passenger r.floor) := by
  cases hs : s.load with
  | enter => exact ⟨T, rest, L, h.enter hs⟩
  | first => exact ⟨T, rest, L, h.first hs⟩
  | save pos => exact ⟨T, rest, L, h.save hs⟩
  | test pos n => exact ⟨T, rest, L, h.test hs⟩
  | readPrev board pos n => exact ⟨T, rest, L, h.readPrev hs⟩
  | readNext board pos n prev => exact ⟨T, rest, L, h.readNext hs⟩
  | setPrev board pos n prev next =>
    obtain ⟨p, ps, -, hinv⟩ := h.setPrev hs hontime
    exact ⟨_, _, _, hinv⟩
  | setNext board pos n prev next => exact ⟨T, rest, L, h.setNext hs⟩
  | poisonNext pos n => exact ⟨T, rest, L, h.poisonNext hs⟩
  | poisonPrev pos n => exact ⟨T, rest, L, h.poisonPrev hs⟩
  | addTail pos n stage => exact ⟨T, rest, h.addTail hs⟩
  | returned value =>
    refine ⟨T, rest, L, ?_⟩
    rw [Landing.loadStep, hs]
    exact h

end Load

end KernelElevator.Boarding
