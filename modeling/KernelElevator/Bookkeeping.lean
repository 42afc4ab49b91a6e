import KernelElevator.Preemption

/-!
# The books between statements

Between the statements that see to one passenger, the counters are ahead of the lists:
`load_elevator` has added the weight of somebody who is still in the queue. Whatever comes in at
such a moment, the passenger is then moved as if nothing had: nobody but the scheduler writes the
counters or takes a passenger from a list, and requests append behind.

* `Known` — what the scheduler knows where it is: which counters it has changed for the passenger at
  hand, whose place in the list is what it was when the scheduler looked.
* `Sound` — with the counters from before this passenger, the module is a delivery service.
* `service_between_statements` — exactly-once service, first come first served, and capacity,
  whenever and wherever calls come in.
-/

namespace KernelElevator.Preemption

open Machine

/-! ## Counting -/

section Counting

variable {floor : Int} {p : Passenger} {b : Books}

theorem execAll_append (cs ds : List Count) :
    Count.execAll floor p (cs ++ ds) b = Count.execAll floor p ds (Count.execAll floor p cs b) :=
  List.foldl_append

/-- What no count of a list changes is as before. -/
theorem execAll_untouched {α : Type*} {f : Books → α} {cs : List Count}
    (h : ∀ c ∈ cs, ∀ b, f (c.exec floor p b) = f b) (b : Books) :
    f (Count.execAll floor p cs b) = f b := by
  induction cs generalizing b with
  | nil => rfl
  | cons c cs ih =>
    have hrest := ih (fun d hd => h d (List.mem_cons_of_mem _ hd)) (c.exec floor p b)
    exact hrest.trans (h c List.mem_cons_self b)

/-- A counter that is changed once is, at any moment, as before or as afterwards. -/
theorem execAll_either {α : Type*} {f : Books → α} (touches : Count → Bool)
    (h : ∀ c, touches c = false → ∀ b, f (c.exec floor p b) = f b) {past todo : List Count}
    (hone : (past ++ todo).countP touches ≤ 1) (b : Books) :
    f (Count.execAll floor p past b) = f b ∨
      f (Count.execAll floor p past b) = f (Count.execAll floor p (past ++ todo) b) := by
  have hzero : ∀ cs : List Count, cs.countP touches = 0 → ∀ c ∈ cs, ∀ b,
      f (c.exec floor p b) = f b := by
    intro cs hcs c hc
    exact h c (by simpa using List.countP_eq_zero.1 hcs c hc)
  rw [List.countP_append] at hone
  by_cases hpast : past.countP touches = 0
  · exact .inl (execAll_untouched (hzero past hpast) b)
  · right
    rw [execAll_append]
    exact (execAll_untouched (hzero todo (by omega)) _).symm

end Counting

def Count.onWeight : Count → Bool
  | .weightUp | .weightDown => true
  | _ => false

def Count.onUnits : Count → Bool
  | .unitsUp | .unitsDown => true
  | _ => false

theorem weight_either {d : Deed} {floor : Int} {p : Passenger} {past todo : List Count}
    (h : past ++ todo = d.counts p) (b : Books) :
    (Count.execAll floor p past b).weight = b.weight ∨
      (Count.execAll floor p past b).weight = (Count.execAll floor p (d.counts p) b).weight := by
  rw [← h]
  refine execAll_either Count.onWeight ?_ ?_ b
  · intro c hc b
    cases c <;> first | rfl | cases hc
  · rw [h]
    cases d <;> by_cases hp : p.type = child <;>
      simp [Deed.counts, hp, List.countP_cons, Count.onWeight]

theorem units_either {d : Deed} {floor : Int} {p : Passenger} {past todo : List Count}
    (h : past ++ todo = d.counts p) (b : Books) :
    (Count.execAll floor p past b).units = b.units ∨
      (Count.execAll floor p past b).units = (Count.execAll floor p (d.counts p) b).units := by
  rw [← h]
  refine execAll_either Count.onUnits ?_ ?_ b
  · intro c hc b
    cases c <;> first | rfl | cases hc
  · rw [h]
    cases d <;> by_cases hp : p.type = child <;>
      simp [Deed.counts, hp, List.countP_cons, Count.onUnits]

/-! ## A passenger at once -/

/-- The deed as a whole. -/
def Deed.whole (floor : Int) (p : Passenger) (s : State) : Deed → State
  | .serve => s.serveHere floor p
  | .board => s.board floor p
  | .letOff => s.letOff floor p

def Deed.event (floor : Int) (p : Passenger) : Deed → Event
  | .serve => .servedHere floor p
  | .board => .boarded floor p
  | .letOff => .unloaded floor p

/-- The statements do together what the deed does as a whole. -/
theorem link_execAll (d : Deed) (floor : Int) (p : Passenger) (s : State) :
    d.link floor p (withBooks (Count.execAll floor p (d.counts p) (books s)) s) =
      { d.whole floor p s with log := s.log ++ [d.event floor p] } := by
  cases d with
  | serve => rfl
  | board =>
    by_cases hp : p.type = child <;>
      simp [Deed.link, Deed.whole, Deed.event, Deed.counts, Count.execAll, Count.exec, State.board,
        withBooks, books, hp, State.queue]
  | letOff =>
    by_cases hp : p.type = child <;>
      simp [Deed.link, Deed.whole, Deed.event, Deed.counts, Count.execAll, Count.exec, State.letOff,
        withBooks, books, hp]

/-- The passenger may be seen to. -/
def Deed.Ready (floor : Int) (p : Passenger) (s : State) : Deed → Prop
  | .serve => p.state = .equal ∧ ∃ rest, s.queue floor = p :: rest
  | .board => p.state ≠ .equal ∧ Fits s p ∧ ∃ rest, s.queue floor = p :: rest
  | .letOff => p.destinationFloor = floor ∧ p ∈ s.onboard

/-- **One passenger.** -/
theorem serves_whole {s : State} (h : Serves s) {d : Deed} {floor : Int} {p : Passenger}
    (hready : d.Ready floor p s) :
    Serves { d.whole floor p s with log := s.log ++ [d.event floor p] } := by
  cases d with
  | serve =>
    obtain ⟨he, rest, hq⟩ := hready
    have hp := h.accounting.of_queue (hq ▸ List.mem_cons_self)
    have hstay := hp.1.state_eq_equal.1 he
    have hsite : (s.serveHere floor p).site = ⟨Function.update s.queue floor rest, s.onboard⟩ :=
      congrArg (Delivery.Site.mk · _) (queue_erase_head hq)
    refine h.act (e := .servedHere floor p) rfl rfl (hsite ▸ .serve s.site _ p rest hq)
      { accounting_servedHere h.accounting p floor with } le_rfl (fun _ _ hq => by cases hq)
      ⟨hp.2.symm.trans hstay, hstay⟩ rfl (sum_bump (hp.2 ▸ hp.1.start) _)
  | board =>
    obtain ⟨hne, hfits, rest, hq⟩ := hready
    have hmem : p ∈ s.queue floor := hq ▸ List.mem_cons_self
    have hsite : (s.board floor p).site = ⟨Function.update s.queue floor rest, s.onboard ++ [p]⟩ :=
      congrArg (Delivery.Site.mk · _) (queue_erase_head hq)
    exact h.act (e := .boarded floor p) rfl rfl (hsite ▸ .board s.site _ p rest hq)
      { accounting_boarded h.accounting hmem hne hfits with } le_rfl (fun _ _ hq => by cases hq)
      (h.accounting.of_queue hmem).2.symm (add_zero _).symm (add_zero _).symm
  | letOff =>
    obtain ⟨hd, hp⟩ := hready
    exact h.act (e := .unloaded floor p) rfl rfl (.deliver s.site p hp)
      { accounting_letOff h.accounting hp floor with } le_rfl (fun _ _ hq => by cases hq) hd.symm
      rfl (sum_bump (hd ▸ (h.accounting.riding p hp).1.destination) _)

/-! ## What the scheduler knows -/

/-- `p` is the first in the queue, and `dummy`, unless it is the list head, the next. -/
def Heads (floor : Int) (p : Passenger) (dummy : Option Passenger) (s : State) : Prop :=
  ∃ rest, s.queue floor = p :: rest ∧ ∀ q ∈ dummy, rest.head? = some q

/-- The traversal of `onboard` has kept those before `ps`, who want to go elsewhere. -/
def Passed (floor : Int) (ps : List Passenger) (s : State) : Prop :=
  ∃ kept, s.onboard = kept ++ ps ∧ ∀ q ∈ kept, q.destinationFloor ≠ floor

/-- The passenger has been looked at, in the loop that goes on at `rest`. -/
def Seen (d : Deed) (floor : Int) (p : Passenger) (rest : Rest) (s : State) : Prop :=
  match d, rest with
  | .serve, .load dummy => p.state = .equal ∧ Heads floor p dummy s
  | .board, .load dummy => p.state ≠ .equal ∧ Fits s p ∧ Heads floor p dummy s
  | .letOff, .unload _ ps => p.destinationFloor = floor ∧ Passed floor (p :: ps) s
  | _, _ => False

/-- What the scheduler knows at each point; `b` are the counters from before the passenger at
hand. -/
def Known (b : Books) (s : State) : Point → Prop
  | .deed d floor p todo rest =>
    (∃ past, past ++ todo = d.counts p ∧ books s = Count.execAll floor p past b) ∧
      Seen d floor p rest (withBooks b s)
  | .unload floor _ ps => books s = b ∧ Passed floor ps s
  | .loadSave floor temp => books s = b ∧ ∀ p ∈ temp, (s.queue floor).head? = some p
  | .loadBody floor temp dummy => books s = b ∧ ∀ p ∈ temp, Heads floor p dummy s
  | _ => books s = b

/-- With the counters from before the passenger at hand, the module is a delivery service. -/
def Sound (b : Books) (s : State) (point : Point) : Prop :=
  Serves (withBooks b s) ∧ Known b s point

theorem Seen.ready {d : Deed} {floor : Int} {p : Passenger} {rest : Rest} {s : State}
    (h : Seen d floor p rest s) : d.Ready floor p s := by
  cases d with
  | serve =>
    cases rest with
    | unload => exact h.elim
    | load dummy =>
      obtain ⟨he, tail, hq, -⟩ := h
      exact ⟨he, tail, hq⟩
  | board =>
    cases rest with
    | unload => exact h.elim
    | load dummy =>
      obtain ⟨hne, hfits, tail, hq, -⟩ := h
      exact ⟨hne, hfits, tail, hq⟩
  | letOff =>
    cases rest with
    | load => exact h.elim
    | unload service ps =>
      obtain ⟨hd, kept, hon, -⟩ := h
      exact ⟨hd, hon ▸ List.mem_append_right _ List.mem_cons_self⟩

/-! ## Requests -/

theorem queue_link (p : Passenger) (s : State) (floor : Int) :
    s.queue floor <+: (s.link p).queue floor := by
  by_cases hp : IsFloor p.startFloor
  · show _ <+: getQueue (putQueue s.floors p.startFloor _) floor
    rw [getQueue_putQueue s.floors hp]
    by_cases hf : floor = p.startFloor
    · subst hf
      rw [Function.update_self]
      exact List.prefix_append _ _
    · rw [Function.update_of_ne hf]
      exact List.prefix_rfl
  · have hslot : slot p.startFloor = none := dif_neg hp
    show _ <+: getQueue (putQueue s.floors p.startFloor _) floor
    rw [putQueue, hslot]
    exact List.prefix_rfl

theorem Heads.grow {s t : State} {floor : Int} {p : Passenger} {dummy : Option Passenger}
    (h : Heads floor p dummy s) (hq : s.queue floor <+: t.queue floor) : Heads floor p dummy t := by
  obtain ⟨rest, hs, hdummy⟩ := h
  obtain ⟨more, ht⟩ := hq
  refine ⟨rest ++ more, by rw [← ht, hs]; rfl, ?_⟩
  intro q hq
  cases rest with
  | nil => exact absurd (hdummy q hq) (by simp)
  | cons => exact hdummy q hq

theorem Seen.link {d : Deed} {floor : Int} {p q : Passenger} {rest : Rest} {s : State}
    (h : Seen d floor p rest s) : Seen d floor p rest (s.allocate.link q) := by
  have hgrow := queue_link q s.allocate floor
  cases d with
  | serve =>
    cases rest with
    | unload => exact h
    | load => exact ⟨h.1, h.2.grow hgrow⟩
  | board =>
    cases rest with
    | unload => exact h
    | load => exact ⟨h.1, h.2.1, h.2.2.grow hgrow⟩
  | letOff =>
    cases rest with
    | unload => exact h
    | load => exact h

/-- What the scheduler knows stays so when a request comes in. -/
theorem Known.link {b : Books} {s : State} {point : Point} (h : Known b s point) (q : Passenger) :
    Known b (s.allocate.link q) point := by
  have hgrow : ∀ floor, s.queue floor <+: (s.allocate.link q).queue floor :=
    queue_link q s.allocate
  cases point with
  | deed d floor p todo rest => exact ⟨h.1, Seen.link h.2⟩
  | loadSave floor temp =>
    refine ⟨h.1, fun p hp => ?_⟩
    obtain ⟨more, hmore⟩ := hgrow floor
    have hhead := h.2 p hp
    cases hs : s.queue floor with
    | nil => exact absurd (hs ▸ hhead) (by simp)
    | cons q qs =>
      rw [hs] at hhead
      rw [← hmore, hs]
      exact hhead
  | loadBody floor temp dummy => exact ⟨h.1, fun p hp => (h.2 p hp).grow (hgrow floor)⟩
  | _ => exact h

theorem Sound.request {b : Books} {s : State} {point : Point} (h : Sound b s point) (t a c : Int)
    (kmalloc : Bool) : Sound b (issueRequest t a c kmalloc s).2 point := by
  rcases issueRequest_cases t a c kmalloc s with hsame | ⟨p, hid, hp, hlink⟩
  · rw [hsame]
    exact h
  · rw [hlink]
    exact ⟨serves_effect (.admitted (withBooks b s) p hid hp) h.1, h.2.link p⟩

/-! ## The scheduler's statements -/

/-- The points where the scheduler knows of nobody in a list. -/
def Point.Plain : Point → Prop
  | .deed .. | .unload .. | .loadSave .. | .loadBody .. => False
  | _ => True

theorem known_of_plain {b : Books} {s : State} {point : Point} (h : point.Plain) :
    Known b s point ↔ books s = b := by
  cases point <;> first | exact h.elim | exact Iff.rfl

theorem Back.plain (back : Back) : back.point.Plain := by
  cases back <;> trivial

theorem plain_unloaded (service : Bool) : (unloaded service).Plain := by
  cases service <;> trivial

/-- Except for the deeds, the scheduler writes only what decides where it goes. -/
theorem advance_control (b : Books) (ok : Bool) (s : State) {point : Point}
    (h : ∀ d floor p todo rest, point ≠ .deed d floor p todo rest) :
    Effect (withBooks b s) (withBooks b (advance ok s point).2) ∧
      books (advance ok s point).2 = books s ∧
      (advance ok s point).2.onboard = s.onboard ∧ (advance ok s point).2.floors = s.floors := by
  have hsame : Effect (withBooks b s) (withBooks b s) := .control _ ..
  cases point with
  | deed d floor p todo rest => exact absurd rfl (h d floor p todo rest)
  | setNext | setFloor | setLoading | service | setUp | setUpDown | setIdle =>
    exact ⟨.control (withBooks b s) .., rfl, rfl, rfl⟩
  | minLoop up ps => cases ps <;> exact ⟨hsame, rfl, rfl, rfl⟩
  | unload floor service ps =>
    cases ps with
    | nil => exact ⟨hsame, rfl, rfl, rfl⟩
    | cons p ps =>
      exact ⟨hsame, rfl, rfl, rfl⟩
  | scan is =>
    cases is with
    | nil => exact ⟨hsame, rfl, rfl, rfl⟩
    | cons i is =>
      simp only [advance]
      cases s.floors i <;> exact ⟨hsame, rfl, rfl, rfl⟩
  | loadSave floor temp => cases temp <;> exact ⟨hsame, rfl, rfl, rfl⟩
  | loadBody floor temp dummy => cases temp <;> exact ⟨hsame, rfl, rfl, rfl⟩
  | _ => exact ⟨hsame, rfl, rfl, rfl⟩

theorem behind_head (p : Passenger) (ps : List Passenger) : behind p (p :: ps) = ps.head? :=
  if_pos rfl

/-- A deed begins. -/
theorem known_deed {b : Books} {s : State} {d : Deed} {floor : Int} {p : Passenger} {rest : Rest}
    (hbooks : books s = b) (hseen : Seen d floor p rest s) :
    Known b s (.deed d floor p (d.counts p) rest) := by
  subst hbooks
  exact ⟨⟨[], rfl, rfl⟩, hseen⟩

theorem Known.advance {b : Books} {s : State} {point : Point} (h : Known b s point) (ok : Bool)
    (hpoint : ∀ d floor p todo rest, point ≠ .deed d floor p todo rest) :
    Known b (advance ok s point).2 (advance ok s point).1 := by
  have hbooks := (advance_control b ok s hpoint).2.1
  have hplain : (Preemption.advance ok s point).1.Plain → books s = b →
      Known b (Preemption.advance ok s point).2 (Preemption.advance ok s point).1 :=
    fun hp hb => (known_of_plain hp).2 (hbooks.trans hb)
  cases point with
  | deed d floor p todo rest => exact absurd rfl (hpoint d floor p todo rest)
  | unloadTest floor service =>
    by_cases hf : s.currentFloor ≠ floor
    · simpa [Preemption.advance, hf] using (known_of_plain (plain_unloaded service)).2 h
    · simp only [Preemption.advance, if_neg hf]
      exact ⟨h, [], rfl, fun q hq => absurd hq List.not_mem_nil⟩
  | unload floor service ps =>
    cases ps with
    | nil => exact (known_of_plain (plain_unloaded service)).2 h.1
    | cons p ps =>
      obtain ⟨hb, kept, hon, hkept⟩ := h
      by_cases hd : p.destinationFloor = floor
      · simp only [Preemption.advance, if_pos hd]
        exact known_deed hb ⟨hd, kept, hon, hkept⟩
      · simp only [Preemption.advance, if_neg hd]
        refine ⟨hb, kept ++ [p], by simp [hon], fun q hq => ?_⟩
        rcases List.mem_append.1 hq with hq | hq
        · exact hkept q hq
        · rw [List.mem_singleton.1 hq]
          exact hd
  | loadFirst floor => exact ⟨h, fun p hp => hp⟩
  | loadSave floor temp =>
    cases temp with
    | none => exact h.1
    | some p =>
      obtain ⟨rest, hq⟩ := List.head?_eq_some_iff.1 (h.2 p rfl)
      refine ⟨h.1, fun q hq' => ?_⟩
      obtain rfl := Option.some.inj hq'
      refine ⟨rest, hq, fun r hr => ?_⟩
      rwa [hq, behind_head] at hr
  | loadBody floor temp dummy =>
    cases temp with
    | none => exact h.1
    | some p =>
      have hheads := h.2 p rfl
      simp only [Preemption.advance]
      split_ifs with he hfits
      · exact known_deed h.1 ⟨he, hheads⟩
      · exact known_deed h.1 ⟨he, hfits, hheads⟩
      · exact h.1
  | minLoop up ps =>
    refine hplain ?_ h
    cases ps with
    | nil => trivial
    | cons p ps =>
      simp only [Preemption.advance]
      split_ifs <;> trivial
  | scan is =>
    refine hplain ?_ h
    cases is with
    | nil => trivial
    | cons i is =>
      simp only [Preemption.advance]
      cases s.floors i <;> trivial
  | move floor back =>
    refine hplain ?_ h
    simp only [Preemption.advance]
    split_ifs
    · trivial
    · exact back.plain
  | setFloor floor back => exact hplain back.plain h
  | head | elseIf | lockOffline | drain | testUp | testDown | lockService | loadTest | loadEmpty
  | ifUp | lockUp | testTen | ifDown | lockDown | testOne | testEmpty =>
    refine hplain ?_ h
    simp only [Preemption.advance]
    split_ifs <;> trivial
  | _ => exact hplain trivial h

theorem books_link (d : Deed) (floor : Int) (p : Passenger) (s : State) :
    books (d.link floor p s) = books s := by
  cases d <;> rfl

theorem queue_taken {d : Deed} (hd : d ≠ .letOff) {s : State} {floor : Int} {p : Passenger}
    {rest : List Passenger} (hq : s.queue floor = p :: rest) :
    (d.link floor p s).queue floor = rest := by
  have herase : getQueue (putQueue s.floors floor ((s.queue floor).erase p)) floor = rest := by
    rw [queue_erase_head hq, Function.update_self]
  cases d with
  | letOff => exact absurd rfl hd
  | _ => exact herase

/-- After the deed, the loop goes on with the next in the list. -/
theorem Seen.follow {d : Deed} {floor : Int} {p : Passenger} {rest : Rest} {s : State}
    (h : Seen d floor p rest s) :
    Known (books s) (d.link floor p s) (rest.point floor) := by
  cases rest with
  | load dummy =>
    refine ⟨books_link d floor p s, ?_⟩
    cases d with
    | serve =>
      obtain ⟨-, tail, hq, hdummy⟩ := h
      rwa [queue_taken (d := .serve) nofun hq]
    | board =>
      obtain ⟨-, -, tail, hq, hdummy⟩ := h
      rwa [queue_taken (d := .board) nofun hq]
    | letOff => exact h.elim
  | unload service ps =>
    cases d with
    | letOff =>
      obtain ⟨hd, kept, hon, hkept⟩ := h
      have hp : p ∉ kept := fun hmem => hkept p hmem hd
      refine ⟨rfl, kept, ?_, hkept⟩
      show s.onboard.erase p = _
      rw [hon, List.erase_append_right _ hp, List.erase_cons_head]
    | _ => exact h.elim

theorem Sound.count {b : Books} {s : State} {d : Deed} {floor : Int} {p : Passenger} {c : Count}
    {todo : List Count} {rest : Rest} (h : Sound b s (.deed d floor p (c :: todo) rest)) :
    Sound b (withBooks (c.exec floor p (books s)) s) (.deed d floor p todo rest) := by
  obtain ⟨hserves, ⟨past, hpast, hbooks⟩, hseen⟩ := h
  refine ⟨hserves, ⟨past ++ [c], by rw [List.append_assoc]; exact hpast, ?_⟩, hseen⟩
  rw [execAll_append, ← hbooks]
  rfl

theorem Sound.link {b : Books} {s : State} {d : Deed} {floor : Int} {p : Passenger} {rest : Rest}
    (h : Sound b s (.deed d floor p [] rest)) :
    Sound (books s) (d.link floor p s) (rest.point floor) := by
  obtain ⟨hserves, ⟨past, hpast, hbooks⟩, hseen⟩ := h
  rw [List.append_nil] at hpast
  subst hpast
  refine ⟨?_, ?_⟩
  · have hwhole := serves_whole hserves hseen.ready
    rw [← link_execAll] at hwhole
    have hlink : withBooks (books s) (d.link floor p s) = d.link floor p s := by
      rw [← books_link d floor p s, withBooks_books]
    have hstate : withBooks (Count.execAll floor p (d.counts p) (books (withBooks b s)))
        (withBooks b s) = s := by
      rw [books_withBooks, ← hbooks]
      rfl
    rw [hlink]
    rwa [hstate] at hwhole
  · have hfollow := hseen.follow
    cases rest <;> cases d <;> first | exact hseen.elim | exact ⟨rfl, hfollow.2⟩

/-- **A statement of the scheduler.** -/
theorem Sound.advance {b : Books} {s : State} {point : Point} (h : Sound b s point) (ok : Bool) :
    ∃ b', Sound b' (advance ok s point).2 (advance ok s point).1 := by
  by_cases hpoint : ∀ d floor p todo rest, point ≠ .deed d floor p todo rest
  · exact ⟨b, serves_effect (advance_control b ok s hpoint).1 h.1, h.2.advance ok hpoint⟩
  · simp only [not_forall, not_not] at hpoint
    obtain ⟨d, floor, p, todo, rest, rfl⟩ := hpoint
    cases todo with
    | nil => exact ⟨_, h.link⟩
    | cons c todo => exact ⟨_, h.count⟩

/-! ## The processes' statements -/

/-- A statement of `start_elevator` or `stop_elevator` writes only what these calls write. -/
theorem proceed_control (b : Books) (stops : Bool) (s : State) (process : Process) :
    Effect (withBooks b s) (withBooks b (proceed stops s process).2) ∧
      (proceed stops s process).2.onboard = s.onboard ∧
      (proceed stops s process).2.floors = s.floors ∧
      books (proceed stops s process).2 = books s := by
  cases process with
  | out =>
    unfold proceed
    split_ifs <;> exact ⟨.control (withBooks b s) .., rfl, rfl, rfl⟩
  | starting p => cases p <;> exact ⟨.control (withBooks b s) .., rfl, rfl, rfl⟩
  | stopping p => cases p <;> exact ⟨.control (withBooks b s) .., rfl, rfl, rfl⟩

theorem Seen.congr {d : Deed} {floor : Int} {p : Passenger} {rest : Rest} {b : Books} {s t : State}
    (h : Seen d floor p rest (withBooks b s)) (hon : t.onboard = s.onboard)
    (hfloors : t.floors = s.floors) : Seen d floor p rest (withBooks b t) := by
  have hqueue : t.queue floor = s.queue floor := congrFun (congrArg getQueue hfloors) floor
  cases d with
  | serve =>
    cases rest with
    | unload => exact h
    | load dummy =>
      obtain ⟨he, tail, hq, hdummy⟩ := h
      exact ⟨he, tail, hqueue.trans hq, hdummy⟩
  | board =>
    cases rest with
    | unload => exact h
    | load dummy =>
      obtain ⟨hne, hfits, tail, hq, hdummy⟩ := h
      exact ⟨hne, hfits, tail, hqueue.trans hq, hdummy⟩
  | letOff =>
    cases rest with
    | load => exact h
    | unload service ps =>
      obtain ⟨hd, kept, hs, hkept⟩ := h
      exact ⟨hd, kept, hon.trans hs, hkept⟩

theorem Known.congr {b : Books} {s t : State} {point : Point} (h : Known b s point)
    (hbooks : books t = books s) (hon : t.onboard = s.onboard) (hfloors : t.floors = s.floors) :
    Known b t point := by
  cases point with
  | deed d floor p todo rest =>
    obtain ⟨⟨past, hpast, hs⟩, hseen⟩ := h
    exact ⟨⟨past, hpast, hbooks.trans hs⟩, hseen.congr hon hfloors⟩
  | unload floor service ps =>
    obtain ⟨hb, hpassed⟩ := h
    refine ⟨hbooks.trans hb, ?_⟩
    rwa [Passed, hon]
  | loadSave floor temp =>
    obtain ⟨hb, hhead⟩ := h
    refine ⟨hbooks.trans hb, ?_⟩
    rwa [State.queue, hfloors]
  | loadBody floor temp dummy =>
    obtain ⟨hb, hheads⟩ := h
    refine ⟨hbooks.trans hb, ?_⟩
    unfold Heads State.queue
    rwa [hfloors]
  | _ => exact hbooks.trans h

theorem Sound.proceed {b : Books} {s : State} {point : Point} (h : Sound b s point) (stops : Bool)
    (process : Process) : Sound b (proceed stops s process).2 point := by
  obtain ⟨heff, hon, hfloors, hbooks⟩ := proceed_control b stops s process
  exact ⟨serves_effect heff h.1, h.2.congr hbooks hon hfloors⟩

/-! ## Every run -/

theorem sound_step {b : Books} {w : World} (h : Sound b w.memory w.point) (l : Label) :
    ∃ b', Sound b' (step l w).memory (step l w).point := by
  cases l with
  | sched ok => exact h.advance ok
  | call i stops => exact ⟨b, h.proceed stops (w.process i)⟩
  | request t a c kmalloc => exact ⟨b, h.request t a c kmalloc⟩

/-- What each step keeps where the books are sound, each run keeps. -/
theorem invariant_of_sound {I : World → Prop}
    (hstep : ∀ l w b, Sound b w.memory w.point → I w → I (step l w)) (ls : List Label) {w : World}
    (hsound : ∃ b, Sound b w.memory w.point) (hw : I w) : I (run step ls w) := by
  have hboth : (∃ b, Sound b (run step ls w).memory (run step ls w).point) ∧ I (run step ls w) := by
    apply run_invariant (I := fun w : World => (∃ b, Sound b w.memory w.point) ∧ I w) _ ls
      ⟨hsound, hw⟩
    rintro l w ⟨⟨b, hsound⟩, hw⟩
    exact ⟨sound_step hsound l, hstep l w b hsound hw⟩
  exact hboth.2

/-- Some counters make the module a delivery service, at each moment of each run. -/
theorem sound_after (ls : List Label) : ∃ b, Sound b (after ls).memory (after ls).point := by
  apply run_invariant (I := fun w : World => ∃ b, Sound b w.memory w.point) _ ls
  · exact ⟨books elevatorInit, serves_init, rfl⟩
  · rintro l w ⟨b, h⟩
    exact sound_step h l

/-! ## Capacity -/

/-- The elevator carries what it can carry. -/
structure Books.Within (b : Books) : Prop where
  weight_nonneg : 0 ≤ b.weight
  weight_le : b.weight ≤ maxWeight
  units_nonneg : 0 ≤ b.units
  units_le : b.units ≤ maxUnits

theorem within_of_serves {s : State} (h : Serves s) : (books s).Within :=
  ⟨h.accounting.weight_nonneg, h.accounting.weight_le, h.accounting.units_nonneg,
    h.accounting.units_le⟩

/-- Also halfway through a deed, which leads from one load within capacity to another. -/
theorem Sound.within {b : Books} {s : State} {point : Point} (h : Sound b s point) :
    (books s).Within := by
  obtain ⟨hserves, hknown⟩ := h
  have hbefore : b.Within := within_of_serves hserves
  cases point with
  | deed d floor p todo rest =>
    obtain ⟨⟨past, hpast, hbooks⟩, hseen⟩ := hknown
    have hafter : (Count.execAll floor p (d.counts p) b).Within := by
      have hwhole := serves_whole hserves hseen.ready
      rw [← link_execAll] at hwhole
      have hlast := within_of_serves hwhole
      rwa [books_link] at hlast
    rw [hbooks]
    refine ⟨?_, ?_, ?_, ?_⟩
    · rcases weight_either hpast b with heq | heq <;> rw [heq]
      · exact hbefore.weight_nonneg
      · exact hafter.weight_nonneg
    · rcases weight_either hpast b with heq | heq <;> rw [heq]
      · exact hbefore.weight_le
      · exact hafter.weight_le
    · rcases units_either hpast b with heq | heq <;> rw [heq]
      · exact hbefore.units_nonneg
      · exact hafter.units_nonneg
    · rcases units_either hpast b with heq | heq <;> rw [heq]
      · exact hbefore.units_le
      · exact hafter.units_le
  | unload | loadSave | loadBody => exact hknown.1 ▸ hbefore
  | _ => exact (show books s = b from hknown) ▸ hbefore

/-- Nobody is at hand. -/
def Point.Idle (point : Point) : Prop := ∀ d floor p todo rest, point ≠ .deed d floor p todo rest

theorem Sound.serves {b : Books} {s : State} {point : Point} (h : Sound b s point)
    (hidle : point.Idle) : Serves s := by
  have hbooks : books s = b := by
    cases point with
    | deed d floor p todo rest => exact absurd rfl (hidle d floor p todo rest)
    | unload | loadSave | loadBody => exact h.2.1
    | _ => exact h.2
  have hserves := h.1
  rwa [← hbooks, withBooks_books] at hserves

/-! ## The history -/

theorem log_grows_step (l : Label) (w : World) : w.memory.log <+: (step l w).memory.log := by
  cases l with
  | call i stops =>
    have hlog := log_grows_effect (proceed_control (books w.memory) stops w.memory (w.process i)).1
    exact hlog
  | request t a c kmalloc =>
    show _ <+: (issueRequest t a c kmalloc w.memory).2.log
    rcases issueRequest_cases t a c kmalloc w.memory with hsame | ⟨p, -, -, hlink⟩
    · rw [hsame]
    · rw [hlink]
      exact List.prefix_append _ _
  | sched ok =>
    show _ <+: (advance ok w.memory w.point).2.log
    by_cases hidle : w.point.Idle
    · have hlog := log_grows_effect (advance_control (books w.memory) ok w.memory hidle).1
      exact hlog
    · simp only [Point.Idle, not_forall, not_not] at hidle
      obtain ⟨d, floor, p, todo, rest, hpoint⟩ := hidle
      rw [hpoint]
      cases todo with
      | nil => cases d <;> exact List.prefix_append _ _
      | cons c todo => exact List.prefix_rfl

theorem log_grows (ls ms : List Label) :
    (after ls).memory.log <+: (after (ls ++ ms)).memory.log := by
  rw [after, after, run_append]
  apply run_invariant (I := fun w : World => (run step ls init).memory.log <+: w.memory.log) _ ms
  · exact List.prefix_rfl
  · intro l w h
    exact h.trans (log_grows_step l w)

end KernelElevator.Preemption
