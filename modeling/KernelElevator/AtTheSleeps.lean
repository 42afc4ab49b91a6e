import KernelElevator.Bookkeeping

/-!
# What is cut at the sleeps is made of statements

`Scheduler` lets system calls in where the thread sleeps, `Preemption` lets them in everywhere. The
first has no behaviour that the second does not have: a step from one sleep to the next is a
sequence of statements that nobody interrupts, and a system call is the sequence of its own.

* `bare` — a state without what only one of the two models records.
* `Goes` — the scheduler's statements, one after another, alone.
* `runs_between_statements` — every run of `Scheduler` is a run of `Preemption`.
-/

namespace KernelElevator.Preemption

open Machine
open Relation (ReflTransGen)

/-- Queues that are looked into are not recorded here, and neither are the lock and the position. -/
def isOpened : Event → Bool
  | .opened _ => true
  | _ => false

def bare (s : State) : State :=
  { s with pc := .top, mutexLog := [], log := s.log.filter (!isOpened ·) }

/-- Statements of the scheduler, with nothing in between. -/
def Goes : Point × State → Point × State → Prop :=
  ReflTransGen fun x y => ∃ ok, advance ok x.2 x.1 = y

section Goes

variable {x y z : Point × State}

theorem Goes.refl (x : Point × State) : Goes x x := ReflTransGen.refl

theorem Goes.trans (h : Goes x y) (h' : Goes y z) : Goes x z := ReflTransGen.trans h h'

theorem Goes.cons (ok : Bool) (h : advance ok x.2 x.1 = y) (h' : Goes y z) : Goes x z :=
  ReflTransGen.head ⟨ok, h⟩ h'

theorem Goes.one (ok : Bool) (h : advance ok x.2 x.1 = y) : Goes x y := ReflTransGen.single ⟨ok, h⟩

end Goes

/-! ## A passenger -/

theorem goes_counts (d : Deed) (floor : Int) (p : Passenger) (todo : List Count) (rest : Rest)
    (s : State) : Goes (.deed d floor p todo rest, s)
      (.deed d floor p [] rest, withBooks (Count.execAll floor p todo (books s)) s) := by
  induction todo generalizing s with
  | nil => exact .refl _
  | cons c todo ih => exact .cons true rfl (ih _)

theorem goes_deed (d : Deed) (floor : Int) (p : Passenger) (rest : Rest) (s : State) :
    Goes (.deed d floor p (d.counts p) rest, s)
      (rest.point floor, { d.whole floor p s with log := s.log ++ [d.event floor p] }) := by
  rw [← link_execAll]
  exact (goes_counts d floor p _ rest s).trans (.one true rfl)

/-- The history names the floor that the elevator is at. -/
theorem bare_whole (d : Deed) {floor : Int} (p : Passenger) {s : State}
    (hf : s.currentFloor = floor) :
    { d.whole floor p (bare s) with log := (bare s).log ++ [d.event floor p] } =
      bare (d.whole floor p s) := by
  subst hf
  cases d <;>
    simp [Deed.whole, Deed.event, bare, State.serveHere, State.board, State.letOff, State.queue,
      isOpened]

/-! ## The loops -/

theorem goes_unloadLoop {floor : Int} (service : Bool) (ps : List Passenger) {s : State}
    (hf : s.currentFloor = floor) : Goes (.unload floor service ps, bare s)
      (unloaded service, bare (unloadLoop floor ps s)) := by
  induction ps generalizing s with
  | nil => exact .one true rfl
  | cons p ps ih =>
    by_cases hd : p.destinationFloor = floor
    · have hdeed := goes_deed .letOff floor p (.unload service ps) (bare s)
      rw [bare_whole .letOff p hf] at hdeed
      rw [unloadLoop, if_pos hd]
      exact .cons true (congrArg (Prod.mk · (bare s)) (if_pos hd)) (hdeed.trans (ih hf))
    · rw [unloadLoop, if_neg hd]
      exact .cons true (congrArg (Prod.mk · (bare s)) (if_neg hd)) (ih hf)

theorem goes_unload (service : Bool) (s : State) : Goes (.unloadArg service, bare s)
    (unloaded service, bare (unloadElevator s.currentFloor s).2) := by
  rw [unloadElevator, if_neg (not_not.2 rfl)]
  refine .cons true rfl ?_
  refine .cons true (congrArg (Prod.mk · (bare s)) (if_neg (not_not.2 rfl))) ?_
  exact goes_unloadLoop service s.onboard rfl

theorem goes_loadLoop {floor : Int} (ps : List Passenger) {s : State}
    (hf : s.currentFloor = floor) (hq : s.queue floor = ps) :
    Goes (.loadSave floor ps.head?, bare s) (.setUp, bare (loadLoop floor ps s).2) := by
  induction ps generalizing s with
  | nil => exact .one true rfl
  | cons p ps ih =>
    have hsave : advance true (bare s) (.loadSave floor (some p)) =
        (.loadBody floor (some p) ps.head?, bare s) := by
      show (Point.loadBody floor (some p) (behind p (s.queue floor)), bare s) = _
      rw [hq, behind_head]
    refine .cons true hsave ?_
    rw [loadLoop]
    by_cases he : p.state = .equal
    · have hdeed := goes_deed .serve floor p (.load ps.head?) (bare s)
      rw [bare_whole .serve p hf] at hdeed
      rw [if_pos he]
      exact .cons true (congrArg (Prod.mk · (bare s)) (if_pos he))
        (hdeed.trans (ih hf (queue_serveHere hq)))
    · rw [if_neg he]
      by_cases hfits : Fits s p
      · have hdeed := goes_deed .board floor p (.load ps.head?) (bare s)
        rw [bare_whole .board p hf] at hdeed
        rw [if_pos hfits]
        have hbody : advance true (bare s) (.loadBody floor (some p) ps.head?) =
            (.deed .board floor p (Deed.board.counts p) (.load ps.head?), bare s) :=
          congrArg (Prod.mk · (bare s)) ((if_neg he).trans (if_pos hfits))
        exact .cons true hbody (hdeed.trans (ih hf (queue_board hq)))
      · rw [if_neg hfits]
        exact .one true (congrArg (Prod.mk · (bare s)) ((if_neg he).trans (if_neg hfits)))

theorem goes_load (s : State) :
    Goes (.loadArg, bare s) (.setUp, bare (loadElevator s.currentFloor s).2) := by
  have hopened : bare { s with log := s.log ++ [.opened s.currentFloor] } = bare s := by
    simp [bare, isOpened]
  rw [loadElevator, if_neg (not_not.2 rfl)]
  refine .cons true rfl ?_
  refine .cons true (congrArg (Prod.mk · (bare s)) (if_neg (not_not.2 rfl))) ?_
  dsimp only
  by_cases hq : s.queue s.currentFloor = []
  · have hq' :
        State.queue { s with log := s.log ++ [.opened s.currentFloor] } s.currentFloor = [] := hq
    rw [if_pos hq', hopened]
    exact .one true (congrArg (Prod.mk · (bare s)) (if_pos hq))
  · have hq' :
        State.queue { s with log := s.log ++ [.opened s.currentFloor] } s.currentFloor ≠ [] := hq
    rw [if_neg hq', ← hopened]
    refine .cons true (congrArg (Prod.mk · _) (if_neg hq)) (.cons true rfl ?_)
    exact goes_loadLoop (s := { s with log := s.log ++ [.opened s.currentFloor] }) _ rfl rfl

theorem goes_minLoop (up : Bool) (diff : Passenger → Int) (ps : List Passenger)
    (minDiff minFloor : Int) {s : State}
    (hdiff : ∀ p, diff p = if up then p.destinationFloor - s.currentFloor
      else s.currentFloor - p.destinationFloor) :
    Goes (.minLoop up ps minDiff minFloor, s)
      (.move (minOnboardLoop diff ps (minDiff, minFloor)).2 .drain, s) := by
  induction ps generalizing minDiff minFloor with
  | nil => exact .one true rfl
  | cons p ps ih =>
    rw [minOnboardLoop]
    by_cases hless : diff p < minDiff
    · rw [if_pos hless]
      refine .cons true ?_ (ih _ _)
      rw [hdiff] at hless ⊢
      exact congrArg (Prod.mk · s) (if_pos hless)
    · rw [if_neg hless]
      refine .cons true ?_ (ih _ _)
      rw [hdiff] at hless
      exact congrArg (Prod.mk · s) (if_neg hless)

theorem goes_minOnboard (s : State) :
    Goes (.testUp, bare s) (.move (minOnboard s) .drain, bare s) := by
  rw [minOnboard]
  by_cases hup : s.previousState = .up
  · rw [if_pos hup]
    refine .cons true (congrArg (Prod.mk · (bare s)) (if_pos hup)) ?_
    exact goes_minLoop true _ s.onboard 10 0 fun p => rfl
  · rw [if_neg hup]
    refine .cons true (congrArg (Prod.mk · (bare s)) (if_neg hup)) ?_
    by_cases hdown : s.previousState = .down
    · rw [if_pos hdown]
      refine .cons true (congrArg (Prod.mk · (bare s)) (if_pos hdown)) ?_
      exact goes_minLoop false _ s.onboard 10 0 fun p => rfl
    · rw [if_neg hdown]
      exact .one true (congrArg (Prod.mk · (bare s)) (if_neg hdown))

/-! ## From one sleep to the next -/

/-- Where the scheduler is, for each place where `Scheduler` cuts it. -/
def pointOf : Pc → Point
  | .top => .head
  | .drain => .drain
  | .drainMove floor => .setFloor floor .drain
  | .idleMove rest floor => .setFloor floor (.idle rest)
  | .loadSleep => .loadArg
  | .upMove floor => .setFloor floor .up
  | .downMove floor => .setFloor floor .down

/-- Statements that lead from `point` to where `s'` is cut. -/
def Follows (point : Point) (s s' : State) : Prop := Goes (point, bare s) (pointOf s'.pc, bare s')

/-- `move_elevator` up to its sleep, or without one. -/
theorem goes_move (floor : Int) (back : Back) (s : State) :
    (∃ s', moveElevator floor s = some s' ∧
      Goes (.move floor back, bare s) (.setFloor floor back, bare s')) ∨
    (moveElevator floor s = none ∧ Goes (.move floor back, bare s) (back.point, bare s)) := by
  by_cases hf : floor ≠ s.currentFloor
  · refine .inl ⟨_, if_pos hf, ?_⟩
    exact .cons true (congrArg (Prod.mk · (bare s)) (if_pos hf)) (.one true rfl)
  · refine .inr ⟨if_neg hf, ?_⟩
    exact .one true (congrArg (Prod.mk · (bare s)) (if_neg hf))

theorem follows_endService (s : State) : Follows .testEmpty s (endService s) := by
  by_cases hon : s.onboard = []
  · rw [endService, if_pos hon]
    exact .cons true (congrArg (Prod.mk · (bare s)) (if_pos hon)) (.one true rfl)
  · rw [endService, if_neg hon]
    exact .one true (congrArg (Prod.mk · (bare s)) (if_neg hon))

theorem follows_downPart (locks : Locks) (s : State) : Follows .ifDown s (downPart locks s) := by
  unfold downPart
  by_cases hdown : s.state = .down
  · rw [if_pos hdown]
    refine .cons true (congrArg (Prod.mk · (bare s)) (if_pos hdown)) ?_
    dsimp only
    cases hlock : locks .down with
    | false => exact .cons false rfl (follows_endService (s.lock .down locks))
    | true =>
      refine .cons true rfl ?_
      rw [if_pos rfl]
      by_cases hone : s.currentFloor = 1
      · have hone' : (s.lock .down locks).currentFloor = 1 := hone
        rw [if_pos hone']
        refine .cons true (congrArg (Prod.mk · (bare s)) (if_pos hone)) (.cons true rfl ?_)
        exact follows_endService (((s.lock .down locks).setState .up).unlock .down)
      · have hone' : ¬ (s.lock .down locks).currentFloor = 1 := hone
        rw [if_neg hone']
        refine .cons true (congrArg (Prod.mk · (bare s)) (if_neg hone)) (.cons true rfl ?_)
        rcases goes_move (s.currentFloor - 1) .down (s.lock .down locks) with
          ⟨s', hmove, hgoes⟩ | ⟨hstay, hgoes⟩
        · have hmove' : moveElevator ((s.lock .down locks).currentFloor - 1) (s.lock .down locks) =
            some s' := hmove
          rw [hmove']
          exact hgoes
        · have hstay' : moveElevator ((s.lock .down locks).currentFloor - 1) (s.lock .down locks) =
            none := hstay
          rw [hstay']
          exact hgoes.trans (follows_endService ((s.lock .down locks).unlock .down))
  · rw [if_neg hdown]
    exact .cons true (congrArg (Prod.mk · (bare s)) (if_neg hdown)) (follows_endService s)

theorem goes_upFloor (s : State) :
    Goes (.testTen, bare s) (.move (nextUp s.currentFloor) .up, bare s) := by
  rw [nextUp]
  by_cases hten : s.currentFloor = 10
  · rw [if_pos hten]
    exact .one true (congrArg (Prod.mk · (bare s)) (if_pos hten))
  · rw [if_neg hten]
    exact .cons true (congrArg (Prod.mk · (bare s)) (if_neg hten)) (.one true rfl)

theorem follows_upPart (locks : Locks) (s : State) : Follows .ifUp s (upPart locks s) := by
  unfold upPart
  by_cases hup : s.state = .up
  · rw [if_pos hup]
    refine .cons true (congrArg (Prod.mk · (bare s)) (if_pos hup)) ?_
    dsimp only
    cases hlock : locks .up with
    | false =>
      exact .cons false rfl (follows_downPart locks ((s.lock .up locks).unlock .up))
    | true =>
      refine .cons true rfl ((goes_upFloor s).trans ?_)
      rw [if_pos rfl]
      rcases goes_move (nextUp s.currentFloor) .up (s.lock .up locks) with
        ⟨s', hmove, hgoes⟩ | ⟨hstay, hgoes⟩
      · have hmove' : moveElevator (nextUp (s.lock .up locks).currentFloor) (s.lock .up locks) =
          some s' := hmove
        rw [hmove']
        exact hgoes
      · have hstay' : moveElevator (nextUp (s.lock .up locks).currentFloor) (s.lock .up locks) =
          none := hstay
        rw [hstay']
        exact hgoes.trans (follows_downPart locks ((s.lock .up locks).unlock .up))
  · rw [if_neg hup]
    exact .cons true (congrArg (Prod.mk · (bare s)) (if_neg hup)) (follows_downPart locks s)

theorem follows_drainPass (s : State) : Follows .drain s (drainPass s) := by
  unfold drainPass
  by_cases hon : s.onboard = []
  · rw [if_pos hon]
    exact .one true (congrArg (Prod.mk · (bare s)) (if_pos hon))
  · rw [if_neg hon]
    refine .cons true (congrArg (Prod.mk · (bare s)) (if_neg hon)) ((goes_minOnboard s).trans ?_)
    rcases goes_move (minOnboard s) .drain s with ⟨s', hmove, hgoes⟩ | ⟨hstay, hgoes⟩
    · rw [hmove]
      exact hgoes
    · rw [hstay]
      exact hgoes.trans (goes_unload false s)

theorem follows_idleScan (is : List (Fin 10)) (s : State) :
    Follows (.scan is) s (idleScan is s) := by
  induction is generalizing s with
  | nil => exact .one true rfl
  | cons i is ih =>
    rw [idleScan]
    cases hq : s.floors i with
    | nil =>
      have hnext : advance true (bare s) (.scan (i :: is)) = (.scan is, bare s) := by
        simp only [advance, bare, hq]
      exact .cons true hnext (ih s)
    | cons p ps =>
      have hnext : advance true (bare s) (.scan (i :: is)) =
          (.move p.startFloor (.idle is), bare s) := by
        simp only [advance, bare, hq]
      refine .cons true hnext ?_
      dsimp only
      rcases goes_move p.startFloor (.idle is) s with ⟨s', hmove, hgoes⟩ | ⟨hstay, hgoes⟩
      · rw [hmove]
        exact hgoes
      · rw [hstay]
        exact hgoes.trans (.cons true rfl (ih (s.setState .loading)))

/-- **From one sleep to the next.** -/
theorem follows_schedule (locks : Locks) (s : State) :
    Follows (pointOf s.pc) s (schedule locks s) := by
  have hstep := scheduled locks s
  generalize schedule locks s = t at hstep ⊢
  cases hstep with
  | offline hpc hoff =>
    rw [hpc]
    refine .cons true (congrArg (Prod.mk · (bare s)) (if_pos hoff)) (.cons true rfl ?_)
    exact follows_drainPass (s.lock .offline locks)
  | offlineRefused hpc hoff =>
    rw [hpc]
    exact .cons true (congrArg (Prod.mk · (bare s)) (if_pos hoff)) (.one false rfl)
  | idle hpc hidle =>
    rw [hpc]
    have hoff : s.state ≠ .offline := by simp [hidle]
    refine .cons true (congrArg (Prod.mk · (bare s)) (if_neg hoff)) ?_
    exact .cons true (congrArg (Prod.mk · (bare s)) (if_pos hidle)) (follows_idleScan _ s)
  | service hpc hoff hidle =>
    rw [hpc]
    refine .cons true (congrArg (Prod.mk · (bare s)) (if_neg hoff)) ?_
    refine .cons true (congrArg (Prod.mk · (bare s)) (if_neg hidle)) ?_
    refine .cons true rfl (.cons true rfl ?_)
    exact goes_unload true ((s.lock .service locks).setState .loading)
  | serviceRefused hpc hoff hidle =>
    rw [hpc]
    refine .cons true (congrArg (Prod.mk · (bare s)) (if_neg hoff)) ?_
    refine .cons true (congrArg (Prod.mk · (bare s)) (if_neg hidle)) (.cons false rfl ?_)
    exact follows_upPart locks ((s.lock .service locks).unlock .service)
  | drain hpc =>
    rw [hpc]
    exact follows_drainPass s
  | drainMove floor hpc =>
    rw [hpc]
    exact .cons true rfl (goes_unload false (arrive floor s))
  | idleMove is floor hpc =>
    rw [hpc]
    refine .cons true rfl (.cons true rfl ?_)
    exact follows_idleScan is ((arrive floor s).setState .loading)
  | loadSleep hpc =>
    rw [hpc]
    refine (goes_load s).trans (.cons true rfl ?_)
    exact follows_upPart locks (((loadElevator s.currentFloor s).2.setState .up).unlock .service)
  | upMove floor hpc =>
    rw [hpc]
    exact .cons true rfl (follows_downPart locks ((arrive floor s).unlock .up))
  | downMove floor hpc =>
    rw [hpc]
    exact .cons true rfl (follows_endService ((arrive floor s).unlock .down))

/-! ## System calls -/

/-- Nobody is in a system call, except perhaps process 0. -/
def alone (s : State) (point : Point) (process : Process) : World :=
  ⟨s, point, Function.update (fun _ => .out) 0 process⟩

theorem step_alone (stops : Bool) (s : State) (point : Point) (process : Process) :
    step (.call 0 stops) (alone s point process) =
      alone (proceed stops s process).2 point (proceed stops s process).1 := by
  simp only [step, alone, Function.update_self, Function.update_idem]

/-- Statements of one process that take it out of the call it is in. -/
def Finishes (process : Process) (s s' : State) : Prop :=
  ∀ point, ∃ ms, run step ms (alone s point process) = alone s' point .out

theorem finishes_out (s : State) : Finishes .out s s := fun _ => ⟨[], rfl⟩

theorem Finishes.cons {process process' : Process} {s s' t : State} (stops : Bool)
    (h : proceed stops s process = (process', s')) (h' : Finishes process' s' t) :
    Finishes process s t := by
  intro point
  obtain ⟨ms, hms⟩ := h' point
  refine ⟨.call 0 stops :: ms, ?_⟩
  rw [run_cons, step_alone, h]
  exact hms

theorem finishes_start (s : State) : Finishes .out s (startElevator s).2 := by
  rw [startElevator]
  cases hs : s.started with
  | true =>
    have hno : proceed false s .out = (.out, s) := if_neg (by simp [hs])
    exact .cons false hno (finishes_out s)
  | false =>
    have hyes : proceed false s .out = (.starting .state, s) := if_pos hs
    refine .cons false hyes ?_
    exact .cons false rfl (.cons false rfl (.cons false rfl (finishes_out _)))

/-- From the write of `state` on. -/
theorem finishes_stopState (s : State) :
    Finishes (.stopping .state) s { s with state := .offline, started := false } :=
  .cons true rfl (.cons true rfl (finishes_out _))

theorem finishes_readState (s : State) : Finishes (.stopping .readState) s
    { s with previousState := s.state, state := .offline, started := false } :=
  .cons true rfl (.cons true rfl (finishes_stopState { s with previousState := s.state }))

theorem finishes_stop (s : State) : Finishes .out s (stopElevator s).2 := by
  rw [stopElevator]
  cases hs : s.started with
  | false =>
    have hno : proceed true s .out = (.out, s) := if_neg (by simp [hs])
    exact .cons true hno (finishes_out s)
  | true =>
    have hyes : proceed true s .out = (.stopping .testUp, s) := if_pos hs
    refine .cons true hyes ?_
    rw [if_pos rfl]
    dsimp only
    by_cases hup : s.state = .up
    · have hread : proceed true s (.stopping .testUp) = (.stopping .readState, s) := by
        simp [proceed, Switching.stopStatement, hup]
      rw [if_pos (.inl hup)]
      exact .cons true hread (finishes_readState s)
    · have hnext : proceed true s (.stopping .testUp) = (.stopping .testDown, s) := by
        simp [proceed, Switching.stopStatement, hup]
      refine .cons true hnext ?_
      by_cases hdown : s.state = .down
      · have hread : proceed true s (.stopping .testDown) = (.stopping .readState, s) := by
          simp [proceed, Switching.stopStatement, hdown]
        rw [if_pos (.inr hdown)]
        exact .cons true hread (finishes_readState s)
      · have hstate : proceed true s (.stopping .testDown) = (.stopping .state, s) := by
          simp [proceed, Switching.stopStatement, hdown]
        rw [if_neg (not_or.2 ⟨hup, hdown⟩)]
        exact .cons true hstate (finishes_stopState s)

/-- What the histories leave out, a request does not change. -/
theorem steered_bare : Switching.Steered bare where
  allocate := fun _ => rfl
  link := by
    intro s p
    simp [bare, State.link, isOpened, State.queue]
  records := fun _ => rfl

/-- The world of `Scheduler`. -/
def cut (s : State) : World := alone (bare s) (pointOf s.pc) .out

theorem bare_start (s : State) : (startElevator (bare s)).2 = bare (startElevator s).2 := by
  cases hs : s.started <;> simp [startElevator, bare, hs]

theorem bare_stop (s : State) : (stopElevator (bare s)).2 = bare (stopElevator s).2 := by
  cases hs : s.started with
  | false => simp [stopElevator, bare, hs]
  | true => by_cases hdir : s.state = .up ∨ s.state = .down <;> simp [stopElevator, bare, hs, hdir]

theorem cut_call (c : Call) (s : State) : ∃ ms, run step ms (cut s) = cut (c.exec s).2 := by
  unfold cut
  rw [call_pc]
  cases c with
  | start =>
    have hfinishes := finishes_start (bare s) (pointOf s.pc)
    rwa [bare_start] at hfinishes
  | stop =>
    have hfinishes := finishes_stop (bare s) (pointOf s.pc)
    rwa [bare_stop] at hfinishes
  | request t a b kmalloc =>
    refine ⟨[.request t a b kmalloc], ?_⟩
    show alone (issueRequest t a b kmalloc (bare s)).2 (pointOf s.pc) .out = _
    rw [← steered_bare.request]
    rfl

theorem goes_run {x y : Point × State} (h : Goes x y) (process : Process) :
    ∃ ms, run step ms (alone x.2 x.1 process) = alone y.2 y.1 process := by
  induction h using ReflTransGen.head_induction_on with
  | refl => exact ⟨[], rfl⟩
  | head hstep _ ih =>
    obtain ⟨ok, rfl⟩ := hstep
    obtain ⟨ms, hms⟩ := ih
    exact ⟨.sched ok :: ms, hms⟩

theorem exists_run_cut (ls : List KernelElevator.Label) :
    ∃ ms, after ms = cut (KernelElevator.after ls) := by
  induction ls using List.reverseRecOn with
  | nil =>
    refine ⟨[], ?_⟩
    show init = ⟨_, _, Function.update (fun _ => .out) 0 .out⟩
    rw [Function.update_eq_self]
    rfl
  | append_singleton ls l ih =>
    obtain ⟨ms, hms⟩ := ih
    have hstep : ∃ ns, run step ns (cut (KernelElevator.after ls)) =
        cut (KernelElevator.step l (KernelElevator.after ls)) := by
      cases l with
      | sched locks => exact goes_run (follows_schedule locks _) .out
      | call c => exact cut_call c _
    obtain ⟨ns, hns⟩ := hstep
    refine ⟨ms ++ ns, ?_⟩
    rw [KernelElevator.after_snoc, ← hns, ← hms]
    exact run_append step ms ns init

/-- **Every run of `Scheduler` is a run of `Preemption`**: there is one that leads to the same
queues, passengers on board, counters, controls and history, with the scheduler at the same place
and nobody halfway through a system call. -/
theorem runs_between_statements (ls : List KernelElevator.Label) :
    ∃ ms, (after ms).memory = bare (KernelElevator.after ls) ∧
      (after ms).point = pointOf (KernelElevator.after ls).pc ∧
      ∀ i, (after ms).process i = .out := by
  obtain ⟨ms, hms⟩ := exists_run_cut ls
  refine ⟨ms, congrArg World.memory hms, congrArg World.point hms, ?_⟩
  intro i
  rw [hms]
  show Function.update (fun _ => Process.out) 0 .out i = .out
  rw [Function.update_eq_self]

end KernelElevator.Preemption
