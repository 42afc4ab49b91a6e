import KernelElevator.Library.Machine
import KernelElevator.Operations
import Mathlib.Data.Fintype.Basic
import Mathlib.Data.List.FinRange

/-!
# Printing with a shared index

The loop of `print_passengers` runs on the global `i`, and every `issue_request` that is accepted
ends with a call of it. Here any number of them run at the same time. Each assignment, test and
increment of `i` and each use of `floors[i]` is a step of its own, and so is what lies between two
uses of `floors[i]`.

* `Sound` — all uses of `floors[i]` are inside the array, and whoever has returned has gone over
  each queue once.
* `Exclusive` — nobody starts the loop while somebody is in it: then all is sound, and when
  somebody does, it need not be.
* `completes` — a call that runs by itself.
-/

namespace KernelElevator.Printing

open Machine

/-! ## The steps -/

/-- What `temp` points to: a list head, or the `j`-th of those that were ever linked on a floor. -/
inductive ListNode where
  | head (k : Fin 10)
  | record (k : Fin 10) (j : ℕ)
  deriving DecidableEq

def nth (floors : Fin 10 → List Passenger) (k : Fin 10) (j : ℕ) : ListNode :=
  if j < (floors k).length then .record k j else .head k

/-- `temp->next`. -/
def next (floors : Fin 10 → List Passenger) : ListNode → ListNode
  | .head k => nth floors k 0
  | .record k j => nth floors k (j + 1)

/-- A `list_for_each`: the queue that it started on, how many were linked there at the time, and the
nodes that its body was at. -/
structure Tour where
  queue : Fin 10
  linked : ℕ
  nodes : List ListNode
  deriving DecidableEq

/-- Where an `issue_request` is. -/
inductive Phase where
  /-- At `list_add_tail`. -/
  | link
  /-- At `i = 0`. -/
  | assign
  /-- At `i < 10`. -/
  | test
  /-- At `temp = (&floors[i])->next`. -/
  | first
  /-- At `temp != &floors[i]`. -/
  | compare (temp : ListNode) (tour : Tour)
  /-- In the body, and at `temp = temp->next`. -/
  | body (temp : ListNode) (tour : Tour)
  /-- At `i++`. -/
  | increment
  | done
  /-- `floors[i]` was no list head. -/
  | stray
  deriving DecidableEq

/-- Between `i = 0` and the end of the loop. -/
def Phase.inLoop : Phase → Bool
  | .test | .first | .compare .. | .body .. | .increment => true
  | .link | .assign | .done | .stray => false

/-- `C` names the calls. `uses` and `tours` are histories that no code reads. -/
structure Calls (C : Type) where
  i : Int
  floors : Fin 10 → List Passenger
  phase : C → Phase
  /-- The index in each use of `floors[i]`. -/
  uses : List Int
  /-- The traversals that a call has ended. -/
  tours : C → List Tour

/-- `floors[i]`; `none` is out of bounds. -/
def index (i : Int) : Option (Fin 10) := slot (i + 1)

section Steps

variable {C : Type}

/-- `floors[i]` is used. -/
def Calls.use (s : Calls C) : Calls C := { s with uses := s.uses ++ [s.i] }

variable [DecidableEq C]

def Calls.goto (s : Calls C) (c : C) (phase : Phase) : Calls C :=
  { s with phase := Function.update s.phase c phase }

/-- The traversal has come to its end. -/
def Calls.close (s : Calls C) (c : C) (tour : Tour) : Calls C :=
  { s with tours := Function.update s.tours c (s.tours c ++ [tour]) }

/-- The next step of the call `c`, which has accepted the passenger `request c`. -/
def step (request : C → Passenger) (c : C) (s : Calls C) : Calls C :=
  match s.phase c with
  | .link =>
    let floor := (request c).startFloor
    { s with floors := putQueue s.floors floor (getQueue s.floors floor ++ [request c]) }.goto c
      .assign
  | .assign => { s with i := 0 }.goto c .test
  | .test => s.goto c (if s.i < 10 then .first else .done)
  | .first =>
    match index s.i with
    | some k => s.use.goto c (.compare (next s.floors (.head k)) ⟨k, (s.floors k).length, []⟩)
    | none => s.use.goto c .stray
  | .compare temp tour =>
    if (index s.i).map .head = some temp then (s.use.close c tour).goto c .increment
    else s.use.goto c (.body temp tour)
  | .body temp tour =>
    s.goto c (.compare (next s.floors temp) { tour with nodes := tour.nodes ++ [temp] })
  | .increment => { s with i := s.i + 1 }.goto c .test
  | .done => s
  | .stray => s

/-- The first step leaves the queues as `State.link` does. -/
theorem step_link (request : C → Passenger) {s : Calls C} {c : C} (hphase : s.phase c = .link)
    {t : State} (ht : t.floors = s.floors) :
    (step request c s).floors = (t.link (request c)).floors := by
  rw [step, hphase]
  show putQueue s.floors _ _ = putQueue t.floors _ _
  rw [← ht]
  rfl

/-- Before any of the calls. -/
def before (i : Int) (floors : Fin 10 → List Passenger) : Calls C where
  i := i
  floors := floors
  phase := fun _ => .link
  uses := []
  tours := fun _ => []

end Steps

/-! ## What is asked of them -/

/-- A traversal of a queue, from end to end: those linked when it started, and perhaps some more. -/
def Tour.Whole (floors : Fin 10 → List Passenger) (t : Tour) : Prop :=
  ∃ m, t.linked ≤ m ∧ m ≤ (floors t.queue).length ∧
    t.nodes = (List.range m).map (ListNode.record t.queue)

structure Sound {C : Type} (s : Calls C) : Prop where
  inside : ∀ i ∈ s.uses, 0 ≤ i ∧ i ≤ 9
  /-- Each of the ten queues once. -/
  each : ∀ c, s.phase c = .done → ((s.tours c).map Tour.queue).Perm (List.finRange 10)
  whole : ∀ c, s.phase c = .done → ∀ t ∈ s.tours c, t.Whole s.floors

/-- Nobody starts the loop while somebody is in it. -/
def Exclusive {C : Type} (s : Calls C) (c : C) : Prop :=
  s.phase c = .assign → ∀ d, (s.phase d).inLoop = false

/-! ## One traversal -/

theorem index_eq (k : Fin 10) : index k = some k := slot_floorOf k

/-- Nobody has left a queue. -/
def Grown (floors floors' : Fin 10 → List Passenger) : Prop :=
  ∀ k, (floors k).length ≤ (floors' k).length

theorem grown_putQueue (floors : Fin 10 → List Passenger) (floor : Int) (p : Passenger) :
    Grown floors (putQueue floors floor (getQueue floors floor ++ [p])) := by
  intro k
  cases hj : slot floor with
  | none => rw [putQueue, hj]
  | some j =>
    rw [putQueue, getQueue, hj]
    by_cases hk : k = j
    · simp [hk]
    · simp [hk]

/-- The body has been at the first `m` nodes of the queue, and `temp` is the next. -/
structure Tour.Ahead (floors : Fin 10 → List Passenger) (t : Tour) (m : ℕ) (temp : ListNode) :
    Prop where
  nodes : t.nodes = (List.range m).map (ListNode.record t.queue)
  linked : t.linked ≤ (floors t.queue).length
  next : (temp = .record t.queue m ∧ m < (floors t.queue).length) ∨
    (temp = .head t.queue ∧ t.linked ≤ m ∧ m ≤ (floors t.queue).length)

section Tours

variable {floors floors' : Fin 10 → List Passenger} {t : Tour} {m : ℕ} {temp : ListNode}

theorem Tour.Whole.mono (h : t.Whole floors) (hgrown : Grown floors floors') :
    t.Whole floors' := by
  obtain ⟨m, hlinked, hm, hnodes⟩ := h
  exact ⟨m, hlinked, hm.trans (hgrown _), hnodes⟩

theorem Tour.Ahead.mono (h : t.Ahead floors m temp) (hgrown : Grown floors floors') :
    t.Ahead floors' m temp := by
  refine ⟨h.nodes, h.linked.trans (hgrown _), ?_⟩
  rcases h.next with ⟨htemp, hm⟩ | ⟨htemp, hlinked, hm⟩
  · exact .inl ⟨htemp, hm.trans_le (hgrown _)⟩
  · exact .inr ⟨htemp, hlinked, hm.trans (hgrown _)⟩

theorem ahead_first (floors : Fin 10 → List Passenger) (k : Fin 10) :
    Tour.Ahead floors ⟨k, (floors k).length, []⟩ 0 (next floors (.head k)) := by
  refine ⟨rfl, le_rfl, ?_⟩
  by_cases hempty : 0 < (floors k).length
  · exact .inl ⟨if_pos hempty, hempty⟩
  · exact .inr ⟨if_neg hempty, Nat.le_of_not_lt hempty, Nat.zero_le _⟩

theorem Tour.Ahead.body (h : t.Ahead floors m (.record t.queue m)) :
    Tour.Ahead floors { t with nodes := t.nodes ++ [.record t.queue m] } (m + 1)
      (Printing.next floors (.record t.queue m)) := by
  have hm : m < (floors t.queue).length := by
    rcases h.next with ⟨-, hm⟩ | ⟨htemp, -⟩
    · exact hm
    · exact absurd htemp (by simp)
  refine ⟨by simp [h.nodes, List.range_succ], h.linked, ?_⟩
  by_cases hlast : m + 1 < (floors t.queue).length
  · exact .inl ⟨if_pos hlast, hlast⟩
  · exact .inr ⟨if_neg hlast, h.linked.trans (Nat.le_of_not_lt hlast), hm⟩

/-- The traversal ends at the head it started from. -/
theorem Tour.Ahead.whole (h : t.Ahead floors m (.head t.queue)) : t.Whole floors := by
  rcases h.next with ⟨htemp, -⟩ | ⟨-, hlinked, hm⟩
  · exact absurd htemp (by simp)
  · exact ⟨m, hlinked, hm, h.nodes⟩

end Tours

/-! ## One call in the loop -/

section Calls

variable {C : Type} {s s' : Calls C} {c d : C}

/-- The call `c` has gone over the first `n` queues. -/
structure Toured (s : Calls C) (c : C) (n : ℕ) : Prop where
  queues : (s.tours c).map Tour.queue = (List.finRange 10).take n
  whole : ∀ t ∈ s.tours c, t.Whole s.floors

/-- What a call relies on at each point. -/
def Relies (s : Calls C) (c : C) : Phase → Prop
  | .link => Toured s c 0
  | .assign => Toured s c 0
  | .test => ∃ n : ℕ, n ≤ 10 ∧ s.i = n ∧ Toured s c n
  | .first => ∃ k : Fin 10, s.i = k ∧ Toured s c k
  | .compare temp tour => s.i = tour.queue ∧ Toured s c tour.queue ∧ ∃ m, tour.Ahead s.floors m temp
  | .body temp tour => s.i = tour.queue ∧ Toured s c tour.queue ∧
      ∃ m, temp = .record tour.queue m ∧ tour.Ahead s.floors m temp
  | .increment => ∃ k : Fin 10, s.i = k ∧ Toured s c (k + 1)
  | .done => Toured s c 10
  | .stray => False

structure Orderly (s : Calls C) : Prop where
  inside : ∀ i ∈ s.uses, 0 ≤ i ∧ i ≤ 9
  alone : ∀ c d, (s.phase c).inLoop = true → (s.phase d).inLoop = true → c = d
  relies : ∀ c, Relies s c (s.phase c)

theorem Toured.frame {n : ℕ} (h : Toured s c n) (htours : s'.tours c = s.tours c)
    (hgrown : Grown s.floors s'.floors) : Toured s' c n := by
  refine ⟨by rw [htours, h.queues], ?_⟩
  intro t ht
  rw [htours] at ht
  exact (h.whole t ht).mono hgrown

theorem Relies.frame {phase : Phase} (h : Relies s c phase) (htours : s'.tours c = s.tours c)
    (hgrown : Grown s.floors s'.floors) (hi : phase.inLoop = true → s'.i = s.i) :
    Relies s' c phase := by
  cases phase with
  | link => exact Toured.frame h htours hgrown
  | assign => exact Toured.frame h htours hgrown
  | test =>
    obtain ⟨n, hn, hsi, ht⟩ := h
    exact ⟨n, hn, (hi rfl).trans hsi, ht.frame htours hgrown⟩
  | first =>
    obtain ⟨k, hsi, ht⟩ := h
    exact ⟨k, (hi rfl).trans hsi, ht.frame htours hgrown⟩
  | compare temp tour =>
    obtain ⟨hsi, ht, m, hahead⟩ := h
    exact ⟨(hi rfl).trans hsi, ht.frame htours hgrown, m, hahead.mono hgrown⟩
  | body temp tour =>
    obtain ⟨hsi, ht, m, htemp, hahead⟩ := h
    exact ⟨(hi rfl).trans hsi, ht.frame htours hgrown, m, htemp, hahead.mono hgrown⟩
  | increment =>
    obtain ⟨k, hsi, ht⟩ := h
    exact ⟨k, (hi rfl).trans hsi, ht.frame htours hgrown⟩
  | done => exact Toured.frame h htours hgrown
  | stray => exact h

theorem Orderly.others (h : Orderly s) (hc : (s.phase c).inLoop = true) :
    ∀ d, d ≠ c → (s.phase d).inLoop = false := by
  intro d hd
  by_contra hloop
  exact hd (h.alone d c (Bool.eq_true_of_not_eq_false hloop) hc)

theorem Orderly.sound (h : Orderly s) : Sound s := by
  refine ⟨h.inside, ?_, ?_⟩
  · intro c hc
    have hrelies := h.relies c
    rw [hc] at hrelies
    rw [hrelies.queues]
    exact .rfl
  · intro c hc
    have hrelies := h.relies c
    rw [hc] at hrelies
    exact hrelies.whole

/-- What `c` has done to the state, the other calls do not notice. -/
structure Unnoticed (s u : Calls C) (c : C) : Prop where
  phase : u.phase = s.phase
  tours : ∀ d, d ≠ c → u.tours d = s.tours d
  floors : Grown s.floors u.floors
  i : u.i = s.i ∨ ∀ d, d ≠ c → (s.phase d).inLoop = false

theorem grown_refl (floors : Fin 10 → List Passenger) : Grown floors floors := fun _ => le_rfl

theorem unnoticed_refl (s : Calls C) (c : C) : Unnoticed s s c :=
  ⟨rfl, fun _ _ => rfl, grown_refl _, .inl rfl⟩

theorem unnoticed_use (s : Calls C) (c : C) : Unnoticed s s.use c :=
  ⟨rfl, fun _ _ => rfl, grown_refl _, .inl rfl⟩

theorem Orderly.inside_use (h : Orderly s) {k : Fin 10} (hi : s.i = k) :
    ∀ i ∈ s.use.uses, 0 ≤ i ∧ i ≤ 9 := by
  intro i hmem
  rcases List.mem_append.1 hmem with hmem | hmem
  · exact h.inside i hmem
  · have hk := k.isLt
    rw [List.mem_singleton.1 hmem, hi]
    omega

theorem orderly_before (i : Int) (floors : Fin 10 → List Passenger) :
    Orderly (before i floors : Calls C) :=
  ⟨by simp [before], by simp [before, Phase.inLoop], fun _ => ⟨rfl, by simp [before]⟩⟩

variable [DecidableEq C]

theorem unnoticed_close (s : Calls C) (c : C) (tour : Tour) :
    Unnoticed s (s.use.close c tour) c :=
  ⟨rfl, fun _ hd => Function.update_of_ne hd _ _, grown_refl _, .inl rfl⟩

theorem Orderly.goto {u : Calls C} {phase : Phase} (h : Orderly s) (hothers : Unnoticed s u c)
    (hloop : phase.inLoop = true → ∀ d, d ≠ c → (s.phase d).inLoop = false)
    (huses : ∀ i ∈ u.uses, 0 ≤ i ∧ i ≤ 9) (hrelies : Relies u c phase) :
    Orderly (u.goto c phase) := by
  have hself : (u.goto c phase).phase c = phase := Function.update_self ..
  have hother : ∀ d, d ≠ c → (u.goto c phase).phase d = s.phase d := by
    intro d hd
    rw [← hothers.phase]
    exact Function.update_of_ne hd _ _
  refine ⟨huses, ?_, ?_⟩
  · intro d e hd he
    by_cases hdc : d = c
    · subst hdc
      by_contra hne
      rw [hself] at hd
      rw [hother e (Ne.symm hne), hloop hd e (Ne.symm hne)] at he
      exact absurd he (by simp)
    · rw [hother d hdc] at hd
      by_cases hec : e = c
      · subst hec
        rw [hself] at he
        rw [hloop he d hdc] at hd
        exact absurd hd (by simp)
      · rw [hother e hec] at he
        exact h.alone d e hd he
  · intro d
    by_cases hdc : d = c
    · subst hdc
      rw [hself]
      exact hrelies.frame rfl (grown_refl _) fun _ => rfl
    · rw [hother d hdc]
      refine (h.relies d).frame (hothers.tours d hdc) hothers.floors ?_
      intro hd
      rcases hothers.i with hi | hnone
      · exact hi
      · exact absurd (hnone d hdc) (by simp [hd])

theorem Toured.close {tour : Tour} (h : Toured s c tour.queue) (hwhole : tour.Whole s.floors) :
    Toured (s.close c tour) c (tour.queue + 1) := by
  have htours : (s.close c tour).tours c = s.tours c ++ [tour] := Function.update_self ..
  refine ⟨?_, ?_⟩
  · rw [htours, List.map_append, h.queues, List.take_add_one]
    simp
  · intro t ht
    rw [htours] at ht
    rcases List.mem_append.1 ht with ht | ht
    · exact h.whole t ht
    · rw [List.mem_singleton.1 ht]
      exact hwhole

/-- **One step**, while nobody starts the loop that somebody is in. -/
theorem orderly_step (request : C → Passenger) (h : Orderly s) (hexcl : Exclusive s c) :
    Orderly (step request c s) := by
  have hrelies := h.relies c
  have hothers := h.others (c := c)
  rw [Exclusive] at hexcl
  rw [step]
  cases hphase : s.phase c with
  | link =>
    rw [hphase] at hrelies
    have hgrown := grown_putQueue s.floors (request c).startFloor (request c)
    exact h.goto ⟨rfl, fun _ _ => rfl, hgrown, .inl rfl⟩ (by simp [Phase.inLoop]) h.inside
      (hrelies.frame rfl hgrown (by simp [Phase.inLoop]))
  | assign =>
    rw [hphase] at hrelies
    have hnone := hexcl hphase
    exact h.goto ⟨rfl, fun _ _ => rfl, grown_refl _, .inr fun d _ => hnone d⟩ (fun _ d _ => hnone d)
      h.inside ⟨0, Nat.zero_le _, rfl, Toured.frame hrelies rfl (grown_refl _)⟩
  | test =>
    rw [hphase] at hrelies hothers
    obtain ⟨n, hn, hi, ht⟩ := hrelies
    refine h.goto (unnoticed_refl s c) (fun _ => hothers rfl) h.inside ?_
    by_cases hlt : s.i < 10
    · rw [if_pos hlt]
      exact ⟨⟨n, by omega⟩, hi, ht⟩
    · obtain rfl : n = 10 := by omega
      rw [if_neg hlt]
      exact ht
  | first =>
    rw [hphase] at hrelies hothers
    obtain ⟨k, hi, ht⟩ := hrelies
    simp only [hi, index_eq]
    exact h.goto (unnoticed_use s c) (fun _ => hothers rfl) (h.inside_use hi)
      ⟨hi, ht.frame rfl (grown_refl _), 0, ahead_first _ _⟩
  | compare temp tour =>
    rw [hphase] at hrelies hothers
    obtain ⟨hi, ht, m, hahead⟩ := hrelies
    simp only [hi, index_eq, Option.map_some, Option.some.injEq]
    by_cases hend : .head tour.queue = temp
    · rw [if_pos hend]
      subst hend
      refine h.goto (unnoticed_close s c tour) (fun _ => hothers rfl) (h.inside_use hi)
        ⟨tour.queue, hi, Toured.close (ht.frame rfl (grown_refl _)) hahead.whole⟩
    · rw [if_neg hend]
      have htemp : temp = .record tour.queue m := by
        rcases hahead.next with ⟨htemp, -⟩ | ⟨htemp, -⟩
        · exact htemp
        · exact absurd htemp.symm hend
      exact h.goto (unnoticed_use s c) (fun _ => hothers rfl) (h.inside_use hi)
        ⟨hi, ht.frame rfl (grown_refl _), m, htemp, hahead⟩
  | body temp tour =>
    rw [hphase] at hrelies hothers
    obtain ⟨hi, ht, m, rfl, hahead⟩ := hrelies
    exact h.goto (unnoticed_refl s c) (fun _ => hothers rfl) h.inside ⟨hi, ht, m + 1, hahead.body⟩
  | increment =>
    rw [hphase] at hrelies hothers
    obtain ⟨k, hi, ht⟩ := hrelies
    refine h.goto ⟨rfl, fun _ _ => rfl, grown_refl _, .inr (hothers rfl)⟩ (fun _ => hothers rfl)
      h.inside ⟨k + 1, k.isLt, ?_, ht.frame rfl (grown_refl _)⟩
    simp [hi]
  | done => exact h
  | stray => exact h

/-! ## One call after another -/

section Alone

variable (request : C → Passenger)

/-- Left to itself, the call `c` comes to a state where `P` holds. -/
def Reaches (c : C) (P : Calls C → Prop) (s : Calls C) : Prop :=
  ∃ k, P (run (step request) (List.replicate k c) s)

variable {request} {P Q : Calls C → Prop}

theorem reaches_now (h : P s) : Reaches request c P s := ⟨0, h⟩

theorem Reaches.after (h : Reaches request c P (step request c s)) : Reaches request c P s := by
  obtain ⟨k, hk⟩ := h
  exact ⟨k + 1, hk⟩

theorem Reaches.trans (h : Reaches request c P s) (hnext : ∀ t, P t → Reaches request c Q t) :
    Reaches request c Q s := by
  obtain ⟨k, hk⟩ := h
  obtain ⟨m, hm⟩ := hnext _ hk
  refine ⟨k + m, ?_⟩
  rw [List.replicate_add, run_append]
  exact hm

theorem goto_phase (s : Calls C) (c : C) (phase : Phase) : (s.goto c phase).phase c = phase :=
  Function.update_self ..

theorem reaches_increment {k : Fin 10} {j : ℕ} {tour : Tour}
    (hphase : s.phase c = .compare (nth s.floors k j) tour) (hi : s.i = k) :
    Reaches request c (fun t => t.phase c = .increment ∧ t.i = k) s := by
  -- The induction is on the passengers ahead.
  induction hahead : (s.floors k).length - j generalizing s j tour with
  | zero =>
    have hend : nth s.floors k j = .head k := if_neg (by omega)
    have hstep : step request c s = (s.use.close c tour).goto c .increment := by
      rw [step, hphase]
      simp [hi, index_eq, hend]
    refine (reaches_now ?_).after
    rw [hstep]
    exact ⟨goto_phase _ _ _, hi⟩
  | succ n ih =>
    have hj : j < (s.floors k).length := by omega
    have hrecord : nth s.floors k j = .record k j := if_pos hj
    have hbody : step request c s = s.use.goto c (.body (.record k j) tour) := by
      rw [step, hphase]
      simp [hi, index_eq, hrecord]
    have hcompare : step request c (s.use.goto c (.body (.record k j) tour)) =
        (s.use.goto c (.body (.record k j) tour)).goto c (.compare (nth s.floors k (j + 1))
          { tour with nodes := tour.nodes ++ [.record k j] }) := by
      rw [step, goto_phase]
      rfl
    refine Reaches.after (Reaches.after ?_)
    rw [hbody, hcompare]
    refine ih (goto_phase _ _ _) hi ?_
    show (s.floors k).length - (j + 1) = n
    omega

theorem reaches_increment_of_first {k : Fin 10} (hphase : s.phase c = .first) (hi : s.i = k) :
    Reaches request c (fun t => t.phase c = .increment ∧ t.i = k) s := by
  have hstep : step request c s =
      s.use.goto c (.compare (nth s.floors k 0) ⟨k, (s.floors k).length, []⟩) := by
    rw [step, hphase]
    simp only [hi, index_eq]
    rfl
  refine Reaches.after ?_
  rw [hstep]
  exact reaches_increment (goto_phase _ _ _) hi

theorem step_test (hphase : s.phase c = .test) :
    step request c s = s.goto c (if s.i < 10 then .first else .done) := by
  rw [step, hphase]

theorem reaches_done {n : ℕ} (hn : n ≤ 10) (hphase : s.phase c = .test) (hi : s.i = n) :
    Reaches request c (fun t => t.phase c = .done ∧ t.i = 10) s := by
  induction hleft : 10 - n generalizing s n with
  | zero =>
    obtain rfl : n = 10 := by omega
    refine (reaches_now ?_).after
    rw [step_test hphase, if_neg (by simp [hi])]
    exact ⟨goto_phase _ _ _, hi⟩
  | succ left ih =>
    have hlt : s.i < 10 := by omega
    have hfirst : Reaches request c (fun t => t.phase c = .increment ∧ t.i = n) s := by
      refine Reaches.after ?_
      rw [step_test hphase, if_pos hlt]
      exact reaches_increment_of_first (k := ⟨n, by omega⟩) (goto_phase _ _ _) hi
    refine hfirst.trans fun t ht => Reaches.after ?_
    obtain ⟨htphase, hti⟩ := ht
    rw [step, htphase]
    refine ih (n := n + 1) (by omega) (goto_phase _ _ _) ?_ (by omega)
    show t.i + 1 = _
    rw [hti]
    rfl

/-- The other calls stay where they are. -/
theorem step_other (request : C → Passenger) (s : Calls C) (hd : d ≠ c) :
    (step request c s).phase d = s.phase d ∧ (step request c s).tours d = s.tours d := by
  have hgoto : ∀ (u : Calls C) (phase : Phase), (u.goto c phase).phase d = u.phase d :=
    fun _ _ => Function.update_of_ne hd _ _
  rw [step]
  cases s.phase c with
  | first =>
    cases index s.i with
    | none => exact ⟨hgoto _ _, rfl⟩
    | some k => exact ⟨hgoto _ _, rfl⟩
  | compare temp tour =>
    by_cases hend : (index s.i).map .head = some temp
    · simp only [if_pos hend]
      exact ⟨hgoto _ _, Function.update_of_ne hd _ _⟩
    · simp only [if_neg hend]
      exact ⟨hgoto _ _, rfl⟩
  | done => exact ⟨rfl, rfl⟩
  | stray => exact ⟨rfl, rfl⟩
  | _ => exact ⟨hgoto _ _, rfl⟩

theorem Reaches.others (h : Reaches request c P s) :
    Reaches request c
      (fun t => P t ∧ ∀ d, d ≠ c → t.phase d = s.phase d ∧ t.tours d = s.tours d) s := by
  obtain ⟨k, hk⟩ := h
  refine ⟨k, hk, fun d hd => ?_⟩
  clear hk
  induction k generalizing s with
  | zero => exact ⟨rfl, rfl⟩
  | succ k ih =>
    obtain ⟨hphase, htours⟩ := step_other request s hd
    obtain ⟨hphase', htours'⟩ := ih (s := step request c s)
    exact ⟨hphase'.trans hphase, htours'.trans htours⟩

theorem exclusive_of_others (h : ∀ d, d ≠ c → (s.phase d).inLoop = false) : Exclusive s c := by
  intro hassign d
  by_cases hd : d = c
  · rw [hd, hassign]
    rfl
  · exact h d hd

theorem along_alone (request : C → Passenger) (h : ∀ d, d ≠ c → (s.phase d).inLoop = false)
    (k : ℕ) : Along (step request) Exclusive (List.replicate k c) s := by
  induction k generalizing s with
  | zero => trivial
  | succ k ih =>
    refine ⟨exclusive_of_others h, ih fun d hd => ?_⟩
    rw [(step_other request s hd).1]
    exact h d hd

/-- **A call that runs by itself returns**, and has done what is asked of it. -/
theorem completes (request : C → Passenger) (h : Orderly s) (hphase : s.phase c = .link)
    (hothers : ∀ d, d ≠ c → (s.phase d).inLoop = false) :
    Reaches request c (fun t => t.phase c = .done ∧ Sound t) s := by
  have hassign : (step request c s).phase c = .assign := by
    rw [step, hphase]
    exact goto_phase _ _ _
  have hdone : Reaches request c (fun t => t.phase c = .done ∧ t.i = 10) s := by
    refine Reaches.after (Reaches.after ?_)
    rw [step, hassign]
    exact reaches_done (n := 0) (by omega) (goto_phase _ _ _) rfl
  obtain ⟨k, hk, -⟩ := hdone
  refine ⟨k, hk, ?_⟩
  have horderly : Orderly (run (step request) (List.replicate k c) s) :=
    run_guarded (fun _ _ hs => orderly_step request hs) h (along_alone request hothers k)
  exact horderly.sound

/-! ## One call within another -/

/-- A call comes to its test when another has just left the loop, and has gone over nothing. -/
theorem not_sound_of_left (hphase : s.phase c = .test) (hi : s.i = 10) (htours : s.tours c = []) :
    ¬ Sound (step request c s) := by
  intro h
  rw [step_test hphase, if_neg (by simp [hi])] at h
  have heach := (h.each c (goto_phase _ _ _)).length_eq
  have hnone : (s.goto c .done).tours c = [] := htours
  rw [hnone, List.length_finRange] at heach
  exact absurd heach (by simp)

/-- A call is about to use `floors[i]` when another has just left the loop. -/
theorem not_sound_of_use (hi : s.i = 10)
    (hphase : s.phase d = .first ∨ ∃ temp tour, s.phase d = .compare temp tour) :
    ¬ Sound (step request d s) := by
  intro h
  have hindex : index s.i = none := by
    rw [hi]
    rfl
  have huses : ∀ phase : Phase, 10 ∈ (s.use.goto d phase).uses := by
    intro phase
    show 10 ∈ s.uses ++ [s.i]
    simp [hi]
  have hten : 10 ∈ (step request d s).uses := by
    rw [step]
    rcases hphase with hphase | ⟨temp, tour, hphase⟩
    · simp only [hphase, hindex]
      exact huses _
    · simp only [hphase, hindex, Option.map_none]
      exact huses _
  exact absurd (h.inside 10 hten) (by simp)

/-- One call runs to the end while another has yet to begin. -/
theorem exists_not_sound_of_done (hdc : d ≠ c) (hphase : s.phase c = .test)
    (htours : s.tours c = [])
    (hdone : Reaches request d (fun t => t.phase d = .done ∧ t.i = 10) s) :
    ∃ moves, ¬ Sound (run (step request) moves s) := by
  obtain ⟨k, ⟨-, hi⟩, hothers⟩ := hdone.others
  obtain ⟨hphase', htours'⟩ := hothers c hdc.symm
  refine ⟨List.replicate k d ++ [c], ?_⟩
  rw [run_append]
  exact not_sound_of_left (hphase'.trans hphase) hi (htours'.trans htours)

/-- One call runs to the end while another is about to use `floors[i]`. -/
theorem exists_not_sound_of_use (request : C → Passenger) (hdc : d ≠ c)
    (hphase : s.phase c = .test) (hi : s.i = 0)
    (huse : s.phase d = .first ∨ ∃ temp tour, s.phase d = .compare temp tour) :
    ∃ moves, ¬ Sound (run (step request) moves s) := by
  have hdone : Reaches request c (fun t => t.phase c = .done ∧ t.i = 10) s :=
    reaches_done (n := 0) (by omega) hphase (by simp [hi])
  obtain ⟨k, ⟨-, hi'⟩, hothers⟩ := hdone.others
  refine ⟨List.replicate k c ++ [d], ?_⟩
  rw [run_append]
  rw [← (hothers d hdc).1] at huse
  exact not_sound_of_use hi' huse

theorem exists_not_sound_of_reset (request : C → Passenger) (hdc : d ≠ c)
    (hphase : s.phase c = .test) (hi : s.i = 0) (htours : s.tours c = [])
    (hd : (s.phase d).inLoop = true) : ∃ moves, ¬ Sound (run (step request) moves s) := by
  cases hdphase : s.phase d with
  | test =>
    exact exists_not_sound_of_done hdc hphase htours
      (reaches_done (n := 0) (by omega) hdphase (by simp [hi]))
  | increment =>
    refine exists_not_sound_of_done hdc hphase htours (Reaches.after ?_)
    rw [step, hdphase]
    refine reaches_done (n := 1) (by omega) (goto_phase _ _ _) ?_
    show s.i + 1 = _
    rw [hi]
    rfl
  | first => exact exists_not_sound_of_use request hdc hphase hi (.inl hdphase)
  | compare temp tour =>
    exact exists_not_sound_of_use request hdc hphase hi (.inr ⟨temp, tour, hdphase⟩)
  | body temp tour =>
    have hstep : step request d s = s.goto d (.compare (next s.floors temp)
        { tour with nodes := tour.nodes ++ [temp] }) := by
      rw [step, hdphase]
    have hphase' : (step request d s).phase c = .test :=
      (step_other request s hdc.symm).1.trans hphase
    rw [hstep] at hphase'
    obtain ⟨moves, hmoves⟩ := exists_not_sound_of_use request hdc hphase' hi
      (.inr ⟨_, _, goto_phase _ _ _⟩)
    refine ⟨d :: moves, ?_⟩
    rw [run_cons, hstep]
    exact hmoves
  | link => exact absurd hd (by simp [hdphase, Phase.inLoop])
  | assign => exact absurd hd (by simp [hdphase, Phase.inLoop])
  | done => exact absurd hd (by simp [hdphase, Phase.inLoop])
  | stray => exact absurd hd (by simp [hdphase, Phase.inLoop])

/-- **A call that starts the loop while another is in it**: one of the two can run to the end, and
then the other goes wrong. -/
theorem exists_not_sound (request : C → Passenger) (h : Orderly s) (hbad : ¬ Exclusive s c) :
    ∃ moves, ¬ Sound (run (step request) (c :: moves) s) := by
  obtain ⟨hassign, d, hd⟩ : s.phase c = .assign ∧ ∃ d, (s.phase d).inLoop = true := by
    simpa [Exclusive] using hbad
  have hdc : d ≠ c := by
    intro heq
    rw [heq, hassign] at hd
    exact absurd hd (by simp [Phase.inLoop])
  have htours : s.tours c = [] := by
    have hrelies := h.relies c
    rw [hassign] at hrelies
    exact List.map_eq_nil_iff.1 hrelies.queues
  have hstep : step request c s = ({ s with i := 0 } : Calls C).goto c .test := by
    rw [step, hassign]
  rw [← (step_other request s hdc).1, hstep] at hd
  have hi : (({ s with i := 0 } : Calls C).goto c .test).i = 0 := rfl
  obtain ⟨moves, hmoves⟩ :=
    exists_not_sound_of_reset request hdc (goto_phase _ _ _) hi htours hd
  refine ⟨moves, ?_⟩
  rw [run_cons, hstep]
  exact hmoves

end Alone

end Calls

/-! ## All runs -/

section Runs

variable {C : Type} [DecidableEq C] (request : C → Passenger) (i : Int)
  (floors : Fin 10 → List Passenger)

theorem orderly_run {moves : List C}
    (h : Along (step request) Exclusive moves (before i floors)) :
    Orderly (run (step request) moves (before i floors)) :=
  run_guarded (fun _ _ hs => orderly_step request hs) (orderly_before i floors) h

/-- **`print_passengers` is sound while nobody starts its loop that somebody is in**, and after such
a run, whoever does can make it unsound. -/
theorem printing_sound_of_exclusive (moves : List C)
    (h : Along (step request) Exclusive moves (before i floors)) :
    Sound (run (step request) moves (before i floors)) ∧
    ∀ c, ¬ Exclusive (run (step request) moves (before i floors)) c →
      ∃ more, ¬ Sound (run (step request) (moves ++ c :: more) (before i floors)) := by
  have horderly := orderly_run request i floors h
  refine ⟨horderly.sound, ?_⟩
  intro c hbad
  obtain ⟨more, hmore⟩ := exists_not_sound request horderly hbad
  refine ⟨more, ?_⟩
  rw [run_append]
  exact hmore

end Runs

instance {C : Type} [Fintype C] (s : Calls C) (c : C) : Decidable (Exclusive s c) :=
  inferInstanceAs (Decidable (s.phase c = .assign → ∀ d, (s.phase d).inLoop = false))

/-- Two adults on the first floor. -/
def neighbours : Bool → Passenger
  | false => ⟨0, 2, 1, 1, 2, adult, .up⟩
  | true => ⟨1, 2, 1, 1, 3, adult, .up⟩

theorem printing_sound_one_by_one : Sound (run (step neighbours)
    (List.replicate 45 false ++ List.replicate 47 true) (before 0 fun _ => [])) :=
  (printing_sound_of_exclusive neighbours 0 (fun _ => []) _ (by decide +kernel)).1

/-- One call is past the test when the other goes through the whole loop. -/
theorem printing_not_sound : ¬ Sound (run (step neighbours)
    ([false, false, false] ++ List.replicate 47 true ++ [false]) (before 0 fun _ => [])) := by
  intro h
  exact absurd (h.inside 10 (by decide +kernel)) (by simp)

end KernelElevator.Printing
