import KernelElevator.Library.Machine
import Mathlib.Logic.Function.Basic
import Mathlib.Data.Fintype.Defs

/-!
# A flag as a lock

Calls of two kinds share a memory with a flag in it. A call of kind `b` first reads the flag: unless
it is `b` the call returns at once, and otherwise it goes through its statements, the last of which
may change the flag. Every statement is a step, and the steps of any number of calls, and of
whatever else writes to the memory, come in any order.

* `Protocol` — the statements, and what a call makes of the memory if left alone (`finish`).
* `Orderly` — no call enters beside another of its kind, and beside a call only those of the other
  events happen that keep clear of the statements.
* `linearizable` — then the calls of the two kinds exclude each other too, and memory and answers
  are those of whole calls, one after the other, each of which takes effect at one of its own steps.
-/

namespace Gate

open Machine

/-- The statements of the calls of each kind, on the memories `M`, and the other events. -/
structure Protocol (M E : Type*) (P : Bool → Type*) where
  flag : M → Bool
  /-- The first statement after the test. -/
  first (b : Bool) : P b
  /-- A statement, and the one that follows unless the call returns. -/
  exec (b : Bool) : P b → M → M × Option (P b)
  /-- The memory when the call has returned, if nothing else happens. -/
  finish (b : Bool) : P b → M → M
  event : E → M → M
  /-- The event keeps clear of the statements. -/
  Clear : E → Prop
  keeps : ∀ {b p m m' q}, exec b p m = (m', some q) → flag m' = flag m
  finish_some : ∀ {b p m m' q}, exec b p m = (m', some q) → finish b p m = finish b q m'
  finish_none : ∀ {b p m m'}, exec b p m = (m', none) → finish b p m = m'
  clear_flag : ∀ {e} m, Clear e → flag (event e m) = flag m
  clear_finish : ∀ {e} b p m, Clear e → finish b p (event e m) = event e (finish b p m)

/-- Where a call is. -/
inductive Place (Q : Type*) where
  | before
  | inside (q : Q)
  /-- It has returned, and had entered or not. -/
  | done (entered : Bool)

/-- The call has not begun. -/
def Place.Waits {Q : Type*} : Place Q → Prop
  | .before => True
  | _ => False

/-- The call is between its test and its return. -/
def Place.Inside {Q : Type*} : Place Q → Prop
  | .inside _ => True
  | _ => False

theorem Place.Inside.eq {Q : Type*} {place : Place Q} (h : place.Inside) :
    ∃ p, place = .inside p := by
  cases place with
  | before => exact h.elim
  | inside p => exact ⟨p, rfl⟩
  | done entered => exact h.elim

instance {Q : Type*} : DecidablePred (Place.Waits (Q := Q))
  | .before => isTrue trivial
  | .inside _ => isFalse id
  | .done _ => isFalse id

instance {Q : Type*} : DecidablePred (Place.Inside (Q := Q))
  | .before => isFalse id
  | .inside _ => isTrue trivial
  | .done _ => isFalse id

variable {M E ι : Type*} {P : Bool → Type*}

/-- The calls `ι`, the kind of each given by `kind`. `order` is a history that no statement reads:
the calls and events in the order in which they took effect. -/
structure World (M E : Type*) (P : Bool → Type*) (kind : ι → Bool) where
  memory : M
  place : ∀ i, Place (P (kind i))
  order : List (ι ⊕ E)

/-- The calls in a history. -/
def callsOf (order : List (ι ⊕ E)) : List ι := order.filterMap Sum.getLeft?

namespace Protocol

variable (G : Protocol M E P) {kind : ι → Bool}

/-- Nobody has begun. -/
def start (m : M) : World M E P kind := ⟨m, fun _ => .before, []⟩

/-- A whole call, or an event. -/
def whole (kind : ι → Bool) : ι ⊕ E → M → M
  | .inl i, m => if G.flag m = kind i then G.finish (kind i) (G.first (kind i)) m else m
  | .inr e, m => G.event e m

/-- No call enters beside another of its kind, and only clear events happen beside a call. -/
def Orderly (w : World M E P kind) : ι ⊕ E → Prop
  | .inl i => (w.place i).Waits → G.flag w.memory = kind i →
      ∀ j, (w.place j).Inside → kind j ≠ kind i
  | .inr e => G.Clear e ∨ ∀ j, ¬ (w.place j).Inside

/-! ## The invariant -/

/-- The memory after the whole calls and events of the history. -/
def settled (m : M) (w : World M E P kind) : M := run (G.whole kind) w.order m

/-- What holds of a call, with the memory `m₀` before all of them. -/
def Serial (m₀ : M) (w : World M E P kind) (i : ι) : Place (P (kind i)) → Prop
  | .before => .inl i ∉ w.order
  | .inside p => .inl i ∉ w.order ∧ G.flag (G.settled m₀ w) = kind i ∧ G.flag w.memory = kind i ∧
      G.finish (kind i) p w.memory = G.finish (kind i) (G.first (kind i)) (G.settled m₀ w)
  | .done entered => ∃ pre post, w.order = pre ++ .inl i :: post ∧
      entered = decide (G.flag (run (G.whole kind) pre m₀) = kind i)

structure Inv (m₀ : M) (w : World M E P kind) : Prop where
  alone : ∀ i j, (w.place i).Inside → (w.place j).Inside → i = j
  quiet : (∀ i, ¬ (w.place i).Inside) → w.memory = G.settled m₀ w
  serial : ∀ i, G.Serial m₀ w i (w.place i)
  once : (callsOf w.order).Nodup

instance [Fintype ι] [DecidablePred G.Clear] (w : World M E P kind) :
    DecidablePred (G.Orderly w)
  | .inl i => inferInstanceAs (Decidable ((w.place i).Waits → G.flag w.memory = kind i →
      ∀ j, (w.place j).Inside → kind j ≠ kind i))
  | .inr e => inferInstanceAs (Decidable (G.Clear e ∨ ∀ j, ¬ (w.place j).Inside))

variable {G} {m₀ : M} {w : World M E P kind}

theorem settled_snoc (m₀ : M) (w : World M E P kind) (l : ι ⊕ E) (m : M)
    (place : ∀ i, Place (P (kind i))) :
    G.settled m₀ ⟨m, place, w.order ++ [l]⟩ = G.whole kind l (G.settled m₀ w) :=
  run_append _ w.order [l] m₀

/-- A call keeps its place in a history that grows by others, if what it is inside of does not
change. -/
theorem Serial.grow {i : ι} {place : Place (P (kind i))} (h : G.Serial m₀ w i place)
    {w' : World M E P kind} {ls : List (ι ⊕ E)} (horder : w'.order = w.order ++ ls)
    (hi : .inl i ∉ ls)
    (hin : place.Inside → w'.memory = w.memory ∧ G.settled m₀ w' = G.settled m₀ w) :
    G.Serial m₀ w' i place := by
  have hnot (hw : .inl i ∉ w.order) : .inl i ∉ w'.order := by
    rw [horder, List.mem_append, not_or]
    exact ⟨hw, hi⟩
  cases place with
  | before => exact hnot h
  | inside p =>
    obtain ⟨hmemory, hsettled⟩ := hin trivial
    obtain ⟨hw, hflag, hkind, hfinish⟩ := h
    refine ⟨hnot hw, ?_, ?_, ?_⟩
    · rw [hsettled]
      exact hflag
    · rw [hmemory]
      exact hkind
    · rw [hmemory, hsettled]
      exact hfinish
  | done entered =>
    obtain ⟨pre, post, hw, hentered⟩ := h
    exact ⟨pre, post ++ ls, by rw [horder, hw, List.append_assoc, List.cons_append], hentered⟩

theorem inv_start (m₀ : M) : G.Inv m₀ (start m₀ : World M E P kind) where
  alone := fun _ _ h => h.elim
  quiet := fun _ => rfl
  serial := fun _ => List.not_mem_nil
  once := List.nodup_nil

/-- What holds of a call that is inside. -/
theorem Inv.inside (h : G.Inv m₀ w) {i : ι} {p : P (kind i)} (hplace : w.place i = .inside p) :
    .inl i ∉ w.order ∧ G.flag (G.settled m₀ w) = kind i ∧ G.flag w.memory = kind i ∧
      G.finish (kind i) p w.memory = G.finish (kind i) (G.first (kind i)) (G.settled m₀ w) := by
  have hserial := h.serial i
  rwa [hplace] at hserial

/-- The flag is what it was when the call that is inside entered. -/
theorem Inv.flag_settled (h : G.Inv m₀ w) : G.flag (G.settled m₀ w) = G.flag w.memory := by
  by_cases hin : ∃ i, (w.place i).Inside
  · obtain ⟨i, hi⟩ := hin
    obtain ⟨p, hplace⟩ := hi.eq
    exact (h.inside hplace).2.1.trans (h.inside hplace).2.2.1.symm
  · rw [h.quiet fun i hi => hin ⟨i, hi⟩]

/-- A call is inside only while the flag is its kind. -/
theorem Inv.flag_of_inside (h : G.Inv m₀ w) {i : ι} (hi : (w.place i).Inside) :
    G.flag w.memory = kind i := by
  obtain ⟨p, hplace⟩ := hi.eq
  exact (h.inside hplace).2.2.1

/-- Beside the call that is inside there is no other. -/
theorem Inv.others (h : G.Inv m₀ w) {i : ι} {p : P (kind i)} (hplace : w.place i = .inside p) :
    ∀ j ≠ i, ¬ (w.place j).Inside := by
  intro j hne hj
  exact hne (h.alone j i hj (by rw [hplace]; trivial))

theorem Inv.once_snoc (h : G.Inv m₀ w) {i : ι} (hi : .inl i ∉ w.order) :
    (callsOf (w.order ++ [.inl i])).Nodup := by
  rw [callsOf, List.filterMap_append, List.nodup_append]
  refine ⟨h.once, by simp, ?_⟩
  rintro j hj k hk rfl
  obtain ⟨l, hl, hleft⟩ := List.mem_filterMap.1 hj
  obtain rfl := List.mem_singleton.1 hk
  obtain rfl := Sum.getLeft?_eq_some_iff.1 hleft
  exact hi hl

theorem inv_event (h : G.Inv m₀ w) {e : E} (he : G.Clear e ∨ ∀ j, ¬ (w.place j).Inside) :
    G.Inv m₀ { w with memory := G.event e w.memory, order := w.order ++ [.inr e] } where
  alone := h.alone
  quiet := by
    intro hout
    rw [settled_snoc]
    exact congrArg (G.event e) (h.quiet hout)
  serial := by
    intro i
    cases hplace : w.place i with
    | before =>
      have hserial := h.serial i
      rw [hplace] at hserial
      exact hserial.grow rfl (by simp) fun hin => hin.elim
    | done entered =>
      have hserial := h.serial i
      rw [hplace] at hserial
      exact hserial.grow rfl (by simp) fun hin => hin.elim
    | inside p =>
      have hclear : G.Clear e := he.resolve_right fun hout => hout i (by rw [hplace]; trivial)
      obtain ⟨hnot, hsettled, hflag, hfinish⟩ := h.inside hplace
      refine ⟨by simp [hnot], ?_, ?_, ?_⟩
      · rw [settled_snoc]
        exact (G.clear_flag _ hclear).trans hsettled
      · exact (G.clear_flag _ hclear).trans hflag
      · rw [settled_snoc]
        show G.finish _ p (G.event e w.memory) = G.finish _ _ (G.event e (G.settled m₀ w))
        rw [G.clear_finish _ _ _ hclear, G.clear_finish _ _ _ hclear, hfinish]
  once := by
    show (callsOf (w.order ++ [.inr e])).Nodup
    rw [callsOf, List.filterMap_append]
    exact (List.append_nil _).symm ▸ h.once

/-! ## Steps -/

variable [DecidableEq ι]

/-- A call that returns at its test takes effect there, and one that enters at its last
statement. -/
def step : ι ⊕ E → World M E P kind → World M E P kind
  | .inl i, w =>
    match w.place i with
    | .before =>
      if G.flag w.memory = kind i then
        { w with place := Function.update w.place i (.inside (G.first (kind i))) }
      else
        { w with
          place := Function.update w.place i (.done false)
          order := w.order ++ [.inl i] }
    | .inside p =>
      match G.exec (kind i) p w.memory with
      | (m, some q) => { w with memory := m, place := Function.update w.place i (.inside q) }
      | (m, none) =>
        { memory := m
          place := Function.update w.place i (.done true)
          order := w.order ++ [.inl i] }
    | .done _ => w
  | .inr e, w => { w with memory := G.event e w.memory, order := w.order ++ [.inr e] }

theorem step_before {i : ι} (hplace : w.place i = .before) : G.step (.inl i) w =
    if G.flag w.memory = kind i then
      { w with place := Function.update w.place i (.inside (G.first (kind i))) }
    else
      { w with
        place := Function.update w.place i (.done false)
        order := w.order ++ [.inl i] } := by
  simp only [step, hplace]

theorem step_more {i : ι} {p q : P (kind i)} {m : M} (hplace : w.place i = .inside p)
    (hexec : G.exec (kind i) p w.memory = (m, some q)) : G.step (.inl i) w =
      { w with memory := m, place := Function.update w.place i (.inside q) } := by
  simp only [step, hplace, hexec]

theorem step_last {i : ι} {p : P (kind i)} {m : M} (hplace : w.place i = .inside p)
    (hexec : G.exec (kind i) p w.memory = (m, none)) : G.step (.inl i) w =
      ⟨m, Function.update w.place i (.done true), w.order ++ [.inl i]⟩ := by
  simp only [step, hplace, hexec]

theorem step_done {i : ι} {entered : Bool} (hplace : w.place i = .done entered) :
    G.step (.inl i) w = w := by
  simp only [step, hplace]

/-- A step of the call `i`, from what becomes of it and what the others are inside of. -/
theorem serial_update (h : G.Inv m₀ w) {i : ι} {place : Place (P (kind i))} {w' : World M E P kind}
    {ls : List (ι ⊕ E)} (hplace : w'.place = Function.update w.place i place)
    (horder : w'.order = w.order ++ ls) (hls : ∀ j, .inl j ∈ ls → j = i)
    (hothers : ∀ j ≠ i, (w.place j).Inside →
      w'.memory = w.memory ∧ G.settled m₀ w' = G.settled m₀ w)
    (hi : G.Serial m₀ w' i place) (j : ι) : G.Serial m₀ w' j (w'.place j) := by
  rw [hplace]
  by_cases hj : j = i
  · subst hj
    rwa [Function.update_self]
  · rw [Function.update_of_ne hj]
    exact (h.serial j).grow horder (fun hmem => hj (hls j hmem)) (hothers j hj)

/-- Who is inside after a step of the call `i`. -/
theorem inside_update {i j : ι} {place : Place (P (kind i))}
    (h : (Function.update w.place i place j).Inside) :
    (j = i ∧ place.Inside) ∨ (j ≠ i ∧ (w.place j).Inside) := by
  by_cases hj : j = i
  · subst hj
    rw [Function.update_self] at h
    exact .inl ⟨rfl, h⟩
  · rw [Function.update_of_ne hj] at h
    exact .inr ⟨hj, h⟩

theorem inv_enter (h : G.Inv m₀ w) {i : ι} (hplace : w.place i = .before)
    (hflag : G.flag w.memory = kind i) (hnobody : ∀ j, ¬ (w.place j).Inside) :
    G.Inv m₀ { w with place := Function.update w.place i (.inside (G.first (kind i))) } where
  alone := by
    intro j k hj hk
    rcases inside_update hj with ⟨rfl, -⟩ | ⟨-, hj⟩
    · rcases inside_update hk with ⟨rfl, -⟩ | ⟨-, hk⟩
      · rfl
      · exact absurd hk (hnobody k)
    · exact absurd hj (hnobody j)
  quiet := by
    intro hout
    have hin : (Function.update w.place i (.inside (G.first (kind i))) i).Inside := by
      rw [Function.update_self]
      trivial
    exact absurd hin (hout i)
  serial := by
    have hserial := h.serial i
    rw [hplace] at hserial
    have hsettled : G.flag (G.settled m₀ w) = kind i := h.flag_settled.trans hflag
    refine serial_update h rfl (List.append_nil _).symm (by simp) ?_ ?_
    · exact fun j _ hj => absurd hj (hnobody j)
    · exact ⟨hserial, hsettled, hflag, by rw [h.quiet hnobody]; rfl⟩
  once := h.once

theorem inv_refuse (h : G.Inv m₀ w) {i : ι} (hplace : w.place i = .before)
    (hflag : G.flag w.memory ≠ kind i) : G.Inv m₀
      { w with
        place := Function.update w.place i (.done false)
        order := w.order ++ [.inl i] } := by
  have hserial := h.serial i
  rw [hplace] at hserial
  have hne : G.flag (G.settled m₀ w) ≠ kind i := by rwa [h.flag_settled]
  have hsettled : G.settled m₀ ⟨w.memory, Function.update w.place i (.done false),
      w.order ++ [.inl i]⟩ = G.settled m₀ w := by
    rw [settled_snoc]
    exact if_neg hne
  constructor
  · intro j k hj hk
    rcases inside_update hj with ⟨-, hj⟩ | ⟨-, hj⟩
    · exact hj.elim
    · rcases inside_update hk with ⟨-, hk⟩ | ⟨-, hk⟩
      · exact hk.elim
      · exact h.alone j k hj hk
  · intro hout
    rw [hsettled]
    apply h.quiet
    intro j hj
    apply hout j
    show (Function.update w.place i (.done false) j).Inside
    rwa [Function.update_of_ne]
    rintro rfl
    rw [hplace] at hj
    exact hj
  · refine serial_update h rfl rfl (by simp) (fun j _ _ => ⟨rfl, hsettled⟩) ?_
    exact ⟨w.order, [], rfl, (decide_eq_false hne).symm⟩
  · exact h.once_snoc hserial

theorem inv_more (h : G.Inv m₀ w) {i : ι} {p q : P (kind i)} {m : M}
    (hplace : w.place i = .inside p) (hexec : G.exec (kind i) p w.memory = (m, some q)) :
    G.Inv m₀ { w with memory := m, place := Function.update w.place i (.inside q) } where
  alone := by
    intro j k hj hk
    rcases inside_update hj with ⟨rfl, -⟩ | ⟨hne, hj⟩
    · rcases inside_update hk with ⟨rfl, -⟩ | ⟨hne, hk⟩
      · rfl
      · exact absurd hk (h.others hplace k hne)
    · exact absurd hj (h.others hplace j hne)
  quiet := by
    intro hout
    have hin : (Function.update w.place i (.inside q) i).Inside := by
      rw [Function.update_self]
      trivial
    exact absurd hin (hout i)
  serial := by
    obtain ⟨hnot, hsettled, hflag, hfinish⟩ := h.inside hplace
    refine serial_update h rfl (List.append_nil _).symm (by simp) ?_ ?_
    · exact fun j hne hj => absurd hj (h.others hplace j hne)
    · exact ⟨hnot, hsettled, (G.keeps hexec).trans hflag, (G.finish_some hexec).symm.trans hfinish⟩
  once := h.once

theorem inv_last (h : G.Inv m₀ w) {i : ι} {p : P (kind i)} {m : M}
    (hplace : w.place i = .inside p) (hexec : G.exec (kind i) p w.memory = (m, none)) :
    G.Inv m₀ ⟨m, Function.update w.place i (.done true), w.order ++ [.inl i]⟩ := by
  obtain ⟨hnot, hsettled, hflag, hfinish⟩ := h.inside hplace
  have hnobody : ∀ j, ¬ (Function.update w.place i (.done true) j).Inside := by
    intro j hj
    rcases inside_update hj with ⟨-, hj⟩ | ⟨hne, hj⟩
    · exact hj
    · exact h.others hplace j hne hj
  constructor
  · exact fun j k hj _ => absurd hj (hnobody j)
  · intro _
    rw [settled_snoc]
    show m = if _ then _ else _
    rw [if_pos hsettled, ← hfinish, G.finish_none hexec]
  · refine serial_update h rfl rfl (by simp) ?_ ?_
    · exact fun j hne hj => absurd hj (h.others hplace j hne)
    · exact ⟨w.order, [], rfl, (decide_eq_true hsettled).symm⟩
  · exact h.once_snoc hnot

/-- **A step.** -/
theorem inv_step (h : G.Inv m₀ w) (l : ι ⊕ E) (horderly : G.Orderly w l) :
    G.Inv m₀ (G.step l w) := by
  cases l with
  | inl i =>
    cases hplace : w.place i with
    | before =>
      rw [step_before hplace]
      by_cases hflag : G.flag w.memory = kind i
      · rw [if_pos hflag]
        apply inv_enter h hplace hflag
        intro j hj
        have hne := horderly (by rw [hplace]; trivial) hflag j hj
        exact hne ((h.flag_of_inside hj).symm.trans hflag)
      · rw [if_neg hflag]
        exact inv_refuse h hplace hflag
    | inside p =>
      cases hexec : G.exec (kind i) p w.memory with
      | mk m next =>
        cases next with
        | some q =>
          rw [step_more hplace hexec]
          exact inv_more h hplace hexec
        | none =>
          rw [step_last hplace hexec]
          exact inv_last h hplace hexec
    | done entered =>
      rw [step_done hplace]
      exact h
  | inr e => exact inv_event h horderly

/-- **The calls are serial.** In every run that is orderly, at most one call is inside at any time;
a call that has returned entered just when it would have in the history, after what stands before it
there; and while no call is inside, the memory is that of the history. -/
theorem linearizable {kind : ι → Bool} {ls : List (ι ⊕ E)}
    (h : Along G.step G.Orderly ls (start m₀ : World M E P kind)) :
    G.Inv m₀ (run G.step ls (start m₀ : World M E P kind)) :=
  run_guarded (G := G.Orderly) (fun l _ hinv hl => inv_step hinv l hl) (inv_start m₀) h

end Protocol

end Gate
