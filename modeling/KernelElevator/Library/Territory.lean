import KernelElevator.Library.FrontRemoval
import Mathlib.Data.Set.Basic

/-!
# Insertions into several rings, whatever becomes of them

Each insertion belongs to one of several rings. It reads and writes the links of this ring's
*territory* only: the list head, the nodes that were in the ring at the start, and the new nodes for
it. This is so whether or not the moves are timely, so a ring that has been ruined does not harm
another one.

**Projection.** What a run does to a territory is what the insertions of its own ring do, run
without the others.

* `moveIn` — an insertion moves on, in the ring it belongs to.
* `Within` — an insertion has met nodes of its own territory only.
* `run_same`, `along_same` — the projection, for the links and for the timeliness of the moves.
* `isRing_in_iff` — a ring keeps everybody if and only if its own moves are timely.
-/

namespace Ring

open Machine

variable {N : Type*} [DecidableEq N]

/-! ## One territory -/

/-- Two configurations are the same there. -/
def Same (T : Set N) (c c' : Config N) : Prop := ∀ x ∈ T, Agree c c' x

/-- The tail, and the tails that have been read, are there. -/
structure Within (head : N) (T : Set N) (c : Config N) : Prop where
  tail : c.links.prev head ∈ T
  read : ∀ n ∈ T, ∀ t, c.stage n = .read t ∨ t ∈ (c.stage n).tail → t ∈ T

section One

variable {head n : N} {T : Set N} {c c' : Config N}

omit [DecidableEq N] in
theorem Within.congr (h : Within head T c) (hhead : head ∈ T) (hsame : Same T c c') :
    Within head T c' := by
  refine ⟨?_, ?_⟩
  · rw [(hsame head hhead).2.2]
    exact h.tail
  · intro m hm t ht
    rw [(hsame m hm).1] at ht
    exact h.read m hm t ht

theorem Within.move (h : Within head T c) (hn : n ∈ T) : Within head T (move head n c) := by
  refine ⟨?_, ?_⟩
  · unfold Ring.move
    cases hstage : c.stage n with
    | read t => simpa using hn
    | nextSet t =>
      by_cases hhead : head = n
      · simpa [hhead] using h.read n hn t (.inr (by rw [hstage]; rfl))
      · simpa [hhead] using h.tail
    | _ => exact h.tail
  · intro m hm t ht
    by_cases hmn : m = n
    · subst hmn
      rcases ht with ht | ht
      · unfold Ring.move at ht
        cases hstage : c.stage m with
        | start =>
          simp only [hstage, Function.update_self, Stage.read.injEq] at ht
          exact ht ▸ h.tail
        | done => simp [hstage] at ht
        | _ => simp [hstage] at ht
      · exact h.read m hm t (tail_of_move ht).symm
    · rw [move_stage_ne hmn] at ht
      exact h.read m hm t ht

/-- A move within the territory looks nowhere else. -/
theorem Same.move (h : Same T c c') (hhead : head ∈ T) (hn : n ∈ T) :
    Same T (move head n c) (move head n c') := by
  intro x hx
  obtain ⟨hstage, hnext, hprev⟩ := h x hx
  have hn' := (h n hn).1
  have hhead' := (h head hhead).2.2
  unfold Ring.move
  rw [hn']
  cases c.stage n with
  | done => exact ⟨hstage, hnext, hprev⟩
  | start => exact ⟨by simp [Function.update_apply, hstage, hhead'], hnext, hprev⟩
  | read t =>
    exact ⟨by simp [Function.update_apply, hstage], hnext, by simp [Function.update_apply, hprev]⟩
  | headSet t =>
    exact ⟨by simp [Function.update_apply, hstage], by simp [Function.update_apply, hnext], hprev⟩
  | nextSet t =>
    exact ⟨by simp [Function.update_apply, hstage], hnext, by simp [Function.update_apply, hprev]⟩
  | prevSet t =>
    exact ⟨by simp [Function.update_apply, hstage], by simp [Function.update_apply, hnext], hprev⟩

omit [DecidableEq N] in
/-- Nor does it take more to tell whether it is timely. -/
theorem Same.timely_iff (h : Same T c c') (hhead : head ∈ T) (hn : n ∈ T)
    (hwithin : Within head T c) : Timely head c n ↔ Timely head c' n := by
  rw [Timely, Timely, (h n hn).1, (h head hhead).2.2]
  refine and_congr_right fun _ => forall_congr' fun t => imp_congr_right fun ht => ?_
  rw [(h t (hwithin.read n hn t (.inr (by rw [ht]; rfl)))).1]

end One

/-! ## Several territories -/

section Several

variable {ι : Type*} (head : ι → N) (owner : N → Option ι)

/-- The insertion of `n` moves on, in the ring it belongs to. -/
def moveIn (n : N) (c : Config N) : Config N :=
  match owner n with
  | some i => move (head i) n c
  | none => c

/-- No two territories share a node; each has its list head and the new nodes of its ring. -/
structure Territories (T : ι → Set N) : Prop where
  disjoint : ∀ i j, i ≠ j → ∀ x ∈ T i, x ∉ T j
  head_mem : ∀ i, head i ∈ T i
  owned : ∀ n i, owner n = some i → n ∈ T i

variable {head owner} {T : ι → Set N} {c c' : Config N} {n : N} {i j : ι}

/-- A move leaves the other territories alone. -/
theorem Territories.same_of_ne (h : Territories head owner T) (hwithin : Within (head j) (T j) c)
    (hj : owner n = some j) (hij : i ≠ j) : Same (T i) c (move (head j) n c) := by
  intro x hx
  have hout : ∀ y ∈ T j, x ≠ y := by
    rintro y hy rfl
    exact h.disjoint i j hij x hx hy
  have hn := h.owned n j hj
  refine move_agree (hout _ (h.head_mem j)) (hout n hn) fun t ht => ?_
  exact hout t (hwithin.read n hn t (.inr (by rw [ht]; rfl)))

theorem Territories.within (h : Territories head owner T)
    (hwithin : ∀ i, Within (head i) (T i) c) (n : N) (i : ι) :
    Within (head i) (T i) (moveIn head owner n c) := by
  unfold moveIn
  cases hn : owner n with
  | none => exact hwithin i
  | some j =>
    by_cases hij : i = j
    · subst hij
      exact (hwithin i).move (h.owned n i hn)
    · exact (hwithin i).congr (h.head_mem i) (h.same_of_ne (hwithin j) hn hij)

variable [DecidableEq ι]

/-- The moves of one ring. -/
def ownMoves (owner : N → Option ι) (i : ι) (moves : List N) : List N :=
  moves.filter (owner · = some i)

/-- One move, for ring `i` and for the run of its own moves. -/
theorem Territories.same_move (h : Territories head owner T)
    (hwithin : ∀ i, Within (head i) (T i) c) (hsame : Same (T i) c c') (n : N) :
    Same (T i) (moveIn head owner n c) (run (move (head i)) (ownMoves owner i [n]) c') := by
  unfold moveIn ownMoves
  cases hn : owner n with
  | none =>
    rw [List.filter_singleton, hn]
    exact hsame
  | some j =>
    by_cases hij : i = j
    · subst hij
      rw [List.filter_singleton, hn]
      simpa using hsame.move (h.head_mem i) (h.owned n i hn)
    · have hother := h.same_of_ne (hwithin j) hn hij
      rw [List.filter_singleton, hn]
      intro x hx
      obtain ⟨hstage, hnext, hprev⟩ := hother x hx
      obtain ⟨hstage', hnext', hprev'⟩ := hsame x hx
      simp only [Option.some.injEq, Ne.symm hij, decide_false]
      exact ⟨hstage'.trans hstage.symm, hnext'.trans hnext.symm, hprev'.trans hprev.symm⟩

omit [DecidableEq N] in
theorem ownMoves_cons (moves : List N) :
    ownMoves owner i (n :: moves) = ownMoves owner i [n] ++ ownMoves owner i moves :=
  List.filter_append [n] moves

/-- **Projection of the links.** -/
theorem Territories.run_same (h : Territories head owner T)
    (hwithin : ∀ i, Within (head i) (T i) c) (hsame : Same (T i) c c') (moves : List N) :
    Same (T i) (run (moveIn head owner) moves c)
      (run (move (head i)) (ownMoves owner i moves) c') := by
  induction moves generalizing c c' with
  | nil => exact hsame
  | cons n moves ih =>
    rw [ownMoves_cons, run_append]
    exact ih (h.within hwithin n) (h.same_move hwithin hsame n)

/-- **Projection of the moves.** -/
theorem Territories.along_same (h : Territories head owner T)
    (hwithin : ∀ i, Within (head i) (T i) c) (hsame : Same (T i) c c') (moves : List N) :
    Along (moveIn head owner) (fun c n => owner n = some i → Timely (head i) c n) moves c ↔
      Along (move (head i)) (Timely (head i)) (ownMoves owner i moves) c' := by
  induction moves generalizing c c' with
  | nil => exact Iff.rfl
  | cons n moves ih =>
    rw [ownMoves_cons, along_append, Along,
      ih (h.within hwithin n) (h.same_move hwithin hsame n)]
    refine and_congr_left fun _ => ?_
    rw [ownMoves, List.filter_singleton]
    by_cases hn : owner n = some i
    · have htimely := hsame.timely_iff (h.head_mem i) (h.owned n i hn) (hwithin i)
      simpa [hn, Along] using htimely
    · simp [hn, Along]

/-! ## From the start -/

variable {s : Links N} {xs own : ι → List N} {news moves : List N}

/-- What is known before the first move. -/
structure Apart (head : ι → N) (owner : N → Option ι) (s : Links N) (xs own : ι → List N)
    (news : List N) : Prop where
  rings : ∀ i, IsRing s (head i) (xs i)
  disjoint : ∀ i j, i ≠ j → List.Disjoint (head i :: xs i) (head j :: xs j)
  new : ∀ n ∈ news, ∀ i, n ∉ head i :: xs i
  mem : ∀ n i, n ∈ own i ↔ owner n = some i
  nodup : ∀ i, (own i).Nodup
  subset : ∀ i, ∀ n ∈ own i, n ∈ news

def territory (head : ι → N) (xs own : ι → List N) (i : ι) : Set N :=
  {x | x ∈ head i :: xs i ∨ x ∈ own i}

omit [DecidableEq N] [DecidableEq ι] in
theorem Apart.territories (h : Apart head owner s xs own news) :
    Territories head owner (territory head xs own) := by
  refine ⟨?_, fun i => .inl List.mem_cons_self, fun n i hn => .inr ((h.mem n i).2 hn)⟩
  rintro i j hij x (hx | hx) (hx' | hx')
  · exact h.disjoint i j hij hx hx'
  · exact h.new x (h.subset j x hx') i hx
  · exact h.new x (h.subset i x hx) j hx'
  · exact hij (Option.some.inj (((h.mem x i).1 hx).symm.trans ((h.mem x j).1 hx')))

omit [DecidableEq ι] in
theorem Apart.within_begin (h : Apart head owner s xs own news) (i : ι) :
    Within (head i) (territory head xs own i) (begin s news) := by
  refine ⟨.inl (h.rings i).chain.prev_last_mem, ?_⟩
  intro n _ t ht
  by_cases hn : n ∈ news
  · simp [begin, hn, Stage.tail] at ht
  · simp [begin, hn, Stage.tail] at ht

omit [DecidableEq ι] in
theorem Apart.same_begin (h : Apart head owner s xs own news) (i : ι) :
    Same (territory head xs own i) (begin s news) (begin s (own i)) := by
  intro x hx
  refine ⟨?_, rfl, rfl⟩
  have hiff : x ∈ own i ↔ x ∈ news := by
    refine ⟨h.subset i x, fun hnew => ?_⟩
    exact hx.resolve_left (h.new x hnew i)
  simp only [begin, hiff]

/-- **A ring keeps everybody if and only if its own moves are timely**, whatever the insertions into
the other rings do. -/
theorem isRing_in_iff (h : Apart head owner s xs own news) (i : ι)
    (hdone : ∀ n ∈ own i, (run (moveIn head owner) moves (begin s news)).stage n = .done) :
    (∃ ys, ys.Perm (xs i ++ own i) ∧
        IsRing (run (moveIn head owner) moves (begin s news)).links (head i) ys) ↔
      Along (moveIn head owner) (fun c n => owner n = some i → Timely (head i) c n) moves
        (begin s news) := by
  have hsame := h.territories.run_same h.within_begin (h.same_begin i) moves
  have hnew : ∀ n ∈ own i, n ∉ head i :: xs i := fun n hn => h.new n (h.subset i n hn) i
  rw [h.territories.along_same h.within_begin (h.same_begin i) moves,
    ← isRing_iff_timely (h.rings i) (h.nodup i) hnew ?_]
  · refine exists_congr fun ys => and_congr_right fun hperm => ?_
    have hland : ∀ x ∈ head i :: ys, x ∈ territory head xs own i := by
      intro x hx
      rcases List.mem_cons.1 hx with rfl | hx
      · exact .inl List.mem_cons_self
      · exact (List.mem_append.1 (hperm.mem_iff.1 hx)).imp_left (List.mem_cons_of_mem _)
    constructor
    · intro hring
      exact hring.congr fun x hx => (hsame x (hland x hx)).2
    · intro hring
      refine hring.congr fun x hx => ?_
      obtain ⟨-, hnext, hprev⟩ := hsame x (hland x hx)
      exact ⟨hnext.symm, hprev.symm⟩
  · intro n hn
    rw [(hsame n (.inr hn)).1]
    exact hdone n hn

end Several

end Ring
