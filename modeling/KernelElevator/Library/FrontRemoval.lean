import KernelElevator.Library.LinkedLists

/-!
# Removal at the front, while others insert

Several rings in the making, no two of which share a node. Insertions at their tails are under way,
and a node at the front of a ring, which is linked in already, is taken out by two writes.

The two writes meet the insertions at the list head only: when the node is the last one, the first
of them writes `head->prev`. It is *clear* if `head->prev` is then still the node that is taken out.

* `Making` — a ring in the making, and where the links of its nodes lead.
* `Making.unlink` — a clear removal leaves the rest of the ring.
* `AllMaking` — several of them; `AllMaking.move`, `AllMaking.unlink`, `AllMaking.outside` — what
  the rest keeps when one is changed, or none.
-/

namespace Ring

variable {N : Type*} [DecidableEq N]

/-! ## One ring -/

/-- `c'` is `c` as far as `x` is concerned. -/
def Agree (c c' : Config N) (x : N) : Prop :=
  c'.stage x = c.stage x ∧ c'.links.next x = c.links.next x ∧ c'.links.prev x = c.links.prev x

/-- `x->next` is `head`, or the node that has linked itself behind `x`. -/
def Leads (head : N) (c : Config N) (xs : List N) (x : N) : Prop :=
  c.links.next x = head ∨
    c.links.next x ∈ xs ∧ c.stage (c.links.next x) = .done ∧ c.links.prev (c.links.next x) = x

structure Making (head : N) (c : Config N) (xs : List N) : Prop where
  forming : Forming head c head xs
  nodup : (head :: xs).Nodup
  idle : c.stage head = .done
  entered : ∀ x ∈ xs, (c.stage x).Entered
  leads : ∀ x ∈ head :: xs, (c.stage x).Settled → Leads head c xs x

section Making

variable {head x n : N} {c c' : Config N} {xs ys : List N}

omit [DecidableEq N] in
theorem Forming.prev_head_mem {a : N} (h : Forming head c a xs) : c.links.prev head ∈ a :: xs := by
  induction xs generalizing a with
  | nil => exact List.mem_singleton.2 h.2
  | cons b bs ih => exact List.mem_cons_of_mem _ (ih h.2)

omit [DecidableEq N] in
/-- `head->prev` points to the last node. -/
theorem Forming.eq_nil {a : N} (h : Forming head c a xs) (hnodup : (a :: xs).Nodup)
    (hprev : c.links.prev head = a) : xs = [] := by
  cases xs with
  | nil => rfl
  | cons b bs =>
    have hlast := h.2.prev_head_mem
    rw [hprev] at hlast
    exact absurd hlast (List.nodup_cons.1 hnodup).1

omit [DecidableEq N] in
/-- The predecessor of a node that is done. -/
theorem Forming.prev_mem {a b : N} (h : Forming head c a xs) (hb : b ∈ xs)
    (hdone : c.stage b = .done) : c.links.prev b ∈ a :: xs := by
  induction xs generalizing a with
  | nil => cases hb
  | cons d ds ih =>
    rcases List.mem_cons.1 hb with rfl | hb
    · rw [h.1.backed (by rw [hdone]; trivial)]
      exact List.mem_cons_self
    · exact List.mem_cons_of_mem _ (ih h.2 hb)

omit [DecidableEq N] in
/-- A node that is done and has `a` for its predecessor comes right after `a`. -/
theorem Forming.eq_cons {a b : N} (h : Forming head c a xs) (hnodup : (a :: xs).Nodup)
    (hb : b ∈ xs) (hdone : c.stage b = .done) (hprev : c.links.prev b = a) :
    ∃ bs, xs = b :: bs := by
  cases xs with
  | nil => cases hb
  | cons d ds =>
    rcases List.mem_cons.1 hb with rfl | hb
    · exact ⟨ds, rfl⟩
    · have hmem := h.2.prev_mem hb hdone
      rw [hprev] at hmem
      exact absurd hmem (List.nodup_cons.1 hnodup).1

omit [DecidableEq N] in
theorem Leads.congr (h : Leads head c xs x) (hx : c'.links.next x = c.links.next x)
    (hys : ∀ y ∈ xs, c.stage y = .done → c.links.prev y = x →
      y ∈ ys ∧ c'.stage y = .done ∧ c'.links.prev y = x) : Leads head c' ys x := by
  rw [Leads, hx]
  rcases h with hhead | ⟨hmem, hdone, hprev⟩
  · exact .inl hhead
  · exact .inr (hys _ hmem hdone hprev)

omit [DecidableEq N] in
/-- A ring in the making does not see what happens elsewhere. -/
theorem Making.congr (h : Making head c xs)
    (hagree : ∀ x ∈ head :: xs, Agree c c' x) : Making head c' xs := by
  have hxs : ∀ x ∈ xs, c'.stage x = c.stage x :=
    fun x hx => (hagree x (List.mem_cons_of_mem _ hx)).1
  have hhead := (hagree head List.mem_cons_self).1
  refine ⟨h.forming.congr (by rw [hhead]) hxs (fun x hx => (hagree x hx).2.1)
    (fun x hx => (hagree x hx).2.2), h.nodup, hhead.trans h.idle, ?_, ?_⟩
  · intro x hx
    rw [hxs x hx]
    exact h.entered x hx
  · intro x hx hsettled
    rw [(hagree x hx).1] at hsettled
    refine (h.leads x hx hsettled).congr (hagree x hx).2.1 ?_
    intro y hy hdone hprev
    exact ⟨hy, (hxs y hy).trans hdone, (hagree y (List.mem_cons_of_mem _ hy)).2.2.trans hprev⟩

omit [DecidableEq N] in
theorem Chain.leads {s : Links N} {a : N} (h : Chain s head a xs) (hx : x ∈ a :: xs) :
    s.next x = head ∨ s.next x ∈ xs ∧ s.prev (s.next x) = x := by
  induction xs generalizing a with
  | nil =>
    rw [List.mem_singleton.1 hx]
    exact .inl h.1
  | cons b bs ih =>
    rcases List.mem_cons.1 hx with rfl | hx
    · rw [h.1.1]
      exact .inr ⟨List.mem_cons_self, h.1.2⟩
    · rcases ih h.2 hx with hhead | ⟨hmem, hprev⟩
      · exact .inl hhead
      · exact .inr ⟨List.mem_cons_of_mem _ hmem, hprev⟩

omit [DecidableEq N] in
theorem making_of_isRing (h : IsRing c.links head xs)
    (hdone : ∀ x ∈ head :: xs, c.stage x = .done) : Making head c xs := by
  refine ⟨forming_of_chain h.chain hdone, h.nodup, hdone head List.mem_cons_self, ?_, ?_⟩
  · intro x hx
    rw [hdone x (List.mem_cons_of_mem _ hx)]
    trivial
  · intro x hx _
    rcases h.chain.leads hx with hhead | ⟨hmem, hprev⟩
    · exact .inl hhead
    · exact .inr ⟨hmem, hdone _ (List.mem_cons_of_mem _ hmem), hprev⟩

omit [DecidableEq N] in
theorem Making.isRing (h : Making head c xs) (hdone : ∀ x ∈ xs, c.stage x = .done) :
    IsRing c.links head xs :=
  ⟨h.forming.chain (by rw [h.idle]; trivial) hdone, h.nodup⟩

/-- The nodes of the ring after a move of `n`. -/
def grown (c : Config N) (n : N) (xs : List N) : List N :=
  match c.stage n with
  | .read _ => xs ++ [n]
  | _ => xs

omit [DecidableEq N] in
/-- The tail that a node goes by is its predecessor. -/
theorem Forming.prev_eq_tail {a t : N} (h : Forming head c a xs) (hn : n ∈ xs)
    (ht : t ∈ (c.stage n).tail) (hbacked : (c.stage n).Backed) : c.links.prev n = t := by
  induction xs generalizing a with
  | nil => cases hn
  | cons b bs ih =>
    rcases List.mem_cons.1 hn with rfl | hn
    · rw [h.1.backed hbacked, h.1.tail t ht]
    · exact ih h.2 hn

omit [DecidableEq N] in
theorem Making.head_ne (h : Making head c xs) (hx : x ∈ xs) : x ≠ head :=
  fun heq => (List.nodup_cons.1 h.nodup).1 (heq ▸ hx)

omit [DecidableEq N] in
/-- A node that is not about to set its link has set it. -/
theorem Making.settled (h : Making head c xs) (hx : x ∈ head :: xs)
    (hset : ∀ u, c.stage x ≠ .headSet u) : (c.stage x).Settled := by
  rcases List.mem_cons.1 hx with rfl | hx
  · rw [h.idle]
    trivial
  · have hentered := h.entered x hx
    cases hstage : c.stage x with
    | start => simp [hstage, Stage.Entered] at hentered
    | read u => simp [hstage, Stage.Entered] at hentered
    | headSet u => exact absurd hstage (hset u)
    | _ => trivial

/-- A move of a node of the ring keeps what does not concern its links. -/
theorem Making.moved (h : Making head c xs) (hn : n ∈ xs) {stage : Stage N}
    (hstage : c'.stage = Function.update c.stage n stage) (he : stage.Entered)
    (hforming : Forming head c' head xs)
    (hleads : ∀ x ∈ head :: xs, (c'.stage x).Settled → Leads head c' xs x) :
    Making head c' xs := by
  refine ⟨hforming, h.nodup, ?_, ?_, hleads⟩
  · rw [hstage, Function.update_of_ne (h.head_ne hn).symm]
    exact h.idle
  · intro x hx
    rw [hstage]
    by_cases hxn : x = n
    · rw [hxn, Function.update_self]
      exact he
    · rw [Function.update_of_ne hxn]
      exact h.entered x hx

/-- **A timely insertion keeps the ring in the making**, and adds a node when it writes
`head->prev`. -/
theorem Making.move (h : Making head c xs) (hn : n ≠ head)
    (hfresh : ¬ (c.stage n).Entered → n ∉ head :: xs) (hmem : ∀ t ∈ (c.stage n).tail, n ∈ xs)
    (htimely : Timely head c n) : Making head (move head n c) (grown c n xs) := by
  cases hstage : c.stage n with
  | start =>
    have hout : n ∉ head :: xs := hfresh (by simp [hstage, Stage.Entered])
    rw [Ring.move, grown, hstage]
    refine h.congr ?_
    intro x hx
    have hxn : x ≠ n := fun heq => hout (heq ▸ hx)
    exact ⟨Function.update_of_ne hxn _ _, rfl, rfl⟩
  | read t =>
    have hout : n ∉ head :: xs := hfresh (by simp [hstage, Stage.Entered])
    rw [Ring.move, grown, hstage]
    have hne : ∀ y ∈ xs, y ≠ n := fun y hy heq => hout (heq ▸ List.mem_cons_of_mem _ hy)
    refine ⟨forming_enter (htimely.1 t hstage) h.forming (List.nodup_cons.1 h.nodup).1 hout,
      ?_, ?_, ?_, ?_⟩
    · rw [← List.cons_append]
      refine List.nodup_append.2 ⟨h.nodup, List.nodup_singleton n, ?_⟩
      intro x hx y hy heq
      rw [List.mem_singleton.1 hy] at heq
      exact hout (heq ▸ hx)
    · exact (Function.update_of_ne hn.symm _ _).trans h.idle
    · intro x hx
      rcases List.mem_append.1 hx with hx | hx
      · simpa [hne x hx] using h.entered x hx
      · rw [List.mem_singleton.1 hx]
        simp [Stage.Entered]
    · intro x hx hsettled
      by_cases hxn : x = n
      · simp [hxn, Stage.Settled] at hsettled
      · have hx : x ∈ head :: xs := by simpa [hxn] using hx
        refine (h.leads x hx (by simpa [hxn] using hsettled)).congr rfl ?_
        intro y hy hdone hprev
        exact ⟨List.mem_append_left _ hy, by simpa [hne y hy] using hdone,
          by simpa [h.head_ne hy] using hprev⟩
  | headSet t =>
    have hns : n ∈ xs := hmem t (by rw [hstage]; rfl)
    rw [Ring.move, grown, hstage]
    refine h.moved hns rfl trivial (forming_setNext hstage h.forming hns h.nodup) ?_
    intro x hx hsettled
    by_cases hxn : x = n
    · left
      simp [hxn]
    · refine (h.leads x hx (by simpa [hxn] using hsettled)).congr ?_ ?_
      · simp [hxn]
      · intro y hy hdone hprev
        have hyn : y ≠ n := fun heq => by simp [heq, hstage] at hdone
        exact ⟨hy, by simpa [hyn] using hdone, hprev⟩
  | nextSet t =>
    have hns : n ∈ xs := hmem t (by rw [hstage]; rfl)
    rw [Ring.move, grown, hstage]
    refine h.moved hns rfl trivial (forming_setPrev hstage h.forming hns hn h.nodup) ?_
    intro x hx hsettled
    refine (h.leads x hx ?_).congr rfl ?_
    · by_cases hxn : x = n
      · rw [hxn, hstage]
        trivial
      · simpa [hxn] using hsettled
    · intro y hy hdone hprev
      have hyn : y ≠ n := fun heq => by simp [heq, hstage] at hdone
      exact ⟨hy, by simpa [hyn] using hdone, by simpa [hyn] using hprev⟩
  | prevSet t =>
    have ht : t ∈ (c.stage n).tail := by rw [hstage]; rfl
    have hns : n ∈ xs := hmem t ht
    have hsettled := h.settled (h.forming.tail_mem hns ht) (htimely.2 t hstage)
    have hprev : c.links.prev n = t := h.forming.prev_eq_tail hns ht (by rw [hstage]; trivial)
    rw [Ring.move, grown, hstage]
    refine h.moved hns rfl trivial (forming_link hstage hsettled h.forming hns h.nodup) ?_
    intro x hx hx'
    by_cases hxt : x = t
    · right
      simp [hxt, hns, hprev]
    · refine (h.leads x hx ?_).congr ?_ ?_
      · by_cases hxn : x = n
        · rw [hxn, hstage]
          trivial
        · simpa [hxn] using hx'
      · simp [hxt]
      · intro y hy hdone hprev
        have hyn : y ≠ n := fun heq => by simp [heq, hstage] at hdone
        exact ⟨hy, by simpa [hyn] using hdone, hprev⟩
  | done =>
    rw [Ring.move, grown, hstage]
    exact h

/-! ## Removal -/

omit [DecidableEq N] in
/-- What the links of the node at the front say; if `head->prev` is that node, it is alone. -/
theorem Making.front (h : Making head c (x :: xs)) (hx : c.stage x = .done) :
    c.links.prev x = head ∧
      (c.links.next x = head ∨ ∃ ys, xs = c.links.next x :: ys ∧
        c.stage (c.links.next x) = .done) := by
  have hprev : c.links.prev x = head := h.forming.1.backed (by rw [hx]; trivial)
  refine ⟨hprev, ?_⟩
  have hleads := h.leads x (List.mem_cons_of_mem _ List.mem_cons_self) (by rw [hx]; trivial)
  refine hleads.imp_right ?_
  rintro ⟨hmem, hdone, hback⟩
  have hne : c.links.next x ≠ x := by
    intro heq
    rw [heq, hprev] at hback
    exact h.head_ne List.mem_cons_self hback.symm
  have hmem : c.links.next x ∈ xs := (List.mem_cons.1 hmem).resolve_left hne
  obtain ⟨ys, hys⟩ := h.forming.2.eq_cons (List.nodup_cons.1 h.nodup).2 hmem hdone hback
  exact ⟨ys, hys, hdone⟩

/-- **A clear removal leaves the rest of the ring.** -/
theorem Making.unlink (h : Making head c (x :: xs)) (hx : c.stage x = .done)
    (hclear : c.links.next x = head → c.links.prev head = x) :
    Making head { c with links := c.links.unlink x } xs := by
  obtain ⟨hprev, hnext⟩ := h.front hx
  obtain ⟨hhead, hnodup⟩ := List.nodup_cons.1 h.nodup
  have hxhead : x ≠ head := h.head_ne List.mem_cons_self
  rcases hnext with hnext | ⟨ys, rfl, hdone⟩
  · obtain rfl : xs = [] := h.forming.2.eq_nil hnodup (hclear hnext)
    have hring : IsRing ({ c with links := c.links.unlink x } : Config N).links head [] := by
      refine ⟨?_, List.nodup_singleton head⟩
      simp [Chain, Links.unlink, hprev, hnext]
    refine making_of_isRing hring ?_
    intro y hy
    rw [List.mem_singleton.1 hy]
    exact h.idle
  · set y := c.links.next x with hy
    have hyx : y ≠ x := fun heq => (List.nodup_cons.1 hnodup).1 (heq ▸ List.mem_cons_self)
    have hyhead : y ≠ head := h.head_ne (List.mem_cons_of_mem _ List.mem_cons_self)
    have hyys : y ∉ ys := (List.nodup_cons.1 (List.nodup_cons.1 hnodup).2).1
    have hheadys : head ∉ y :: ys := fun hmem => hhead (List.mem_cons_of_mem _ hmem)
    have hnext' : ∀ z, z ≠ head → (c.links.unlink x).next z = c.links.next z := by
      intro z hz
      simp [Links.unlink, hprev, hz]
    have hprev' : ∀ z, z ≠ y → (c.links.unlink x).prev z = c.links.prev z := by
      intro z hz
      simp [Links.unlink, ← hy, hz]
    have hheadnext : (c.links.unlink x).next head = y := by simp [Links.unlink, hprev, ← hy]
    have hyprev : (c.links.unlink x).prev y = head := by simp [Links.unlink, hprev, ← hy]
    refine ⟨⟨⟨?_, ?_, fun _ => hyprev⟩, h.forming.2.2.congr Iff.rfl (fun _ _ => rfl) ?_ ?_⟩,
      List.nodup_cons.2 ⟨hheadys, (List.nodup_cons.1 hnodup).2⟩, h.idle, ?_, ?_⟩
    · simp [hdone, Stage.tail]
    · intro _
      exact ⟨hheadnext, by simp [h.idle, Stage.Settled]⟩
    · intro z hz
      exact hnext' z fun heq => hheadys (heq ▸ hz)
    · intro z hz
      refine hprev' z fun heq => ?_
      rcases List.mem_cons.1 hz with hz | hz
      · exact hyhead (heq.symm.trans hz)
      · exact hyys (heq ▸ hz)
    · intro z hz
      exact h.entered z (List.mem_cons_of_mem _ hz)
    · intro z hz hsettled
      rcases List.mem_cons.1 hz with rfl | hz
      · right
        rw [hheadnext]
        exact ⟨List.mem_cons_self, hdone, hyprev⟩
      · have hzhead : z ≠ head := fun heq => hheadys (heq ▸ hz)
        refine (h.leads z (by simp [List.mem_cons.1 hz]) hsettled).congr (hnext' z hzhead) ?_
        intro w hw hwdone hwprev
        have hwx : w ≠ x := by
          rintro rfl
          exact hzhead (hwprev.symm.trans hprev)
        have hwy : w ≠ y := by
          rintro rfl
          have hback : c.links.prev y = x := h.forming.2.1.backed (by rw [hdone]; trivial)
          rw [hback] at hwprev
          exact (List.nodup_cons.1 hnodup).1 (hwprev ▸ hz)
        exact ⟨(List.mem_cons.1 hw).resolve_left hwx, hwdone, (hprev' w hwy).trans hwprev⟩

end Making

/-! ## Several rings -/

/-- An insertion touches its own node, the head, and the tail it links itself behind. -/
theorem move_agree {head n x : N} {c : Config N} (hhead : x ≠ head) (hn : x ≠ n)
    (ht : ∀ t, c.stage n = .prevSet t → x ≠ t) : Agree c (move head n c) x := by
  rw [Agree, move_stage_ne hn]
  unfold move
  cases hstage : c.stage n with
  | prevSet t => simp [ht t hstage]
  | _ => simp [hhead, hn]

section Stages

variable {head n x t : N} {c : Config N} {xs : List N}

omit [DecidableEq N] in
theorem mem_grown : x ∈ grown c n xs ↔ x ∈ xs ∨ (∃ t, c.stage n = .read t) ∧ x = n := by
  unfold grown
  cases c.stage n with
  | read t => simp
  | _ => simp

theorem move_done (hx : c.stage x = .done) : (move head n c).stage x = .done := by
  by_cases hxn : x = n
  · rw [← hxn, move, hx]
    exact hx
  · rw [move_stage_ne hxn, hx]

theorem move_entered :
    ((move head n c).stage n).Entered ↔ (c.stage n).Entered ∨ ∃ t, c.stage n = .read t := by
  unfold move
  cases hstage : c.stage n with
  | done => simp [hstage, Stage.Entered]
  | _ => simp [Stage.Entered]

theorem tail_of_move (ht : t ∈ ((move head n c).stage n).tail) :
    t ∈ (c.stage n).tail ∨ c.stage n = .read t := by
  unfold move at ht
  cases hstage : c.stage n with
  | start => simp [hstage, Stage.tail] at ht
  | prevSet u => simp [hstage, Stage.tail] at ht
  | done => simp [hstage, Stage.tail] at ht
  | _ => simpa [hstage, Stage.tail] using ht

/-- Only `head->prev` and the node's own link are written. -/
theorem move_prev (hx : x ≠ head) (hn : x ≠ n) : (move head n c).links.prev x = c.links.prev x := by
  unfold move
  cases c.stage n with
  | _ => simp [hx, hn]

theorem move_next_ne {y : N} (hx : x ≠ n) (hn : n ≠ y) (h : c.links.next x ≠ y) :
    (move head n c).links.next x ≠ y := by
  unfold move
  cases c.stage n with
  | prevSet t =>
    by_cases ht : x = t
    · simpa [ht] using hn
    · simpa [ht] using h
  | _ => simpa [hx] using h

/-- An insertion does not meet a `next` link that it does not write. -/
theorem move_setNext {y : N} (hx : x ≠ n) (ht : ∀ t, c.stage n = .prevSet t → x ≠ t) :
    move head n { c with links.next := Function.update c.links.next x y } =
      { move head n c with links.next := Function.update (move head n c).links.next x y } := by
  unfold move
  cases hstage : c.stage n with
  | headSet t => simp [Function.update_comm hx]
  | prevSet t => simp [Function.update_comm (ht t hstage)]
  | _ => rfl

/-- Nor the stage of another node. -/
theorem move_setStage {stage : Stage N} (hx : x ≠ n) :
    move head n { c with stage := Function.update c.stage x stage } =
      { move head n c with stage := Function.update (move head n c).stage x stage } := by
  unfold move
  simp only [Function.update_of_ne hx.symm]
  cases c.stage n with
  | done => rfl
  | _ => simp [Function.update_comm hx]

end Stages

/-- The node has yet to set its own link. -/
def Stage.setsNext : Stage N → Bool
  | .headSet _ => true
  | _ => false

omit [DecidableEq N] in
theorem setsNext_eq_false {stage : Stage N} : stage.setsNext = false ↔ ∀ u, stage ≠ .headSet u := by
  cases stage <;> simp [Stage.setsNext]

instance (head : N) (c : Config N) (n : N) : Decidable (Timely head c n) :=
  match h : c.stage n with
  | .start => isTrue (by simp [Timely, h])
  | .read t => decidable_of_iff (c.links.prev head = t) (by simp [Timely, h])
  | .headSet _ => isTrue (by simp [Timely, h])
  | .nextSet _ => isTrue (by simp [Timely, h])
  | .prevSet t =>
    decidable_of_iff ((c.stage t).setsNext = false) (by simp [Timely, h, setsNext_eq_false])
  | .done => isTrue (by simp [Timely, h])

/-- Rings in the making, no two of which share a node. -/
structure AllMaking {ι : Type*} (head : ι → N) (c : Config N) (xs : ι → List N) : Prop where
  making : ∀ i, Making (head i) c (xs i)
  disjoint : ∀ i j, i ≠ j → List.Disjoint (head i :: xs i) (head j :: xs j)

namespace AllMaking

variable {ι : Type*} {head : ι → N} {c c' : Config N} {xs : ι → List N} {i : ι} {n x : N}
  {ys : List N}

omit [DecidableEq N] in
/-- What happens to nodes of no ring. -/
theorem outside (h : AllMaking head c xs) (hagree : ∀ i, ∀ x ∈ head i :: xs i, Agree c c' x) :
    AllMaking head c' xs :=
  ⟨fun i => (h.making i).congr (hagree i), h.disjoint⟩

variable [DecidableEq ι]

omit [DecidableEq N] in
/-- One ring changes, perhaps by nodes of no ring; the others keep their nodes and links. -/
theorem frame (h : AllMaking head c xs) (hmaking : Making (head i) c' ys)
    (hys : ∀ y ∈ ys, y ∈ xs i ∨ ∀ j, y ∉ head j :: xs j)
    (hagree : ∀ j, j ≠ i → ∀ x ∈ head j :: xs j, Agree c c' x) :
    AllMaking head c' (Function.update xs i ys) := by
  have hout : ∀ j, j ≠ i → List.Disjoint (head i :: ys) (head j :: xs j) := by
    intro j hji x hx hxj
    rcases List.mem_cons.1 hx with rfl | hx
    · exact h.disjoint i j hji.symm List.mem_cons_self hxj
    · rcases hys x hx with hx | hx
      · exact h.disjoint i j hji.symm (List.mem_cons_of_mem _ hx) hxj
      · exact hx j hxj
  refine ⟨?_, ?_⟩
  · intro j
    by_cases hji : j = i
    · subst hji
      rw [Function.update_self]
      exact hmaking
    · rw [Function.update_of_ne hji]
      exact (h.making j).congr (hagree j hji)
  · intro j k hjk
    by_cases hji : j = i
    · subst hji
      rw [Function.update_self, Function.update_of_ne hjk.symm]
      exact hout k hjk.symm
    · by_cases hki : k = i
      · subst hki
        rw [Function.update_self, Function.update_of_ne hjk]
        exact fun x hxj hxi => hout j hjk hxi hxj
      · rw [Function.update_of_ne hji, Function.update_of_ne hki]
        exact h.disjoint j k hjk

/-- **A timely insertion into one of the rings.** -/
theorem move (h : AllMaking head c xs) (hn : ∀ j, n ≠ head j)
    (hfresh : ¬ (c.stage n).Entered → ∀ j, n ∉ head j :: xs j)
    (hmem : ∀ t ∈ (c.stage n).tail, n ∈ xs i) (htimely : Timely (head i) c n) :
    AllMaking head (Ring.move (head i) n c) (Function.update xs i (grown c n (xs i))) := by
  by_cases hdone : c.stage n = .done
  · rw [Ring.move, grown, hdone, Function.update_eq_self]
    exact h
  refine h.frame ((h.making i).move (hn i) (fun he => hfresh he i) hmem htimely) ?_ ?_
  · intro y hy
    cases hstage : c.stage n with
    | read t =>
      rw [grown, hstage] at hy
      rcases List.mem_append.1 hy with hy | hy
      · exact .inl hy
      · rw [List.mem_singleton.1 hy]
        exact .inr (hfresh (by simp [hstage, Stage.Entered]))
    | _ =>
      rw [grown, hstage] at hy
      exact .inl hy
  · intro j hji x hx
    have hout : ∀ y ∈ head i :: xs i, x ≠ y := by
      rintro y hy rfl
      exact h.disjoint j i hji hx hy
    refine move_agree (hout _ List.mem_cons_self) ?_ ?_
    · rintro rfl
      cases hstage : c.stage x with
      | start => exact hfresh (by simp [hstage, Stage.Entered]) j hx
      | read t => exact hfresh (by simp [hstage, Stage.Entered]) j hx
      | done => exact hdone hstage
      | headSet t => exact hout x (List.mem_cons_of_mem _ (hmem t (by rw [hstage]; rfl))) rfl
      | nextSet t => exact hout x (List.mem_cons_of_mem _ (hmem t (by rw [hstage]; rfl))) rfl
      | prevSet t => exact hout x (List.mem_cons_of_mem _ (hmem t (by rw [hstage]; rfl))) rfl
    · intro t hstage
      have ht : t ∈ (c.stage n).tail := by rw [hstage]; rfl
      exact hout t ((h.making i).forming.tail_mem (hmem t ht) ht)

/-- **A clear removal from one of the rings.** -/
theorem unlink (h : AllMaking head c xs) (hxs : xs i = x :: ys) (hx : c.stage x = .done)
    (hclear : c.links.next x = head i → c.links.prev (head i) = x) :
    AllMaking head { c with links := c.links.unlink x } (Function.update xs i ys) ∧
      ∀ j, x ∉ head j :: Function.update xs i ys j := by
  have hi := h.making i
  rw [hxs] at hi
  obtain ⟨hprev, hnext⟩ := hi.front hx
  have hmem : c.links.next x ∈ head i :: xs i := by
    rcases hnext with hnext | ⟨zs, hzs, -⟩
    · rw [hnext]
      exact List.mem_cons_self
    · rw [hxs, hzs]
      exact List.mem_cons_of_mem _ (List.mem_cons_of_mem _ List.mem_cons_self)
  have hxi : x ∈ head i :: xs i := by simp [hxs]
  refine ⟨h.frame (hi.unlink hx hclear) ?_ ?_, ?_⟩
  · intro y hy
    rw [hxs]
    exact .inl (List.mem_cons_of_mem _ hy)
  · intro j hji y hy
    have hout : ∀ z ∈ head i :: xs i, y ≠ z := by
      rintro z hz rfl
      exact h.disjoint j i hji hy hz
    refine ⟨rfl, ?_, ?_⟩
    · simp [Links.unlink, hprev, hout _ List.mem_cons_self]
    · simp [Links.unlink, hout _ hmem]
  · intro j hxj
    by_cases hji : j = i
    · subst hji
      rw [Function.update_self] at hxj
      rcases List.mem_cons.1 hxj with heq | hxj
      · exact hi.head_ne List.mem_cons_self heq
      · exact (List.nodup_cons.1 (List.nodup_cons.1 hi.nodup).2).1 hxj
    · rw [Function.update_of_ne hji] at hxj
      exact h.disjoint j i hji hxj hxi

end AllMaking

end Ring
