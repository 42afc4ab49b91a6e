import KernelElevator.Library.Machine
import KernelElevator.Library.Ring
import Mathlib.Data.List.Perm.Basic

/-!
# Concurrent insertion at the tail of a ring

Several callers, each with a new node, append to one ring without a lock. An insertion reads the
tail, `head->prev`, and then makes four writes: `head->prev`, the node's two links, and the `next`
link of the tail it has read. Any caller may move at any time.

Two orders of moves break the ring: a caller writes `head->prev` after another one has done so since
it read the tail; or a caller links itself behind a node that will still set its own `next`. A move
is *timely* if it is neither.

* `Forming` — the ring in the making: the nodes in the order in which they entered `head->prev`.
* `isRing_of_timely` — timely moves end in a ring of the old nodes and then the new ones;
  `isRing_alone` — as those of a single caller do.
* `timely_of_isRing` — and no others do.
-/

namespace Ring

open Machine

variable {N : Type*}

/-- How far an insertion is, with the tail it has read. -/
inductive Stage (N : Type*) where
  | start
  | read (tail : N)
  | headSet (tail : N)
  | nextSet (tail : N)
  | prevSet (tail : N)
  | done
  deriving DecidableEq

namespace Stage

/-- `head->prev` has been written. -/
def Entered : Stage N → Prop
  | start => False
  | read _ => False
  | _ => True

/-- The `next` link of the node has been written by its own insertion. -/
def Settled : Stage N → Prop
  | nextSet _ => True
  | prevSet _ => True
  | done => True
  | _ => False

/-- The `prev` link of the node has been written. -/
def Backed : Stage N → Prop
  | prevSet _ => True
  | done => True
  | _ => False

/-- The tail that the insertion goes by after its first write. -/
def tail : Stage N → Option N
  | headSet t => some t
  | nextSet t => some t
  | prevSet t => some t
  | _ => none

end Stage

/-- The links, and the stage of the insertion of each node. -/
structure Config (N : Type*) where
  links : Links N
  stage : N → Stage N

variable [DecidableEq N]

/-- The insertion of node `n` moves on. -/
def move (head n : N) (c : Config N) : Config N :=
  match c.stage n with
  | .start => { c with stage := Function.update c.stage n (.read (c.links.prev head)) }
  | .read t =>
    { links := { c.links with prev := Function.update c.links.prev head n }
      stage := Function.update c.stage n (.headSet t) }
  | .headSet t =>
    { links := { c.links with next := Function.update c.links.next n head }
      stage := Function.update c.stage n (.nextSet t) }
  | .nextSet t =>
    { links := { c.links with prev := Function.update c.links.prev n t }
      stage := Function.update c.stage n (.prevSet t) }
  | .prevSet t =>
    { links := { c.links with next := Function.update c.links.next t n }
      stage := Function.update c.stage n .done }
  | .done => c

/-- The nodes `news` are to be inserted. -/
def begin (s : Links N) (news : List N) : Config N :=
  ⟨s, fun n => if n ∈ news then .start else .done⟩

/-- A caller writes `head->prev` while it is what it has read, and links itself behind a node that
has its own link already. -/
def Timely (head : N) (c : Config N) (n : N) : Prop :=
  (∀ t, c.stage n = .read t → c.links.prev head = t) ∧
  (∀ t, c.stage n = .prevSet t → ∀ u, c.stage t ≠ .headSet u)

/-! ## The ring in the making -/

/-- What links `b` to its predecessor `a` so far. -/
structure Joined (c : Config N) (a b : N) : Prop where
  tail : ∀ t ∈ (c.stage b).tail, t = a
  done : c.stage b = .done → c.links.next a = b ∧ (c.stage a).Settled
  backed : (c.stage b).Backed → c.links.prev b = a

/-- The nodes after `a`, up to the one that `head->prev` points to. -/
def Forming (head : N) (c : Config N) : N → List N → Prop
  | a, [] => ((c.stage a).Settled → c.links.next a = head) ∧ c.links.prev head = a
  | a, b :: bs => Joined c a b ∧ Forming head c b bs

omit [DecidableEq N] in
theorem Joined.congr {a b : N} {c c' : Config N} (h : Joined c a b)
    (ha : (c'.stage a).Settled ↔ (c.stage a).Settled) (hb : c'.stage b = c.stage b)
    (hnext : c'.links.next a = c.links.next a) (hprev : c'.links.prev b = c.links.prev b) :
    Joined c' a b := by
  refine ⟨?_, ?_, ?_⟩
  · rw [hb]
    exact h.tail
  · rw [hb, hnext, ha]
    exact h.done
  · rw [hb, hprev]
    exact h.backed

omit [DecidableEq N] in
/-- The ring in the making depends on the links and stages of its own nodes. -/
theorem Forming.congr {head a : N} {c c' : Config N} {L : List N} (h : Forming head c a L)
    (ha : (c'.stage a).Settled ↔ (c.stage a).Settled) (hstage : ∀ x ∈ L, c'.stage x = c.stage x)
    (hnext : ∀ x ∈ a :: L, c'.links.next x = c.links.next x)
    (hprev : ∀ x ∈ head :: L, c'.links.prev x = c.links.prev x) : Forming head c' a L := by
  induction L generalizing a with
  | nil =>
    rw [Forming, ha, hnext a List.mem_cons_self, hprev head List.mem_cons_self]
    exact h
  | cons b bs ih =>
    have hb := hstage b List.mem_cons_self
    have hback := hprev b (List.mem_cons_of_mem _ List.mem_cons_self)
    refine ⟨h.1.congr ha hb (hnext a List.mem_cons_self) hback, ih h.2 (by rw [hb]) ?_ ?_ ?_⟩
    · intro x hx
      exact hstage x (List.mem_cons_of_mem _ hx)
    · intro x hx
      exact hnext x (List.mem_cons_of_mem _ hx)
    · intro x hx
      exact hprev x (List.cons_subset_cons _ (List.subset_cons_self _ _) hx)

omit [DecidableEq N] in
/-- Once every insertion is done, the ring is complete. -/
theorem Forming.chain {head a : N} {c : Config N} {L : List N} (h : Forming head c a L)
    (ha : (c.stage a).Settled) (hdone : ∀ x ∈ L, c.stage x = .done) :
    Chain c.links head a L := by
  induction L generalizing a with
  | nil => exact ⟨h.1 ha, h.2⟩
  | cons b bs ih =>
    have hb := hdone b List.mem_cons_self
    refine ⟨⟨(h.1.done hb).1, h.1.backed (by rw [hb]; trivial)⟩, ih h.2 (by rw [hb]; trivial) ?_⟩
    intro x hx
    exact hdone x (List.mem_cons_of_mem _ hx)

omit [DecidableEq N] in
/-- A complete ring, with no insertion under way. -/
theorem forming_of_chain {head a : N} {c : Config N} {L : List N} (h : Chain c.links head a L)
    (hdone : ∀ x ∈ a :: L, c.stage x = .done) : Forming head c a L := by
  induction L generalizing a with
  | nil => exact ⟨fun _ => h.1, h.2⟩
  | cons b bs ih =>
    have ha := hdone a List.mem_cons_self
    have hb := hdone b (List.mem_cons_of_mem _ List.mem_cons_self)
    refine ⟨⟨?_, ?_, ?_⟩, ih h.2 fun x hx => hdone x (List.mem_cons_of_mem _ hx)⟩
    · simp [hb, Stage.tail]
    · intro _
      exact ⟨h.1.1, by rw [ha]; trivial⟩
    · intro _
      exact h.1.2

/-! ## Moves -/

section Moves

variable {head n t : N} {c : Config N}

/-- A node enters the ring in the making, behind the tail it has read. -/
theorem forming_enter (htail : c.links.prev head = t) {a : N} {L : List N}
    (h : Forming head c a L) (hhead : head ∉ L) (hn : n ∉ a :: L) :
    Forming head
      { links := { c.links with prev := Function.update c.links.prev head n }
        stage := Function.update c.stage n (.headSet t) } a (L ++ [n]) := by
  induction L generalizing a with
  | nil =>
    have ha : t = a := htail.symm.trans h.2
    refine ⟨⟨?_, ?_, ?_⟩, ?_, Function.update_self ..⟩
    · simp [Stage.tail, ha]
    · simp
    · simp [Stage.Backed]
    · simp [Stage.Settled]
  | cons b bs ih =>
    have hna : a ≠ n := fun heq => hn (heq ▸ List.mem_cons_self)
    have hnb : b ≠ n := fun heq => hn (heq ▸ List.mem_cons_of_mem _ List.mem_cons_self)
    have hb : b ≠ head := fun heq => hhead (heq ▸ List.mem_cons_self)
    refine ⟨h.1.congr ?_ ?_ rfl ?_, ih h.2 ?_ ?_⟩
    · simp [hna]
    · simp [hnb]
    · simp [hb]
    · exact fun hx => hhead (List.mem_cons_of_mem _ hx)
    · exact fun hx => hn (List.mem_cons_of_mem _ hx)

/-- The node at the front sets its `next`; nobody is linked behind it yet. -/
theorem forming_setNext_front {L : List N} (hstage : c.stage n = .headSet t)
    (h : Forming head c n L) (hn : n ∉ L) :
    Forming head
      { links := { c.links with next := Function.update c.links.next n head }
        stage := Function.update c.stage n (.nextSet t) } n L := by
  cases L with
  | nil => exact ⟨fun _ => Function.update_self .., h.2⟩
  | cons b bs =>
    have hb : b ≠ n := fun heq => hn (heq ▸ List.mem_cons_self)
    have hout : ∀ x ∈ b :: bs, x ≠ n := fun x hx heq => hn (heq ▸ hx)
    refine ⟨⟨?_, ?_, ?_⟩, h.2.congr ?_ ?_ ?_ fun _ _ => rfl⟩
    · simpa [hb] using h.1.tail
    · intro hdone
      have hsettled := (h.1.done (by simpa [hb] using hdone)).2
      rw [hstage] at hsettled
      exact hsettled.elim
    · simpa [hb] using h.1.backed
    · simp [hb]
    · intro x hx
      simp [hout x (List.mem_cons_of_mem _ hx)]
    · intro x hx
      simp [hout x hx]

theorem forming_setNext {a : N} {L : List N} (hstage : c.stage n = .headSet t)
    (h : Forming head c a L) (hn : n ∈ L) (hnodup : (a :: L).Nodup) :
    Forming head
      { links := { c.links with next := Function.update c.links.next n head }
        stage := Function.update c.stage n (.nextSet t) } a L := by
  induction L generalizing a with
  | nil => cases hn
  | cons b bs ih =>
    obtain ⟨ha, hnodup⟩ := List.nodup_cons.1 hnodup
    have hna : a ≠ n := fun heq => ha (heq ▸ hn)
    by_cases hb : b = n
    · subst hb
      refine ⟨⟨?_, ?_, ?_⟩, forming_setNext_front hstage h.2 (List.nodup_cons.1 hnodup).1⟩
      · have htail := h.1.tail
        rw [hstage] at htail
        simpa [Stage.tail] using htail
      · simp
      · simp [Stage.Backed]
    · have hn : n ∈ bs := (List.mem_cons.1 hn).resolve_left (Ne.symm hb)
      refine ⟨h.1.congr ?_ ?_ ?_ rfl, ih h.2 hn hnodup⟩
      · simp [hna]
      · simp [hb]
      · simp [hna]

theorem forming_setPrev {a : N} {L : List N} (hstage : c.stage n = .nextSet t)
    (h : Forming head c a L) (hn : n ∈ L) (hhead : n ≠ head) (hnodup : (a :: L).Nodup) :
    Forming head
      { links := { c.links with prev := Function.update c.links.prev n t }
        stage := Function.update c.stage n (.prevSet t) } a L := by
  induction L generalizing a with
  | nil => cases hn
  | cons b bs ih =>
    obtain ⟨ha, hnodup⟩ := List.nodup_cons.1 hnodup
    have hna : a ≠ n := fun heq => ha (heq ▸ hn)
    by_cases hb : b = n
    · subst hb
      have htail : t = a := h.1.tail t (by rw [hstage]; rfl)
      have hout : ∀ x ∈ bs, x ≠ b := fun x hx heq => (List.nodup_cons.1 hnodup).1 (heq ▸ hx)
      refine ⟨⟨?_, ?_, ?_⟩, h.2.congr ?_ ?_ (fun _ _ => rfl) ?_⟩
      · simp [Stage.tail, htail]
      · simp
      · simp [htail]
      · simp [hstage, Stage.Settled]
      · intro x hx
        simp [hout x hx]
      · intro x hx
        rcases List.mem_cons.1 hx with rfl | hx
        · simp [hhead.symm]
        · simp [hout x hx]
    · have hn : n ∈ bs := (List.mem_cons.1 hn).resolve_left (Ne.symm hb)
      refine ⟨h.1.congr ?_ ?_ rfl ?_, ih h.2 hn hnodup⟩
      · simp [hna]
      · simp [hb]
      · simp [hb]

omit [DecidableEq N] in
/-- The tail that a node of the ring goes by comes before it. -/
theorem Forming.tail_mem {a : N} {L : List N} (h : Forming head c a L) (hn : n ∈ L)
    (ht : t ∈ (c.stage n).tail) : t ∈ a :: L := by
  induction L generalizing a with
  | nil => cases hn
  | cons b bs ih =>
    rcases List.mem_cons.1 hn with rfl | hn
    · rw [h.1.tail t ht]
      exact List.mem_cons_self
    · exact List.mem_cons_of_mem _ (ih h.2 hn)

theorem forming_link {a : N} {L : List N} (hstage : c.stage n = .prevSet t)
    (hsettled : (c.stage t).Settled) (h : Forming head c a L) (hn : n ∈ L)
    (hnodup : (a :: L).Nodup) :
    Forming head
      { links := { c.links with next := Function.update c.links.next t n }
        stage := Function.update c.stage n .done } a L := by
  induction L generalizing a with
  | nil => cases hn
  | cons b bs ih =>
    obtain ⟨ha, hrest⟩ := List.nodup_cons.1 hnodup
    have hna : a ≠ n := fun heq => ha (heq ▸ hn)
    by_cases hb : b = n
    · subst hb
      obtain rfl : t = a := h.1.tail t (by rw [hstage]; rfl)
      have hout : ∀ x ∈ bs, x ≠ b := fun x hx heq => (List.nodup_cons.1 hrest).1 (heq ▸ hx)
      refine ⟨⟨?_, ?_, ?_⟩, h.2.congr ?_ ?_ ?_ fun _ _ => rfl⟩
      · simp [Stage.tail]
      · simp [hna, hsettled]
      · intro _
        exact h.1.backed (by rw [hstage]; trivial)
      · simp [hstage, Stage.Settled]
      · intro x hx
        simp [hout x hx]
      · intro x hx
        have hxt : x ≠ t := fun heq => ha (heq ▸ hx)
        simp [hxt]
    · have hn : n ∈ bs := (List.mem_cons.1 hn).resolve_left (Ne.symm hb)
      have hta : a ≠ t := fun heq => ha (heq ▸ h.2.tail_mem hn (by rw [hstage]; rfl))
      refine ⟨h.1.congr ?_ ?_ ?_ rfl, ih h.2 hn hrest⟩
      · simp [hna]
      · simp [hb]
      · simp [hta]

end Moves

/-! ## Timely moves -/

/-- The nodes `ns` have entered the ring in the making, after the old nodes `xs`. -/
structure Inserting (head : N) (xs news : List N) (c : Config N) (ns : List N) : Prop where
  nodup : (head :: (xs ++ ns)).Nodup
  forming : Forming head c head (xs ++ ns)
  outside : ∀ x, x ∉ news → c.stage x = .done
  entered : ∀ n ∈ news, n ∈ ns ↔ (c.stage n).Entered
  subset : ∀ n ∈ ns, n ∈ news
  fresh : ∀ n ∈ news, n ∉ head :: xs

section Timely

variable {head n : N} {xs news ns : List N} {c : Config N}

theorem inserting_begin {s : Links N} (h : IsRing s head xs) (hnew : ∀ n ∈ news, n ∉ head :: xs) :
    Inserting head xs news (begin s news) [] := by
  have hold : ∀ x, x ∉ news → (begin s news).stage x = .done := by
    intro x hx
    exact if_neg hx
  refine ⟨?_, ?_, hold, ?_, by simp, hnew⟩
  · rw [List.append_nil]
    exact h.nodup
  · rw [List.append_nil]
    refine forming_of_chain h.chain ?_
    intro x hx
    exact hold x fun hxn => hnew x hxn hx
  · intro n hn
    have hstage : (begin s news).stage n = .start := if_pos hn
    simp [hstage, Stage.Entered]

/-- A move of a node that has entered keeps everything but the ring. -/
theorem Inserting.moved (h : Inserting head xs news c ns) (hn : n ∈ ns) {c' : Config N}
    {stage : Stage N} (hstage : c'.stage = Function.update c.stage n stage) (he : stage.Entered)
    (hforming : Forming head c' head (xs ++ ns)) : Inserting head xs news c' ns := by
  refine ⟨h.nodup, hforming, ?_, ?_, h.subset, h.fresh⟩
  · intro x hx
    have hne : x ≠ n := fun heq => hx (heq ▸ h.subset n hn)
    rw [hstage, Function.update_of_ne hne]
    exact h.outside x hx
  · intro m hm
    rw [hstage]
    by_cases heq : m = n
    · subst heq
      rw [Function.update_self]
      exact iff_of_true hn he
    · rw [Function.update_of_ne heq]
      exact h.entered m hm

/-- The tail that a node goes by has its own link, unless it is about to set it. -/
theorem Inserting.settled (h : Inserting head xs news c ns) (hn : n ∈ ns) {t : N}
    (ht : t ∈ (c.stage n).tail) (htimely : ∀ u, c.stage t ≠ .headSet u) :
    (c.stage t).Settled := by
  have hmem : t ∈ head :: (xs ++ ns) := h.forming.tail_mem (List.mem_append_right _ hn) ht
  by_cases hnew : t ∈ news
  · have hns : t ∈ ns := by
      rcases List.mem_cons.1 hmem with heq | hmem
      · exact absurd (heq ▸ List.mem_cons_self) (h.fresh t hnew)
      · rcases List.mem_append.1 hmem with hold | hns
        · exact absurd (List.mem_cons_of_mem _ hold) (h.fresh t hnew)
        · exact hns
    have hentered := (h.entered t hnew).1 hns
    cases hstage : c.stage t with
    | headSet u => exact absurd hstage (htimely u)
    | start => simp [hstage, Stage.Entered] at hentered
    | read u => simp [hstage, Stage.Entered] at hentered
    | _ => trivial
  · rw [h.outside t hnew]
    trivial

/-- **A timely move keeps the ring in the making**; the move that writes `head->prev` adds a node to
it. -/
theorem Inserting.move (h : Inserting head xs news c ns) (htimely : Timely head c n) :
    ∃ ns', Inserting head xs news (move head n c) ns' := by
  by_cases hnew : n ∈ news
  swap
  · refine ⟨ns, ?_⟩
    rwa [Ring.move, h.outside n hnew]
  have hold : n ∉ head :: xs := h.fresh n hnew
  have hhead : n ≠ head := fun heq => hold (heq ▸ List.mem_cons_self)
  have hout : n ∉ ns → n ∉ head :: (xs ++ ns) := by
    intro hns hmem
    rcases List.mem_cons.1 hmem with heq | hmem
    · exact hhead heq
    · rcases List.mem_append.1 hmem with hxs | hns'
      · exact hold (List.mem_cons_of_mem _ hxs)
      · exact hns hns'
  have hentered := h.entered n hnew
  cases hstage : c.stage n with
  | start =>
    simp only [hstage, Stage.Entered, iff_false] at hentered
    refine ⟨ns, ?_⟩
    rw [Ring.move, hstage]
    refine ⟨h.nodup, h.forming.congr ?_ ?_ (fun _ _ => rfl) (fun _ _ => rfl), ?_, ?_, h.subset,
      h.fresh⟩
    · simp [hhead.symm]
    · intro x hx
      have hne : x ≠ n := fun heq => hout hentered (List.mem_cons_of_mem _ (heq ▸ hx))
      simp [hne]
    · intro x hx
      have hne : x ≠ n := fun heq => hx (heq ▸ hnew)
      simpa [hne] using h.outside x hx
    · intro m hm
      by_cases heq : m = n
      · subst heq
        simpa [Stage.Entered] using hentered
      · simpa [heq] using h.entered m hm
  | read t =>
    simp only [hstage, Stage.Entered, iff_false] at hentered
    have hnotin := hout hentered
    refine ⟨ns ++ [n], ?_⟩
    rw [Ring.move, hstage]
    refine ⟨?_, ?_, ?_, ?_, ?_, h.fresh⟩
    · rw [← List.append_assoc, ← List.cons_append]
      refine List.nodup_append.2 ⟨h.nodup, List.nodup_singleton n, ?_⟩
      intro x hx y hy heq
      rw [List.mem_singleton.1 hy] at heq
      exact hnotin (heq ▸ hx)
    · rw [← List.append_assoc]
      exact forming_enter (htimely.1 t hstage) h.forming (List.nodup_cons.1 h.nodup).1 hnotin
    · intro x hx
      have hne : x ≠ n := fun heq => hx (heq ▸ hnew)
      simpa [hne] using h.outside x hx
    · intro m hm
      by_cases heq : m = n
      · subst heq
        simp [Stage.Entered]
      · simpa [heq] using h.entered m hm
    · intro m hm
      rcases List.mem_append.1 hm with hm | hm
      · exact h.subset m hm
      · rw [List.mem_singleton.1 hm]
        exact hnew
  | headSet t =>
    have hns : n ∈ ns := hentered.2 (by rw [hstage]; trivial)
    refine ⟨ns, ?_⟩
    rw [Ring.move, hstage]
    exact h.moved hns rfl trivial
      (forming_setNext hstage h.forming (List.mem_append_right _ hns) h.nodup)
  | nextSet t =>
    have hns : n ∈ ns := hentered.2 (by rw [hstage]; trivial)
    refine ⟨ns, ?_⟩
    rw [Ring.move, hstage]
    exact h.moved hns rfl trivial
      (forming_setPrev hstage h.forming (List.mem_append_right _ hns) hhead h.nodup)
  | prevSet t =>
    have hns : n ∈ ns := hentered.2 (by rw [hstage]; trivial)
    have hsettled := h.settled hns (t := t) (by rw [hstage]; rfl) (htimely.2 t hstage)
    refine ⟨ns, ?_⟩
    rw [Ring.move, hstage]
    exact h.moved hns rfl trivial
      (forming_link hstage hsettled h.forming (List.mem_append_right _ hns) h.nodup)
  | done =>
    refine ⟨ns, ?_⟩
    rwa [Ring.move, hstage]

end Timely

/-- **Timely insertions are not lost.** When all of them are done, the nodes are those of before,
and then the new ones in some order. -/
theorem isRing_of_timely {head : N} {s : Links N} {xs news : List N} (h : IsRing s head xs)
    (hnodup : news.Nodup) (hnew : ∀ n ∈ news, n ∉ head :: xs) {moves : List N}
    (htimely : Along (move head) (Timely head) moves (begin s news))
    (hdone : ∀ n ∈ news, (run (move head) moves (begin s news)).stage n = .done) :
    ∃ ns, ns.Perm news ∧ IsRing (run (move head) moves (begin s news)).links head (xs ++ ns) := by
  have hinv : ∃ ns, Inserting head xs news (run (move head) moves (begin s news)) ns := by
    refine run_guarded (I := fun c => ∃ ns, Inserting head xs news c ns) ?_
      ⟨[], inserting_begin h hnew⟩ htimely
    intro n c hc hn
    obtain ⟨ns, hns⟩ := hc
    exact hns.move hn
  generalize run (move head) moves (begin s news) = c at hdone hinv ⊢
  obtain ⟨ns, hns⟩ := hinv
  have hall : ∀ x, c.stage x = .done := by
    intro x
    by_cases hx : x ∈ news
    · exact hdone x hx
    · exact hns.outside x hx
  refine ⟨ns, ?_, hns.forming.chain (by rw [hall]; trivial) fun x _ => hall x, hns.nodup⟩
  have hnsnodup : ns.Nodup := (List.nodup_append.1 (List.nodup_cons.1 hns.nodup).2).2.1
  rw [List.perm_ext_iff_of_nodup hnsnodup hnodup]
  intro n
  constructor
  · exact hns.subset n
  · intro hn
    exact (hns.entered n hn).2 (by rw [hall]; trivial)

/-! ## An insertion alone -/

section Alone

variable (head : N) (s : Links N) (n : N)

theorem alone_done :
    (run (move head) (List.replicate 5 n) (begin s [n])).stage n = .done := by
  simp [List.replicate, run, move, begin]

theorem alone_timely :
    Along (move head) (Timely head) (List.replicate 5 n) (begin s [n]) := by
  simp only [List.replicate, Along, move, begin, Timely, List.mem_singleton, if_true,
    Function.update_self]
  refine ⟨by simp, by simp, by simp, by simp, ⟨by simp, ?_⟩, trivial⟩
  intro t ht u
  obtain rfl : s.prev head = t := by simpa using ht
  by_cases hown : s.prev head = n
  · simp [hown]
  · simp [hown]

/-- **Uninterrupted, an insertion appends.** -/
theorem isRing_alone {head : N} {s : Links N} {xs : List N} (h : IsRing s head xs) {n : N}
    (hn : n ∉ head :: xs) :
    IsRing (run (move head) (List.replicate 5 n) (begin s [n])).links head (xs ++ [n]) := by
  obtain ⟨ns, hperm, hring⟩ := isRing_of_timely h (List.nodup_singleton n) (by simpa using hn)
    (alone_timely head s n) (by simpa using alone_done head s n)
  rwa [List.perm_singleton.1 hperm] at hring

end Alone

/-! ## Untimely moves -/

/-- `b` has entered behind `t`, and its `prev` link says so once it is set. -/
structure Claims (c : Config N) (b t : N) : Prop where
  entered : (c.stage b).Entered
  tail : ∀ u ∈ (c.stage b).tail, u = t
  backed : (c.stage b).Backed → c.links.prev b = t

section Untimely

variable {head : N} {c : Config N}

/-- No move takes a claim back. -/
theorem Claims.move {b t : N} (h : Claims c b t) (hb : b ≠ head) (m : N) :
    Claims (move head m c) b t := by
  obtain ⟨hentered, htail, hbacked⟩ := h
  by_cases hm : m = b
  · subst hm
    unfold Ring.move
    cases hstage : c.stage m with
    | start => simp [hstage, Stage.Entered] at hentered
    | read u => simp [hstage, Stage.Entered] at hentered
    | headSet u =>
      obtain rfl : u = t := htail u (by rw [hstage]; rfl)
      exact ⟨by simp [Stage.Entered], by simp [Stage.tail], by simp [Stage.Backed]⟩
    | nextSet u =>
      obtain rfl : u = t := htail u (by rw [hstage]; rfl)
      exact ⟨by simp [Stage.Entered], by simp [Stage.tail], by simp⟩
    | prevSet u =>
      have hprev := hbacked (by rw [hstage]; trivial)
      exact ⟨by simp [Stage.Entered], by simp [Stage.tail], fun _ => hprev⟩
    | done => exact ⟨hentered, htail, hbacked⟩
  · have hne : b ≠ m := Ne.symm hm
    unfold Ring.move
    cases c.stage m with
    | done => exact ⟨hentered, htail, hbacked⟩
    | _ => exact ⟨by simpa [hne], by simpa [hne], by simpa [hne, hb] using hbacked⟩

/-- `t` still has to set its own link, or `n` is not behind it any more. -/
def Severed (c : Config N) (n t : N) : Prop :=
  c.stage n = .done ∧ ((∃ u, c.stage t = .headSet u) ∨ (c.stage t).Settled ∧ c.links.next t ≠ n)

/-- No move puts `n` back behind `t`. -/
theorem Severed.move {n t : N} (h : Severed c n t) (hn : n ≠ head) (hnt : n ≠ t) (m : N) :
    Severed (move head m c) n t := by
  obtain ⟨hdone, hopen⟩ := h
  by_cases hm : m = n
  · subst hm
    rw [Ring.move, hdone]
    exact ⟨hdone, hopen⟩
  have hnm : n ≠ m := Ne.symm hm
  by_cases hmt : m = t
  · subst hmt
    unfold Ring.move
    rcases hopen with ⟨u, hstage⟩ | ⟨hsettled, hnext⟩
    · simp [Severed, hstage, hdone, hnt, Stage.Settled, hn.symm]
    · cases hstage : c.stage m with
      | start => simp [hstage, Stage.Settled] at hsettled
      | read u => simp [hstage, Stage.Settled] at hsettled
      | headSet u => simp [hstage, Stage.Settled] at hsettled
      | nextSet u => simpa [Severed, hdone, hnt, Stage.Settled] using hnext
      | prevSet u =>
        refine ⟨by simp [hdone, hnt], .inr ⟨by simp [Stage.Settled], ?_⟩⟩
        by_cases hu : m = u
        · subst hu
          simpa using hm
        · simpa [hu] using hnext
      | done => exact ⟨hdone, .inr ⟨hsettled, hnext⟩⟩
  · have htm : t ≠ m := Ne.symm hmt
    unfold Ring.move
    cases hstage : c.stage m with
    | done => exact ⟨hdone, hopen⟩
    | prevSet u =>
      refine ⟨by simpa [hnm] using hdone, ?_⟩
      by_cases hu : t = u
      · simpa [htm, ← hu, hm] using hopen.imp_right And.left
      · simpa [htm, hu] using hopen
    | _ => exact ⟨by simpa [hnm] using hdone, by simpa [htm] using hopen⟩

/-- Every reader still sees the tail it has read, or somebody has entered behind that since; and
every node that has entered claims its place. -/
structure Orderly (head : N) (news : List N) (c : Config N) : Prop where
  outside : ∀ x, x ∉ news → c.stage x = .done
  reader : ∀ n t, c.stage n = .read t → c.links.prev head = t ∨ ∃ b ∈ news, Claims c b t
  claims : ∀ n t, t ∈ (c.stage n).tail → Claims c n t

theorem orderly_begin (head : N) (s : Links N) (news : List N) :
    Orderly head news (begin s news) := by
  have hstage : ∀ n, (begin s news).stage n = .start ∨ (begin s news).stage n = .done := by
    intro n
    by_cases hn : n ∈ news
    · exact .inl (if_pos hn)
    · exact .inr (if_neg hn)
  refine ⟨fun x hx => if_neg hx, ?_, ?_⟩
  · intro n t hn
    rcases hstage n with h | h <;> rw [h] at hn <;> cases hn
  · intro n t hn
    rcases hstage n with h | h <;> rw [h] at hn <;> cases hn

theorem Orderly.mem {news : List N} (h : Orderly head news c) {n : N} (hn : c.stage n ≠ .done) :
    n ∈ news := by
  by_contra hout
  exact hn (h.outside n hout)

/-- A node that has just entered claims its place. -/
theorem claims_entered (s : Links N) (stage : N → Stage N) (n t : N) :
    Claims ⟨s, Function.update stage n (.headSet t)⟩ n t := by
  refine ⟨?_, ?_, ?_⟩
  · simp [Stage.Entered]
  · simp [Stage.tail]
  · simp [Stage.Backed]

theorem move_stage_ne {m n : N} (hm : m ≠ n) : (move head n c).stage m = c.stage m := by
  unfold move
  cases c.stage n with
  | done => rfl
  | _ => exact Function.update_of_ne hm _ _

theorem Orderly.move {news : List N} (h : Orderly head news c) (hhead : head ∉ news) {n : N}
    (htimely : Timely head c n) : Orderly head news (move head n c) := by
  by_cases hnew : n ∈ news
  swap
  · rwa [Ring.move, h.outside n hnew]
  have hnhead : head ≠ n := fun heq => hhead (heq ▸ hnew)
  have hkeep : ∀ b t, b ∈ news → Claims c b t → Claims (Ring.move head n c) b t := by
    intro b t hb hclaims
    exact hclaims.move (fun heq : b = head => hhead (heq ▸ hb)) n
  -- What the readers have seen changes only when `n` writes `head->prev`.
  have hreader : ∀ m t, c.stage m = .read t → (Ring.move head n c).links.prev head = t ∨
      ∃ b ∈ news, Claims (Ring.move head n c) b t := by
    intro m t hm
    rcases h.reader m t hm with hprev | ⟨b, hb, hclaims⟩
    · cases hstage : c.stage n with
      | read u =>
        have hut : u = t := (htimely.1 u hstage).symm.trans hprev
        refine .inr ⟨n, hnew, ?_⟩
        rw [Ring.move, hstage, ← hut]
        exact claims_entered _ _ n u
      | nextSet u =>
        left
        rw [Ring.move, hstage]
        simpa [hnhead] using hprev
      | _ =>
        left
        rw [Ring.move, hstage]
        exact hprev
    · exact .inr ⟨b, hb, hkeep b t hb hclaims⟩
  have hclaims : ∀ m t, t ∈ (c.stage m).tail → Claims (Ring.move head n c) m t := by
    intro m t ht
    refine hkeep m t (h.mem ?_) (h.claims m t ht)
    intro hdone
    rw [hdone] at ht
    cases ht
  refine ⟨?_, ?_, ?_⟩
  · intro x hx
    rw [move_stage_ne fun heq : x = n => hx (heq ▸ hnew)]
    exact h.outside x hx
  · intro m t hm
    by_cases heq : m = n
    · subst heq
      cases hstage : c.stage m with
      | start =>
        rw [Ring.move, hstage] at hm ⊢
        left
        simpa using hm
      | _ => simp [Ring.move, hstage] at hm
    · rw [move_stage_ne heq] at hm
      exact hreader m t hm
  · intro m t ht
    by_cases heq : m = n
    · subst heq
      cases hstage : c.stage m with
      | start => simp [Ring.move, hstage, Stage.tail] at ht
      | read u =>
        rw [Ring.move, hstage] at ht ⊢
        obtain rfl : u = t := by simpa [Stage.tail] using ht
        exact claims_entered _ _ m u
      | headSet u =>
        have htail : u = t := by simpa [Ring.move, hstage, Stage.tail] using ht
        exact hclaims m t (by rw [hstage, ← htail]; rfl)
      | nextSet u =>
        have htail : u = t := by simpa [Ring.move, hstage, Stage.tail] using ht
        exact hclaims m t (by rw [hstage, ← htail]; rfl)
      | prevSet u => simp [Ring.move, hstage, Stage.tail] at ht
      | done => simp [Ring.move, hstage, Stage.tail] at ht
    · rw [move_stage_ne heq] at ht
      exact hclaims m t ht

/-- A claim is kept to the end, and honoured there. -/
theorem Claims.prev_eq {b t : N} (h : Claims c b t) (hb : b ≠ head) (moves : List N)
    (hdone : (run (Ring.move head) moves c).stage b = .done) :
    (run (Ring.move head) moves c).links.prev b = t := by
  have hend : Claims (run (Ring.move head) moves c) b t := by
    refine run_invariant (I := fun c => Claims c b t) ?_ moves h
    intro m c hc
    exact hc.move hb m
  exact hend.backed (by rw [hdone]; trivial)

/-- **Untimely moves lose a node.** If the insertions end in a ring that holds every new node, all
moves were timely. -/
theorem timely_of_isRing {s : Links N} {news ys : List N} {moves : List N} (hhead : head ∉ news)
    (hdone : ∀ n ∈ news, (run (move head) moves (begin s news)).stage n = .done)
    (hring : IsRing (run (move head) moves (begin s news)).links head ys)
    (hmem : ∀ n ∈ news, n ∈ ys) :
    Along (move head) (Timely head) moves (begin s news) := by
  by_contra hno
  obtain ⟨pre, n, post, rfl, hpre, hn⟩ := exists_first_of_not_along hno
  have horderly : Orderly head news (run (move head) pre (begin s news)) := by
    refine run_guarded ?_ (orderly_begin head s news) hpre
    intro m c hc hm
    exact hc.move hhead hm
  rw [run_append, run_cons] at hdone hring
  generalize run (move head) pre (begin s news) = c at *
  have hne : ∀ b ∈ news, b ≠ head := fun b hb heq => hhead (heq ▸ hb)
  have hys : ∀ b ∈ news, b ∈ head :: ys := fun b hb => List.mem_cons_of_mem _ (hmem b hb)
  simp only [Timely, not_and_or, not_forall, not_not] at hn
  rcases hn with ⟨t, hstage, hlate⟩ | ⟨t, hstage, u, hu⟩
  · -- Somebody has entered behind `t`, and now `n` does so too.
    obtain ⟨b, hb, hclaims⟩ := (horderly.reader n t hstage).resolve_left hlate
    have hnew : n ∈ news := horderly.mem (by simp [hstage])
    have hclaims' : Claims (move head n c) n t := by
      rw [move, hstage]
      exact claims_entered _ _ n t
    have hbn : b = n := by
      apply hring.prev_inj (hys b hb) (hys n hnew)
      rw [(hclaims.move (hne b hb) n).prev_eq (hne b hb) post (hdone b hb),
        hclaims'.prev_eq (hne n hnew) post (hdone n hnew)]
    have hentered := hclaims.entered
    rw [hbn, hstage] at hentered
    exact hentered
  · -- `n` links itself behind `t`, which will set its own link to the head.
    have hnew : n ∈ news := horderly.mem (by simp [hstage])
    have ht : t ∈ news := horderly.mem (by simp [hu])
    have hnt : n ≠ t := by
      intro heq
      rw [heq, hu] at hstage
      cases hstage
    have hclaims : Claims c n t := horderly.claims n t (by rw [hstage]; rfl)
    have hsevered : Severed (move head n c) n t := by
      refine ⟨?_, .inl ⟨u, ?_⟩⟩
      · rw [move, hstage]
        exact Function.update_self ..
      · rw [move_stage_ne hnt.symm]
        exact hu
    have hend : Severed (run (move head) post (move head n c)) n t := by
      refine run_invariant (I := fun c => Severed c n t) ?_ post hsevered
      intro m c hc
      exact hc.move (hne n hnew) hnt m
    have hprev := (hclaims.move (hne n hnew) n).prev_eq (hne n hnew) post (hdone n hnew)
    have hnext := hring.next_prev (hys n hnew)
    rw [hprev] at hnext
    rcases hend.2 with ⟨v, hv⟩ | ⟨-, hout⟩
    · rw [hdone t ht] at hv
      cases hv
    · exact hout hnext

end Untimely

/-- **Insertions are not lost if and only if all moves are timely.** -/
theorem isRing_iff_timely {head : N} {s : Links N} {xs news : List N} (h : IsRing s head xs)
    (hnodup : news.Nodup) (hnew : ∀ n ∈ news, n ∉ head :: xs) {moves : List N}
    (hdone : ∀ n ∈ news, (run (move head) moves (begin s news)).stage n = .done) :
    (∃ ys, ys.Perm (xs ++ news) ∧ IsRing (run (move head) moves (begin s news)).links head ys) ↔
      Along (move head) (Timely head) moves (begin s news) := by
  constructor
  · intro hring
    obtain ⟨ys, hperm, hring⟩ := hring
    have hhead : head ∉ news := fun hmem => hnew head hmem List.mem_cons_self
    apply timely_of_isRing hhead hdone hring
    intro n hn
    exact hperm.mem_iff.2 (List.mem_append_right _ hn)
  · intro htimely
    obtain ⟨ns, hperm, hring⟩ := isRing_of_timely h hnodup hnew htimely hdone
    exact ⟨xs ++ ns, hperm.append_left xs, hring⟩

end Ring
