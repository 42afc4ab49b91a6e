import KernelElevator.Library.TailInsertion
import Mathlib.Data.Set.Insert

/-!
# Lists in memory

The operations of `list.h` on a memory of nodes, some of which are live. To read or write the links
of any other node fails.

* `Lists` — rings with different heads, live and disjoint.
* `Lists.listDel`, `Lists.listMoveTail` — a node leaves its ring, for nowhere or for the tail of
  another ring, and the rest stays as it is.
* `LoopInvariant.listForEachSafe` — the rule for `list_for_each_safe`, whose body may do so with the
  node it is at; `forEachSafe_history` — what its body keeps, it keeps.
-/

namespace Ring

universe u

variable {N : Type u}

/-! ## Chains -/

theorem chain_append {s : Links N} {last a x : N} {as bs : List N} :
    Chain s last a (as ++ x :: bs) ↔ Chain s x a as ∧ Chain s last x bs := by
  induction as generalizing a with
  | nil => rfl
  | cons c cs ih => simp only [List.cons_append, Chain, ih, and_assoc]

theorem Chain.next_eq {s : Links N} {last a : N} {xs : List N} (h : Chain s last a xs) :
    s.next a = xs.headD last := by
  cases xs with
  | nil => exact h.1
  | cons x xs => exact h.1.1

theorem Chain.prev_last_mem {s : Links N} {last a : N} {xs : List N} (h : Chain s last a xs) :
    s.prev last ∈ a :: xs := by
  induction xs generalizing a with
  | nil => exact List.mem_singleton.2 h.2
  | cons x xs ih => exact List.mem_cons_of_mem a (ih h.2)

theorem headD_mem (last : N) (xs : List N) : xs.headD last ∈ last :: xs := by
  cases xs with
  | nil => exact List.mem_singleton_self last
  | cons x xs => exact List.mem_cons_of_mem last List.mem_cons_self

/-- A chain depends on the links of its own nodes. -/
theorem Chain.congr {s s' : Links N} {last a : N} {xs : List N} (h : Chain s last a xs)
    (hnext : ∀ x ∈ a :: xs, s'.next x = s.next x)
    (hprev : ∀ x ∈ last :: xs, s'.prev x = s.prev x) : Chain s' last a xs := by
  induction xs generalizing a with
  | nil =>
    rw [Chain, hnext a List.mem_cons_self, hprev last List.mem_cons_self]
    exact h
  | cons y ys ih =>
    have hy := hprev y (List.mem_cons_of_mem _ List.mem_cons_self)
    refine ⟨?_, ih h.2 ?_ ?_⟩
    · rw [hnext a List.mem_cons_self, hy]
      exact h.1
    · intro x hx
      exact hnext x (List.mem_cons_of_mem _ hx)
    · intro x hx
      exact hprev x (List.cons_subset_cons _ (List.subset_cons_self _ _) hx)

theorem IsRing.congr {s s' : Links N} {head : N} {xs : List N} (h : IsRing s head xs)
    (hagree : ∀ x ∈ head :: xs, s'.next x = s.next x ∧ s'.prev x = s.prev x) :
    IsRing s' head xs :=
  ⟨h.chain.congr (fun x hx => (hagree x hx).1) (fun x hx => (hagree x hx).2), h.nodup⟩

/-- The links of a node in the middle lead to its neighbours. -/
theorem IsRing.neighbours {s : Links N} {head x : N} {as bs : List N}
    (h : IsRing s head (as ++ x :: bs)) :
    s.next x = bs.headD head ∧ s.prev x ∈ head :: as := by
  obtain ⟨hbefore, hafter⟩ := chain_append.1 h.chain
  exact ⟨hafter.next_eq, hbefore.prev_last_mem⟩

/-! ## A node leaves -/

variable [DecidableEq N]

/-- `__list_del_entry`: the neighbours of `x` are linked to each other. -/
def Links.unlink (s : Links N) (x : N) : Links N where
  next := Function.update s.next (s.prev x) (s.next x)
  prev := Function.update s.prev (s.next x) (s.prev x)

theorem Chain.unlink {s : Links N} {last a x : N} {as bs : List N} (hbefore : Chain s x a as)
    (hafter : Chain s last x bs) (hnodup : (a :: (as ++ bs)).Nodup) (hlast : last ∉ as ++ bs) :
    Chain (s.unlink x) last a (as ++ bs) := by
  induction as generalizing a with
  | nil =>
    obtain ⟨ha, hbs⟩ := List.nodup_cons.1 hnodup
    cases bs with
    | nil =>
      have hx : s.prev x = a := hbefore.2
      have hlast : s.next x = last := hafter.1
      simp [Chain, Links.unlink, hx, hlast]
    | cons y ys =>
      have hx : s.prev x = a := hbefore.2
      have hy : s.next x = y := hafter.1.1
      refine ⟨by simp [Links.unlink, hx, hy], hafter.2.congr ?_ ?_⟩
      · intro z hz
        have hza : z ≠ a := fun heq => ha (heq ▸ hz)
        simp [Links.unlink, hx, hza]
      · intro z hz
        have hzy : z ≠ y := by
          rintro rfl
          rcases List.mem_cons.1 hz with rfl | hz
          · exact hlast List.mem_cons_self
          · exact (List.nodup_cons.1 hbs).1 hz
        simp [Links.unlink, hy, hzy]
  | cons c cs ih =>
    obtain ⟨ha, hrest⟩ := List.nodup_cons.1 hnodup
    have hc : c ∉ cs ++ bs := (List.nodup_cons.1 hrest).1
    refine ⟨?_, ih hbefore.2 hrest fun hmem => hlast (List.mem_cons_of_mem _ hmem)⟩
    -- The neighbours of `x` are further on.
    have hprev : a ≠ s.prev x := by
      intro heq
      have hmem := hbefore.2.prev_last_mem
      rw [← heq] at hmem
      exact ha (List.mem_append_left bs hmem)
    have hnext : c ≠ s.next x := by
      intro heq
      have hmem := headD_mem last bs
      rw [← hafter.next_eq, ← heq] at hmem
      rcases List.mem_cons.1 hmem with rfl | hmem
      · exact hlast List.mem_cons_self
      · exact hc (List.mem_append_right cs hmem)
    simp only [Links.unlink, Function.update_of_ne hprev, Function.update_of_ne hnext]
    exact hbefore.1

theorem IsRing.unlink {s : Links N} {head x : N} {as bs : List N}
    (h : IsRing s head (as ++ x :: bs)) : IsRing (s.unlink x) head (as ++ bs) := by
  obtain ⟨hbefore, hafter⟩ := chain_append.1 h.chain
  have hnodup : (head :: (as ++ bs)).Nodup :=
    h.nodup.sublist (((List.sublist_cons_self x bs).append_left as).cons_cons head)
  exact ⟨hbefore.unlink hafter hnodup (List.nodup_cons.1 hnodup).1, hnodup⟩

/-! ## A node enters -/

/-- `list_add_tail`. -/
def Links.addTail (s : Links N) (x head : N) : Links N where
  next := Function.update (Function.update s.next x head) (s.prev head) x
  prev := Function.update (Function.update s.prev head x) x (s.prev head)

theorem IsRing.addTail {s : Links N} {head x : N} {xs : List N} (h : IsRing s head xs)
    (hx : x ∉ head :: xs) : IsRing (s.addTail x head) head (xs ++ [x]) := by
  have halone := isRing_alone h hx
  have hlinks : (Machine.run (move head) (List.replicate 5 x) (begin s [x])).links =
      s.addTail x head := by
    simp [List.replicate, move, begin, Links.addTail]
  rwa [hlinks] at halone

/-! ## The memory -/

structure Mem (N : Type u) where
  links : Links N
  live : N → Bool

namespace Mem

/-- `x->next`. -/
def next (m : Mem N) (x : N) : Option N := if m.live x then some (m.links.next x) else none

/-- `x->prev`. -/
def prev (m : Mem N) (x : N) : Option N := if m.live x then some (m.links.prev x) else none

/-- `x->next = n`. -/
def setNext (m : Mem N) (x n : N) : Option (Mem N) :=
  if m.live x then some { m with links.next := Function.update m.links.next x n } else none

/-- `x->prev = p`. -/
def setPrev (m : Mem N) (x p : N) : Option (Mem N) :=
  if m.live x then some { m with links.prev := Function.update m.links.prev x p } else none

/-- A node comes into being, or is freed. -/
def setLive (m : Mem N) (x : N) (live : Bool) : Mem N :=
  { m with live := Function.update m.live x live }

@[simp] theorem setLive_self (m : Mem N) (x : N) (live : Bool) :
    (m.setLive x live).live x = live := Function.update_self ..

/-! The functions of `list.h`. -/

def initListHead (m : Mem N) (head : N) : Option (Mem N) := do
  let m ← m.setNext head head
  m.setPrev head head

def listEmpty (m : Mem N) (head : N) : Option Bool := (m.next head).map (· = head)

def listDelEntry (m : Mem N) (x : N) : Option (Mem N) := do
  let p ← m.prev x
  let n ← m.next x
  let m ← m.setPrev n p
  m.setNext p n

def listDel (poison1 poison2 : N) (m : Mem N) (x : N) : Option (Mem N) := do
  let m ← m.listDelEntry x
  let m ← m.setNext x poison1
  m.setPrev x poison2

def listAddTail (m : Mem N) (x head : N) : Option (Mem N) := do
  let tail ← m.prev head
  let m ← m.setPrev head x
  let m ← m.setNext x head
  let m ← m.setPrev x tail
  m.setNext tail x

def listMoveTail (m : Mem N) (x head : N) : Option (Mem N) := do
  let m ← m.listDelEntry x
  m.listAddTail x head

/-! None of them allocates or frees a node. -/

section Live

variable {m m' : Mem N} {x n head : N}

theorem setNext_live (h : m.setNext x n = some m') : m'.live = m.live := by
  obtain ⟨-, h⟩ := Option.ite_none_right_eq_some.1 h
  rw [← Option.some.inj h]

theorem setPrev_live (h : m.setPrev x n = some m') : m'.live = m.live := by
  obtain ⟨-, h⟩ := Option.ite_none_right_eq_some.1 h
  rw [← Option.some.inj h]

theorem initListHead_live (h : m.initListHead head = some m') : m'.live = m.live := by
  obtain ⟨m₁, h₁, h₂⟩ := Option.bind_eq_some_iff.1 h
  rw [setPrev_live h₂, setNext_live h₁]

theorem listDelEntry_live (h : m.listDelEntry x = some m') : m'.live = m.live := by
  obtain ⟨p, -, h⟩ := Option.bind_eq_some_iff.1 h
  obtain ⟨n, -, h⟩ := Option.bind_eq_some_iff.1 h
  obtain ⟨m₁, h₁, h₂⟩ := Option.bind_eq_some_iff.1 h
  rw [setNext_live h₂, setPrev_live h₁]

theorem listDel_live {poison1 poison2 : N} (h : m.listDel poison1 poison2 x = some m') :
    m'.live = m.live := by
  obtain ⟨m₁, h₁, h⟩ := Option.bind_eq_some_iff.1 h
  obtain ⟨m₂, h₂, h₃⟩ := Option.bind_eq_some_iff.1 h
  rw [setPrev_live h₃, setNext_live h₂, listDelEntry_live h₁]

theorem listAddTail_live (h : m.listAddTail x head = some m') : m'.live = m.live := by
  obtain ⟨tail, -, h⟩ := Option.bind_eq_some_iff.1 h
  obtain ⟨m₁, h₁, h⟩ := Option.bind_eq_some_iff.1 h
  obtain ⟨m₂, h₂, h⟩ := Option.bind_eq_some_iff.1 h
  obtain ⟨m₃, h₃, h₄⟩ := Option.bind_eq_some_iff.1 h
  rw [setNext_live h₄, setPrev_live h₃, setNext_live h₂, setPrev_live h₁]

theorem listMoveTail_live (h : m.listMoveTail x head = some m') : m'.live = m.live := by
  obtain ⟨m₁, h₁, h₂⟩ := Option.bind_eq_some_iff.1 h
  rw [listAddTail_live h₂, listDelEntry_live h₁]

end Live

end Mem

/-- `list_for_each_safe`, standing on `pos` with the successor `n` saved: the nodes that it stands
on, what the body returns if it returns, and the state left. -/
def forEachSafe {σ ρ : Type u} (mem : σ → Mem N) (head : N) (body : N → σ → Option (Option ρ × σ)) :
    ℕ → N → N → σ → Option (List N × Option ρ × σ)
  | 0, _, _, _ => none
  | fuel + 1, pos, n, s =>
    if pos = head then some ([], none, s)
    else do
      match ← body pos s with
      | (some r, s) => return ([pos], some r, s)
      | (none, s) =>
        let n' ← (mem s).next n
        let (nodes, out) ← forEachSafe mem head body fuel n n' s
        return (pos :: nodes, out)

def listForEachSafe {σ ρ : Type u} (mem : σ → Mem N) (head : N)
    (body : N → σ → Option (Option ρ × σ)) (fuel : ℕ) (s : σ) :
    Option (List N × Option ρ × σ) := do
  let pos ← (mem s).next head
  let n ← (mem s).next pos
  forEachSafe mem head body fuel pos n s

/-! ## Several lists -/

/-- The lists in use are rings, live, and no two share a node. -/
structure Lists {ι : Type*} (used : Set ι) (head : ι → N) (xs : ι → List N) (m : Mem N) : Prop where
  ring : ∀ i ∈ used, IsRing m.links (head i) (xs i)
  live : ∀ i ∈ used, ∀ x ∈ head i :: xs i, m.live x = true
  disjoint : ∀ i ∈ used, ∀ j ∈ used, i ≠ j → List.Disjoint (head i :: xs i) (head j :: xs j)

namespace Lists

variable {ι : Type*} {used : Set ι} {head : ι → N} {xs : ι → List N} {m : Mem N}

omit [DecidableEq N] in
/-- Where the traversal of a list begins. -/
theorem first (h : Lists used head xs m) {i : ι} (hi : i ∈ used) :
    m.next (head i) = some ((xs i).headD (head i)) := by
  rw [Mem.next, if_pos (h.live i hi _ List.mem_cons_self), (h.ring i hi).chain.next_eq]

omit [DecidableEq N] in
/-- Where it goes on. -/
theorem next (h : Lists used head xs m) {i : ι} (hi : i ∈ used) {x : N} {as bs : List N}
    (hxs : xs i = as ++ x :: bs) : m.next x = some (bs.headD (head i)) := by
  have hring := h.ring i hi
  have hlive := h.live i hi
  rw [hxs] at hring hlive
  rw [Mem.next, if_pos (hlive x (by simp)), hring.neighbours.1]

omit [DecidableEq N] in
theorem listEmpty [DecidableEq N] (h : Lists used head xs m) {i : ι} (hi : i ∈ used) :
    m.listEmpty (head i) = some (decide (xs i = [])) := by
  rw [Mem.listEmpty, h.first hi]
  cases hxs : xs i with
  | nil => simp
  | cons x ys =>
    have hne : x ≠ head i := by
      intro heq
      have hnodup := (h.ring i hi).nodup
      rw [hxs, heq] at hnodup
      exact (List.nodup_cons.1 hnodup).1 List.mem_cons_self
    simp [hne]

omit [DecidableEq N] in
/-- The other lists do not see what happens to the nodes of one list and to a node of no list. -/
theorem frame [DecidableEq ι] (h : Lists used head xs m) {i : ι} (hi : i ∈ used) {ys : List N}
    {m' : Mem N} (hring : IsRing m'.links (head i) ys) (hlive : ∀ x, m.live x → m'.live x)
    (hys : ∀ x ∈ ys, m'.live x ∧ (x ∈ xs i ∨ ∀ j ∈ used, x ∉ head j :: xs j))
    (hagree : ∀ x, x ∉ head i :: xs i → (∃ j ∈ used, x ∈ head j :: xs j) →
      m'.links.next x = m.links.next x ∧ m'.links.prev x = m.links.prev x) :
    Lists used head (Function.update xs i ys) m' := by
  have hout : ∀ j ∈ used, j ≠ i → List.Disjoint (head i :: ys) (head j :: xs j) := by
    intro j hj hji x hx hxj
    rcases List.mem_cons.1 hx with rfl | hx
    · exact h.disjoint i hi j hj hji.symm List.mem_cons_self hxj
    · rcases (hys x hx).2 with hx | hx
      · exact h.disjoint i hi j hj hji.symm (List.mem_cons_of_mem _ hx) hxj
      · exact hx j hj hxj
  refine ⟨?_, ?_, ?_⟩
  · intro j hj
    by_cases hji : j = i
    · rw [hji, Function.update_self]
      exact hring
    · rw [Function.update_of_ne hji]
      refine (h.ring j hj).congr fun x hx => hagree x ?_ ⟨j, hj, hx⟩
      exact fun hxi => h.disjoint i hi j hj (Ne.symm hji) hxi hx
  · intro j hj x hx
    by_cases hji : j = i
    · rw [hji, Function.update_self] at hx
      rcases List.mem_cons.1 hx with rfl | hx
      · exact hlive _ (h.live i hi _ List.mem_cons_self)
      · exact (hys x hx).1
    · rw [Function.update_of_ne hji] at hx
      exact hlive x (h.live j hj x hx)
  · intro j hj k hk hjk
    by_cases hji : j = i
    · subst hji
      rw [Function.update_self, Function.update_of_ne hjk.symm]
      exact hout k hk hjk.symm
    · by_cases hki : k = i
      · subst hki
        rw [Function.update_self, Function.update_of_ne hjk]
        exact fun x hxj hxi => hout j hj hjk hxi hxj
      · rw [Function.update_of_ne hji, Function.update_of_ne hki]
        exact h.disjoint j hj k hk hjk

theorem listDelEntry [DecidableEq ι] (h : Lists used head xs m) {i : ι} (hi : i ∈ used) {x : N}
    {as bs : List N} (hxs : xs i = as ++ x :: bs) :
    ∃ m', m.listDelEntry x = some m' ∧ m'.live = m.live ∧
      Lists used head (Function.update xs i (as ++ bs)) m' ∧
      ∀ j ∈ used, x ∉ head j :: Function.update xs i (as ++ bs) j := by
  have hring := h.ring i hi
  have hlive := h.live i hi
  rw [hxs] at hring hlive
  obtain ⟨hnext, hprev⟩ := hring.neighbours
  have hx : m.live x = true := hlive x (by simp)
  have hprev' : m.links.prev x ∈ head i :: xs i := by
    rw [hxs]
    exact List.cons_subset_cons _ (List.subset_append_left as _) hprev
  have hnext' : m.links.next x ∈ head i :: xs i := by
    rw [hxs, hnext]
    refine List.cons_subset_cons _ ?_ (headD_mem (head i) bs)
    exact List.Subset.trans (List.subset_cons_self x bs) (List.subset_append_right as _)
  have hp := h.live i hi _ hprev'
  have hn := h.live i hi _ hnext'
  refine ⟨{ m with links := m.links.unlink x }, ?_, rfl, ?_, ?_⟩
  · simp [Mem.listDelEntry, Mem.prev, Mem.next, Mem.setPrev, Mem.setNext, hx, hp, hn, Links.unlink]
  · refine h.frame hi hring.unlink (fun _ hy => hy) ?_ ?_
    · intro y hy
      have hmem : y ∈ as ++ x :: bs := ((List.sublist_cons_self x bs).append_left as).subset hy
      exact ⟨hlive y (List.mem_cons_of_mem _ hmem), .inl (hxs ▸ hmem)⟩
    · intro y hy _
      have hyp : y ≠ m.links.prev x := fun heq => hy (heq ▸ hprev')
      have hyn : y ≠ m.links.next x := fun heq => hy (heq ▸ hnext')
      exact ⟨Function.update_of_ne hyp _ _, Function.update_of_ne hyn _ _⟩
  · intro j hj
    have hnodup := hring.nodup
    by_cases hji : j = i
    · subst hji
      rw [Function.update_self, List.mem_cons, List.mem_append]
      rw [List.nodup_cons, List.nodup_append, List.nodup_cons] at hnodup
      obtain ⟨hhead, -, ⟨hbs, -⟩, hcross⟩ := hnodup
      rintro (rfl | has | hmem)
      · simp at hhead
      · exact hcross x has x List.mem_cons_self rfl
      · exact hbs hmem
    · rw [Function.update_of_ne hji]
      exact h.disjoint i hi j hj (Ne.symm hji) (by simp [hxs])

theorem listDel [DecidableEq ι] (h : Lists used head xs m) {i : ι} (hi : i ∈ used) {x : N}
    {as bs : List N} (hxs : xs i = as ++ x :: bs) (poison1 poison2 : N) :
    ∃ m', m.listDel poison1 poison2 x = some m' ∧ m'.live = m.live ∧
      Lists used head (Function.update xs i (as ++ bs)) m' ∧
      ∀ j ∈ used, x ∉ head j :: Function.update xs i (as ++ bs) j := by
  obtain ⟨m', hm', hlive, hlists, hout⟩ := h.listDelEntry hi hxs
  have hx : m'.live x = true := by
    rw [hlive]
    exact h.live i hi x (by simp [hxs])
  refine ⟨{ m' with links.next := Function.update m'.links.next x poison1
                    links.prev := Function.update m'.links.prev x poison2 }, ?_, hlive, ?_, hout⟩
  · simp [Mem.listDel, hm', Mem.setNext, Mem.setPrev, hx]
  · refine ⟨?_, hlists.live, hlists.disjoint⟩
    intro j hj
    refine (hlists.ring j hj).congr fun y hy => ?_
    have hyx : y ≠ x := fun heq => hout j hj (heq ▸ hy)
    exact ⟨Function.update_of_ne hyx _ _, Function.update_of_ne hyx _ _⟩

theorem listAddTail [DecidableEq ι] (h : Lists used head xs m) {i : ι} (hi : i ∈ used) {x : N}
    (hx : m.live x = true) (hout : ∀ j ∈ used, x ∉ head j :: xs j) :
    ∃ m', m.listAddTail x (head i) = some m' ∧ m'.live = m.live ∧
      Lists used head (Function.update xs i (xs i ++ [x])) m' := by
  have hring := h.ring i hi
  have htail : m.links.prev (head i) ∈ head i :: xs i := hring.chain.prev_last_mem
  have hhead := h.live i hi _ List.mem_cons_self
  have ht := h.live i hi _ htail
  refine ⟨{ m with links := m.links.addTail x (head i) }, ?_, rfl, ?_⟩
  · simp [Mem.listAddTail, Mem.prev, Mem.setPrev, Mem.setNext, hx, hhead, ht, Links.addTail]
  · refine h.frame hi (hring.addTail (hout i hi)) (fun _ hy => hy) ?_ ?_
    · intro y hy
      rcases List.mem_append.1 hy with hy | hy
      · exact ⟨h.live i hi y (List.mem_cons_of_mem _ hy), .inl hy⟩
      · rw [List.mem_singleton.1 hy]
        exact ⟨hx, .inr hout⟩
    · intro y hy hmem
      obtain ⟨j, hj, hyj⟩ := hmem
      have hyx : y ≠ x := fun heq => hout j hj (heq ▸ hyj)
      have hyt : y ≠ m.links.prev (head i) := fun heq => hy (heq ▸ htail)
      have hyh : y ≠ head i := fun heq => hy (heq ▸ List.mem_cons_self)
      simp [Links.addTail, hyx, hyt, hyh]

/-- A node goes from its list to the tail of another one. -/
theorem listMoveTail [DecidableEq ι] (h : Lists used head xs m) {i j : ι} (hi : i ∈ used)
    (hj : j ∈ used) (hij : i ≠ j) {x : N} {as bs : List N} (hxs : xs i = as ++ x :: bs) :
    ∃ m', m.listMoveTail x (head j) = some m' ∧ m'.live = m.live ∧
      Lists used head (Function.update (Function.update xs i (as ++ bs)) j (xs j ++ [x])) m' := by
  obtain ⟨m₁, hm₁, hlive₁, hlists, hout⟩ := h.listDelEntry hi hxs
  have hx : m₁.live x = true := by
    rw [hlive₁]
    exact h.live i hi x (by simp [hxs])
  obtain ⟨m₂, hm₂, hlive₂, hlists₂⟩ := hlists.listAddTail hj hx hout
  rw [Function.update_of_ne hij.symm] at hlists₂
  exact ⟨m₂, by simp [Mem.listMoveTail, hm₁, hm₂], hlive₂.trans hlive₁, hlists₂⟩

/-- A node of no list is allocated or freed. -/
theorem setLive (h : Lists used head xs m) {x : N} (hout : ∀ j ∈ used, x ∉ head j :: xs j)
    (live : Bool) : Lists used head xs (m.setLive x live) := by
  refine ⟨h.ring, fun i hi y hy => ?_, h.disjoint⟩
  have hyx : y ≠ x := fun heq => hout i hi (heq ▸ hy)
  exact (Function.update_of_ne hyx _ _).trans (h.live i hi y hy)

/-- A new list. -/
theorem initListHead (h : Lists used head xs m) {i : ι} (hi : m.live (head i) = true)
    (hxs : xs i = []) (hout : ∀ j ∈ used, head i ∉ head j :: xs j) :
    ∃ m', m.initListHead (head i) = some m' ∧ m'.live = m.live ∧
      Lists (insert i used) head xs m' := by
  refine ⟨{ m with links.next := Function.update m.links.next (head i) (head i)
                   links.prev := Function.update m.links.prev (head i) (head i) },
    by simp [Mem.initListHead, Mem.setNext, Mem.setPrev, hi], rfl, ?_, ?_, ?_⟩
  · intro j hj
    rcases hj with rfl | hj
    · rw [hxs]
      exact ⟨by simp [Chain], by simp⟩
    · refine (h.ring j hj).congr fun y hy => ?_
      have hyi : y ≠ head i := fun heq => hout j hj (heq ▸ hy)
      exact ⟨Function.update_of_ne hyi _ _, Function.update_of_ne hyi _ _⟩
  · intro j hj y hy
    rcases hj with rfl | hj
    · rw [hxs, List.mem_singleton] at hy
      exact hy ▸ hi
    · exact h.live j hj y hy
  · intro j hj k hk hjk
    rcases hj with rfl | hj <;> rcases hk with rfl | hk
    · exact absurd rfl hjk
    · rw [hxs, List.singleton_disjoint]
      exact hout k hk
    · rw [hxs, List.disjoint_singleton]
      exact hout j hj
    · exact h.disjoint j hj k hk hjk

omit [DecidableEq N] in
theorem mono (h : Lists used head xs m) {used' : Set ι} (hsub : used' ⊆ used) :
    Lists used' head xs m :=
  ⟨fun i hi => h.ring i (hsub hi), fun i hi => h.live i (hsub hi),
    fun i hi j hj => h.disjoint i (hsub hi) j (hsub hj)⟩

end Lists

/-! ## The rule for loops -/

section Loop

variable {σ ρ : Type u} {α γ : Type*} {mem : σ → Mem N} {head : N}
  {body : N → σ → Option (Option ρ × σ)} (node : α → N)

/-- `I` holds of the elements ahead, the ghost state and the state each time the loop is at its
head, and `Q` is what the rest of the loop achieves. The body, at the first of the elements ahead,
returns, or leaves `I` true of the others, whatever it does with the node it is at. -/
structure LoopInvariant (mem : σ → Mem N) (head : N) (body : N → σ → Option (Option ρ × σ))
    (I : List α → γ → σ → Prop) (Q : List α → γ → List N → Option ρ → σ → Prop) : Prop where
  ne : ∀ a, node a ≠ head
  nil : ∀ g s, I [] g s → (∃ n, (mem s).next head = some n) ∧ Q [] g [] none s
  next : ∀ a as g s, I (a :: as) g s → (mem s).next (node a) = some ((as.map node).headD head)
  cons : ∀ a as g s, I (a :: as) g s →
    (∃ r t, body (node a) s = some (some r, t) ∧ Q (a :: as) g [node a] (some r) t) ∨
      ∃ g' t, body (node a) s = some (none, t) ∧ I as g' t ∧
        ∀ nodes r u, Q as g' nodes r u → Q (a :: as) g (node a :: nodes) r u

variable {node} {I : List α → γ → σ → Prop} {Q : List α → γ → List N → Option ρ → σ → Prop}
  {as : List α} {g : γ} {s : σ} {fuel : ℕ}

omit [DecidableEq N] in
theorem LoopInvariant.exists_next (h : LoopInvariant node mem head body I Q) (hs : I as g s) :
    ∃ n, (mem s).next ((as.map node).headD head) = some n := by
  cases as with
  | nil => exact (h.nil g s hs).1
  | cons a as => exact ⟨_, h.next a as g s hs⟩

/-- **The rule for `list_for_each_safe`.** -/
theorem LoopInvariant.forEachSafe (h : LoopInvariant node mem head body I Q) (hs : I as g s)
    (hfuel : as.length < fuel) {n : N} (hn : (mem s).next ((as.map node).headD head) = some n) :
    ∃ nodes r t, forEachSafe mem head body fuel ((as.map node).headD head) n s =
      some (nodes, r, t) ∧ Q as g nodes r t := by
  induction as generalizing g s fuel n with
  | nil =>
    obtain ⟨fuel, rfl⟩ := Nat.exists_eq_succ_of_ne_zero (Nat.ne_zero_of_lt hfuel)
    exact ⟨[], none, s, by simp [Ring.forEachSafe], (h.nil g s hs).2⟩
  | cons a as ih =>
    obtain ⟨fuel, rfl⟩ := Nat.exists_eq_succ_of_ne_zero (Nat.ne_zero_of_lt hfuel)
    have hne := h.ne a
    rcases h.cons a as g s hs with ⟨r, t, hrun, hQ⟩ | ⟨g', t, hrun, ht, hQ⟩
    · exact ⟨[node a], some r, t, by simp [Ring.forEachSafe, hne, hrun], hQ⟩
    · -- The saved successor is the node of the next element, which is still linked.
      obtain rfl : (as.map node).headD head = n :=
        Option.some.inj ((h.next a as g s hs).symm.trans hn)
      obtain ⟨n', hn'⟩ := h.exists_next ht
      obtain ⟨nodes, r, u, hloop, hrest⟩ := ih ht (Nat.lt_of_succ_lt_succ hfuel) hn'
      refine ⟨node a :: nodes, r, u, ?_, hQ nodes r u hrest⟩
      generalize (as.map node).headD head = next at hn' hloop ⊢
      simp [Ring.forEachSafe, hne, hrun, hn', hloop]

theorem LoopInvariant.listForEachSafe (h : LoopInvariant node mem head body I Q) (hs : I as g s)
    (hfirst : (mem s).next head = some ((as.map node).headD head)) (hfuel : as.length < fuel) :
    ∃ nodes r t, listForEachSafe mem head body fuel s = some (nodes, r, t) ∧ Q as g nodes r t := by
  obtain ⟨n, hn⟩ := h.exists_next hs
  obtain ⟨nodes, r, t, hloop, hQ⟩ := h.forEachSafe hs hfuel hn
  refine ⟨nodes, r, t, ?_, hQ⟩
  simp only [Ring.listForEachSafe, hfirst, hn, Option.bind_eq_bind, Option.bind_some, hloop]

/-- **The history rule.** What holds of the nodes that the body has been at and of the state, if the
body keeps it, holds after the loop of those that it has stood on. -/
theorem forEachSafe_history {P : List N → σ → Prop}
    (hbody : ∀ past pos s r t, P past s → body pos s = some (r, t) → P (past ++ [pos]) t)
    {past nodes : List N} {pos n : N} {r : Option ρ} {t : σ} (hs : P past s)
    (hrun : forEachSafe mem head body fuel pos n s = some (nodes, r, t)) : P (past ++ nodes) t := by
  induction fuel generalizing past nodes pos n s with
  | zero => exact absurd hrun (by simp [forEachSafe])
  | succ fuel ih =>
    rw [forEachSafe] at hrun
    by_cases hpos : pos = head
    · rw [if_pos hpos] at hrun
      obtain ⟨rfl, -, rfl⟩ : [] = nodes ∧ none = r ∧ s = t := by simpa using hrun
      rwa [List.append_nil]
    · rw [if_neg hpos] at hrun
      obtain ⟨⟨r', u⟩, hu, hrun⟩ := Option.bind_eq_some_iff.1 hrun
      have hpast := hbody past pos s r' u hs hu
      cases r' with
      | some r' =>
        obtain ⟨rfl, -, rfl⟩ : [pos] = nodes ∧ some r' = r ∧ u = t := by simpa using hrun
        exact hpast
      | none =>
        obtain ⟨n', -, hrun⟩ := Option.bind_eq_some_iff.1 hrun
        obtain ⟨⟨rest, out⟩, hrest, hrun⟩ := Option.bind_eq_some_iff.1 hrun
        obtain ⟨rfl, rfl⟩ : pos :: rest = nodes ∧ out = (r, t) := by simpa using hrun
        have hend := ih hpast hrest
        rwa [List.append_assoc, List.singleton_append] at hend

end Loop

end Ring
