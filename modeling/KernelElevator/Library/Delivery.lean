import Mathlib.Algebra.BigOperators.Group.Finset.Piecewise
import Mathlib.Algebra.BigOperators.Group.List.Basic
import Mathlib.Data.List.Nodup
import Mathlib.Tactic.Abel

/-!
# Pickup and delivery

A *delivery service* over any floors `F` and parcels `P`: parcels arrive at the end of a floor's
queue, each once; the head of a queue boards the vehicle or is served where it stands; anybody
riding may be delivered. A `History` is a list of such acts with the site it leads to.

* `History.fifo` — each floor is a FIFO channel: its arrivals are those that left it, in order,
  followed by its queue.
* `History.conserves` — over the queues, the vehicle and those done, any weight adds up to that
  of the arrivals; `History.count_eq_one` is the special case that every arrival is in exactly
  one place.
* `History.riding_eq` — the vehicle lists those riding in the order in which they boarded.
-/

namespace Delivery

variable {F P : Type*}

inductive Act (F P : Type*) where
  | arrive (f : F) (p : P)
  | board (f : F) (p : P)
  | serve (f : F) (p : P)
  | deliver (p : P)

/-- The queue of each floor, and those on the vehicle. -/
structure Site (F P : Type*) where
  queue : F → List P
  riding : List P

/-! ## Reading a list of acts -/

def arrivalOf : Act F P → Option P
  | .arrive _ p => some p
  | _ => none

def boardingOf : Act F P → Option P
  | .board _ p => some p
  | _ => none

def deliveryOf : Act F P → Option P
  | .deliver p => some p
  | _ => none

def serviceOf : Act F P → Option P
  | .serve _ p => some p
  | .deliver p => some p
  | _ => none

def arrivalAt [DecidableEq F] (f : F) : Act F P → Option P
  | .arrive g p => if g = f then some p else none
  | _ => none

def departureAt [DecidableEq F] (f : F) : Act F P → Option P
  | .board g p => if g = f then some p else none
  | .serve g p => if g = f then some p else none
  | _ => none

def arrived (acts : List (Act F P)) : List P := acts.filterMap arrivalOf
def boarded (acts : List (Act F P)) : List P := acts.filterMap boardingOf
def delivered (acts : List (Act F P)) : List P := acts.filterMap deliveryOf

/-- Those served, where they stood or by delivery. -/
def done (acts : List (Act F P)) : List P := acts.filterMap serviceOf

def arrivedAt [DecidableEq F] (f : F) (acts : List (Act F P)) : List P :=
  acts.filterMap (arrivalAt f)

/-- Those that left the queue of `f`, in order. -/
def leftAt [DecidableEq F] (f : F) (acts : List (Act F P)) : List P :=
  acts.filterMap (departureAt f)

theorem filterMap_snoc {α β : Type*} (g : α → Option β) (l : List α) (a : α) :
    (l ++ [a]).filterMap g = l.filterMap g ++ (g a).toList := by
  cases h : g a <;> simp [h]

section Snoc

variable (acts : List (Act F P)) (a : Act F P)

@[simp] theorem arrived_snoc : arrived (acts ++ [a]) = arrived acts ++ (arrivalOf a).toList :=
  filterMap_snoc _ _ _

@[simp] theorem boarded_snoc : boarded (acts ++ [a]) = boarded acts ++ (boardingOf a).toList :=
  filterMap_snoc _ _ _

@[simp] theorem delivered_snoc :
    delivered (acts ++ [a]) = delivered acts ++ (deliveryOf a).toList :=
  filterMap_snoc _ _ _

@[simp] theorem done_snoc : done (acts ++ [a]) = done acts ++ (serviceOf a).toList :=
  filterMap_snoc _ _ _

@[simp] theorem arrivedAt_snoc [DecidableEq F] (f : F) :
    arrivedAt f (acts ++ [a]) = arrivedAt f acts ++ (arrivalAt f a).toList :=
  filterMap_snoc _ _ _

@[simp] theorem leftAt_snoc [DecidableEq F] (f : F) :
    leftAt f (acts ++ [a]) = leftAt f acts ++ (departureAt f a).toList :=
  filterMap_snoc _ _ _

end Snoc

theorem mem_arrived {acts : List (Act F P)} {p : P} :
    p ∈ arrived acts ↔ ∃ f, Act.arrive f p ∈ acts := by
  simp only [arrived, List.mem_filterMap]
  constructor
  · intro h
    obtain ⟨a, ha, hp⟩ := h
    cases a <;> simp_all [arrivalOf]
    exact ⟨_, ha⟩
  · intro h
    obtain ⟨f, hf⟩ := h
    exact ⟨_, hf, rfl⟩

theorem mem_arrivedAt [DecidableEq F] {acts : List (Act F P)} {f : F} {p : P} :
    p ∈ arrivedAt f acts ↔ Act.arrive f p ∈ acts := by
  simp only [arrivedAt, List.mem_filterMap]
  constructor
  · intro h
    obtain ⟨a, ha, hp⟩ := h
    cases a with
    | arrive g q =>
      simp only [arrivalAt, Option.ite_none_right_eq_some, Option.some.injEq] at hp
      obtain ⟨rfl, rfl⟩ := hp
      exact ha
    | _ => simp [arrivalAt] at hp
  · intro hf
    exact ⟨_, hf, by simp [arrivalAt]⟩

theorem delivered_subset_done (acts : List (Act F P)) : delivered acts ⊆ done acts := by
  intro p hp
  obtain ⟨a, ha, hap⟩ := List.mem_filterMap.1 hp
  cases a with
  | deliver q => exact List.mem_filterMap.2 ⟨_, ha, hap⟩
  | _ => simp [deliveryOf] at hap

variable [DecidableEq F] [DecidableEq P]

/-! ## Histories -/

/-- One act, after the acts `acts`. -/
inductive Step (acts : List (Act F P)) : Site F P → Act F P → Site F P → Prop
  | arrive (x : Site F P) (f : F) (p : P) : p ∉ arrived acts →
      Step acts x (.arrive f p) ⟨Function.update x.queue f (x.queue f ++ [p]), x.riding⟩
  | board (x : Site F P) (f : F) (p : P) (rest : List P) : x.queue f = p :: rest →
      Step acts x (.board f p) ⟨Function.update x.queue f rest, x.riding ++ [p]⟩
  | serve (x : Site F P) (f : F) (p : P) (rest : List P) : x.queue f = p :: rest →
      Step acts x (.serve f p) ⟨Function.update x.queue f rest, x.riding⟩
  | deliver (x : Site F P) (p : P) : p ∈ x.riding →
      Step acts x (.deliver p) ⟨x.queue, x.riding.erase p⟩

/-- The site `acts` lead to, from empty queues and an empty vehicle. -/
inductive History : List (Act F P) → Site F P → Prop
  | nil : History [] ⟨fun _ => [], []⟩
  | snoc {acts : List (Act F P)} {x y : Site F P} {a : Act F P} :
      History acts x → Step acts x a y → History (acts ++ [a]) y

/-- **Each floor is FIFO.** -/
theorem History.fifo {acts : List (Act F P)} {x : Site F P} (h : History acts x) (f : F) :
    arrivedAt f acts = leftAt f acts ++ x.queue f := by
  induction h with
  | nil => rfl
  | snoc _ hstep ih =>
    rw [arrivedAt_snoc, leftAt_snoc, ih]
    cases hstep with
    | arrive g p _ =>
      by_cases hg : f = g
      · subst hg
        simp [arrivalAt, departureAt]
      · simp [arrivalAt, departureAt, hg, Ne.symm hg]
    | board g p rest hq | serve g p rest hq =>
      by_cases hg : f = g
      · subst hg
        simp [arrivalAt, departureAt, hq]
      · simp [arrivalAt, departureAt, hg, Ne.symm hg]
    | deliver p _ => simp [arrivalAt, departureAt]

theorem History.arrive_mem_of_queue {acts : List (Act F P)} {x : Site F P} (h : History acts x)
    {f : F} {p : P} (hp : p ∈ x.queue f) : Act.arrive f p ∈ acts := by
  rw [← mem_arrivedAt, h.fifo f]
  exact List.mem_append_right _ hp

theorem History.nodup_arrived {acts : List (Act F P)} {x : Site F P} (h : History acts x) :
    (arrived acts).Nodup := by
  induction h with
  | nil => exact List.nodup_nil
  | snoc _ hstep ih =>
    rw [arrived_snoc]
    cases hstep with
    | arrive f p hfresh =>
      refine List.nodup_append.2 ⟨ih, List.nodup_singleton p, fun a ha b hb => ?_⟩
      rw [List.mem_singleton.1 hb]
      rintro rfl
      exact hfresh ha
    | _ => simpa [arrivalOf] using ih

omit [DecidableEq P] in
theorem arrivedAt_sublist (f : F) (acts : List (Act F P)) :
    (arrivedAt f acts).Sublist (arrived acts) := by
  induction acts with
  | nil => exact .slnil
  | cons a acts ih =>
    cases a with
    | arrive g p =>
      by_cases hg : g = f
      · simpa [arrivedAt, arrived, arrivalAt, arrivalOf, hg] using ih
      · simpa [arrivedAt, arrived, arrivalAt, arrivalOf, hg] using ih.cons p
    | _ => exact ih

theorem History.nodup_arrivedAt {acts : List (Act F P)} {x : Site F P} (h : History acts x)
    (f : F) : (arrivedAt f acts).Nodup :=
  h.nodup_arrived.sublist (arrivedAt_sublist f acts)

section Conservation

variable {M : Type*} [AddCommMonoid M] (w : P → M)

/-- The weight of a list. -/
def weigh (ps : List P) : M := (ps.map w).sum

omit [DecidableEq P] in
@[simp] theorem weigh_nil : weigh w [] = 0 := rfl

omit [DecidableEq P] in
@[simp] theorem weigh_cons (p : P) (ps : List P) : weigh w (p :: ps) = w p + weigh w ps := rfl

omit [DecidableEq P] in
@[simp] theorem weigh_append (ps qs : List P) :
    weigh w (ps ++ qs) = weigh w ps + weigh w qs := by
  simp [weigh]

theorem weigh_erase {ps : List P} {p : P} (h : p ∈ ps) :
    weigh w ps = w p + weigh w (ps.erase p) :=
  (List.sum_map_erase w h).symm

omit [DecidableEq P] in
theorem sum_weigh_eq {S : Finset F} {f : F} (hf : f ∈ S) (q : F → List P) :
    ∑ g ∈ S, weigh w (q g) = weigh w (q f) + ∑ g ∈ S.erase f, weigh w (q g) :=
  (Finset.add_sum_erase S _ hf).symm

omit [DecidableEq P] in
/-- Rewriting one queue changes the sum over the queues at that floor only. -/
theorem sum_weigh_update {S : Finset F} {f : F} (hf : f ∈ S) (q : F → List P) (l : List P) :
    ∑ g ∈ S, weigh w (Function.update q f l g) =
      weigh w l + ∑ g ∈ S.erase f, weigh w (q g) := by
  rw [sum_weigh_eq w hf, Function.update_self]
  congr 1
  apply Finset.sum_congr rfl
  intro g hg
  rw [Function.update_of_ne (Finset.ne_of_mem_erase hg)]

/-- **Nothing is lost or made.** The arrivals weigh what the queues, the vehicle and those done
weigh together, when `S` holds every floor somebody arrived at. -/
theorem History.conserves {acts : List (Act F P)} {x : Site F P} (h : History acts x)
    {S : Finset F} (hS : ∀ f p, Act.arrive f p ∈ acts → f ∈ S) :
    weigh w (arrived acts) =
      ∑ f ∈ S, weigh w (x.queue f) + weigh w x.riding + weigh w (done acts) := by
  induction h with
  | nil => simp [arrived, done]
  | snoc h hstep ih =>
    have hqueue : ∀ {f p rest}, Site.queue _ f = p :: rest → f ∈ S := fun hq =>
      hS _ _ (List.mem_append_left _ (h.arrive_mem_of_queue (hq ▸ List.mem_cons_self)))
    rw [arrived_snoc, done_snoc, weigh_append, weigh_append,
      ih fun f p hp => hS f p (List.mem_append_left _ hp)]
    cases hstep with
    | arrive f p _ =>
      have hf : f ∈ S := hS f p (List.mem_append_right _ (List.mem_singleton_self _))
      rw [sum_weigh_update w hf, sum_weigh_eq w hf]
      simp only [arrivalOf, serviceOf, Option.toList, weigh_append, weigh_cons, weigh_nil]
      abel
    | board f p rest hq =>
      rw [sum_weigh_update w (hqueue hq), sum_weigh_eq w (hqueue hq), hq]
      simp only [arrivalOf, serviceOf, Option.toList, weigh_append, weigh_cons, weigh_nil]
      abel
    | serve f p rest hq =>
      rw [sum_weigh_update w (hqueue hq), sum_weigh_eq w (hqueue hq), hq]
      simp only [arrivalOf, serviceOf, Option.toList, weigh_cons, weigh_nil]
      abel
    | deliver p hp =>
      rw [weigh_erase w hp]
      simp only [arrivalOf, serviceOf, Option.toList, weigh_cons, weigh_nil]
      abel

end Conservation

/-! ## Where everybody is -/

omit [DecidableEq F] in
theorem weigh_count (p : P) (ps : List P) :
    weigh (fun q => if q = p then 1 else 0) ps = ps.count p := by
  induction ps with
  | nil => rfl
  | cons q ps ih =>
    rw [weigh_cons, ih, List.count_cons, add_comm]
    simp only [beq_iff_eq]

omit [DecidableEq F] [DecidableEq P] in
theorem weigh_length (ps : List P) : weigh (fun _ => 1) ps = ps.length := by
  simp [weigh]

omit [DecidableEq P] in
/-- The floors somebody arrived at are finitely many. -/
theorem exists_floors (acts : List (Act F P)) :
    ∃ S : Finset F, ∀ f p, Act.arrive f p ∈ acts → f ∈ S := by
  induction acts with
  | nil => exact ⟨∅, fun f p h => absurd h (List.not_mem_nil)⟩
  | cons a acts ih =>
    obtain ⟨S, hS⟩ := ih
    cases a with
    | arrive g q =>
      refine ⟨insert g S, fun f p h => ?_⟩
      rcases List.mem_cons.1 h with h | h
      · cases h
        exact Finset.mem_insert_self _ S
      · exact Finset.mem_insert_of_mem (hS f p h)
    | _ => exact ⟨S, fun f p h => hS f p (by simpa using h)⟩

theorem History.count_arrived {acts : List (Act F P)} {x : Site F P} (h : History acts x)
    {S : Finset F} (hS : ∀ f p, Act.arrive f p ∈ acts → f ∈ S) (p : P) :
    (arrived acts).count p =
      ∑ f ∈ S, (x.queue f).count p + x.riding.count p + (done acts).count p := by
  have hweigh := h.conserves (fun q => if q = p then 1 else 0 : P → Nat) hS
  simpa only [weigh_count] using hweigh

/-- Those riding and those done have arrived. -/
theorem History.mem_arrived_of_left {acts : List (Act F P)} {x : Site F P} (h : History acts x)
    {p : P} (hp : p ∈ x.riding ∨ p ∈ done acts) : p ∈ arrived acts := by
  obtain ⟨S, hS⟩ := exists_floors acts
  have hcount := h.count_arrived hS p
  rw [← List.count_pos_iff, hcount]
  rcases hp with hp | hp
  · have hpos := List.count_pos_iff.2 hp
    omega
  · have hpos := List.count_pos_iff.2 hp
    omega

theorem History.count_le_one {acts : List (Act F P)} {x : Site F P} (h : History acts x) (p : P) :
    x.riding.count p + (done acts).count p ≤ 1 := by
  obtain ⟨S, hS⟩ := exists_floors acts
  have hcount := h.count_arrived hS p
  have hone := List.nodup_iff_count_le_one.1 h.nodup_arrived p
  omega

theorem History.nodup_riding {acts : List (Act F P)} {x : Site F P} (h : History acts x) :
    x.riding.Nodup :=
  List.nodup_iff_count_le_one.2 fun p => le_trans (Nat.le_add_right _ _) (h.count_le_one p)

theorem Step.fresh {acts : List (Act F P)} {x y : Site F P} {f : F} {p : P}
    (h : Step acts x (.arrive f p) y) : p ∉ arrived acts := by
  cases h with
  | arrive _ _ hfresh => exact hfresh

/-- Somebody arrives at one floor only. -/
theorem History.floor_unique {acts : List (Act F P)} {x : Site F P} (h : History acts x)
    {f g : F} {p : P} (hf : Act.arrive f p ∈ acts) (hg : Act.arrive g p ∈ acts) : f = g := by
  induction h with
  | nil => exact absurd hf List.not_mem_nil
  | snoc _ hstep ih =>
    rcases List.mem_append.1 hf with hf | hf <;> rcases List.mem_append.1 hg with hg | hg
    · exact ih hf hg
    · rw [← List.mem_singleton.1 hg] at hstep
      exact absurd (mem_arrived.2 ⟨f, hf⟩) hstep.fresh
    · rw [← List.mem_singleton.1 hf] at hstep
      exact absurd (mem_arrived.2 ⟨g, hg⟩) hstep.fresh
    · rw [List.mem_singleton] at hf hg
      rw [← hf] at hg
      cases hg
      rfl

/-- Somebody waits only in the queue it arrived in. -/
theorem History.not_mem_queue {acts : List (Act F P)} {x : Site F P} (h : History acts x)
    {f g : F} {p : P} (hp : Act.arrive f p ∈ acts) (hg : g ≠ f) : p ∉ x.queue g :=
  fun hmem => hg (h.floor_unique (h.arrive_mem_of_queue hmem) hp)

/-- **Everybody is in exactly one place**: in its own queue, on the vehicle, or done. -/
theorem History.count_eq_one {acts : List (Act F P)} {x : Site F P} (h : History acts x)
    {f : F} {p : P} (hp : Act.arrive f p ∈ acts) :
    (x.queue f).count p + x.riding.count p + (done acts).count p = 1 := by
  obtain ⟨S, hS⟩ := exists_floors acts
  have hcount := h.count_arrived hS p
  have hone : (arrived acts).count p = 1 :=
    List.count_eq_one_of_mem h.nodup_arrived (mem_arrived.2 ⟨f, hp⟩)
  have hsum : ∑ g ∈ S, (x.queue g).count p = (x.queue f).count p :=
    Finset.sum_eq_single f
      (fun g _ hg => List.count_eq_zero.2 (h.not_mem_queue hp hg))
      (fun hf => absurd (hS f p hp) hf)
  omega

/-- Somebody waiting has not been served. -/
theorem History.not_mem_done {acts : List (Act F P)} {x : Site F P} (h : History acts x)
    {f : F} {p : P} (hp : p ∈ x.queue f) : p ∉ done acts := by
  have hone := h.count_eq_one (h.arrive_mem_of_queue hp)
  have hpos := List.count_pos_iff.2 hp
  rw [← List.count_eq_zero]
  omega

/-- **Those riding are in the order in which they boarded.** -/
theorem History.riding_eq {acts : List (Act F P)} {x : Site F P} (h : History acts x) :
    x.riding = (boarded acts).filter (· ∉ delivered acts) := by
  induction h with
  | nil => rfl
  | @snoc acts x _ _ h hstep ih =>
    rw [boarded_snoc, delivered_snoc]
    cases hstep with
    | board f p rest hq =>
      have hp : p ∉ delivered acts := fun hmem =>
        h.not_mem_done (hq ▸ List.mem_cons_self) (delivered_subset_done _ hmem)
      simp only [boardingOf, deliveryOf, Option.toList, List.append_nil, List.filter_append]
      rw [← ih]
      simp [hp]
    | deliver p hp =>
      show List.erase _ p = _
      rw [h.nodup_riding.erase_eq_filter, ih, List.filter_filter]
      simp only [boardingOf, deliveryOf, Option.toList, List.append_nil]
      apply List.filter_congr
      intro q _
      by_cases hq : q = p <;> simp [hq]
    | _ => simpa [boardingOf, deliveryOf] using ih

end Delivery
