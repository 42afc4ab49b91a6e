import KernelElevator.Library.FrontRemoval

/-!
# A traversal, while others insert

A reader follows the `next` links of a ring from the head until it is back there. Nothing is
removed, but insertions at the tail are under way.

**What is visible.** A node whose insertion is done can be reached once all the nodes before it are
done as well. So the visible nodes are those before the first one that is not done (`visible`).

**What a reader sees.** When the reader finds `head` in the `next` link of a node, then what it has
come past is what is visible at that moment.

* `Entering` — insertions into several rings; `Entering.move` — they go on.
* `Upcoming` — where a reader goes next; `Making.upcoming` — this is what it finds in a `next` link.
* `IsRing.next_mem` — a reader that has got into another ring stays there.
-/

namespace Ring

variable {N : Type*} [DecidableEq N]

/-! ## Insertions -/

/-- Rings in the making, with the ring that each new node goes to. -/
structure Entering {ι : Type*} (head : ι → N) (owner : N → Option ι) (c : Config N)
    (xs : ι → List N) : Prop where
  rings : AllMaking head c xs
  fresh : ∀ n, ¬ (c.stage n).Entered → ∀ i, n ∉ head i :: xs i
  placed : ∀ n i, owner n = some i → ∀ t ∈ (c.stage n).tail, n ∈ xs i

section Entering

variable {ι : Type*} [DecidableEq ι] {head : ι → N} {owner : N → Option ι} {c : Config N}
  {xs : ι → List N} {i : ι} {n : N}

/-- **A timely insertion goes on.** -/
theorem Entering.move (h : Entering head owner c xs) (hi : owner n = some i)
    (htimely : Timely (head i) c n) :
    Entering head owner (Ring.move (head i) n c) (Function.update xs i (grown c n (xs i))) := by
  by_cases hdone : c.stage n = .done
  · rw [Ring.move, grown, hdone, Function.update_eq_self]
    exact h
  -- Nothing but `n` gets into a ring, and nothing gets out.
  have hmem : ∀ j x, x ∈ Function.update xs i (grown c n (xs i)) j ↔
      x ∈ xs j ∨ j = i ∧ (∃ t, c.stage n = .read t) ∧ x = n := by
    intro j x
    by_cases hj : j = i
    · subst hj
      rw [Function.update_self, mem_grown]
      simp
    · rw [Function.update_of_ne hj]
      simp [hj]
  have hhead : ∀ j, n ≠ head j := by
    rintro j rfl
    exact hdone (h.rings.making j).idle
  refine ⟨h.rings.move hhead (h.fresh n) (h.placed n i hi) htimely, ?_, ?_⟩
  · intro x hx j hxj
    by_cases hxn : x = n
    · subst hxn
      rw [move_entered, not_or] at hx
      refine h.fresh x hx.1 j ?_
      rcases List.mem_cons.1 hxj with heq | hxj
      · exact absurd heq (hhead j)
      · exact List.mem_cons_of_mem _ (((hmem j x).1 hxj).resolve_right fun hr => hx.2 hr.2.1)
    · rw [move_stage_ne hxn] at hx
      refine h.fresh x hx j ?_
      rcases List.mem_cons.1 hxj with heq | hxj
      · exact heq ▸ List.mem_cons_self
      · exact List.mem_cons_of_mem _ (((hmem j x).1 hxj).resolve_right fun hr => hxn hr.2.2)
  · intro x j hj t ht
    apply (hmem j x).2
    by_cases hxn : x = n
    · subst hxn
      obtain rfl : j = i := Option.some.inj (hj.symm.trans hi)
      rcases tail_of_move ht with ht | ht
      · exact .inl (h.placed x j hi t ht)
      · exact .inr ⟨rfl, ⟨t, ht⟩, rfl⟩
    · rw [move_stage_ne hxn] at ht
      exact .inl (h.placed x j hj t ht)

end Entering

/-! ## The reader -/

section Reader

variable {head x : N} {c c' : Config N} {xs ys seen rest : List N} {Was Was' : List N → Prop}

/-- The nodes before the first that is not done. -/
def visible (c : Config N) (xs : List N) : List N := xs.takeWhile fun x => c.stage x = .done

/-- Where a reader goes that has come past `seen`: to the node behind them, which is done, or back
to the head, if these `Was` all there was to see. -/
def Upcoming (head : N) (c : Config N) (xs : List N) (Was : List N → Prop) (seen : List N)
    (x : N) : Prop :=
  (∃ rest, xs = seen ++ x :: rest ∧ ∀ y ∈ seen ++ [x], c.stage y = .done) ∨ x = head ∧ Was seen

omit [DecidableEq N] in
theorem Upcoming.mono (h : Upcoming head c xs Was seen x) (hxs : xs <+: ys)
    (hdone : ∀ y, c.stage y = .done → c'.stage y = .done) (hwas : ∀ l, Was l → Was' l) :
    Upcoming head c' ys Was' seen x := by
  refine h.imp ?_ fun hend => ⟨hend.1, hwas _ hend.2⟩
  rintro ⟨rest, rfl, hseen⟩
  obtain ⟨more, rfl⟩ := hxs
  exact ⟨rest ++ more, by simp, fun y hy => hdone y (hseen y hy)⟩

omit [DecidableEq N] in
theorem Upcoming.length_le (h : Upcoming head c xs Was seen x) {m : ℕ} (hxs : xs.length ≤ m)
    (hwas : ∀ l, Was l → l.length ≤ m) : seen.length ≤ m := by
  rcases h with ⟨rest, rfl, -⟩ | ⟨-, hseen⟩
  · rw [List.length_append] at hxs
    exact le_trans (Nat.le_add_right _ _) hxs
  · exact hwas _ hseen

omit [DecidableEq N] in
/-- The nodes behind those that a reader has come past, and where their `prev` links do not lead. -/
theorem Forming.past {a : N} (h : Forming head c a (seen ++ rest)) (hnodup : (a :: seen).Nodup)
    (hseen : ∀ y ∈ seen, c.stage y = .done) : Forming head c (seen.getLastD a) rest ∧
      ∀ y ∈ seen, c.links.prev y ≠ seen.getLastD a := by
  induction seen generalizing a with
  | nil => exact ⟨h, by simp⟩
  | cons b bs ih =>
    obtain ⟨ha, hnodup⟩ := List.nodup_cons.1 hnodup
    obtain ⟨hforming, hprev⟩ := ih h.2 hnodup fun y hy => hseen y (List.mem_cons_of_mem _ hy)
    rw [List.getLastD_cons]
    refine ⟨hforming, ?_⟩
    intro y hy
    rcases List.mem_cons.1 hy with rfl | hy
    · rw [h.1.backed (by rw [hseen y List.mem_cons_self]; trivial)]
      rintro rfl
      exact ha (List.getLastD_mem_cons ..)
    · exact hprev y hy

omit [DecidableEq N] in
/-- The `next` link behind the nodes that a reader has come past. -/
theorem Making.follow (h : Making head c (seen ++ rest)) (hseen : ∀ y ∈ seen, c.stage y = .done) :
    c.links.next (seen.getLastD head) = head ∧ (∀ y ∈ rest.head?, c.stage y ≠ .done) ∨
      ∃ zs, rest = c.links.next (seen.getLastD head) :: zs ∧
        c.stage (c.links.next (seen.getLastD head)) = .done := by
  have hnodup := h.nodup
  rw [← List.cons_append] at hnodup
  obtain ⟨hfirst, hrest, hdisjoint⟩ := List.nodup_append.1 hnodup
  obtain ⟨hforming, hprev⟩ := h.forming.past hfirst hseen
  have hlast : seen.getLastD head ∈ head :: seen := List.getLastD_mem_cons ..
  have hsettled : (c.stage (seen.getLastD head)).Settled := by
    rcases List.mem_cons.1 hlast with heq | hmem
    · rw [heq, h.idle]
      trivial
    · rw [hseen _ hmem]
      trivial
  cases rest with
  | nil => exact .inl ⟨hforming.1 hsettled, by simp⟩
  | cons z zs =>
    by_cases hz : c.stage z = .done
    · have hnext := (hforming.1.done hz).1
      exact .inr ⟨zs, by rw [hnext], by rw [hnext]; exact hz⟩
    · -- A node that has linked itself there would be done, and come next.
      left
      have hmem : seen.getLastD head ∈ head :: (seen ++ z :: zs) := by
        rw [← List.cons_append]
        exact List.mem_append_left _ hlast
      refine ⟨(h.leads _ hmem hsettled).resolve_right ?_, by simpa using hz⟩
      rintro ⟨hin, hdone, hback⟩
      rcases List.mem_append.1 hin with hin | hin
      · exact hprev _ hin hback
      · have hnodup : (seen.getLastD head :: z :: zs).Nodup :=
          List.nodup_cons.2 ⟨fun hzs => hdisjoint _ hlast _ hzs rfl, hrest⟩
        obtain ⟨bs, hbs⟩ := hforming.eq_cons hnodup hin hdone hback
        exact hz ((List.cons.inj hbs).1 ▸ hdone)

/-- **What a reader finds in a `next` link** is the next visible node, or the head when there is
none. -/
theorem Making.upcoming (h : Making head c (seen ++ rest)) (hseen : ∀ y ∈ seen, c.stage y = .done)
    (hwas : Was (visible c (seen ++ rest))) :
    Upcoming head c (seen ++ rest) Was seen (c.links.next (seen.getLastD head)) := by
  rcases h.follow hseen with ⟨hhead, hrest⟩ | ⟨zs, hrest, hdone⟩
  · refine .inr ⟨hhead, ?_⟩
    have hvisible : visible c (seen ++ rest) = seen := by
      rw [visible, List.takeWhile_append_of_pos (by simpa using hseen)]
      cases rest with
      | nil => simp
      | cons z zs => rw [List.takeWhile_cons_of_neg (by simpa using hrest z rfl), List.append_nil]
    rwa [hvisible] at hwas
  · refine .inl ⟨zs, by rw [← hrest], ?_⟩
    intro y hy
    rcases List.mem_append.1 hy with hy | hy
    · exact hseen y hy
    · rwa [List.mem_singleton.1 hy]

end Reader

end Ring
