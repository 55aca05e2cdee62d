/-
# BasicOS.Lib.Cycle — a ring in the order of addresses

`Cyclic nodes next`: `next` leads from each of the nodes to the next higher one, and from
the highest back to the lowest.  A new node belongs into one gap of the ring
(`Cyclic.gap_exists`, `Cyclic.gap_unique`), which a walk along the ring comes to from any
node (`Cyclic.seek_gap`); it is linked in there (`Cyclic.insert`), and the node behind
another is linked out (`Cyclic.erase`).  A walk that is back where it began has seen all
nodes (`Cyclic.find_around`).
-/
import BasicOS.Lib.Path
import Mathlib.Data.Finset.Max
import Mathlib.Dynamics.PeriodicPts.Defs

namespace BasicOS.Lib

open Function

set_option autoImplicit false

/-- Each node is followed by the next higher one, the highest by the lowest. -/
def Cyclic (nodes : Finset Nat) (next : Nat → Nat) : Prop :=
  ∀ x ∈ nodes, next x ∈ nodes ∧
    (x < next x ∧ (∀ y ∈ nodes, y ≤ x ∨ next x ≤ y) ∨ ∀ y ∈ nodes, next x ≤ y ∧ y ≤ x)

/-- In a ring, `b` belongs behind `p`: between it and the next node, or where the ring goes
back to the lowest node. -/
def Gap (next : Nat → Nat) (b p : Nat) : Prop :=
  p < b ∧ b < next p ∨ next p ≤ p ∧ (p < b ∨ b < next p)

/-- A search stops no later than at a node that it would stop at. -/
theorem seek_of_iterate {N : Type} {next : N → N} {stop : N → Bool} {a : N} {k fuel : Nat}
    (found : stop (next^[k] a) = true) (enough : k < fuel) :
    ∃ j ≤ k, stop (next^[j] a) = true ∧ seek next stop fuel a = some (next^[j] a) := by
  induction k generalizing a fuel with
  | zero =>
    obtain ⟨fuel, rfl⟩ := Nat.exists_eq_succ_of_ne_zero (Nat.ne_zero_of_lt enough)
    exact ⟨0, Nat.le_refl 0, found, if_pos found⟩
  | succ k ih =>
    obtain ⟨fuel, rfl⟩ := Nat.exists_eq_succ_of_ne_zero (Nat.ne_zero_of_lt enough)
    by_cases here : stop a = true
    · exact ⟨0, Nat.zero_le _, here, if_pos here⟩
    · obtain ⟨j, le, stopped, ran⟩ := ih (a := next a) (by rwa [← iterate_succ_apply])
        (Nat.lt_of_succ_lt_succ enough)
      refine ⟨j + 1, Nat.succ_le_succ le, by rwa [iterate_succ_apply], ?_⟩
      rw [seek, if_neg here, ran, iterate_succ_apply]

namespace Cyclic

variable {nodes : Finset Nat} {next : Nat → Nat} {a b p : Nat}

section

variable (ring : Cyclic nodes next)

include ring

theorem iterate_mem (mem : a ∈ nodes) (k : Nat) :
    next^[k] a ∈ nodes := by
  induction k generalizing a with
  | zero => exact mem
  | succ k ih =>
    rw [iterate_succ_apply]
    exact ih (ring a mem).1

/-- Up to a higher node. -/
theorem climbs (ha : a ∈ nodes) (hb : b ∈ nodes) (le : a ≤ b) :
    ∃ k ≤ b - a, next^[k] a = b := by
  induction up : b - a using Nat.strong_induction_on generalizing a with
  | _ up ih =>
  by_cases same : a = b
  · exact ⟨0, Nat.zero_le _, same⟩
  · obtain ⟨mem, ⟨above, near⟩ | highest⟩ := ring a ha
    · have reached := near b hb
      obtain ⟨k, short, ends⟩ := ih (b - next a) (by omega) mem (by omega) rfl
      exact ⟨k + 1, by omega, ends⟩
    · have := highest b hb
      omega

/-- From any node to any node. -/
theorem reaches (ha : a ∈ nodes) (hb : b ∈ nodes) {c : Nat}
    (bound : ∀ x ∈ nodes, x ≤ c) : ∃ k ≤ 2 * c + 1, next^[k] a = b := by
  obtain ⟨m, top, highest⟩ := nodes.exists_max_image id ⟨a, ha⟩
  obtain ⟨k, short, up⟩ := ring.climbs ha top (highest a ha)
  obtain ⟨lowest, ⟨above, -⟩ | around⟩ := ring m top
  · exact absurd (highest _ lowest) (Nat.not_le.mpr above)
  · obtain ⟨l, short', up'⟩ := ring.climbs lowest hb (around b hb).1
    have := bound m top
    have := bound b hb
    refine ⟨l + (1 + k), by omega, ?_⟩
    rw [iterate_add_apply, iterate_add_apply, up]
    exact up'

/-- Once around. -/
theorem returns (ha : a ∈ nodes) {c : Nat}
    (bound : ∀ x ∈ nodes, x ≤ c) : ∃ k ≤ c, next^[k] (next a) = a := by
  obtain ⟨mem, ⟨above, -⟩ | around⟩ := ring a ha
  · obtain ⟨m, top, highest⟩ := nodes.exists_max_image id ⟨a, ha⟩
    obtain ⟨k, short, up⟩ := ring.climbs mem top (highest _ mem)
    obtain ⟨lowest, ⟨above', -⟩ | around⟩ := ring m top
    · exact absurd (highest _ lowest) (Nat.not_le.mpr above')
    · obtain ⟨l, short', up'⟩ := ring.climbs lowest ha (around a ha).1
      have := bound m top
      have : next a ≤ m := highest _ mem
      refine ⟨l + (1 + k), by omega, ?_⟩
      rw [iterate_add_apply, iterate_add_apply, up]
      exact up'
  · obtain ⟨k, short, up⟩ := ring.climbs mem ha (around a ha).1
    have := bound a ha
    exact ⟨k, by omega, up⟩

/-- The first node behind `a` that is wanted, or `a` itself where none is. -/
theorem find_around (ha : a ∈ nodes) {c : Nat}
    (bound : ∀ x ∈ nodes, x ≤ c) (wanted : Nat → Prop) [DecidablePred wanted] :
    ∃ m ≤ c, (∀ j < m, ¬wanted (next^[j] (next a)) ∧ next^[j] (next a) ≠ a) ∧
      (wanted (next^[m] (next a)) ∨ next^[m] (next a) = a ∧ ∀ x ∈ nodes, ¬wanted x) := by
  obtain ⟨k, short, back⟩ := ring.returns ha bound
  have ends : ∃ m, wanted (next^[m] (next a)) ∨ next^[m] (next a) = a := ⟨k, .inr back⟩
  have least : ∀ j < Nat.find ends, ¬wanted (next^[j] (next a)) ∧ next^[j] (next a) ≠ a :=
    fun j early => not_or.mp (Nat.find_min ends early)
  refine ⟨Nat.find ends, (Nat.find_min' ends (.inr back)).trans short, least, ?_⟩
  by_cases found : wanted (next^[Nat.find ends] (next a))
  · exact .inl found
  have here := (Nat.find_spec ends).resolve_left found
  refine .inr ⟨here, fun x hx want => ?_⟩
  -- the walk is periodic, so it comes to `x` before it is back
  have periodic : IsPeriodicPt next (Nat.find ends + 1) (next a) := by
    rw [IsPeriodicPt, IsFixedPt, iterate_succ_apply', here]
  obtain ⟨j, -, reached⟩ := ring.reaches (ring a ha).1 hx bound
  rw [← periodic.iterate_mod_apply] at reached
  have early : j % (Nat.find ends + 1) < Nat.find ends + 1 := Nat.mod_lt _ (Nat.succ_pos _)
  by_cases last : j % (Nat.find ends + 1) = Nat.find ends
  · rw [last] at reached
    exact found (reached ▸ want)
  · exact (least _ (by omega)).1 (reached ▸ want)

end

section Gap

variable (ring : Cyclic nodes next) (fresh : b ∉ nodes)

include ring fresh

theorem gap_unique {p' : Nat} (hp : p ∈ nodes) (hp' : p' ∈ nodes) (gap : Gap next b p)
    (gap' : Gap next b p') : p = p' := by
  obtain ⟨mem, order⟩ := ring p hp
  obtain ⟨mem', order'⟩ := ring p' hp'
  have apart : p ≠ b ∧ p' ≠ b := by
    refine ⟨?_, ?_⟩
    · rintro rfl
      exact fresh hp
    · rintro rfl
      exact fresh hp'
  unfold Gap at gap gap'
  rcases order with ⟨above, near⟩ | around
  · have := near p' hp'
    have := near _ mem'
    rcases order' with ⟨above', near'⟩ | around'
    · have := near' p hp
      omega
    · have := around' p hp
      have := around' _ mem
      omega
  · have := around p' hp'
    have := around _ mem'
    rcases order' with ⟨above', near'⟩ | around'
    · have := near' p hp
      omega
    · have := around' p hp
      omega

theorem gap_exists (some_node : nodes.Nonempty) : ∃ p ∈ nodes, Gap next b p := by
  unfold Gap
  by_cases below : (nodes.filter (· < b)).Nonempty
  · -- behind the highest of the nodes below
    obtain ⟨p, top, highest⟩ := (nodes.filter (· < b)).exists_max_image id below
    obtain ⟨hp, low⟩ := Finset.mem_filter.mp top
    obtain ⟨mem, order⟩ := ring p hp
    refine ⟨p, hp, ?_⟩
    have apart : next p ≠ b := by
      intro same
      exact fresh (same ▸ mem)
    have none_between : next p < b → next p ≤ p := fun lower =>
      highest _ (Finset.mem_filter.mpr ⟨mem, lower⟩)
    omega
  · -- behind the highest node
    obtain ⟨p, top, highest⟩ := nodes.exists_max_image id some_node
    obtain ⟨mem, order⟩ := ring p top
    have above : b < next p := by
      by_contra lower
      have apart : next p ≠ b := fun same => fresh (same ▸ mem)
      exact below ⟨next p, Finset.mem_filter.mpr ⟨mem, by omega⟩⟩
    exact ⟨p, top, .inr ⟨highest _ mem, .inr above⟩⟩

/-- A search for the gap finds it from any node. -/
theorem seek_gap (ha : a ∈ nodes) {stop : Nat → Bool} {c fuel : Nat}
    (stops : ∀ x, stop x = true ↔ Gap next b x) (bound : ∀ x ∈ nodes, x ≤ c)
    (enough : 2 * c + 1 < fuel) : ∃ p ∈ nodes, Gap next b p ∧ seek next stop fuel a = some p := by
  obtain ⟨p, hp, gap⟩ := ring.gap_exists fresh ⟨a, ha⟩
  obtain ⟨k, short, here⟩ := ring.reaches ha hp bound
  have found : stop (next^[k] a) = true := by
    rw [here]
    exact (stops p).mpr gap
  obtain ⟨j, -, stopped, ran⟩ := seek_of_iterate found (show k < fuel by omega)
  exact ⟨_, ring.iterate_mem ha j, (stops _).mp stopped, ran⟩

/-- A node is linked in. -/
theorem insert (hp : p ∈ nodes) (gap : Gap next b p) :
    Cyclic (insert b nodes) (update (update next b (next p)) p b) := by
  have other : p ≠ b := fun same => fresh (same ▸ hp)
  obtain ⟨mem, order⟩ := ring p hp
  intro x hx
  have gap' := gap
  unfold Gap at gap'
  rcases Finset.mem_insert.mp hx with rfl | old
  · rw [update_of_ne other.symm, update_self]
    refine ⟨Finset.mem_insert_of_mem mem, ?_⟩
    simp only [Finset.forall_mem_insert]
    rcases order with ⟨above, near⟩ | around
    · refine .inl ⟨by omega, .inl (Nat.le_refl _), fun y hy => ?_⟩
      have := near y hy
      omega
    · have := around p hp
      by_cases low : x < next p
      · refine .inl ⟨low, .inl (Nat.le_refl _), fun y hy => .inr (around y hy).1⟩
      · refine .inr ⟨⟨by omega, Nat.le_refl _⟩, fun y hy => ?_⟩
        have := around y hy
        omega
  · by_cases here : x = p
    · subst here
      rw [update_self]
      refine ⟨Finset.mem_insert_self _ _, ?_⟩
      simp only [Finset.forall_mem_insert]
      rcases order with ⟨above, near⟩ | around
      · refine .inl ⟨by omega, .inr (Nat.le_refl _), fun y hy => ?_⟩
        have := near y hy
        omega
      · have := around x hp
        by_cases low : b < next x
        · refine .inr ⟨⟨Nat.le_refl _, by omega⟩, fun y hy => ?_⟩
          have := around y hy
          omega
        · refine .inl ⟨by omega, .inr (Nat.le_refl _), fun y hy => .inl (around y hy).2⟩
    · have apart : x ≠ b := fun same => fresh (same ▸ old)
      have elsewhere : ¬ Gap next b x := fun gap' => here (ring.gap_unique fresh old hp gap' gap)
      unfold Gap at elsewhere
      rw [update_of_ne here, update_of_ne apart]
      obtain ⟨mem', order'⟩ := ring x old
      have away : next x ≠ b := fun same => fresh (same ▸ mem')
      refine ⟨Finset.mem_insert_of_mem mem', ?_⟩
      simp only [Finset.forall_mem_insert]
      rcases order' with ⟨above, near⟩ | around
      · exact .inl ⟨above, by omega, near⟩
      · have := around x old
        exact .inr ⟨by omega, around⟩

end Gap

/-- The node behind another is linked out. -/
theorem erase (ring : Cyclic nodes next) (ha : a ∈ nodes) (other : next a ≠ a) :
    Cyclic (nodes.erase (next a)) (update next a (next (next a))) := by
  obtain ⟨hb, order⟩ := ring a ha
  generalize behind : next a = b at *
  obtain ⟨hc, order'⟩ := ring b hb
  have more : next b ≠ b := by
    intro alone
    rcases order' with ⟨above, -⟩ | around
    · omega
    · have := around a ha
      omega
  intro x hx
  obtain ⟨apart, old⟩ := Finset.mem_erase.mp hx
  by_cases here : x = a
  · subst here
    rw [update_self]
    refine ⟨Finset.mem_erase.mpr ⟨more, hc⟩, ?_⟩
    rcases order with ⟨above, near⟩ | around
    · rcases order' with ⟨above', near'⟩ | around'
      · refine .inl ⟨by omega, fun y hy => ?_⟩
        obtain ⟨away, hy⟩ := Finset.mem_erase.mp hy
        have := near y hy
        have := near' y hy
        omega
      · refine .inr fun y hy => ?_
        obtain ⟨away, hy⟩ := Finset.mem_erase.mp hy
        have := near y hy
        have := around' y hy
        omega
    · rcases order' with ⟨above', near'⟩ | around'
      · refine .inr fun y hy => ?_
        obtain ⟨away, hy⟩ := Finset.mem_erase.mp hy
        have := around y hy
        have := near' y hy
        omega
      · have := around _ hb
        have := around' _ ha
        omega
  · rw [update_of_ne here]
    obtain ⟨mem, order''⟩ := ring x old
    refine ⟨Finset.mem_erase.mpr ⟨?_, mem⟩, ?_⟩
    · intro same
      rcases order with ⟨above, near⟩ | around
      · have := near x old
        rcases order'' with ⟨above'', near''⟩ | around''
        · have := near'' a ha
          omega
        · have := around'' a ha
          omega
      · have := around x old
        rcases order'' with ⟨above'', near''⟩ | around''
        · have := near'' a ha
          omega
        · have := around'' a ha
          omega
    · exact order''.imp (fun ⟨above, near⟩ => ⟨above, fun y hy => near y (Finset.mem_of_mem_erase hy)⟩)
        fun around y hy => around y (Finset.mem_of_mem_erase hy)

end Cyclic

end BasicOS.Lib
