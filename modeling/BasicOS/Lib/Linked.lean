/-
# BasicOS.Lib.Linked — rings of nodes linked both ways

`Linked l h xs`: following `next` from the sentinel `h` visits the nodes `xs`, each once,
and comes back to `h`; following `prev` visits them the other way round.  A ring stays
one when a node is linked out (`Linked.unlink`) or linked in behind the sentinel
(`Linked.push`), and a search along it is a search of the list (`Linked.scan_next`,
`Linked.scan_prev`).
-/
import Mathlib.Algebra.GroupWithZero.Nat
import Mathlib.Data.List.Chain
import Mathlib.Data.List.Nodup
import Mathlib.Logic.Function.Basic

namespace BasicOS.Lib

open Function

set_option autoImplicit false

/-- The pointers of the nodes. -/
structure Links (N : Type) where
  next : N → N
  prev : N → N

section Lists

variable {N : Type} {R S : N → N → Prop}

/-- A chain does not relate its last element to anything, nor anything to its first. -/
theorem isChain_congr {l : List N} (chain : l.IsChain R)
    (same : ∀ x ∈ l.dropLast, ∀ y ∈ l.tail, R x y → S x y) : l.IsChain S := by
  induction chain with
  | nil => exact .nil
  | singleton a => exact .singleton a
  | cons_cons related rest ih =>
    refine .cons_cons (same _ (by simp) _ (by simp) related) (ih ?_)
    intro x hx y hy
    exact same x (by simp [hx]) y (List.mem_cons_of_mem _ hy)

theorem find?_without [DecidableEq N] {p : N → Bool} {b : N} (other : p b = false)
    (xs : List N) : (xs.filter (· ≠ b)).find? p = xs.find? p := by
  rw [List.find?_filter]
  congr 1
  funext x
  by_cases here : x = b
  · simp [here, other]
  · simp [here]

end Lists

variable {N : Type} {l : Links N} {h b : N} {xs : List N}

/-- `u` and `v` are neighbours. -/
def Links.Joined (l : Links N) (u v : N) : Prop :=
  l.next u = v ∧ l.prev v = u

/-- The ring through `h` and `xs`. -/
structure Linked (l : Links N) (h : N) (xs : List N) : Prop where
  once : (h :: xs).Nodup
  ring : (h :: (xs ++ [h])).IsChain l.Joined

/-- The same nodes with the directions exchanged. -/
def Links.flip (l : Links N) : Links N where
  next := l.prev
  prev := l.next

theorem Linked.flip (linked : Linked l h xs) : Linked l.flip h xs.reverse where
  once := by
    have once := linked.once
    rw [List.nodup_cons] at once ⊢
    exact ⟨by simpa using once.1, List.nodup_reverse.mpr once.2⟩
  ring := by
    have back := List.isChain_reverse.mpr linked.ring
    have turned : (h :: (xs ++ [h])).reverse = h :: (xs.reverse ++ [h]) := by simp
    rw [turned] at back
    exact isChain_congr back fun x _ y _ joined => ⟨joined.2, joined.1⟩

theorem Linked.alone (next : l.next h = h) (prev : l.prev h = h) : Linked l h [] where
  once := by simp
  ring := .cons_cons ⟨next, prev⟩ (.singleton h)

/-! ## Searching -/

section Scan

variable [DecidableEq N]

/-- Look for a node along `next`, up to the sentinel; `none` if that is not reached. -/
def scan (next : N → N) (h : N) (p : N → Bool) : Nat → N → Option (Option N)
  | 0, _ => none
  | fuel + 1, x =>
    if x = h then some none
    else if p x then some (some x)
    else scan next h p fuel (next x)

theorem scan_chain {u : N} {p : N → Bool} {fuel : Nat}
    (ring : (u :: (xs ++ [h])).IsChain l.Joined) (inside : h ∉ xs) (enough : xs.length < fuel) :
    scan l.next h p fuel (l.next u) = some (xs.find? p) := by
  induction xs generalizing u fuel with
  | nil =>
    obtain ⟨fuel, rfl⟩ := Nat.exists_eq_succ_of_ne_zero (Nat.ne_zero_of_lt enough)
    have back : l.next u = h := (List.isChain_cons_cons.mp ring).1.1
    simp [scan, back]
  | cons x xs ih =>
    obtain ⟨fuel, rfl⟩ := Nat.exists_eq_succ_of_ne_zero (Nat.ne_zero_of_lt enough)
    obtain ⟨joined, rest⟩ := List.isChain_cons_cons.mp ring
    have other : x ≠ h := fun same => inside (by simp [same])
    rw [joined.1, scan, if_neg other, List.find?_cons]
    cases found : p x with
    | true => simp
    | false =>
      refine ih rest (fun mem => inside (List.mem_cons_of_mem _ mem)) ?_
      exact Nat.lt_of_succ_lt_succ enough

theorem Linked.scan_next (linked : Linked l h xs) (p : N → Bool) {fuel : Nat}
    (enough : xs.length < fuel) : scan l.next h p fuel (l.next h) = some (xs.find? p) :=
  scan_chain linked.ring (List.nodup_cons.mp linked.once).1 enough

theorem Linked.scan_prev (linked : Linked l h xs) (p : N → Bool) {fuel : Nat}
    (enough : xs.length < fuel) : scan l.prev h p fuel (l.prev h) = some (xs.reverse.find? p) :=
  linked.flip.scan_next p (by simpa using enough)

/-! ## Linking out and in -/

/-- `b->next->prev = b->prev; b->prev->next = b->next`. -/
def Links.unlink (l : Links N) (b : N) : Links N :=
  let prev := update l.prev (l.next b) (l.prev b)
  { prev := prev, next := update l.next (prev b) (l.next b) }

/-- `b->next = h->next; b->prev = h; h->next->prev = b; h->next = b`. -/
def Links.push (l : Links N) (h b : N) : Links N where
  next := update (update l.next b (l.next h)) h b
  prev := update (update l.prev b h) (l.next h) b

/-- Joining the last node of one part of the ring to the first of the next. -/
theorem isChain_join {u v : N} {first last : List N}
    (chain : (first ++ [u]).IsChain l.Joined) (chain' : (v :: last).IsChain l.Joined)
    (hu : u ∉ first ∧ u ∉ (v :: last).dropLast) (hv : v ∉ last ∧ v ∉ (first ++ [u]).tail) :
    (first ++ [u] ++ v :: last).IsChain
      (Links.Joined { next := update l.next u v, prev := update l.prev v u }) := by
  have keeps : ∀ x y, x ≠ u → y ≠ v → l.Joined x y →
      Links.Joined { next := update l.next u v, prev := update l.prev v u } x y := by
    intro x y hx hy joined
    exact ⟨(update_of_ne hx _ _).trans joined.1, (update_of_ne hy _ _).trans joined.2⟩
  refine List.isChain_append.mpr ⟨?_, ?_, ?_⟩
  · refine isChain_congr chain fun x hx y hy => keeps x y ?_ ?_
    · intro same
      rw [List.dropLast_concat, same] at hx
      exact hu.1 hx
    · intro same
      exact hv.2 (same ▸ hy)
  · refine isChain_congr chain' fun x hx y hy => keeps x y ?_ ?_
    · intro same
      exact hu.2 (same ▸ hx)
    · intro same
      exact hv.1 (same ▸ hy)
  · intro x hx y hy
    obtain rfl : u = x := by simpa using hx
    obtain rfl : v = y := by simpa using hy
    exact ⟨update_self _ _ _, update_self _ _ _⟩

omit [DecidableEq N] in
/-- The first node that is visited, or the sentinel if there is none, is not met again. -/
theorem Linked.first (linked : Linked l h xs) :
    ∃ v last, xs ++ [h] = v :: last ∧ l.Joined h v ∧ v ∉ last := by
  have once := linked.once
  have ring := linked.ring
  cases xs with
  | nil => exact ⟨h, [], rfl, (List.isChain_cons_cons.mp ring).1, List.not_mem_nil⟩
  | cons x xs =>
    refine ⟨x, xs ++ [h], rfl, (List.isChain_cons_cons.mp ring).1, ?_⟩
    simp only [List.nodup_cons, List.mem_cons, not_or] at once
    simp only [List.mem_append, List.mem_singleton, not_or]
    exact ⟨once.2.1, Ne.symm once.1.1⟩

theorem Linked.unlink (linked : Linked l h xs) (mem : b ∈ xs) :
    Linked (l.unlink b) h (xs.filter (· ≠ b)) := by
  obtain ⟨ys, zs, rfl⟩ := List.append_of_mem mem
  have once := linked.once
  have ring := linked.ring
  -- `u` and `v` are the neighbours of `b`.
  obtain ⟨front, u, before⟩ : ∃ front u, h :: ys = front ++ [u] :=
    ⟨_, _, (List.dropLast_concat_getLast (List.cons_ne_nil h ys)).symm⟩
  obtain ⟨v, last, after⟩ : ∃ v last, zs ++ [h] = v :: last :=
    List.exists_cons_of_ne_nil (by simp)
  have cut : h :: (ys ++ b :: zs ++ [h]) = front ++ [u] ++ b :: v :: last := by
    rw [← before, ← after]
    simp
  rw [cut, List.isChain_append] at ring
  obtain ⟨chain, rest, joined⟩ := ring
  obtain ⟨joined', chain'⟩ := List.isChain_cons_cons.mp rest
  have left : l.prev b = u := (joined u (by simp) b (by simp)).2
  have right : l.next b = v := joined'.1
  have whole : (front ++ [u] ++ b :: zs).Nodup := by
    rw [← before]
    exact once
  have apart := List.nodup_append.mp whole
  have hb : b ∉ ys := fun inside => apart.2.2 b (by simp [← before, inside]) b (by simp) rfl
  have hu : u ∉ front ∧ u ∉ zs := by
    refine ⟨?_, fun inside => apart.2.2 u (by simp) u (by simp [inside]) rfl⟩
    have pair := List.nodup_append.mp apart.1
    exact fun inside => pair.2.2 u inside u (by simp) rfl
  have hv : v ≠ b ∧ v ∉ last ∧ v ∉ ys := by
    rw [← List.cons_append, List.nodup_append] at once
    cases zs with
    | nil =>
      obtain ⟨rfl, rfl⟩ : h = v ∧ [] = last := by simpa using after
      refine ⟨fun same => once.2.2 h (by simp) b (by simp) same, List.not_mem_nil, ?_⟩
      exact (List.nodup_cons.mp once.1).1
    | cons z zs =>
      obtain ⟨rfl, rfl⟩ : z = v ∧ zs ++ [h] = last := by simpa using after
      have tail := List.nodup_cons.mp once.2.1
      refine ⟨fun same => tail.1 (by simp [same]), ?_, fun inside => ?_⟩
      · simp only [List.mem_append, List.mem_singleton, not_or]
        refine ⟨(List.nodup_cons.mp tail.2).1, fun same => ?_⟩
        exact once.2.2 h (by simp) z (by simp) same.symm
      · exact once.2.2 z (by simp [inside]) z (by simp) rfl
  have pointers : l.unlink b = { next := update l.next u v, prev := update l.prev v u } := by
    simp only [Links.unlink, left, right, update_of_ne hv.1.symm]
  have hb' : b ∉ zs := (List.nodup_cons.mp apart.2.1).1
  have erased : (ys ++ b :: zs).filter (· ≠ b) = ys ++ zs := by
    have stay : ∀ ws : List N, b ∉ ws → ws.filter (· ≠ b) = ws := by
      intro ws out
      refine List.filter_eq_self.mpr fun x mem => ?_
      simpa using fun same : x = b => out (same ▸ mem)
    rw [List.filter_append, List.filter_cons_of_neg (by simp), stay ys hb, stay zs hb']
  rw [pointers, erased]
  refine ⟨?_, ?_⟩
  · exact linked.once.sublist ((List.Sublist.append_left (List.sublist_cons_self b zs) ys).cons_cons h)
  · have glued : h :: (ys ++ zs ++ [h]) = front ++ [u] ++ v :: last := by
      rw [← before, ← after]
      simp
    rw [glued]
    refine isChain_join chain chain' ⟨hu.1, ?_⟩ ⟨hv.2.1, ?_⟩
    · rw [← after, List.dropLast_concat]
      exact hu.2
    · rw [← before, List.tail_cons]
      exact hv.2.2

theorem Linked.push (linked : Linked l h xs) (fresh : b ∉ h :: xs) :
    Linked (l.push h b) h (b :: xs) := by
  obtain ⟨v, last, after, joined, once⟩ := linked.first
  obtain ⟨other, new⟩ : b ≠ h ∧ b ∉ xs := by simpa using fresh
  have inside : h ∉ xs := (List.nodup_cons.mp linked.once).1
  have listed : ∀ y ∈ v :: last, y ≠ b := by
    rintro y mem rfl
    rw [← after] at mem
    exact fresh (by simpa [or_comm] using mem)
  have pointers : l.push h b = { next := update (update l.next b v) h b,
                                 prev := update (update l.prev b h) v b } := by
    simp only [Links.push, joined.1]
  have chain : (v :: last).IsChain (l.push h b).Joined := by
    have old := (List.isChain_cons.mp linked.ring).2
    rw [after] at old
    refine isChain_congr old fun x hx y hy joined => ?_
    rw [← after, List.dropLast_concat] at hx
    rw [List.tail_cons] at hy
    have hxh : x ≠ h := fun same => inside (same ▸ hx)
    have hxb : x ≠ b := fun same => new (same ▸ hx)
    have hyv : y ≠ v := fun same => once (same ▸ hy)
    have hyb : y ≠ b := listed y (List.mem_cons_of_mem _ hy)
    rw [pointers]
    refine ⟨?_, ?_⟩
    · exact ((update_of_ne hxh _ _).trans (update_of_ne hxb _ _)).trans joined.1
    · exact ((update_of_ne hyv _ _).trans (update_of_ne hyb _ _)).trans joined.2
  have hbv : b ≠ v := (listed v List.mem_cons_self).symm
  refine ⟨?_, ?_⟩
  · have once := List.nodup_cons.mp linked.once
    refine List.nodup_cons.mpr ⟨?_, List.nodup_cons.mpr ⟨new, once.2⟩⟩
    simp only [List.mem_cons, not_or]
    exact ⟨other.symm, inside⟩
  · rw [List.cons_append, after]
    refine .cons_cons ?_ (.cons_cons ?_ chain)
    · rw [pointers]
      exact ⟨update_self _ _ _, (update_of_ne hbv _ _).trans (update_self _ _ _)⟩
    · rw [pointers]
      exact ⟨(update_of_ne other _ _).trans (update_self _ _ _), update_self _ _ _⟩

end Scan

end BasicOS.Lib
