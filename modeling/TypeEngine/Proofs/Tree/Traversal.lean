import Mathlib.Data.Finset.Card
import Mathlib.Data.List.Flatten
import TypeEngine.Proofs.Tree.Forest

/-!
# Walks and subtrees

A walk goes from child to child, and what lies below a branch is a matter of parents. Where no branch
lies above itself, a walk visits a branch and all that lies below it, each once: a branch before those
below it, and all below a child before its later siblings (`Enumerates`). A walk that stops has
visited the same branches in the same order, up to the one where it stopped (`walk_enumerates`).
-/

namespace TypeEngine.Tree

open scoped List

variable {t : Tree} {i j k p c d n depth : Nat}

/-! ### Above and below -/

/-- Branch `j` is `i` or lies below it. -/
def Under (t : Tree) (i j : Nat) : Prop := ∃ n, t.above? n j = some i

/-- Branch `j` lies below `i`. -/
def Below (t : Tree) (i j : Nat) : Prop := ∃ n, t.above? (n + 1) j = some i

/-- No branch lies above itself. -/
def Acyclic (t : Tree) : Prop := ∀ i, ¬t.Below i i

theorem above?_add (t : Tree) (m n i : Nat) : t.above? (m + n) i = (t.above? m i).bind (t.above? n) := by
  induction m generalizing i with
  | zero => rw [Nat.zero_add, above?, Option.bind_some]
  | succ m ih =>
    rw [Nat.succ_add, above?, above?, Option.bind_assoc]
    exact Option.bind_congr fun p _ => ih p

theorem above?_one (t : Tree) (i : Nat) : t.above? 1 i = t.parentOf i := by
  rw [above?]
  exact Option.bind_fun_some _

theorem Under.refl (t : Tree) (i : Nat) : t.Under i i := ⟨0, rfl⟩

theorem Below.under (below : t.Below i j) : t.Under i j := ⟨_, below.choose_spec⟩

theorem Under.below_parent (owner : t.parentOf c = some i) (under : t.Under c j) : t.Below i j := by
  obtain ⟨n, up⟩ := under
  exact ⟨n, by rw [above?_add, up, Option.bind_some, above?_one, owner]⟩

theorem exists_child_of_above? (up : t.above? (n + 1) j = some i) :
    ∃ c, t.parentOf c = some i ∧ t.above? n j = some c := by
  rw [above?_add] at up
  obtain ⟨c, start, last⟩ := Option.bind_eq_some_iff.mp up
  exact ⟨c, by rwa [above?_one] at last, start⟩

theorem Below.exists_child (below : t.Below i j) : ∃ c, t.parentOf c = some i ∧ t.Under c j := by
  obtain ⟨n, up⟩ := below
  obtain ⟨c, owner, start⟩ := exists_child_of_above? up
  exact ⟨c, owner, n, start⟩

theorem Under.eq_or_below (under : t.Under i j) : j = i ∨ t.Below i j := by
  obtain ⟨n, up⟩ := under
  cases n with
  | zero => exact .inl (Option.some.inj up)
  | succ n => exact .inr ⟨n, up⟩

theorem Under.comparable (first : t.Under i k) (second : t.Under j k) : t.Under i j ∨ t.Under j i := by
  obtain ⟨m, left⟩ := first
  obtain ⟨n, right⟩ := second
  rcases Nat.le_total m n with less | less
  · obtain ⟨rest, rfl⟩ := Nat.exists_eq_add_of_le less
    rw [above?_add, left] at right
    exact .inr ⟨rest, right⟩
  · obtain ⟨rest, rfl⟩ := Nat.exists_eq_add_of_le less
    rw [above?_add, right] at left
    exact .inl ⟨rest, left⟩

theorem Acyclic.eq_of_under (acyclic : Acyclic t) (first : t.parentOf c = some i)
    (second : t.parentOf d = some i) (under : t.Under c d) : d = c := by
  refine under.eq_or_below.resolve_right fun below => acyclic i ?_
  obtain ⟨n, up⟩ := below
  rw [above?, second, Option.bind_some] at up
  exact Under.below_parent first ⟨n, up⟩

theorem Acyclic.eq_of_common (acyclic : Acyclic t) (first : t.parentOf c = some i)
    (second : t.parentOf d = some i) (left : t.Under c k) (right : t.Under d k) : c = d := by
  rcases left.comparable right with under | under
  · exact (acyclic.eq_of_under first second under).symm
  · exact acyclic.eq_of_under second first under

theorem Linked.above?_valid (linked : Linked t) (valid : j < t.size) (up : t.above? n j = some i) :
    i < t.size := by
  cases n with
  | zero => exact Option.some.inj up ▸ valid
  | succ n =>
    obtain ⟨c, owner, _⟩ := exists_child_of_above? up
    exact lt_size_of_mem ((linked.mem_iff i c).mpr owner)

theorem Acyclic.above?_lt (acyclic : Acyclic t) (linked : Linked t) (valid : j < t.size)
    (up : t.above? n j = some i) : n < t.size := by
  by_contra long
  have levels : ∀ m ∈ Finset.range (n + 1), ∃ k, t.above? m j = some k := by
    intro m member
    obtain ⟨rest, rfl⟩ := Nat.exists_eq_add_of_le (Nat.lt_succ_iff.mp (Finset.mem_range.mp member))
    rw [above?_add] at up
    obtain ⟨k, found, _⟩ := Option.bind_eq_some_iff.mp up
    exact ⟨k, found⟩
  have inside : ∀ m ∈ Finset.range (n + 1), (t.above? m j).getD 0 ∈ Finset.range t.size := by
    intro m member
    obtain ⟨k, found⟩ := levels m member
    rw [found, Option.getD_some, Finset.mem_range]
    exact linked.above?_valid valid found
  have fewer : (Finset.range t.size).card < (Finset.range (n + 1)).card := by
    rw [Finset.card_range, Finset.card_range]
    omega
  obtain ⟨a, first, b, second, other, same⟩ := Finset.exists_ne_map_eq_of_card_lt_of_maps_to fewer inside
  wlog order : a < b generalizing a b
  · exact this b second a first other.symm same.symm (by omega)
  obtain ⟨k, low⟩ := levels a first
  obtain ⟨k', high⟩ := levels b second
  obtain ⟨rest, rfl⟩ := Nat.exists_eq_add_of_lt order
  rw [low, high, Option.getD_some, Option.getD_some] at same
  rw [Nat.add_assoc, above?_add, low, Option.bind_some, ← same] at high
  exact acyclic k ⟨rest, high⟩

/-! ### The subtree of a branch -/

/-- A branch and those below it, as far as `depth` levels. -/
def subtree (t : Tree) : Nat → Nat → List Nat
  | 0, _ => []
  | depth + 1, i => i :: (t.children i).flatMap (t.subtree depth)

/-- All that is under a branch is fewer than `depth` levels below it. -/
def Within (t : Tree) (depth i : Nat) : Prop := ∀ n j, t.above? n j = some i → n < depth

theorem Within.child (within : t.Within (depth + 1) i) (owner : t.parentOf c = some i) :
    t.Within depth c := by
  intro n j up
  refine Nat.lt_of_succ_lt_succ (within (n + 1) j ?_)
  rw [above?_add, up, Option.bind_some, above?_one, owner]

theorem not_within_zero (t : Tree) (i : Nat) : ¬t.Within 0 i := fun within => Nat.not_lt_zero 0 (within 0 i rfl)

theorem Acyclic.within (acyclic : Acyclic t) (linked : Linked t) (i : Nat) :
    t.Within (t.size + 1) i := by
  intro n j up
  cases n with
  | zero => exact Nat.succ_pos _
  | succ n =>
    have inside : j < t.size := by
      obtain ⟨p, owner, _⟩ := Option.bind_eq_some_iff.mp up
      exact lt_size_of_parentOf owner
    exact Nat.lt_succ_of_lt (acyclic.above?_lt linked inside up)

/-- An order of a branch and all that lies below it: each once, before what is below it, and all that
is under a child before what is under a later one. -/
structure Enumerates (t : Tree) (i : Nat) (order : List Nat) : Prop where
  nodup : order.Nodup
  mem_iff (j : Nat) : j ∈ order ↔ t.Under i j
  descends (j k : Nat) : t.Under i j → t.Below j k → [j, k] <+ order
  siblings (p c d j k : Nat) : t.Under i p → [c, d] <+ t.children p → t.Under c j → t.Under d k →
    [j, k] <+ order

theorem Enumerates.node {below : Nat → List Nat} (acyclic : Acyclic t) (linked : Linked t)
    (each : ∀ c ∈ t.children i, t.Enumerates c (below c)) :
    t.Enumerates i (i :: (t.children i).flatMap below) := by
  have owner : ∀ c ∈ t.children i, t.parentOf c = some i := fun c member => (linked.mem_iff i c).mp member
  have mem_below : ∀ j, j ∈ (t.children i).flatMap below ↔ t.Below i j := by
    intro j
    rw [List.mem_flatMap]
    constructor
    · rintro ⟨c, member, inside⟩
      exact Under.below_parent (owner c member) (((each c member).mem_iff j).mp inside)
    · intro lower
      obtain ⟨c, up, under⟩ := lower.exists_child
      have member := (linked.mem_iff i c).mpr up
      exact ⟨c, member, ((each c member).mem_iff j).mpr under⟩
  -- What holds of a part of the order holds of the whole.
  have part : ∀ c ∈ t.children i, below c <+ i :: (t.children i).flatMap below := fun c member => by
    have single := (List.singleton_sublist.mpr member).flatMap below
    rw [List.flatMap_singleton] at single
    exact single.cons i
  refine ⟨List.nodup_cons.mpr ⟨fun again => acyclic i ((mem_below i).mp again), ?_⟩, fun j => ?_,
    fun j k under lower => ?_, fun p c d j k under pair left right => ?_⟩
  · refine List.nodup_flatMap.mpr ⟨fun c member => (each c member).nodup, ?_⟩
    refine (linked.nodup i).imp_of_mem fun {c d} first second other j left right => other ?_
    exact acyclic.eq_of_common (owner c first) (owner d second) (((each c first).mem_iff j).mp left)
      (((each d second).mem_iff j).mp right)
  · rw [List.mem_cons, mem_below]
    refine ⟨?_, Under.eq_or_below⟩
    rintro (rfl | lower)
    · exact .refl t j
    · exact lower.under
  · rcases under.eq_or_below with rfl | inner
    · exact (List.singleton_sublist.mpr ((mem_below k).mpr lower)).cons_cons j
    · obtain ⟨c, up, under⟩ := inner.exists_child
      have member := (linked.mem_iff i c).mpr up
      exact ((each c member).descends j k under lower).trans (part c member)
  · rcases under.eq_or_below with rfl | inner
    · have first : c ∈ t.children p := pair.subset (by simp)
      have second : d ∈ t.children p := pair.subset (by simp)
      have both := pair.flatMap below
      rw [List.flatMap_cons, List.flatMap_singleton] at both
      refine List.Sublist.cons p (List.Sublist.trans ?_ both)
      exact (List.singleton_sublist.mpr (((each c first).mem_iff j).mpr left)).append
        (List.singleton_sublist.mpr (((each d second).mem_iff k).mpr right))
    · obtain ⟨e, up, under⟩ := inner.exists_child
      have member := (linked.mem_iff i e).mpr up
      exact ((each e member).siblings p c d j k under pair left right).trans (part e member)

theorem subtree_enumerates (acyclic : Acyclic t) (linked : Linked t) (within : t.Within depth i) :
    t.Enumerates i (t.subtree depth i) := by
  induction depth generalizing i with
  | zero => exact absurd within (t.not_within_zero i)
  | succ depth ih =>
    exact .node acyclic linked fun c member => ih (within.child ((linked.mem_iff i c).mp member))

/-! ### Walks -/

/-- The walk over branches in a given order, up to and including the first one where it stops. -/
def Walk.along (goOn : BranchId → Bool) (order : List BranchId) : Walk where
  visited := order.take (order.findIdx (!goOn ·) + 1)
  outcome := .ok (order.all goOn)

namespace Walk

variable {goOn : BranchId → Bool} {id : BranchId}

theorem along_cons_of_pos (go : goOn id = true) (order : List BranchId) :
    along goOn (id :: order) = ⟨id :: (along goOn order).visited, (along goOn order).outcome⟩ := by
  simp [along, List.findIdx_cons, go]

theorem along_cons_of_neg (stop : goOn id = false) (order : List BranchId) :
    along goOn (id :: order) = ⟨[id], .ok false⟩ := by
  simp [along, List.findIdx_cons, stop]

theorem along_true (order : List BranchId) : along (fun _ => true) order = ⟨order, .ok true⟩ := by
  induction order with
  | nil => rfl
  | cons id order ih => rw [along_cons_of_pos rfl, ih]

theorem along_append (first rest : List BranchId) : along goOn (first ++ rest) =
    if first.all goOn then
      ⟨(along goOn first).visited ++ (along goOn rest).visited, (along goOn rest).outcome⟩
    else along goOn first := by
  induction first with
  | nil => rfl
  | cons id first ih =>
    cases go : goOn id with
    | false => rw [List.cons_append, along_cons_of_neg go, along_cons_of_neg go, List.all_cons, go]; rfl
    | true =>
      rw [List.cons_append, along_cons_of_pos go, along_cons_of_pos go, ih, List.all_cons, go, Bool.true_and]
      split <;> rfl

end Walk

variable {goOn : BranchId → Bool}

theorem visitAll_along {visit : BranchId → Walk} {below : Nat → List BranchId} {cs : List Nat}
    (each : ∀ c ∈ cs, visit c = .along goOn (below c)) :
    visitAll visit cs = .along goOn (cs.flatMap below) := by
  induction cs with
  | nil => rfl
  | cons c cs ih =>
    obtain ⟨first, later⟩ := List.forall_mem_cons.mp each
    rw [visitAll, first, ih later, List.flatMap_cons, Walk.along_append]
    cases whole : (below c).all goOn <;> simp [Walk.along, whole]

theorem walkFrom_along (linked : Linked t) (valid : i < t.size) (within : t.Within depth i) :
    t.walkFrom goOn depth i = .along goOn ((t.subtree depth i).map Nat.cast) := by
  induction depth generalizing i with
  | zero => exact absurd within (t.not_within_zero i)
  | succ depth ih =>
    obtain ⟨b, found⟩ := exists_branch valid
    have listed : t.children i = b.children := by rw [children, found]; rfl
    have below : visitAll (t.walkFrom goOn depth) b.children =
        .along goOn ((t.children i).flatMap fun c => (t.subtree depth c).map Nat.cast) := by
      rw [← listed]
      exact visitAll_along fun c member =>
        ih (linked.valid i c member) (within.child ((linked.mem_iff i c).mp member))
    rw [walkFrom, subtree, get?_natCast, found, List.map_cons, List.map_flatMap]
    cases go : goOn i with
    | false => rw [Walk.along_cons_of_neg go]; rfl
    | true => rw [Walk.along_cons_of_pos go, ← below]; rfl

/-- In a tree that calls lead to and where no branch lies above itself, there is an order of a branch
and all that lies below it which every walk from the branch follows: to its end, or up to and
including the first branch where the walk stops. -/
theorem walk_enumerates (ops : List Operation) (acyclic : Acyclic (Operation.run ops)) (i : Nat)
    (valid : i < (Operation.run ops).size) :
    ∃ order, (Operation.run ops).Enumerates i order ∧
      (Operation.run ops).walk i (fun _ => true) = ⟨order.map Nat.cast, .ok true⟩ ∧
      ∀ goOn, (Operation.run ops).walk i goOn = .along goOn (order.map Nat.cast) := by
  have linked := run_linked ops
  have within := acyclic.within linked i
  refine ⟨_, subtree_enumerates acyclic linked within, ?_, fun goOn => walkFrom_along linked valid within⟩
  rw [walk, walkFrom_along linked valid within, Walk.along_true]

theorem acyclic_of_lt (earlier : ∀ i p, t.parentOf i = some p → p < i) : Acyclic t := by
  have lower : ∀ n i p, t.above? n i = some p → p ≤ i := by
    intro n
    induction n with
    | zero => exact fun i p up => Nat.le_of_eq (Option.some.inj up).symm
    | succ n ih =>
      intro i p up
      obtain ⟨c, owner, start⟩ := exists_child_of_above? up
      exact Nat.le_of_lt (Nat.lt_of_lt_of_le (earlier c p owner) (ih i c start))
  rintro i ⟨n, up⟩
  obtain ⟨c, owner, start⟩ := exists_child_of_above? up
  exact absurd (earlier c i owner) (Nat.not_lt.mpr (lower n i c start))

/-- A tree in which the second child of the root comes first and a branch has got a child from another
one, which is left without. -/
def grafted : List Operation :=
  [.new "a" 0 .empty, .new "b" 1 .empty, .new "c" 2 .empty, .new "d" 3 .empty, .new "e" 4 .empty,
    .new "f" 5 .empty, .new "g" 6 .empty, .add 0 1, .insert 0 0 2, .addRange 1 [3, skipped, 4], .add 5 6,
    .replace 4 5]

theorem walk_enumerates_grafted : Acyclic (Operation.run grafted) ∧ 0 < (Operation.run grafted).size ∧
    ∃ order, (Operation.run grafted).Enumerates 0 order ∧
      (Operation.run grafted).walk (0 : Nat) (fun _ => true) = ⟨order.map Nat.cast, .ok true⟩ ∧
      ∀ goOn, (Operation.run grafted).walk (0 : Nat) goOn = .along goOn (order.map Nat.cast) := by
  have acyclic : Acyclic (Operation.run grafted) := by
    refine acyclic_of_lt fun i p owner => ?_
    have known : ∀ i < (Operation.run grafted).size, ∀ p ∈ (Operation.run grafted).parentOf i, p < i := by
      decide
    exact known i (lt_size_of_parentOf owner) p owner
  exact ⟨acyclic, by decide, walk_enumerates grafted acyclic 0 (by decide)⟩

example : ((Operation.run grafted).walk 0 fun _ => true).visited = [0, 2, 1, 3, 4, 6] := by decide

example : ((Operation.run grafted).walk 0 (· != 1)).visited = [0, 2, 1] := by decide

end TypeEngine.Tree
