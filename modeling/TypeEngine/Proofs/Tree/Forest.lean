import Mathlib.Data.List.Induction
import Mathlib.Data.List.Perm.Subperm
import TypeEngine.Proofs.Tree.Ownership
import TypeEngine.Tree.Walk

/-!
# Forests

In a forest the parents of every branch come to an end. Taking a child keeps a forest, because the
line above the new owner is searched for it, and so does giving children away. A replacement makes no
such search: it keeps a forest exactly if the branch whose children are moved does not lie above the
one that gets them (`Moved.forest_iff`). `run_forest_iff` follows the trees that calls lead to, and
`replace_loops` is a replacement after which a branch is its own parent.
-/

namespace TypeEngine.Tree

variable {t t' : Tree} {i j p c s : Nat} {o : Option Nat} {line : List Nat}

/-! ### Lines upward -/

/-- The branches from one upwards, which come to an end. -/
inductive Line (t : Tree) : Option Nat → List Nat → Prop where
  | top : Line t none []
  | up {i : Nat} {line : List Nat} : Line t (t.parentOf i) line → Line t (some i) (i :: line)

namespace Line

theorem unique {line' : List Nat} (first : Line t o line) (second : Line t o line') : line = line' := by
  induction first generalizing line' with
  | top => cases second; rfl
  | up _ ih =>
    cases second with
    | up second => rw [ih second]

theorem of_mem (up : Line t o line) (member : i ∈ line) : ∃ rest, Line t (some i) rest ∧ rest <:+ line := by
  induction up with
  | top => cases member
  | @up j rest above ih =>
    rcases List.mem_cons.mp member with rfl | member
    · exact ⟨_, .up above, List.suffix_refl _⟩
    · obtain ⟨found, line, inside⟩ := ih member
      exact ⟨found, line, inside.trans (List.suffix_cons _ _)⟩

theorem head_mem (up : Line t (some i) line) : i ∈ line := by
  cases up with
  | up above => exact List.mem_cons_self

theorem parent_mem (up : Line t o line) (member : i ∈ line) (owner : t.parentOf i = some p) : p ∈ line := by
  obtain ⟨rest, found, inside⟩ := up.of_mem member
  cases found with
  | up above =>
    rw [owner] at above
    exact inside.subset (List.mem_cons_of_mem _ above.head_mem)

theorem not_mem (above : Line t (t.parentOf i) line) : i ∉ line := by
  intro member
  obtain ⟨rest, again, inside⟩ := above.of_mem member
  obtain rfl := again.unique (.up above)
  have shorter := inside.length_le
  rw [List.length_cons] at shorter
  omega

theorem nodup (up : Line t o line) : line.Nodup := by
  induction up with
  | top => exact List.nodup_nil
  | up above ih => exact List.nodup_cons.mpr ⟨above.not_mem, ih⟩

theorem valid (linked : Linked t) (up : Line t o line) (first : ∀ i, o = some i → i < t.size) :
    ∀ i ∈ line, i < t.size := by
  induction up with
  | top => exact nofun
  | @up j rest above ih =>
    refine List.forall_mem_cons.mpr ⟨first j rfl, ih fun p owned => ?_⟩
    exact lt_size_of_mem ((linked.mem_iff p j).mpr owned)

theorem length_le (linked : Linked t) (up : Line t (some i) line) (inside : i < t.size) :
    line.length ≤ t.size := by
  have valid := up.valid linked fun j same => Option.some.inj same ▸ inside
  have subset : line ⊆ List.range t.size := fun j member => List.mem_range.mpr (valid j member)
  have short := (List.subperm_of_subset up.nodup subset).length_le
  rwa [List.length_range] at short

theorem carry (up : Line t o line)
    (step : ∀ i ∈ line, t'.parentOf i = t.parentOf i ∨ ∃ line, Line t' (t'.parentOf i) line) :
    ∃ line', Line t' o line' := by
  induction up with
  | top => exact ⟨[], .top⟩
  | @up j rest above ih =>
    obtain ⟨here, later⟩ := List.forall_mem_cons.mp step
    rcases here with kept | ⟨line', new⟩
    · obtain ⟨line', found⟩ := ih later
      exact ⟨j :: line', .up (kept ▸ found)⟩
    · exact ⟨j :: line', .up new⟩

end Line

theorem lineage_eq {fuel : Nat} (up : Line t o line) (enough : line.length ≤ fuel) :
    t.lineage fuel o = (line, true) := by
  induction up generalizing fuel with
  | top => cases fuel <;> rfl
  | @up i rest above ih =>
    cases fuel with
    | zero => cases enough
    | succ fuel => rw [lineage, ih (Nat.le_of_succ_le_succ enough)]

theorem line_of_lineage {fuel : Nat} (ends : (t.lineage fuel o).2 = true) :
    Line t o (t.lineage fuel o).1 := by
  induction fuel generalizing o with
  | zero =>
    cases o with
    | none => exact .top
    | some i => cases ends
  | succ fuel ih =>
    cases o with
    | none => exact .top
    | some i => exact .up (ih ends)

theorem ancestors_eq (linked : Linked t) (above : Line t (t.parentOf i) line) :
    t.ancestors i = (line, true) := by
  refine lineage_eq above ?_
  cases owner : t.parentOf i with
  | none =>
    rw [owner] at above
    cases above
    exact Nat.zero_le _
  | some p =>
    rw [owner] at above
    exact Nat.le_succ_of_le (above.length_le linked (lt_size_of_mem ((linked.mem_iff p i).mpr owner)))

/-! ### Forests -/

/-- The branch `n` levels above another one. -/
def above? (t : Tree) : Nat → Nat → Option Nat
  | 0, i => some i
  | n + 1, i => (t.parentOf i).bind (t.above? n)

/-- Whatever goes from parent to parent or from child to child comes to an end. -/
structure Forest (t : Tree) : Prop where
  climbs (i : Nat) : ∃ n, t.above? n i = none
  path (i : Nat) : i < t.size → ∃ text, t.path i = .ok text
  walk (i : Nat) (goOn : BranchId → Bool) : i < t.size → ∃ whole, (t.walk i goOn).outcome = .ok whole

theorem bind_above? (up : Line t o line) : o.bind (t.above? line.length) = none := by
  induction up with
  | top => rfl
  | up above ih => exact ih

theorem line_of_above? {n : Nat} (ends : t.above? n i = none) : ∃ line, Line t (some i) line := by
  induction n generalizing i with
  | zero => cases ends
  | succ n ih =>
    cases owner : t.parentOf i with
    | none => exact ⟨[i], .up (owner ▸ .top)⟩
    | some p =>
      rw [above?, owner] at ends
      obtain ⟨line, up⟩ := ih ends
      exact ⟨i :: line, .up (owner ▸ up)⟩

theorem get?_natCast (t : Tree) (i : Nat) : t.get? i = t.branch? i := by
  rw [get?, if_neg (Int.not_lt.mpr (Int.natCast_nonneg i)), Int.toNat_natCast]

theorem path_ok (linked : Linked t) (up : Line t (some i) line) (valid : i < t.size) :
    ∃ text, t.path i = .ok text := by
  cases up with
  | up above =>
    obtain ⟨b, found⟩ := exists_branch valid
    have named : (i : BranchId) ≠ noBranch := by
      show (i : Int) ≠ -1
      omega
    rw [path, if_neg named, get?_natCast, found, Int.toNat_natCast, ancestors_eq linked above]
    exact ⟨_, rfl⟩

theorem visitAll_ok {visit : BranchId → Walk} {cs : List Nat}
    (each : ∀ c ∈ cs, ∃ whole, (visit c).outcome = .ok whole) :
    ∃ whole, (visitAll visit cs).outcome = .ok whole := by
  induction cs with
  | nil => exact ⟨true, rfl⟩
  | cons c cs ih =>
    obtain ⟨⟨whole, first⟩, later⟩ := List.forall_mem_cons.mp each
    cases whole with
    | true => simpa only [visitAll, first] using ih later
    | false => exact ⟨false, by simp only [visitAll, first]⟩

/-- Each level down makes the line longer, so the bound on the number of levels is never reached. -/
theorem walkFrom_ok (linked : Linked t) {goOn : BranchId → Bool} {fuel : Nat} (up : Line t (some i) line)
    (valid : i < t.size) (enough : t.size < fuel + line.length) :
    ∃ whole, (t.walkFrom goOn fuel i).outcome = .ok whole := by
  induction fuel generalizing i line with
  | zero =>
    have short := up.length_le linked valid
    omega
  | succ fuel ih =>
    obtain ⟨b, found⟩ := exists_branch valid
    have listed : t.children i = b.children := by rw [children, found]; rfl
    rw [walkFrom, get?_natCast, found]
    split
    · refine visitAll_ok fun c member => ?_
      rw [← listed] at member
      have owner := (linked.mem_iff i c).mp member
      exact ih (.up (owner ▸ up)) (linked.valid i c member) (by rw [List.length_cons]; omega)
    · exact ⟨false, rfl⟩

theorem forest_iff_line (linked : Linked t) : Forest t ↔ ∀ i, ∃ line, Line t (some i) line := by
  refine ⟨fun forest i => ?_, fun lines => ⟨fun i => ?_, fun i valid => ?_, fun i goOn valid => ?_⟩⟩
  · obtain ⟨n, ends⟩ := forest.climbs i
    exact line_of_above? ends
  · obtain ⟨line, up⟩ := lines i
    exact ⟨line.length, bind_above? up⟩
  · obtain ⟨line, up⟩ := lines i
    exact path_ok linked up valid
  · obtain ⟨line, up⟩ := lines i
    refine walkFrom_ok linked up valid ?_
    omega

/-! ### Steps -/

theorem Change.lines (change : Change t t') (lines : ∀ i, ∃ line, Line t (some i) line) :
    ∀ i, ∃ line, Line t' (some i) line := by
  intro i
  obtain ⟨line, up⟩ := lines i
  refine up.carry fun j _ => ?_
  cases change with
  | same size parents children => exact .inl (by rw [parents])
  | adopted p c cs size owner valid other free notAbove ends parents children order =>
    rw [parents, Function.update_apply]
    split
    · -- The line above the new owner does not meet the child, so it is still there.
      have above : Line t (some p) (p :: (t.ancestors p).1) := .up (line_of_lineage ends)
      refine .inr (above.carry fun k member => .inl ?_)
      rw [parents, Function.update_of_ne]
      rintro rfl
      rcases List.mem_cons.mp member with same | member
      · exact other same
      · exact notAbove member
    · exact .inl rfl
  | released p gone kept size parents children order =>
    rw [parents]
    dsimp only
    split
    · exact .inr ⟨[], .top⟩
    · exact .inl rfl

theorem changes_lines (changes : Relation.ReflTransGen Change t t')
    (lines : ∀ i, ∃ line, Line t (some i) line) : ∀ i, ∃ line, Line t' (some i) line := by
  induction changes with
  | refl => exact lines
  | tail _ change ih => exact change.lines ih

section

variable (moved : Moved t t' i s) (linked : Linked t) (above : Line t (t.parentOf i) line)
include moved linked

theorem Moved.parentOf_child (child : t.parentOf j = some s) : t'.parentOf j = some i := by
  have other : j ≠ s := by
    rintro rfl
    rw [moved.free] at child
    cases child
  rw [moved.parents, Function.update_of_ne other, if_pos ((linked.mem_iff s j).mpr child)]

theorem Moved.parentOf_other (notChild : t.parentOf j ≠ some s) :
    t'.parentOf j = none ∨ t'.parentOf j = t.parentOf j := by
  rw [moved.parents, Function.update_apply, if_neg fun member => notChild ((linked.mem_iff s j).mp member)]
  split
  · exact .inl rfl
  · split
    · exact .inl rfl
    · exact .inr rfl

theorem Moved.parentOf_kept (notChild : t.parentOf j ≠ some s) (notTarget : t.parentOf j ≠ some i)
    (other : j ≠ s) : t'.parentOf j = t.parentOf j := by
  rw [moved.parents, Function.update_of_ne other, if_neg fun member => notChild ((linked.mem_iff s j).mp member),
    if_neg fun member => notTarget ((linked.mem_iff i j).mp member)]

theorem Moved.through {line' : List Nat} (up : Line t o line') (below : s ∈ line') (start : o ≠ some s)
    (apart : ∀ k ∈ line', t.parentOf k ≠ some i) {after : List Nat} (now : Line t' o after) :
    ∃ j rest, after = j :: rest ∧ i ∈ rest := by
  induction up generalizing after with
  | top => cases below
  | @up k rest up ih =>
    cases now with
    | @up _ after now =>
      refine ⟨k, after, rfl, ?_⟩
      have other : k ≠ s := fun same => start (by rw [same])
      obtain ⟨here, later⟩ := List.forall_mem_cons.mp apart
      by_cases child : t.parentOf k = some s
      · rw [moved.parentOf_child linked child] at now
        exact now.head_mem
      · rw [moved.parentOf_kept linked child here other] at now
        have inside : s ∈ rest := (List.mem_cons.mp below).resolve_left (Ne.symm other)
        obtain ⟨j, rest', rfl, member⟩ := ih inside child later now
        exact List.mem_cons_of_mem _ member

include above

theorem Moved.lines (apart : s ∉ line) (lines : ∀ i, ∃ line, Line t (some i) line) :
    ∀ i, ∃ line, Line t' (some i) line := by
  have step : ∀ j, t.parentOf j ≠ some s →
      t'.parentOf j = t.parentOf j ∨ ∃ line, Line t' (t'.parentOf j) line := by
    intro j notChild
    rcases moved.parentOf_other linked notChild with free | kept
    · exact .inr ⟨[], free ▸ .top⟩
    · exact .inl kept
  have target : ∃ line', Line t' (some i) line' := by
    refine (Line.up above).carry fun j member => step j fun child => ?_
    rcases List.mem_cons.mp ((Line.up above).parent_mem member child) with same | inside
    · exact moved.other same.symm
    · exact apart inside
  intro j
  obtain ⟨line, up⟩ := lines j
  refine up.carry fun k _ => ?_
  by_cases child : t.parentOf k = some s
  · rw [moved.parentOf_child linked child]
    exact .inr target
  · exact step k child

theorem Moved.endless (below : s ∈ line) : ¬∃ line', Line t' (some i) line' := by
  rintro ⟨after, now⟩
  have apart : ∀ k ∈ i :: line, t.parentOf k ≠ some i := by
    intro k member child
    obtain ⟨rest, up, inside⟩ := (Line.up above).of_mem member
    cases up with
    | up up =>
      rw [child] at up
      obtain rfl := up.unique (.up above)
      have shorter := inside.length_le
      simp only [List.length_cons] at shorter
      omega
  obtain ⟨j, rest, rfl, member⟩ := moved.through linked (.up above) (List.mem_cons_of_mem _ below)
    (fun same => moved.other (Option.some.inj same)) apart now
  cases now with
  | up now => exact now.not_mem member

end

/-- The call moves the children of a branch to one that it lies above. -/
def Operation.Loops (t : Tree) (op : Operation) : Prop :=
  ∃ i s, op.Moves t i s ∧ s ∈ (t.ancestors i).1

theorem apply_forest_iff (linked : Linked t) (forest : Forest t) (op : Operation) :
    Forest (op.apply t) ↔ ¬op.Loops t := by
  have lines := (forest_iff_line linked).mp forest
  rw [forest_iff_line (apply_linked linked op)]
  have line : ∀ i, ∃ line, Line t (t.parentOf i) line := by
    intro i
    obtain ⟨_, up⟩ := lines i
    cases up with
    | up above => exact ⟨_, above⟩
  constructor
  · rintro after ⟨i, s, moves, below⟩
    obtain ⟨above, up⟩ := line i
    rw [ancestors_eq linked up] at below
    exact (moved_of_moves linked.valid moves).endless linked up below (after i)
  · intro apart
    by_cases moves : ∃ i s, op.Moves t i s
    · obtain ⟨i, s, moves⟩ := moves
      obtain ⟨above, up⟩ := line i
      refine (moved_of_moves linked.valid moves).lines linked up (fun below => ?_) lines
      exact apart ⟨i, s, moves, by rw [ancestors_eq linked up]; exact below⟩
    · exact changes_lines (apply_changes linked.valid fun i s this => moves ⟨i, s, this⟩) lines

/-! ### Runs -/

theorem run_append (done : List Operation) (op : Operation) :
    Operation.run (done ++ [op]) = op.apply (Operation.run done) := by
  rw [Operation.run, List.foldl_append]
  rfl

theorem empty_forest : Forest .empty := by
  refine (forest_iff_line .empty).mpr fun i => ⟨[i], .up ?_⟩
  have free : Tree.empty.parentOf i = none := by simp [parentOf, branch?, Tree.empty]
  rw [free]
  exact .top

/-- All the trees that calls lead to, one after the other, are forests exactly if no call moves the
children of a branch to one that it lies above. -/
theorem run_forest_iff (ops : List Operation) :
    (∀ done, done <+: ops → Forest (Operation.run done)) ↔
      ∀ done op, done ++ [op] <+: ops → ¬op.Loops (Operation.run done) := by
  constructor
  · intro forests done op inside
    have before := forests done ((List.prefix_append done [op]).trans inside)
    have after := forests _ inside
    rw [run_append] at after
    exact (apply_forest_iff (run_linked done) before op).mp after
  · intro apart done
    induction done using List.reverseRecOn with
    | nil => exact fun _ => empty_forest
    | append_singleton done op ih =>
      intro inside
      have before := ih ((List.prefix_append done [op]).trans inside)
      rw [run_append]
      exact (apply_forest_iff (run_linked done) before op).mpr (apart done op inside)

theorem above?_self (owner : t.parentOf i = some i) (n : Nat) : t.above? n i = some i := by
  induction n with
  | zero => rfl
  | succ n ih => rw [above?, owner, Option.bind_some, ih]

/-- A branch that takes the content of its own parent becomes its own child. -/
theorem replace_loops :
    let t := Operation.run [.new "a" 0 .empty, .new "b" 1 .empty, .add 0 1, .replace 1 0]
    t.parentOf 1 = some 1 ∧ t.children 1 = [1] ∧ (∀ n, t.above? n 1 ≠ none) ∧ ¬Forest t := by
  have owner : (Operation.run [.new "a" 0 .empty, .new "b" 1 .empty, .add 0 1, .replace 1 0]).parentOf 1 =
    some 1 := by rfl
  have endless := fun n => (above?_self owner n).trans_ne (Option.some_ne_none 1)
  refine ⟨owner, rfl, endless, fun forest => ?_⟩
  obtain ⟨n, ends⟩ := forest.climbs 1
  exact endless n ends

end TypeEngine.Tree
