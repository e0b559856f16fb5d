import Mathlib.Logic.Function.Basic
import Mathlib.Logic.Relation
import TypeEngine.Proofs.Numeral
import TypeEngine.Proofs.Ty.Outcome
import TypeEngine.Tree.Basic

/-!
# What operations do to the links of a tree

A tree records ownership twice, in the parent of a branch and in the children of its owner. An
operation makes new branches, which belong to nobody, or adopts children one by one, or releases some
children of one branch; only a replacement moves children from one branch to another.
`apply_changes` and `moved_of_moves` say so for every operation, also for one that fails.
-/

namespace TypeEngine.Tree

variable {t t' : Tree} {i j p c s : Nat}
  {f : Branch → Branch} {cs : List Nat} {id parent child : BranchId}

/-! ### Reading after writing -/

theorem branch?_modify (t : Tree) (i j : Nat) (f : Branch → Branch) :
    (t.modify i f).branch? j = if i = j then (t.branch? j).map f else t.branch? j := by
  rw [branch?, modify, List.getElem?_modify, branch?]
  cases t.branches[j]? <;> split <;> simp_all

@[simp] theorem size_modify (t : Tree) (i : Nat) (f : Branch → Branch) : (t.modify i f).size = t.size :=
  List.length_modify ..

theorem exists_branch (valid : i < t.size) : ∃ b, t.branch? i = some b :=
  ⟨t.branches[i], List.getElem?_eq_getElem valid⟩

theorem lt_size_of_branch {b : Branch} (found : t.branch? i = some b) : i < t.size :=
  (List.getElem?_eq_some_iff.mp found).1

theorem lt_size_of_parentOf (owned : t.parentOf c = some p) : c < t.size := by
  obtain ⟨b, found, _⟩ := Option.bind_eq_some_iff.mp owned
  exact lt_size_of_branch found

theorem lt_size_of_mem (member : c ∈ t.children p) : p < t.size := by
  rw [children] at member
  cases found : t.branch? p with
  | none => simp [found] at member
  | some b => exact lt_size_of_branch found

theorem parentOf_modify (t : Tree) (kept : ∀ b, (f b).parent = b.parent) :
    (t.modify i f).parentOf = t.parentOf := by
  funext j
  rw [parentOf, parentOf, branch?_modify]
  split
  · cases t.branch? j <;> simp [kept]
  · rfl

theorem children_modify (t : Tree) (kept : ∀ b, (f b).children = b.children) :
    (t.modify i f).children = t.children := by
  funext j
  rw [children, children, branch?_modify]
  split
  · cases t.branch? j <;> simp [kept]
  · rfl

theorem parentOf_modify_set (valid : i < t.size) {owner : Option Nat}
    (set : ∀ b, (f b).parent = owner) : (t.modify i f).parentOf = Function.update t.parentOf i owner := by
  funext j
  obtain ⟨b, found⟩ := exists_branch valid
  rw [parentOf, branch?_modify, Function.update_apply]
  by_cases same : j = i
  · subst same
    simp [found, set]
  · rw [if_neg (Ne.symm same), if_neg same, parentOf]

theorem children_modify_set (valid : i < t.size)
    (set : ∀ b, (f b).children = cs) : (t.modify i f).children = Function.update t.children i cs := by
  funext j
  obtain ⟨b, found⟩ := exists_branch valid
  rw [children, branch?_modify, Function.update_apply]
  by_cases same : j = i
  · subst same
    simp [found, set]
  · rw [if_neg (Ne.symm same), if_neg same, children]

@[simp] theorem size_setParent (t : Tree) (owner : Option Nat) (i : Nat) :
    (t.setParent owner i).size = t.size :=
  size_modify ..

@[simp] theorem children_setParent (t : Tree) (owner : Option Nat) (i : Nat) :
    (t.setParent owner i).children = t.children :=
  t.children_modify fun _ => rfl

theorem parentOf_setParent (valid : i < t.size) (owner : Option Nat) :
    (t.setParent owner i).parentOf = Function.update t.parentOf i owner :=
  parentOf_modify_set valid fun _ => rfl

@[simp] theorem size_setChildren (t : Tree) (i : Nat) (cs : List Nat) : (t.setChildren i cs).size = t.size :=
  size_modify ..

@[simp] theorem parentOf_setChildren (t : Tree) (i : Nat) (cs : List Nat) :
    (t.setChildren i cs).parentOf = t.parentOf :=
  t.parentOf_modify fun _ => rfl

theorem children_setChildren (valid : i < t.size) (cs : List Nat) :
    (t.setChildren i cs).children = Function.update t.children i cs :=
  children_modify_set valid fun _ => rfl

theorem respan_eq (t : Tree) (i : Nat) : ∃ f : Branch → Branch,
    t.respan i = t.modify i f ∧ ∀ b, (f b).parent = b.parent ∧ (f b).children = b.children := by
  unfold respan
  dsimp only
  split <;> exact ⟨_, rfl, fun b => ⟨rfl, rfl⟩⟩

@[simp] theorem size_respan (t : Tree) (i : Nat) : (t.respan i).size = t.size := by
  obtain ⟨f, same, _⟩ := t.respan_eq i
  rw [same, size_modify]

@[simp] theorem parentOf_respan (t : Tree) (i : Nat) : (t.respan i).parentOf = t.parentOf := by
  obtain ⟨f, same, kept⟩ := t.respan_eq i
  rw [same, t.parentOf_modify fun b => (kept b).1]

@[simp] theorem children_respan (t : Tree) (i : Nat) : (t.respan i).children = t.children := by
  obtain ⟨f, same, kept⟩ := t.respan_eq i
  rw [same, t.children_modify fun b => (kept b).2]

/-- Giving the same owner to several branches. -/
theorem foldl_setParent (owner : Option Nat) (valid : ∀ c ∈ cs, c < t.size) :
    (cs.foldl (setParent · owner) t).size = t.size ∧
      (cs.foldl (setParent · owner) t).children = t.children ∧
      (cs.foldl (setParent · owner) t).parentOf = fun j => if j ∈ cs then owner else t.parentOf j := by
  induction cs generalizing t with
  | nil => simp
  | cons c cs ih =>
    obtain ⟨head, tail⟩ := List.forall_mem_cons.mp valid
    obtain ⟨size, children, parents⟩ := ih (t := t.setParent owner c) (by simpa using tail)
    rw [List.foldl_cons]
    refine ⟨by simpa using size, by simpa using children, ?_⟩
    rw [parents, parentOf_setParent head]
    funext j
    by_cases member : j ∈ cs <;> by_cases same : j = c <;> simp [member, same]

/-! ### Operations -/

/-- A call that can change a tree. -/
inductive Operation where
  | new (name : String) (pos : Int) (scope : Path)
  | leaf (name : String) (pos endPos : Int) (scope : Path)
  | node (name : String) (pos : Int) (scope : Path) (payload : Payload)
  | setPayload (id : BranchId) (payload : Payload)
  | add (parent child : BranchId)
  | addRange (parent : BranchId) (children : List BranchId)
  | insert (parent : BranchId) (index : Int64) (child : BranchId)
  | remove (parent : BranchId) (index count : Int64)
  | replace (id source : BranchId)

/-- The tree that a call leaves behind. Only the addition of several children can fail halfway. -/
def Operation.apply (t : Tree) : Operation → Tree
  | new name pos scope => (t.newBranch name pos scope).2
  | leaf name pos endPos scope => (t.newLeaf name pos endPos scope).2
  | node name pos scope payload => (t.newBranch name pos scope payload).2
  | setPayload id payload => (t.setPayload id payload).toOption.getD t
  | add parent child => (t.add parent child).toOption.getD t
  | addRange parent children => (t.addRange parent children).2
  | insert parent index child => (t.insert parent index.toInt child).toOption.getD t
  | remove parent index count => (t.remove parent index.toInt count.toInt).toOption.getD t
  | replace id source => (t.replace id source).toOption.getD t

/-- The tree that calls leave behind, one after the other, from the empty tree on. -/
def Operation.run (ops : List Operation) : Tree := ops.foldl Operation.apply .empty

/-- What happens to the links when no children are moved. -/
inductive Change (t t' : Tree) : Prop where
  | same (size : t.size ≤ t'.size) (parents : t'.parentOf = t.parentOf)
      (children : t'.children = t.children)
  | adopted (p c : Nat) (cs : List Nat) (size : t'.size = t.size) (owner : p < t.size)
      (valid : c < t.size) (other : c ≠ p) (free : t.parentOf c = none)
      (notAbove : c ∉ (t.ancestors p).1) (ends : (t.ancestors p).2 = true)
      (parents : t'.parentOf = Function.update t.parentOf c (some p))
      (children : t'.children = Function.update t.children p cs) (order : cs.Perm (c :: t.children p))
  | released (p : Nat) (gone kept : List Nat) (size : t'.size = t.size)
      (parents : t'.parentOf = fun j => if j ∈ gone then none else t.parentOf j)
      (children : t'.children = Function.update t.children p kept)
      (order : (t.children p).Perm (gone ++ kept))

/-- The children of `s`, which has no parent, take the place of those of `i`. -/
structure Moved (t t' : Tree) (i s : Nat) : Prop where
  size : t'.size = t.size
  target : i < t.size
  source : s < t.size
  other : i ≠ s
  free : t.parentOf s = none
  parents : t'.parentOf = Function.update
    (fun j => if j ∈ t.children s then some i else if j ∈ t.children i then none else t.parentOf j) s none
  children : t'.children = Function.update (Function.update t.children i (t.children s)) s []

/-! ### One call -/

theorem check_ok (done : t.check id = .ok i) : i < t.size ∧ id = i := by
  unfold check at done
  split at done
  · cases done
  · rename_i valid
    obtain rfl := Except.ok.inj done
    simp only [Bool.or_eq_true, decide_eq_true_eq, not_or, Int.not_lt, Nat.not_le] at valid
    exact ⟨valid.2, (Int.toNat_of_nonneg valid.1).symm⟩

theorem adoptable_ok (done : t.adoptable parent child = .ok (p, c)) :
    t.check parent = .ok p ∧ t.check child = .ok c ∧ c ≠ p ∧ t.parentOf c = none ∧
      c ∉ (t.ancestors p).1 ∧ (t.ancestors p).2 = true := by
  unfold adoptable at done
  obtain ⟨p', first, done⟩ := Ty.exists_of_bind done
  obtain ⟨c', second, done⟩ := Ty.exists_of_bind done
  dsimp only at done
  split at done
  · cases done
  split at done
  · cases done
  split at done
  · cases done
  split at done
  · cases done
  rename_i other _ free notAbove ends
  obtain ⟨rfl, rfl⟩ := Prod.mk.inj (Except.ok.inj done)
  rw [List.contains_iff_mem] at notAbove
  exact ⟨first, second, other, Option.eq_none_iff_forall_ne_some.mpr free, notAbove, by simpa using ends⟩

theorem adopted_of_adoptable
    (done : t.adoptable parent child = .ok (p, c)) (order : cs.Perm (c :: t.children p)) :
    Change t ((t.setParent (some p) c).setChildren p cs) := by
  obtain ⟨first, second, other, free, notAbove, ends⟩ := adoptable_ok done
  have owner := (check_ok first).1
  have valid := (check_ok second).1
  refine .adopted p c cs (by simp) owner valid other free notAbove ends ?_ ?_ order
  · rw [parentOf_setChildren, parentOf_setParent valid]
  · rw [children_setChildren (by simpa using owner), children_setParent]

theorem Change.respan (change : Change t t') (i : Nat) : Change t (t'.respan i) := by
  cases change with
  | same size parents children => exact .same (by simpa using size) (by simpa using parents) (by simpa using children)
  | adopted p c cs size owner valid other free notAbove ends parents children order =>
    exact .adopted p c cs (by simpa using size) owner valid other free notAbove ends
      (by simpa using parents) (by simpa using children) order
  | released p gone kept size parents children order =>
    exact .released p gone kept (by simpa using size) (by simpa using parents) (by simpa using children) order

theorem Change.refl (t : Tree) : Change t t := .same (Nat.le_refl _) rfl rfl

theorem new_change (t : Tree) {b : Branch} (free : b.parent = none) (childless : b.children = []) :
    Change t (t.new b).2 := by
  have read : ∀ j, (t.new b).2.branch? j = if j = t.size then some b else t.branch? j := by
    intro j
    change (t.branches ++ [b])[j]? = if j = t.branches.length then some b else t.branches[j]?
    grind
  have outside : t.branch? t.size = none := List.getElem?_eq_none (Nat.le_refl _)
  refine .same (by simp [new, size]) ?_ ?_
  · funext j
    rw [parentOf, parentOf, read]
    split
    · rename_i last
      rw [last, outside]
      exact free
    · rfl
  · funext j
    rw [children, children, read]
    split
    · rename_i last
      rw [last, outside]
      exact childless
    · rfl

theorem adopt_change (done : t.adopt parent child = .ok t') : Change t t' := by
  obtain ⟨⟨p, c⟩, found, done⟩ := Ty.exists_of_bind done
  obtain rfl := Except.ok.inj done
  exact adopted_of_adoptable found List.perm_append_comm

theorem add_change (done : t.add parent child = .ok t') : Change t t' := by
  unfold add at done
  split at done
  · obtain rfl := Except.ok.inj done
    exact .refl t
  · obtain ⟨t₁, adopted, done⟩ := Ty.exists_of_bind done
    obtain rfl := Except.ok.inj done
    exact (adopt_change adopted).respan _

theorem adoptAll_changes (t : Tree) (parent : BranchId) (children : List BranchId) :
    Relation.ReflTransGen Change t (t.adoptAll parent children).2 := by
  induction children generalizing t with
  | nil => exact .refl
  | cons child rest ih =>
    rw [adoptAll]
    split
    · exact ih t
    · split
      · rename_i t₁ adopted
        exact .head (adopt_change adopted) (ih t₁)
      · exact .refl

theorem addRange_changes (t : Tree) (parent : BranchId) (children : List BranchId) :
    Relation.ReflTransGen Change t (t.addRange parent children).2 := by
  have adopted := t.adoptAll_changes parent children
  unfold addRange
  split
  · rename_i t₁ whole
    rw [whole] at adopted
    split
    · exact adopted.tail ((Change.refl t₁).respan _)
    · exact adopted
  · exact adopted

theorem insert_change {index : Int} (done : t.insert parent index child = .ok t') :
    Change t t' := by
  unfold Tree.insert at done
  split at done
  · obtain rfl := Except.ok.inj done
    exact .refl t
  dsimp only at done
  split at done
  · rename_i b found
    split at done
    · cases done
    obtain ⟨⟨p, c⟩, may, done⟩ := Ty.exists_of_bind done
    obtain rfl := Except.ok.inj done
    obtain ⟨valid, rfl⟩ := check_ok (adoptable_ok may).1
    have children : t.children p = b.children := by
      rw [get?, if_neg (Int.not_lt.mpr (Int.natCast_nonneg p)), Int.toNat_natCast] at found
      rw [children, found]
      rfl
    refine (adopted_of_adoptable may ?_).respan p
    rw [children]
    exact List.perm_middle.trans (by rw [List.take_append_drop])
  · cases done

theorem remove_change {index count : Int64} (valid : ∀ p, ∀ c ∈ t.children p, c < t.size)
    (done : t.remove parent index.toInt count.toInt = .ok t') : Change t t' := by
  unfold remove at done
  obtain ⟨p, found, done⟩ := Ty.exists_of_bind done
  have owner := (check_ok found).1
  dsimp only at done
  split at done
  · cases done
  split at done
  · cases done
  rename_i range natural
  obtain rfl := Except.ok.inj done
  simp only [Bool.or_eq_true, decide_eq_true_eq, not_or, Int.not_lt] at range natural
  obtain ⟨⟨first, some⟩, bounded⟩ := range
  -- The sum of the two numbers has not left the range, or the call would have failed.
  have last : wrap (index.toInt + count.toInt) = index.toInt + count.toInt := by
    have left := index.toInt_lt
    have right := count.toInt_lt
    by_cases small : index.toInt + count.toInt ≤ Numeral.greatest
    · exact Numeral.wrap_eq_self (by omega) small
    · have negative := Numeral.wrap_neg (Int.not_le.mp small) (by simp only [Numeral.greatest]; omega)
      omega
  rw [last, Int.toNat_add first some]
  generalize index.toInt.toNat = n, count.toInt.toNat = k
  have inside : ∀ c ∈ ((t.children p).drop n).take k, c < t.size :=
    fun c member => valid p c (List.mem_of_mem_drop (List.mem_of_mem_take member))
  obtain ⟨size, children, parents⟩ := foldl_setParent none inside
  refine (Change.released p (((t.children p).drop n).take k)
    ((t.children p).take n ++ (t.children p).drop (n + k)) ?_ ?_ ?_ ?_).respan p
  · rw [size_setChildren, size]
  · rw [parentOf_setChildren, parents]
  · rw [children_setChildren (by rw [size]; exact owner), children]
  · have whole : t.children p =
        (t.children p).take n ++ (((t.children p).drop n).take k ++ (t.children p).drop (n + k)) := by
      rw [← List.drop_drop, List.take_append_drop, List.take_append_drop]
    refine (List.Perm.of_eq whole).trans ?_
    rw [← List.append_assoc, ← List.append_assoc]
    exact List.perm_append_comm.append_right _

theorem replace_moved {source : BranchId} (valid : ∀ p, ∀ c ∈ t.children p, c < t.size)
    (target : t.check id = .ok i) (found : t.check source = .ok s) (other : i ≠ s)
    (free : t.parentOf s = none) : ∃ t', t.replace id source = .ok t' ∧ Moved t t' i s := by
  have inside := (check_ok target).1
  have outside := (check_ok found).1
  obtain ⟨size, children, parents⟩ := foldl_setParent none (valid i)
  unfold replace
  rw [target, found, Ty.bind_ok, Ty.bind_ok, if_neg other]
  dsimp only
  rw [free]
  dsimp only
  generalize (t.children i).foldl (setParent · none) t = t₁ at size children parents ⊢
  obtain ⟨content, read⟩ := exists_branch (t := t₁) (by rw [size]; exact outside)
  rw [read]
  refine ⟨_, rfl, ?_⟩
  have moved : content.children = t.children s := by
    rw [← children, Tree.children, read]
    rfl
  have size₂ : (t₁.modify i ({ content with parent := ·.parent })).size = t.size := by
    rw [size_modify, size]
  have parents₂ := (t₁.parentOf_modify (i := i) (f := ({ content with parent := ·.parent })) fun _ => rfl).trans
    parents
  have children₂ : (t₁.modify i ({ content with parent := ·.parent })).children =
      Function.update t.children i (t.children s) := by
    rw [← moved, ← children]
    exact children_modify_set (by rw [size]; exact inside) fun _ => rfl
  generalize t₁.modify i ({ content with parent := ·.parent }) = t₂ at size₂ parents₂ children₂ ⊢
  have listed : ∀ c ∈ content.children, c < t₂.size := by
    rw [moved, size₂]
    exact valid s
  obtain ⟨size₃, children₃, parents₃⟩ := foldl_setParent (some i) listed
  generalize content.children.foldl (setParent · (some i)) t₂ = t₃ at size₃ children₃ parents₃ ⊢
  rw [parents₂, moved] at parents₃
  have last : s < t₃.size := by rw [size₃, size₂]; exact outside
  refine ⟨by simp [size₃, size₂], inside, outside, other, free, ?_, ?_⟩
  · rw [← parents₃]
    exact (parentOf_respan ..).trans (parentOf_modify_set last fun _ => rfl)
  · rw [← children₂, ← children₃]
    exact (children_respan ..).trans (children_modify_set last fun _ => rfl)

/-- The call moves the children of `s` to `i`. -/
def Operation.Moves (t : Tree) (i s : Nat) (op : Operation) : Prop :=
  ∃ id source, op = .replace id source ∧ t.check id = .ok i ∧ t.check source = .ok s ∧ i ≠ s ∧
    t.parentOf s = none

theorem moved_of_moves {op : Operation} (valid : ∀ p, ∀ c ∈ t.children p, c < t.size)
    (moves : op.Moves t i s) : Moved t (op.apply t) i s := by
  obtain ⟨id, source, rfl, target, found, other, free⟩ := moves
  obtain ⟨t', done, moved⟩ := replace_moved valid target found other free
  rw [Operation.apply, done]
  exact moved

theorem replace_still {source : BranchId} (none : ∀ i s, ¬(Operation.replace id source).Moves t i s) :
    Operation.apply t (.replace id source) = t := by
  rw [Operation.apply]
  cases target : t.check id with
  | error fault => rw [replace, target]; rfl
  | ok i =>
    cases found : t.check source with
    | error fault => rw [replace, target, found]; rfl
    | ok s =>
      by_cases other : i = s
      · rw [replace, target, found, Ty.bind_ok, Ty.bind_ok, if_pos other]
        rfl
      · cases owner : t.parentOf s with
        | none => exact absurd ⟨id, source, rfl, target, found, other, owner⟩ (none i s)
        | some o =>
          rw [replace, target, found, Ty.bind_ok, Ty.bind_ok, if_neg other]
          dsimp only
          rw [owner]
          rfl

theorem apply_changes (valid : ∀ p, ∀ c ∈ t.children p, c < t.size) {op : Operation}
    (none : ∀ i s, ¬op.Moves t i s) : Relation.ReflTransGen Change t (op.apply t) := by
  -- A call that fails as a whole leaves the tree as it is.
  have once : ∀ {x : Except TreeFault Tree}, (∀ t', x = .ok t' → Change t t') →
      Relation.ReflTransGen Change t (x.toOption.getD t) := by
    intro x done
    cases x with
    | ok t' => exact .single (done t' rfl)
    | error fault => exact .refl
  cases op with
  | new name pos scope => exact .single (new_change t rfl rfl)
  | leaf name pos endPos scope => exact .single (new_change t rfl rfl)
  | node name pos scope payload => exact .single (new_change t rfl rfl)
  | setPayload id payload =>
    refine once fun t' done => ?_
    obtain ⟨i, _, done⟩ := Ty.exists_of_bind done
    obtain rfl := Except.ok.inj done
    exact .same (by simp) (t.parentOf_modify fun _ => rfl) (t.children_modify fun _ => rfl)
  | add parent child => exact once fun t' done => add_change done
  | addRange parent children => exact t.addRange_changes parent children
  | insert parent index child => exact once fun t' done => insert_change done
  | remove parent index count => exact once fun t' done => remove_change valid done
  | replace id source => rw [replace_still none]

end TypeEngine.Tree
