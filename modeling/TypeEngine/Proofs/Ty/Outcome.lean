/-!
# Outcomes that are no faults

What is known of the parts of a computation that can fail, when the whole has a result.
-/

namespace TypeEngine.Ty

variable {ε α : Type}

theorem exists_of_bind {β : Type} {x : Except ε α} {f : α → Except ε β} {b : β}
    (done : x >>= f = .ok b) : ∃ a, x = .ok a ∧ f a = .ok b := by
  cases x with
  | error _ => cases done
  | ok a => exact ⟨a, rfl, done⟩

theorem exists_of_map {β : Type} {x : Except ε α} {f : α → β} {b : β} (done : x.map f = .ok b) :
    ∃ a, x = .ok a ∧ f a = b := by
  cases x with
  | error _ => cases done
  | ok a => exact ⟨a, rfl, Except.ok.inj done⟩

theorem bind_ok {β : Type} (a : α) (f : α → Except ε β) : (Except.ok a >>= f) = f a := rfl

theorem ok_of_mapError {ε' : Type} {f : ε → ε'} {x : Except ε α} {a : α}
    (done : x.mapError f = .ok a) : x = .ok a := by
  cases x with
  | error _ => cases done
  | ok _ => exact congrArg Except.ok (Except.ok.inj done)

theorem error_of_map {β : Type} {x : Except ε α} {f : α → β} {fault : ε}
    (failed : x.map f = .error fault) : x = .error fault := by
  cases x with
  | error _ => exact congrArg Except.error (Except.error.inj failed)
  | ok _ => cases failed

theorem exists_of_mapError {ε' : Type} {f : ε → ε'} {x : Except ε α} {fault : ε'}
    (failed : x.mapError f = .error fault) : ∃ cause, x = .error cause ∧ fault = f cause := by
  cases x with
  | error cause => exact ⟨cause, rfl, (Except.error.inj failed).symm⟩
  | ok _ => cases failed

theorem exists_of_discard {x : Except ε α} (done : discard x = .ok ()) :
    ∃ a, x = .ok a := by
  cases x with
  | error _ => cases done
  | ok a => exact ⟨a, rfl⟩

end TypeEngine.Ty

namespace TypeEngine

variable {α β ε : Type}

/-! ### Lists of results -/

theorem mem_mapM {g : α → Option β} {xs : List α} {ys : List β} (done : xs.mapM g = some ys) :
    (∀ y ∈ ys, ∃ x ∈ xs, g x = some y) ∧ ∀ x ∈ xs, ∃ y ∈ ys, g x = some y := by
  induction xs generalizing ys with
  | nil =>
    cases done
    simp
  | cons x xs ih =>
    rw [List.mapM_cons] at done
    obtain ⟨y, first, done⟩ := Option.bind_eq_some_iff.mp done
    obtain ⟨ys, later, same⟩ := Option.bind_eq_some_iff.mp done
    cases same
    obtain ⟨back, forth⟩ := ih later
    refine ⟨List.forall_mem_cons.mpr ⟨⟨x, by simp, first⟩, fun y member => ?_⟩,
      List.forall_mem_cons.mpr ⟨⟨y, by simp, first⟩, fun x member => ?_⟩⟩
    · obtain ⟨x, member, same⟩ := back y member
      exact ⟨x, List.mem_cons_of_mem _ member, same⟩
    · obtain ⟨y, member, same⟩ := forth x member
      exact ⟨y, List.mem_cons_of_mem _ member, same⟩

theorem exists_of_mem_mapM {f : α → Except ε β} {xs : List α} {ys : List β}
    (done : xs.mapM f = .ok ys) {y : β} (member : y ∈ ys) : ∃ x ∈ xs, f x = .ok y := by
  induction xs generalizing ys with
  | nil =>
    cases done
    cases member
  | cons x xs ih =>
    rw [List.mapM_cons] at done
    obtain ⟨z, first, done⟩ := Ty.exists_of_bind done
    obtain ⟨zs, later, done⟩ := Ty.exists_of_bind done
    cases done
    rcases List.mem_cons.mp member with rfl | member
    · exact ⟨x, by simp, first⟩
    · obtain ⟨x', inside, found⟩ := ih later member
      exact ⟨x', List.mem_cons_of_mem _ inside, found⟩

theorem ok_of_mapM {f : α → Except ε β} {l : List α} {out : List β} {x : α}
    (done : l.mapM f = .ok out) (member : x ∈ l) : ∃ y, f x = .ok y := by
  induction l generalizing out with
  | nil => cases member
  | cons z l ih =>
    rw [List.mapM_cons] at done
    obtain ⟨y, first, done⟩ := Ty.exists_of_bind done
    obtain ⟨rest, later, _⟩ := Ty.exists_of_bind done
    rcases List.mem_cons.mp member with rfl | member
    · exact ⟨y, first⟩
    · exact ih later member

theorem mapM_ok {f g : α → Except ε β} {xs : List α} {ys : List β}
    (each : ∀ x y, f x = .ok y → g x = .ok y) (done : xs.mapM f = .ok ys) : xs.mapM g = .ok ys := by
  induction xs generalizing ys with
  | nil => exact done
  | cons x xs ih =>
    rw [List.mapM_cons] at done ⊢
    obtain ⟨y, first, done⟩ := Ty.exists_of_bind done
    obtain ⟨rest, later, done⟩ := Ty.exists_of_bind done
    rw [each x y first, Ty.bind_ok, ih later]
    exact done

end TypeEngine
