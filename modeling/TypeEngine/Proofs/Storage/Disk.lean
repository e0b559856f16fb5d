import TypeEngine.Proofs.Firsts
import TypeEngine.Proofs.Storage.Location
import TypeEngine.Storage.Disk

/-!
# What file operations see and change

Reading a location depends on the places that lead to it (`find_congr`). Writing one changes at most
the place it denotes, which was no directory (`write_cases`). Making directories changes places that
were empty, and only those that lead to the last of them.
-/

namespace TypeEngine.Storage.Disk

variable {d e : Disk} {at_ : List String} {p : String}

/-! ### Contents -/

@[simp]
theorem content?_root (d : Disk) : d.content? [] = some .directory := rfl

theorem content?_set_of_ne {q : List String} (other : q ≠ at_) (d : Disk) (c : Content) :
    (d.set at_ c).content? q = d.content? q := by
  have others := lookup_filter (fun p => decide (p ≠ at_)) d.contents q
  cases q with
  | nil => rw [content?_root, content?_root]
  | cons name q =>
    change ((at_, c) :: d.contents.filter _).lookup (name :: q) = d.contents.lookup (name :: q)
    rw [List.lookup_cons, beq_eq_false_iff_ne.mpr other]
    exact others.trans (if_pos (decide_eq_true other))

theorem content?_set (inside : at_ ≠ []) (c : Content) (q : List String) :
    (d.set at_ c).content? q = if q = at_ then some c else d.content? q := by
  split
  · rename_i same
    subst same
    obtain ⟨name, rest, rfl⟩ := List.exists_cons_of_ne_nil inside
    simp [content?, set]
  · rename_i other
    exact content?_set_of_ne other d c

/-! ### Following locations -/

/-- The places that are met when parts are followed. -/
def visits : List String → List String → List (List String)
  | here, [] => [here]
  | here, part :: rest => here :: visits (step true here.reverse part).reverse rest

theorem follow_congr {here ps : List String} (agree : ∀ q ∈ visits here ps, d.content? q = e.content? q) :
    d.follow here ps = e.follow here ps := by
  induction ps generalizing here with
  | nil => rw [follow, follow, agree here (by simp [visits])]
  | cons part rest ih =>
    rw [visits, List.forall_mem_cons] at agree
    rw [follow, follow, agree.1, ih agree.2]

theorem follow_ok {here ps : List String} {c : Content} (found : d.follow here ps = .ok (at_, c)) :
    at_ = (walk true here.reverse ps).reverse ∧ d.content? at_ = some c := by
  induction ps generalizing here with
  | nil =>
    rw [follow] at found
    split at found
    · rename_i here_
      cases found
      exact ⟨(List.reverse_reverse _).symm, here_⟩
    · cases found
  | cons part rest ih =>
    rw [follow] at found
    split at found
    · obtain ⟨place, there⟩ := ih found
      rw [List.reverse_reverse] at place
      exact ⟨place, there⟩
    · cases found
    · cases found

theorem follow_of_visits {here ps : List String} {before : List (List String)}
    (visited : visits here ps = before ++ [at_]) (dirs : ∀ q ∈ before, d.content? q = some .directory) :
    d.follow here ps = (d.content? at_).elim (.error .missing) fun c => .ok (at_, c) := by
  induction ps generalizing here before with
  | nil =>
    obtain ⟨rfl, rfl⟩ : before = [] ∧ at_ = here := by
      cases before with
      | nil => exact ⟨rfl, (List.cons.inj visited).1.symm⟩
      | cons q before => simp [visits] at visited
    rw [follow]
    cases d.content? at_ <;> rfl
  | cons part rest ih =>
    cases before with
    | nil => cases rest <;> simp [visits] at visited
    | cons q before =>
      obtain ⟨rfl, later⟩ := List.cons.inj visited
      rw [List.forall_mem_cons] at dirs
      rw [follow, dirs.1]
      exact ih later dirs.2

/-- Where a location is seen from. -/
def start (d : Disk) (p : String) : List String := if isAbsolute p then [] else cleanParts d.workingDirectory

/-- The places that lead to a location, and its own. -/
def trail (d : Disk) (p : String) : List (List String) := visits (d.start p) (parts p)

theorem find_eq (d : Disk) (p : String) :
    d.find p = if p = "" then .error .missing else d.follow (d.start p) (parts p) := by
  rw [find, start]
  split
  · rfl
  split
  · rfl
  · rfl

theorem find_congr (same : d.workingDirectory = e.workingDirectory)
    (agree : ∀ q ∈ d.trail p, d.content? q = e.content? q) : d.find p = e.find p := by
  rw [find_eq, find_eq, follow_congr agree, start, start, same]

theorem find_of_trail (named : p ≠ "") {before : List (List String)} (visited : d.trail p = before ++ [at_])
    (dirs : ∀ q ∈ before, d.content? q = some .directory) :
    d.find p = (d.content? at_).elim (.error .missing) fun c => .ok (at_, c) := by
  rw [find_eq, if_neg named, follow_of_visits visited dirs]

theorem place_congr (same : e.workingDirectory = d.workingDirectory) (p : String) : e.place p = d.place p := by
  rw [place, place, same]

theorem trail_congr (same : e.workingDirectory = d.workingDirectory) (p : String) : e.trail p = d.trail p := by
  rw [trail, trail, start, start, same]

theorem place_eq (absolute : isAbsolute d.workingDirectory = true) (p : String) :
    d.place p = lead (cleanParts d.workingDirectory) p :=
  cleanParts_seen absolute p

theorem find_ok (absolute : isAbsolute d.workingDirectory = true) {c : Content}
    (found : d.find p = .ok (at_, c)) : at_ = d.place p ∧ d.content? at_ = some c := by
  rw [find_eq] at found
  split at found
  · cases found
  · obtain ⟨place, there⟩ := follow_ok found
    rw [place_eq absolute, lead]
    refine ⟨place.trans ?_, there⟩
    rw [start]
    split <;> rfl

theorem place_join (absolute : isAbsolute d.workingDirectory = true) {dir name : String} (plain : IsPlain name) :
    d.place (join dir name) = d.place dir ++ [name] := by
  rw [place_eq absolute, place_eq absolute, lead_join _ plain]

/-! ### Writing -/

theorem write_cases (absolute : isAbsolute d.workingDirectory = true) (p text : String) :
    (d.write p text).2 = d ∨
      d.content? (d.place p) ≠ some .directory ∧
        (d.write p text).2 = d.set (d.place p) (.file text d.clock) := by
  unfold write
  split
  · rename_i found
    obtain ⟨rfl, there⟩ := find_ok absolute found
    exact .inr ⟨by simp [there], rfl⟩
  · exact .inl rfl
  · dsimp only
    split
    · rename_i vacant _ _
      exact .inr ⟨by simp [vacant], rfl⟩
    · exact .inl rfl

theorem write_file {c : Content} (found : d.find p = .ok (at_, c)) (file : c ≠ .directory) (text : String) :
    d.write p text = (.ok (), d.set at_ (.file text d.clock)) := by
  cases c with
  | directory => exact absurd rfl file
  | file old modified => rw [write, found]

theorem write_new (missing : d.find p = .error .missing) (vacant : d.content? (d.place p) = none)
    (above : d.content? (d.place p).dropLast = some .directory) (text : String) :
    d.write p text = (.ok (), d.set (d.place p) (.file text d.clock)) := by
  rw [write, missing]
  dsimp only
  rw [vacant, above]

/-! ### Making directories -/

/-- The places that lead to a place, and itself, are directories. -/
def IsDirectory (d : Disk) (at_ : List String) : Prop := ∀ q, q <+: at_ → d.content? q = some .directory

/-- Nothing is changed but places without content that lead to `at_`, which become directories. -/
structure Extends (at_ : List String) (d e : Disk) : Prop where
  cwd : e.workingDirectory = d.workingDirectory
  content (q : List String) : e.content? q = d.content? q ∨
    q <+: at_ ∧ d.content? q = none ∧ e.content? q = some .directory

theorem Extends.refl (at_ : List String) (d : Disk) : Extends at_ d d := ⟨rfl, fun _ => .inl rfl⟩

theorem Extends.trans {d₁ d₂ d₃ : Disk} (first : Extends at_ d₁ d₂)
    (next : Extends at_ d₂ d₃) : Extends at_ d₁ d₃ := by
  refine ⟨next.cwd.trans first.cwd, fun q => ?_⟩
  rcases first.content q with before | ⟨prefix_, vacant, made⟩
  · rw [← before]
    exact next.content q
  · rcases next.content q with after | ⟨_, vacant', _⟩
    · exact .inr ⟨prefix_, vacant, after.trans made⟩
    · rw [made] at vacant'
      cases vacant'

theorem extends_set {q : List String} (prefix_ : q <+: at_) (vacant : d.content? q = none) :
    Extends at_ d (d.set q .directory) := by
  have inside : q ≠ [] := by
    rintro rfl
    cases vacant
  refine ⟨rfl, fun r => ?_⟩
  rw [content?_set inside]
  split
  · rename_i same
    exact .inr ⟨same ▸ prefix_, same ▸ vacant, rfl⟩
  · exact .inl rfl

theorem makeFrom_extends (p : String) (at_ : List String) (todo : Nat) (d : Disk) :
    Extends at_ d (makeFrom p at_ d todo).2 := by
  induction todo generalizing d with
  | zero => exact .refl at_ d
  | succ todo ih =>
    rw [makeFrom]
    dsimp only
    split
    · exact ih d
    · exact .refl at_ d
    · rename_i vacant
      exact (extends_set ( List.take_prefix _ _) vacant).trans (ih _)

theorem makeFrom_ok {todo : Nat} (within : todo ≤ at_.length)
    (above : ∀ n ≤ at_.length - todo, d.content? (at_.take n) = some .directory)
    (done : (makeFrom p at_ d todo).1 = .ok ()) :
    ∀ n ≤ at_.length, (makeFrom p at_ d todo).2.content? (at_.take n) = some .directory := by
  induction todo generalizing d with
  | zero => exact above
  | succ todo ih =>
    -- the next place is the one after those that are directories already
    have next : ∀ n ≤ at_.length - todo, n ≤ at_.length - (todo + 1) ∨ n = at_.length - todo := by
      intro n small
      omega
    rw [makeFrom] at done ⊢
    dsimp only at done ⊢
    split at done
    · rename_i here
      refine ih (by omega) (fun n small => ?_) done
      rcases next n small with small | rfl
      · exact above n small
      · exact here
    · cases done
    · rename_i vacant
      have inside : at_.take (at_.length - todo) ≠ [] := by
        intro root
        rw [root] at vacant
        cases vacant
      refine ih (by omega) (fun n small => ?_) done
      rw [content?_set inside]
      split
      · rfl
      · rename_i other
        rcases next n small with small | rfl
        · exact above n small
        · exact absurd rfl other

theorem makeFrom_of_isDirectory (todo : Nat) (made : d.IsDirectory at_) :
    makeFrom p at_ d todo = (.ok (), d) := by
  induction todo with
  | zero => rfl
  | succ todo ih =>
    rw [makeFrom]
    dsimp only
    rw [made _ ( List.take_prefix _ _)]
    exact ih

theorem makeDirectories_extends (d : Disk) (p : String) : Extends (d.place p) d (d.makeDirectories p).2 :=
  makeFrom_extends p _ _ d

theorem makeDirectories_ok (done : (d.makeDirectories p).1 = .ok ()) :
    (d.makeDirectories p).2.IsDirectory (d.place p) := by
  intro q prefix_
  have all := makeFrom_ok (Nat.le_refl _) (fun n small => ?_) done q.length prefix_.length_le
  · rwa [← List.prefix_iff_eq_take.mp prefix_] at all
  · rw [Nat.sub_self, Nat.le_zero] at small
    rw [small]
    rfl

theorem makeDirectories_of_isDirectory (made : d.IsDirectory (d.place p)) :
    d.makeDirectories p = (.ok (), d) :=
  makeFrom_of_isDirectory _ made

/-! ### Outside of a directory -/

/-- The place lies in the directory `top`. -/
def Inside (top q : List String) : Prop := top <+: q ∧ q ≠ top

instance (top q : List String) : Decidable (Inside top q) := inferInstanceAs (Decidable (_ ∧ _))

theorem not_inside_above {top q : List String} (above : q <+: top) : ¬Inside top q :=
  fun ⟨below, other⟩ => other (above.eq_of_length_le below.length_le)

theorem Inside.below {top q r : List String} (inside : Inside top q) (below : q <+: r) : Inside top r := by
  refine ⟨inside.1.trans below, ?_⟩
  rintro rfl
  exact not_inside_above below inside

theorem inside_append (top : List String) (name : String) : Inside top (top ++ [name]) :=
  ⟨List.prefix_append _ _, by simp⟩

/-- The disks differ at most in what lies in the directory `top`. -/
structure AgreeOutside (top : List String) (d e : Disk) : Prop where
  cwd : d.workingDirectory = e.workingDirectory
  content (q : List String) (outside : ¬Inside top q) : d.content? q = e.content? q

namespace AgreeOutside

variable {top : List String}

theorem refl (d : Disk) : AgreeOutside top d d := ⟨rfl, fun _ _ => rfl⟩

theorem symm (agree : AgreeOutside top d e) : AgreeOutside top e d :=
  ⟨agree.cwd.symm, fun q outside => (agree.content q outside).symm⟩

theorem trans {f : Disk} (first : AgreeOutside top d e) (next : AgreeOutside top e f) : AgreeOutside top d f :=
  ⟨first.cwd.trans next.cwd, fun q outside => (first.content q outside).trans (next.content q outside)⟩

theorem place (agree : AgreeOutside top d e) (p : String) : d.place p = e.place p := place_congr agree.cwd p

theorem find (agree : AgreeOutside top d e) (outside : ∀ q ∈ d.trail p, ¬Inside top q) :
    d.find p = e.find p :=
  find_congr agree.cwd fun q member => agree.content q (outside q member)

theorem read (agree : AgreeOutside top d e) (outside : ∀ q ∈ d.trail p, ¬Inside top q) :
    d.read p = e.read p := by
  rw [Disk.read, Disk.read, agree.find outside]

theorem set {q : List String} (agree : AgreeOutside top d e) (inside : q ≠ []) (c : Content) :
    AgreeOutside top (d.set q c) (e.set q c) := by
  refine ⟨agree.cwd, fun r outside => ?_⟩
  rw [content?_set inside, content?_set inside, agree.content r outside]

theorem set_inside {q : List String} (d : Disk) (inside : Inside top q) (c : Content) :
    AgreeOutside top (d.set q c) d := by
  refine ⟨rfl, fun r outside => content?_set_of_ne ?_ d c⟩
  rintro rfl
  exact outside inside

theorem makeFrom (agree : AgreeOutside top d e) (p : String) (todo : Nat) :
    (Disk.makeFrom p top d todo).1 = (Disk.makeFrom p top e todo).1 ∧
      AgreeOutside top (Disk.makeFrom p top d todo).2 (Disk.makeFrom p top e todo).2 := by
  induction todo generalizing d e with
  | zero => exact ⟨rfl, agree⟩
  | succ todo ih =>
    have here := agree.content _ (not_inside_above ( List.take_prefix (top.length - todo) top))
    rw [Disk.makeFrom, Disk.makeFrom]
    dsimp only
    rw [here]
    split
    · exact ih agree
    · exact ⟨rfl, agree⟩
    · rename_i vacant
      refine ih (agree.set ?_ _)
      intro root
      rw [root] at vacant
      cases vacant

theorem makeDirectories (agree : AgreeOutside top d e) (place : d.place p = top) :
    (d.makeDirectories p).1 = (e.makeDirectories p).1 ∧
      AgreeOutside top (d.makeDirectories p).2 (e.makeDirectories p).2 := by
  rw [Disk.makeDirectories, Disk.makeDirectories, ← agree.place p, place]
  exact agree.makeFrom p top.length

end AgreeOutside

end TypeEngine.Storage.Disk
