import Mathlib.Data.List.Perm.Subperm
import TypeEngine.Engine.Reach
import TypeEngine.Proofs.Symbols.Keys

/-!
# Shortest conversions

`Route` is a path in the graph of implicit conversions. The breadth-first search keeps the
invariant `Searched`: the types met are those left already and those still in the queue, the queue
is ordered by the length of the ways, and no edge leads from a type left to one not met.
`closure?_shortest` says what this means for the answer.
-/

namespace TypeEngine

/-- A path of conversions from `src`. Every type on it is the destination of an edge out of the
type before it; edges that warn are followed only if `lossy`. -/
inductive Route (ts : Tables) (lossy : Bool) : Ty → List Ty → Ty → Prop where
  | nil (t : Ty) : Route ts lossy t [] t
  | cons {src dst : Ty} {path : List Ty} {edge : ConversionEdge} :
      edge ∈ ts.conversionEdges src → (edge.warning = true → lossy = true) →
      Route ts lossy edge.dest path dst → Route ts lossy src (edge.dest :: path) dst

/-- `path` is a route from `src` to a type equal to `dst`. -/
def Leads (ts : Tables) (lossy : Bool) (src dst : Ty) (path : List Ty) : Prop :=
  ∃ t, Route ts lossy src path t ∧ (t == dst) = true

/-- What an answer about the way from `src` to `dst` says: it is found exactly if there is one, it
warns exactly if every way does, and it is a shortest one of its kind. -/
structure Shortest (ts : Tables) (src dst : Ty) (r : Reachability) : Prop where
  found_iff : r.found = true ↔ ∃ path, Leads ts true src dst path
  leads : r.found = true → Leads ts true src dst r.path
  warning_iff : r.found = true → (r.warning = false ↔ ∃ path, Leads ts false src dst path)
  exact_least : ∀ path, Leads ts false src dst path →
    Leads ts false src dst r.path ∧ r.path.length ≤ path.length
  least : (∀ path, ¬Leads ts false src dst path) →
    ∀ path, Leads ts true src dst path → r.path.length ≤ path.length

namespace Route

variable {ts : Tables} {lossy : Bool} {src t : Ty} {path : List Ty}

theorem snoc {edge : ConversionEdge} (route : Route ts lossy src path t)
    (member : edge ∈ ts.conversionEdges t) (allowed : edge.warning = true → lossy = true) :
    Route ts lossy src (path ++ [edge.dest]) edge.dest := by
  induction route with
  | nil t => exact .cons member allowed (.nil _)
  | cons first free _ ih => exact .cons first free (ih member)

theorem weaken (route : Route ts false src path t) : Route ts lossy src path t := by
  induction route with
  | nil t => exact .nil t
  | cons member allowed _ ih =>
    exact .cons member (fun warns => absurd (allowed warns) Bool.false_ne_true) ih

theorem closed {T : Ty → Prop} (onward : ∀ t, T t → ∀ edge ∈ ts.conversionEdges t, T edge.dest)
    (start : T src) (route : Route ts lossy src path t) : T t := by
  induction route with
  | nil t => exact start
  | cons member _ _ ih => exact ih (onward _ start _ member)

theorem last (route : Route ts lossy src path t) :
    t = src ∨ ∃ u edge, edge ∈ ts.conversionEdges u ∧ edge.dest = t := by
  induction route with
  | nil t => exact .inl rfl
  | cons member _ _ ih =>
    rcases ih with rfl | ends
    · exact .inr ⟨_, _, member, rfl⟩
    · exact .inr ends

theorem transport {T : Ty → Prop} {src' : Ty} (distinct : Distinguished T) (start : T src)
    (start' : T src') (same : (src == src') = true) (route : Route ts lossy src path t) :
    ∃ t', Route ts lossy src' path t' ∧ (t' == t) = true := by
  cases route with
  | nil => exact ⟨src', .nil _, Ty.beq_symm same⟩
  | cons member allowed rest =>
    rw [distinct.edges_eq ts start start' same] at member
    exact ⟨t, .cons member allowed rest, Ty.beq_rfl t⟩

end Route

theorem Leads.weaken {ts : Tables} {src dst : Ty} {path : List Ty}
    (leads : Leads ts false src dst path) : Leads ts true src dst path := by
  obtain ⟨t, route, arrives⟩ := leads
  exact ⟨t, route.weaken, arrives⟩

/-! ### Leaving one type -/

/-- The type at the end of an edge, met on the way over the edge's source. -/
def Visit.over (v : Visit) (edge : ConversionEdge) : Visit :=
  { type := edge.dest, warning := v.warning || edge.warning, path := v.path ++ [edge.dest] }

/-- The way over a further edge warns exactly if the way to its source or the edge does. -/
theorem Visit.over_route {ts : Tables} {lossy : Bool} {src : Ty} {v : Visit} {edge : ConversionEdge}
    (route : Route ts lossy src v.path v.type)
    (exact : v.warning = false → Route ts false src v.path v.type)
    (silent : lossy = false → v.warning = false) (out : edge ∈ ts.conversionEdges v.type)
    (allowed : edge.warning = true → lossy = true) :
    Route ts lossy src (v.over edge).path (v.over edge).type ∧
      ((v.over edge).warning = false → Route ts false src (v.over edge).path (v.over edge).type) ∧
      (lossy = false → (v.over edge).warning = false) := by
  refine ⟨route.snoc out allowed, ?_, ?_⟩
  · intro quiet
    obtain ⟨vQuiet, edgeQuiet⟩ := Bool.or_eq_false_iff.mp quiet
    exact (exact vQuiet).snoc out (by simp [edgeQuiet])
  · intro strict
    have edgeQuiet : edge.warning = false := by simpa [strict] using allowed
    simp [Visit.over, silent strict, edgeQuiet]

namespace Frontier

theorem taken_iff {edge : ConversionEdge} {lossy : Bool} {visited : List String} :
    ¬((edge.warning && !lossy) || visited.contains edge.dest.key) = true ↔
      (edge.warning = true → lossy = true) ∧ edge.dest.key ∉ visited := by
  cases edge.warning <;> cases lossy <;> simp

/-- An answer comes from an edge that leads to `dst`. -/
theorem follow_error {dst : Ty} {lossy : Bool} {v : Visit} {edges : List ConversionEdge}
    {f : Frontier} {r : Reachability} (stopped : follow dst lossy v edges f = .error r) :
    ∃ edge ∈ edges, (edge.warning = true → lossy = true) ∧ (edge.dest == dst) = true ∧
      r = { found := true, warning := (v.over edge).warning, path := (v.over edge).path } := by
  induction edges generalizing f with
  | nil => simp [follow] at stopped
  | cons edge edges ih =>
    rw [follow] at stopped
    split at stopped
    · obtain ⟨edge', member, rest⟩ := ih stopped
      exact ⟨edge', List.mem_cons_of_mem _ member, rest⟩
    · rename_i taken
      obtain ⟨allowed, _⟩ := taken_iff.mp taken
      dsimp only at stopped
      split at stopped
      · rename_i here
        exact ⟨edge, List.mem_cons_self, allowed, here, (Except.error.inj stopped).symm⟩
      · obtain ⟨edge', member, rest⟩ := ih stopped
        exact ⟨edge', List.mem_cons_of_mem _ member, rest⟩

/-- Without an answer, the types that were not yet met are added to the queue. -/
theorem follow_ok {dst : Ty} {lossy : Bool} {v : Visit} {edges : List ConversionEdge}
    {f f' : Frontier} (went : follow dst lossy v edges f = .ok f') :
    ∃ new : List Visit, f'.queue = f.queue ++ new ∧
      f'.visited = (new.map (·.type.key)).reverse ++ f.visited ∧
      (f.visited.Nodup → f'.visited.Nodup) ∧
      (∀ w ∈ new, ∃ edge ∈ edges, (edge.warning = true → lossy = true) ∧ w = v.over edge ∧
        (edge.dest == dst) = false) ∧
      (∀ edge ∈ edges, (edge.warning = true → lossy = true) → edge.dest.key ∈ f'.visited) := by
  induction edges generalizing f with
  | nil =>
    rw [follow] at went
    obtain rfl := Except.ok.inj went
    exact ⟨[], by simp⟩
  | cons edge edges ih =>
    rw [follow] at went
    split at went
    · rename_i skipped
      obtain ⟨new, queue, visited, nodup, reached, met⟩ := ih went
      refine ⟨new, queue, visited, nodup, ?_, ?_⟩
      · intro w member
        obtain ⟨edge', member', rest⟩ := reached w member
        exact ⟨edge', List.mem_cons_of_mem _ member', rest⟩
      · intro edge' member allowed
        rcases List.mem_cons.mp member with rfl | member
        · -- the edge is allowed, so it was skipped because its end had been met
          have seen : edge'.dest.key ∈ f.visited := by
            cases warns : edge'.warning with
            | false => simpa [warns] using skipped
            | true => simpa [warns, allowed warns] using skipped
          rw [visited]
          exact List.mem_append_right _ seen
        · exact met edge' member allowed
    · rename_i taken
      obtain ⟨allowed, unseen⟩ := taken_iff.mp taken
      dsimp only at went
      split at went
      · cases went
      · rename_i elsewhere
        obtain ⟨new, queue, visited, nodup, reached, met⟩ := ih went
        refine ⟨v.over edge :: new, ?_, ?_, ?_, ?_, ?_⟩
        · simpa [Visit.over] using queue
        · simpa [Visit.over] using visited
        · intro before
          exact nodup (List.nodup_cons.mpr ⟨unseen, before⟩)
        · intro w member
          rcases List.mem_cons.mp member with rfl | member
          · exact ⟨edge, List.mem_cons_self, allowed, rfl, by simpa using elsewhere⟩
          · obtain ⟨edge', member', rest⟩ := reached w member
            exact ⟨edge', List.mem_cons_of_mem _ member', rest⟩
        · intro edge' member allowed'
          rcases List.mem_cons.mp member with rfl | member
          · rw [visited]
            exact List.mem_append_right _ List.mem_cons_self
          · exact met edge' member allowed'

end Frontier

/-! ### The search -/

/-- The state of the search after the types of `done` were left. -/
structure Searched (ts : Tables) (lossy : Bool) (src dst : Ty) (done : List Visit) (f : Frontier) :
    Prop where
  /-- Every type met is at the end of the way to it, and is not the one looked for. -/
  routes : ∀ v ∈ done ++ f.queue, Route ts lossy src v.path v.type ∧
    (v.warning = false → Route ts false src v.path v.type) ∧ (lossy = false → v.warning = false) ∧
    (v.type == dst) = false
  visited_iff : ∀ k, k ∈ f.visited ↔ ∃ v ∈ done ++ f.queue, v.type.key = k
  length : f.visited.length = done.length + f.queue.length
  nodup : f.visited.Nodup
  started : ∃ v ∈ done ++ f.queue, v.type = src ∧ v.path = []
  /-- The queue is ordered by length and spans at most two levels. -/
  levels : f.queue.Pairwise fun v w =>
    v.path.length ≤ w.path.length ∧ w.path.length ≤ v.path.length + 1
  ordered : ∀ v ∈ done, ∀ w ∈ f.queue, v.path.length ≤ w.path.length
  /-- No edge leads from a type left to one not met. -/
  closed : ∀ v ∈ done, ∀ edge ∈ ts.conversionEdges v.type, (edge.warning = true → lossy = true) →
    ∃ w ∈ done ++ f.queue, w.type.key = edge.dest.key ∧ w.path.length ≤ v.path.length + 1

/-- What a search over the allowed edges answers. -/
structure Answered (ts : Tables) (lossy : Bool) (src dst : Ty) (r : Reachability) : Prop where
  found_iff : r.found = true ↔ ∃ path, Leads ts lossy src dst path
  leads : r.found = true → Leads ts lossy src dst r.path
  exact : r.found = true → r.warning = false → Leads ts false src dst r.path
  warning : lossy = false → r.warning = false
  least : ∀ path, Leads ts lossy src dst path → r.path.length ≤ path.length

namespace Searched

variable {T : Ty → Prop} {ts : Tables} {lossy : Bool} {src dst : Ty} {done : List Visit}
  {f : Frontier}

theorem initial (different : (src == dst) = false) :
    Searched ts lossy src dst [] { visited := [src.key], queue := [⟨src, false, []⟩] } where
  routes := by
    intro v member
    obtain rfl := List.mem_singleton.mp member
    exact ⟨.nil src, fun _ => .nil src, fun _ => rfl, different⟩
  visited_iff := by simp [eq_comm]
  length := rfl
  nodup := by simp
  started := ⟨_, List.mem_singleton.mpr rfl, rfl, rfl⟩
  levels := by simp
  ordered := by simp
  closed := by simp

/-- Along a route, every type was met in time, or some type on the way to it is still to be left. -/
theorem met (searched : Searched ts lossy src dst done f) (distinct : Distinguished T)
    (onward : ∀ t, T t → ∀ edge ∈ ts.conversionEdges t, T edge.dest) (source : T src) {t u : Ty}
    {path : List Ty} (route : Route ts lossy t path u) (start : T t) {v : Visit}
    (member : v ∈ done ++ f.queue) (key : v.type.key = t.key) :
    (∃ w ∈ done ++ f.queue, w.type.key = u.key ∧ w.path.length ≤ v.path.length + path.length) ∨
      ∃ w ∈ f.queue, w.path.length < v.path.length + path.length := by
  induction route generalizing v with
  | nil t => exact .inl ⟨v, member, key, Nat.le_refl _⟩
  | @cons t u path edge out allowed rest ih =>
    rcases List.mem_append.mp member with left | queued
    · have inside : T v.type := (searched.routes v member).1.closed onward source
      have same : (v.type == t) = true := (distinct.key_iff inside start).mp key
      have out' : edge ∈ ts.conversionEdges v.type := by
        rw [distinct.edges_eq ts inside start same]
        exact out
      obtain ⟨w, metIt, keyIt, short⟩ := searched.closed v left edge out' allowed
      rcases ih (onward t start edge out) metIt keyIt with ⟨x, there, keyThere, bound⟩ | ⟨x, there, bound⟩
      · exact .inl ⟨x, there, keyThere, by rw [List.length_cons]; omega⟩
      · exact .inr ⟨x, there, by rw [List.length_cons]; omega⟩
    · exact .inr ⟨v, queued, by rw [List.length_cons]; omega⟩

/-- A way to the destination passes through a type that is still to be left. -/
theorem ahead (searched : Searched ts lossy src dst done f) (distinct : Distinguished T)
    (onward : ∀ t, T t → ∀ edge ∈ ts.conversionEdges t, T edge.dest) (source : T src) (target : T dst)
    {path : List Ty} (leads : Leads ts lossy src dst path) :
    ∃ w ∈ f.queue, w.path.length < path.length := by
  obtain ⟨t, route, arrives⟩ := leads
  obtain ⟨v, member, rfl, empty⟩ := searched.started
  rcases searched.met distinct onward source route source member rfl with ⟨w, metIt, key, _⟩ | ⟨w, queued, short⟩
  · have inside : T w.type := (searched.routes w metIt).1.closed onward source
    have arrived : (w.type == dst) = true := by
      rw [← distinct.key_iff inside target, key, distinct.key_iff (route.closed onward source) target]
      exact arrives
    rw [(searched.routes w metIt).2.2.2] at arrived
    cases arrived
  · exact ⟨w, queued, by simpa [empty] using short⟩

section Step

variable {v : Visit} {queue new : List Visit}

/-- Whatever was met lies at most one level further than the first type of the queue. -/
theorem near (searched : Searched ts lossy src dst done f) (head : f.queue = v :: queue) {w : Visit}
    (member : w ∈ done ++ f.queue) : w.path.length ≤ v.path.length + 1 := by
  have levels := searched.levels
  rw [head, List.pairwise_cons] at levels
  rw [head, List.mem_append, List.mem_cons] at member
  rcases member with left | rfl | next
  · have := searched.ordered w left v (by simp [head])
    omega
  · omega
  · exact (levels.1 w next).2

theorem levels_append (searched : Searched ts lossy src dst done f) (head : f.queue = v :: queue)
    (further : ∀ w ∈ new, w.path.length = v.path.length + 1) :
    (queue ++ new).Pairwise fun v w =>
      v.path.length ≤ w.path.length ∧ w.path.length ≤ v.path.length + 1 := by
  have levels := searched.levels
  rw [head, List.pairwise_cons] at levels
  obtain ⟨behind, levels⟩ := levels
  refine List.pairwise_append.mpr ⟨levels, List.pairwise_of_forall_mem_list ?_, ?_⟩
  · intro a ha b hb
    rw [further a ha, further b hb]
    omega
  · intro a ha b hb
    have := behind a ha
    rw [further b hb]
    omega

theorem ordered_append (searched : Searched ts lossy src dst done f) (head : f.queue = v :: queue)
    (further : ∀ w ∈ new, w.path.length = v.path.length + 1) :
    ∀ a ∈ done ++ [v], ∀ b ∈ queue ++ new, a.path.length ≤ b.path.length := by
  have levels := searched.levels
  rw [head, List.pairwise_cons] at levels
  intro a ha b hb
  have shorter : a.path.length ≤ v.path.length := by
    rcases List.mem_append.mp ha with old | last
    · exact searched.ordered a old v (by simp [head])
    · exact Nat.le_of_eq (by rw [List.mem_singleton.mp last])
  rcases List.mem_append.mp hb with old | fresh
  · exact Nat.le_trans shorter (levels.1 b old).1
  · rw [further b fresh]
    omega

/-- Leaving the first type of the queue keeps the invariant. -/
theorem step {f' : Frontier} (searched : Searched ts lossy src dst done f) (head : f.queue = v :: queue)
    (went : Frontier.follow dst lossy v (ts.conversionEdges v.type) { f with queue } = .ok f') :
    Searched ts lossy src dst (done ++ [v]) f' := by
  obtain ⟨new, queue', visited', nodup', reached, met⟩ := Frontier.follow_ok went
  dsimp only at queue' visited' nodup'
  have all : done ++ [v] ++ f'.queue = done ++ f.queue ++ new := by simp [queue', head]
  have further : ∀ w ∈ new, w.path.length = v.path.length + 1 := by
    intro w member
    obtain ⟨edge, _, _, rfl, _⟩ := reached w member
    simp [Visit.over]
  have visited_iff : ∀ k, k ∈ f'.visited ↔ ∃ w ∈ done ++ f.queue ++ new, w.type.key = k := by
    intro k
    rw [visited', List.mem_append, searched.visited_iff]
    simp only [List.mem_reverse, List.mem_map, List.mem_append (s := done ++ f.queue), or_and_right,
      exists_or]
    exact or_comm
  constructor
  case routes =>
    intro w member
    rw [all, List.mem_append] at member
    rcases member with old | fresh
    · exact searched.routes w old
    · obtain ⟨edge, out, allowed, rfl, elsewhere⟩ := reached w fresh
      obtain ⟨route, exact, silent, _⟩ := searched.routes v (by simp [head])
      obtain ⟨further, exact, silent⟩ := Visit.over_route route exact silent out allowed
      exact ⟨further, exact, silent, elsewhere⟩
  case visited_iff => exact all ▸ visited_iff
  case length =>
    have before := searched.length
    simp only [head, List.length_cons] at before
    simp only [visited', queue', List.length_append, List.length_reverse, List.length_map,
      List.length_singleton, before]
    omega
  case nodup => exact nodup' searched.nodup
  case started =>
    obtain ⟨w, member, start⟩ := searched.started
    exact ⟨w, all ▸ List.mem_append_left _ member, start⟩
  case levels => exact queue' ▸ searched.levels_append head further
  case ordered => exact queue' ▸ searched.ordered_append head further
  case closed =>
    rw [all]
    intro a ha edge out allowed
    rcases List.mem_append.mp ha with old | last
    · obtain ⟨w, member, key, short⟩ := searched.closed a old edge out allowed
      exact ⟨w, List.mem_append_left _ member, key, short⟩
    · obtain rfl := List.mem_singleton.mp last
      obtain ⟨w, member, key⟩ := (visited_iff _).mp (met edge out allowed)
      refine ⟨w, member, key, ?_⟩
      rcases List.mem_append.mp member with old | fresh
      · exact searched.near head old
      · exact Nat.le_of_eq (further w fresh)

end Step

theorem length_le (searched : Searched ts lossy src dst done f) :
    done.length + f.queue.length ≤ Builtin.conversions.size + ts.conversions.size + 1 := by
  rw [← searched.length]
  let ends := (Builtin.conversions.filed ++ ts.conversions.filed).map (·.edge.dest.key)
  have inside : f.visited ⊆ src.key :: ends := by
    intro k member
    obtain ⟨v, metIt, rfl⟩ := (searched.visited_iff k).mp member
    rcases (searched.routes v metIt).1.last with start | ⟨t, edge, out, arrives⟩
    · rw [start]
      exact List.mem_cons_self
    · rw [← arrives]
      have filed := ts.conversionEdges_subset t out
      rw [List.mem_map] at filed
      obtain ⟨e, stored, rfl⟩ := filed
      exact List.mem_cons_of_mem _ (List.mem_map.mpr ⟨e, stored, rfl⟩)
  have bound := (searched.nodup.subperm inside).length_le
  simpa [ends, ConversionGraph.size, ConversionGraph.counted] using bound

/-- Once nothing is left in the queue there is no way. -/
theorem answered_of_empty (searched : Searched ts lossy src dst done f) (distinct : Distinguished T)
    (onward : ∀ t, T t → ∀ edge ∈ ts.conversionEdges t, T edge.dest) (source : T src) (target : T dst)
    (empty : f.queue = []) : Answered ts lossy src dst {} := by
  have noWay : ∀ path, ¬Leads ts lossy src dst path := by
    intro path leads
    obtain ⟨w, queued, _⟩ := searched.ahead distinct onward source target leads
    simp [empty] at queued
  refine ⟨?_, by simp, by simp, by simp, ?_⟩
  · simp only [Bool.false_eq_true, false_iff, not_exists]
    exact noWay
  · intro path leads
    exact absurd leads (noWay path)

/-- With fuel for the types still to come, the search answers correctly from every state. -/
theorem answered (distinct : Distinguished T)
    (onward : ∀ t, T t → ∀ edge ∈ ts.conversionEdges t, T edge.dest) (source : T src) (target : T dst)
    {fuel : Nat} (searched : Searched ts lossy src dst done f)
    (enough : Builtin.conversions.size + ts.conversions.size + 1 ≤ fuel + done.length) :
    Answered ts lossy src dst (Frontier.search ts.conversionEdges dst lossy fuel f) := by
  induction fuel generalizing done f with
  | zero =>
    have bound := searched.length_le
    have empty : f.queue = [] := List.eq_nil_of_length_eq_zero (by omega)
    exact searched.answered_of_empty distinct onward source target empty
  | succ fuel ih =>
    rw [Frontier.search]
    split
    · rename_i empty
      exact searched.answered_of_empty distinct onward source target empty
    · rename_i v queue head
      split
      · rename_i answer stopped
        obtain ⟨edge, out, allowed, arrives, rfl⟩ := Frontier.follow_error stopped
        obtain ⟨route, exact, silent, _⟩ := searched.routes v (by simp [head])
        obtain ⟨further, exact, silent⟩ := Visit.over_route route exact silent out allowed
        have here : Leads ts lossy src dst (v.over edge).path := ⟨_, further, arrives⟩
        refine ⟨by simp only [true_iff]; exact ⟨_, here⟩, fun _ => here, ?_, silent, ?_⟩
        · intro _ quiet
          exact ⟨_, exact quiet, arrives⟩
        · -- another way still has to pass the queue, and its first entry is the nearest
          intro path leads
          obtain ⟨w, queued, short⟩ := searched.ahead distinct onward source target leads
          have levels := searched.levels
          rw [head, List.pairwise_cons] at levels
          have nearest : v.path.length ≤ w.path.length := by
            rw [head, List.mem_cons] at queued
            rcases queued with rfl | queued
            · exact Nat.le_refl _
            · exact (levels.1 w queued).1
          simp only [Visit.over, List.length_append, List.length_singleton]
          omega
      · rename_i f' went
        refine ih (searched.step head went) ?_
        simp only [List.length_append, List.length_singleton]
        omega

end Searched

namespace Tables

variable {T : Ty → Prop} {ts : Tables} {src dst : Ty}

theorem searchConversion_answered (distinct : Distinguished T)
    (onward : ∀ t, T t → ∀ edge ∈ ts.conversionEdges t, T edge.dest) (source : T src) (target : T dst)
    (different : (src == dst) = false) (lossy : Bool) :
    Answered ts lossy src dst (ts.searchConversion src dst lossy) :=
  (Searched.initial different).answered distinct onward source target (by simp)

theorem closure?_shortest (distinct : Distinguished T)
    (onward : ∀ t, T t → ∀ edge ∈ ts.conversionEdges t, T edge.dest) (source : T src) (target : T dst)
    (different : (src == dst) = false) : Shortest ts src dst (ts.closure? src dst) := by
  have strict := searchConversion_answered distinct onward source target different false
  have all := searchConversion_answered distinct onward source target different true
  unfold closure?
  dsimp only
  split
  · rename_i found
    have way := strict.leads found
    refine ⟨?_, fun _ => way.weaken, ?_, fun path leads => ⟨way, strict.least path leads⟩, ?_⟩
    · exact iff_of_true found ⟨_, way.weaken⟩
    · exact fun _ => iff_of_true (strict.warning rfl) ⟨_, way⟩
    · intro noExact
      exact absurd way (noExact _)
  · rename_i missed
    have noExact : ∀ path, ¬Leads ts false src dst path := by
      intro path leads
      exact missed (strict.found_iff.mpr ⟨path, leads⟩)
    refine ⟨all.found_iff, all.leads, ?_, fun path leads => absurd leads (noExact path),
      fun _ => all.least⟩
    intro found
    constructor
    · exact fun quiet => ⟨_, all.exact found quiet⟩
    · rintro ⟨path, leads⟩
      exact absurd leads (noExact path)

end Tables

end TypeEngine
