import TypeEngine.Proofs.Firsts
import TypeEngine.Proofs.Ty.Equality
import TypeEngine.Symbols.Conversion

/-!
# The table of conversions

Conversions can be added in any order, from any source, and again. For each source the table has one
edge to each destination, in the order in which destinations first came, and the edge warns exactly if
all its additions did (`additions_tabulate`). The table changes edges in place; `edges_add` says what an
addition does to the edges of one source, and leaves those of the others alone.
-/

namespace TypeEngine

/-- A conversion that is added to the table. -/
structure Addition where
  src : Ty
  dst : Ty
  warning : Bool

/-- The keys of path and arguments, by which a source is known. -/
def Ty.filing (t : Ty) : String × String := (t.main.key, Slot.key t.extra)

def FiledEdge.filing (f : FiledEdge) : String × String := (f.mainKey, f.extraKey)

namespace ConversionGraph

variable {g g' : ConversionGraph} {src origin : Ty} {warning : Bool} {edge e : ConversionEdge}
  {known : List ConversionEdge} {calls others : List Addition}

theorem leaves_iff {f : FiledEdge} : FiledEdge.leaves f src = true ↔ f.filing = src.filing := by
  simp [FiledEdge.leaves, FiledEdge.filing, Ty.filing]

/-! ### The edges of one source -/

/-- Adds an edge at the end, or weakens the warning of the one with the same destination. -/
def put (edge : ConversionEdge) : List ConversionEdge → List ConversionEdge
  | [] => [edge]
  | e :: rest =>
    if e.dest == edge.dest then { e with warning := e.warning && edge.warning } :: rest
    else e :: put edge rest

theorem filter_addTo_of_eq (same : origin.filing = src.filing) (target : Ty) (filed : List FiledEdge) :
    ((addTo origin target warning filed).filter (FiledEdge.leaves · src)).map FiledEdge.edge =
      put ⟨target, warning⟩ ((filed.filter (FiledEdge.leaves · src)).map FiledEdge.edge) := by
  have leaves : ∀ f, FiledEdge.leaves f origin = FiledEdge.leaves f src := fun f => by
    rw [Bool.eq_iff_iff, leaves_iff, leaves_iff, same]
  induction filed with
  | nil =>
    have own : FiledEdge.leaves ⟨origin.main.key, Slot.key origin.extra, ⟨target, warning⟩⟩ src = true :=
      leaves_iff.mpr same
    simp [addTo, own, put]
  | cons f rest ih =>
    rw [addTo, leaves]
    cases here : FiledEdge.leaves f src with
    | false => simp [here, ih]
    | true =>
      cases hit : f.edge.dest == target with
      | false => simp [here, hit, put, ih]
      | true =>
        have kept : FiledEdge.leaves { f with edge := { f.edge with warning := f.edge.warning && warning } } src =
          true := here
        simp [here, hit, put, kept]

theorem filter_addTo_of_ne (other : origin.filing ≠ src.filing) (target : Ty) (filed : List FiledEdge) :
    (addTo origin target warning filed).filter (FiledEdge.leaves · src) =
      filed.filter (FiledEdge.leaves · src) := by
  induction filed with
  | nil =>
    have own : ¬FiledEdge.leaves ⟨origin.main.key, Slot.key origin.extra, ⟨target, warning⟩⟩ src = true :=
      fun here => other (leaves_iff.mp here)
    simp [addTo, own]
  | cons f rest ih =>
    rw [addTo]
    split
    · rename_i hit
      rw [Bool.and_eq_true, leaves_iff] at hit
      have away : ¬FiledEdge.leaves f src = true := fun here => other (hit.1.symm.trans (leaves_iff.mp here))
      rw [List.filter_cons_of_neg (a := f) away, List.filter_cons_of_neg]
      exact away
    · rw [List.filter_cons, List.filter_cons, ih]

theorem edges_add (g : ConversionGraph) (a : Addition) (src : Ty) :
    (g.add a.src a.dst a.warning).edges src =
      if a.src.filing = src.filing then put ⟨a.dst, a.warning⟩ (g.edges src) else g.edges src := by
  split
  · rename_i same
    exact filter_addTo_of_eq same a.dst g.filed
  · rename_i other
    exact congrArg (List.map FiledEdge.edge) (filter_addTo_of_ne other a.dst g.filed)

theorem map_dest_put (edge : ConversionEdge) (known : List ConversionEdge) :
    (put edge known).map ConversionEdge.dest =
      if (known.map ConversionEdge.dest).any (· == edge.dest) then known.map ConversionEdge.dest
      else known.map ConversionEdge.dest ++ [edge.dest] := by
  induction known with
  | nil => rfl
  | cons e rest ih =>
    rw [put, List.map_cons, List.any_cons]
    cases hit : e.dest == edge.dest with
    | true => rfl
    | false =>
      rw [if_neg Bool.false_ne_true, List.map_cons, ih, Bool.false_or]
      split <;> rfl

theorem mem_put (distinct : (known.map fun e => e.dest.bare).Nodup) (member : e ∈ put edge known) :
    (e ∈ known ∧ ¬(edge.dest == e.dest) = true) ∨
      (∃ e' ∈ known, (edge.dest == e'.dest) = true ∧ e = { e' with warning := e'.warning && edge.warning }) ∨
      ((∀ e' ∈ known, ¬(edge.dest == e'.dest) = true) ∧ e = edge) := by
  induction known with
  | nil => exact .inr (.inr ⟨fun e' inside => absurd inside List.not_mem_nil, List.mem_singleton.mp member⟩)
  | cons e₀ rest ih =>
    obtain ⟨new, distinct⟩ := List.nodup_cons.mp distinct
    rw [put] at member
    split at member
    · rename_i hit
      rcases List.mem_cons.mp member with rfl | member
      · exact .inr (.inl ⟨e₀, List.mem_cons_self, Ty.beq_symm hit, rfl⟩)
      · refine .inl ⟨List.mem_cons_of_mem _ member, fun twin => new ?_⟩
        exact List.mem_map.mpr ⟨e, member, (Ty.beq_iff_bare.mp (Ty.beq_trans hit twin)).symm⟩
    · rename_i miss
      have apart : ¬(edge.dest == e₀.dest) = true := fun twin => miss (Ty.beq_symm twin)
      rcases List.mem_cons.mp member with rfl | member
      · exact .inl ⟨List.mem_cons_self, apart⟩
      · rcases ih distinct member with ⟨inside, other⟩ | ⟨e', inside, twin, rfl⟩ | ⟨none, rfl⟩
        · exact .inl ⟨List.mem_cons_of_mem _ inside, other⟩
        · exact .inr (.inl ⟨e', List.mem_cons_of_mem _ inside, twin, rfl⟩)
        · exact .inr (.inr ⟨List.forall_mem_cons.mpr ⟨apart, none⟩, rfl⟩)

/-! ### The table -/

/-- The table after additions to an empty one. -/
def ofAdditions (calls : List Addition) : ConversionGraph :=
  calls.foldl (fun g a => g.add a.src a.dst a.warning) empty

/-- The destinations that were added for a source, in order, with repetitions. -/
def destinations (calls : List Addition) (src : Ty) : List Ty :=
  (calls.filter (·.src.filing = src.filing)).map Addition.dst

/-- The table says what was added: one edge for each destination of a source, which warns if all its
additions do, and nothing else. -/
structure Tabulates (g : ConversionGraph) (calls : List Addition) : Prop where
  dests (src : Ty) : (g.edges src).map ConversionEdge.dest = firsts (· == ·) (destinations calls src)
  warns (src : Ty) : ∀ e ∈ g.edges src, (e.warning = true ↔
    ∀ a ∈ calls, a.src.filing = src.filing → (a.dst == e.dest) = true → a.warning = true)
  size : g.size = ((firsts (·.filing = ·.filing) (calls.map Addition.src)).flatMap g.edges).length

theorem ofAdditions_concat (calls : List Addition) (a : Addition) :
    ofAdditions (calls ++ [a]) = (ofAdditions calls).add a.src a.dst a.warning := by
  rw [ofAdditions, List.foldl_append]
  rfl

theorem destinations_concat (calls : List Addition) (a : Addition) (src : Ty) :
    destinations (calls ++ [a]) src =
      if a.src.filing = src.filing then destinations calls src ++ [a.dst] else destinations calls src := by
  by_cases here : a.src.filing = src.filing <;> simp [destinations, here]

theorem map_dest_edges (calls : List Addition) (src : Ty) :
    ((ofAdditions calls).edges src).map ConversionEdge.dest = firsts (· == ·) (destinations calls src) := by
  induction calls using List.reverseRecOn with
  | nil => rfl
  | append_singleton calls a ih =>
    rw [ofAdditions_concat, edges_add, destinations_concat]
    split
    · rw [map_dest_put, ih, any_firsts @Ty.beq_iff_bare, firsts_concat]
    · exact ih

theorem nodup_edges (calls : List Addition) (src : Ty) :
    (((ofAdditions calls).edges src).map fun e => e.dest.bare).Nodup := by
  have distinct := nodup_firsts @Ty.beq_iff_bare (destinations calls src)
  rwa [← map_dest_edges, List.map_map] at distinct

theorem warning_iff (calls : List Addition) (src : Ty) :
    ∀ e ∈ (ofAdditions calls).edges src, (e.warning = true ↔
      ∀ a ∈ calls, a.src.filing = src.filing → (a.dst == e.dest) = true → a.warning = true) := by
  induction calls using List.reverseRecOn with
  | nil => exact fun e member => absurd member List.not_mem_nil
  | append_singleton calls a ih =>
    intro e member
    rw [ofAdditions_concat, edges_add] at member
    rw [List.forall_mem_append, List.forall_mem_singleton]
    split at member
    · rename_i here
      rcases mem_put (nodup_edges calls src) member with ⟨old, other⟩ | ⟨e', old, twin, rfl⟩ | ⟨none, rfl⟩
      · rw [ih e old]
        exact ⟨fun all => ⟨all, fun _ twin => absurd twin other⟩, And.left⟩
      · rw [Bool.and_eq_true, ih e' old]
        exact and_congr_right fun _ => ⟨fun warns _ _ => warns, fun warns => warns here twin⟩
      · -- A destination that no edge has was not added before.
        have unknown : (destinations calls src).any (· == a.dst) = false := by
          rw [← any_firsts @Ty.beq_iff_bare, ← map_dest_edges, List.any_eq_false]
          intro d known twin
          obtain ⟨e', inside, rfl⟩ := List.mem_map.mp known
          exact none e' inside (Ty.beq_symm twin)
        refine ⟨fun warns => ⟨fun b earlier same twin => ?_, fun _ _ => warns⟩, fun all => all.2 here (Ty.beq_rfl _)⟩
        have known : b.dst ∈ destinations calls src :=
          List.mem_map_of_mem (List.mem_filter.mpr ⟨earlier, decide_eq_true same⟩)
        exact absurd twin (List.any_eq_false.mp unknown b.dst known)
    · rename_i away
      rw [ih e member]
      exact ⟨fun all => ⟨all, fun same => absurd same away⟩, And.left⟩

/-! ### The number of edges -/

theorem filing_of_mem_addTo {target : Ty} {f : FiledEdge} {filed : List FiledEdge}
    (member : f ∈ addTo src target warning filed) :
    f.filing = src.filing ∨ f.filing ∈ filed.map FiledEdge.filing := by
  induction filed with
  | nil =>
    obtain rfl := List.mem_singleton.mp member
    exact .inl rfl
  | cons f₀ rest ih =>
    rw [addTo] at member
    split at member
    · rcases List.mem_cons.mp member with rfl | member
      · exact .inr List.mem_cons_self
      · exact .inr (List.mem_map_of_mem (List.mem_cons_of_mem _ member))
    · rcases List.mem_cons.mp member with rfl | member
      · exact .inr List.mem_cons_self
      · exact (ih member).imp_right (List.mem_cons_of_mem _)

theorem filing_mem (calls : List Addition) :
    ∀ f ∈ (ofAdditions calls).filed, f.filing ∈ calls.map (·.src.filing) := by
  induction calls using List.reverseRecOn with
  | nil => exact fun f member => absurd member List.not_mem_nil
  | append_singleton calls a ih =>
    intro f member
    rw [ofAdditions_concat] at member
    rw [List.map_append, List.mem_append]
    rcases filing_of_mem_addTo member with own | old
    · exact .inr (List.mem_singleton.mpr own)
    · obtain ⟨f', inside, same⟩ := List.mem_map.mp old
      exact .inl (same ▸ ih f' inside)

/-- The edges of a source among those that are filed. -/
def edgesAmong (filed : List FiledEdge) (src : Ty) : List ConversionEdge :=
  (filed.filter (FiledEdge.leaves · src)).map FiledEdge.edge

theorem length_flatMap_cons (f : FiledEdge) (filed : List FiledEdge) (sources : List Ty) :
    (sources.flatMap (edgesAmong (f :: filed))).length =
      sources.countP (FiledEdge.leaves f ·) + (sources.flatMap (edgesAmong filed)).length := by
  induction sources with
  | nil => rfl
  | cons s sources ih =>
    rw [List.flatMap_cons, List.flatMap_cons, List.length_append, List.length_append, ih, List.countP_cons]
    cases here : FiledEdge.leaves f s <;> simp [edgesAmong, here] <;> omega

theorem length_flatMap_edges {filed : List FiledEdge} {sources : List Ty}
    (once : ∀ f ∈ filed, sources.countP (FiledEdge.leaves f ·) = 1) :
    (sources.flatMap (edgesAmong filed)).length = filed.length := by
  induction filed with
  | nil => simp [edgesAmong]
  | cons f filed ih =>
    obtain ⟨here, later⟩ := List.forall_mem_cons.mp once
    rw [length_flatMap_cons, here, ih later, List.length_cons, Nat.add_comm]

theorem size_ofAdditions (calls : List Addition) : (ofAdditions calls).size =
    ((firsts (·.filing = ·.filing) (calls.map Addition.src)).flatMap (ofAdditions calls).edges).length := by
  have views : ∀ s s' : Ty, decide (s.filing = s'.filing) = true ↔ s.filing = s'.filing :=
    fun _ _ => decide_eq_true_iff
  refine (ofAdditions calls).counted.trans (length_flatMap_edges fun f member => ?_).symm
  obtain ⟨a, added, same⟩ := List.mem_map.mp (filing_mem calls f member)
  -- Of the sources with the keys of the edge, the first one is there, and only this one.
  have distinct := nodup_firsts views (calls.map Addition.src)
  have present : f.filing ∈ (firsts (·.filing = ·.filing) (calls.map Addition.src)).map Ty.filing := by
    rw [map_firsts views, List.mem_eraseDups, List.map_map]
    exact List.mem_map.mpr ⟨a, added, same⟩
  rw [← List.count_eq_one_of_mem distinct present, List.count, List.countP_map]
  refine List.countP_congr fun s _ => ?_
  rw [leaves_iff, Function.comp_apply, beq_iff_eq, eq_comm]

/-! ### Main statement -/

theorem ofAdditions_tabulates (calls : List Addition) : (ofAdditions calls).Tabulates calls :=
  ⟨map_dest_edges calls, warning_iff calls, size_ofAdditions calls⟩

theorem Tabulates.warning_perm (one : g.Tabulates calls) (two : g'.Tabulates others)
    (order : calls.Perm others) (member : e ∈ g.edges src) :
    ∃ e' ∈ g'.edges src, (e'.dest == e.dest) = true ∧ e'.warning = e.warning := by
  have known : (destinations calls src).any (· == e.dest) = true := by
    rw [← any_firsts @Ty.beq_iff_bare, ← one.dests]
    exact List.any_eq_true.mpr ⟨e.dest, List.mem_map_of_mem member, Ty.beq_rfl _⟩
  have known' : (destinations others src).any (· == e.dest) = true :=
    ((order.filter _).map Addition.dst).any_eq ▸ known
  rw [← any_firsts @Ty.beq_iff_bare, ← two.dests] at known'
  obtain ⟨d, inside, twin⟩ := List.any_eq_true.mp known'
  obtain ⟨e', member', rfl⟩ := List.mem_map.mp inside
  refine ⟨e', member', twin, ?_⟩
  rw [Bool.eq_iff_iff, one.warns src e member, two.warns src e' member']
  simp only [order.mem_iff, Ty.beq_congr_right twin]

/-- After any additions the table says what was added, and which edges warn does not depend on the
order of the additions. -/
theorem additions_tabulate (calls : List Addition) :
    (ofAdditions calls).Tabulates calls ∧
      ∀ others, calls.Perm others → ∀ src, ∀ e ∈ (ofAdditions calls).edges src,
        ∃ e' ∈ (ofAdditions others).edges src, (e'.dest == e.dest) = true ∧ e'.warning = e.warning :=
  ⟨ofAdditions_tabulates calls, fun others order _ _ =>
    (ofAdditions_tabulates calls).warning_perm (ofAdditions_tabulates others) order⟩

end ConversionGraph

end TypeEngine
