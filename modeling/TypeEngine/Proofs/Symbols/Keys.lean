import TypeEngine.Proofs.Ty.Equality
import TypeEngine.Symbols.Table

/-!
# Keys of types

Tables file types by their keys, and two different types can have the same key. `Distinguished`
says that this does not happen among the types of a collection. Conversions are filed by the keys
of path and arguments, so equal types of such a collection have the same conversions. What is
declared at a path depends on its key alone, and so on the bare path.
-/

namespace TypeEngine

namespace Tables

variable {ts : Tables} {p q : Path}

theorem type?_congr (same : p.bare = q.bare) : ts.type? p = ts.type? q := by
  rw [type?, type?, under, under, Path.key_congr same]

theorem property?_congr (same : p.bare = q.bare) (name : String) :
    ts.property? p name = ts.property? q name := by
  rw [property?, property?, under, under, Path.key_congr same]

theorem interfaces?_congr (same : p.bare = q.bare) : ts.interfaces? p = ts.interfaces? q := by
  rw [interfaces?, interfaces?, under, under, Path.key_congr same]

end Tables

/-- Among the types of `T`, those with the same key are equal and equal types have the same key;
likewise for the keys of path and arguments together. -/
structure Distinguished (T : Ty → Prop) : Prop where
  key_iff : ∀ {a b : Ty}, T a → T b → (a.key = b.key ↔ (a == b) = true)
  filed_iff : ∀ {a b : Ty}, T a → T b →
    (a.main.key = b.main.key ∧ Slot.key a.extra = Slot.key b.extra ↔ (a == b) = true)

theorem ConversionGraph.edges_congr {g : ConversionGraph} {a b : Ty}
    (main : a.main.key = b.main.key) (extra : Slot.key a.extra = Slot.key b.extra) :
    g.edges a = g.edges b := by
  have leaves : ∀ f : FiledEdge, FiledEdge.leaves f a = FiledEdge.leaves f b := by
    intro f
    simp only [FiledEdge.leaves, main, extra]
  simp only [ConversionGraph.edges, leaves]

theorem Distinguished.ofList {types : List Ty}
    (checked : ∀ a ∈ types, ∀ b ∈ types, (a.key = b.key ↔ (a == b) = true) ∧
      (a.main.key = b.main.key ∧ Slot.key a.extra = Slot.key b.extra ↔ (a == b) = true)) :
    Distinguished (· ∈ types) :=
  ⟨fun ha hb => (checked _ ha _ hb).1, fun ha hb => (checked _ ha _ hb).2⟩

variable {T : Ty → Prop}

theorem Distinguished.edges_eq (distinct : Distinguished T) (ts : Tables) {a b : Ty} (ha : T a)
    (hb : T b) (same : (a == b) = true) : ts.conversionEdges a = ts.conversionEdges b := by
  obtain ⟨main, extra⟩ := (distinct.filed_iff ha hb).mpr same
  simp only [Tables.conversionEdges, ConversionGraph.edges_congr main extra]

theorem Tables.conversionEdges_subset (ts : Tables) (t : Ty) :
    ts.conversionEdges t ⊆ (Builtin.conversions.filed ++ ts.conversions.filed).map FiledEdge.edge := by
  intro edge member
  simp only [Tables.conversionEdges, ConversionGraph.edges, List.mem_append, List.mem_map,
    List.mem_filter] at member
  rw [List.mem_map]
  rcases member with ⟨f, ⟨filed, _⟩, rfl⟩ | ⟨f, ⟨filed, _⟩, rfl⟩
  · exact ⟨f, List.mem_append_left _ filed, rfl⟩
  · exact ⟨f, List.mem_append_right _ filed, rfl⟩

end TypeEngine
